/-
# A client that asks while others write

A client holds ids, a copy of each object and the state it stands at.  It asks for the changes since
that state with a limit of its own, fetches what it is told of when it likes, and goes on from where
the page ends.  Meanwhile others write, so each page is cut out of a longer log than the one before.

**The client stands where the log was at its state** (`Client.Follows`): a page takes it from one
state to the next, and a write adds rows after its state only.  So it catches up whenever a page is
the last one (`client_catches_up`).
-/
import UwuMail.Lib.Trace
import UwuMail.Store.Complete

namespace UwuMail.Store

/-! ## 1. The client's view -/

section View

/-- What may come next: somebody writes, the client asks for the changes since its state, with a
limit as it likes, or it fetches an object. -/
inductive ClientStep where
  | write (op : StoreOp)
  | ask (maxChanges : Nat)
  | fetch (o : Int)

/-- The store, and a client with the ids it holds, the state it stands at, its copies, and what it
has yet to fetch. -/
structure Client where
  db : Db
  ids : Set Int
  state : Int
  copy : Int → List Shown
  stale : Set Int

/-- A client that has everything of one kind. -/
def Client.of (db : Db) (account : Int) (kind : ObjectKind) (state : Int) : Client :=
  ⟨db, {o | o ∈ db.objects account kind}, state, db.shown account kind, ∅⟩

/-- What a client does with a page. -/
def Client.take (c : Client) (page : Changes) : Client :=
  { c with ids := page.apply c.ids, state := page.newState, stale :=
    c.stale ∪ {o | o ∈ page.created ∨ o ∈ page.updated} }

def Client.step (ext : Externals) (account : Int) (kind : ObjectKind) (c : Client) : ClientStep → Option Client
  | .write op => some { c with db := op.run ext c.db }
  | .ask maxChanges =>
    match changes c.db account kind c.state maxChanges with
    | .ok page => some (c.take page)
    | .error _ => none
  | .fetch o => some { c with copy := Function.update c.copy o (c.db.shown account kind o), stale := c.stale \ {o} }

/-- Whoever writes loses no row. -/
def Client.Traceable (c : Client) : ClientStep → Prop
  | .write op => op.Traceable c.db
  | _ => True

variable {ext : Externals} {s : Db} {c c' : Client} {x n : Int} {kind : ObjectKind}

/-- The log has nothing on the object after the client's state. -/
def Client.Quiet (c : Client) (x : Int) (kind : ObjectKind) (o : Int) : Prop :=
  ∀ m change, ⟨x, m, kind, o, change⟩ ∈ c.db.changes → m ≤ c.state

/-- **The client stands where the log was at its state.**  It holds what was there at first or was
created since, up to its state, and was not destroyed; and its copies are good but for what it has
yet to fetch or be told of. -/
structure Client.Follows (s : Db) (x n : Int) (kind : ObjectKind) (c : Client) : Prop where
  intact : Intact c.db
  logged : Logged c.db
  since : Since s x n none c.db
  buries : Buries s x n c.db
  start : n ≤ c.state
  upto : ∀ m, c.db.modseqOf x = some m → c.state ≤ m
  ids : ∀ o, o ∈ c.ids ↔ (o ∈ s.objects x kind ∨ c.db.Says x kind o .created n c.state) ∧
    ¬ c.db.Says x kind o .destroyed n c.state
  copies : ∀ o ∈ c.ids, o ∉ c.stale → c.Quiet x kind o → c.copy o = c.db.shown x kind o

theorem Client.Follows.begin (hi : Intact s) (hs : Logged s) (hn : s.modseqOf x = some n) :
    (Client.of s x kind n).Follows s x n kind := by
  have hnone : ∀ {o change}, ¬ s.Says x kind o change n n := by
    rintro o change ⟨m, hlt, hle, -⟩
    omega
  exact ⟨hi, hs, .start hi hn, .start hi hn, le_refl n, fun m hm => (Option.some.inj (hn.symm.trans hm)).le,
    fun o => by simp [Client.of, hnone], fun _ _ _ _ => rfl⟩

theorem Db.says_split {t : Db} {o lo mid hi : Int} {change : ChangeType} (hlo : lo ≤ mid) (hhi : mid ≤ hi) :
    t.Says x kind o change lo hi ↔ t.Says x kind o change lo mid ∨ t.Says x kind o change mid hi := by
  constructor
  · rintro ⟨m, hlt, hle, hrow⟩
    by_cases hm : m ≤ mid
    · exact .inl ⟨m, hlt, hm, hrow⟩
    · exact .inr ⟨m, not_le.1 hm, hle, hrow⟩
  · rintro (⟨m, hlt, hle, hrow⟩ | ⟨m, hlt, hle, hrow⟩)
    · exact ⟨m, hlt, hle.trans hhi, hrow⟩
    · exact ⟨m, by omega, hle, hrow⟩

/-- What it holds, and nothing has happened to since, is there. -/
theorem Client.Follows.there (h : c.Follows s x n kind) (hi : Intact s) (hs : Logged s)
    (hn : s.modseqOf x = some n) {m o : Int}
    (hcurrent : c.db.modseqOf x = some m) (ho : o ∈ c.ids) (hquiet : c.Quiet x kind o) :
        o ∈ c.db.objects x kind := by
  have htells := h.since.tells hi hn hs h.logged h.buries (h.intact.upto hcurrent) kind o
  have hnone : ∀ change, ¬ c.db.Says x kind o change c.state m := by
    rintro change ⟨m', hlt, -, hrow⟩
    have := hquiet m' change hrow
    omega
  rw [htells.there, Db.says_split h.start (h.upto m hcurrent), Db.says_split h.start (h.upto m hcurrent)]
  simpa only [hnone, or_false] using (h.ids o).1 ho

/-- Somebody writes: the rows up to the client's state stay as they are. -/
theorem Client.Follows.write (h : c.Follows s x n kind) (hi : Intact s) (hs : Logged s)
    (hn : s.modseqOf x = some n)
    {op : StoreOp} (hop : op.Traceable c.db) : { c with db := op.run ext c.db }.Follows s x n kind := by
  have hout := op.outcome h.intact ext
  have hi' := hout.intact h.intact
  obtain ⟨ht, hsince⟩ := hout.since h.intact hs ⟨h.logged, h.since⟩
  obtain ⟨r, hr, hid, -⟩ := h.since.reached
  obtain ⟨log, hcurrent, -⟩ := h.intact.changeLog ⟨r, hr, hid⟩ kind
  have hupto := h.upto _ hcurrent
  -- What happens from here on.
  obtain ⟨-, hnext⟩ := hout.since h.intact h.logged ⟨h.logged, .start h.intact hcurrent⟩
  have hsaid : ∀ o change, (op.run ext c.db).Says x kind o change n c.state ↔
      c.db.Says x kind o change n c.state := by
    refine fun o change => ⟨?_, ?_⟩
    · rintro ⟨m, hlt, hle, hrow⟩
      refine ⟨m, hlt, hle, (hnext.later _ hrow rfl).resolve_right ?_⟩
      exact not_lt.2 (hle.trans hupto)
    · rintro ⟨m, hlt, hle, hrow⟩
      exact ⟨m, hlt, hle, hnext.keep _ hrow⟩
  refine ⟨hi', ht, hsince, hout.buries h.intact hop h.logged h.buries, h.start, fun m hm => ?_, fun o => ?_,
    fun o ho hstale hquiet => ?_⟩
  · obtain ⟨r', hr', hid', hle'⟩ := hnext.reached
    exact hupto.trans ((hi'.keyed.modseq_eq hm).2 r' hr' hid' ▸ hle')
  · rw [hsaid, hsaid]
    exact h.ids o
  · have hquiet' : c.Quiet x kind o := fun m change hrow => hquiet m change (hnext.keep _ hrow)
    refine (h.copies o ho hstale hquiet').trans
      (hnext.shown kind o (h.there hi hs hn hcurrent ho hquiet') (by simp) ?_).2.symm
    rintro ⟨_, m, _, _, change⟩ hrow rfl rfl rfl
    exact (hquiet m change hrow).trans hupto

/-- What a page makes of the client, and where it ends. -/
theorem Client.Follows.ask (h : c.Follows s x n kind) (hi : Intact s) (hs : Logged s)
    (hn : s.modseqOf x = some n)
    (maxChanges : Nat) : ∃ page, changes c.db x kind c.state maxChanges = .ok page ∧
      (c.take page).Follows s x n kind ∧
      (page.hasMore = true → c.state < page.newState) ∧ (maxChanges = 0 → page.hasMore = false) ∧
      (page.hasMore = false → (∀ o, o ∈ (c.take page).ids ↔ o ∈ c.db.objects x kind) ∧
        ∀ o ∈ (c.take page).ids, o ∉ (c.take page).stale → c.copy o = c.db.shown x kind o) := by
  obtain ⟨r, hr, hid, -⟩ := h.since.reached
  obtain ⟨log, hcurrent, hrows, hlog⟩ := h.intact.changeLog ⟨r, hr, hid⟩ kind
  have hstart := h.start
  have hupto := h.upto _ hcurrent
  have hnonneg := hi.nonneg hn
  obtain ⟨page, hpage, hends⟩ := ChangeLog.changes_ends (hnonneg.trans hstart) hupto maxChanges
  have hle := hends.le hupto
  have hstate : page.newState ≤ log.current := by
    cases hmore : page.hasMore with
    | true => exact (hends.more hmore).2.le
    | false => exact (hends.last hmore).le
  have htells := h.since.tells hi hn hs h.logged h.buries (h.intact.upto hcurrent) kind
  -- What the page says is created was not there before, nor destroyed.
  have hnew : ∀ {o}, c.db.Says x kind o .created c.state page.newState →
      o ∉ c.ids ∧ ¬ c.db.Says x kind o .destroyed n c.state := by
    rintro o ⟨m, hlt, hle, hrow⟩
    have hbegins := (htells o).begins m (by omega) hrow
    have hfirst : ∀ change, ¬ c.db.Says x kind o change n c.state := by
      rintro change ⟨m', -, hle', hrow'⟩
      rcases hbegins.2 m' change hrow' with ⟨rfl, -⟩ | ⟨hlt', -⟩ <;> omega
    have hnot := (htells o).created ⟨m, by omega, hle.trans hstate, hrow⟩
    exact ⟨fun ho => ((h.ids o).1 ho).1.elim hnot (hfirst _), hfirst _⟩
  have htold : ∀ o, o ∈ page.apply c.ids ↔ (o ∈ c.ids ∨ c.db.Says x kind o .created c.state page.newState) ∧
      ¬ c.db.Says x kind o .destroyed c.state page.newState := by
    intro o
    rw [hends.tells o c.ids, told_iff ((htells o).first hrows hstart) fun hc =>
      (hnew ((mem_changesOf_between hrows).1 hc)).1,
      mem_changesOf_between hrows, mem_changesOf_between hrows]
  have hfollows : (c.take page).Follows s x n kind := by
    refine ⟨h.intact, h.logged, h.since, h.buries, hstart.trans hle, fun m hm => ?_, fun o => ?_,
      fun o ho hstale hquiet => ?_⟩
    · exact Option.some.inj (hcurrent.symm.trans hm) ▸ hstate
    · change o ∈ page.apply c.ids ↔ (_ ∨ c.db.Says x kind o .created n page.newState) ∧
        ¬ c.db.Says x kind o .destroyed n page.newState
      rw [htold o, h.ids o, Db.says_split hstart hle, Db.says_split hstart hle]
      have := fun h => (hnew (o := o) h).2
      tauto
    · -- What the page has a row about, and that stays, it names.
      obtain ⟨hheld, hdestroyed⟩ := (htold o).1 ho
      obtain ⟨hcreated, hupdated⟩ := hends.named o
      obtain ⟨hseen, -, hseen'⟩ :=
        seenOf_iff (l := changesOf o (log.between c.state page.newState)) ((htells o).first hrows hstart)
      rw [hseen, mem_changesOf_between hrows, mem_changesOf_between hrows] at hcreated
      rw [hseen', mem_changesOf_between hrows, mem_changesOf_between hrows] at hupdated
      have hno : ¬ c.db.Says x kind o .created c.state page.newState := fun hc =>
        hstale (.inr (.inl (hcreated.2 ⟨hc, hdestroyed⟩)))
      refine h.copies o (hheld.resolve_right hno) (fun hold => hstale (.inl hold)) fun m change hrow => ?_
      by_contra hlt
      refine hstale (.inr (.inr (hupdated.2 ⟨fun hnil => ?_, hno, hdestroyed⟩)))
      exact List.not_mem_nil (hnil ▸ (mem_changesOf_between hrows).2 ⟨m, not_le.1 hlt,
        hquiet m change hrow, hrow⟩)
  refine ⟨page, (hlog _ _).trans hpage, hfollows, fun hmore => (hends.more hmore).1, hends.all,
    fun hmore => ⟨fun o => ?_,
    fun o ho hstale => hfollows.copies o ho hstale fun m change hrow => ?_⟩⟩
  · have hlast : (c.take page).state = log.current := hends.last hmore
    rw [hfollows.ids o, (htells o).there, hlast]
    rfl
  · exact (h.intact.upto hcurrent _ hrow rfl).trans (hends.last hmore).ge

theorem Client.Follows.step (h : c.Follows s x n kind) (hi : Intact s) (hs : Logged s)
    (hn : s.modseqOf x = some n)
    {e : ClientStep} (hok : c.Traceable e) (hstep : c.step ext x kind e = some c') :
        c'.Follows s x n kind := by
  cases e with
  | write op =>
    cases hstep
    exact h.write hi hs hn hok
  | ask maxChanges =>
    obtain ⟨page, hpage, hfollows, -⟩ := h.ask hi hs hn maxChanges
    rw [Client.step, hpage] at hstep
    cases hstep
    exact hfollows
  | fetch o =>
    cases hstep
    refine { h with copies := fun o' ho' hstale hquiet => ?_ }
    by_cases heq : o' = o
    · subst heq
      exact Function.update_self ..
    · change Function.update c.copy o _ o' = _
      rw [Function.update_of_ne heq]
      exact h.copies o' ho' (fun hold => hstale ⟨hold, heq⟩) hquiet

end View

/-- **A client that asks again and again catches up**, whatever the limits it asks with, whenever it
fetches and whatever others write in between, as long as their calls are traceable.  It is never
refused, a page that is not the last leads on, and with the last one it holds exactly the objects
that there are, each as it is but for those it has yet to fetch. -/
theorem client_catches_up (ext : Externals) (ops : List StoreOp) (account n : Int)
    (hn : (runOps ext ops {}).modseqOf account = some n) (kind : ObjectKind)
      (steps : List ClientStep) (c : Client)
    (hok : Trace.Along (Client.step ext account kind) Client.Traceable (.of (runOps ext ops {}) account kind n) steps)
    (hrun : Trace.run (Client.step ext account kind) (.of (runOps ext ops {}) account kind n) steps = some c)
    (maxChanges : Nat) : ∃ page, changes c.db account kind c.state maxChanges = .ok page ∧
      (page.hasMore = true → c.state < page.newState) ∧ (maxChanges = 0 → page.hasMore = false) ∧
      (page.hasMore = false → (∀ o, o ∈ (c.take page).ids ↔ o ∈ c.db.objects account kind) ∧
        ∀ o ∈ (c.take page).ids, o ∉ (c.take page).stale → c.copy o = c.db.shown account kind o) := by
  have hi : Intact (runOps ext ops {}) := intact_runOps ops
  have hs := logged_runOps ext ops
  generalize runOps ext ops {} = s at *
  have hfollows : c.Follows s account n kind := Trace.run_invariant
    (fun c e c' h hok hstep => h.step hi hs hn hok hstep) (.begin hi hs hn) hok hrun
  obtain ⟨page, hpage, -, hends⟩ := hfollows.ask hi hs hn maxChanges
  exact ⟨page, hpage, hends⟩

instance (c : Client) (e : ClientStep) : Decidable (c.Traceable e) := by
  cases e <;> unfold Client.Traceable <;> infer_instance

/-- A write between two pages, and a fetch. -/
def pageWritePage : List ClientStep := [.ask 1, .write (.destroyEmails 1 [1]), .ask 1, .fetch 2]

theorem client_catches_up_emails : ∃ c, Trace.run (Client.step plainExternals 1 .email)
      (.of (runOps plainExternals threadOps {}) 1 .email 3) pageWritePage = some c ∧
    ∃ page, changes c.db 1 .email c.state 0 = .ok page ∧
      (page.hasMore = true → c.state < page.newState) ∧ ((0 : Nat) = 0 → page.hasMore = false) ∧
      (page.hasMore = false → (∀ o, o ∈ (c.take page).ids ↔ o ∈ c.db.objects 1 .email) ∧
        ∀ o ∈ (c.take page).ids, o ∉ (c.take page).stale → c.copy o = c.db.shown 1 .email o) := by
  have hrun : (Trace.run (Client.step plainExternals 1 .email) (.of (runOps plainExternals threadOps {}) 1 .email 3)
      pageWritePage).isSome = true := by decide +kernel
  obtain ⟨c, hc⟩ := Option.isSome_iff_exists.1 hrun
  exact ⟨c, hc, client_catches_up plainExternals threadOps 1 3 (by decide +kernel) .email pageWritePage c
    (by decide +kernel) hc 0⟩

end UwuMail.Store
