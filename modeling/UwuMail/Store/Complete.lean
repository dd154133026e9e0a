/-
# The change log is complete

A client that stands at a state of an account asks what changed since, without a limit.  Where the
log is complete the answer tells it all: the objects that went, the objects that came, and every
object that stayed and looks different.

A transaction has ONE modseq and the log keeps the FIRST row of an object at a modseq, so a row that
ends an object is lost behind an update of it in the same transaction.  **The log loses the end of a
thread when one call destroys all of its two or more emails, and the end of a mailbox when
`destroy_mailbox` destroys an email with it.**  No other call loses a row, and in runs without these
two the log is complete (`changes_complete`).
-/
import UwuMail.Store.Paging
import UwuMail.Store.Removal
import UwuMail.Store.Shown

namespace UwuMail.Store

open Table

/-! ## 1. What an answer makes of an object -/

section Answer

variable {o : Int} {l : List ChangeType}

theorem aggregateLoop_all (current last : Int) (groups : List (List LogEntry)) (objects : SeenMap) :
    aggregateLoop current 0 groups last objects = (groups.flatten.foldl see objects, current, false) := by
  induction groups generalizing last objects with
  | nil => rfl
  | cons group groups ih => simp [aggregateLoop, ih, List.foldl_append]

/-- What `aggregate` says of an object is what the object's own rows make of it. -/
theorem mem_aggregate (rows : List LogEntry) (current o : Int) :
    (o ∈ (aggregate rows current 0).created ↔ seenOf (changesOf o rows) = some .created) ∧
    (o ∈ (aggregate rows current 0).updated ↔ seenOf (changesOf o rows) = some .updated) ∧
    (o ∈ (aggregate rows current 0).destroyed ↔ seenOf (changesOf o rows) = some .destroyed) := by
  have hget : (rows.foldl see SortedMap.empty).get? o = seenOf (changesOf o rows) := get?_foldl_see
  simp only [aggregate, aggregateLoop_all, List.flatten_splitBy, mem_keysOf, hget, and_self]

/-- Where a creation comes first if it comes at all, an object's rows make of it what they say. -/
theorem seenOf_iff (hfirst : .created ∈ l → ∃ back, l = .created :: back) :
    (seenOf l = some .created ↔ .created ∈ l ∧ .destroyed ∉ l) ∧
    (seenOf l = some .destroyed ↔ .destroyed ∈ l ∧ .created ∉ l) ∧
    (seenOf l = some .updated ↔ l ≠ [] ∧ .created ∉ l ∧ .destroyed ∉ l) := by
  cases l with
  | nil => simp [seenOf]
  | cons c l =>
    have hhead : .created ∈ c :: l → c = .created := fun h => by
      obtain ⟨back, heq⟩ := hfirst h
      exact (List.cons.inj heq).1
    rw [seenOf_cons]
    cases c with
    | created => by_cases hmem : .destroyed ∈ l <;> simp [hmem, Seen.next]
    | _ =>
      have hno : .created ∉ l := fun h => by cases hhead (List.mem_cons_of_mem _ h)
      by_cases hmem : .destroyed ∈ l <;> simp [hmem, hno, Seen.next]

/-- What the client holds of it then. -/
theorem told_iff {held : Prop} (hfirst : .created ∈ l → ∃ back, l = .created :: back)
    (hnew : .created ∈ l → ¬ held) :
    told (seenOf l) held ↔ (held ∨ .created ∈ l) ∧ .destroyed ∉ l := by
  obtain ⟨hcreated, hdestroyed, -⟩ := seenOf_iff hfirst
  generalize seenOf l = seen at hcreated hdestroyed ⊢
  by_cases hin : seen = some .created
  · obtain ⟨hc, hd⟩ := hcreated.1 hin
    subst hin
    exact iff_of_true trivial ⟨.inr hc, hd⟩
  by_cases hout : seen = some .destroyed
  · obtain ⟨hd, -⟩ := hdestroyed.1 hout
    subst hout
    exact iff_of_false id fun h => h.2 hd
  have hheld : told seen held ↔ held := by
    rcases seen with - | (- | - | - | -)
    all_goals first | rfl | contradiction
  rw [hheld]
  tauto

end Answer

/-! ## 2. What a part of a transaction does -/

variable {e : Event} {k : ObjectKind}

section Moves

variable {t t' : Db} {a b m x : Int} {dying dying' : Option Int}

/-- What one write of a transaction does to the log, to the objects and to what they show. -/
structure Moves (a m : Int) (dying dying' : Option Int) (t t' : Db) : Prop where
  account : ∀ r ∈ t.accounts, ∃ r' ∈ t'.accounts, r'.id = r.id ∧ r.modseq ≤ r'.modseq
  seq : ∀ k, t.seqOf k ≤ t'.seqOf k
  keep : ∀ c ∈ t.changes, c ∈ t'.changes
  row : ∀ c ∈ t'.changes, c ∈ t.changes ∨ c.accountId = a ∧ c.modseq = m ∧ c.objectId ≤ t'.seqOf c.kind ∧
    (c.objectId ∈ t.objects a c.kind ∧ c.objectId ≤ t.seqOf c.kind ∧ (∀ r ∈ t.changes, r.key ≠ c.key) ∧
        (c.objectId ∈ t'.objects a c.kind → c.change = .updated) ∨
      c.objectId ∈ t'.objects a c.kind ∧ t.seqOf c.kind < c.objectId ∧ c.change = .created)
  object : ∀ x k, ∀ o ∈ t'.objects x k, o ∈ t.objects x k ∨
    a = x ∧ t.seqOf k < o ∧ ∃ c ∈ t'.changes, c.key = (a, m, k, o)
  dies : ∀ b, dying = some b → dying' = some b ∨
    b ∈ t.objects a .mailbox ∧ ∃ c ∈ t'.changes, c.key = (a, m, .mailbox, b)
  same : ∀ x k, ∀ o ∈ t.objects x k, (k = .mailbox → dying ≠ some o) →
    (o ∈ t'.objects x k ∧ t'.shown x k o = t.shown x k o) ∨ a = x ∧ ∃ c ∈ t'.changes, c.key = (a, m, k, o)
  ended : ∀ x k, ∀ o ∈ t.objects x k, o ∉ t'.objects x k → a = x ∧ (∃ c ∈ t'.changes, c.key = (a, m, k, o)) ∧
    ∀ c ∈ t'.changes, c.kind = k → c.objectId = o → c ∈ t.changes ∨ c = ⟨a, m, k, o, .destroyed⟩

/-- Statements that write no mail. -/
theorem Moves.of_eq (haccount : ∀ r ∈ t.accounts, ∃ r' ∈ t'.accounts, r'.id = r.id ∧ r.modseq ≤ r'.modseq)
    (hchanges : t'.changes = t.changes) (hseq : ∀ k, t'.seqOf k = t.seqOf k)
    (hobjects : ∀ x k, t'.objects x k = t.objects x k) (hshown : ∀ x k o, t'.shown x k o = t.shown x k o) :
    Moves a m none dying t t' where
  account := haccount
  seq k := (hseq k).ge
  keep _ hc := hchanges ▸ hc
  row _ hc := .inl (hchanges ▸ hc)
  object x k _ ho := .inl (hobjects x k ▸ ho)
  dies _ hb := absurd hb (by simp)
  same x k o ho _ := .inl ⟨hobjects x k ▸ ho, hshown x k o⟩
  ended x k _ ho hno := absurd (hobjects x k ▸ ho) hno

theorem Moves.bump (a m : Int) (t : Db) : Moves a m none dying t (t.bumpModseq a) := by
  refine .of_eq (fun r hr => ⟨_, mem_updateWhere.2 ⟨r, hr, rfl⟩, ?_⟩) rfl (fun k => by cases k <;> rfl) objects_bump
    fun _ k _ => shown_bump k
  split
  · exact ⟨rfl, by simp only; omega⟩
  · exact ⟨rfl, le_refl _⟩

theorem Moves.insertAccount (a m : Int) (t : Db) (new : NewAccount) :
    Moves a m none dying t (t.insertAccount new) :=
  .of_eq (fun r hr => ⟨r, List.mem_append_left _ hr, rfl, le_refl _⟩) rfl (fun k => by cases k <;> rfl)
    (objects_insertAccount new) fun _ k _ => shown_insertAccount new k

/-- An event offers a row for what it ends. -/
theorem Event.log_ended {o : Int} (h : (k, o) ∈ e.ended t) :
    (⟨a, m, k, o, .destroyed⟩ : ChangeRow) ∈ e.log a m t := by
  cases e with
  | destroy row =>
    rcases List.mem_cons.1 h with h | h
    · cases h
      exact List.mem_cons_self
    · split at h
      next => cases h
      next hsurvives =>
        cases List.mem_singleton.1 h
        simp [Event.log, Db.destroyLog, hsurvives]
  | _ => cases h

/-- What an object of an account is offered a row for is the account's own event. -/
theorem Event.Fits.log_own (hf : e.Fits a m dying t) (hs : Sound a m dying t) {c : ChangeRow}
    (hc : c ∈ e.log a m t) (ho : c.objectId ∈ t.objects x c.kind) : a = x := by
  cases hf.log_cases hs hc with
  | created _ hborn =>
    have := hf.born_eq hborn
    have := hs.linked.objects_le ho
    omega
  | destroyed _ hended => exact hs.keyed.objects_account ho (hf.ended_own hs hended)
  | updated _ hown _ => exact hs.keyed.objects_account ho hown

/-- Under the key of a row that is offered there is one. -/
theorem Event.Fits.offered (hf : e.Fits a m dying t) (hs : Sound a m dying t) {c : ChangeRow}
    (hc : c ∈ e.log a m t) : ∃ r ∈ (e.apply a m t).changes, r.key = (a, m, c.kind, c.objectId) := by
  obtain ⟨r, hr, hkey⟩ := @exists_key_insertAll _ _ _ ChangeRow.key _ t.changes _ hc
  obtain ⟨hacc, hmod⟩ := hf.log_mine c hc
  rw [hf.changes hs]
  exact ⟨r, hr, by rw [hkey, ChangeRow.key, hacc, hmod]⟩

theorem Event.Fits.ended_of (hf : e.Fits a m dying t) (hs : Sound a m dying t) {o : Int}
    (ho : o ∈ t.objects x k) (hno : o ∉ (e.apply a m t).objects x k) : (k, o) ∈ e.ended t := by
  by_contra hkept
  exact hno ((hf.mem_objects hs).2 (.inl ⟨ho, hkept⟩))

theorem Event.Fits.moves (hf : e.Fits a m dying t) (hs : Sound a m dying t) (hm : 0 < m) :
    Moves a m dying dying t (e.apply a m t) where
  account r hr := by
    obtain ⟨f, heq, hrewrites⟩ := hf.accounts_eq hs
    rw [heq]
    exact ⟨f r, List.mem_map_of_mem hr, (hrewrites r).id, (hrewrites r).modseq.ge⟩
  seq := hf.seqOf_le hs
  keep c hc := by
    rw [hf.changes hs]
    exact mem_insertAll_of_mem hc
  row c hc := by
    rcases hf.new_row hs hc with hc | ⟨hacc, hmod, htells, hfree⟩
    · exact .inl hc
    have hle : ∀ {o k}, o ∈ t.objects a k → o ≤ t.seqOf k := hs.linked.objects_le
    cases htells with
    | created hchange hborn =>
      have := hf.born_eq hborn
      exact .inr ⟨hacc, hmod, hf.born_le hs hm hborn,
        .inr ⟨(hf.mem_objects hs).2 (.inr ⟨rfl, hborn⟩), by omega, hchange⟩⟩
    | destroyed _ hended =>
      have hown := hf.ended_own hs hended
      have hgone : c.objectId ∉ (e.apply a m t).objects a c.kind := by
        rw [hf.mem_objects hs, not_or]
        refine ⟨fun h => h.2 hended, fun h => ?_⟩
        have := hf.born_eq h.2
        have := hle hown
        omega
      exact .inr ⟨hacc, hmod, (hle hown).trans (hf.seqOf_le hs _), .inl ⟨hown, hle hown, hfree,
        fun h => absurd h hgone⟩⟩
    | updated hchange hown _ =>
      exact .inr ⟨hacc, hmod, (hle hown).trans (hf.seqOf_le hs _),
        .inl ⟨hown, hle hown, hfree, fun _ => hchange⟩⟩
  object x k o ho := by
    rcases (hf.mem_objects hs).1 ho with ⟨hold, -⟩ | ⟨rfl, hborn⟩
    · exact .inl hold
    · have := hf.born_eq hborn
      exact .inr ⟨rfl, by omega, hf.offered hs (hf.log_born hborn)⟩
  dies _ hb := .inl hb
  same x k o ho hdying := by
    by_cases hno : ∀ c ∈ e.log a m t, c.kind = k → c.objectId ≠ o
    · refine .inl ⟨(hf.mem_objects hs).2 (.inl ⟨ho, fun hended => ?_⟩), hf.shown hs ho hdying hno⟩
      exact hno _ (Event.log_ended hended) rfl rfl
    · push Not at hno
      obtain ⟨c, hc, rfl, rfl⟩ := hno
      exact .inr ⟨hf.log_own hs hc ho, hf.offered hs hc⟩
  ended x k o ho hno := by
    have hended := hf.ended_of hs ho hno
    have hoffered := Event.log_ended (a := a) (m := m) hended
    refine ⟨hs.keyed.objects_account ho (hf.ended_own hs hended), hf.offered hs hoffered, ?_⟩
    rintro c hc rfl rfl
    rcases hf.new_row hs hc with hc | ⟨hacc, hmod, htells, -⟩
    · exact .inl hc
    cases htells with
    | created _ hborn =>
      have := hf.born_eq hborn
      have := hs.linked.objects_le ho
      omega
    | destroyed hchange _ => exact .inr (by rw [← hacc, ← hmod, ← hchange])
    | updated _ _ hkept => exact absurd hended hkept

theorem drop_ended {o : Int} (ho : o ∈ t.objects x k) (hno : o ∉ (t.dropMailbox a m b).objects x k) :
    k = .mailbox ∧ o = b := by
  by_contra hne
  exact hno (mem_objects_drop.2 ⟨ho, fun heq => hne (Prod.mk.inj heq)⟩)

theorem Db.Droppable.moves (hd : t.Droppable a b) (hs : Sound a m (some b) t) :
    Moves a m (some b) none t (t.dropMailbox a m b) := by
  have hown : b ∈ t.objects a .mailbox := mem_objects_mailbox.2 hd.has
  have hchanges : (t.dropMailbox a m b).changes =
      insertOrIgnore ChangeRow.key ⟨a, m, .mailbox, b, .destroyed⟩ t.changes := by rw [Db.dropMailbox_eq]
  have hkey : ∃ c ∈ (t.dropMailbox a m b).changes, c.key = (a, m, .mailbox, b) :=
    hchanges ▸ exists_key_insertOrIgnore ChangeRow.key ⟨a, m, .mailbox, b, .destroyed⟩ t.changes
  have hrow : ∀ c ∈ (t.dropMailbox a m b).changes, c ∈ t.changes ∨
      c = ⟨a, m, .mailbox, b, .destroyed⟩ ∧ ∀ r ∈ t.changes, r.key ≠ c.key := by
    intro c hc
    rw [hchanges] at hc
    refine (mem_insertOrIgnore.1 hc).imp_right fun h => ⟨h.1, ?_⟩
    rw [h.1]
    exact h.2
  constructor
  · intro r hr
    rw [Db.dropMailbox_eq]
    refine ⟨_, mem_updateWhere.2 ⟨r, hr, rfl⟩, ?_⟩
    split <;> exact ⟨rfl, le_refl _⟩
  · exact fun k => (seqOf_drop k).ge
  · exact fun c hc => hchanges ▸ mem_insertOrIgnore_of_mem hc
  · intro c hc
    rcases hrow c hc with hc | ⟨rfl, hfree⟩
    · exact .inl hc
    · have hle : b ≤ t.seqOf .mailbox := hs.linked.objects_le hown
      exact .inr ⟨rfl, rfl, (seqOf_drop _).symm ▸ hle, .inl ⟨hown, hle, hfree, fun h =>
        absurd rfl (mem_objects_drop.1 h).2⟩⟩
  · exact fun x k o ho => .inl (mem_objects_drop.1 ho).1
  · rintro b ⟨⟩
    exact .inr ⟨hown, hkey⟩
  · intro x k o ho hdying
    have hne : (k, o) ≠ (.mailbox, b) := by
      rintro ⟨⟩
      exact hdying rfl rfl
    exact .inl ⟨mem_objects_drop.2 ⟨ho, hne⟩, shown_drop hd hne⟩
  · intro x k o ho hno
    obtain ⟨rfl, rfl⟩ := drop_ended ho hno
    exact ⟨hs.keyed.objects_account ho hown, hkey, fun c hc _ _ => (hrow c hc).imp_right (·.1)⟩

end Moves

/-! ## 3. Since a state -/

section Since

variable {s t t' : Db} {a m n x : Int} {dying dying' : Option Int}

/-- What has happened to an account since the state `n`, at which it was `s`.  Only what a row after
`n` is about can look different, but for a mailbox that is being cleared out. -/
structure Since (s : Db) (x n : Int) (dying : Option Int) (t : Db) : Prop where
  reached : ∃ r ∈ t.accounts, r.id = x ∧ n ≤ r.modseq
  keep : ∀ c ∈ s.changes, c ∈ t.changes
  later : ∀ c ∈ t.changes, c.accountId = x → c ∈ s.changes ∨ n < c.modseq
  seq : ∀ k, s.seqOf k ≤ t.seqOf k
  old : ∀ c ∈ t.changes, c.accountId = x → n < c.modseq → c.objectId ≤ s.seqOf c.kind →
    c.objectId ∈ s.objects x c.kind
  there : ∀ k, ∀ o ∈ t.objects x k, o ≤ s.seqOf k → o ∈ s.objects x k
  shown : ∀ k, ∀ o ∈ s.objects x k, (k = .mailbox → dying ≠ some o) →
    (∀ c ∈ t.changes, c.accountId = x → c.kind = k → c.objectId = o → c.modseq ≤ n) →
      o ∈ t.objects x k ∧ t.shown x k o = s.shown x k o

theorem Since.start (hi : Intact s) (hn : s.modseqOf x = some n) : Since s x n none s := by
  obtain ⟨⟨r, hr, hid⟩, hall⟩ := hi.keyed.modseq_eq hn
  refine ⟨⟨r, hr, hid, (hall r hr hid).ge⟩, fun _ h => h, fun _ h _ => .inl h, fun _ => le_refl _, ?_,
    fun _ _ h _ => h, fun _ _ h _ _ => ⟨h, rfl⟩⟩
  intro c hc hx hlt
  have := hi.clocked.change c hc r hr (hid.trans hx.symm)
  have := hall r hr hid
  omega

/-- An object does not change hands. -/
theorem Logged.owner (hs : Logged s) (ht : Logged t) (hkeep : ∀ c ∈ s.changes, c ∈ t.changes) {o : Int}
    (ho : o ∈ s.objects x k) (ho' : o ∈ t.objects a k) : a = x := by
  obtain ⟨m₀, hlived⟩ := hs.lived x k o ho
  obtain ⟨m₁, hlived'⟩ := ht.lived a k o ho'
  rcases hlived'.rows _ (hkeep _ hlived.created) rfl rfl with h | ⟨h, -⟩
  · exact (congrArg ChangeRow.accountId h).symm
  · exact h.symm

/-- **What is there was created once and only updated since.** -/
theorem Logged.moves (h : Logged t) (hmoves : Moves a m dying dying' t t')
    (hle : ∀ c ∈ t.changes, c.accountId = a → c.modseq ≤ m) : Logged t' := by
  refine ⟨fun c hc => ?_, fun x k o ho => ?_⟩
  · rcases hmoves.row c hc with hc | ⟨-, -, hseq, -⟩
    · exact (h.seq c hc).trans (hmoves.seq _)
    · exact hseq
  · rcases hmoves.object x k o ho with hold | ⟨rfl, hnew, r, hr, hkey⟩
    · obtain ⟨m₀, hlived⟩ := h.lived x k o hold
      refine ⟨m₀, hmoves.keep _ hlived.created, fun c hc hk hco => ?_⟩
      rcases hmoves.row c hc with hc | ⟨hacc, hmod, -, hown | ⟨-, hlt, -⟩⟩
      · exact hlived.rows c hc hk hco
      · subst hk hco
        obtain ⟨hown, -, hfree, hupdated⟩ := hown
        obtain rfl := h.owner h (fun _ h => h) hold hown
        have hle : m₀ ≤ m := hle _ hlived.created rfl
        have hne : m₀ ≠ m := by
          rintro rfl
          exact hfree _ hlived.created (by simp [ChangeRow.key, hacc, hmod])
        exact .inr ⟨hacc, by omega, hupdated ho⟩
      · have := h.seq _ hlived.created
        subst hk hco
        change c.objectId ≤ t.seqOf c.kind at this
        omega
    · -- Its id is new, so no row has been about it.
      have hrow : ∀ c ∈ t'.changes, c.kind = k → c.objectId = o → c = ⟨a, m, k, o, .created⟩ := by
        rintro c hc rfl rfl
        rcases hmoves.row c hc with hc | ⟨hacc, hmod, -, ⟨-, hle, -⟩ | ⟨-, -, hchange⟩⟩
        · have := h.seq c hc
          omega
        · omega
        · rw [← hacc, ← hmod, ← hchange]
      simp only [ChangeRow.key, Prod.mk.injEq] at hkey
      exact ⟨m, hrow r hr hkey.2.2.1 hkey.2.2.2 ▸ hr, fun c hc hk hco => .inl (hrow c hc hk hco)⟩

theorem logged_runOps (ext : Externals) (ops : List StoreOp) : Logged (runOps ext ops {}) :=
  runOps_invariant (fun _ new _ h => h.insertAccount new) (fun _ a h => h.bump a)
    (fun hs hm hf h => h.moves (hf.moves hs hm) fun _ => hs.row_le)
    (fun hs hd h => h.moves (hd.moves hs) fun _ => hs.row_le) ops Intact.empty
    ⟨by simp, fun a k o ho => by cases k <;> cases ho⟩

theorem Since.moves (h : Since s x n dying t) (hmoves : Moves a m dying dying' t t') (hs : Logged s)
    (ht : Logged t)
    (hlt : a = x → n < m) : Since s x n dying' t' := by
  refine ⟨?_, fun c hc => hmoves.keep c (h.keep c hc), ?_, fun k => (h.seq k).trans (hmoves.seq k), ?_, ?_, ?_⟩
  · obtain ⟨r, hr, hid, hle⟩ := h.reached
    obtain ⟨r', hr', hid', hle'⟩ := hmoves.account r hr
    exact ⟨r', hr', hid'.trans hid, hle.trans hle'⟩
  · intro c hc hx
    rcases hmoves.row c hc with hc | ⟨hacc, hmod, -⟩
    · exact h.later c hc hx
    · exact .inr (hmod ▸ hlt (hacc.symm.trans hx))
  · intro c hc hx hgt hle
    rcases hmoves.row c hc with hc | ⟨hacc, -, -, ⟨hown, -⟩ | ⟨-, hnew, -⟩⟩
    · exact h.old c hc hx hgt hle
    · obtain rfl : a = x := hacc.symm.trans hx
      exact h.there _ _ hown hle
    · have := h.seq c.kind
      omega
  · intro k o ho hle
    rcases hmoves.object x k o ho with hold | ⟨-, hnew, -⟩
    · exact h.there k o hold hle
    · have := h.seq k
      omega
  · intro k o ho hdying hnone
    -- A row at its key would be after `n`.
    have hno : a = x → ¬ ∃ c ∈ t'.changes, c.key = (a, m, k, o) := by
      rintro hax ⟨c, hc, hkey⟩
      simp only [ChangeRow.key, Prod.mk.injEq] at hkey
      have := hnone c hc (hkey.1.trans hax) hkey.2.2.1 hkey.2.2.2
      have := hlt hax
      omega
    have hdying' : k = .mailbox → dying ≠ some o := by
      rintro rfl hb
      rcases hmoves.dies o hb with hb | ⟨hown, hrow⟩
      · exact hdying rfl hb
      · exact hno (hs.owner ht h.keep ho hown) hrow
    obtain ⟨hthere, hsame⟩ := h.shown k o ho hdying' fun c hc => hnone c (hmoves.keep c hc)
    rcases hmoves.same x k o hthere hdying' with ⟨hstays, hshown⟩ | ⟨hax, hrow⟩
    · exact ⟨hstays, hshown.trans hsame⟩
    · exact absurd hrow (hno hax)

end Since

/-! ## 4. Buried in the log -/

section Buried

variable {s t t' : Db} {a m n x : Int} {dying dying' : Option Int}

/-- The object was created at `m₀`, destroyed at `m₁`, and only updated between. -/
structure Db.Buried (t : Db) (x : Int) (k : ObjectKind) (o m₀ m₁ : Int) : Prop where
  created : ⟨x, m₀, k, o, .created⟩ ∈ t.changes
  destroyed : ⟨x, m₁, k, o, .destroyed⟩ ∈ t.changes
  lt : m₀ < m₁
  rows : ∀ c ∈ t.changes, c.kind = k → c.objectId = o → c = ⟨x, m₀, k, o, .created⟩ ∨
    c = ⟨x, m₁, k, o, .destroyed⟩ ∨
    (c.accountId = x ∧ m₀ < c.modseq ∧ c.modseq < m₁ ∧ c.change = .updated)

/-- What is gone, of what was there at a state or has a row since, is buried. -/
def Buries (s : Db) (x n : Int) (t : Db) : Prop :=
  ∀ k o, o ∉ t.objects x k →
    (o ∈ s.objects x k ∨ ∃ c ∈ t.changes, c.accountId = x ∧ n < c.modseq ∧ c.kind = k ∧ c.objectId = o) →
      ∃ m₀ m₁, t.Buried x k o m₀ m₁

theorem Buries.start (hi : Intact s) (hn : s.modseqOf x = some n) : Buries s x n s := by
  obtain ⟨⟨r, hr, hid⟩, hall⟩ := hi.keyed.modseq_eq hn
  rintro k o hno (ho | ⟨c, hc, hx, hlt, -, -⟩)
  · exact absurd ho hno
  · have := hi.clocked.change c hc r hr (hid.trans hx.symm)
    have := hall r hr hid
    omega

/-- The rows of an object of the account are all before `m`. -/
def Db.Before (t : Db) (a m : Int) (k : ObjectKind) (o : Int) : Prop :=
  ∀ c ∈ t.changes, c.accountId = a → c.kind = k → c.objectId = o → c.modseq < m

theorem Sound.before {o : Int} (hs : Sound a m dying t) (hfree : ∀ r ∈ t.changes,
    r.key ≠ (a, m, k, o)) :
    t.Before a m k o := by
  intro c hc ha hk ho
  have := hs.row_le hc ha
  have hne : c.modseq ≠ m := fun hm => hfree c hc (by rw [ChangeRow.key, ha, hm, hk, ho])
  omega

/-- A new row that ends what the log knows as alive buries it, if its key was free. -/
theorem Db.Lived.buried {o m₀ : Int} (h : t.Lived x k o m₀) (hkeep : ∀ c ∈ t.changes, c ∈ t'.changes)
    (hended : ⟨x, m, k, o, .destroyed⟩ ∈ t'.changes)
    (hnew : ∀ c ∈ t'.changes, c.kind = k → c.objectId = o → c ∈ t.changes ∨ c = ⟨x, m, k, o, .destroyed⟩)
    (hbefore : t.Before x m k o) : t'.Buried x k o m₀ m := by
  refine ⟨hkeep _ h.created, hended, hbefore _ h.created rfl rfl rfl, fun c hc hk ho => ?_⟩
  rcases hnew c hc hk ho with hc | rfl
  · exact (h.rows c hc hk ho).imp_right fun h => .inr ⟨h.1, h.2.1, hbefore c hc h.1 hk ho, h.2.2⟩
  · exact .inr (.inl rfl)

/-- What is there is not buried, whosever it is. -/
theorem Logged.not_buried (h : Logged t) {o m₀ m₁ : Int} (ho : o ∈ t.objects a k) :
    ¬ t.Buried x k o m₀ m₁ := by
  intro hb
  obtain ⟨m₂, hlived⟩ := h.lived a k o ho
  rcases hlived.rows _ hb.destroyed rfl rfl with heq | ⟨-, -, heq⟩
  · cases congrArg ChangeRow.change heq
  · cases heq

theorem Buries.moves (h : Buries s x n t) (hmoves : Moves a m dying dying' t t') (ht : Logged t)
    (hbefore : ∀ k, ∀ o ∈ t.objects a k, o ∉ t'.objects a k → t.Before a m k o) : Buries s x n t' := by
  intro k o hno hthere
  by_cases ho : o ∈ t.objects x k
  · -- The write ends it.
    obtain ⟨rfl, ⟨r, hr, hkey⟩, hnew⟩ := hmoves.ended x k o ho hno
    obtain ⟨m₀, hlived⟩ := ht.lived a k o ho
    refine ⟨m₀, m, hlived.buried hmoves.keep ?_ hnew (hbefore k o ho hno)⟩
    simp only [ChangeRow.key, Prod.mk.injEq] at hkey
    rcases hnew r hr hkey.2.2.1 hkey.2.2.2 with hold | rfl
    · have := hbefore k o ho hno r hold hkey.1 hkey.2.2.1 hkey.2.2.2
      omega
    · exact hr
  · -- It was gone before, and no row is about what is gone.
    have hnone : ∀ c ∈ t'.changes, c.accountId = x → c.kind = k → c.objectId = o → c ∈ t.changes := by
      rintro c hc rfl rfl rfl
      rcases hmoves.row c hc with hc | ⟨hacc, -, -, ⟨hown, -⟩ | ⟨hown, -⟩⟩
      · exact hc
      · exact absurd (hacc ▸ hown) ho
      · exact absurd (hacc ▸ hown) hno
    obtain ⟨m₀, m₁, hb⟩ := h k o ho (hthere.imp_right fun hrow => by
      obtain ⟨c, hc, hx, hlt, hk, hco⟩ := hrow
      exact ⟨c, hnone c hc hx hk hco, hx, hlt, hk, hco⟩)
    refine ⟨m₀, m₁, hmoves.keep _ hb.created, hmoves.keep _ hb.destroyed, hb.lt, fun c hc hk hco => ?_⟩
    rcases hmoves.row c hc with hold | ⟨-, -, -, ⟨hown, -⟩ | ⟨-, hnew, -⟩⟩
    · exact hb.rows c hold hk hco
    · exact absurd (hk ▸ hco ▸ hb) (ht.not_buried hown)
    · have := ht.seq _ hb.created
      subst hk hco
      change c.objectId ≤ t.seqOf c.kind at this
      omega

theorem Buries.bump (h : Buries s x n t) (ht : Logged t) (a : Int) : Buries s x n (t.bumpModseq a) :=
  h.moves (Moves.bump a 0 t : Moves a 0 none none t _) ht fun k _ ho hno =>
    absurd (objects_bump (a := a) a k ▸ ho) hno

theorem Buries.insertAccount (h : Buries s x n t) (ht : Logged t) (new : NewAccount) :
    Buries s x n (t.insertAccount new) :=
  h.moves (Moves.insertAccount 0 0 t new : Moves 0 0 none none t _) ht fun k _ ho hno =>
    absurd (objects_insertAccount new 0 k ▸ ho) hno

end Buried

/-! ## 5. A transaction that loses no row -/

/-- Every thread that loses an email of the list keeps one, or that was all it had. -/
def Db.KeepsThreads (db : Db) (a : Int) (ids : List Int) : Prop :=
  ∀ r ∈ db.emails, r.accountId = a → r.id ∈ ids →
    (∃ q ∈ db.emails, q.threadId = r.threadId ∧ q.id ∉ ids) ∨ ∀ q ∈ db.emails,
      q.threadId = r.threadId → q.id = r.id

instance (db : Db) (a : Int) (ids : List Int) : Decidable (db.KeepsThreads a ids) :=
  inferInstanceAs (Decidable (∀ r ∈ db.emails, r.accountId = a → r.id ∈ ids →
    (∃ q ∈ db.emails, q.threadId = r.threadId ∧ q.id ∉ ids) ∨ ∀ q ∈ db.emails,
      q.threadId = r.threadId → q.id = r.id))

/-- The messages that are taken out and are nowhere else. -/
def goesFor (entries : List (U32 × Int × Nat)) : List Int :=
    (entries.filter fun entry => entry.2.2 ≤ 1).map (·.2.1)

/-- The call ends no thread of several emails, and no mailbox together with an email. -/
def StoreOp.Traceable (db : Db) : StoreOp → Prop
  | destroyEmails a ids => db.KeepsThreads a ids
  | imapExpunge a mailbox uids => db.KeepsThreads a (goesFor (wantedOut db mailbox uids true))
  | imapRemove a mailbox uids => db.KeepsThreads a (goesFor (wantedOut db mailbox (some uids) false))
  | destroyMailbox a b remove => remove = true → mailboxBelongs db a b = true →
      (∀ r ∈ db.mailboxes, r.parentId ≠ some b) → ∀ entry ∈ db.holdings b, entry.2 ≠ 1
  | _ => True

instance (db : Db) (op : StoreOp) : Decidable (op.Traceable db) := by
  cases op <;> unfold StoreOp.Traceable <;> infer_instance

section Tidy

variable {d db t : Db} {a b m : Int} {dying : Option Int} {es done : List Event}

/-- What an event on an email offers a row for: the email, its thread if the email goes, and
mailboxes unless it leaves one. -/
inductive Event.Offers (a : Int) (db : Db) (e : Event) (c : ChangeRow) : Prop
  | email (hk : c.kind = .email) (ho : e.email? = some c.objectId)
      (h : c.change = .destroyed ∨ ∀ row, e ≠ .destroy row)
  | thread (hk : c.kind = .thread) {row q : EmailRow} (he : e = .destroy row) (hq : q ∈ db.emails)
    (hid : q.id = row.id)
      (hthread : q.threadId = c.objectId) (hacc : q.accountId = a)
  | mailbox (hk : c.kind = .mailbox) (h : ∀ email b, e ≠ .leave email b)

/-- Where a transaction stands that stores nothing: which emails are left, and what its rows are
for. -/
structure Tidy (db : Db) (a m : Int) (done : List Event) (d : Db) : Prop where
  emails : ∀ r ∈ d.emails, ∃ q ∈ db.emails, q.id = r.id ∧ q.threadId = r.threadId ∧ q.accountId = r.accountId
  kept : ∀ q ∈ db.emails, (∃ r ∈ d.emails, r.id = q.id ∧ r.threadId = q.threadId) ∨ ∃ row,
    .destroy row ∈ done ∧ row.id = q.id
  gone : ∀ row, .destroy row ∈ done → ∀ r ∈ d.emails, r.id ≠ row.id
  rows : ∀ c ∈ d.changes, c.accountId = a → c.modseq = m → ∃ e ∈ done, e.Offers a db c

theorem Tidy.start (hnone : ∀ c ∈ d.changes, c.accountId = a → c.modseq ≠ m) : Tidy d a m [] d where
  emails r hr := ⟨r, hr, rfl, rfl, rfl⟩
  kept q hq := .inl ⟨q, hq, rfl, rfl⟩
  gone := by simp
  rows c hc ha hm := absurd hm (hnone c hc ha)

theorem Event.Fits.offers (hf : e.Fits a m dying d) (hemail : e.email?.isSome = true) {c : ChangeRow}
    (hc : c ∈ e.log a m d) : e.Offers a d c := by
  cases e with
  | update plan =>
    rcases List.mem_cons.1 hc with rfl | hc
    · exact .email rfl rfl (.inr (by simp))
    · obtain ⟨b, -, rfl⟩ := List.mem_map.1 hc
      exact .mailbox rfl (by simp)
  | destroy row =>
    simp only [Event.log, Db.destroyLog, Db.mailboxRows, List.mem_cons, List.mem_append,
      List.mem_map, List.not_mem_nil,
      or_false] at hc
    rcases hc with rfl | ⟨b, -, rfl⟩ | rfl
    · exact .email rfl rfl (.inl rfl)
    · exact .mailbox rfl (by simp)
    · exact .thread rfl rfl hf.1 rfl rfl hf.2
  | leave email mailbox =>
    obtain rfl := List.mem_singleton.1 hc
    exact .email rfl rfl (.inr (by simp))
  | _ => cases hemail

theorem EmailRow.eq_of_columns {r r' : EmailRow} (h : r.columns = r'.columns) :
    r.id = r'.id ∧ r.threadId = r'.threadId ∧ r.accountId = r'.accountId := by
  have hid := congrArg EmailRow.id h
  have hthread := congrArg EmailRow.threadId h
  have hacc := congrArg EmailRow.accountId h
  exact ⟨hid, hthread, hacc⟩

/-- An email stays as it is but for its modseq, or is the one that goes. -/
theorem Event.emails_of (hs : Sound a m dying d) (hf : e.Fits a m dying d)
    (hemail : e.email?.isSome = true) :
    (∀ r' ∈ (e.apply a m d).emails, ∃ r ∈ d.emails, r.columns = r'.columns ∧ ∀ row,
      e = .destroy row → r.id ≠ row.id) ∧
      ∀ r ∈ d.emails, (∃ r' ∈ (e.apply a m d).emails, r'.columns = r.columns) ∨ e = .destroy r := by
  have hstamp : ∀ id, (∀ r' ∈ updateWhere (fun r : EmailRow => r.id == id) (fun r =>
    { r with updatedModseq := m }) d.emails,
      ∃ r ∈ d.emails, r.columns = r'.columns) ∧ ∀ r ∈ d.emails,
        ∃ r' ∈ updateWhere (fun r : EmailRow => r.id == id) (fun r => { r with updatedModseq := m }) d.emails,
          r'.columns = r.columns := by
    refine fun id => ⟨fun r' hr' => ?_, fun r hr => ⟨_, mem_updateWhere.2 ⟨r, hr, rfl⟩, ?_⟩⟩
    · obtain ⟨r, hr, rfl⟩ := mem_updateWhere.1 hr'
      refine ⟨r, hr, ?_⟩
      split <;> rfl
    · split <;> rfl
  cases e with
  | update plan =>
    obtain ⟨gone, -, heq⟩ := Db.applyUpdate_eq a m hf.2.oldMailboxes hf.2.mailboxes
    rw [Event.apply, heq]
    refine ⟨fun r' hr' => ?_, fun r hr => .inl ((hstamp plan.email).2 r hr)⟩
    obtain ⟨r, hr, hcolumns⟩ := (hstamp plan.email).1 r' hr'
    exact ⟨r, hr, hcolumns, by simp⟩
  | destroy row =>
    rw [Event.apply, Db.applyDestroy_eq]
    refine ⟨fun r' hr' => ?_, fun r hr => ?_⟩
    · obtain ⟨hr', hne⟩ := mem_deleteWhere.1 hr'
      refine ⟨r', hr', rfl, ?_⟩
      rintro row' ⟨⟩
      simpa using hne
    · by_cases hid : r.id = row.id
      · exact .inr (by rw [hs.keyed.email.eq hr hf.1 hid])
      · exact .inl ⟨r, mem_deleteWhere.2 ⟨hr, by simpa using hid⟩, rfl⟩
  | leave email mailbox =>
    rw [Event.apply, Db.leaveMailbox_eq]
    refine ⟨fun r' hr' => ?_, fun r hr => .inl ((hstamp email).2 r hr)⟩
    obtain ⟨r, hr, hcolumns⟩ := (hstamp email).1 r' hr'
    exact ⟨r, hr, hcolumns, by simp⟩
  | _ => cases hemail

theorem Tidy.snoc (h : Tidy db a m done d) (hs : Sound a m dying d) (hf : e.Fits a m dying d)
    (hemail : e.email?.isSome = true) : Tidy db a m (done ++ [e]) (e.apply a m d) := by
  have hin : ∀ {f : Event}, f ∈ done → f ∈ done ++ [e] := fun h => List.mem_append_left _ h
  have hself : e ∈ done ++ [e] := List.mem_append_right _ (List.mem_singleton_self _)
  obtain ⟨hback, hthere⟩ := Event.emails_of hs hf hemail
  have hrow : ∀ c ∈ (e.apply a m d).changes, c ∈ d.changes ∨ c ∈ e.log a m d := by
    intro c hc
    rw [hf.changes hs] at hc
    exact (mem_insertAll hc).imp_right (·.1)
  constructor
  · intro r' hr'
    obtain ⟨r, hr, hcolumns, -⟩ := hback r' hr'
    obtain ⟨hid', hthread', hacc'⟩ := EmailRow.eq_of_columns hcolumns
    obtain ⟨q, hq, hid, hthread, hacc⟩ := h.emails r hr
    exact ⟨q, hq, hid.trans hid', hthread.trans hthread', hacc.trans hacc'⟩
  · intro q hq
    rcases h.kept q hq with ⟨r, hr, hid, hthread⟩ | ⟨row, hrow, hid⟩
    · rcases hthere r hr with ⟨r', hr', hcolumns⟩ | rfl
      · obtain ⟨hid', hthread', -⟩ := EmailRow.eq_of_columns hcolumns
        exact .inl ⟨r', hr', hid'.trans hid, hthread'.trans hthread⟩
      · exact .inr ⟨r, hself, hid⟩
    · exact .inr ⟨row, hin hrow, hid⟩
  · intro row hrow r' hr'
    obtain ⟨r, hr, hcolumns, hne⟩ := hback r' hr'
    rw [← (EmailRow.eq_of_columns hcolumns).1]
    rcases List.mem_append.1 hrow with hrow | hrow
    · exact h.gone row hrow r hr
    · exact hne row (List.mem_singleton.1 hrow).symm
  · intro c hc ha hm
    rcases hrow c hc with hc | hc
    · obtain ⟨f, hf, hoffers⟩ := h.rows c hc ha hm
      exact ⟨f, hin hf, hoffers⟩
    · refine ⟨e, hself, ?_⟩
      cases hf.offers hemail hc with
      | email hk ho h => exact .email hk ho h
      | mailbox hk h => exact .mailbox hk h
      | thread hk he hq hid hthread hacc =>
        obtain ⟨p, hp, hid', hthread', hacc'⟩ := h.emails _ hq
        exact .thread hk he hp (hid'.trans hid) (hthread'.trans hthread) (hacc'.trans hacc)

/-- The events of a transaction that loses no row: no email is both destroyed and touched otherwise,
no thread loses all of several emails, and a mailbox that goes takes no email with it. -/
structure Clean (db : Db) (a : Int) (es : List Event) (dying : Option Int) : Prop where
  once : ∀ e ∈ es, ∀ row, .destroy row ∈ es → e.email? = some row.id → ∃ row', e = .destroy row'
  threads : ∀ row, .destroy row ∈ es → ∀ q ∈ db.emails, q.id = row.id → q.accountId = a →
    (∃ r ∈ db.emails, r.threadId = q.threadId ∧ ∀ row', .destroy row' ∈ es → row'.id ≠ r.id) ∨
      ∀ r ∈ db.emails, r.threadId = q.threadId → r.id = q.id
  drop : dying.isSome = true → ∀ e ∈ es, ∃ email b, e = .leave email b

/-- **In such a transaction the key of what ends is free.** -/
theorem Tidy.free {row : EmailRow} (h : Tidy db a m done d) (hc : Clean db a es dying)
    (hsub : ∀ e ∈ done, e ∈ es)
    (hmem : .destroy row ∈ es) (hlogged : Logged d) (hf : (Event.destroy row).Fits a m dying d)
      {o : Int}
    (hended : (k, o) ∈ (Event.destroy row).ended d) : ∀ r ∈ d.changes, r.key ≠ (a, m, k, o) := by
  intro r hr hkey
  simp only [ChangeRow.key, Prod.mk.injEq] at hkey
  obtain ⟨ha, hm, rfl, rfl⟩ := hkey
  rcases List.mem_cons.1 hended with heq | hended
  · -- A row for the email itself: it is there, so it was not destroyed before, and nothing else touches it.
    obtain ⟨hk, ho⟩ := Prod.mk.inj heq
    obtain ⟨e, he, hoffers⟩ := h.rows r hr ha hm
    obtain ⟨hid, hchange | hno⟩ : e.email? = some r.objectId ∧
        (r.change = .destroyed ∨ ∀ row, e ≠ .destroy row) := by
      cases hoffers with
      | email _ hid h => exact ⟨hid, h⟩
      | thread hk' | mailbox hk' => cases hk.symm.trans hk'
    · obtain ⟨m₀, hlived⟩ := hlogged.lived a .email row.id (mem_objects_email.2 ⟨row, hf.1, rfl, hf.2⟩)
      rcases hlived.rows r hr hk ho with rfl | ⟨-, -, hupdated⟩
      · cases hchange
      · cases hchange.symm.trans hupdated
    · obtain ⟨row', rfl⟩ := hc.once e (hsub e he) row hmem (ho ▸ hid)
      exact hno row' rfl
  · split at hended
    · cases hended
    · rename_i hsurvives
      obtain ⟨hk, ho⟩ := Prod.mk.inj (List.mem_singleton.1 hended)
      have hlast : ∀ r ∈ d.emails, r.threadId = row.threadId → r.id = row.id := by
        intro r hr hthread
        by_contra hne
        exact hsurvives (List.any_eq_true.2 ⟨r, hr, by simp [hne, hthread]⟩)
      -- A row for the thread: another of its emails was destroyed before, and this one is the last.
      obtain ⟨e, he, hoffers⟩ := h.rows r hr ha hm
      obtain ⟨row', hrow', q, hq, hid, hthread, hacc⟩ :
        ∃ row', .destroy row' ∈ done ∧ ∃ q ∈ db.emails, q.id = row'.id ∧
          q.threadId = r.objectId ∧ q.accountId = a := by
        cases hoffers with
        | thread _ heq hq hid hthread hacc => exact ⟨_, heq ▸ he, _, hq, hid, hthread, hacc⟩
        | email hk' | mailbox hk' => cases hk.symm.trans hk'
      rw [ho] at hthread
      obtain ⟨q', hq', hid', hthread', -⟩ := h.emails row hf.1
      rcases hc.threads row' (hsub _ hrow') q hq hid hacc with ⟨p, hp, hpthread, hkept⟩ | hone
      · rcases h.kept p hp with ⟨p', hp', hpid, hpthread'⟩ | ⟨row'', hrow'', hpid⟩
        · have := hlast p' hp' (hpthread'.trans (hpthread.trans hthread))
          exact hkept row hmem (this.symm.trans hpid)
        · exact hkept row'' (hsub _ hrow'') hpid
      · have := hone q' hq' (hthread'.trans hthread.symm)
        exact h.gone row' hrow' row hf.1 (hid'.symm.trans (this.trans hid))

/-- What such a transaction ends is buried. -/
theorem Effect.buries {s : Db} {x n : Int} (heff : Effect a db t m es dying) (hi : Intact db)
    (hemails : ∀ e ∈ es, e.email?.isSome = true) (hc : Clean db a es dying) (hlogged : Logged db)
    (h : Buries s x n db) : Buries s x n t := by
  obtain ⟨hs, hm⟩ := hi.start heff.modseq dying
  obtain ⟨d, hes, hdroppable, rfl⟩ := heff.run
  have hnone : ∀ c ∈ (db.bumpModseq a).changes, c.accountId = a → c.modseq ≠ m := by
    intro c hc ha
    obtain ⟨⟨y, hy, hid⟩, hall⟩ := hi.keyed.modseq_eq heff.modseq
    have := hi.clocked.change c hc y hy (hid.trans ha.symm)
    have := hall y hy hid
    omega
  have hc' : Clean (db.bumpModseq a) a es dying := ⟨hc.once, hc.threads, hc.drop⟩
  have hrun : ∀ {done : List Event} {d : Db}, Events a m dying (db.bumpModseq a) done d →
    (∀ e ∈ done, e ∈ es) →
      Sound a m dying d ∧ Logged d ∧ Tidy (db.bumpModseq a) a m done d ∧ Buries s x n d := by
    intro done d hes hsub
    induction hes with
    | nil =>
      exact ⟨hs, hlogged.bump a, .start hnone, h.bump hlogged a⟩
    | @snoc done d e hes hf ih =>
      obtain ⟨hs, hlogged, htidy, hburies⟩ := ih fun e he => hsub e (List.mem_append_left _ he)
      have he : e ∈ es := hsub e (List.mem_append_right _ (List.mem_singleton_self _))
      refine ⟨hf.sound hs hm.le, hlogged.moves (hf.moves hs hm) fun _ => hs.row_le,
        htidy.snoc hs hf (hemails e he), ?_⟩
      refine hburies.moves (hf.moves hs hm) hlogged fun k o ho hno => hs.before ?_
      have hended := hf.ended_of hs ho hno
      cases e with
      | destroy row =>
        exact htidy.free hc' (fun e he => hsub e (List.mem_append_left _ he)) he hlogged hf hended
      | _ => cases hended
  obtain ⟨hs, hlogged, htidy, hburies⟩ := hrun hes fun _ he => he
  cases dying with
  | none => exact hburies
  | some b =>
    refine hburies.moves ((hdroppable b rfl).moves hs) hlogged fun k o ho hno => hs.before fun r hr hkey => ?_
    obtain ⟨rfl, rfl⟩ := drop_ended ho hno
    simp only [ChangeRow.key, Prod.mk.injEq] at hkey
    obtain ⟨e, he, hoffers⟩ := htidy.rows r hr hkey.1 hkey.2.1
    obtain ⟨email, b, rfl⟩ := hc.drop rfl e he
    cases hoffers with
    | mailbox _ hno => exact hno email b rfl
    | thread hk | email hk => cases hk.symm.trans hkey.2.2.1

/-- So is what a transaction ends that destroys nothing: that is nothing. -/
theorem Effect.buries_nothing {s : Db} {x n : Int} (heff : Effect a db t m es none) (hi : Intact db)
    (hno : ∀ e ∈ es, ∀ row, e ≠ .destroy row) (hlogged : Logged db) (h : Buries s x n db) :
        Buries s x n t := by
  refine (heff.ends (P := fun d => Logged d ∧ Buries s x n d) (Q := Buries s x n) hi ?_ ?_ (fun _ _ h => h.2) (by simp))
  · exact ⟨hlogged.bump a, h.bump hlogged a⟩
  · rintro d e hs hm he hf ⟨hlogged, h⟩
    refine ⟨hlogged.moves (hf.moves hs hm) fun _ => hs.row_le,
      h.moves (hf.moves hs hm) hlogged fun k o ho hgone => ?_⟩
    have hended := hf.ended_of hs ho hgone
    cases e with
    | destroy row => exact absurd rfl (hno _ he row)
    | _ => cases hended

end Tidy

/-! ## 6. Runs -/

section Runs

variable {ext : Externals} {s db t : Db} {a b m n x : Int} {es : List Event} {dying : Option Int}
  {op : StoreOp}

theorem Db.KeepsThreads.clean {ids : List Int} (h : db.KeepsThreads a ids)
    (hids : ∀ row, Event.destroy row ∈ es → row.id ∈ ids)
    (honce : ∀ e ∈ es, ∀ row, .destroy row ∈ es → e.email? = some row.id → ∃ row', e = .destroy row') :
    Clean db a es none where
  once := honce
  threads row hrow q hq hid hacc := by
    refine (h q hq hacc (hid ▸ hids row hrow)).imp_left ?_
    rintro ⟨r, hr, hthread, hkept⟩
    exact ⟨r, hr, hthread, fun row' hrow' heq => hkept (heq ▸ hids row' hrow')⟩
  drop := by simp

theorem TakesOut.clean {entries : List (U32 × Int × Nat)} (h : TakesOut entries es)
    (hnodup : (entries.map (·.2.1)).Nodup) (hkeeps : db.KeepsThreads a (goesFor entries)) :
        Clean db a es none := by
  refine hkeeps.clean (fun row hrow => ?_) fun e he row hrow hid => ⟨row, ?_⟩
  · rcases h.kinds _ hrow with ⟨plan, heq⟩ | ⟨row', heq, entry, hentry, hid, hcount⟩
    · cases heq
    · cases heq
      exact List.mem_map.2 ⟨entry, List.mem_filter.2 ⟨hentry, by simpa using hcount⟩, hid⟩
  · -- Each email comes once.
    by_contra hne
    have hsymm : Std.Symm fun e f : Event => ∀ o, e.email? = some o → ∀ o', f.email? = some o' → o ≠ o' :=
      ⟨fun _ _ h o ho o' ho' heq => h o' ho' o ho heq.symm⟩
    have honce := List.pairwise_filterMap.1 (hnodup.sublist h.once)
    exact honce.forall he hrow hne row.id hid row.id rfl rfl

theorem TakesOut.emails {entries : List (U32 × Int × Nat)} (h : TakesOut entries es) :
    ∀ e ∈ es, e.email?.isSome = true := by
  intro e he
  rcases h.kinds e he with ⟨plan, rfl⟩ | ⟨row, rfl, -⟩ <;> rfl

theorem nodup_wantedOut (hk : Keyed db) {mailbox : Int} {uids : Option (List U32)} {onlyDeleted : Bool} :
    ((wantedOut db mailbox uids onlyDeleted).map (·.2.1)).Nodup :=
  (nodup_flagged hk onlyDeleted).sublist (List.filter_sublist.map _)

/-- Events on emails leave the mailboxes where they are. -/
theorem Event.faces (hf : e.Fits a m dying db) (hemail : e.email?.isSome = true) :
    (e.apply a m db).mailboxes.map MailboxRow.face = db.mailboxes.map MailboxRow.face := by
  cases e with
  | update plan =>
    obtain ⟨gone, -, heq⟩ := Db.applyUpdate_eq a m hf.2.oldMailboxes hf.2.mailboxes
    rw [Event.apply, heq]
    simp [Function.comp_def]
  | destroy row => simp [Event.apply, Db.applyDestroy_eq, Function.comp_def]
  | leave email mailbox => simp [Event.apply, Db.leaveMailbox_eq, Function.comp_def]
  | _ => cases hemail

/-- A mailbox that was dropped belonged to the account, and had no children, from the start. -/
theorem Effect.was_droppable (heff : Effect a db t m es (some b))
    (hemails : ∀ e ∈ es, e.email?.isSome = true) :
    mailboxBelongs db a b = true ∧ ∀ r ∈ db.mailboxes, r.parentId ≠ some b := by
  obtain ⟨d, hes, hdroppable, -⟩ := heff.run
  have hfaces : d.mailboxes.map MailboxRow.face = db.mailboxes.map MailboxRow.face := by
    clear heff hdroppable
    induction hes with
    | nil => rfl
    | snoc hes hf ih =>
      rw [Event.faces hf (hemails _ (List.mem_append_right _ (List.mem_singleton_self _)))]
      exact ih fun e he => hemails e (List.mem_append_left _ he)
  obtain ⟨⟨r, hr, hid, hacc⟩, hchildless, -⟩ := hdroppable b rfl
  constructor
  · obtain ⟨q, hq, hface⟩ := List.mem_map.1 (hfaces ▸ List.mem_map_of_mem hr)
    have hqid := congrArg MailboxRow.id hface
    have hqacc := congrArg MailboxRow.accountId hface
    exact mailboxBelongs_iff.2 ⟨q, hq, hqid.trans hid, hqacc.trans hacc⟩
  · intro r hr hparent
    obtain ⟨q, hq, hface⟩ := List.mem_map.1 (hfaces.symm ▸ List.mem_map_of_mem hr)
    have hqparent := congrArg MailboxRow.parentId hface
    exact hchildless q hq (hqparent.trans hparent)

/-- **What a traceable call ends is buried.** -/
theorem Outcome.buries (hout : Outcome ext op db t) (hi : Intact db) (hop : op.Traceable db)
    (hlogged : Logged db)
    (h : Buries s x n db) : Buries s x n t := by
  cases hout with
  | same => exact h
  | account => exact h.insertAccount hlogged _
  | provision hcreate hyes heff =>
    refine heff.buries_nothing (hi.insertAccount _) ?_
      (hlogged.insertAccount _) (h.insertAccount hlogged _)
    intro e he row heq
    obtain ⟨p, -, rfl⟩ := List.mem_map.1 he
    cases heq
  | @effect m es dying _ heff hgives =>
    cases op with
    | createAccount => cases hgives
    | destroyEmails a ids =>
      obtain ⟨rfl, hes⟩ := hgives
      refine heff.buries hi (fun e he => ?_) (hop.clean (fun row hrow => ?_) fun e he row _ _ => ?_) hlogged h
      · obtain ⟨row, rfl, -⟩ := hes e he
        rfl
      · obtain ⟨row', heq, hid⟩ := hes _ hrow
        cases heq
        exact hid
      · exact (hes e he).imp fun _ h => h.1
    | destroyMailbox a b remove =>
      obtain ⟨rfl, hno, hes⟩ := hgives
      have hemails : ∀ e ∈ es, e.email?.isSome = true := by
        intro e he
        rcases hes.kinds e he with ⟨email, rfl⟩ | ⟨row, rfl, -⟩ <;> rfl
      -- Emails only leave the mailbox.
      have hleave : ∀ e ∈ es, ∃ email, e = .leave email b := by
        intro e he
        rcases hes.kinds e he with hleave | ⟨row, rfl, hrow⟩
        · exact hleave
        · cases remove with
          | false => simp [hno rfl] at he
          | true =>
            obtain ⟨hbelongs, hchildless⟩ := heff.was_droppable hemails
            exact absurd rfl (hop rfl hbelongs hchildless _ hrow)
      refine heff.buries hi hemails ⟨fun e he row hrow _ => ?_, fun row hrow => ?_, fun _ e he => ?_⟩ hlogged h
      · obtain ⟨email, heq⟩ := hleave _ hrow
        cases heq
      · obtain ⟨email, heq⟩ := hleave _ hrow
        cases heq
      · exact (hleave e he).imp fun _ h => ⟨b, h⟩
    | imapExpunge | imapRemove =>
      obtain ⟨rfl, hes⟩ := hgives
      exact heff.buries hi hes.emails (hes.clean (nodup_wantedOut hi.keyed) hop) hlogged h
    | _ =>
      have hnone : dying = none := hgives.1
      subst hnone
      refine heff.buries_nothing hi (fun e he row heq => ?_) hlogged h
      subst heq
      exact hgives.source he

/-- A transaction keeps what is known since a state. -/
theorem Effect.since (heff : Effect a db t m es dying) (hi : Intact db) (hstart : Logged s)
    (h : Logged db ∧ Since s x n none db) : Logged t ∧ Since s x n none t := by
  have hlt : a = x → n < m := by
    rintro rfl
    obtain ⟨r, hr, hid, hle⟩ := h.2.reached
    have := (hi.keyed.modseq_eq heff.modseq).2 r hr hid
    omega
  refine heff.ends (P := fun d => Logged d ∧ Since s x n dying d) (Q := fun d => Logged d ∧
    Since s x n none d) hi
    ⟨h.1.bump a, h.2.moves (.bump a m db) hstart h.1 hlt⟩ ?_ ?_ ?_
  · rintro d e hs hm - hf ⟨hlogged, hsince⟩
    exact ⟨hlogged.moves (hf.moves hs hm) fun _ => hs.row_le, hsince.moves (hf.moves hs hm) hstart hlogged hlt⟩
  · rintro rfl d h
    exact h
  · rintro b d rfl hs hd ⟨hlogged, hsince⟩
    exact ⟨hlogged.moves (hd.moves hs) fun _ => hs.row_le, hsince.moves (hd.moves hs) hstart hlogged hlt⟩

theorem Outcome.since (hout : Outcome ext op db t) (hi : Intact db) (hstart : Logged s)
    (h : Logged db ∧ Since s x n none db) : Logged t ∧ Since s x n none t := by
  have haccount : ∀ new, Logged (db.insertAccount new) ∧ Since s x n none (db.insertAccount new) := fun new =>
    ⟨h.1.insertAccount new,
      h.2.moves (.insertAccount x (n + 1) db new) hstart h.1 fun _ => Int.lt_succ n⟩
  cases hout with
  | same => exact h
  | account => exact haccount _
  | provision _ _ heff => exact heff.since (hi.insertAccount _) hstart (haccount _)
  | effect heff => exact heff.since hi hstart h

/-- What the answer to "what changed since `s`?" should say at `t`. -/
structure Changes.Covers (c : Changes) (s t : Db) (x : Int) (k : ObjectKind) : Prop where
  destroyed : ∀ o, o ∈ c.destroyed ↔ o ∈ s.objects x k ∧ o ∉ t.objects x k
  created : ∀ o, o ∈ c.created ↔ o ∉ s.objects x k ∧ o ∈ t.objects x k
  updated : ∀ o ∈ s.objects x k, o ∈ t.objects x k → t.shown x k o ≠ s.shown x k o → o ∈ c.updated

/-- The log says so of an object, after `lo` and up to `hi`. -/
def Db.Says (t : Db) (x : Int) (k : ObjectKind) (o : Int) (change : ChangeType) (lo hi : Int) : Prop :=
  ∃ m, lo < m ∧ m ≤ hi ∧ ⟨x, m, k, o, change⟩ ∈ t.changes

/-- One row creates an object, and it is the first. -/
def Db.Begins (t : Db) (x : Int) (k : ObjectKind) (o m₀ : Int) : Prop :=
  ⟨x, m₀, k, o, .created⟩ ∈ t.changes ∧
    ∀ m change, ⟨x, m, k, o, change⟩ ∈ t.changes → (m = m₀ ∧ change = .created) ∨ (m₀ < m ∧ change ≠ .created)

theorem Db.Lived.begins {o m₀ : Int} (h : t.Lived x k o m₀) : t.Begins x k o m₀ := by
  refine ⟨h.created, fun m change hrow => ?_⟩
  rcases h.rows _ hrow rfl rfl with heq | ⟨-, hlt, rfl⟩
  · cases heq
    exact .inl ⟨rfl, rfl⟩
  · exact .inr ⟨hlt, by decide⟩

theorem Db.Buried.begins {o m₀ m₁ : Int} (h : t.Buried x k o m₀ m₁) : t.Begins x k o m₀ := by
  refine ⟨h.created, fun m change hrow => ?_⟩
  rcases h.rows _ hrow rfl rfl with heq | heq | ⟨-, hlt, -, rfl⟩
  · cases heq
    exact .inl ⟨rfl, rfl⟩
  · cases heq
    exact .inr ⟨h.lt, by decide⟩
  · exact .inr ⟨hlt, by decide⟩

/-- What the rows between two states tell of an object. -/
structure Db.Tells (s t : Db) (x n hi : Int) (k : ObjectKind) (o : Int) : Prop where
  there : o ∈ t.objects x k ↔ (o ∈ s.objects x k ∨ t.Says x k o .created n hi) ∧ ¬ t.Says x k o .destroyed n hi
  created : t.Says x k o .created n hi → o ∉ s.objects x k
  known : ∀ change, t.Says x k o change n hi → o ∈ s.objects x k ∨ t.Says x k o .created n hi
  begins : ∀ m, n < m → ⟨x, m, k, o, .created⟩ ∈ t.changes → t.Begins x k o m

/-- **The rows since a state tell what became of each object.** -/
theorem Since.tells (h : Since s x n none t) (hi : Intact s) (hn : s.modseqOf x = some n)
    (hs : Logged s) (ht : Logged t)
    (hb : Buries s x n t) {hi' : Int} (hupto : ∀ c ∈ t.changes, c.accountId = x → c.modseq ≤ hi')
      (k : ObjectKind)
    (o : Int) : s.Tells t x n hi' k o := by
  have hsaid : ∀ {change m}, n < m → ⟨x, m, k, o, change⟩ ∈ t.changes → t.Says x k o change n hi' :=
    fun hlt hrow => ⟨_, hlt, hupto _ hrow rfl, hrow⟩
  -- What was there was created before.
  have hborn : o ∈ s.objects x k → ∃ m, m ≤ n ∧ s.Lived x k o m := by
    intro ho
    obtain ⟨m, hlived⟩ := hs.lived x k o ho
    obtain ⟨⟨r, hr, hid⟩, hall⟩ := hi.keyed.modseq_eq hn
    have := hi.clocked.change _ hlived.created r hr hid
    exact ⟨m, hall r hr hid ▸ this, hlived⟩
  have hbegun : ∀ {m₀}, t.Begins x k o m₀ → (∀ m, n < m → ⟨x, m, k, o, .created⟩ ∈ t.changes → m = m₀) ∧
      (o ∈ s.objects x k → m₀ ≤ n) := by
    refine fun hbegins => ⟨fun m _ hrow => ?_, fun ho => ?_⟩
    · exact ((hbegins.2 _ _ hrow).resolve_right (by simp)).1
    · obtain ⟨m, hle, hlived⟩ := hborn ho
      rcases hbegins.2 _ _ (h.keep _ hlived.created) with ⟨rfl, -⟩ | ⟨-, hno⟩
      · exact hle
      · exact absurd rfl hno
  -- What was created before, and was not there, has no row since, and neither came back.
  have hbefore : ∀ {m₀}, t.Begins x k o m₀ → m₀ ≤ n → o ≤ s.seqOf k := by
    intro m₀ hbegins hle
    rcases h.later _ hbegins.1 rfl with hrow | hlt
    · exact hs.seq _ hrow
    · exact absurd hlt (not_lt.2 hle)
  have htells : ∀ {m₀}, t.Begins x k o m₀ → (m₀ ≤ n → o ∈ s.objects x k) →
      (o ∈ t.objects x k ↔ ¬ t.Says x k o .destroyed n hi') → s.Tells t x n hi' k o := by
    intro m₀ hbegins hold hthere
    obtain ⟨hone, hwas⟩ := hbegun hbegins
    have hknown : o ∈ s.objects x k ∨ t.Says x k o .created n hi' := by
      by_cases hle : m₀ ≤ n
      · exact .inl (hold hle)
      · exact .inr (hsaid (not_le.1 hle) hbegins.1)
    refine ⟨by rw [hthere]; simp [hknown], ?_, fun _ _ => hknown, fun m hlt hrow => hone m hlt hrow ▸ hbegins⟩
    rintro ⟨m, hlt, -, hrow⟩ ho
    have := hone m hlt hrow
    have := hwas ho
    omega
  by_cases ho : o ∈ t.objects x k
  · obtain ⟨m₀, hlived⟩ := ht.lived x k o ho
    refine htells hlived.begins (fun hle => h.there k o ho (hbefore hlived.begins hle)) (iff_of_true ho ?_)
    rintro ⟨m, -, -, hrow⟩
    rcases hlived.rows _ hrow rfl rfl with heq | ⟨-, -, heq⟩ <;> cases heq
  · by_cases hrow : o ∈ s.objects x k ∨ ∃ c ∈ t.changes, c.accountId = x ∧ n < c.modseq ∧
      c.kind = k ∧ c.objectId = o
    · obtain ⟨m₀, m₁, hburied⟩ := hb k o ho hrow
      refine htells hburied.begins (fun hle => ?_) (iff_of_false ho (not_not.2 (hsaid ?_ hburied.destroyed)))
      · rcases hrow with ho | ⟨c, hc, hx, hlt, rfl, rfl⟩
        · exact ho
        · exact h.old c hc hx hlt (hbefore hburied.begins hle)
      · rcases hrow with ho | ⟨c, hc, hx, hlt, hk, hco⟩
        · refine (h.later _ hburied.destroyed rfl).resolve_left fun hold => ?_
          obtain ⟨m, -, hlived⟩ := hborn ho
          rcases hlived.rows _ hold rfl rfl with heq | ⟨-, -, heq⟩ <;> cases heq
        · have hle : c.modseq ≤ m₁ := by
            have := hburied.lt
            rcases hburied.rows c hc hk hco with rfl | rfl | ⟨-, -, hlt, -⟩
            · exact this.le
            · exact le_refl _
            · exact hlt.le
          omega
    · rw [not_or] at hrow
      have hnone : ∀ {m change}, n < m → ⟨x, m, k, o, change⟩ ∉ t.changes := fun hlt hc =>
        hrow.2 ⟨_, hc, rfl, hlt, rfl, rfl⟩
      have hno : ∀ {change}, ¬ t.Says x k o change n hi' := by
        rintro change ⟨m, hlt, -, hc⟩
        exact hnone hlt hc
      exact ⟨iff_of_false ho (by simp [hrow.1, hno]), fun h => absurd h hno, fun _ h => absurd h hno,
        fun m hlt hc => absurd hc (hnone hlt)⟩

/-- The log of an account is what the store answers from. -/
theorem Intact.changeLog (hi : Intact t) (hreached : ∃ r ∈ t.accounts, r.id = x) (k : ObjectKind) :
    ∃ log : ChangeLog, t.modseqOf x = some log.current ∧ log.rows = t.logOf x k ∧
      ∀ since maxChanges, changes t x k since maxChanges = log.changes since maxChanges := by
  obtain ⟨r, hr, hid⟩ := hreached
  have hcurrent : t.modseqOf x = some r.modseq := by
    rw [Db.modseqOf, Db.account, ← hid, hi.keyed.account.find?_eq hr]
    rfl
  have hsound : Sound x r.modseq none t := ⟨hi.keyed, hi.linked, hi.named, hi.clocked,
    (hi.keyed.modseq_eq hcurrent).2⟩
  exact ⟨hsound.changeLog ⟨r, hr, hid⟩ k, hcurrent, rfl, changes_eq hsound hcurrent ⟨r, hr, hid⟩⟩

/-- What is in the log is up to the current state. -/
theorem Intact.upto (hi : Intact t) (hn : t.modseqOf x = some n) :
    ∀ c ∈ t.changes, c.accountId = x → c.modseq ≤ n := by
  intro c hc hx
  obtain ⟨⟨r, hr, hid⟩, hall⟩ := hi.keyed.modseq_eq hn
  have := hi.clocked.change c hc r hr (hid.trans hx.symm)
  exact hall r hr hid ▸ this

theorem Intact.nonneg (hi : Intact t) (hn : t.modseqOf x = some n) : 0 ≤ n := by
  obtain ⟨⟨r, hr, hid⟩, hall⟩ := hi.keyed.modseq_eq hn
  exact hall r hr hid ▸ hi.clocked.positive.1 r hr

section Rows

variable {k : ObjectKind} {log : ChangeLog} {lo hi o : Int}

theorem mem_changesOf_between (hrows : log.rows = t.logOf x k) {change : ChangeType} :
    change ∈ changesOf o (log.between lo hi) ↔ t.Says x k o change lo hi := by
  rw [ChangeLog.mem_changesOf]
  constructor
  · rintro ⟨e, he, rfl, rfl⟩
    rw [ChangeLog.mem_between, hrows, mem_logOf] at he
    exact ⟨e.modseq, he.2.1, he.2.2, he.1⟩
  · rintro ⟨m, hlo, hhi, hrow⟩
    refine ⟨⟨m, o, change⟩, ?_, rfl, rfl⟩
    rw [ChangeLog.mem_between, hrows, mem_logOf]
    exact ⟨hrow, hlo, hhi⟩

/-- In rows of the log, the one that creates an object comes first of those it has. -/
theorem Db.Tells.first {hi' : Int} (h : s.Tells t x n hi' k o) (hrows : log.rows = t.logOf x k) (hlo : n ≤ lo)
    (hcreated : .created ∈ changesOf o (log.between lo hi)) :
    ∃ back, changesOf o (log.between lo hi) = .created :: back := by
  obtain ⟨m, hlt, hle, hrow⟩ := (mem_changesOf_between hrows).1 hcreated
  have hbegins := h.begins m (by omega) hrow
  have hmem : ∀ {e}, e ∈ log.between lo hi ↔ _ := ChangeLog.mem_between
  rw [hrows] at hmem
  obtain ⟨back, heq, -⟩ := ChangeLog.changesOf_head (c := ⟨m, o, .created⟩) ChangeLog.sorted_between
    (hmem.2 ⟨mem_logOf.2 hrow, hlt, hle⟩) rfl fun r hr hro => by
      rcases hbegins.2 _ _ (hro ▸ mem_logOf.1 (hmem.1 hr).1) with ⟨hm, -⟩ | ⟨hlt, -⟩
      · exact hm.ge
      · exact hlt.le
  exact ⟨back, heq⟩

end Rows

theorem Since.covers (h : Since s x n none t) (hi : Intact s) (hi' : Intact t) (hn : s.modseqOf x =
    some n) (hs : Logged s)
    (ht : Logged t) (hb : Buries s x n t) (k : ObjectKind) :
    ∃ c, changes t x k n 0 = .ok c ∧ c.Covers s t x k := by
  obtain ⟨r, hr, hid, hle⟩ := h.reached
  obtain ⟨log, hcurrent, hrows, hlog⟩ := hi'.changeLog ⟨r, hr, hid⟩ k
  have hlast : n ≤ log.current := (hi'.keyed.modseq_eq hcurrent).2 r hr hid ▸ hle
  have hnonneg := hi.nonneg hn
  have hanswer := hlog n 0
  rw [ChangeLog.changes, if_neg (by omega)] at hanswer
  have hafter : log.after n = log.between n log.current := by
    rw [ChangeLog.after_eq hlast, ChangeLog.after_current, List.append_nil]
  rw [hafter] at hanswer
  have hupto := hi'.upto hcurrent
  refine ⟨_, hanswer, fun o => ?_, fun o => ?_, fun o ho ho' hshown => ?_⟩
  all_goals
    have htells := h.tells hi hn hs ht hb hupto k o
    obtain ⟨hcreated, hupdated, hdestroyed⟩ := mem_aggregate (log.between n log.current) log.current o
    obtain ⟨hcreated', hdestroyed', hupdated'⟩ :=
      seenOf_iff (l := changesOf o (log.between n log.current)) (htells.first hrows (le_refl n))
    rw [mem_changesOf_between hrows, mem_changesOf_between hrows] at hcreated' hdestroyed' hupdated'
    obtain ⟨hthere, hnew, hknown, -⟩ := htells
  · rw [hdestroyed, hdestroyed', hthere]
    constructor
    · rintro ⟨hd, hc⟩
      exact ⟨(hknown _ hd).resolve_right hc, fun h => h.2 hd⟩
    · rintro ⟨ho, hno⟩
      exact ⟨by_contra fun hd => hno ⟨.inl ho, hd⟩, fun hc => hnew hc ho⟩
  · rw [hcreated, hcreated', hthere]
    constructor
    · rintro ⟨hc, hd⟩
      exact ⟨hnew hc, .inr hc, hd⟩
    · rintro ⟨ho, hor, hd⟩
      exact ⟨hor.resolve_left ho, hd⟩
  · rw [hupdated, hupdated']
    refine ⟨fun hnil => hshown (h.shown k o ho (by simp) fun c hc hx hk hco => ?_).2, fun h =>
      hnew h ho, (hthere.1 ho').2⟩
    -- A row of it would be in the answer.
    by_contra hlt
    subst hx hk hco
    exact List.not_mem_nil (hnil ▸ (mem_changesOf_between hrows).2 ⟨c.modseq, not_le.1 hlt,
      hupto c hc rfl, hc⟩)

end Runs

/-- **The change log is complete**, from every state on that a run reaches, as long as the calls
after it are traceable. -/
theorem changes_complete (ext : Externals) (ops later : List StoreOp) (account n : Int)
    (hn : (runOps ext ops {}).modseqOf account = some n)
    (hok : Meets ext (fun db op => op.Traceable db) later (runOps ext ops {})) (kind : ObjectKind) :
    ∃ c, changes (runOps ext later (runOps ext ops {})) account kind n 0 = .ok c ∧
      c.Covers (runOps ext ops {}) (runOps ext later (runOps ext ops {})) account kind := by
  have hi : Intact (runOps ext ops {}) := intact_runOps ops
  have hs := logged_runOps ext ops
  have hi' : Intact (runOps ext (ops ++ later) {}) := intact_runOps (ops ++ later)
  rw [runOps_append] at hi'
  generalize runOps ext ops {} = s at *
  obtain ⟨⟨ht, hsince⟩, hburies⟩ := meets_induct
    (P := fun db => (Logged db ∧ Since s account n none db) ∧ Buries s account n db)
    (fun hi h hop hout => ⟨hout.since hi hs h.1, hout.buries hi hop h.1.1 h.2⟩) later hok hi
    ⟨⟨hs, .start hi hn⟩, .start hi hn⟩
  exact hsince.covers hi hi' hn hs ht hburies kind

/-- Two messages with one id, which are one thread. -/
def threadOps : List StoreOp :=
  let message : IngestRequest :=
    { accountId := 1, raw := "Message-ID: <a@b>\r\n\r\n".toUTF8.toList, mailboxes := [.role .inbox],
      keywords := [], receivedAt := none }
  [.createAccount ⟨"ada", false, 0, true⟩ 0, .ingest message false 0, .ingest message false 0]

theorem changes_complete_thread : ∃ c, changes (runOps plainExternals [.destroyEmails 1 [1],
    .destroyEmails 1 [2]]
      (runOps plainExternals threadOps {})) 1 .thread 3 0 = .ok c ∧
    c.Covers (runOps plainExternals threadOps {}) (runOps plainExternals [.destroyEmails 1 [1],
      .destroyEmails 1 [2]]
      (runOps plainExternals threadOps {})) 1 .thread :=
  changes_complete plainExternals threadOps [.destroyEmails 1 [1],
    .destroyEmails 1 [2]] 1 3 (by decide +kernel)
    ⟨by decide +kernel, by decide +kernel, trivial⟩ .thread

/-- Destroyed in one call, they leave a thread that the log only knows as updated. -/
theorem thread_end_is_lost : ¬ ∀ (ext : Externals) (ops later : List StoreOp) (account n : Int),
    (runOps ext ops {}).modseqOf account = some n → ∀ kind,
      ∃ c, changes (runOps ext later (runOps ext ops {})) account kind n 0 = .ok c ∧
        c.Covers (runOps ext ops {}) (runOps ext later (runOps ext ops {})) account kind := by
  intro h
  obtain ⟨c, hc, hcovers⟩ := h plainExternals threadOps [.destroyEmails 1 [1, 2]] 1 3
    (by decide +kernel) .thread
  have hanswer : changes (runOps plainExternals [.destroyEmails 1 [1, 2]]
    (runOps plainExternals threadOps {})) 1 .thread 3 0 =
      .ok { updated := [1], newState := 4 } := by decide +kernel
  obtain rfl := Except.ok.inj (hanswer.symm.trans hc)
  have hgone := (hcovers.destroyed 1).2 (by decide +kernel)
  cases hgone

/-! ## 7. Ids -/

section Ids

variable {s t t' : Db} {a m : Int} {dying dying' : Option Int}

/-- Ids are given out upwards: what is there, under an id that `s` had given out, was there then. -/
def Older (s t : Db) : Prop :=
  (∀ k, s.seqOf k ≤ t.seqOf k) ∧ ∀ x k, ∀ o ∈ t.objects x k, o ≤ s.seqOf k → o ∈ s.objects x k

theorem Older.moves (h : Older s t) (hmoves : Moves a m dying dying' t t') : Older s t' := by
  refine ⟨fun k => (h.1 k).trans (hmoves.seq k), fun x k o ho hle => ?_⟩
  rcases hmoves.object x k o ho with hold | ⟨-, hnew, -⟩
  · exact h.2 x k o hold hle
  · have := h.1 k
    omega

theorem older_runOps (ext : Externals) (ops : List StoreOp) (hi : Intact s) : Older s (runOps ext ops s) :=
  runOps_invariant (fun d new _ h => h.moves (Moves.insertAccount 0 0 d new : Moves 0 0 none none d _))
    (fun d a h => h.moves (Moves.bump a 0 d : Moves a 0 none none d _))
      (fun hs hm hf h => h.moves (hf.moves hs hm))
    (fun hs hd h => h.moves (hd.moves hs)) ops hi ⟨fun _ => le_refl _, fun _ _ _ h _ => h⟩

end Ids

/-- **An id is given out once.**  An object that is gone stays gone, and nobody else gets its id. -/
theorem ids_never_return (ext : Externals) (ops later last : List StoreOp) (kind : ObjectKind)
    (o account account' : Int)
    (hthere : o ∈ (runOps ext ops {}).objects account kind)
    (hgone : o ∉ (runOps ext (ops ++ later) {}).objects account kind) :
    o ∉ (runOps ext (ops ++ later ++ last) {}).objects account' kind := by
  have hi : Intact (runOps ext ops {}) := intact_runOps ops
  have hi' : Intact (runOps ext (ops ++ later) {}) := intact_runOps (ops ++ later)
  rw [runOps_append] at hi' hgone
  rw [runOps_append, runOps_append]
  have hlater := older_runOps ext later hi
  have hlast := older_runOps ext last hi'
  generalize runOps ext ops {} = s at *
  intro ho
  have hle := hi.linked.objects_le hthere
  have ho' := hlast.2 account' kind o ho (hle.trans (hlater.1 kind))
  obtain rfl := hi.keyed.objects_account hthere (hlater.2 account' kind o ho' hle)
  exact hgone ho'

theorem ids_never_return_thread : (1 : Int) ∉ (runOps plainExternals (threadOps ++
    [.destroyEmails 1 [1, 2]] ++ threadOps)
    {}).objects 1 .thread :=
  ids_never_return plainExternals threadOps [.destroyEmails 1 [1, 2]] threadOps .thread 1 1 1
    (by decide +kernel)
    (by decide +kernel)

/-- **Every state is sound.**  Ids and keys are unique, references are closed, names are unique
among siblings, no modseq is ahead of its account's; what is there was created once, by the first
row about it, and only updated since; and every keyword is one that may be stored. -/
theorem store_sound (ext : Externals) (ops : List StoreOp) :
    Intact (runOps ext ops {}) ∧ Logged (runOps ext ops {}) ∧ Lawful (runOps ext ops {}) :=
  ⟨intact_runOps ops, logged_runOps ext ops, lawful_runOps ops Intact.empty Lawful.empty⟩

end UwuMail.Store
