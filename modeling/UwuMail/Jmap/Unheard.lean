/-
# What an owner does elsewhere

Someone sees some of an owner's mailboxes.  The state they are given and the changes they hear of
are read from the owner's own modseqs and change log, with filters; `Unheard` says of two states of
the store that the filters make them the same.

An operation that names no visible mailbox and no email in one, and that leaves the sharing alone,
is `Hidden`: every one of its events stays outside the visible mailboxes (`Footprint`), so the store
before and after it are `Unheard`.  The condition on the sharing is needed, as the modseq of the
last change to the sharing is the OWNER'S, whoever it was about; and a hidden operation may decide
what a later visible one does, because the quota and the numbers that are given out are the
account's.

The state never falls back while the mailboxes stay visible (§5).
-/
import UwuMail.Jmap.Sharing
import UwuMail.Store.Log

namespace UwuMail.Store

open Table

/-! ## 1. Operations -/

namespace StoreOp

/-- The emails an operation is about. -/
def emails (db : Db) : StoreOp → List Int
  | updateEmails _ updates => updates.map (·.id)
  | destroyEmails _ ids => ids
  | destroyMailbox _ id _ => (db.holdings id).map (·.1)
  | imapStoreFlags _ mailbox uids _ _ => (emailsByUid db mailbox uids).map (·.2.1)
  | imapCopy _ source uids _ _ => (emailsByUid db source uids).map (·.2.1)
  | imapExpunge _ mailbox uids => (wantedOut db mailbox uids true).map (·.2.1)
  | imapRemove _ mailbox uids => (wantedOut db mailbox (some uids) false).map (·.2.1)
  | _ => []

/-- The mailboxes an operation changes or puts emails into. -/
def mailboxes (db : Db) : StoreOp → List Int
  | updateMailbox _ id _ | destroyMailbox _ id _ => [id]
  | setMailboxAcl _ mailbox _ _ => [mailbox]
  | op => (op.enters db).map (·.2)

/-- Who sees what in the owner's account changes. -/
def changesSharing (owner : Int) (db : Db) : StoreOp → Bool
  | setMailboxAcl a _ _ _ | makeShared a _ | setSharedMailboxMembers a _ | endSharedMailbox a => a == owner
  | destroyMailbox a id _ => a == owner && db.isShared a id
  | _ => false

/-- An operation that is about no visible mailbox, no email in one and not about the sharing. -/
structure Hidden (owner : Int) (visible : List Int) (db : Db) (op : StoreOp) : Prop where
  mailboxes : ∀ b ∈ op.mailboxes db, b ∉ visible
  emails : ∀ e ∈ op.emails db, ∀ b ∈ db.mailboxIdsOf e, b ∉ visible
  sharing : op.changesSharing owner db = false

instance (owner : Int) (visible : List Int) (db : Db) (op : StoreOp) :
    Decidable (op.Hidden owner visible db) :=
  decidable_of_iff ((∀ b ∈ op.mailboxes db, b ∉ visible) ∧
      (∀ e ∈ op.emails db, ∀ b ∈ db.mailboxIdsOf e, b ∉ visible) ∧ op.changesSharing owner db = false)
    ⟨fun h => ⟨h.1, h.2.1, h.2.2⟩, fun h => ⟨h.mailboxes, h.emails, h.sharing⟩⟩

end StoreOp

/-- An event that keeps to these emails and mailboxes. -/
def Event.Within (emails mailboxes : List Int) : Event → Prop
  | store _ ids => ids ⊆ mailboxes
  | update plan => plan.email ∈ emails ∧ plan.entered.elems ⊆ mailboxes
  | destroy row => row.id ∈ emails
  | leave email _ => email ∈ emails
  | alter id _ => id ∈ mailboxes
  | share mailbox _ => mailbox ∈ mailboxes
  | create _ | members _ _ => True

section Operations

variable {ext : Externals} {db : Db} {m : Int} {es : List Event} {dying : Option Int} {op : StoreOp}

theorem UpdatePlan.enters_sub {plan : UpdatePlan} {mailboxes : List Int}
    (h : (Event.update plan).enters.map (·.2) ⊆ mailboxes) : plan.entered.elems ⊆ mailboxes :=
  fun b hb => h (List.mem_map.2 ⟨(some plan.email, b), List.mem_map.2 ⟨b, hb, rfl⟩, rfl⟩)

theorem TakesOut.within {entries : List (U32 × Int × Nat)} {mailboxes : List Int} {e : Event}
    (h : TakesOut entries es) (he : e ∈ es) (hent : e.enters.map (·.2) ⊆ mailboxes) :
    e.Within (entries.map (·.2.1)) mailboxes := by
  have hemail : ∀ x, e.email? = some x → x ∈ entries.map (·.2.1) := fun x hx =>
    h.once.subset (List.mem_filterMap.2 ⟨e, he, hx⟩)
  rcases h.kinds e he with ⟨plan, rfl⟩ | ⟨row, rfl, -⟩
  · exact ⟨hemail plan.email rfl, plan.enters_sub hent⟩
  · exact hemail row.id rfl

theorem StoreOp.Gives.within (h : op.Gives ext db m es dying) (henters : EntersOnly (op.enters db) es) :
    ∀ e ∈ es, e.Within (op.emails db) (op.mailboxes db) := by
  intro e he
  have hent : e.enters.map (·.2) ⊆ (op.enters db).map (·.2) := List.map_subset _ (henters e he)
  cases op with
  | createAccount new now => exact h.elim
  | ingest request smtp now =>
    obtain ⟨-, p, ids, -, rfl⟩ := h
    rw [List.mem_singleton.1 he] at hent ⊢
    exact fun b hb => hent (List.mem_map.2 ⟨(none, b), List.mem_map.2 ⟨b, hb, rfl⟩, rfl⟩)
  | updateEmails a updates =>
    obtain ⟨plan, rfl, hid⟩ := h.2 e he
    exact ⟨hid, plan.enters_sub hent⟩
  | destroyEmails a ids =>
    obtain ⟨row, rfl, hid⟩ := h.2 e he
    exact hid
  | createMailbox a name parent role order subscribed now =>
    obtain ⟨-, valid, -, rfl⟩ := h
    rw [List.mem_singleton.1 he]
    trivial
  | updateMailbox a id update =>
    obtain ⟨-, name, -, rfl⟩ := h
    rw [List.mem_singleton.1 he]
    exact List.mem_singleton_self _
  | destroyMailbox a b remove =>
    obtain ⟨-, -, hclears⟩ := h
    have hemail : ∀ x, e.email? = some x → x ∈ (db.holdings b).map (·.1) := by
      intro x hx
      have : some x ∈ es.map Event.email? := hx ▸ List.mem_map_of_mem he
      rw [hclears.once] at this
      obtain ⟨entry, hentry, heq⟩ := List.mem_map.1 this
      exact List.mem_map.2 ⟨entry, hentry, Option.some.inj heq⟩
    rcases hclears.kinds e he with ⟨email, rfl⟩ | ⟨row, rfl, -⟩
    · exact hemail email rfl
    · exact hemail row.id rfl
  | imapStoreFlags a mailbox uids change since =>
    obtain ⟨plan, rfl, hid⟩ := h.2 e he
    exact ⟨hid, plan.enters_sub hent⟩
  | imapCopy a source uids target remove =>
    obtain ⟨plan, rfl, hid⟩ := h.2 e he
    exact ⟨hid, plan.enters_sub hent⟩
  | imapExpunge a mailbox uids => exact h.2.within he hent
  | imapRemove a mailbox uids => exact h.2.within he hent
  | setMailboxAcl a mailbox grantee rights =>
    obtain ⟨-, acl, rfl⟩ := h
    rw [List.mem_singleton.1 he]
    exact List.mem_singleton_self _
  | makeShared a members | setSharedMailboxMembers a members | endSharedMailbox a =>
    obtain ⟨-, list, shared, rfl⟩ := h
    rw [List.mem_singleton.1 he]
    trivial

theorem StoreOp.Gives.sharing (h : op.Gives ext db m es dying) {owner : Int}
    (hop : op.changesSharing owner db = false) (ha : op.account db = owner) :
    (∀ e ∈ es, e.sharing = false) ∧ ∀ b, dying = some b → db.isShared owner b = false := by
  cases op with
  | createAccount new now => exact h.elim
  | ingest request smtp now =>
    obtain ⟨rfl, p, ids, -, rfl⟩ := h
    exact ⟨by simp [Event.sharing], by simp⟩
  | updateEmails a updates =>
    refine ⟨fun e he => ?_, by simp [h.1]⟩
    obtain ⟨plan, rfl, -⟩ := h.2 e he
    rfl
  | destroyEmails a ids =>
    refine ⟨fun e he => ?_, by simp [h.1]⟩
    obtain ⟨row, rfl, -⟩ := h.2 e he
    rfl
  | createMailbox a name parent role order subscribed now =>
    obtain ⟨rfl, valid, -, rfl⟩ := h
    exact ⟨by simp [Event.sharing], by simp⟩
  | updateMailbox a id update =>
    obtain ⟨rfl, name, -, rfl⟩ := h
    exact ⟨by simp [Event.sharing], by simp⟩
  | destroyMailbox a b remove =>
    obtain ⟨rfl, -, hclears⟩ := h
    cases ha
    refine ⟨fun e he => ?_, ?_⟩
    · rcases hclears.kinds e he with ⟨email, rfl⟩ | ⟨row, rfl, -⟩ <;> rfl
    · rintro b ⟨⟩
      simpa [StoreOp.changesSharing, StoreOp.account] using hop
  | imapStoreFlags a mailbox uids change since =>
    refine ⟨fun e he => ?_, by simp [h.1]⟩
    obtain ⟨plan, rfl, -⟩ := h.2 e he
    rfl
  | imapCopy a source uids target remove =>
    refine ⟨fun e he => ?_, by simp [h.1]⟩
    obtain ⟨plan, rfl, -⟩ := h.2 e he
    rfl
  | imapExpunge a mailbox uids =>
    refine ⟨fun e he => ?_, by simp [h.1]⟩
    rcases h.2.kinds e he with ⟨plan, rfl⟩ | ⟨row, rfl, -⟩ <;> rfl
  | imapRemove a mailbox uids =>
    refine ⟨fun e he => ?_, by simp [h.1]⟩
    rcases h.2.kinds e he with ⟨plan, rfl⟩ | ⟨row, rfl, -⟩ <;> rfl
  | setMailboxAcl a mailbox grantee rights =>
    simp [StoreOp.changesSharing, StoreOp.account] at hop ha
    exact absurd ha hop
  | makeShared a members | setSharedMailboxMembers a members | endSharedMailbox a =>
    simp [StoreOp.changesSharing, StoreOp.account] at hop ha
    exact absurd ha hop

end Operations

/-! ## 2. What is heard -/

/-- Nobody who sees these mailboxes can tell the two states apart. -/
structure Unheard (owner : Int) (visible : List Int) (db db' : Db) : Prop where
  sharing : (db'.account owner).map (·.sharingModseq) = (db.account owner).map (·.sharingModseq)
  rows : (db'.mailboxes.filter fun r => visible.contains r.id) =
    db.mailboxes.filter fun r => visible.contains r.id
  inside : ∀ e, ∀ b ∈ visible, (b ∈ db'.mailboxIdsOf e ↔ b ∈ db.mailboxIdsOf e)
  log : ∃ new, db'.changes = db.changes ++ new ∧ ∀ c ∈ new, db'.isRelevant visible c = false ∧
    ∀ old ∈ db.changes, old.accountId = c.accountId → old.modseq ≠ c.modseq
  seq : db.mailboxSeq ≤ db'.mailboxSeq

section Unheard

variable {owner : Int} {visible : List Int} {db db' db'' : Db}

/-- What is relevant depends on what the visible mailboxes hold. -/
theorem isRelevant_congr (h : ∀ e, ∀ b ∈ visible, (b ∈ db'.mailboxIdsOf e ↔ b ∈ db.mailboxIdsOf e))
    (c : ChangeRow) : db'.isRelevant visible c = db.isRelevant visible c := by
  unfold Db.isRelevant
  cases c.kind with
  | mailbox => rfl
  | thread => rfl
  | email =>
    rw [Bool.eq_iff_iff]
    simp only [List.any_eq_true, List.contains_iff_mem]
    constructor
    · rintro ⟨b, hb, hv⟩
      exact ⟨b, (h _ b hv).1 hb, hv⟩
    · rintro ⟨b, hb, hv⟩
      exact ⟨b, (h _ b hv).2 hb, hv⟩

theorem Unheard.refl : Unheard owner visible db db :=
  ⟨rfl, rfl, fun _ _ _ => Iff.rfl, ⟨[], by simp, by simp⟩, le_refl _⟩

theorem Unheard.trans (h : Unheard owner visible db db') (h' : Unheard owner visible db' db'') :
    Unheard owner visible db db'' := by
  refine ⟨h'.sharing.trans h.sharing, h'.rows.trans h.rows,
    fun e b hb => (h'.inside e b hb).trans (h.inside e b hb), ?_, h.seq.trans h'.seq⟩
  obtain ⟨new, hnew, hno⟩ := h.log
  obtain ⟨new', hnew', hno'⟩ := h'.log
  refine ⟨new ++ new', by rw [hnew', hnew, List.append_assoc], ?_⟩
  intro c hc
  rcases List.mem_append.1 hc with hc | hc
  · refine ⟨?_, (hno c hc).2⟩
    rw [isRelevant_congr h'.inside]
    exact (hno c hc).1
  · refine ⟨(hno' c hc).1, fun old hold => (hno' c hc).2 old ?_⟩
    rw [hnew]
    exact List.mem_append_left _ hold

theorem Unheard.sharedStateOf_eq (h : Unheard owner visible db db') :
    sharedStateOf db' owner visible = sharedStateOf db owner visible := by
  have hseen : (db'.mailboxes.filter fun m => m.accountId == owner && visible.contains m.id) =
      db.mailboxes.filter fun m => m.accountId == owner && visible.contains m.id := by
    rw [← List.filter_filter, h.rows, List.filter_filter]
  have hsharing := h.sharing
  unfold sharedStateOf
  rw [hseen]
  cases hacc : db.account owner with
  | none =>
    rw [hacc, Option.map_none, Option.map_eq_none_iff] at hsharing
    rw [hsharing]
  | some row =>
    rw [hacc, Option.map_some] at hsharing
    obtain ⟨row', hrow', heq⟩ := Option.map_eq_some_iff.1 hsharing
    rw [hrow']
    simp only [heq]

theorem Unheard.relevant_eq (h : Unheard owner visible db db') (since : Int) :
    db'.relevant owner visible since = db.relevant owner visible since := by
  obtain ⟨new, hnew, hno⟩ := h.log
  unfold Db.relevant
  rw [hnew, List.filter_append]
  have hnone : (new.filter fun c => c.accountId == owner && decide (c.modseq > since) &&
      db'.isRelevant visible c) = [] :=
    List.filter_eq_nil_iff.2 fun c hc => by simp [(hno c hc).1]
  rw [hnone, List.append_nil]
  refine congrArg _ (List.filter_congr fun c _ => ?_)
  rw [isRelevant_congr h.inside]

/-- The new rows are at modseqs of their own, and those are not relevant. -/
theorem Unheard.rows_eq (h : Unheard owner visible db db') (kind : ObjectKind) (since : Int) :
    ((db'.logSince owner kind since).filter fun row =>
        (db.relevant owner visible since).contains row.modseq) =
      (db.logSince owner kind since).filter fun row =>
        (db.relevant owner visible since).contains row.modseq := by
  obtain ⟨new, hnew, hno⟩ := h.log
  have htrans : IsTrans LogEntry fun a b =>
      a.modseq < b.modseq ∨ a.modseq = b.modseq ∧ a.object ≤ b.object := ⟨by omega⟩
  have htotal : @Std.Total LogEntry fun a b =>
      a.modseq < b.modseq ∨ a.modseq = b.modseq ∧ a.object ≤ b.object := ⟨by omega⟩
  have hirrelevant : ∀ c ∈ new, c.accountId = owner →
      c.modseq ∉ db.relevant owner visible since := by
    intro c hc hacc hmem
    obtain ⟨old, hold, heq⟩ := List.mem_map.1 hmem
    obtain ⟨hold, hcond⟩ := List.mem_filter.1 hold
    simp only [Bool.and_eq_true, beq_iff_eq] at hcond
    exact (hno c hc).2 old hold (hcond.1.1.trans hacc.symm) heq
  unfold Db.logSince
  rw [filter_insertionSort, filter_insertionSort, hnew, List.filter_append, List.map_append,
    List.filter_append]
  have hnone : ((new.filter fun r => r.accountId == owner && r.kind == kind &&
      decide (r.modseq > since)).map fun r =>
        { modseq := r.modseq, object := r.objectId, change := r.change : LogEntry }).filter
      (fun row => (db.relevant owner visible since).contains row.modseq) = [] := by
    refine List.filter_eq_nil_iff.2 fun row hrow => ?_
    obtain ⟨c, hc, rfl⟩ := List.mem_map.1 hrow
    obtain ⟨hc, hcond⟩ := List.mem_filter.1 hc
    simp only [Bool.and_eq_true, beq_iff_eq] at hcond
    simpa using hirrelevant c hc hcond.1.1
  rw [hnone, List.append_nil]

/-- The state and every answer are the same. -/
theorem Unheard.answers (h : Unheard owner visible db db') :
    sharedState db' owner visible = sharedState db owner visible ∧ ∀ kind since maxChanges,
      sharedChanges db' owner kind since maxChanges visible =
        sharedChanges db owner kind since maxChanges visible := by
  refine ⟨by rw [sharedState, sharedState, h.sharedStateOf_eq], ?_⟩
  intro kind since maxChanges
  unfold sharedChanges
  rw [h.sharedStateOf_eq]
  refine congrArg _ (funext fun current => ?_)
  simp only [h.relevant_eq, h.rows_eq]

end Unheard

/-! ## 3. Events and transactions -/

/-- A transaction of the account `a` that has come so far without being heard. -/
structure Silent (owner : Int) (visible : List Int) (a m : Int) (dying : Option Int) (db₀ db : Db) :
    Prop where
  sharing : (db.account owner).map (·.sharingModseq) = (db₀.account owner).map (·.sharingModseq)
  rows : (db.mailboxes.filter fun r => visible.contains r.id) =
    db₀.mailboxes.filter fun r => visible.contains r.id
  inside : ∀ e, ∀ b ∈ visible, (b ∈ db.mailboxIdsOf e ↔ b ∈ db₀.mailboxIdsOf e)
  log : ∃ new, db.changes = db₀.changes ++ new ∧ ∀ c ∈ new,
    c.accountId = a ∧ c.modseq = m ∧ db.isRelevant visible c = false
  seq : db₀.mailboxSeq ≤ db.mailboxSeq
  -- Only a transaction that destroys a mailbox asks whom it is shared with.
  shares : dying = none ∨
    (db.mailboxAcl = db₀.mailboxAcl ∧ db.sharedMailboxMembers = db₀.sharedMailboxMembers)

theorem insertAll_eq_append (rows t : List ChangeRow) :
    ∃ new, insertAll ChangeRow.key rows t = t ++ new ∧ ∀ c ∈ new, c ∈ rows := by
  induction rows generalizing t with
  | nil => exact ⟨[], by simp, by simp⟩
  | cons row rows ih =>
    rw [insertAll_cons]
    unfold insertOrIgnore
    split
    · obtain ⟨new, heq, hnew⟩ := ih t
      exact ⟨new, heq, fun c hc => List.mem_cons_of_mem _ (hnew c hc)⟩
    · obtain ⟨new, heq, hnew⟩ := ih (t ++ [row])
      refine ⟨row :: new, by rw [heq, List.append_assoc, List.singleton_append], ?_⟩
      intro c hc
      rcases List.mem_cons.1 hc with rfl | hc
      · exact List.mem_cons_self
      · exact List.mem_cons_of_mem _ (hnew c hc)

section Events

variable {owner : Int} {visible : List Int} {a m : Int} {dying : Option Int} {db₀ db db' : Db}

/-- A write outside the visible mailboxes that leaves the sharing alone. -/
theorem Silent.write {log : List ChangeRow} {touched : List Int}
    (h : Silent owner visible a m dying db₀ db) (hfoot : Footprint db db' log touched)
    (hout : ∀ b ∈ touched, b ∉ visible) (hchanges : db'.changes = insertAll ChangeRow.key log db.changes)
    (hmine : ∀ c ∈ log, c.accountId = a ∧ c.modseq = m)
    (hboxes : ∀ c ∈ log, c.kind = .mailbox → c.objectId ∈ touched)
    (hsharing : (db'.account owner).map (·.sharingModseq) = (db.account owner).map (·.sharingModseq))
    (hseq : db.mailboxSeq ≤ db'.mailboxSeq) (hshares : dying = none ∨
      (db'.mailboxAcl = db.mailboxAcl ∧ db'.sharedMailboxMembers = db.sharedMailboxMembers)) :
    Silent owner visible a m dying db₀ db' := by
  have hinside : ∀ e, ∀ b ∈ visible, (b ∈ db'.mailboxIdsOf e ↔ b ∈ db.mailboxIdsOf e) :=
    fun e b hb => hfoot.inside e b fun ht => hout b ht hb
  refine ⟨hsharing.trans h.sharing, (hfoot.rows visible hout).trans h.rows,
    fun e b hb => (hinside e b hb).trans (h.inside e b hb), ?_, h.seq.trans hseq, ?_⟩
  · obtain ⟨new, hnew, hno⟩ := h.log
    obtain ⟨new', hnew', hrows⟩ := insertAll_eq_append log db.changes
    refine ⟨new ++ new', by rw [hchanges, hnew', hnew, List.append_assoc], ?_⟩
    intro c hc
    rcases List.mem_append.1 hc with hc | hc
    · obtain ⟨hacc, hmod, hrel⟩ := hno c hc
      exact ⟨hacc, hmod, by rw [isRelevant_congr hinside]; exact hrel⟩
    · refine ⟨(hmine c (hrows c hc)).1, (hmine c (hrows c hc)).2, ?_⟩
      unfold Db.isRelevant
      cases hkind : c.kind with
      | mailbox => simpa using hout _ (hboxes c (hrows c hc) hkind)
      | thread => rfl
      | email =>
        refine List.any_eq_false.2 fun b hb => ?_
        simpa using hout b (hfoot.emails c (hrows c hc) hkind b hb)
  · rcases h.shares with hd | ⟨hacl, hmembers⟩
    · exact .inl hd
    · rcases hshares with hd | ⟨hacl', hmembers'⟩
      · exact .inl hd
      · exact .inr ⟨hacl'.trans hacl, hmembers'.trans hmembers⟩

variable {emails mailboxes : List Int}

/-- The mailboxes an event moves are not visible. -/
theorem Silent.touches {e : Event} (h : Silent owner visible a m dying db₀ db)
    (hf : e.Fits a m dying db) (hwithin : e.Within emails mailboxes)
    (hv : ∀ b ∈ visible, b ≤ db₀.mailboxSeq) (hmailboxes : ∀ b ∈ mailboxes, b ∉ visible)
    (hemails : ∀ e ∈ emails, ∀ b ∈ db₀.mailboxIdsOf e, b ∉ visible) :
    ∀ b ∈ e.touches db, b ∉ visible := by
  have hemail : ∀ x ∈ emails, ∀ b ∈ db.mailboxIdsOf x, b ∉ visible :=
    fun x hx b hb hin => hemails x hx b ((h.inside x b hin).1 hb) hin
  intro b hb
  cases e with
  | store p ids => exact hmailboxes b (hwithin hb)
  | update plan =>
    have hold : b ∈ plan.oldMailboxes → b ∉ visible := by
      intro hin
      rw [hf.2.oldMailboxes, Db.mem_mailboxesOf] at hin
      exact hemail _ hwithin.1 b (Db.mem_mailboxIdsOf.2 hin)
    rcases List.mem_append.1 hb with hb | hb
    · exact hold hb
    · by_cases hin : b ∈ plan.oldMailboxes
      · exact hold hin
      · refine hmailboxes b (hwithin.2 ?_)
        rw [SortedSet.mem_elems, UpdatePlan.entered, SortedSet.mem_difference]
        exact ⟨hb, hin⟩
  | destroy row => exact hemail _ hwithin b hb
  | leave email mailbox => exact hemail _ hwithin b hb
  | create row =>
    rw [List.mem_singleton.1 hb, hf.2.id]
    intro hin
    have := hv _ hin
    have := h.seq
    omega
  | alter id u =>
    rw [List.mem_singleton.1 hb]
    exact hmailboxes id hwithin
  | share mailbox acl =>
    rw [List.mem_singleton.1 hb]
    exact hmailboxes mailbox hwithin
  | members list shared => cases hb

theorem Silent.event {e : Event} (h : Silent owner visible a m dying db₀ db)
    (hs : Sound a m dying db) (hf : e.Fits a m dying db) (hwithin : e.Within emails mailboxes)
    (hv : ∀ b ∈ visible, b ≤ db₀.mailboxSeq) (hmailboxes : ∀ b ∈ mailboxes, b ∉ visible)
    (hemails : ∀ e ∈ emails, ∀ b ∈ db₀.mailboxIdsOf e, b ∉ visible)
    (hsharing : e.sharing = false ∨ a ≠ owner) :
    Silent owner visible a m dying db₀ (e.apply a m db) :=
  h.write (hf.footprint hs) (h.touches hf hwithin hv hmailboxes hemails) (hf.changes hs) hf.log_mine
    (fun _ hc hkind => Event.log_mailbox hc hkind) (hf.sharing_eq hs hsharing) (hf.seq_le hs)
      (hf.shares_eq hs)

theorem Silent.drop {b : Int} (h : Silent owner visible a m (some b) db₀ db) (hd : db.Droppable a b)
    (hb : b ∉ visible) (hshared : a = owner → db₀.isShared owner b = false) :
    Silent owner visible a m none db₀ (db.dropMailbox a m b) := by
  obtain ⟨hacl, hmembers⟩ := h.shares.resolve_left (by simp)
  have hshared' : a = owner → db.isShared a b = false := by
    rintro rfl
    rw [Db.isShared, hacl, hmembers]
    exact hshared rfl
  have hsharing : ((db.dropMailbox a m b).account owner).map (·.sharingModseq) =
      (db.account owner).map (·.sharingModseq) := by
    rw [Db.dropMailbox_eq]
    refine sharing_updateWhere (fun _ => rfl) fun r hr ho => ?_
    simp only [Bool.and_eq_true, beq_iff_eq] at hr
    rw [hshared' (hr.1.symm.trans ho)] at hr
    cases hr.2
  have hsilent : Silent owner visible a m none db₀ db := { h with shares := Or.inl rfl }
  refine hsilent.write (.drop hd) (by simpa using hb) ?_ (by simp) (by simp) hsharing ?_ (Or.inl rfl)
  · rw [Db.dropMailbox_eq]
    rfl
  · rw [Db.dropMailbox_eq]

theorem Silent.start (dying : Option Int) : Silent owner visible a m dying db (db.bumpModseq a) :=
  ⟨sharing_updateWhere (fun _ => rfl) fun _ _ _ => rfl, rfl, fun _ _ _ => Iff.rfl,
    ⟨[], by simp [Db.bumpModseq, Db.updateAccount], by simp⟩, le_refl _, Or.inr ⟨rfl, rfl⟩⟩

/-- **A transaction that keeps to hidden emails and mailboxes is silent.** -/
theorem Effect.silent {es : List Event} (heff : Effect a db db' m es dying) (hi : Intact db)
    (hwithin : ∀ e ∈ es, e.Within emails mailboxes) (hv : ∀ b ∈ visible, b ≤ db.mailboxSeq)
    (hmailboxes : ∀ b ∈ mailboxes, b ∉ visible)
    (hemails : ∀ e ∈ emails, ∀ b ∈ db.mailboxIdsOf e, b ∉ visible)
    (hdying : ∀ b, dying = some b → b ∉ visible)
    (hsharing : a = owner →
      (∀ e ∈ es, e.sharing = false) ∧ ∀ b, dying = some b → db.isShared owner b = false) :
    Silent owner visible a m none db db' := by
  have hquiet : ∀ e ∈ es, e.sharing = false ∨ a ≠ owner := by
    intro e he
    by_cases ha : a = owner
    · exact .inl ((hsharing ha).1 e he)
    · exact .inr ha
  refine heff.ends hi (P := fun d => Silent owner visible a m dying db d) (.start dying) ?_ ?_ ?_
  · intro d e hs _ he hf h
    exact h.event hs hf (hwithin e he) hv hmailboxes hemails (hquiet e he)
  · rintro rfl d h
    exact h
  · rintro b d rfl hs hd h
    exact h.drop hd (hdying b rfl) fun ha => (hsharing ha).2 b rfl

/-- What a silent transaction leaves. -/
theorem Silent.unheard (h : Silent owner visible a m none db db') (hi : Intact db)
    (hmodseq : db.modseqOf a = some (m - 1)) : Unheard owner visible db db' := by
  refine ⟨h.sharing, h.rows, h.inside, ?_, h.seq⟩
  obtain ⟨new, hnew, hno⟩ := h.log
  refine ⟨new, hnew, fun c hc => ⟨(hno c hc).2.2, fun old hold hacc hmod => ?_⟩⟩
  obtain ⟨hca, hcm, -⟩ := hno c hc
  obtain ⟨x, hx, hxid⟩ := hi.linked.change old hold
  have hle := hi.clocked.change old hold x hx hxid
  rw [(hi.keyed.modseq_eq hmodseq).2 x hx (hxid.trans (hacc.trans hca)), hmod, hcm] at hle
  omega

end Events

/-! ## 4. Operations and runs -/

section Runs

variable {ext : Externals} {owner : Int} {visible : List Int} {db db' : Db} {op : StoreOp}

/-- The owner is there, and the mailboxes are. -/
structure Db.Shows (db : Db) (owner : Int) (visible : List Int) : Prop where
  owner : ∃ x ∈ db.accounts, x.id = owner
  mailboxes : ∀ b ∈ visible, b ≤ db.mailboxSeq

theorem Unheard.insertAccount (hshows : db.Shows owner visible) (new : NewAccount) :
    Unheard owner visible db (db.insertAccount new) := by
  refine ⟨?_, rfl, fun _ _ _ => Iff.rfl, ⟨[], by simp [Db.insertAccount], by simp⟩, le_refl _⟩
  obtain ⟨x, hx, hid⟩ := hshows.owner
  have hfound : (db.accounts.find? fun r => r.id == owner).isSome :=
    List.find?_isSome.2 ⟨x, hx, by simpa using hid⟩
  simp only [Db.account, Db.insertAccount, List.find?_append]
  rw [Option.or_of_isSome hfound]

theorem Unheard.shows (h : Unheard owner visible db db') (hshows : db.Shows owner visible) :
    db'.Shows owner visible := by
  refine ⟨?_, fun b hb => (hshows.mailboxes b hb).trans h.seq⟩
  obtain ⟨x, hx, hid⟩ := hshows.owner
  have hsome : (db.account owner).isSome := List.find?_isSome.2 ⟨x, hx, by simpa using hid⟩
  have hsome' : (db'.account owner).isSome := by
    have := congrArg Option.isSome h.sharing
    rwa [Option.isSome_map, Option.isSome_map, hsome] at this
  obtain ⟨x', hx'⟩ := Option.isSome_iff_exists.1 hsome'
  exact ⟨x', List.mem_of_find?_eq_some hx', by simpa using List.find?_some hx'⟩

/-- **A hidden operation is not heard.** -/
theorem Outcome.unheard (h : Outcome ext op db db') (hi : Intact db) (hshows : db.Shows owner visible)
    (hhidden : op.Hidden owner visible db) : Unheard owner visible db db' := by
  cases h with
  | same => exact .refl
  | account => exact .insertAccount hshows _
  | @provision new now m db' hop hyes heff =>
    have hnew := Unheard.insertAccount hshows new
    have hne : db.accountSeq + 1 ≠ owner := by
      obtain ⟨x, hx, rfl⟩ := hshows.owner
      have := (hi.linked.accountSeq x hx).2
      omega
    have hcreate : ∀ e ∈ provisions (db.accountSeq + 1) now m db.mailboxSeq, e.Within [] [] := by
      intro e he
      obtain ⟨p, -, rfl⟩ := List.mem_map.1 he
      trivial
    have hi' := hi.insertAccount new
    have hsilent := heff.silent hi' hcreate (hnew.shows hshows).mailboxes (by simp) (by simp) (by simp)
      fun ha => absurd ha hne
    exact hnew.trans (hsilent.unheard hi' heff.modseq)
  | @effect m es dying db' heff hgives henters =>
    have hdying : ∀ b, dying = some b → b ∉ visible := by
      rintro b rfl
      cases op with
      | destroyMailbox a id remove =>
        obtain ⟨hid, -⟩ := hgives
        cases hid
        exact hhidden.mailboxes b (List.mem_singleton_self _)
      | createAccount new now => exact hgives.elim
      | _ => cases hgives.1
    have hsilent := heff.silent hi (hgives.within henters) hshows.mailboxes hhidden.mailboxes hhidden.emails
      hdying fun ha => hgives.sharing hhidden.sharing ha
    exact hsilent.unheard hi heff.modseq

theorem Unheard.run {ops : List StoreOp} (hmeets : Meets ext (fun db op => op.Hidden owner visible db) ops db)
    (hi : Intact db) (hshows : db.Shows owner visible) :
    Unheard owner visible db (runOps ext ops db) := by
  have hrun : Unheard owner visible db (runOps ext ops db) ∧ (runOps ext ops db).Shows owner visible :=
    meets_induct (P := fun d => Unheard owner visible db d ∧ d.Shows owner visible)
      (fun hi h hok hout => by
        have := hout.unheard hi h.2 hok
        exact ⟨h.1.trans this, this.shows h.2⟩) ops hmeets hi ⟨.refl, hshows⟩
  exact hrun.1

end Runs

/-! ## 5. The state never falls back -/

/-- The shared state is at least `s`: the sharing changed there, or a visible mailbox moved. -/
def Db.AtLeast (db : Db) (owner : Int) (visible : List Int) (s : Int) : Prop :=
  ∃ x ∈ db.accounts, x.id = owner ∧ (s ≤ max 0 x.sharingModseq ∨
    ∃ b ∈ db.mailboxes, b.accountId = owner ∧ b.id ∈ visible ∧ s ≤ b.updatedModseq)

section State

variable {owner : Int} {visible : List Int} {a m s : Int} {dying : Option Int} {db : Db}

theorem atLeast_of_state (h : sharedState db owner visible = .ok s) : db.AtLeast owner visible s := by
  unfold sharedState sharedStateOf at h
  cases hacc : db.account owner with
  | none =>
    rw [hacc] at h
    cases h
  | some x =>
    rw [hacc] at h
    have hs : s = max (((db.mailboxes.filter fun m => m.accountId == owner &&
        visible.contains m.id).map (·.updatedModseq)).max?.getD 0) x.sharingModseq := by
      cases h
      rfl
    refine ⟨x, List.mem_of_find?_eq_some hacc, by simpa using List.find?_some hacc, ?_⟩
    cases hmax : ((db.mailboxes.filter fun m => m.accountId == owner &&
        visible.contains m.id).map (·.updatedModseq)).max? with
    | none =>
      rw [hmax] at hs
      exact .inl (le_of_eq hs)
    | some top =>
      rw [hmax, Option.getD_some] at hs
      rcases le_total top x.sharingModseq with hle | hle
      · rw [max_eq_right hle] at hs
        exact .inl (hs ▸ le_max_right _ _)
      · rw [max_eq_left hle] at hs
        obtain ⟨b, hb, rfl⟩ := List.mem_map.1 (List.max?_mem hmax)
        obtain ⟨hb, hcond⟩ := List.mem_filter.1 hb
        simp only [Bool.and_eq_true, beq_iff_eq, List.contains_iff_mem] at hcond
        exact .inr ⟨b, hb, hcond.1, hcond.2, le_of_eq hs⟩

theorem Db.AtLeast.state (h : db.AtLeast owner visible s) (hi : Intact db) :
    ∃ s', sharedState db owner visible = .ok s' ∧ s ≤ s' := by
  obtain ⟨x, hx, hid, hcase⟩ := h
  have hacc : db.account owner = some x := by
    rw [← hid]
    exact hi.keyed.account.find?_eq hx
  refine ⟨_, by rw [sharedState, sharedStateOf, hacc]; rfl, ?_⟩
  set seen := (db.mailboxes.filter fun m => m.accountId == owner && visible.contains m.id).map
    (·.updatedModseq)
  have hpos : 0 ≤ seen.max?.getD 0 := by
    cases hmax : seen.max? with
    | none => exact le_refl _
    | some top =>
      obtain ⟨b, hb, rfl⟩ := List.mem_map.1 (List.max?_mem hmax)
      exact hi.clocked.positive.2 b (List.mem_filter.1 hb).1
  rcases hcase with hle | ⟨b, hb, hba, hbv, hle⟩
  · exact hle.trans (max_le_max hpos (le_refl _))
  · have hmem : b.updatedModseq ∈ seen := by
      refine List.mem_map.2 ⟨b, List.mem_filter.2 ⟨hb, ?_⟩, rfl⟩
      simp [hba, hbv]
    have htop : b.updatedModseq ≤ seen.max?.getD 0 := by
      cases hmax : seen.max? with
      | none =>
        rw [List.max?_eq_none_iff.1 hmax] at hmem
        cases hmem
      | some top => exact (List.max?_eq_some_iff.1 hmax).2 _ hmem
    exact hle.trans (htop.trans (le_max_left _ _))

theorem Db.AtLeast.event {e : Event} (h : db.AtLeast owner visible s) (hs : Sound a m dying db)
    (hf : e.Fits a m dying db) : (e.apply a m db).AtLeast owner visible s := by
  obtain ⟨x, hx, hid, hcase⟩ := h
  obtain ⟨x', hx', hid', hle⟩ := hf.account_le hs hx
  refine ⟨x', hx', hid'.trans hid, ?_⟩
  rcases hcase with hcase | ⟨b, hb, hba, hbv, hcase⟩
  · exact .inl (hcase.trans (max_le_max (le_refl _) hle))
  · obtain ⟨b', hb', hbid, hbacc, hble⟩ := hf.mailbox_le hs hb
    exact .inr ⟨b', hb', hbacc.trans hba, hbid ▸ hbv, hcase.trans hble⟩

/-- A visible mailbox that goes moves the sharing on. -/
theorem Db.AtLeast.drop {b : Int} (h : db.AtLeast owner visible s) (hs : Sound a m dying db)
    (hd : db.Droppable a b) (hshared : b ∈ visible → a = owner → db.isShared owner b = true) :
    (db.dropMailbox a m b).AtLeast owner visible s := by
  obtain ⟨x, hx, hid, hcase⟩ := h
  rw [Db.dropMailbox_eq]
  refine ⟨_, mem_updateWhere.2 ⟨x, hx, rfl⟩, ?_, ?_⟩
  · split
    · exact hid
    · exact hid
  rcases hcase with hcase | ⟨r, hr, hra, hrv, hcase⟩
  · refine .inl (hcase.trans (max_le_max (le_refl _) ?_))
    split
    · exact le_max_left _ _
    · exact le_refl _
  · by_cases hrb : r.id = b
    · have ha : a = owner := by
        obtain ⟨q, hq, hqid, hqa⟩ := hd.has
        rw [← hqa, ← hra, hs.keyed.mailbox.eq hq hr (hqid.trans hrb.symm)]
      have hle : r.updatedModseq ≤ m := hs.updated_le hr (hra.trans ha.symm)
      refine .inl (hcase.trans (hle.trans ?_))
      subst ha
      rw [if_pos (by simp [hid, hshared (hrb ▸ hrv) rfl])]
      exact (le_max_right _ _).trans (le_max_right _ _)
    · exact .inr ⟨r, mem_deleteWhere.2 ⟨hr, by simpa using hrb⟩, hra, hrv, hcase⟩

/-- A transaction never moves the state back, where the mailbox it destroys is shared. -/
theorem Db.AtLeast.effect {db' : Db} {es : List Event} (h : db.AtLeast owner visible s)
    (heff : Effect a db db' m es dying) (hi : Intact db)
    (hshared : ∀ b ∈ visible, db.isShared owner b = true) : db'.AtLeast owner visible s := by
  refine heff.ends hi (P := fun d => d.AtLeast owner visible s ∧ (dying = none ∨
    (d.mailboxAcl = db.mailboxAcl ∧ d.sharedMailboxMembers = db.sharedMailboxMembers))) ?_ ?_
    (fun _ _ hd => hd.1) ?_
  · refine ⟨?_, .inr ⟨rfl, rfl⟩⟩
    obtain ⟨x, hx, hid, hcase⟩ := h
    refine ⟨_, mem_updateWhere.2 ⟨x, hx, rfl⟩, ?_, ?_⟩
    · split
      · exact hid
      · exact hid
    · rcases hcase with hcase | hcase
      · left
        split
        · exact hcase
        · exact hcase
      · exact .inr hcase
  · rintro d e hs - - hf ⟨hleast, hsame⟩
    refine ⟨hleast.event hs hf, ?_⟩
    rcases hsame with hnone | ⟨hacl, hmembers⟩
    · exact .inl hnone
    · rcases hf.shares_eq hs with hnone | ⟨hacl', hmembers'⟩
      · exact .inl hnone
      · exact .inr ⟨hacl'.trans hacl, hmembers'.trans hmembers⟩
  · rintro b d rfl hs hd ⟨hleast, hsame⟩
    obtain ⟨hacl, hmembers⟩ := hsame.resolve_left (by simp)
    refine hleast.drop hs hd fun hb _ => ?_
    rw [Db.isShared, hacl, hmembers]
    exact hshared b hb

theorem Db.AtLeast.insertAccount (h : db.AtLeast owner visible s) (new : NewAccount) :
    (db.insertAccount new).AtLeast owner visible s := by
  obtain ⟨x, hx, hcase⟩ := h
  exact ⟨x, List.mem_append_left _ hx, hcase⟩

theorem Db.AtLeast.outcome {ext : Externals} {op : StoreOp} {db' : Db} (h : db.AtLeast owner visible s)
    (hout : Outcome ext op db db') (hi : Intact db)
    (hshared : ∀ b ∈ visible, db.isShared owner b = true) : db'.AtLeast owner visible s := by
  cases hout with
  | same => exact h
  | account => exact h.insertAccount _
  | @provision new now m db' hop hyes heff =>
    exact (h.insertAccount new).effect heff (hi.insertAccount new) hshared
  | effect heff => exact h.effect heff hi hshared

end State

/-! ## 6. Someone who sees some of the mailboxes -/

/-- The mailboxes are visible to `me`. -/
def Sees (me owner : Int) (visible : List Int) (db : Db) : Prop :=
  (∃ x ∈ db.accounts, x.id = owner) ∧ ∀ b ∈ visible, b ∈ (Jmap.sharedView db me owner).visibleIds

instance (me owner : Int) (visible : List Int) (db : Db) : Decidable (Sees me owner visible db) :=
  inferInstanceAs (Decidable (_ ∧ _))

theorem Sees.shows {me owner : Int} {visible : List Int} {db : Db} (h : Sees me owner visible db)
    (hi : Intact db) : db.Shows owner visible := by
  refine ⟨h.1, fun b hb => ?_⟩
  obtain ⟨-, ⟨q, hq, rfl⟩, -⟩ := Jmap.shared_of_visible (h.2 b hb)
  exact (hi.linked.mailboxSeq q hq).2

/-- **Someone who sees some of an owner's mailboxes hears nothing of the rest.**  After any run,
hidden operations change neither the state nor any answer; and whatever is done, the state never
falls back while the mailboxes stay visible. -/
theorem sharee_hears_nothing_else (ext : Externals) (ops : List StoreOp) (me owner : Int)
    (visible : List Int) (hsees : Sees me owner visible (runOps ext ops {})) :
    (∀ hidden hidden',
      Meets ext (fun db op => op.Hidden owner visible db) hidden (runOps ext ops {}) →
      Meets ext (fun db op => op.Hidden owner visible db) hidden' (runOps ext ops {}) →
      sharedState (runOps ext (ops ++ hidden) {}) owner visible =
          sharedState (runOps ext (ops ++ hidden') {}) owner visible ∧
        ∀ kind since maxChanges,
          sharedChanges (runOps ext (ops ++ hidden) {}) owner kind since maxChanges visible =
            sharedChanges (runOps ext (ops ++ hidden') {}) owner kind since maxChanges visible) ∧
      ∀ later s, Meets ext (fun db _ => Sees me owner visible db) later (runOps ext ops {}) →
        sharedState (runOps ext ops {}) owner visible = .ok s →
        ∃ s', sharedState (runOps ext (ops ++ later) {}) owner visible = .ok s' ∧ s ≤ s' := by
  have hi : Intact (runOps ext ops {}) := intact_runOps ops
  constructor
  · intro hidden hidden' hh hh'
    have h := (Unheard.run hh hi (hsees.shows hi)).answers
    have h' := (Unheard.run hh' hi (hsees.shows hi)).answers
    rw [runOps_append, runOps_append]
    refine ⟨h.1.trans h'.1.symm, fun kind since maxChanges => ?_⟩
    rw [h.2, h'.2]
  · intro later s hlater hs
    rw [runOps_append]
    have hleast := meets_induct (P := fun d => d.AtLeast owner visible s)
      (fun hi h hsees hout => h.outcome hout hi fun b hb =>
        (Jmap.shared_of_visible (hsees.2 b hb)).1) later hlater hi (atLeast_of_state hs)
    have hi' : Intact (runOps ext (ops ++ later) {}) := intact_runOps _
    rw [runOps_append] at hi'
    exact hleast.state hi'

/-- Ada may store ten bytes; Bob may read her inbox, and Cyd nothing. -/
def sharedInbox : List StoreOp :=
  [.createAccount ⟨"ada", false, 10, true⟩ 0, .createAccount ⟨"bob", false, 0, true⟩ 0,
    .createAccount ⟨"cyd", false, 0, true⟩ 0, .setMailboxAcl 1 1 2 "lr"]

/-- A message of eight bytes for one of Ada's mailboxes. -/
def eightBytes (mailbox : Int) : StoreOp :=
  .ingest ⟨1, List.replicate 8 0, [.id mailbox], [], none⟩ false 0

theorem sharee_hears_nothing_of_archive :
    Sees 2 1 [1] (runOps plainExternals sharedInbox {}) ∧
      sharedState (runOps plainExternals (sharedInbox ++ [eightBytes 4]) {}) 1 [1] =
        sharedState (runOps plainExternals (sharedInbox ++ []) {}) 1 [1] ∧
      ∃ s, sharedState (runOps plainExternals (sharedInbox ++ [eightBytes 1]) {}) 1 [1] = .ok s ∧ 2 ≤ s := by
  have hsees : Sees 2 1 [1] (runOps plainExternals sharedInbox {}) := by
    decide
  have hhidden : (eightBytes 4).Hidden 1 [1] (runOps plainExternals sharedInbox {}) := by
    decide
  have hstate : sharedState (runOps plainExternals sharedInbox {}) 1 [1] = .ok 2 := by
    decide
  obtain ⟨hsame, hlater⟩ := sharee_hears_nothing_else plainExternals sharedInbox 2 1 [1] hsees
  exact ⟨hsees, (hsame [eightBytes 4] [] ⟨hhidden, trivial⟩ trivial).1,
    hlater [eightBytes 1] 2 ⟨hsees, trivial⟩ hstate⟩

/-- **What the owner does elsewhere is heard** in three ways: a hidden message leaves no room for a
visible one; sharing a hidden mailbox with somebody else moves the state, and older states are
refused; and once the inbox is not visible any more, its end moves the state back. -/
theorem sharee_hears_of_quota_and_sharing :
    (eightBytes 4).Hidden 1 [1] (runOps plainExternals sharedInbox {}) ∧
      (sharedChanges (runOps plainExternals (sharedInbox ++ [eightBytes 1]) {}) 1 .email 2 0
        [1]).toOption.map (·.created) = some [1] ∧
      (sharedChanges (runOps plainExternals (sharedInbox ++ [eightBytes 4, eightBytes 1]) {}) 1 .email 2 0
        [1]).toOption.map (·.created) = some [] ∧
    (∀ b ∈ StoreOp.mailboxes (runOps plainExternals sharedInbox {}) (.setMailboxAcl 1 4 3 "lr"),
        b ∉ ([1] : List Int)) ∧
      sharedState (runOps plainExternals sharedInbox {}) 1 [1] = .ok 2 ∧
      sharedState (runOps plainExternals (sharedInbox ++ [.setMailboxAcl 1 4 3 "lr"]) {}) 1 [1] = .ok 3 ∧
      (sharedChanges (runOps plainExternals (sharedInbox ++ [.setMailboxAcl 1 4 3 "lr"]) {}) 1 .email 2 0
        [1]).toOption = none ∧
    sharedState (runOps plainExternals
        (sharedInbox ++ [.setMailboxAcl 1 1 2 "", eightBytes 1]) {}) 1 [1] = .ok 4 ∧
      sharedState (runOps plainExternals
        (sharedInbox ++ [.setMailboxAcl 1 1 2 "", eightBytes 1, .destroyMailbox 1 1 true]) {}) 1 [1] =
          .ok 3 := by
  decide

end UwuMail.Store
