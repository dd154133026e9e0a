/-
# What a transaction can do

Every operation of the store that changes mail does the same thing: it refuses and changes
nothing, or it takes the account's next modseq and then applies a list of EVENTS, each of them
one of the writes of `Tables`.  This module says so once.  An invariant of the database is then
proved for the eight events, and never again for the dozen operations made of them.

An event carries the data it writes; `Event.Fits` is what the operation has checked by the time
it writes it.  `dying` is the mailbox a `destroy_mailbox` is clearing out: emails may leave it
without a trace, because it goes with the last write of the transaction.
-/
import UwuMail.Store.Acl
import UwuMail.Store.Tables

namespace UwuMail.Store

open Table

/-! ## 1. Events -/

/-- The columns of a mailbox after `update_mailbox`. -/
def MailboxUpdate.apply (u : MailboxUpdate) (r : MailboxRow) : MailboxRow :=
  { r with
    name := u.name.getD r.name
    parentId := u.parentId.getD r.parentId
    role := u.role.getD r.role
    sortOrder := u.sortOrder.getD r.sortOrder
    subscribed := u.subscribed.getD r.subscribed }

inductive Event
  | store (p : Incoming) (ids : List Int)
  | update (plan : UpdatePlan)
  | destroy (row : EmailRow)
  | leave (email mailbox : Int)
  | create (row : MailboxRow)
  | alter (id : Int) (update : MailboxUpdate)
  | share (mailbox : Int) (acl : List AclRow)
  | members (members : List Int) (shared : Bool)

/-- The email an event is about. -/
def Event.email? : Event → Option Int
  | update plan => some plan.email
  | destroy row => some row.id
  | leave email _ => some email
  | _ => none

/-- The emails an event puts into mailboxes; a message that comes in is no email yet. -/
def Event.enters : Event → List (Option Int × Int)
  | store _ ids => ids.map fun b => (none, b)
  | update plan => plan.entered.elems.map fun b => (some plan.email, b)
  | _ => []

/-- What an event writes. -/
def Event.apply (a m : Int) : Event → Db → Db
  | store p ids, db => db.storeEmail p ids m
  | update plan, db => db.applyUpdate a m plan
  | destroy row, db => db.applyDestroy a m row
  | leave email mailbox, db => db.leaveMailbox a m email mailbox
  | create row, db => db.applyCreate a m row
  | alter id u, db => (db.updateMailboxes (fun r => r.id == id) u.apply).mailboxUpdated a m id
  | share mailbox acl, db => db.applyAcl a m mailbox acl
  | members list shared, db => db.applyMembers a m list shared

/-- The account has the mailbox. -/
def Db.Has (db : Db) (a b : Int) : Prop := ∃ r ∈ db.mailboxes, r.id = b ∧ r.accountId = a

/-- What `ingest_marked` has checked. -/
structure Incoming.Fits (a : Int) (db : Db) (p : Incoming) (ids : List Int) : Prop where
  account : p.accountId = a
  some : ids ≠ []
  nodup : ids.Nodup
  has : ∀ id ∈ ids, db.Has a id
  size : 0 ≤ p.size
  quota : ∀ r ∈ db.accounts, r.id = a → 0 < r.quotaBytes → r.usedBytes + p.size ≤ r.quotaBytes

/-- What `update_one` has checked. -/
structure UpdatePlan.Fits (a : Int) (db : Db) (p : UpdatePlan) : Prop where
  email : ∃ r ∈ db.emails, r.id = p.email ∧ r.accountId = a
  oldKeywords : p.oldKeywords = db.keywordsOf p.email
  oldMailboxes : p.oldMailboxes = db.mailboxesOf p.email
  some : ∃ id, id ∈ p.newMailboxes
  has : ∀ id ∈ p.entered, db.Has a id
  valid : ∀ k ∈ p.newKeywords, validKeyword k = true
  few : p.newKeywords.len ≤ maxKeywordsPerEmail ∨ p.newKeywords.len ≤ p.oldKeywords.len

/-- What `destroy_mailbox` has checked of an email that just leaves. -/
structure Db.Leaves (a : Int) (db : Db) (email mailbox : Int) : Prop where
  own : ∃ r ∈ db.emails, r.id = email ∧ r.accountId = a
  inside : ∃ r ∈ db.emailMailboxes, r.emailId = email ∧ r.mailboxId = mailbox
  elsewhere : ∃ r ∈ db.emailMailboxes, r.emailId = email ∧ r.mailboxId ≠ mailbox

/-- No other mailbox stands in the way of this one in the unique indexes. -/
structure MailboxRow.Unique (db : Db) (row : MailboxRow) : Prop where
  role : ∀ r ∈ db.mailboxes, r.id ≠ row.id → r.accountId = row.accountId → row.role.isSome →
    r.role ≠ row.role
  name : ∀ r ∈ db.mailboxes, r.id ≠ row.id → r.accountId = row.accountId →
    r.parentId.getD 0 = row.parentId.getD 0 → r.name ≠ row.name

/-- What `create_mailbox` has checked; `create_default_mailboxes` needs no check. -/
structure MailboxRow.Fits (a m : Int) (db : Db) (row : MailboxRow) : Prop where
  id : row.id = db.mailboxSeq + 1
  account : row.accountId = a
  exists_account : ∃ r ∈ db.accounts, r.id = a
  uidNext : row.uidNext = 1
  updated : row.updatedModseq = m
  unique : row.Unique db
  parent : checkParent db a none row.parentId = .ok ⟨⟩

/-- What `update_mailbox` has checked. -/
structure MailboxUpdate.Fits (a : Int) (db : Db) (id : Int) (u : MailboxUpdate) : Prop where
  has : db.Has a id
  parent : ∀ p, u.parentId = some p → checkParent db a (some id) p = .ok ⟨⟩
  unique : ∀ r ∈ db.mailboxes, r.id = id → (u.apply r).Unique db

/-- What the operation has checked by the time it writes the event. -/
def Event.Fits (a m : Int) (dying : Option Int) (db : Db) : Event → Prop
  | store p ids => dying = none ∧ p.Fits a db ids
  | update plan => dying = none ∧ plan.Fits a db
  | destroy row => row ∈ db.emails ∧ row.accountId = a
  | leave email mailbox => dying = some mailbox ∧ db.Leaves a email mailbox
  | create row => dying = none ∧ row.Fits a m db
  | alter id u => dying = none ∧ u.Fits a db id
  | share mailbox acl => dying = none ∧ db.Has a mailbox ∧
    ∃ grantee rights, acl = setAcl a mailbox grantee rights db.mailboxAcl
  | members list _ => dying = none ∧ list.Nodup

/-- A run of events inside one transaction. -/
inductive Events (a m : Int) (dying : Option Int) (db : Db) : List Event → Db → Prop
  | nil : Events a m dying db [] db
  | snoc {es : List Event} {db' : Db} {e : Event} :
      Events a m dying db es db' → e.Fits a m dying db' →
        Events a m dying db (es ++ [e]) (e.apply a m db')

/-- The mailbox `destroy_mailbox` cleared out may go. -/
structure Db.Droppable (a : Int) (db : Db) (b : Int) : Prop where
  has : db.Has a b
  childless : ∀ r ∈ db.mailboxes, r.parentId ≠ some b
  empty : ∀ r ∈ db.emailMailboxes, r.mailboxId ≠ b

/-- The last write of a transaction. -/
def close (a m : Int) : Option Int → Db → Db
  | none, db => db
  | some b, db => db.dropMailbox a m b

/-- **A transaction that wrote something**: the modseq it took, the events, and the mailbox that
went with it. -/
structure Effect (a : Int) (db db' : Db) (m : Int) (es : List Event) (dying : Option Int) : Prop where
  modseq : db.modseqOf a = some (m - 1)
  run : ∃ db₁, Events a m dying (db.bumpModseq a) es db₁ ∧
    (∀ b, dying = some b → db₁.Droppable a b) ∧ db' = close a m dying db₁

/-! ## 2. An open batch -/

/-- Where a transaction stands: before its first change, or past some events. -/
def Progress (a : Int) (dying : Option Int) (db₀ : Db) (es : List Event) (tx : TxState) : Prop :=
  tx.batch.accountId = a ∧
    ((tx.batch.modseq = none ∧ es = [] ∧ tx.db = db₀) ∨
      ∃ m, tx.batch.modseq = some m ∧ db₀.modseqOf a = some (m - 1) ∧
        Events a m dying (db₀.bumpModseq a) es tx.db)

variable {tx tx' : TxState}

theorem exec_nextModseq_ok {a m : Int}
    (h : (nextModseq a).exec tx = (.ok m, tx')) :
    tx.db.modseqOf a = some (m - 1) ∧ tx' = { tx with db := tx.db.bumpModseq a } := by
  rw [nextModseq, Tx.exec_bind, Tx.exec_get] at h
  cases hm : tx.db.modseqOf a with
  | none =>
    simp only [hm] at h
    cases h
  | some n =>
    simp only [hm] at h
    cases h
    exact ⟨by simp, rfl⟩

theorem exec_batchModseq_ok {m : Int}
    (h : batchModseq.exec tx = (.ok m, tx')) :
    (tx.batch.modseq = some m ∧ tx' = tx) ∨
      (tx.batch.modseq = none ∧ tx.db.modseqOf tx.batch.accountId = some (m - 1) ∧
        tx' = { db := tx.db.bumpModseq tx.batch.accountId,
                batch := { tx.batch with modseq := some m } }) := by
  rw [batchModseq, Tx.exec_bind, Tx.exec_get] at h
  cases hb : tx.batch.modseq with
  | some n =>
    simp only [hb] at h
    cases h
    exact .inl ⟨rfl, rfl⟩
  | none =>
    simp only [hb] at h
    obtain ⟨n, tx₁, hn, h⟩ := Tx.exec_bind_ok h
    obtain ⟨hm, rfl⟩ := exec_nextModseq_ok hn
    obtain ⟨u, tx₂, hu, h⟩ := Tx.exec_bind_ok h
    cases hu
    cases h
    exact .inr ⟨rfl, hm, rfl⟩

/-- Taking the modseq of a batch writes nothing on an error. -/
theorem exec_batchModseq_error {e : StoreError}
    (h : batchModseq.exec tx = (.error e, tx')) : tx' = tx := by
  rw [batchModseq, Tx.exec_bind, Tx.exec_get] at h
  cases hb : tx.batch.modseq with
  | some n =>
    simp only [hb] at h
    cases h
  | none =>
    simp only [hb] at h
    rw [Tx.exec_bind, nextModseq, Tx.exec_bind, Tx.exec_get] at h
    cases hm : tx.db.modseqOf tx.batch.accountId with
    | none =>
      simp only [hm] at h
      cases h
      rfl
    | some n =>
      simp only [hm] at h
      cases h

/-- A batch with its modseq taken. -/
theorem Progress.batchModseq {a m : Int} {dying : Option Int} {db₀ : Db} {es : List Event}
    (hp : Progress a dying db₀ es tx) (h : batchModseq.exec tx = (.ok m, tx')) :
    tx'.batch.accountId = a ∧ tx'.batch.modseq = some m ∧ db₀.modseqOf a = some (m - 1) ∧
      Events a m dying (db₀.bumpModseq a) es tx'.db ∧
      (tx'.db = tx.db ∨ tx'.db = tx.db.bumpModseq a) := by
  obtain ⟨rfl, hp⟩ := hp
  rcases exec_batchModseq_ok h with ⟨hm, rfl⟩ | ⟨hm, hmod, rfl⟩
  · rcases hp with ⟨hn, -, -⟩ | ⟨n, hn, hmod, hes⟩
    · rw [hm] at hn
      cases hn
    · rw [hm] at hn
      cases hn
      exact ⟨rfl, hm, hmod, hes, .inl rfl⟩
  · rcases hp with ⟨-, rfl, rfl⟩ | ⟨n, hn, -, -⟩
    · exact ⟨rfl, rfl, hmod, Events.nil, .inr rfl⟩
    · rw [hm] at hn
      cases hn

/-- One more event: the modseq, if it was not taken yet, and the write. -/
theorem Progress.write {a : Int} {dying : Option Int} {db₀ : Db} {es : List Event} {e : Event}
    {tx tx₁ : TxState} {m : Int} (hp : Progress a dying db₀ es tx)
    (h : Store.batchModseq.exec tx = (.ok m, tx₁)) (hfit : e.Fits a m dying tx₁.db) :
    Progress a dying db₀ (es ++ [e]) { tx₁ with db := e.apply a m tx₁.db } := by
  obtain ⟨ha, hm, hmod, hes, -⟩ := hp.batchModseq h
  exact ⟨ha, .inr ⟨m, hm, hmod, Events.snoc hes hfit⟩⟩

/-! ## 3. The steps of the operations -/

theorem mailboxBelongs_iff {db : Db} {a b : Int} : mailboxBelongs db a b = true ↔ db.Has a b := by
  simp [mailboxBelongs, Db.Has]

/-- A plan that was made fits. -/
theorem planUpdate_ok {ext : Externals} {db : Db} {a : Int} {u : EmailUpdate} {p : UpdatePlan}
    (h : planUpdate ext db a u = .ok p) :
    p.Fits a db ∧ p.email = u.id ∧ p.newKeywords = u.keywords.apply ext p.oldKeywords ∧
      p.newMailboxes = u.mailboxes.apply p.oldMailboxes := by
  unfold planUpdate at h
  dsimp only at h
  split at h
  case isFalse => cases h
  case isTrue hex =>
    split at h
    · cases h
    · rename_i hbad
      split at h
      · cases h
      · rename_i hfew
        split at h
        · cases h
        · rename_i hempty
          split at h
          · cases h
          · rename_i hno
            cases h
            refine ⟨⟨?_, rfl, rfl, ?_, ?_, ?_, ?_⟩, rfl, rfl, rfl⟩
            · simpa using hex
            · exact SortedSet.exists_mem_of_isEmpty (by simpa using hempty)
            · intro id hid
              have := List.find?_eq_none.1 (Option.eq_none_iff_forall_ne_some.2 fun x => hno x) id hid
              exact mailboxBelongs_iff.1 (by simpa using this)
            · intro k hk
              have := List.find?_eq_none.1 (Option.eq_none_iff_forall_ne_some.2 fun x => hbad x) k hk
              simpa using this
            · by_contra hlen
              push Not at hlen
              exact hfew hlen

/-- `update_one` inside a batch: nothing, or one event for that email. -/
theorem Progress.updateOne {a : Int} {db₀ : Db} {es : List Event}
    {ext : Externals} {u : EmailUpdate} {r : Except StoreError PUnit}
    (hp : Progress a none db₀ es tx) (h : (updateOne ext u).exec tx = (r, tx')) :
    tx' = tx ∨ ∃ plan : UpdatePlan, plan.email = u.id ∧
      plan.newMailboxes = u.mailboxes.apply plan.oldMailboxes ∧
      Progress a none db₀ (es ++ [.update plan]) tx' := by
  obtain rfl := hp.1
  rw [Store.updateOne, Tx.exec_bind, Tx.exec_get] at h
  simp only [Tx.exec_bind, Tx.exec_ofExcept] at h
  cases hplan : planUpdate ext tx.db tx.batch.accountId u with
  | error e =>
    simp only [hplan] at h
    cases h
    exact .inl rfl
  | ok plan =>
    simp only [hplan] at h
    obtain ⟨hfit, hid, -, hnew⟩ := planUpdate_ok hplan
    split at h
    · cases h
      exact .inl rfl
    · rw [Tx.exec_bind] at h
      rcases hb : Store.batchModseq.exec tx with ⟨r₁, tx₁⟩
      rw [hb] at h
      cases r₁ with
      | error e =>
        cases h
        exact .inl (exec_batchModseq_error hb)
      | ok m =>
        cases h
        refine .inr ⟨plan, hid, hnew, hp.write hb ⟨rfl, ?_⟩⟩
        rcases (hp.batchModseq hb).2.2.2.2 with hdb | hdb <;> rw [hdb]
        · exact hfit
        · exact ⟨hfit.email, hfit.oldKeywords, hfit.oldMailboxes, hfit.some, hfit.has, hfit.valid,
            hfit.few⟩

/-- `destroy_one` inside a batch: nothing, or one event for that email. -/
theorem Progress.destroyOne {a : Int} {dying : Option Int} {db₀ : Db} {es : List Event}
    {email : Int} {r : Except StoreError PUnit}
    (hp : Progress a dying db₀ es tx) (h : (destroyOne email).exec tx = (r, tx')) :
    (tx' = tx ∧ ∃ e, r = .error e) ∨
      ∃ row : EmailRow, row.id = email ∧ row ∈ tx.db.emails ∧
        Progress a dying db₀ (es ++ [.destroy row]) tx' := by
  obtain rfl := hp.1
  rw [Store.destroyOne, Tx.exec_bind, Tx.exec_get] at h
  simp only at h
  cases hrow : tx.db.emailOf tx.batch.accountId email with
  | none =>
    simp only [hrow] at h
    cases h
    exact .inl ⟨rfl, _, rfl⟩
  | some row =>
    simp only [hrow] at h
    have hmem := List.mem_of_find?_eq_some hrow
    have hrow' : row.id = email ∧ row.accountId = tx.batch.accountId := by
      simpa using List.find?_some hrow
    rw [Tx.exec_bind] at h
    rcases hb : Store.batchModseq.exec tx with ⟨r₁, tx₁⟩
    rw [hb] at h
    cases r₁ with
    | error e =>
      cases h
      exact .inl ⟨exec_batchModseq_error hb, _, rfl⟩
    | ok m =>
      cases h
      refine .inr ⟨row, hrow'.1, hmem, hp.write hb ⟨?_, hrow'.2⟩⟩
      rcases (hp.batchModseq hb).2.2.2.2 with hdb | hdb <;> rw [hdb] <;> exact hmem

end UwuMail.Store
