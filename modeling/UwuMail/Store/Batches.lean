/-
# Email/set, element by element

`update_emails` and `destroy_emails` run a whole list in one transaction with one modseq, answer
each element on its own and commit whatever became of the others.  `update_one` and `destroy_one`
check everything BEFORE they write anything, so an element that is refused leaves nothing behind.

What an update teaches the labels and the spam filter goes to tables of their own.  They are a
parameter here, `Teaching`: nothing that is learned can be refused, and no check looks at it.
-/
import UwuMail.Lib.Batch
import UwuMail.Store.Effect

namespace UwuMail.Store

open Table

/-! ## 1. Batches that teach -/

/-- The tables of the labels and the spam filter, and what is written there. -/
structure Teaching (T : Type) where
  /-- `learn_by_hand`, `rebook_verdict` and `queue_marked`; the flag is the batch's `by_hand`. -/
  learn : Bool → Db → Int → UpdatePlan → T → T
  /-- What labels keep of a mail's content goes with it. -/
  forget : Db → Int → EmailRow → T → T

abbrev TaughtM (T α : Type) := Tx StoreError (TxState × T) α

variable {T : Type}

/-- A step that only the mail tables know of. -/
def onTables {α : Type} (x : TxM α) : TaughtM T α :=
  ExceptT.mk fun s => ((x.exec s.1).1, ((x.exec s.1).2, s.2))

@[simp] theorem exec_onTables {α : Type} (x : TxM α) (s : TxState × T) :
    (onTables x).exec s = ((x.exec s.1).1, ((x.exec s.1).2, s.2)) := rfl

/-- The writes of `update_one` once there is something to write. -/
def writeUpdate (teaching : Teaching T) (byHand : Bool) (account : Int) (plan : UpdatePlan) :
    TaughtM T PUnit := do
  let modseq ← onTables batchModseq
  modify fun s =>
    let db := Db.applyUpdate account modseq plan s.1.db
    ({ s.1 with db }, teaching.learn byHand db account plan s.2)

/-- `update_one`. -/
def updateOneBy (ext : Externals) (teaching : Teaching T) (byHand : Bool) (update : EmailUpdate) :
    TaughtM T PUnit := do
  let s ← get
  let plan ← Tx.ofExcept (planUpdate ext s.1.db s.1.batch.accountId update)
  if plan.isNoop then pure ⟨⟩ else writeUpdate teaching byHand s.1.batch.accountId plan

/-- The writes of `destroy_one`. -/
def writeDestroy (teaching : Teaching T) (account : Int) (row : EmailRow) : TaughtM T PUnit := do
  let modseq ← onTables batchModseq
  modify fun s =>
    ({ s.1 with db := Db.applyDestroy account modseq row s.1.db }, teaching.forget s.1.db account row s.2)

/-- `destroy_one`. -/
def destroyOneBy (teaching : Teaching T) (email : Int) : TaughtM T PUnit := do
  let s ← get
  match s.1.db.emailOf s.1.batch.accountId email with
  | none => throw (.notFound s!"email {email}")
  | some row => writeDestroy teaching s.1.batch.accountId row

/-- `Store::write` over all tables. -/
def writeBy {α : Type} (account : Int) (f : TaughtM T α) (db : Db) (taught : T) :
    Except StoreError α × Db × T :=
  let (r, s) := Tx.atomically f ({ db, batch := { accountId := account } }, taught)
  (r, s.1.db, s.2)

def applyUpdates (ext : Externals) (teaching : Teaching T) (byHand : Bool) (account : Int)
    (updates : List EmailUpdate) (db : Db) (taught : T) :
    Except StoreError (List (Except StoreError PUnit)) × Db × T :=
  writeBy account (updates.mapM fun update => Tx.attempt (updateOneBy ext teaching byHand update)) db taught

/-- `destroy_emails`. -/
def destroyEmailsBy (teaching : Teaching T) (account : Int) (ids : List Int) (db : Db) (taught : T) :
    Except StoreError (List (Except StoreError PUnit)) × Db × T :=
  writeBy account (ids.mapM fun id => Tx.attempt (destroyOneBy teaching id)) db taught

variable {ext : Externals} {teaching : Teaching T} {byHand : Bool} {account : Int} {db : Db}
  {taught : T}

/-! ## 2. Refusals -/

theorem clean_batchModseq : Tx.Clean (onTables batchModseq : TaughtM T Int) := by
  rintro ⟨tx, taught⟩ e h
  rw [exec_onTables] at h ⊢
  have : (batchModseq.exec tx).2 = tx := exec_batchModseq_error (Prod.ext h rfl)
  rw [this]

theorem clean_updateOneBy (update : EmailUpdate) : Tx.Clean (updateOneBy ext teaching byHand update) := by
  refine .get_bind fun s => .ofExcept_bind fun plan _ => ?_
  split
  · exact .pure _
  · exact clean_batchModseq.bind_total fun _ _ => ⟨_, rfl⟩

theorem clean_destroyOneBy (id : Int) : Tx.Clean (destroyOneBy teaching id) := by
  refine .get_bind fun s => ?_
  split
  · exact .throw _
  · exact clean_batchModseq.bind_total fun _ _ => ⟨_, rfl⟩

/-- The tables are those of `update_one` without the teaching. -/
theorem updateOneBy_tables (update : EmailUpdate) (s : TxState × T) :
    (updateOne ext update).exec s.1 =
      (((updateOneBy ext teaching byHand update).exec s).1,
          ((updateOneBy ext teaching byHand update).exec s).2.1) := by
  obtain ⟨tx, taught⟩ := s
  unfold updateOne updateOneBy
  rw [Tx.exec_bind, Tx.exec_bind, Tx.exec_get, Tx.exec_get]
  dsimp only
  rw [Tx.exec_bind, Tx.exec_bind, Tx.exec_ofExcept, Tx.exec_ofExcept]
  cases planUpdate ext tx.db tx.batch.accountId update with
  | error e => rfl
  | ok plan =>
    dsimp only
    cases plan.isNoop with
    | true => rfl
    | false =>
      simp only [writeUpdate, Bool.false_eq_true, if_false]
      rw [Tx.exec_bind, Tx.exec_bind, exec_onTables]
      rcases h : batchModseq.exec tx with ⟨r, tx'⟩
      cases r <;> rfl

theorem destroyOneBy_tables (id : Int) (s : TxState × T) : (destroyOne id).exec s.1 =
    (((destroyOneBy teaching id).exec s).1, ((destroyOneBy teaching id).exec s).2.1) := by
  obtain ⟨tx, taught⟩ := s
  unfold destroyOne destroyOneBy
  rw [Tx.exec_bind, Tx.exec_bind, Tx.exec_get, Tx.exec_get]
  dsimp only
  cases tx.db.emailOf tx.batch.accountId id with
  | none => rfl
  | some row =>
    dsimp only [writeDestroy]
    rw [Tx.exec_bind, Tx.exec_bind, exec_onTables]
    rcases h : batchModseq.exec tx with ⟨r, tx'⟩
    cases r <;> rfl

/-! ## 3. Batches -/

/-- Where the tables are in the end. -/
def endOf (s : TxState × T) : Db × T := (s.1.db, s.2)

theorem writeBy_batch {α : Type} (f : α → TaughtM T PUnit) (l : List α) :
    writeBy account (l.mapM fun a => Tx.attempt (f a)) db taught =
      (.ok (Tx.batch f l ({ db, batch := { accountId := account } }, taught)).1,
        endOf (Tx.batch f l ({ db, batch := { accountId := account } }, taught)).2) := by
  unfold writeBy Tx.atomically
  rw [Tx.exec_mapM_attempt]
  rfl

/-- Where each element leaves the tables as it would without the teaching, the batch does. -/
theorem write_batch {α : Type} {f : α → TxM PUnit} {g : α → TaughtM T PUnit}
    (h : ∀ a s, (f a).exec s.1 = (((g a).exec s).1, ((g a).exec s).2.1)) (l : List α) :
    write account (l.mapM fun a => Tx.attempt (f a)) db =
      ((writeBy account (l.mapM fun a => Tx.attempt (g a)) db taught).1,
        (writeBy account (l.mapM fun a => Tx.attempt (g a)) db taught).2.1) := by
  have := Tx.batch_view (g := g) (fun s : TxState × T => s.1) h l ({ db, batch := { accountId := account } }, taught)
  rw [writeBy_batch]
  unfold write Tx.atomically
  rw [Tx.exec_mapM_attempt, this]
  rfl

/-- With the teaching or without it, the mail tables and the answers are the same. -/
theorem updateEmails_eq (updates : List EmailUpdate) : updateEmails ext account updates db =
    ((applyUpdates ext teaching byHand account updates db taught).1,
      (applyUpdates ext teaching byHand account updates db taught).2.1) :=
  write_batch updateOneBy_tables updates

theorem destroyEmails_eq (ids : List Int) : destroyEmails account ids db =
    ((destroyEmailsBy teaching account ids db taught).1,
        (destroyEmailsBy teaching account ids db taught).2.1) :=
  write_batch destroyOneBy_tables ids

/-- An element asks for what is there, or for what is refused. -/
def Idle (ext : Externals) (db : Db) (account : Int) (update : EmailUpdate) : Prop :=
  ∀ plan, planUpdate ext db account update = .ok plan → plan.isNoop = true

theorem updateOneBy_idle {update : EmailUpdate} {s : TxState × T}
    (h : Idle ext s.1.db s.1.batch.accountId update) :
        ((updateOneBy ext teaching byHand update).exec s).2 = s := by
  unfold updateOneBy
  rw [Tx.exec_bind, Tx.exec_get]
  dsimp only
  rw [Tx.exec_bind, Tx.exec_ofExcept]
  cases hplan : planUpdate ext s.1.db s.1.batch.accountId update with
  | error e => rfl
  | ok plan =>
    dsimp only
    rw [if_pos (h plan hplan)]
    rfl

/-- **Each element of a batch stands for itself.**  Leave out any of those that were refused: the
others get the same answers, and every table ends up the same.  Where none changes anything, nothing
is written. -/
theorem batches (ext : Externals) (teaching : Teaching T) (byHand : Bool) (account : Int) (db : Db)
    (taught : T) :
    (∀ updates, ∃ results db' taught',
      applyUpdates ext teaching byHand account updates db taught = (.ok results, db', taught') ∧
        results.length = updates.length ∧
        ∀ kept, Tx.Spared (updates.zip results) kept →
          applyUpdates ext teaching byHand account (kept.map (·.1)) db taught =
            (.ok (kept.map (·.2)), db', taught')) ∧
      (∀ ids, ∃ results db' taught',
        destroyEmailsBy teaching account ids db taught = (.ok results, db', taught') ∧
          results.length = ids.length ∧
          ∀ kept, Tx.Spared (ids.zip results) kept →
            destroyEmailsBy teaching account (kept.map (·.1)) db taught = (.ok (kept.map (·.2)),
              db', taught')) ∧
      (∀ updates, (∀ update ∈ updates, Idle ext db account update) →
        (applyUpdates ext teaching byHand account updates db taught).2 = (db, taught)) ∧
      ∀ ids, (∀ id ∈ ids, db.emailOf account id = none) →
        (destroyEmailsBy teaching account ids db taught).2 = (db, taught) := by
  refine ⟨fun updates => ?_, fun ids => ?_, fun updates hidle => ?_, fun ids hnone => ?_⟩
  · refine ⟨_, _, _, writeBy_batch _ _, Tx.length_batch _ _, fun kept hkept => ?_⟩
    rw [applyUpdates, writeBy_batch, Tx.batch_spared clean_updateOneBy hkept]
    rfl
  · refine ⟨_, _, _, writeBy_batch _ _, Tx.length_batch _ _, fun kept hkept => ?_⟩
    rw [destroyEmailsBy, writeBy_batch, Tx.batch_spared clean_destroyOneBy hkept]
    rfl
  · rw [applyUpdates, writeBy_batch]
    have := Tx.batch_idle (f := updateOneBy ext teaching byHand) (l := updates)
      (s := ({ db, batch := { accountId := account } }, taught)) fun update hmem =>
        updateOneBy_idle (hidle update hmem)
    dsimp only
    rw [this]
    rfl
  · rw [destroyEmailsBy, writeBy_batch]
    have := Tx.batch_idle (f := destroyOneBy teaching) (l := ids)
      (s := ({ db, batch := { accountId := account } }, taught)) fun id hmem => by
        unfold destroyOneBy
        rw [Tx.exec_bind, Tx.exec_get]
        dsimp only
        rw [hnone id hmem]
        rfl
    dsimp only
    rw [this]
    rfl

end UwuMail.Store
