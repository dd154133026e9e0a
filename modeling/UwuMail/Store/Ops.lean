/-
# What each operation does

Each operation of the store refuses and changes nothing, or has an `Effect`.  There is one lemma
for each of them, which also says WHICH events it can be made of: an update only updates the
emails it names, taking out destroys only what is nowhere else, and so on.  No later module looks
at the code of an operation again.
-/
import UwuMail.Store.Clock

namespace UwuMail.Store

open Table
open Tx (exec_bind_ok)

/-! ## 1. Transactions keep the invariants -/

/-- The invariants between two transactions. -/
structure Intact (db : Db) : Prop where
  keyed : Keyed db
  linked : Linked db
  named : Named db
  clocked : Clocked none db

variable {db : Db}

theorem Clocked.weaken (h : Clocked none db) (dying : Option Int) : Clocked dying db :=
  { h with vanished := fun v hv b hb hid _ => h.vanished v hv b hb hid (by simp) }

/-- What `modseqOf` finds is what every row of the account says. -/
theorem Keyed.modseq_eq (h : Keyed db) {a n : Int} (hm : db.modseqOf a = some n) :
    (∃ x ∈ db.accounts, x.id = a) ∧ ∀ x ∈ db.accounts, x.id = a → x.modseq = n := by
  obtain ⟨x, hx, rfl⟩ := Option.map_eq_some_iff.1 hm
  have hmem := List.mem_of_find?_eq_some hx
  have hid : x.id = a := by simpa using List.find?_some hx
  refine ⟨⟨x, hmem, hid⟩, ?_⟩
  intro y hy hya
  rw [h.account.eq hy hmem (hya.trans hid.symm)]

theorem Clocked.bump {a : Int} (h : Clocked none db) : Clocked none (db.bumpModseq a) := by
  -- The counter only grows.
  have hle : ∀ x' ∈ (db.bumpModseq a).accounts, ∃ x ∈ db.accounts, x'.id = x.id ∧ x.modseq ≤ x'.modseq := by
    intro x' hx'
    obtain ⟨x, hx, rfl⟩ := mem_updateWhere.1 hx'
    refine ⟨x, hx, ?_⟩
    split
    · exact ⟨rfl, by simp⟩
    · exact ⟨rfl, le_refl _⟩
  refine { h with change := ?_, updated := ?_, positive := ⟨?_, h.positive.2⟩ }
  · intro c hc x' hx' hid
    obtain ⟨x, hx, hxid, hxm⟩ := hle x' hx'
    exact le_trans (h.change c hc x hx (hxid ▸ hid)) hxm
  · intro b hb x' hx' hid
    obtain ⟨x, hx, hxid, hxm⟩ := hle x' hx'
    exact le_trans (h.updated b hb x hx (hxid ▸ hid)) hxm
  · intro x' hx'
    obtain ⟨x, hx, -, hxm⟩ := hle x' hx'
    exact le_trans (h.positive.1 x hx) hxm

/-- The first statement of a transaction. -/
theorem Intact.start {a m : Int} (h : Intact db) (hm : db.modseqOf a = some (m - 1))
    (dying : Option Int) : Sound a m dying (db.bumpModseq a) ∧ 0 < m := by
  obtain ⟨⟨x, hx, hxa⟩, hall⟩ := h.keyed.modseq_eq hm
  refine ⟨⟨h.keyed.bump, h.linked.bump, h.named.of_eq rfl, h.clocked.bump.weaken dying, ?_⟩, ?_⟩
  · intro y hy hya
    obtain ⟨y₀, hy₀, rfl⟩ := mem_updateWhere.1 hy
    by_cases hid : y₀.id = a
    · have := hall y₀ hy₀ hid
      simp [hid, this]
    · simp [hid] at hya
  · have := hall x hx hxa
    have := h.clocked.positive.1 x hx
    omega

variable {es : List Event}

theorem Events.sound {a m : Int} {dying : Option Int} {db db' : Db}
    (h : Events a m dying db es db') (hs : Sound a m dying db) (hm : 0 < m) : Sound a m dying db' := by
  induction h with
  | nil => exact hs
  | snoc _ hfit ih => exact hfit.sound ih (le_of_lt hm)

/-- Once the dying mailbox is gone nothing is excused any more. -/
theorem Clocked.drop {a m b : Int} (hs : Sound a m (some b) db) :
    Clocked none (db.dropMailbox a m b) := by
  have hc := hs.clocked
  rw [Db.dropMailbox_eq]
  refine ⟨?_, ?_, ?_, ?_, ?_, ?_⟩
  · intro c hc' x' hx' hid
    obtain ⟨x, hx, hxid, hxm⟩ := exists_account_of_mem_updateWhere hx' fun _ => ⟨rfl, rfl⟩
    rw [hxm]
    rcases mem_insertOrIgnore.1 hc' with hc' | ⟨rfl, -⟩
    · exact hc.change c hc' x hx (hxid ▸ hid)
    · exact le_of_eq (hs.at_m x hx (hxid ▸ hid)).symm
  · intro q hq x' hx' hid
    obtain ⟨x, hx, hxid, hxm⟩ := exists_account_of_mem_updateWhere hx' fun _ => ⟨rfl, rfl⟩
    rw [hxm]
    exact hc.updated q (mem_deleteWhere.1 hq).1 x hx (hxid ▸ hid)
  · exact fun r hr q hq => hc.member r (mem_deleteWhere.1 hr).1 q (mem_deleteWhere.1 hq).1
  · intro v hv q hq hid _
    obtain ⟨hq, hne⟩ := mem_deleteWhere.1 hq
    refine hc.vanished v (mem_deleteWhere.1 hv).1 q hq hid ?_
    intro hb
    simp [Option.some.inj hb] at hne
  · intro x' hx'
    obtain ⟨x, hx, -, hxm⟩ := exists_account_of_mem_updateWhere hx' fun _ => ⟨rfl, rfl⟩
    rw [hxm]
    exact hc.positive.1 x hx
  · exact fun q hq => hc.positive.2 q (mem_deleteWhere.1 hq).1

theorem Effect.intact {a m : Int} {dying : Option Int} {db db' : Db}
    (h : Effect a db db' m es dying) (hi : Intact db) : Intact db' := by
  obtain ⟨hs, hm⟩ := hi.start h.modseq dying
  obtain ⟨db₁, hes, hdrop, rfl⟩ := h.run
  have hs₁ := hes.sound hs hm
  cases dying with
  | none => exact ⟨hs₁.keyed, hs₁.linked, hs₁.named, hs₁.clocked⟩
  | some b =>
    have hd := hdrop b rfl
    exact ⟨hs₁.keyed.drop, hs₁.linked.drop hd, hs₁.named.drop, Clocked.drop hs₁⟩

/-! ## 2. Every operation has an effect -/

/-- A transaction of one event. -/
theorem Effect.single {a m : Int} {e : Event} (hmod : db.modseqOf a = some (m - 1))
    (hfit : e.Fits a m none (db.bumpModseq a)) :
    Effect a db (e.apply a m (db.bumpModseq a)) m [e] none :=
  ⟨hmod, _, Events.snoc Events.nil hfit, by simp, rfl⟩

/-- And only that event. -/
theorem Effect.single_inv {a m : Int} {db db' : Db} {e : Event} (h : Effect a db db' m [e] none) :
    db' = e.apply a m (db.bumpModseq a) ∧ e.Fits a m none (db.bumpModseq a) := by
  obtain ⟨db₁, hes, -, rfl⟩ := h.run
  generalize hL : [e] = es at hes
  cases hes with
  | nil => simp at hL
  | snoc hes hfit =>
    cases hes with
    | nil =>
      cases hL
      exact ⟨rfl, hfit⟩
    | snoc =>
      have hlen := congrArg List.length hL
      simp at hlen

theorem write_cases {α : Type} (a : Int) (f : TxM α) (db : Db) :
    (∃ e, write a f db = (.error e, db)) ∨
      ∃ v tx, f.exec { db, batch := { accountId := a } } = (.ok v, tx) ∧ write a f db = (.ok v, tx.db) := by
  unfold write
  rcases Tx.atomically_cases f { db, batch := { accountId := a } } with ⟨e, -, h⟩ | ⟨v, hv, h⟩
  · exact .inl ⟨e, by rw [h]⟩
  · refine .inr ⟨v, (f.exec { db, batch := { accountId := a } }).2, ?_, by rw [h]⟩
    rw [← hv]

/-- A check that passed, and what follows it. -/
theorem exec_ofExcept_ok {α β : Type} {x : Except StoreError α} {f : α → TxM β} {tx tx' : TxState}
    {b : β} (h : (Tx.ofExcept x >>= f).exec tx = (.ok b, tx')) :
    ∃ v, x = .ok v ∧ (f v).exec tx = (.ok b, tx') := by
  obtain ⟨v, s, hv, h⟩ := exec_bind_ok h
  obtain ⟨rfl, rfl⟩ := Prod.mk.inj hv
  exact ⟨v, rfl, h⟩

theorem Progress.start (a : Int) (dying : Option Int) (db : Db) :
    Progress a dying db [] { db, batch := { accountId := a } } :=
  ⟨rfl, .inl ⟨rfl, rfl, rfl⟩⟩

/-- A transaction that clears no mailbox out ends where it stands. -/
theorem Progress.finish {a : Int} {tx : TxState}
    (h : Progress a none db es tx) :
    (es = [] ∧ tx.db = db) ∨ ∃ m, Effect a db tx.db m es none := by
  rcases h.2 with ⟨-, hes, hdb⟩ | ⟨m, -, hmod, hes⟩
  · exact .inl ⟨hes, hdb⟩
  · exact .inr ⟨m, hmod, tx.db, hes, by simp, rfl⟩

/-- The events of an operation that only updates emails. -/
def UpdatesOf (ids : List Int) (es : List Event) : Prop :=
  ∀ e ∈ es, ∃ plan : UpdatePlan, e = .update plan ∧ plan.email ∈ ids

/-- The mailboxes a change of the mailboxes of an email may put it into. -/
def MailboxesChange.named : MailboxesChange → List Int
  | keep => []
  | replace list => list
  | patch entries => (entries.filter (·.2)).map (·.1)

/-- The emails an update may put into mailboxes. -/
def EmailUpdate.enters (u : EmailUpdate) : List (Option Int × Int) :=
  u.mailboxes.named.map fun b => (some u.id, b)

/-- The events put nothing else into mailboxes. -/
def EntersOnly (named : List (Option Int × Int)) (es : List Event) : Prop :=
  ∀ e ∈ es, ∀ x ∈ e.enters, x ∈ named

/-- What an operation did: nothing, or an effect whose events satisfy `P`. -/
def Did (a : Int) (db db' : Db) (dying : Option Int) (P : List Event → Prop) : Prop :=
  db' = db ∨ ∃ m es, Effect a db db' m es dying ∧ P es

theorem Did.of_progress {a : Int} {tx : TxState} {P : List Event → Prop}
    (h : ∃ es, Progress a none db es tx ∧ P es) : Did a db tx.db none P := by
  obtain ⟨es, hp, hP⟩ := h
  rcases hp.finish with ⟨-, hdb⟩ | ⟨m, heff⟩
  · exact .inl hdb
  · exact .inr ⟨m, es, heff, hP⟩

theorem Did.of_write {α : Type} {a : Int} {f : TxM α} {P : List Event → Prop}
    (h : ∀ v tx, f.exec { db, batch := { accountId := a } } = (.ok v, tx) → Did a db tx.db none P) :
    Did a db (write a f db).2 none P := by
  rcases write_cases a f db with ⟨e, he⟩ | ⟨v, tx, hx, hw⟩
  · exact .inl (by rw [he])
  · rw [hw]
    exact h v tx hx

theorem UpdatesOf.snoc {ids : List Int} {plan : UpdatePlan} {id : Int}
    (h : UpdatesOf ids es) (hp : plan.email = id) : UpdatesOf (ids ++ [id]) (es ++ [.update plan]) := by
  intro e he
  rcases List.mem_append.1 he with he | he
  · obtain ⟨p, hp', hid⟩ := h e he
    exact ⟨p, hp', List.mem_append_left _ hid⟩
  · exact ⟨plan, List.mem_singleton.1 he, by simp [hp]⟩

theorem UpdatesOf.weaken {ids ids' : List Int} (h : UpdatesOf ids es)
    (hsub : ∀ id ∈ ids, id ∈ ids') : UpdatesOf ids' es := fun e he =>
  (h e he).imp fun _ hp => ⟨hp.1, hsub _ hp.2⟩

theorem mem_foldl_patchSet {b : Int} (entries : List (Int × Bool)) (old : SortedSet Int)
    (h : b ∈ entries.foldl patchSet old) : b ∈ old ∨ (b, true) ∈ entries := by
  induction entries generalizing old with
  | nil => exact .inl h
  | cons entry entries ih =>
    rcases ih _ h with h | h
    · obtain ⟨id, put⟩ := entry
      cases put with
      | false => exact .inl (SortedSet.mem_remove.1 h).1
      | true =>
        rcases SortedSet.mem_insert.1 h with rfl | h
        · exact .inr List.mem_cons_self
        · exact .inl h
    · exact .inr (List.mem_cons_of_mem _ h)

theorem MailboxesChange.entered_named {change : MailboxesChange} {plan : UpdatePlan} {b : Int}
    (h : plan.newMailboxes = change.apply plan.oldMailboxes) (hb : b ∈ plan.entered.elems) :
    b ∈ change.named := by
  rw [SortedSet.mem_elems, UpdatePlan.entered, SortedSet.mem_difference, h] at hb
  cases change with
  | keep => exact absurd hb.1 hb.2
  | replace list => exact SortedSet.mem_ofList.1 hb.1
  | patch entries =>
    rcases mem_foldl_patchSet entries _ hb.1 with hold | hmem
    · exact absurd hold hb.2
    · exact List.mem_map.2 ⟨(b, true), List.mem_filter.2 ⟨hmem, rfl⟩, rfl⟩

theorem EmailUpdate.enters_of_plan {u : EmailUpdate} {plan : UpdatePlan} (hid : plan.email = u.id)
    (h : plan.newMailboxes = u.mailboxes.apply plan.oldMailboxes) :
    ∀ x ∈ (Event.update plan).enters, x ∈ u.enters := by
  intro x hx
  obtain ⟨b, hb, rfl⟩ := List.mem_map.1 hx
  exact List.mem_map.2 ⟨b, MailboxesChange.entered_named h hb, by rw [hid]⟩

theorem EntersOnly.weaken {named named' : List (Option Int × Int)}
    (h : EntersOnly named es) (hsub : ∀ x ∈ named, x ∈ named') : EntersOnly named' es :=
  fun e he x hx => hsub x (h e he x hx)

theorem EntersOnly.snoc {named : List (Option Int × Int)} {e : Event}
    (h : EntersOnly named es) (he : ∀ x ∈ e.enters, x ∈ named) : EntersOnly named (es ++ [e]) := by
  intro e' he'
  rcases List.mem_append.1 he' with he' | he'
  · exact h e' he'
  · rw [List.mem_singleton.1 he']
    exact he

theorem EntersOnly.none (h : ∀ e ∈ es, e.enters = [])
    (named : List (Option Int × Int)) : EntersOnly named es := by
  intro e he b hb
  rw [h e he] at hb
  cases hb

section Ops

variable {ext : Externals} {a : Int} {db : Db}

/-- One `update_one` of a loop did nothing, or its event is the next. -/
theorem Progress.updates_snoc {ids : List Int} {named named' : List (Option Int × Int)}
    {u : EmailUpdate} {r : Except StoreError PUnit} {s s' : TxState}
    (hp : Progress a none db es s) (hes : UpdatesOf ids es) (hent : EntersOnly named es)
    (hu : (Store.updateOne ext u).exec s = (r, s')) (hnamed : ∀ x ∈ u.enters, x ∈ named') :
    ∃ es, Progress a none db es s' ∧ UpdatesOf (ids ++ [u.id]) es ∧ EntersOnly (named ++ named') es := by
  have hold : EntersOnly (named ++ named') es := hent.weaken fun x hx => List.mem_append_left _ hx
  rcases hp.updateOne hu with heq | ⟨plan, hid, hnew, hp'⟩
  · exact ⟨es, by rw [heq]; exact hp, hes.weaken fun id hid => List.mem_append_left _ hid, hold⟩
  · refine ⟨_, hp', hes.snoc hid, hold.snoc fun x hx => ?_⟩
    exact List.mem_append_right _ (hnamed x (EmailUpdate.enters_of_plan hid hnew x hx))

theorem updateEmails_did (updates : List EmailUpdate) :
    Did a db (updateEmails ext a updates db).2 none fun es =>
      UpdatesOf (updates.map (·.id)) es ∧ EntersOnly (updates.flatMap EmailUpdate.enters) es := by
  unfold updateEmails
  refine Did.of_write fun v tx hx => ?_
  refine Did.of_progress (Tx.exec_mapM_ok
    (P := fun done tx => ∃ es, Progress a none db es tx ∧
      UpdatesOf (done.map (·.id)) es ∧ EntersOnly (done.flatMap EmailUpdate.enters) es)
    ?_ updates [] ⟨[], Progress.start a none db, by simp [UpdatesOf], by simp [EntersOnly]⟩ hx)
  rintro done u s b s' ⟨es, hp, hes, hent⟩ hstep
  rw [Tx.exec_attempt] at hstep
  rcases hexec : (updateOne ext u).exec s with ⟨r, s₁⟩
  rw [hexec] at hstep
  cases hstep
  rw [List.map_append, List.flatMap_append]
  exact hp.updates_snoc hes hent hexec fun x hx => by simpa using hx

/-- The events of `destroy_emails`. -/
def DestroysOf (ids : List Int) (es : List Event) : Prop :=
  ∀ e ∈ es, ∃ row : EmailRow, e = .destroy row ∧ row.id ∈ ids

theorem destroyEmails_did (ids : List Int) :
    Did a db (destroyEmails a ids db).2 none (DestroysOf ids) := by
  unfold destroyEmails
  refine Did.of_write fun v tx hx => ?_
  refine Did.of_progress (Tx.exec_mapM_ok
    (P := fun done tx => ∃ es, Progress a none db es tx ∧ DestroysOf done es)
    ?_ ids [] ⟨[], Progress.start a none db, by simp [DestroysOf]⟩ hx)
  rintro done id s b s' ⟨es, hp, hes⟩ hstep
  rw [Tx.exec_attempt] at hstep
  rcases hexec : (destroyOne id).exec s with ⟨r, s₁⟩
  rw [hexec] at hstep
  cases hstep
  have hold : DestroysOf (done ++ [id]) es := fun e he =>
    (hes e he).imp fun _ h => ⟨h.1, List.mem_append_left _ h.2⟩
  rcases hp.destroyOne hexec with ⟨heq, -⟩ | ⟨row, hid, -, hp'⟩
  · exact ⟨es, by rw [heq]; exact hp, hold⟩
  · refine ⟨_, hp', ?_⟩
    intro e he
    rcases List.mem_append.1 he with he | he
    · exact hold e he
    · exact ⟨row, List.mem_singleton.1 he, by simp [hid]⟩

theorem imapStoreFlags_did (mailbox : Int) (uids : List U32) (change : FlagChange)
    (unchangedSince : Option Nat) :
    Did a db (imapStoreFlags ext a mailbox uids change unchangedSince db).2 none fun es =>
      UpdatesOf ((emailsByUid db mailbox uids).map (·.2.1)) es ∧ EntersOnly [] es := by
  unfold imapStoreFlags
  refine Did.of_write fun v tx hx => ?_
  obtain ⟨tx₀, s₀, hget, hx⟩ := exec_bind_ok hx
  cases hget
  obtain ⟨own, hown, hx⟩ := exec_ofExcept_ok hx
  obtain ⟨skipped, s₂, hloop, hx⟩ := exec_bind_ok hx
  cases hx
  refine Did.of_progress (Tx.exec_mapM_ok
    (P := fun done tx => ∃ es, Progress a none db es tx ∧ UpdatesOf (done.map (·.2.1)) es ∧
      EntersOnly [] es)
    ?_ _ [] ⟨[], Progress.start a none db, by simp [UpdatesOf], by simp [EntersOnly]⟩ hloop)
  rintro done entry s b s' ⟨es, hp, hes, hent⟩ hstep
  rw [List.map_append, List.map_singleton]
  have hold : UpdatesOf (done.map (·.2.1) ++ [entry.2.1]) es :=
    hes.weaken fun id hid => List.mem_append_left _ hid
  unfold storeFlags at hstep
  split at hstep
  · cases hstep
    exact ⟨es, hp, hold, hent⟩
  · obtain ⟨u, s₁, hu, hstep⟩ := exec_bind_ok hstep
    cases hstep
    exact hp.updates_snoc hes hent hu fun x hx => by cases hx

theorem imapCopy_did (source : Int) (uids : List U32) (target : Int) (removeSource : Bool) :
    Did a db (imapCopy ext a source uids target removeSource db).2 none fun es =>
      UpdatesOf ((emailsByUid db source uids).map (·.2.1)) es ∧
        EntersOnly ((emailsByUid db source uids).map fun entry => (some entry.2.1, target)) es := by
  unfold imapCopy
  refine Did.of_write fun v tx hx => ?_
  obtain ⟨tx₀, s₀, hget, hx⟩ := exec_bind_ok hx
  cases hget
  obtain ⟨own, hown, hx⟩ := exec_ofExcept_ok hx
  obtain ⟨tx₁, s₂, hget, hx⟩ := exec_bind_ok hx
  cases hget
  obtain ⟨own', hown', hx⟩ := exec_ofExcept_ok hx
  obtain ⟨tx₂, s₄, hget, hx⟩ := exec_bind_ok hx
  cases hget
  refine Did.of_progress (Tx.exec_mapM_ok
    (P := fun done tx => ∃ es, Progress a none db es tx ∧ UpdatesOf (done.map (·.2.1)) es ∧
      EntersOnly (done.map fun entry => (some entry.2.1, target)) es)
    ?_ _ [] ⟨[], Progress.start a none db, by simp [UpdatesOf], by simp [EntersOnly]⟩ hx)
  rintro done entry s b s' ⟨es, hp, hes, hent⟩ hstep
  rw [List.map_append, List.map_singleton, List.map_append, List.map_singleton]
  have hent' : EntersOnly ((done.map fun entry => (some entry.2.1, target)) ++
      [(some entry.2.1, target)]) es := hent.weaken fun x hx => List.mem_append_left _ hx
  have hold : UpdatesOf (done.map (·.2.1) ++ [entry.2.1]) es :=
    hes.weaken fun id hid => List.mem_append_left _ hid
  unfold copyOne at hstep
  split at hstep
  · cases hstep
    exact ⟨es, hp, hold, hent'⟩
  · obtain ⟨tx₃, s₅, hget, hstep⟩ := exec_bind_ok hstep
    cases hget
    dsimp only at hstep
    have hpatch : ∀ b, (b, true) ∈ (if (uidIn s.db target entry.2.1).isNone = true then
        [(target, true)] else []) ++ (if removeSource = true then [(source, false)] else []) →
        b = target := by
      intro b hb
      rcases List.mem_append.1 hb with hb | hb
      · split at hb <;> simp_all
      · split at hb <;> simp_all
    generalize (if (uidIn s.db target entry.2.1).isNone = true then [(target, true)] else []) ++
      (if removeSource = true then [(source, false)] else []) = patch at hstep hpatch
    -- Whatever `update_one` does, the rest only reads.
    split at hstep
    · obtain ⟨tx₄, s₆, hget, hstep⟩ := exec_bind_ok hstep
      cases hget
      split at hstep <;> cases hstep
      exact ⟨es, hp, hold, hent'⟩
    · obtain ⟨u, s₁, hu, hstep⟩ := exec_bind_ok hstep
      obtain ⟨tx₄, s₆, hget, hstep⟩ := exec_bind_ok hstep
      cases hget
      split at hstep <;> cases hstep
      refine hp.updates_snoc hes hent hu fun x hx => ?_
      obtain ⟨b, hb, rfl⟩ := List.mem_map.1 hx
      obtain ⟨y, hy, rfl⟩ := List.mem_map.1 hb
      obtain ⟨hy, hput⟩ := List.mem_filter.1 hy
      rw [hpatch y.1 (hput ▸ hy)]
      exact List.mem_singleton_self _

/-- The events of taking messages out: each email at most once, destroyed if it was nowhere
else. -/
structure TakesOut (entries : List (U32 × Int × Nat)) (es : List Event) : Prop where
  once : (es.filterMap Event.email?).Sublist (entries.map (·.2.1))
  kinds : ∀ e ∈ es, (∃ plan, e = .update plan) ∨
    ∃ row, e = .destroy row ∧ ∃ entry ∈ entries, entry.2.1 = row.id ∧ entry.2.2 ≤ 1

theorem TakesOut.skip {entries : List (U32 × Int × Nat)} (h : TakesOut entries es)
    (entry : U32 × Int × Nat) : TakesOut (entries ++ [entry]) es where
  once := h.once.trans (by rw [List.map_append]; exact List.sublist_append_left _ _)
  kinds := fun e he => (h.kinds e he).imp_right fun ⟨row, hrow, x, hx, h⟩ =>
    ⟨row, hrow, x, List.mem_append_left _ hx, h⟩

theorem TakesOut.snoc {entries : List (U32 × Int × Nat)} {entry : U32 × Int × Nat}
    {e : Event} (h : TakesOut entries es) (hid : e.email? = some entry.2.1)
    (he : (∃ plan, e = .update plan) ∨ ∃ row, e = .destroy row ∧ entry.2.1 = row.id ∧ entry.2.2 ≤ 1) :
    TakesOut (entries ++ [entry]) (es ++ [e]) where
  once := by
    rw [List.filterMap_append, List.map_append]
    refine h.once.append ?_
    simp [hid]
  kinds := by
    intro e' he'
    rcases List.mem_append.1 he' with he' | he'
    · exact (h.skip entry).kinds e' he'
    · rw [List.mem_singleton.1 he']
      exact he.imp_right fun ⟨row, hrow, h⟩ => ⟨row, hrow, entry, by simp, h⟩

/-- The messages `imap_take_out` is asked to take out. -/
def wantedOut (db : Db) (mailbox : Int) (uids : Option (List U32)) (onlyDeleted : Bool) :
    List (U32 × Int × Nat) :=
  (db.flagged mailbox onlyDeleted).filter fun entry => uids.all fun uids => uids.contains entry.1

theorem imapTakeOut_did (mailbox : Int) (uids : Option (List U32)) (onlyDeleted : Bool) :
    Did a db (imapTakeOut ext a mailbox uids onlyDeleted db).2 none fun es =>
      TakesOut (wantedOut db mailbox uids onlyDeleted) es ∧ EntersOnly [] es := by
  unfold imapTakeOut
  refine Did.of_write fun v tx hx => ?_
  obtain ⟨tx₀, s₀, hget, hx⟩ := exec_bind_ok hx
  cases hget
  obtain ⟨own, hown, hx⟩ := exec_ofExcept_ok hx
  refine Did.of_progress (Tx.exec_mapM_ok
    (P := fun done tx => ∃ es, Progress a none db es tx ∧ TakesOut done es ∧ EntersOnly [] es)
    ?_ _ [] ⟨[], Progress.start a none db, ⟨by simp, by simp⟩, by simp [EntersOnly]⟩ hx)
  rintro done entry s b s' ⟨es, hp, hes, hent⟩ hstep
  unfold takeOut at hstep
  split at hstep
  · obtain ⟨u, s₁, hu, hstep⟩ := exec_bind_ok hstep
    cases hstep
    rcases hp.updateOne hu with heq | ⟨plan, hid, hnew, hp'⟩
    · exact ⟨es, by rw [heq]; exact hp, hes.skip entry, hent⟩
    · exact ⟨_, hp', hes.snoc (by simp [Event.email?, hid]) (Or.inl ⟨plan, rfl⟩),
        hent.snoc (EmailUpdate.enters_of_plan hid hnew)⟩
  · rename_i hone
    obtain ⟨u, s₁, hu, hstep⟩ := exec_bind_ok hstep
    cases hstep
    rcases hp.destroyOne hu with ⟨-, e, he⟩ | ⟨row, hid, -, hp'⟩
    · cases he
    · exact ⟨_, hp', hes.snoc (by simp [Event.email?, hid])
        (.inr ⟨row, rfl, hid.symm, by omega⟩), hent.snoc fun b hb => by cases hb⟩

/-! ### Ingest -/

theorem nodup_eraseDups : ∀ l : List Int, l.eraseDups.Nodup
  | [] => by simp
  | x :: l => by
    rw [List.eraseDups_cons]
    refine List.nodup_cons.2 ⟨?_, nodup_eraseDups _⟩
    simp [List.mem_eraseDups]
termination_by l => l.length
decreasing_by
  simp only [List.length_cons]
  exact Nat.lt_succ_of_le (List.length_filter_le _ _)

theorem resolveMailbox_ok {t : MailboxTarget} {id : Int} (h : resolveMailbox db a t = .ok id) :
    db.Has a id := by
  unfold resolveMailbox at h
  split at h
  · rename_i r hr
    cases h
    have hfor := List.find?_some hr
    simp only [MailboxTarget.isFor, Bool.and_eq_true, beq_iff_eq] at hfor
    exact ⟨r, List.mem_of_find?_eq_some hr, rfl, hfor.1⟩
  · cases h

theorem mapM_resolveMailbox_ok : ∀ {ts : List MailboxTarget} {ids : List Int},
    ts.mapM (resolveMailbox db a) = .ok ids → ∀ id ∈ ids, db.Has a id
  | [], ids, h, id, hid => by
    cases h
    simp at hid
  | t :: ts, ids, h, id, hid => by
    rw [List.mapM_cons] at h
    obtain ⟨x, hx, h⟩ := Tx.except_bind_ok h
    obtain ⟨ys, hy, h⟩ := Tx.except_bind_ok h
    cases h
    rcases List.mem_cons.1 hid with rfl | hid
    · exact resolveMailbox_ok hx
    · exact mapM_resolveMailbox_ok hy id hid

theorem resolveMailboxes_ok {ts : List MailboxTarget} {ids : List Int}
    (h : resolveMailboxes db a ts = .ok ids) :
    ids ≠ [] ∧ ids.Nodup ∧ ∀ id ∈ ids, db.Has a id := by
  unfold resolveMailboxes at h
  obtain ⟨xs, hx, h⟩ := Tx.except_bind_ok h
  dsimp only at h
  split at h
  · cases h
  · rename_i hne
    cases h
    refine ⟨by simpa using hne, nodup_eraseDups xs, ?_⟩
    intro id hid
    exact mapM_resolveMailbox_ok hx id (List.mem_eraseDups.1 hid)

variable (ext) in
/-- `ingest_marked` refuses, or stores one message. -/
theorem ingestMarked_cases (hk : Keyed db) (now : Int) (request : IngestRequest) (smtp : Bool) :
    (∃ e, ingestMarked ext now request smtp db = (.error e, db)) ∨
      ∃ r db' m p ids, ingestMarked ext now request smtp db = (.ok r, db') ∧
        ingestPrepare ext now request smtp db = .ok p ∧ p.accountId = request.accountId ∧
        resolveMailboxes db request.accountId request.mailboxes = .ok ids ∧
        Effect request.accountId db db' m [.store p ids] none := by
  unfold ingestMarked
  cases hprep : ingestPrepare ext now request smtp db with
  | error e => exact .inl ⟨e, rfl⟩
  | ok p =>
    have hp : p.accountId = request.accountId ∧ 0 ≤ p.size ∧ p.mailboxes = request.mailboxes := by
      unfold ingestPrepare at hprep
      dsimp only at hprep
      split at hprep
      · cases hprep
      · split at hprep
        · split at hprep
          · split at hprep
            · cases hprep
            · cases hprep
              exact ⟨rfl, by simp, rfl⟩
          · cases hprep
        · cases hprep
    dsimp only
    rcases write_cases p.accountId (ingestWrite p) db with ⟨e, h⟩ | ⟨v, tx, hx, h⟩
    · exact .inl ⟨e, h⟩
    · unfold ingestWrite at hx
      obtain ⟨tx₀, s₀, hget, hx⟩ := exec_bind_ok hx
      cases hget
      dsimp only at hx
      cases hacc : db.account p.accountId with
      | none =>
        rw [hacc] at hx
        cases hx
      | some account =>
        simp only [hacc] at hx
        split at hx
        · cases hx
        · rename_i hquota
          obtain ⟨tx₁, s₁, hget, hx⟩ := exec_bind_ok hx
          cases hget
          obtain ⟨ids, hres, hx⟩ := exec_ofExcept_ok hx
          obtain ⟨m, s₃, hm, hx⟩ := exec_bind_ok hx
          obtain ⟨hmod, rfl⟩ := exec_nextModseq_ok hm
          obtain ⟨tx₂, s₄, hget, hx⟩ := exec_bind_ok hx
          cases hget
          obtain ⟨u, s₅, hst, hx⟩ := exec_bind_ok hx
          cases hst
          cases hx
          have hids := hres
          obtain ⟨hne, hnd, hhas⟩ := resolveMailboxes_ok hids
          have hmem := List.mem_of_find?_eq_some hacc
          have hid : account.id = p.accountId := by simpa using List.find?_some hacc
          have hfit : p.Fits p.accountId (db.bumpModseq p.accountId) ids := by
            refine ⟨rfl, hne, hnd, hhas, hp.2.1, ?_⟩
            intro r hr hra hpos
            obtain ⟨r₀, hr₀, rfl⟩ := mem_updateWhere.1 hr
            have hr₀a : r₀ = account := by
              refine hk.account.eq hr₀ hmem ?_
              split at hra <;> exact hra.trans hid.symm
            subst hr₀a
            push Not at hquota
            split at hpos <;> split <;> simp_all
          refine .inr ⟨_, _, m, p, ids, h, rfl, hp.1, ?_⟩
          rw [← hp.1, ← hp.2.2]
          refine ⟨hids, ?_⟩
          exact Effect.single (e := .store p ids) hmod ⟨rfl, hfit⟩

/-! ### Mailboxes -/

theorem checkUnique_ok {row : MailboxRow} (h : checkUnique db row = .ok ⟨⟩) : row.Unique db := by
  unfold checkUnique at h
  split at h
  · cases h
  · rename_i hrole
    split at h
    · cases h
    · rename_i hname
      refine ⟨?_, ?_⟩
      · intro r hr hid hacc hsome heq
        refine hrole ?_
        simp only [hsome, Bool.true_and, List.any_eq_true]
        exact ⟨r, hr, by simp [bne, hid, hacc, heq]⟩
      · intro r hr hid hacc hpar heq
        refine hname ?_
        simp only [List.any_eq_true]
        exact ⟨r, hr, by simp [bne, hid, hacc, hpar, heq]⟩

/-- `create_mailbox` refuses, or creates one mailbox. -/
theorem createMailbox_cases (hk : Keyed db) (name : String) (parentId : Option Int)
    (role : Option MailboxRole) (sortOrder : Int) (subscribed : Bool) (now : Int) :
    (∃ e, createMailbox a name parentId role sortOrder subscribed now db = (.error e, db)) ∨
      ∃ db' m row, createMailbox a name parentId role sortOrder subscribed now db = (.ok row.id, db') ∧
        validMailboxName name = .ok row.name ∧
        row = newMailbox a row.name parentId role sortOrder subscribed now m (db.mailboxSeq + 1) ∧
        Effect a db db' m [.create row] none := by
  unfold createMailbox
  cases hname : validMailboxName name with
  | error e => exact .inl ⟨e, rfl⟩
  | ok valid =>
    rcases write_cases a _ db with ⟨e, h⟩ | ⟨v, tx, hx, h⟩
    · exact .inl ⟨e, h⟩
    · obtain ⟨tx₀, s₀, hget, hx⟩ := exec_bind_ok hx
      cases hget
      obtain ⟨u₁, hpar, hx⟩ := exec_ofExcept_ok hx
      obtain ⟨m, s₂, hm, hx⟩ := exec_bind_ok hx
      obtain ⟨hmod, rfl⟩ := exec_nextModseq_ok hm
      obtain ⟨tx₁, s₃, hget, hx⟩ := exec_bind_ok hx
      cases hget
      obtain ⟨u₂, huniq, hx⟩ := exec_ofExcept_ok hx
      obtain ⟨u₃, s₅, hst, hx⟩ := exec_bind_ok hx
      cases hst
      cases hx
      obtain ⟨⟨x, hxa, hxid⟩, -⟩ := hk.modseq_eq hmod
      refine .inr ⟨_, m, _, h, rfl, rfl, Effect.single (e := .create _) hmod ⟨rfl, ?_⟩⟩
      refine ⟨rfl, rfl, exists_account_updateWhere ⟨x, hxa, hxid⟩ fun _ => rfl, rfl, rfl,
        checkUnique_ok huniq, ?_⟩
      exact (checkParent_bumpModseq db a a none parentId).trans hpar

/-- Where the column updates of `update_mailbox` stand: the mailbox is rewritten by `g`, and
still fits in. -/
structure Altered (d : Db) (id : Int) (g : MailboxRow → MailboxRow) (tx : TxState) : Prop where
  db : tx.db = d.updateMailboxes (fun r => r.id == id) g
  same : ∀ r, (g r).id = r.id ∧ (g r).accountId = r.accountId
  unique : ∀ r ∈ d.mailboxes, r.id = id → (g r).Unique d

section Altered

variable {d : Db} {id : Int} {f g : MailboxRow → MailboxRow} {tx tx' : TxState}

theorem Altered.start (hn : Named d) (h : tx.db = d) : Altered d id (fun r => r) tx where
  db := by simp [h, Db.updateMailboxes, updateWhere]
  same := fun _ => ⟨rfl, rfl⟩
  unique := fun r hr _ => hn r hr

/-- One more statement on the same mailbox. -/
theorem Altered.statement_eq (h : Altered d id g tx) :
    tx.db.updateMailboxes (fun r => r.id == id) f =
      d.updateMailboxes (fun r => r.id == id) fun r => f (g r) := by
  rw [h.db]
  simp only [Db.updateMailboxes]
  congr 1
  refine updateWhere_updateWhere ?_ d.mailboxes
  intro r
  rw [(h.same r).1]

/-- The other mailboxes are as they were. -/
theorem Altered.mem (h : Altered d id g tx) {r : MailboxRow} (hr : r ∈ d.mailboxes) (hne : r.id ≠ id) :
    r ∈ tx.db.mailboxes := by
  rw [h.db]
  exact mem_updateWhere.2 ⟨r, hr, by simp [hne]⟩

theorem Altered.alterMailbox {u : PUnit} (hk : Keyed d) (h : Altered d id g tx)
    (hf : ∀ r, (f r).id = r.id ∧ (f r).accountId = r.accountId)
    (hx : (alterMailbox id f).exec tx = (.ok u, tx')) : Altered d id (fun r => f (g r)) tx' := by
  obtain ⟨tx₀, s₀, hget, hx⟩ := exec_bind_ok hx
  cases hget
  dsimp only at hx
  have hall : ∀ r ∈ d.mailboxes, r.id = id → (f (g r)).Unique d ∧
      tx' = { tx with db := tx.db.updateMailboxes (fun r => r.id == id) f } := by
    intro r hr hid
    have hfind : tx.db.mailbox id = some (g r) := by
      have hmem : g r ∈ tx.db.mailboxes := by
        rw [h.db]
        exact mem_updateWhere.2 ⟨r, hr, by simp [hid]⟩
      have hkey : UniqueKey MailboxRow.id tx.db.mailboxes := by
        rw [h.db]
        exact UniqueKey.updateWhere hk.mailbox (fun r => (h.same r).1) _
      have := hkey.find?_eq hmem
      rwa [(h.same r).1, hid] at this
    simp only [hfind] at hx
    obtain ⟨u₁, hcheck, hx⟩ := exec_ofExcept_ok hx
    cases hx
    refine ⟨(checkUnique_ok hcheck).congr rfl ⟨rfl, rfl, rfl, rfl⟩ ?_, rfl⟩
    intro q hq hne
    refine h.mem hq ?_
    rwa [(hf (g r)).1, (h.same r).1, hid] at hne
  have hdb : tx'.db = tx.db.updateMailboxes (fun r => r.id == id) f := by
    split at hx
    · obtain ⟨u₁, hcheck, hx⟩ := exec_ofExcept_ok hx
      cases hx
      rfl
    · cases hx
      rfl
  refine ⟨by rw [hdb, h.statement_eq], ?_, fun r hr hid => (hall r hr hid).1⟩
  intro r
  exact ⟨(hf _).1.trans (h.same r).1, (hf _).2.trans (h.same r).2⟩

theorem Altered.setColumn {u : PUnit} (h : Altered d id g tx)
    (hf : ∀ r, (f r).id = r.id ∧ (f r).accountId = r.accountId ∧ (f r).parentId = r.parentId ∧
      (f r).name = r.name ∧ (f r).role = r.role)
    (hx : (setColumn id f).exec tx = (.ok u, tx')) : Altered d id (fun r => f (g r)) tx' := by
  cases hx
  refine ⟨h.statement_eq, ?_, ?_⟩
  · intro r
    exact ⟨(hf _).1.trans (h.same r).1, (hf _).2.1.trans (h.same r).2⟩
  · intro r hr hid
    exact (h.unique r hr hid).congr (hf _).1 (hf _).2 fun q hq _ => hq

end Altered

/-- All columns of `update_mailbox`. -/
theorem alterColumns_ok {d : Db} {id : Int} {name : Option String} {update : MailboxUpdate}
    {tx tx' : TxState} {u : PUnit} (hk : Keyed d) (hn : Named d) (hd : tx.db = d)
    (hx : (alterColumns id name update).exec tx = (.ok u, tx')) :
    Altered d id { update with name }.apply tx' := by
  obtain ⟨oldName, parentId, role, sortOrder, subscribed⟩ := update
  obtain ⟨u₁, s₁, h₁, hx⟩ := exec_bind_ok hx
  obtain ⟨u₂, s₂, h₂, hx⟩ := exec_bind_ok hx
  obtain ⟨u₃, s₃, h₃, hx⟩ := exec_bind_ok hx
  obtain ⟨u₄, s₄, h₄, h₅⟩ := exec_bind_ok hx
  have hq₁ : Altered d id ({ name } : MailboxUpdate).apply s₁ := by
    cases name with
    | none =>
      cases h₁
      exact Altered.start hn hd
    | some x =>
      exact (Altered.start hn hd).alterMailbox (f := fun r => { r with name := x }) hk
        (fun _ => ⟨rfl, rfl⟩) h₁
  have hq₂ : Altered d id ({ name, parentId } : MailboxUpdate).apply s₂ := by
    cases parentId with
    | none =>
      cases h₂
      exact hq₁
    | some x =>
      exact hq₁.alterMailbox (f := fun r => { r with parentId := x }) hk (fun _ => ⟨rfl, rfl⟩) h₂
  have hq₃ : Altered d id ({ name, parentId, role } : MailboxUpdate).apply s₃ := by
    cases role with
    | none =>
      cases h₃
      exact hq₂
    | some x =>
      exact hq₂.alterMailbox (f := fun r => { r with role := x }) hk (fun _ => ⟨rfl, rfl⟩) h₃
  have hq₄ : Altered d id ({ name, parentId, role, sortOrder } : MailboxUpdate).apply s₄ := by
    cases sortOrder with
    | none =>
      cases h₄
      exact hq₃
    | some x =>
      exact hq₃.setColumn (f := fun r => { r with sortOrder := x })
        (fun _ => ⟨rfl, rfl, rfl, rfl, rfl⟩) h₄
  cases subscribed with
  | none =>
    cases h₅
    exact hq₄
  | some x =>
    exact hq₄.setColumn (f := fun r => { r with subscribed := x })
      (fun _ => ⟨rfl, rfl, rfl, rfl, rfl⟩) h₅

/-- `update_mailbox` refuses, or alters one mailbox. -/
theorem updateMailbox_cases (hk : Keyed db) (hn : Named db) (id : Int) (update : MailboxUpdate) :
    (∃ e, updateMailbox a id update db = (.error e, db)) ∨
      ∃ db' m name, updateMailbox a id update db = (.ok ⟨⟩, db') ∧
        update.name.mapM validMailboxName = .ok name ∧
        Effect a db db' m [.alter id { update with name }] none := by
  unfold updateMailbox
  cases hname : update.name.mapM validMailboxName with
  | error e => exact .inl ⟨e, rfl⟩
  | ok name =>
    rcases write_cases a _ db with ⟨e, h⟩ | ⟨v, tx, hx, h⟩
    · exact .inl ⟨e, h⟩
    · obtain ⟨tx₀, s₀, hget, hx⟩ := exec_bind_ok hx
      cases hget
      split at hx
      case isFalse => cases hx
      case isTrue hhas =>
        obtain ⟨tx₁, s₁, hget, hx⟩ := exec_bind_ok hx
        cases hget
        obtain ⟨u₁, s₂, hpar, hx⟩ := exec_bind_ok hx
        have hparent : (∀ p, update.parentId = some p → checkParent db a (some id) p = .ok ⟨⟩) ∧
            s₂ = { db, batch := { accountId := a } } := by
          cases hp : update.parentId with
          | none =>
            rw [hp] at hpar
            cases hpar
            exact ⟨by simp, rfl⟩
          | some p =>
            rw [hp] at hpar
            refine ⟨?_, (Prod.mk.inj hpar).2.symm⟩
            intro q hq
            cases hq
            exact (Prod.mk.inj hpar).1
        obtain ⟨hparent, rfl⟩ := hparent
        obtain ⟨m, s₃, hm, hx⟩ := exec_bind_ok hx
        obtain ⟨hmod, rfl⟩ := exec_nextModseq_ok hm
        obtain ⟨u₂, s₄, hcols, hx⟩ := exec_bind_ok hx
        cases hx
        have hq := alterColumns_ok (hk.bump (a := a)) (hn.of_eq rfl) rfl hcols
        refine .inr ⟨_, m, name, h, rfl, hmod, _, Events.snoc Events.nil ⟨rfl, ?_⟩, by simp, ?_⟩
        · refine ⟨mailboxBelongs_iff.1 hhas, ?_, hq.unique⟩
          intro p hp
          rw [checkParent_bumpModseq]
          exact hparent p hp
        · show Db.mailboxUpdated a m s₄.db id = _
          rw [hq.db]
          rfl

/-! ### Destroying a mailbox -/

/-- The columns of a mailbox that no event on emails writes. -/
def MailboxRow.place (r : MailboxRow) : Int × Int × Option Int := (r.id, r.accountId, r.parentId)

/-- Where `destroy_mailbox` stands: what it found in the mailbox `b` it is done with. -/
structure Cleared (d : Db) (b : Int) (done : List (Int × Nat)) (d' : Db) : Prop where
  place : d'.mailboxes.map MailboxRow.place = d.mailboxes.map MailboxRow.place
  member : ∀ r ∈ d'.emailMailboxes, r ∈ d.emailMailboxes ∧
    (r.mailboxId = b → r.emailId ∉ done.map (·.1))
  keptMember : ∀ r ∈ d.emailMailboxes, r.emailId ∉ done.map (·.1) → r ∈ d'.emailMailboxes
  keptEmail : ∀ e ∈ d.emails, e.id ∉ done.map (·.1) → e ∈ d'.emails

variable {entry : Int × Nat}

section Cleared

variable {d d' : Db} {b m : Int} {done : List (Int × Nat)}

theorem map_place_map {t : List MailboxRow} {g : MailboxRow → MailboxRow}
    (hg : ∀ r, (g r).place = r.place) : (t.map g).map MailboxRow.place = t.map MailboxRow.place := by
  rw [List.map_map]
  exact List.map_congr_left fun r _ => hg r

theorem Cleared.has (h : Cleared d b done d') (hb : d.Has a b) : d'.Has a b := by
  obtain ⟨r, hr, rfl, rfl⟩ := hb
  have hmem : r.place ∈ d'.mailboxes.map MailboxRow.place := by
    rw [h.place]
    exact List.mem_map_of_mem hr
  obtain ⟨q, hq, hqr⟩ := List.mem_map.1 hmem
  exact ⟨q, hq, (Prod.mk.inj hqr).1, (Prod.mk.inj (Prod.mk.inj hqr).2).1⟩

theorem Cleared.childless (h : Cleared d b done d') (hc : ∀ r ∈ d.mailboxes, r.parentId ≠ some b) :
    ∀ r ∈ d'.mailboxes, r.parentId ≠ some b := by
  intro r hr hp
  have hmem : r.place ∈ d.mailboxes.map MailboxRow.place := by
    rw [← h.place]
    exact List.mem_map_of_mem hr
  obtain ⟨q, hq, hqr⟩ := List.mem_map.1 hmem
  exact hc q hq ((Prod.mk.inj (Prod.mk.inj hqr).2).2.trans hp)

theorem not_mem_done {done : List (Int × Nat)} {id : Int} :
    id ∉ (done ++ [entry]).map (·.1) ↔ id ∉ done.map (·.1) ∧ id ≠ entry.1 := by
  simp only [List.map_append, List.mem_append, List.map_cons, List.map_nil, List.mem_singleton,
    not_or]

theorem Cleared.destroy {row : EmailRow} (h : Cleared d b done d')
    (hid : row.id = entry.1) : Cleared d b (done ++ [entry]) (d'.applyDestroy a m row) := by
  rw [Db.applyDestroy_eq]
  refine ⟨?_, ?_, ?_, ?_⟩
  · rw [← h.place]
    exact map_place_map fun r => by simp [MailboxRow.place]
  · intro r hr
    obtain ⟨hr, hne⟩ := mem_deleteWhere.1 hr
    refine ⟨(h.member r hr).1, ?_⟩
    intro hb
    have hnot := (h.member r hr).2 hb
    simp only [beq_eq_false_iff_ne] at hne
    exact not_mem_done.2 ⟨hnot, by rwa [← hid]⟩
  · intro r hr hnot
    obtain ⟨hnot, hne⟩ := not_mem_done.1 hnot
    exact mem_deleteWhere.2 ⟨h.keptMember r hr hnot, by simpa [hid] using hne⟩
  · intro e he hnot
    obtain ⟨hnot, hne⟩ := not_mem_done.1 hnot
    exact mem_deleteWhere.2 ⟨h.keptEmail e he hnot, by simpa [hid] using hne⟩

theorem Cleared.leave (h : Cleared d b done d') :
    Cleared d b (done ++ [entry]) (d'.leaveMailbox a m entry.1 b) := by
  rw [Db.leaveMailbox_eq]
  refine ⟨?_, ?_, ?_, ?_⟩
  · rw [← h.place]
    exact map_place_map fun r => by simp [MailboxRow.place]
  · intro r hr
    obtain ⟨hr, hne⟩ := mem_deleteWhere.1 hr
    refine ⟨(h.member r hr).1, ?_⟩
    intro hb
    have hnot := (h.member r hr).2 hb
    simp only [hb, beq_self_eq_true, Bool.and_true, beq_eq_false_iff_ne] at hne
    exact not_mem_done.2 ⟨hnot, hne⟩
  · intro r hr hnot
    obtain ⟨hnot, hne⟩ := not_mem_done.1 hnot
    exact mem_deleteWhere.2 ⟨h.keptMember r hr hnot, by simp [hne]⟩
  · intro e he hnot
    obtain ⟨hnot, hne⟩ := not_mem_done.1 hnot
    exact mem_updateWhere.2 ⟨e, h.keptEmail e he hnot, by simp [hne]⟩

/-- Nothing is left once everything is through. -/
theorem Cleared.empty (h : Cleared d b (d.holdings b) d') :
    ∀ r ∈ d'.emailMailboxes, r.mailboxId ≠ b := by
  intro r hr hb
  obtain ⟨hr, hnot⟩ := h.member r hr
  refine hnot hb ?_
  simp only [Db.holdings, Db.emailIdsIn, List.map_map]
  exact List.mem_map.2 ⟨r, List.mem_filter.2 ⟨hr, by simpa using hb⟩, rfl⟩

end Cleared

/-- Each email is in a mailbox once. -/
theorem Keyed.nodup_holdings (hk : Keyed db) (b : Int) : ((db.holdings b).map (·.1)).Nodup := by
  have hmap : (db.holdings b).map (·.1) = db.emailIdsIn b := by
    simp [Db.holdings, List.map_map, Function.comp_def]
  rw [hmap, Db.emailIdsIn]
  refine List.Nodup.map_on ?_ (hk.member.nodup.filter _)
  intro r hr r' hr' he
  simp only [List.mem_filter, beq_iff_eq] at hr hr'
  exact hk.member.eq hr.1 hr'.1 (Prod.ext he (hr.2.trans hr'.2.symm))

/-- An email in several mailboxes is in another one. -/
theorem Keyed.elsewhere (hk : Keyed db) {email b : Int} (h : ¬(db.mailboxIdsOf email).length ≤ 1) :
    ∃ r ∈ db.emailMailboxes, r.emailId = email ∧ r.mailboxId ≠ b := by
  by_contra hno
  push Not at hno
  refine h ?_
  have hnd : (db.mailboxIdsOf email).Nodup := by
    refine List.Nodup.map_on ?_ (hk.member.nodup.filter _)
    intro r hr r' hr' he
    simp only [List.mem_filter, beq_iff_eq] at hr hr'
    exact hk.member.eq hr.1 hr'.1 (Prod.ext (hr.2.trans hr'.2.symm) he)
  have hall : ∀ x ∈ db.mailboxIdsOf email, x = b := by
    intro x hx
    obtain ⟨r, hr, hre, rfl⟩ := Db.mem_mailboxIdsOf.1 hx
    exact hno r hr hre
  rcases hl : db.mailboxIdsOf email with _ | ⟨x, _ | ⟨y, l⟩⟩
  · simp
  · simp
  · rw [hl] at hnd hall
    have hxy : x = y := (hall x (by simp)).trans (hall y (by simp)).symm
    simp [hxy] at hnd

/-- What `destroy_mailbox` finds in the mailbox belongs to the account. -/
theorem Intact.own_of_member (hi : Intact db) {b : Int} (hb : db.Has a b) {r : MembershipRow}
    (hr : r ∈ db.emailMailboxes) (hrb : r.mailboxId = b) :
    ∃ e ∈ db.emails, e.id = r.emailId ∧ e.accountId = a := by
  obtain ⟨e, he, her, q, hq, hqb, hqe⟩ := hi.linked.member r hr
  obtain ⟨x, hx, hxb, rfl⟩ := hb
  refine ⟨e, he, her, ?_⟩
  rw [← hqe, hi.keyed.mailbox.eq hq hx (hqb.trans (hrb.trans hxb.symm))]

/-- The events of clearing a mailbox out: each email once, destroyed if it was nowhere else. -/
structure Clears (d : Db) (b : Int) (done : List (Int × Nat)) (es : List Event) : Prop where
  once : es.map Event.email? = done.map fun entry => some entry.1
  kinds : ∀ e ∈ es, (∃ email, e = .leave email b) ∨
    ∃ row, e = .destroy row ∧ (row.id, 1) ∈ d.holdings b

theorem Clears.snoc {d : Db} {b : Int} {done : List (Int × Nat)}
    {e : Event} (h : Clears d b done es) (hid : e.email? = some entry.1)
    (he : (∃ email, e = .leave email b) ∨ ∃ row, e = .destroy row ∧ (row.id, 1) ∈ d.holdings b) :
    Clears d b (done ++ [entry]) (es ++ [e]) where
  once := by simp [h.once, hid]
  kinds := by
    intro e' he'
    rcases List.mem_append.1 he' with he' | he'
    · exact h.kinds e' he'
    · exact List.mem_singleton.1 he' ▸ he

/-- `destroy_one` in a batch that has its modseq. -/
theorem exec_destroyOne_ok {tx tx' : TxState} {m email : Int} {u : PUnit} (ha : tx.batch.accountId = a)
    (hm : tx.batch.modseq = some m) (h : (destroyOne email).exec tx = (.ok u, tx')) :
    ∃ row ∈ tx.db.emails, row.id = email ∧ row.accountId = a ∧
      tx' = { tx with db := tx.db.applyDestroy a m row } := by
  subst ha
  obtain ⟨tx₀, s₀, hget, h⟩ := exec_bind_ok h
  cases hget
  cases hrow : tx.db.emailOf tx.batch.accountId email with
  | none =>
    rw [hrow] at h
    cases h
  | some row =>
    simp only [hrow] at h
    have hkey : row.id = email ∧ row.accountId = tx.batch.accountId := by
      simpa using List.find?_some hrow
    obtain ⟨m', s₁, hb, h⟩ := exec_bind_ok h
    cases h
    rcases exec_batchModseq_ok hb with ⟨hm', rfl⟩ | ⟨hnone, -⟩
    · rw [hm] at hm'
      cases hm'
      exact ⟨row, List.mem_of_find?_eq_some hrow, hkey.1, hkey.2, rfl⟩
    · rw [hm] at hnone
      cases hnone

/-- The loop of `destroy_mailbox`: the batch keeps its account and its modseq. -/
structure Clearing (a : Int) (db : Db) (b m : Int) (done : List (Int × Nat)) (tx : TxState) : Prop where
  account : tx.batch.accountId = a
  modseq : tx.batch.modseq = some m
  cleared : Cleared db b done tx.db
  events : ∃ es, Events a m (some b) (db.bumpModseq a) es tx.db ∧ Clears db b done es

theorem Clearing.step {b m : Int} {done rest : List (Int × Nat)} {tx tx' : TxState}
    {u : PUnit} (hi : Intact db) (hb : db.Has a b) (hfull : db.holdings b = done ++ entry :: rest)
    (h : Clearing a db b m done tx) (hx : (clearOut a m b entry).exec tx = (.ok u, tx')) :
    Clearing a db b m (done ++ [entry]) tx' := by
  obtain ⟨es, hes, hclears⟩ := h.events
  have hentry : entry ∈ db.holdings b := by simp [hfull]
  have hnot : entry.1 ∉ done.map (·.1) := by
    have hnd := hi.keyed.nodup_holdings b
    rw [hfull, List.map_append, List.map_cons] at hnd
    intro hin
    exact (List.nodup_append.1 hnd).2.2 _ hin _ (by simp) rfl
  obtain ⟨email, hemail, hcount⟩ := List.mem_map.1 hentry
  obtain ⟨r, hr, rfl⟩ := List.mem_map.1 hemail
  simp only [List.mem_filter, beq_iff_eq] at hr
  obtain ⟨e, he, her, hea⟩ := hi.own_of_member hb hr.1 hr.2
  have hid : r.emailId = entry.1 := congrArg Prod.fst hcount
  unfold clearOut at hx
  split at hx
  · rename_i hone
    obtain ⟨row, hrow, hrid, hra, rfl⟩ := exec_destroyOne_ok h.account h.modseq hx
    refine ⟨h.account, h.modseq, h.cleared.destroy hrid, es ++ [.destroy row],
      Events.snoc (e := .destroy row) hes ⟨hrow, hra⟩, hclears.snoc (by simp [Event.email?, hrid])
        (Or.inr ⟨row, rfl, ?_⟩)⟩
    -- It is in this mailbox, so in exactly one.
    have hlen : entry.2 = 1 := by
      have hpos : 0 < (db.mailboxIdsOf r.emailId).length :=
        List.length_pos_of_mem (Db.mem_mailboxIdsOf.2 ⟨r, hr.1, rfl, rfl⟩)
      rw [← hcount] at hone ⊢
      simp only at hone ⊢
      omega
    rw [hrid, ← hlen]
    exact hentry
  · rename_i hmore
    cases hx
    refine ⟨h.account, h.modseq, h.cleared.leave, es ++ [.leave entry.1 b],
      Events.snoc (e := .leave entry.1 b) hes ⟨rfl, ?_⟩, hclears.snoc rfl (.inl ⟨_, rfl⟩)⟩
    rw [← hcount] at hmore
    obtain ⟨q, hq, hqe, hqb⟩ := hi.keyed.elsewhere (b := b) hmore
    rw [← hid] at hnot ⊢
    refine ⟨⟨e, h.cleared.keptEmail e he (by rwa [her]), her, hea⟩, ?_, ?_⟩
    · exact ⟨r, h.cleared.keptMember r hr.1 hnot, rfl, hr.2⟩
    · exact ⟨q, h.cleared.keptMember q hq (by rwa [hqe]), hqe, hqb⟩

/-- `destroy_mailbox` refuses, or clears the mailbox out and destroys it. -/
theorem destroyMailbox_cases (hi : Intact db) (b : Int) (removeEmails : Bool) :
    (∃ e, destroyMailbox a b removeEmails db = (.error e, db)) ∨
      ∃ db' m es, destroyMailbox a b removeEmails db = (.ok ⟨⟩, db') ∧
        (removeEmails = false → es = []) ∧ Clears db b (db.holdings b) es ∧
        Effect a db db' m es (some b) := by
  unfold destroyMailbox
  rcases write_cases a _ db with ⟨e, h⟩ | ⟨v, tx, hx, h⟩
  · exact .inl ⟨e, h⟩
  · obtain ⟨tx₀, s₀, hget, hx⟩ := exec_bind_ok hx
    cases hget
    dsimp only at hx
    split at hx
    case isFalse => cases hx
    case isTrue hhas =>
      have hhas := mailboxBelongs_iff.1 hhas
      split at hx
      case isTrue => cases hx
      case isFalse hchild =>
        split at hx
        case isTrue => cases hx
        case isFalse hemails =>
          obtain ⟨m, s₁, hm, hx⟩ := exec_bind_ok hx
          obtain ⟨ha, hb, hmod, hes, hdb⟩ := (Progress.start a (some b) db).batchModseq hm
          obtain ⟨u, s₂, hloop, hx⟩ := exec_bind_ok hx
          cases hx
          have hstart : Cleared db b [] s₁.db := by
            have hsame : s₁.db.mailboxes = db.mailboxes ∧ s₁.db.emails = db.emails ∧
                s₁.db.emailMailboxes = db.emailMailboxes := by
              rcases hdb with hdb | hdb <;> rw [hdb] <;> exact ⟨rfl, rfl, rfl⟩
            exact ⟨by rw [hsame.1], by simp [hsame.2.2], by simp [hsame.2.2], by simp [hsame.2.1]⟩
          obtain ⟨-, -, hcl, es, hes, hclears⟩ := Tx.exec_forM_ok (P := Clearing a db b m)
            (fun done entry rest s _ s' hfull hP hstep => hP.step hi hhas hfull hstep)
            _ [] (show db.holdings b = [] ++ db.holdings b from rfl)
            ⟨ha, hb, hstart, [], hes, by simp, by simp⟩ hloop
          refine .inr ⟨_, m, es, h, ?_, hclears, hmod, s₂.db, hes, ?_, rfl⟩
          · rintro rfl
            have hnil : db.holdings b = [] := by simpa using hemails
            have honce := hclears.once
            rw [hnil, List.map_nil, List.map_eq_nil_iff] at honce
            exact honce
          · rintro b' hb'
            cases hb'
            refine ⟨hcl.has hhas, hcl.childless ?_, hcl.empty⟩
            intro r hr hp
            exact hchild (List.any_eq_true.2 ⟨r, hr, by simpa using hp⟩)

/-! ### Sharing -/

theorem setMailboxAclFor_did (mailbox grantee : Int) (rights : String) :
    Did a db (setMailboxAclFor a mailbox grantee rights db).2 none
      (fun es => ∃ acl, es = [.share mailbox acl]) := by
  unfold setMailboxAclFor
  split
  · exact .inl rfl
  · split
    · exact .inl rfl
    · refine Did.of_write fun v tx hx => ?_
      obtain ⟨tx₀, s₀, hget, hx⟩ := exec_bind_ok hx
      cases hget
      obtain ⟨u, hown, hx⟩ := exec_ofExcept_ok hx
      have hhas : db.Has a mailbox := by
        have hok : ownedMailbox db a mailbox = .ok u := hown
        unfold ownedMailbox at hok
        split at hok
        · rename_i hb
          exact mailboxBelongs_iff.1 hb
        · cases hok
      dsimp only at hx
      split at hx
      case isFalse => cases hx
      case isTrue =>
        split at hx
        case isTrue =>
          cases hx
          exact .inl rfl
        case isFalse =>
          obtain ⟨m, s₂, hm, hx⟩ := exec_bind_ok hx
          obtain ⟨hmod, rfl⟩ := exec_nextModseq_ok hm
          obtain ⟨u', s₃, hst, hx⟩ := exec_bind_ok hx
          cases hst
          cases hx
          exact .inr ⟨m, _, Effect.single (e := .share mailbox _) hmod ⟨rfl, hhas, _, _, rfl⟩, _, rfl⟩

/-- The events of the operations on the members of a shared mailbox. -/
def SetsMembers (es : List Event) : Prop := ∃ members shared, es = [.members members shared]

theorem SetsMembers.enters (h : SetsMembers es)
    (named : List (Option Int × Int)) : EntersOnly named es := by
  obtain ⟨members, shared, rfl⟩ := h
  exact .none (by simp [Event.enters]) named

theorem replaceMembers_effect {tx : TxState} {u : PUnit} {batch : Batch} {members : List String}
    {shared : Bool} (hx : (replaceMembers a members shared).exec { db, batch } = (.ok u, tx)) :
    ∃ m es, Effect a db tx.db m es none ∧ SetsMembers es := by
  unfold replaceMembers at hx
  split at hx
  · cases hx
  · obtain ⟨tx₀, s₀, hget, hx⟩ := exec_bind_ok hx
    cases hget
    obtain ⟨wanted, hw, hx⟩ := exec_ofExcept_ok hx
    obtain ⟨m, s₂, hm, hx⟩ := exec_bind_ok hx
    obtain ⟨hmod, rfl⟩ := exec_nextModseq_ok hm
    cases hx
    exact ⟨m, _, Effect.single (e := .members wanted.eraseDups shared) hmod ⟨rfl, nodup_eraseDups wanted⟩,
      _, _, rfl⟩

theorem makeShared_did (members : List String) :
    Did a db (makeShared a members db).2 none SetsMembers := by
  unfold makeShared
  refine Did.of_write fun v tx hx => ?_
  exact .inr (replaceMembers_effect hx)

theorem setSharedMailboxMembers_did (members : List String) :
    Did a db (setSharedMailboxMembers a members db).2 none SetsMembers := by
  unfold setSharedMailboxMembers
  refine Did.of_write fun v tx hx => ?_
  obtain ⟨tx₀, s₀, hget, hx⟩ := exec_bind_ok hx
  cases hget
  obtain ⟨u, hs, hx⟩ := exec_ofExcept_ok hx
  exact .inr (replaceMembers_effect hx)

theorem endSharedMailbox_did : Did a db (endSharedMailbox a db).2 none SetsMembers := by
  unfold endSharedMailbox
  refine Did.of_write fun v tx hx => ?_
  obtain ⟨tx₀, s₀, hget, hx⟩ := exec_bind_ok hx
  cases hget
  obtain ⟨u, hs, hx⟩ := exec_ofExcept_ok hx
  exact .inr (replaceMembers_effect hx)

/-! ### New accounts -/

theorem MailboxRole.defaultName_injective : Function.Injective MailboxRole.defaultName := by
  intro r r' h
  cases r <;> cases r' <;> first | rfl | exact absurd h (by decide)

/-- The row of a default mailbox, with the id it gets. -/
def defaultRow (account now modseq seq : Int) (p : MailboxRole × Nat) : MailboxRow :=
  { defaultMailbox account now modseq p.1 p.2 with id := seq + 1 + p.2 }

/-- Without a parent there is nothing to inherit. -/
theorem Db.addMailbox_eq (d : Db) (m : Int) {row : MailboxRow} (hp : row.parentId = none) :
    d.addMailbox a m row = d.applyCreate a m { row with id := d.mailboxSeq + 1 } := by
  simp only [addMailbox, applyCreate, insertMailbox, inheritAcl, hp]

theorem Db.applyCreate_tables (d : Db) (m : Int) {r : MailboxRow} (hp : r.parentId = none)
    (hid : r.id = d.mailboxSeq + 1) :
    (d.applyCreate a m r).accounts = d.accounts ∧
      (d.applyCreate a m r).mailboxSeq = d.mailboxSeq + 1 ∧
      (d.applyCreate a m r).mailboxes = (d.mailboxes ++ [r]).map (touchRow m [r.id]) := by
  have hins : d.insertMailbox r =
      { d with mailboxes := d.mailboxes ++ [r], mailboxSeq := d.mailboxSeq + 1 } := by
    rw [insertMailbox, ← hid]
  rw [applyCreate, hins, hp, ← hid]
  simp only [inheritAcl, recordChange_eq, shownIn, and_self]

/-- Default mailboxes from the `k`-th on: no mailbox of the account is in their way. -/
theorem foldl_addMailbox_events {d : Db} {now m n : Int} (roles : List MailboxRole)
    (hnd : roles.Nodup) :
    ∀ {k : Nat} {d' : Db} {es : List Event}, Events a m none d es d' → d'.mailboxSeq = n + k →
      (∃ x ∈ d'.accounts, x.id = a) →
      (∀ r ∈ d'.mailboxes, r.accountId = a → ∀ role ∈ roles, r.role ≠ some role ∧
        r.name ≠ role.defaultName) →
      Events a m none d
        (es ++ (roles.zipIdx k).map fun p => .create (defaultRow a now m n p))
        ((roles.zipIdx k).foldl
          (fun db p => db.addMailbox a m (defaultMailbox a now m p.1 p.2)) d') := by
  induction roles with
  | nil =>
    intro k d' es hes _ _ _
    simpa using hes
  | cons role roles ih =>
    intro k d' es hes hseq hacc hfree
    obtain ⟨hrole, hnd⟩ := List.nodup_cons.1 hnd
    have hid : (defaultRow a now m n (role, k)).id = d'.mailboxSeq + 1 := by
      simp only [defaultRow, hseq]
      omega
    have hadd : d'.addMailbox a m (defaultMailbox a now m role k) =
        d'.applyCreate a m (defaultRow a now m n (role, k)) := by
      rw [Db.addMailbox_eq d' m rfl, ← hid]
      rfl
    have hfit : Event.Fits a m none d' (.create (defaultRow a now m n (role, k))) := by
      refine ⟨rfl, hid, rfl, hacc, rfl, rfl, ⟨?_, ?_⟩, rfl⟩
      · exact fun r hr _ hra _ => (hfree r hr hra role (by simp)).1
      · exact fun r hr _ hra _ => (hfree r hr hra role (by simp)).2
    obtain ⟨ht₁, ht₂, ht₃⟩ := d'.applyCreate_tables (a := a) m (r := defaultRow a now m n (role, k)) rfl hid
    rw [List.zipIdx_cons, List.map_cons, List.foldl_cons, hadd, ← List.singleton_append,
      ← List.append_assoc]
    refine ih hnd (Events.snoc hes hfit) ?_ ?_ ?_
    · rw [ht₂, hseq]
      push_cast
      ring
    · rw [ht₁]
      exact hacc
    · intro r hr hra role' hrole'
      rw [ht₃] at hr
      obtain ⟨r₀, hr₀, rfl⟩ := List.mem_map.1 hr
      obtain ⟨hc₁, -, hc₂, hc₃⟩ := touchRow_columns m [(defaultRow a now m n (role, k)).id] r₀
      rw [hc₁] at hra
      rw [hc₂, hc₃]
      rcases List.mem_append.1 hr₀ with hr₀ | hr₀
      · exact hfree r₀ hr₀ hra role' (List.mem_cons_of_mem _ hrole')
      · rw [List.mem_singleton.1 hr₀]
        have hne : role ≠ role' := fun h => hrole (h ▸ hrole')
        exact ⟨fun h => hne (Option.some.inj h), fun h => hne (MailboxRole.defaultName_injective h)⟩

/-- The events that give a new account its mailboxes. -/
def provisions (account now modseq seq : Int) : List Event :=
  MailboxRole.all.zipIdx.map fun p => .create (defaultRow account now modseq seq p)

/-- `create_account` refuses, or inserts the account and gives it its mailboxes. -/
theorem createAccount_cases (hl : Linked db) (new : NewAccount) (now : Int) :
    (∃ e, createAccount new now db = (.error e, db)) ∨
      (new.hasMailbox = false ∧
        createAccount new now db = (.ok (db.accountSeq + 1), db.insertAccount new)) ∨
      (new.hasMailbox = true ∧ ∃ db' m,
        createAccount new now db = (.ok (db.accountSeq + 1), db') ∧
          Effect (db.accountSeq + 1) (db.insertAccount new) db' m
            (provisions (db.accountSeq + 1) now m db.mailboxSeq) none) := by
  unfold createAccount
  split
  · exact .inl ⟨_, rfl⟩
  · rcases write_cases (db.accountSeq + 1) _ db with ⟨e, h⟩ | ⟨v, tx, hx, h⟩
    · exact .inl ⟨e, h⟩
    · refine .inr ?_
      rw [h]
      obtain ⟨tx₀, s₀, hget, hx⟩ := exec_bind_ok hx
      cases hget
      dsimp only at hx
      split at hx
      · cases hx
      · obtain ⟨u, s₁, hst, hx⟩ := exec_bind_ok hx
        cases hst
        obtain ⟨tx₁, s₂, hget, hx⟩ := exec_bind_ok hx
        cases hget
        dsimp only at hx
        split at hx
        case isFalse hno =>
          cases hx
          exact .inl ⟨by simpa using hno, rfl⟩
        case isTrue hyes =>
          obtain ⟨u', s₃, hdef, hx⟩ := exec_bind_ok hx
          cases hx
          obtain ⟨m, s₄, hm, hdef⟩ := exec_bind_ok hdef
          obtain ⟨hmod, rfl⟩ := exec_nextModseq_ok hm
          cases hdef
          refine .inr ⟨hyes, _, m, rfl, hmod, _, ?_, by simp, rfl⟩
          set d := (db.insertAccount new).bumpModseq (db.accountSeq + 1) with hd
          have hstart : Events (db.accountSeq + 1) m none d [] d := Events.nil
          have hacc : ∃ x ∈ d.accounts, x.id = db.accountSeq + 1 := by
            refine exists_account_updateWhere ⟨_, List.mem_append_right _ (List.mem_singleton_self _), ?_⟩
              fun _ => rfl
            rfl
          -- The account is new, so nothing is in it.
          have hnone : ∀ r ∈ d.mailboxes, r.accountId ≠ db.accountSeq + 1 := by
            intro r hr hra
            obtain ⟨x, hx, hxa⟩ := hl.mailboxAccount r hr
            have := (hl.accountSeq x hx).2
            omega
          exact foldl_addMailbox_events MailboxRole.all (by decide) hstart
            (show d.mailboxSeq = db.mailboxSeq + (0 : Nat) by simp [hd, Db.insertAccount,
              Db.bumpModseq, Db.updateAccount]) hacc fun r hr hra => absurd hra (hnone r hr)

end Ops

end UwuMail.Store
