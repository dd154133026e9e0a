/-
# Held messages and the logins that held them

Requests that hold, cancel and destroy submissions, the ONE loop that takes due submissions and
hands them to SMTP (`scheduled.rs`), the ends of logins, and restarts, in any order.  A request has
its login checked in one step and writes its row in a later one; the loop takes a batch in one step,
and hands over and records each message of it in two more.

Beside the tables `World` keeps what only the statements need: whether the login of a request or of
a row has ENDED since it was checked, and what was handed over, with whether its login had ended
when it was taken.

`Lawful` is the law of held mail.  `did_step` says what any step does to the rows and to the loop;
from it come the invariant `Inv` and that what is cancelled, or final, stays so.
-/
import UwuMail.Store.Held
import UwuMail.Lib.Trace

namespace UwuMail.Held

open Store (StoreError)
open Table

/-! ## 1. The system -/

/-- A request whose login was checked and whose row is not written yet. -/
structure Request where
  accountId : Int
  credential : Option Credential
  /-- Whether the login ended since it was checked. -/
  ended : Bool := false

/-- A message the loop took. -/
structure Claimed where
  held : HeldSubmission
  /-- Whether its login had ended when it was taken. -/
  ended : Bool

/-- How handing a message over went: the queue entry, or why it could not go. -/
abbrev Outcome := Except String (Option Int)

structure World where
  db : Db
  requests : List Request := []
  /-- What the loop took and did not record yet; the first is the one it is at. -/
  batch : List Claimed := []
  /-- How handing the first one over went. -/
  outcome : Option Outcome := none
  /-- The submissions whose login ended. -/
  ended : List Int := []
  /-- What was handed over, the last one first. -/
  handed : List Claimed := []

inductive Event
  | check (accountId : Int) (credential : Option Credential)
  | hold (request : Nat) (identityId emailId threadId : Int) (envelope : String) (sendAt : Int)
      (blob : String)
  | cancel (accountId id : Int)
  | destroy (accountId id : Int)
  | claim (now : Int) (limit : Nat)
  /-- The message of the batch is handed to SMTP, or could not be read first. -/
  | send (readable : Except String PUnit) (submitted : Outcome)
  /-- How it went is recorded; `false` when recording fails. -/
  | finish (recorded : Bool)
  | restart
  | createAppPassword (accountId : Int)
  | createOauthGrant (accountId : Int)
  | revokeAppPassword (accountId id : Int)
  | revokeOauthGrant (accountId id : Int)
  | changePassword (accountId : Int) (keep : Option String)
  | setDisabled (accountId : Int) (disabled : Bool)
  | trash (now accountId : Int)
  | restore (accountId : Int)

/-- Whether a login stands: its account may log in, and its app password or grant is there. -/
def Db.stands (db : Db) (accountId : Int) (credential : Option Credential) : Bool :=
  ((db.account accountId).map Account.canLogIn).getD false && db.credentialStands accountId credential

/-- A login of the account ends: for the requests under way and for the rows there are. -/
def World.endLogins (w : World) (accountId : Int) (stopped : HeldBy) (db : Db) : World :=
  { w with
    db
    requests := w.requests.map fun q =>
      if q.accountId == accountId && stopped.stops q.credential then { q with ended := true } else q
    ended := w.ended ++ (w.db.submissions.filter fun s =>
      s.accountId == accountId && stopped.stops s.credential).map (·.id) }

/-- `send_held`: the account is looked up again, the message is read, and then it is submitted. -/
def World.sendHeld (w : World) (c : Claimed) (readable : Except String PUnit) (submitted : Outcome) :
    World :=
  match w.db.account c.held.accountId with
  | none => { w with outcome := some (.error "the account no longer exists") }
  | some a =>
    if !a.canLogIn then
      { w with outcome := some (.error "not sent: the account may no longer log in") }
    else match readable with
      | .error e => { w with outcome := some (.error e) }
      | .ok _ => { w with outcome := some submitted, handed := c :: w.handed }

/-- What an event leaves behind; `none` when it cannot happen. -/
def step (w : World) (e : Event) : Option World :=
  match e with
  | .check accountId credential =>
    if w.db.stands accountId credential then
      some { w with requests := w.requests ++ [⟨accountId, credential, false⟩] }
    else none
  | .hold i identityId emailId threadId envelope sendAt blob => do
    let q ← w.requests[i]?
    let (id, db) ← (holdSubmission ⟨q.accountId, identityId, emailId, threadId, envelope, sendAt, blob,
      q.credential⟩ w.db).toOption
    pure { w with
      db
      requests := w.requests.eraseIdx i
      ended := if q.ended then w.ended ++ [id] else w.ended }
  | .cancel accountId id => (cancelSubmission accountId id w.db).toOption.map fun db => { w with db }
  | .destroy accountId id => (destroySubmission accountId id w.db).toOption.map fun db => { w with db }
  | .claim now limit =>
    if w.batch.isEmpty then
      let (claimed, db) := claimDueSubmissions now limit w.db
      some { w with db, batch := claimed.map fun h => ⟨h, decide (h.id ∈ w.ended)⟩ }
    else none
  | .send readable submitted =>
    match w.batch, w.outcome with
    | c :: _, none => some (w.sendHeld c readable submitted)
    | _, _ => none
  | .finish recorded =>
    match w.batch, w.outcome with
    | c :: batch, some outcome =>
      let queued := outcome.toOption.join
      let error := match outcome with | .ok _ => none | .error e => some e
      let db := if recorded then finishHeldSubmission c.held.id queued error w.db else w.db
      some { w with db, batch, outcome := none }
    | _, _ => none
  | .restart => some { w with requests := [], batch := [], outcome := none }
  | .createAppPassword accountId => some { w with db := createAppPassword accountId w.db }
  | .createOauthGrant accountId => some { w with db := createOauthGrant accountId w.db }
  | .revokeAppPassword accountId id =>
    (revokeAppPassword accountId id w.db).toOption.map
      (w.endLogins accountId (.credential (.app id)))
  | .revokeOauthGrant accountId id =>
    (revokeOauthGrant accountId id w.db).toOption.map
      (w.endLogins accountId (.credential (.oauth id)))
  | .changePassword accountId keep =>
    (changePassword accountId keep w.db).toOption.map (w.endLogins accountId (.password keep))
  | .setDisabled accountId disabled =>
    (setAccountDisabled accountId disabled w.db).toOption.map fun db =>
      if disabled then w.endLogins accountId .anyone db else { w with db }
  | .trash now accountId =>
    (trashAccount now accountId w.db).toOption.map (w.endLogins accountId .anyone)
  | .restore accountId => (restoreAccount accountId w.db).toOption.map fun db => { w with db }

variable {accountId : Int}

theorem stands_eq_false {db : Db} {c : Option Credential} :
    db.stands accountId c = false ↔ ((db.account accountId).map Account.canLogIn).getD false = false ∨
      db.credentialStands accountId c = false :=
  Bool.and_eq_false_iff

/-- A server with these accounts where nobody held anything yet. -/
def start (accounts : List Account) : World := { db := { accounts } }

/-! ## 2. The law -/

/-- Events after which a message that was taken is taken again. -/
def Event.loses : Event → Bool
  | .finish recorded => !recorded
  | .restart => true
  | _ => false

/-- **The law of held mail**, for one order of events: a canceled submission is never handed over,
and a final one stays final; none is handed over that was taken after its login ended; and without a
restart or a failed record none is handed over twice. -/
structure Lawful (accounts : List Account) (es : List Event) : Prop where
  canceled : ∀ w w' es₁ es₂, es = es₁ ++ es₂ → Trace.run step (start accounts) es₁ = some w →
    Trace.run step w es₂ = some w' → ∀ s ∈ w.db.submissions, s.undoStatus = .canceled →
    ∀ c ∈ w'.handed, c.held.id ≠ s.id
  final : ∀ w w' es₁ es₂, es = es₁ ++ es₂ → Trace.run step (start accounts) es₁ = some w →
    Trace.run step w es₂ = some w' → ∀ s ∈ w.db.submissions, s.undoStatus = .final →
    ∀ s' ∈ w'.db.submissions, s'.id = s.id → s'.undoStatus = .final
  ended : ∀ w, Trace.run step (start accounts) es = some w → ∀ c ∈ w.handed, c.ended = false
  once : ∀ w, Trace.run step (start accounts) es = some w → (∀ e ∈ es, e.loses = false) →
    (w.handed.map fun c => c.held.id).Nodup

/-! ## 3. What a step does to the rows -/

/-- Old rows changed as rows may change, or went, new ones wait under new ids, and no id of a key is
used again. -/
structure Rows (db db' : Db) : Prop where
  water : db.submissionHighWater ≤ db'.submissionHighWater
  old : ∀ s' ∈ db'.submissions, (∃ s ∈ db.submissions, s.Evolves s') ∨
    (db.submissionHighWater < s'.id ∧ s'.id ≤ db'.submissionHighWater ∧ s'.undoStatus = .pending ∧
      (db'.account s'.accountId).isSome)
  unique : (∀ s ∈ db.submissions, s.id ≤ db.submissionHighWater) → UniqueKey Submission.id db.submissions →
    UniqueKey Submission.id db'.submissions
  accounts : ∀ id, (db.account id).isSome → (db'.account id).isSome
  keys : db.appPasswordHighWater ≤ db'.appPasswordHighWater ∧
    ∀ k ∈ db'.appPasswords, k ∈ db.appPasswords ∨ k.id = db'.appPasswordHighWater
  grants : db.grantHighWater ≤ db'.grantHighWater ∧
    ∀ k ∈ db'.oauthGrants, k ∈ db.oauthGrants ∨ k.id = db'.grantHighWater

variable {id : Int}

section Rows

variable {db db' : Db}

/-- The same keys, or fewer. -/
structure FewerKeys (db db' : Db) : Prop where
  water : db'.submissionHighWater = db.submissionHighWater ∧
    db'.appPasswordHighWater = db.appPasswordHighWater ∧ db'.grantHighWater = db.grantHighWater
  accounts : db'.accounts.map Account.id = db.accounts.map Account.id
  appPasswords : db'.appPasswords ⊆ db.appPasswords
  oauthGrants : db'.oauthGrants ⊆ db.oauthGrants

theorem account_isSome : (db.account id).isSome ↔ id ∈ db.accounts.map Account.id := by
  unfold Db.account
  rw [List.find?_isSome]
  simp [List.mem_map]

theorem Rows.of_evolve (hrows : RowsEvolve db.submissions db'.submissions)
    (hkeys : FewerKeys db db') : Rows db db' where
  water := hkeys.water.1.ge
  old := fun _ hs' => .inl (hrows.from hs')
  unique := fun _ hu => hrows.unique hu
  accounts := by
    intro id h
    rw [account_isSome] at h ⊢
    rwa [hkeys.accounts]
  keys := ⟨hkeys.water.2.1.ge, fun _ hk => .inl (hkeys.appPasswords hk)⟩
  grants := ⟨hkeys.water.2.2.ge, fun _ hk => .inl (hkeys.oauthGrants hk)⟩

theorem FewerKeys.of_submissions (rows : List Submission) :
    FewerKeys db { db with submissions := rows } :=
  ⟨⟨rfl, rfl, rfl⟩, rfl, List.Subset.refl _, List.Subset.refl _⟩

theorem Rows.refl (db : Db) : Rows db db := .of_evolve (.refl _) (.of_submissions _)

theorem toOption_some {α : Type} {r : Except StoreError α} {a : α} (h : r.toOption = some a) :
    r = .ok a := by
  cases r with
  | error e => cases h
  | ok b => rw [Option.some.inj h]

theorem rows_hold {new : NewHeldSubmission} (h : holdSubmission new db = .ok (id, db')) :
    Rows db db' ∧ id = db.submissionHighWater + 1 ∧
      db' = { db with submissions := db.submissions ++ [new.row id], submissionHighWater := id } ∧
      (db.account new.accountId).isSome := by
  unfold holdSubmission at h
  split at h
  · rename_i hacc
    cases h
    have hsome : (db.account new.accountId).isSome := by
      rw [account_isSome]
      simpa [List.mem_map] using hacc
    refine ⟨⟨by simp, ?_, ?_, fun _ h => h, ⟨le_rfl, fun _ h => Or.inl h⟩,
      ⟨le_rfl, fun _ h => .inl h⟩⟩, rfl, rfl, hsome⟩
    · intro s hs
      rcases List.mem_append.1 hs with hs | hs
      · exact .inl ⟨s, hs, .refl s⟩
      · rw [List.mem_singleton.1 hs]
        exact .inr ⟨by simp [NewHeldSubmission.row], le_rfl, rfl, hsome⟩
    · intro hle hu
      refine hu.append ?_
      intro s hs hid
      have := hle s hs
      simp only [NewHeldSubmission.row] at hid
      omega
  · cases h

theorem evolve_cancel {accountId id : Int} (hu : UniqueKey Submission.id db.submissions)
    (h : cancelSubmission accountId id db = .ok db') :
    RowsEvolve db.submissions db'.submissions ∧ db' = { db with submissions := db'.submissions } := by
  unfold cancelSubmission at h
  split at h
  · cases h
  rename_i s hfind
  split at h
  · cases h
    exact ⟨.refl _, rfl⟩
  · cases h
  · rename_i hpending
    cases h
    refine ⟨rowsEvolve_updateWhere ?_, rfl⟩
    intro s' hs' hid
    have hs : s ∈ db.submissions ∧ s.id = id := by
      have := List.find?_some hfind
      simp only [Bool.and_eq_true, beq_iff_eq] at this
      exact ⟨List.mem_of_find?_eq_some hfind, this.1⟩
    have : s' = s := hu.eq hs' hs.1 (by rw [hs.2]; simpa using hid)
    subst this
    exact ⟨rfl, rfl, rfl, .inr hpending, .inr rfl, fun _ => .inl rfl⟩

theorem rows_destroy {accountId id : Int} (h : destroySubmission accountId id db = .ok db') :
    Rows db db' ∧ db'.submissions.Sublist db.submissions ∧
      db' = { db with submissions := db'.submissions } := by
  unfold destroySubmission at h
  split at h
  · cases h
    have hsub := deleteWhere_sublist (fun s => s.id == id && s.accountId == accountId) db.submissions
    exact ⟨⟨le_rfl, fun s hs => .inl ⟨s, hsub.subset hs, .refl s⟩, fun _ hu => hu.sublist hsub,
      fun _ h => h, ⟨le_rfl, fun _ h => .inl h⟩, ⟨le_rfl, fun _ h => .inl h⟩⟩, hsub, rfl⟩
  · cases h

theorem handed_eq {d : Submission} {h : HeldSubmission} (hd : d.handed = some h) :
    h.id = d.id ∧ d.heldBlob.isSome := by
  unfold Submission.handed at hd
  split at hd
  · rename_i blob hblob
    split at hd
    · cases hd
      exact ⟨rfl, by simp [hblob]⟩
    · cases hd
  · cases hd

theorem map_id_handed_sublist (l : List Submission) :
    ((l.filterMap Submission.handed).map HeldSubmission.id).Sublist (l.map Submission.id) := by
  induction l with
  | nil => exact .refl _
  | cons d l ih =>
    rw [List.map_cons, List.filterMap_cons]
    split
    · exact ih.cons _
    · rename_i h hd
      rw [List.map_cons, (handed_eq hd).1]
      exact ih.cons_cons _

/-- **What taking due submissions does**: what is taken was kept, due and not cancelled, its login
still stood as far as is asked, and it is final afterwards. -/
theorem claim_spec {now : Int} {limit : Nat} (hu : UniqueKey Submission.id db.submissions) :
    let r := claimDueSubmissions now limit db
    RowsEvolve db.submissions r.2.submissions ∧ r.2 = { db with submissions := r.2.submissions } ∧
      (r.1.map HeldSubmission.id).Nodup ∧
      ∀ h ∈ r.1, (∃ s ∈ db.submissions, s.id = h.id ∧ s.heldBlob.isSome ∧ db.loginEnded s = false) ∧
        ∀ s' ∈ r.2.submissions, s'.id = h.id → s'.undoStatus = .final := by
  intro r
  let db₁ := db.letGoStale now
  let due := db₁.dueSubmissions now limit
  have hstale : RowsEvolve db.submissions db₁.submissions :=
    rowsEvolve_updateWhere fun s _ _ => evolves_letGo s
  have hclaim : RowsEvolve db₁.submissions r.2.submissions :=
    rowsEvolve_updateWhere fun s _ _ => evolves_claim s
  have hu₁ : UniqueKey Submission.id db₁.submissions := hstale.unique hu
  have hdue : ∀ d ∈ due, d ∈ db₁.submissions ∧ d.due now = true := by
    intro d hd
    have := List.mem_of_mem_take hd
    rw [List.mem_insertionSort, List.mem_filter] at this
    exact this
  have hids : (due.map Submission.id).Nodup := by
    have hsorted : UniqueKey Submission.id ((db₁.submissions.filter (Submission.due now)).insertionSort
        fun s t => s.sendAt < t.sendAt ∨ (s.sendAt = t.sendAt ∧ s.id ≤ t.id)) :=
      ((List.perm_insertionSort _ _).map _).nodup_iff.2 (hu₁.sublist List.filter_sublist)
    exact hsorted.sublist (List.take_sublist _ _)
  have hhanded : ∀ h ∈ r.1, ∃ d ∈ due, d.id = h.id ∧ d.heldBlob.isSome := by
    intro h hh
    obtain ⟨d, hd, hsome⟩ := List.mem_filterMap.1 hh
    obtain ⟨hid, hheld⟩ := handed_eq hsome
    exact ⟨d, hd, hid.symm, hheld⟩
  refine ⟨hstale.trans hclaim, rfl, ?_, ?_⟩
  · exact hids.sublist (map_id_handed_sublist due)
  · intro h hh
    obtain ⟨d, hd, hid, hheld⟩ := hhanded h hh
    obtain ⟨hmem, hisdue⟩ := hdue d hd
    constructor
    · -- A row that was let go has no message, so a due one was not.
      obtain ⟨s, hs, hrow⟩ := mem_updateWhere.1 hmem
      split at hrow
      · rw [← hrow] at hheld
        cases hheld
      · rename_i hno
        subst hrow
        refine ⟨s, hs, hid, hheld, ?_⟩
        simpa [hisdue] using hno
    · intro s' hs' hid'
      obtain ⟨s, hs, hrow⟩ := mem_updateWhere.1 hs'
      have hsame : s.id = s'.id := by
        rw [← hrow]
        split
        · exact (evolves_claim s).id.symm
        · rfl
      have : s = d := hu₁.eq hs hmem (hsame.trans (hid'.trans hid.symm))
      subst this
      rw [if_pos (by simpa using ⟨s, hd, rfl⟩)] at hrow
      rw [← hrow]
      refine claim_final ?_
      simp only [Submission.due, Bool.and_eq_true, bne_iff_ne] at hisdue
      exact hisdue.2

/-- Where a login ends, the rows it stops and what stands afterwards. -/
structure Ends (stopped : HeldBy) (accountId : Int) (db db' : Db) : Prop where
  rows : RowsEvolve db.submissions db'.submissions
  keys : FewerKeys db db'
  /-- Nothing stands that did not stand before. -/
  stands : ∀ a c, db'.stands a c = true → db.stands a c = true
  /-- Of the rows it is about, one that still has its message no longer stands; a new password
  leaves those that were taken. -/
  past : ∀ s ∈ db'.submissions, s.heldBlob.isSome → s.accountId = accountId →
    stopped.stops s.credential = true →
    db'.stands accountId s.credential = false ∨
      (s ∈ db.submissions ∧ s.undoStatus ≠ .pending ∧ ∃ keep, stopped = .password keep)

theorem any_deleteWhere {p q : Key → Bool} {t : List Key}
    (h : (deleteWhere p t).any q = true) : t.any q = true := by
  obtain ⟨k, hk, hq⟩ := List.any_eq_true.1 h
  exact List.any_eq_true.2 ⟨k, (mem_deleteWhere.1 hk).1, hq⟩

theorem stands_cancelHeld (accountId a : Int) (stopped : HeldBy) (reason : String)
    (c : Option Credential) :
    (db.cancelHeld accountId stopped reason).stands a c = db.stands a c := rfl

/-- Taking a key away, and stopping what was held with it. -/
theorem ends_revoke {db₁ : Db} {c : Credential} {reason : String}
    (hrows : db₁.submissions = db.submissions) (haccounts : db₁.accounts = db.accounts)
    (hkeys : FewerKeys db db₁)
    (hmono : ∀ a c, db₁.credentialStands a c = true → db.credentialStands a c = true)
    (hgone : db₁.credentialStands accountId (some c) = false) :
    Ends (.credential c) accountId db (db₁.cancelHeld accountId (.credential c) reason) := by
  constructor
  · rw [← hrows]
    exact evolves_cancelHeld db₁ _ _ _
  · exact ⟨hkeys.water, hkeys.accounts, hkeys.appPasswords, hkeys.oauthGrants⟩
  · intro a d h
    rw [stands_cancelHeld] at h
    simp only [Db.stands, Db.account, haccounts, Bool.and_eq_true] at h ⊢
    exact ⟨h.1, hmono a d h.2⟩
  · intro s _ _ _ hstop
    simp only [HeldBy.stops, beq_iff_eq] at hstop
    rw [stands_cancelHeld, hstop]
    exact .inl (stands_eq_false.2 (.inr hgone))

theorem any_deleteWhere_id (id accountId : Int) (t : List Key) :
    ((deleteWhere (·.id == id) t).any fun k => k.id == id && k.accountId == accountId) = false := by
  rw [List.any_eq_false]
  intro k hk
  have := (mem_deleteWhere.1 hk).2
  simp only [beq_eq_false_iff_ne, ne_eq] at this
  simp [this]

theorem ends_revokeAppPassword {accountId id : Int} (h : revokeAppPassword accountId id db = .ok db') :
    Ends (.credential (.app id)) accountId db db' := by
  unfold revokeAppPassword at h
  split at h
  · cases h
    refine @ends_revoke _ db _ _ _ rfl rfl
      ⟨⟨rfl, rfl, rfl⟩, rfl, (deleteWhere_sublist _ _).subset, List.Subset.refl _⟩ ?_
      (any_deleteWhere_id id accountId db.appPasswords)
    intro a c hc
    rcases c with _ | _ | i | i | i
    · rfl
    · rfl
    · exact any_deleteWhere hc
    · exact hc
    · rfl
  · cases h

theorem ends_revokeOauthGrant {accountId id : Int} (h : revokeOauthGrant accountId id db = .ok db') :
    Ends (.credential (.oauth id)) accountId db db' := by
  unfold revokeOauthGrant at h
  split at h
  · cases h
    refine @ends_revoke _ db _ _ _ rfl rfl
      ⟨⟨rfl, rfl, rfl⟩, rfl, List.Subset.refl _, (deleteWhere_sublist _ _).subset⟩ ?_
      (any_deleteWhere_id id accountId db.oauthGrants)
    intro a c hc
    rcases c with _ | _ | i | i | i
    · rfl
    · rfl
    · exact hc
    · exact any_deleteWhere hc
    · rfl
  · cases h

theorem ends_changePassword {keep : Option String}
    (h : changePassword accountId keep db = .ok db') :
    Ends (.password keep) accountId db db' := by
  unfold changePassword at h
  split at h
  · cases h
    refine ⟨evolves_cancelHeld _ _ _ _, .of_submissions _, fun _ _ h => h, ?_⟩
    intro s hs hheld hacc hstop
    obtain ⟨hmem, hpending⟩ := cancelHeld_held hs hheld hacc hstop
    exact .inr ⟨hmem, hpending, keep, rfl⟩
  · cases h

/-- Writing something into one account is seen by a look-up of that account. -/
theorem account_updateAccount (id a : Int) {f : Account → Account} (hf : ∀ a, (f a).id = a.id)
    (db : Db) : (db.updateAccount id f).account a =
      (db.account a).map fun acc => if acc.id == id then f acc else acc := by
  unfold Db.account Db.updateAccount updateWhere
  simp only
  induction db.accounts with
  | nil => rfl
  | cons b t ih =>
    rw [List.map_cons, List.find?_cons, List.find?_cons]
    have hid : (if (b.id == id) = true then f b else b).id = b.id := by
      split
      · exact hf b
      · rfl
    rw [hid]
    cases hb : b.id == a with
    | true => rfl
    | false => exact ih

theorem account_some {a : Account} (h : db.account id = some a) : a.id = id := by
  simpa using List.find?_some h

theorem credentialStands_updateAccount (id a : Int) (f : Account → Account) (c : Option Credential) :
    (db.updateAccount id f).credentialStands a c = db.credentialStands a c := by
  rcases c with _ | _ | _ | _ | _ <;> rfl

/-- An account that may no longer log in. -/
theorem stands_updateAccount {f : Account → Account} (hf : ∀ a, (f a).id = a.id)
    (hoff : ∀ a, (f a).canLogIn = false) :
    (∀ a c, (db.updateAccount id f).stands a c = true → db.stands a c = true) ∧
      ∀ c, (db.updateAccount id f).stands id c = false := by
  constructor
  · intro a c h
    simp only [Db.stands, Bool.and_eq_true, account_updateAccount id a hf,
      credentialStands_updateAccount] at h ⊢
    refine ⟨?_, h.2⟩
    cases hfind : db.account a with
    | none => simp [hfind] at h
    | some b =>
      by_cases hb : b.id = id
      · simp [hfind, hb, hoff] at h
      · simpa [hfind, hb] using h.1
  · intro c
    simp only [Db.stands, account_updateAccount id id hf]
    cases hfind : db.account id with
    | none => rfl
    | some b => simp [account_some hfind, hoff]

/-- Switching an account off. -/
theorem ends_updateAccount {f : Account → Account} {reason : String}
    (hf : ∀ a, (f a).id = a.id) (hoff : ∀ a, (f a).canLogIn = false) :
    Ends .anyone accountId db
      ((db.updateAccount accountId f).cancelHeld accountId .anyone reason) := by
  obtain ⟨hmono, hnone⟩ := @stands_updateAccount accountId db _ hf hoff
  exact ⟨evolves_cancelHeld (db.updateAccount accountId f) _ _ _,
    ⟨⟨rfl, rfl, rfl⟩, map_updateWhere hf _ _, List.Subset.refl _, List.Subset.refl _⟩, hmono,
    fun s _ _ _ _ => .inl (hnone s.credential)⟩

theorem ends_disable (h : setAccountDisabled accountId true db = .ok db') :
    Ends .anyone accountId db db' := by
  unfold setAccountDisabled at h
  split at h
  · cases h
    exact ends_updateAccount (fun _ => rfl) fun _ => rfl
  · cases h

theorem ends_trash {now accountId : Int} (h : trashAccount now accountId db = .ok db') :
    Ends .anyone accountId db db' := by
  unfold trashAccount at h
  split at h
  · cases h
  rename_i a hacc
  split at h
  · rename_i htrash
    cases h
    refine ⟨.refl _, .of_submissions _, fun _ _ h => h, fun s _ _ _ _ => .inl ?_⟩
    refine stands_eq_false.2 (.inl ?_)
    simp only [hacc, Option.map_some, Option.getD_some, Account.canLogIn]
    simp [Option.isNone_eq_false_iff.2 htrash]
  · cases h
    exact ends_updateAccount (fun _ => rfl) fun a => by simp [Account.canLogIn]

end Rows

/-! ## 4. What a step does -/

/-- What a step leaves of the world, as far as the law asks. -/
structure Did (w w' : World) : Prop where
  rows : Rows w.db w'.db
  /-- What is written newly was held by a request. -/
  new : ∀ s' ∈ w'.db.submissions, (∃ s ∈ w.db.submissions, s.Evolves s') ∨
    ∃ q ∈ w.requests, q.credential = s'.credential
  requests : ∀ q' ∈ w'.requests, (∃ q ∈ w.requests, q.credential = q'.credential) ∨
    w.db.stands q'.accountId q'.credential = true
  ended : ∀ id ∈ w'.ended, id ∈ w.ended ∨ id = w'.db.submissionHighWater ∨
    ∃ s ∈ w.db.submissions, s.id = id
  /-- What is newly taken still had its message. -/
  taken : ∀ c, c ∈ w'.batch ∨ c ∈ w'.handed → (c ∈ w.batch ∨ c ∈ w.handed) ∨
    ((∃ s ∈ w.db.submissions, s.id = c.held.id ∧ s.heldBlob.isSome) ∧
      ∀ s' ∈ w'.db.submissions, s'.id = c.held.id → s'.undoStatus = .final)

variable {w w' : World} {e : Event}

/-- Only the tables change. -/
theorem Did.of_db {db : Db} (h : Rows w.db db)
    (hold : ∀ s' ∈ db.submissions, ∃ s ∈ w.db.submissions, s.Evolves s') : Did w { w with db } :=
  ⟨h, fun s' hs' => .inl (hold s' hs'), fun q hq => .inl ⟨q, hq, rfl⟩, fun _ h => .inl h,
    fun _ h => .inl h⟩

theorem Did.of_evolve {db : Db} (h : RowsEvolve w.db.submissions db.submissions)
    (hkeys : FewerKeys w.db db) : Did w { w with db } :=
  .of_db (.of_evolve h hkeys) fun _ hs' => h.from hs'

/-- A login ends. -/
theorem did_endLogins {stopped : HeldBy} {db : Db}
    (h : Ends stopped accountId w.db db) : Did w (w.endLogins accountId stopped db) := by
  constructor
  · exact .of_evolve h.rows h.keys
  · exact fun s' hs' => .inl (h.rows.from hs')
  · intro q' hq'
    obtain ⟨q, hq, rfl⟩ := List.mem_map.1 hq'
    refine .inl ⟨q, hq, ?_⟩
    split <;> rfl
  · intro id hid
    rcases List.mem_append.1 hid with hid | hid
    · exact .inl hid
    · obtain ⟨s, hs, rfl⟩ := List.mem_map.1 hid
      exact .inr (.inr ⟨s, (List.mem_filter.1 hs).1, rfl⟩)
  · exact fun _ h => .inl h

/-- A request writes its row. -/
theorem did_hold {i : Nat} {q : Request} {new : NewHeldSubmission} {db : Db}
    (hq : w.requests[i]? = some q) (hcred : new.credential = q.credential)
    (h : holdSubmission new w.db = .ok (id, db)) :
    Did w { w with
      db
      requests := w.requests.eraseIdx i
      ended := if q.ended then w.ended ++ [id] else w.ended } := by
  obtain ⟨hrows, hid, rfl, -⟩ := rows_hold h
  constructor
  · exact hrows
  · intro s' hs'
    rcases List.mem_append.1 hs' with hs' | hs'
    · exact .inl ⟨s', hs', .refl s'⟩
    · rw [List.mem_singleton.1 hs']
      exact .inr ⟨q, List.mem_of_getElem? hq, hcred.symm⟩
  · exact fun q' hq' => .inl ⟨q', List.mem_of_mem_eraseIdx hq', rfl⟩
  · intro id' hid'
    simp only at hid'
    split at hid'
    · rcases List.mem_append.1 hid' with hid' | hid'
      · exact .inl hid'
      · exact .inr (.inl (List.mem_singleton.1 hid'))
    · exact .inl hid'
  · exact fun _ h => .inl h

/-- The loop takes what is due. -/
theorem did_claim {now : Int} {limit : Nat} (hu : UniqueKey Submission.id w.db.submissions) :
    Did w { w with
      db := (claimDueSubmissions now limit w.db).2
      batch := (claimDueSubmissions now limit w.db).1.map fun h => ⟨h, decide (h.id ∈ w.ended)⟩ } := by
  obtain ⟨hrows, hdb, -, htaken⟩ := @claim_spec _ now limit hu
  constructor
  · refine .of_evolve hrows ?_
    rw [hdb]
    exact .of_submissions _
  · exact fun s' hs' => .inl (hrows.from hs')
  · exact fun q hq => .inl ⟨q, hq, rfl⟩
  · exact fun _ h => .inl h
  · rintro c (hc | hc)
    · obtain ⟨h, hh, rfl⟩ := List.mem_map.1 hc
      obtain ⟨⟨s, hs, hid, hheld, -⟩, hfinal⟩ := htaken h hh
      exact .inr ⟨⟨s, hs, hid, hheld⟩, hfinal⟩
    · exact .inl (.inr hc)

/-- Handing over touches no table, and hands over the message it is given or none. -/
theorem sendHeld_spec (c : Claimed) (readable : Except String PUnit) (submitted : Outcome) :
    ∃ outcome handed, w.sendHeld c readable submitted = { w with outcome := some outcome, handed } ∧
      (handed = w.handed ∨ handed = c :: w.handed) := by
  unfold World.sendHeld
  split
  · exact ⟨_, _, rfl, .inl rfl⟩
  · split
    · exact ⟨_, _, rfl, .inl rfl⟩
    · split
      · exact ⟨_, _, rfl, .inl rfl⟩
      · exact ⟨_, _, rfl, .inr rfl⟩

theorem did_send {c : Claimed} {batch : List Claimed} {readable : Except String PUnit}
    {submitted : Outcome} (hbatch : w.batch = c :: batch) :
    Did w (w.sendHeld c readable submitted) := by
  obtain ⟨outcome, handed, heq, hhanded⟩ := sendHeld_spec (w := w) c readable submitted
  rw [heq]
  constructor
  · exact .refl _
  · exact fun s hs => .inl ⟨s, hs, .refl s⟩
  · exact fun q hq => .inl ⟨q, hq, rfl⟩
  · exact fun _ h => .inl h
  · rintro d (hd | hd)
    · exact .inl (.inl hd)
    · rcases hhanded with rfl | rfl
      · exact .inl (.inr hd)
      · rcases List.mem_cons.1 hd with rfl | hd
        · exact .inl (.inl (hbatch ▸ List.mem_cons_self))
        · exact .inl (.inr hd)

theorem evolve_finish (id : Int) (queued : Option Int) (error : Option String) (db : Db) :
    RowsEvolve db.submissions (finishHeldSubmission id queued error db).submissions :=
  rowsEvolve_updateWhere fun _ _ _ => ⟨rfl, rfl, rfl, .inl rfl, .inr rfl, fun _ => .inl rfl⟩

theorem did_finish {c : Claimed} {batch : List Claimed} (hbatch : w.batch = c :: batch)
    {db : Db} (h : RowsEvolve w.db.submissions db.submissions) (hkeys : FewerKeys w.db db) :
    Did w { w with db, batch, outcome := none } := by
  obtain ⟨hrows, hnew, hrequests, hended, -⟩ := Did.of_evolve h hkeys
  refine ⟨hrows, hnew, hrequests, hended, ?_⟩
  rintro d (hd | hd)
  · exact .inl (.inl (hbatch ▸ List.mem_cons_of_mem _ hd))
  · exact .inl (.inr hd)

theorem did_updateAccount {f : Account → Account} (hf : ∀ a, (f a).id = a.id) :
    Did w { w with db := w.db.updateAccount id f } :=
  .of_evolve (.refl _)
    ⟨⟨rfl, rfl, rfl⟩, map_updateWhere hf _ _, List.Subset.refl _, List.Subset.refl _⟩

theorem rows_createAppPassword (accountId : Int) (db : Db) : Rows db (createAppPassword accountId db) := by
  obtain ⟨hwater, hold, hunique, haccounts, -, hgrants⟩ := Rows.refl db
  refine ⟨hwater, hold, hunique, haccounts, ⟨by simp [createAppPassword], ?_⟩, hgrants⟩
  intro k hk
  rcases List.mem_append.1 hk with hk | hk
  · exact .inl hk
  · rw [List.mem_singleton.1 hk]
    exact .inr rfl

theorem rows_createOauthGrant (accountId : Int) (db : Db) : Rows db (createOauthGrant accountId db) := by
  obtain ⟨hwater, hold, hunique, haccounts, hkeys, -⟩ := Rows.refl db
  refine ⟨hwater, hold, hunique, haccounts, hkeys, ⟨by simp [createOauthGrant], ?_⟩⟩
  intro k hk
  rcases List.mem_append.1 hk with hk | hk
  · exact .inl hk
  · rw [List.mem_singleton.1 hk]
    exact .inr rfl

/-- What `setAccountDisabled _ false` and `restoreAccount` do: one account is written again. -/
theorem setAccountDisabled_false {db db' : Db}
    (h : setAccountDisabled accountId false db = .ok db') :
    db' = db.updateAccount accountId fun a => { a with disabled := false } := by
  unfold setAccountDisabled at h
  split at h
  · cases h
    rfl
  · cases h

theorem restoreAccount_ok {db db' : Db} (h : restoreAccount accountId db = .ok db') :
    db' = db.updateAccount accountId fun a => { a with deletedAt := none } := by
  unfold restoreAccount at h
  split at h
  · cases h
    rfl
  · cases h

/-- What a step of the whole server does. -/
theorem did_step (hu : UniqueKey Submission.id w.db.submissions) (h : step w e = some w') :
    Did w w' := by
  cases e with
  | check accountId credential =>
    simp only [step] at h
    split at h
    · rename_i hstands
      cases h
      obtain ⟨hrows, hnew, -, hended, htaken⟩ :=
        Did.of_evolve (w := w) (.refl _) (.of_submissions w.db.submissions)
      refine ⟨hrows, hnew, ?_, hended, htaken⟩
      intro q hq
      rcases List.mem_append.1 hq with hq | hq
      · exact .inl ⟨q, hq, rfl⟩
      · rw [List.mem_singleton.1 hq]
        exact .inr hstands
    · cases h
  | hold i identityId emailId threadId envelope sendAt blob =>
    simp only [step, Option.bind_eq_bind, Option.bind_eq_some_iff] at h
    obtain ⟨q, hq, ⟨id, db⟩, hold, h⟩ := h
    cases h
    exact did_hold hq rfl (toOption_some hold)
  | cancel accountId id =>
    simp only [step, Option.map_eq_some_iff] at h
    obtain ⟨db, hdb, rfl⟩ := h
    obtain ⟨hrows, heq⟩ := evolve_cancel hu (toOption_some hdb)
    refine .of_evolve hrows ?_
    rw [heq]
    exact .of_submissions _
  | destroy accountId id =>
    simp only [step, Option.map_eq_some_iff] at h
    obtain ⟨db, hdb, rfl⟩ := h
    obtain ⟨hrows, hsub, -⟩ := rows_destroy (toOption_some hdb)
    exact .of_db hrows fun s hs => ⟨s, hsub.subset hs, .refl s⟩
  | claim now limit =>
    simp only [step] at h
    split at h
    · cases h
      exact did_claim hu
    · cases h
  | send readable submitted =>
    simp only [step] at h
    split at h
    · rename_i hbatch _
      cases h
      exact did_send hbatch
    · cases h
  | finish recorded =>
    simp only [step] at h
    split at h
    · rename_i hbatch _
      cases h
      refine did_finish hbatch ?_ ?_
      · split
        · exact evolve_finish _ _ _ _
        · exact .refl _
      · split
        · exact .of_submissions _
        · exact .of_submissions _
    · cases h
  | restart =>
    simp only [step] at h
    cases h
    refine ⟨.refl _, fun s hs => .inl ⟨s, hs, .refl s⟩, ?_, fun _ h => .inl h, ?_⟩
    · intro q hq
      cases hq
    · rintro c (hc | hc)
      · cases hc
      · exact .inl (.inr hc)
  | createAppPassword accountId =>
    simp only [step] at h
    cases h
    exact .of_db (rows_createAppPassword accountId w.db) fun s hs => ⟨s, hs, .refl s⟩
  | createOauthGrant accountId =>
    simp only [step] at h
    cases h
    exact .of_db (rows_createOauthGrant accountId w.db) fun s hs => ⟨s, hs, .refl s⟩
  | revokeAppPassword accountId id =>
    simp only [step, Option.map_eq_some_iff] at h
    obtain ⟨db, hdb, rfl⟩ := h
    exact did_endLogins (ends_revokeAppPassword (toOption_some hdb))
  | revokeOauthGrant accountId id =>
    simp only [step, Option.map_eq_some_iff] at h
    obtain ⟨db, hdb, rfl⟩ := h
    exact did_endLogins (ends_revokeOauthGrant (toOption_some hdb))
  | changePassword accountId keep =>
    simp only [step, Option.map_eq_some_iff] at h
    obtain ⟨db, hdb, rfl⟩ := h
    exact did_endLogins (ends_changePassword (toOption_some hdb))
  | setDisabled accountId disabled =>
    simp only [step, Option.map_eq_some_iff] at h
    obtain ⟨db, hdb, rfl⟩ := h
    cases disabled with
    | true => exact did_endLogins (ends_disable (toOption_some hdb))
    | false =>
      rw [setAccountDisabled_false (toOption_some hdb)]
      exact did_updateAccount fun _ => rfl
  | trash now accountId =>
    simp only [step, Option.map_eq_some_iff] at h
    obtain ⟨db, hdb, rfl⟩ := h
    exact did_endLogins (ends_trash (toOption_some hdb))
  | restore accountId =>
    simp only [step, Option.map_eq_some_iff] at h
    obtain ⟨db, hdb, rfl⟩ := h
    rw [restoreAccount_ok (toOption_some hdb)]
    exact did_updateAccount fun _ => rfl

/-! ## 5. What holds in every state -/

/-- The credential's id was given to an app password or grant. -/
def Db.given (db : Db) : Option Credential → Prop
  | some (.app id) => id ≤ db.appPasswordHighWater
  | some (.oauth id) => id ≤ db.grantHighWater
  | _ => True

/-- The submissions that are taken or handed over are final, and ids are never used again. -/
structure Inv (w : World) : Prop where
  unique : UniqueKey Submission.id w.db.submissions
  ids : ∀ s ∈ w.db.submissions, s.id ≤ w.db.submissionHighWater
  accounts : ∀ s ∈ w.db.submissions, (w.db.account s.accountId).isSome
  keys : ∀ k ∈ w.db.appPasswords, k.id ≤ w.db.appPasswordHighWater
  grants : ∀ k ∈ w.db.oauthGrants, k.id ≤ w.db.grantHighWater
  given : ∀ s ∈ w.db.submissions, w.db.given s.credential
  requests : ∀ q ∈ w.requests, w.db.given q.credential
  canceled : ∀ s ∈ w.db.submissions, s.undoStatus = .canceled → s.heldBlob = none
  ended : ∀ id ∈ w.ended, id ≤ w.db.submissionHighWater
  taken : ∀ c, c ∈ w.batch ∨ c ∈ w.handed → c.held.id ≤ w.db.submissionHighWater ∧
    ∀ s ∈ w.db.submissions, s.id = c.held.id → s.undoStatus = .final

theorem Rows.given {db db' : Db} (h : Rows db db') {c : Option Credential} (hc : db.given c) :
    db'.given c := by
  rcases c with _ | _ | i | i | i
  · trivial
  · trivial
  · exact le_trans hc h.keys.1
  · exact le_trans hc h.grants.1
  · trivial

/-- A login that stands names a key there is. -/
theorem Inv.given_of_stands (hw : Inv w) {c : Option Credential}
    (h : w.db.stands accountId c = true) : w.db.given c := by
  have hcred := (Bool.and_eq_true_iff.1 h).2
  rcases c with _ | _ | i | i | i
  · trivial
  · trivial
  · obtain ⟨k, hk, hid⟩ := List.any_eq_true.1 hcred
    simp only [Bool.and_eq_true, beq_iff_eq] at hid
    exact hid.1 ▸ hw.keys k hk
  · obtain ⟨k, hk, hid⟩ := List.any_eq_true.1 hcred
    simp only [Bool.and_eq_true, beq_iff_eq] at hid
    exact hid.1 ▸ hw.grants k hk
  · trivial

/-- Final rows stay final. -/
theorem Rows.final {db db' : Db} (h : Rows db db') (hid : id ≤ db.submissionHighWater)
    (hfinal : ∀ s ∈ db.submissions, s.id = id → s.undoStatus = .final) :
    ∀ s' ∈ db'.submissions, s'.id = id → s'.undoStatus = .final := by
  intro s' hs' hs'id
  rcases h.old s' hs' with ⟨s, hs, hev⟩ | ⟨hnew, -⟩
  · have hf := hfinal s hs (hev.id ▸ hs'id)
    rcases hev.status with heq | heq
    · exact heq.trans hf
    · rw [hf] at heq
      cases heq
  · omega

/-- Cancelled rows stay cancelled. -/
theorem Rows.canceled {db db' : Db} (h : Rows db db') (hid : id ≤ db.submissionHighWater)
    (hcanceled : ∀ s ∈ db.submissions, s.id = id → s.undoStatus = .canceled) :
    ∀ s' ∈ db'.submissions, s'.id = id → s'.undoStatus = .canceled := by
  intro s' hs' hs'id
  rcases h.old s' hs' with ⟨s, hs, hev⟩ | ⟨hnew, -⟩
  · have hf := hcanceled s hs (hev.id ▸ hs'id)
    rcases hev.status with heq | heq
    · exact heq.trans hf
    · rw [hf] at heq
      cases heq
  · omega

theorem Inv.did (hw : Inv w) (h : Did w w') : Inv w' where
  unique := h.rows.unique hw.ids hw.unique
  ids := by
    intro s' hs'
    rcases h.rows.old s' hs' with ⟨s, hs, hev⟩ | ⟨-, hid, -⟩
    · exact hev.id ▸ (hw.ids s hs).trans h.rows.water
    · exact hid
  accounts := by
    intro s' hs'
    rcases h.rows.old s' hs' with ⟨s, hs, hev⟩ | ⟨-, -, -, hacc⟩
    · rw [hev.accountId]
      exact h.rows.accounts _ (hw.accounts s hs)
    · exact hacc
  keys := by
    intro k hk
    rcases h.rows.keys.2 k hk with hk | hk
    · exact (hw.keys k hk).trans h.rows.keys.1
    · exact hk.le
  grants := by
    intro k hk
    rcases h.rows.grants.2 k hk with hk | hk
    · exact (hw.grants k hk).trans h.rows.grants.1
    · exact hk.le
  given := by
    intro s' hs'
    rcases h.new s' hs' with ⟨s, hs, hev⟩ | ⟨q, hq, heq⟩
    · rw [hev.credential]
      exact h.rows.given (hw.given s hs)
    · rw [← heq]
      exact h.rows.given (hw.requests q hq)
  requests := by
    intro q' hq'
    rcases h.requests q' hq' with ⟨q, hq, heq⟩ | hstands
    · rw [← heq]
      exact h.rows.given (hw.requests q hq)
    · exact h.rows.given (hw.given_of_stands hstands)
  canceled := by
    intro s' hs' hc
    rcases h.rows.old s' hs' with ⟨s, hs, hev⟩ | ⟨-, -, hpending, -⟩
    · rcases hev.canceled hc with hnone | hcs
      · exact hnone
      · have hnone := hw.canceled s hs hcs
        rcases hev.held with heq | heq
        · exact heq.trans hnone
        · exact heq
    · rw [hc] at hpending
      cases hpending
  ended := by
    intro id hid
    rcases h.ended id hid with hid | rfl | ⟨s, hs, rfl⟩
    · exact (hw.ended id hid).trans h.rows.water
    · exact le_rfl
    · exact (hw.ids s hs).trans h.rows.water
  taken := by
    intro c hc
    rcases h.taken c hc with hc | ⟨⟨s, hs, hid, -⟩, hfinal⟩
    · obtain ⟨hle, hfinal⟩ := hw.taken c hc
      exact ⟨hle.trans h.rows.water, h.rows.final hle hfinal⟩
    · exact ⟨hid ▸ (hw.ids s hs).trans h.rows.water, hfinal⟩

theorem inv_step (w : World) (e : Event) (w' : World) (hw : Inv w) (h : step w e = some w') : Inv w' :=
  hw.did (did_step hw.unique h)

theorem inv_start (accounts : List Account) : Inv (start accounts) := by
  constructor <;> simp [start, UniqueKey]

/-! ## 6. What is canceled, and what is final -/

/-- The submission was cancelled: it is not being handed over and never was. -/
def Canceled (id : Int) (w : World) : Prop :=
  Inv w ∧ id ≤ w.db.submissionHighWater ∧
    (∀ s ∈ w.db.submissions, s.id = id → s.undoStatus = .canceled) ∧
    ∀ c, c ∈ w.batch ∨ c ∈ w.handed → c.held.id ≠ id

theorem canceled_step (id : Int) (w : World) (e : Event) (w' : World) (hw : Canceled id w)
    (h : step w e = some w') : Canceled id w' := by
  obtain ⟨hinv, hid, hcanceled, htaken⟩ := hw
  have hdid := did_step hinv.unique h
  refine ⟨hinv.did hdid, hid.trans hdid.rows.water, hdid.rows.canceled hid hcanceled, ?_⟩
  intro c hc heq
  rcases hdid.taken c hc with hc | ⟨⟨s, hs, hsid, hheld⟩, -⟩
  · exact htaken c hc heq
  · -- A cancelled row has no message to take.
    rw [hinv.canceled s hs (hcanceled s hs (hsid.trans heq))] at hheld
    cases hheld

/-- The submission was taken. -/
def Final (id : Int) (w : World) : Prop :=
  Inv w ∧ id ≤ w.db.submissionHighWater ∧
    ∀ s ∈ w.db.submissions, s.id = id → s.undoStatus = .final

theorem final_step (id : Int) (w : World) (e : Event) (w' : World) (hw : Final id w)
    (h : step w e = some w') : Final id w' := by
  obtain ⟨hinv, hid, hfinal⟩ := hw
  have hdid := did_step hinv.unique h
  exact ⟨hinv.did hdid, hid.trans hdid.rows.water, hdid.rows.final hid hfinal⟩

end UwuMail.Held
