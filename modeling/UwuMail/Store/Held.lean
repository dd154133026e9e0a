/-
# Submissions that wait before they go

The transactions of `held.rs`: JMAP's undo window and send later keep a message with its release
time in `email_submissions`, and the JMAP service hands it to SMTP when its time comes.

A row is `pending` while it can be cancelled, `canceled` when it was, and `final` once it was taken
to be handed over.  It keeps its message (`heldBlob`) until the handing over was RECORDED, so one
that was taken and not finished is taken again.

A submission names the login that held it.  Where a login ends, `cancel_held` stops the rows that
are there and still pending; `HELD_STILL_VALID` is asked again when a row is taken.  Change numbers
and the JMAP change log are left out.
-/
import UwuMail.Store.Schema
import UwuMail.Lib.Table

namespace UwuMail.Held

open Store (StoreError)
open Table

/-! ## 1. Rows -/

/-- Which login made a request, as push subscriptions name it. -/
inductive Credential
  | password
  | app (id : Int)
  | oauth (grant : Int)
  | session (hash : String)
  deriving DecidableEq

inductive UndoStatus
  | pending
  | final
  | canceled
  deriving DecidableEq

structure Account where
  id : Int
  disabled : Bool := false
  deletedAt : Option Int := none

def Account.canLogIn (a : Account) : Bool := !a.disabled && a.deletedAt.isNone

/-- A row of `app_passwords` or `oauth_grants`: whose it is. -/
structure Key where
  id : Int
  accountId : Int

structure Submission where
  id : Int
  accountId : Int
  identityId : Int
  emailId : Int
  threadId : Int
  envelope : String
  sendAt : Int
  undoStatus : UndoStatus
  heldBlob : Option String
  queueMessageId : Option Int := none
  releaseError : Option String := none
  /-- `none` counts as the account password. -/
  credential : Option Credential

structure Db where
  accounts : List Account := []
  appPasswords : List Key := []
  oauthGrants : List Key := []
  submissions : List Submission := []
  /-- The highest id a row ever had, of each of the three tables. -/
  appPasswordHighWater : Int := 0
  grantHighWater : Int := 0
  submissionHighWater : Int := 0

def Db.account (db : Db) (id : Int) : Option Account := db.accounts.find? fun a => a.id == id

/-- `BlobHash::parse`. -/
def isBlobHash (value : String) : Bool :=
  value.toList.length == 64 && value.toList.all fun c => c.isDigit || ('a' ≤ c && c ≤ 'f')

/-! ## 2. Why a message was not sent -/

def notSentLoginEnded : String :=
  "not sent: the login that scheduled it was revoked, or the account may no longer log in"

def notSentDisabled : String := "not sent: the account was disabled or moved to the trash"

def notSentPassword : String := "not sent: the password changed after it was scheduled"

def notSentRevoked : String := "not sent: the app password or app that scheduled it was revoked"

/-! ## 3. Ending a login -/

/-- Which waiting submissions of an account `cancel_held` stops. -/
inductive HeldBy
  | anyone
  | credential (c : Credential)
  /-- Those of the password and of webmail sessions, except the session that changed it. -/
  | password (keep : Option String)

def HeldBy.stops : HeldBy → Option Credential → Bool
  | .anyone, _ => true
  | .credential c, held => held == some c
  | .password _, none => true
  | .password _, some .password => true
  | .password keep, some (.session hash) => keep != some hash
  | .password _, some _ => false

def Db.cancelHeld (db : Db) (accountId : Int) (stopped : HeldBy) (reason : String) : Db :=
  { db with
    submissions := updateWhere
      (fun s => s.accountId == accountId && s.undoStatus == .pending && s.heldBlob.isSome &&
        stopped.stops s.credential)
      (fun s => { s with undoStatus := .canceled, heldBlob := none, releaseError := some reason })
      db.submissions }

/-- Whether the app password or OAuth app a submission was held with is still there. -/
def Db.credentialStands (db : Db) (accountId : Int) : Option Credential → Bool
  | some (.app id) => db.appPasswords.any fun k => k.id == id && k.accountId == accountId
  | some (.oauth id) => db.oauthGrants.any fun k => k.id == id && k.accountId == accountId
  | _ => true

/-- `HELD_STILL_VALID`, for the account `a` of the submission. -/
def Db.heldStillValid (db : Db) (a : Account) (s : Submission) : Bool :=
  a.canLogIn && db.credentialStands s.accountId s.credential

/-- What the joined query finds of a submission whose login no longer stands. -/
def Db.loginEnded (db : Db) (s : Submission) : Bool :=
  match db.account s.accountId with
  | some a => !db.heldStillValid a s
  | none => false

def revokeAppPassword (accountId id : Int) (db : Db) : Except StoreError Db :=
  if db.appPasswords.any fun k => k.id == id && k.accountId == accountId then
    let db := { db with appPasswords := deleteWhere (·.id == id) db.appPasswords }
    .ok (db.cancelHeld accountId (.credential (.app id)) notSentRevoked)
  else .error (.notFound s!"app password {id}")

/-- `forget_grant`, as revoking an OAuth app comes to it. -/
def revokeOauthGrant (accountId id : Int) (db : Db) : Except StoreError Db :=
  if db.oauthGrants.any fun k => k.id == id && k.accountId == accountId then
    let db := { db with oauthGrants := deleteWhere (·.id == id) db.oauthGrants }
    .ok (db.cancelHeld accountId (.credential (.oauth id)) notSentRevoked)
  else .error (.notFound s!"OAuth grant {id}")

/-- What `set_password`, `use_password_link` (no session) and `change_password` (the session that
asked) do to held mail. -/
def changePassword (accountId : Int) (keep : Option String) (db : Db) : Except StoreError Db :=
  if db.accounts.any fun a => a.id == accountId then
    .ok (db.cancelHeld accountId (.password keep) notSentPassword)
  else .error (.notFound s!"account {accountId}")

/-- `UPDATE accounts SET .. WHERE id`. -/
def Db.updateAccount (db : Db) (id : Int) (f : Account → Account) : Db :=
  { db with accounts := updateWhere (·.id == id) f db.accounts }

def setAccountDisabled (accountId : Int) (disabled : Bool) (db : Db) : Except StoreError Db :=
  if db.accounts.any fun a => a.id == accountId then
    let db := db.updateAccount accountId fun a => { a with disabled }
    .ok (if disabled then db.cancelHeld accountId .anyone notSentDisabled else db)
  else .error (.notFound s!"account {accountId}")

def trashAccount (now accountId : Int) (db : Db) : Except StoreError Db :=
  match db.account accountId with
  | none => .error (.notFound s!"account {accountId}")
  | some a =>
    if a.deletedAt.isSome then .ok db else
    let db := db.updateAccount accountId fun a => { a with deletedAt := some now }
    .ok (db.cancelHeld accountId .anyone notSentDisabled)

def restoreAccount (accountId : Int) (db : Db) : Except StoreError Db :=
  if db.accounts.any fun a => a.id == accountId then
    .ok (db.updateAccount accountId fun a => { a with deletedAt := none })
  else .error (.notFound s!"account {accountId}")

/-! ## 4. Logins that begin -/

/-- A new app password, under the next id, which is never used again. -/
def createAppPassword (accountId : Int) (db : Db) : Db :=
  { db with
    appPasswords := db.appPasswords ++ [⟨db.appPasswordHighWater + 1, accountId⟩]
    appPasswordHighWater := db.appPasswordHighWater + 1 }

/-- A new OAuth grant. -/
def createOauthGrant (accountId : Int) (db : Db) : Db :=
  { db with
    oauthGrants := db.oauthGrants ++ [⟨db.grantHighWater + 1, accountId⟩]
    grantHighWater := db.grantHighWater + 1 }

/-! ## 5. The life of a submission -/

/-- What a new held submission is. -/
structure NewHeldSubmission where
  accountId : Int
  identityId : Int
  emailId : Int
  threadId : Int
  envelope : String
  sendAt : Int
  blob : String
  credential : Option Credential

/-- The row of a new held submission. -/
def NewHeldSubmission.row (new : NewHeldSubmission) (id : Int) : Submission :=
  { id, accountId := new.accountId, identityId := new.identityId, emailId := new.emailId,
    threadId := new.threadId, envelope := new.envelope, sendAt := new.sendAt, undoStatus := .pending,
    heldBlob := some new.blob, credential := new.credential }

/-- `hold_submission`.  It does not look at the login again. -/
def holdSubmission (new : NewHeldSubmission) (db : Db) : Except StoreError (Int × Db) :=
  if db.accounts.any fun a => a.id == new.accountId then
    let id := db.submissionHighWater + 1
    .ok (id, { db with submissions := db.submissions ++ [new.row id], submissionHighWater := id })
  else .error (.notFound s!"account {new.accountId}")

def cancelSubmission (accountId id : Int) (db : Db) : Except StoreError Db :=
  match db.submissions.find? fun s => s.id == id && s.accountId == accountId with
  | none => .error (.notFound s!"submission {id}")
  | some s =>
    match s.undoStatus with
    | .canceled => .ok db
    | .final => .error (.rule "cannotUnsend" "the message was already sent")
    | .pending => .ok { db with
        submissions := updateWhere (·.id == id)
          (fun s => { s with undoStatus := .canceled, heldBlob := none }) db.submissions }

def destroySubmission (accountId id : Int) (db : Db) : Except StoreError Db :=
  if db.submissions.any fun s => s.id == id && s.accountId == accountId then
    .ok { db with submissions := deleteWhere (fun s => s.id == id && s.accountId == accountId) db.submissions }
  else .error (.notFound s!"submission {id}")

/-- A held submission whose time has come, as it is handed over. -/
structure HeldSubmission where
  id : Int
  accountId : Int
  envelope : String
  blob : String

/-- Kept, due, and not cancelled. -/
def Submission.due (now : Int) (s : Submission) : Bool :=
  s.heldBlob.isSome && (s.undoStatus == .final || decide (s.sendAt ≤ now)) && s.undoStatus != .canceled

/-- A due submission whose login no longer stands is let go. -/
def Submission.letGo (s : Submission) : Submission :=
  { s with
    undoStatus := if s.undoStatus = .pending then .canceled else s.undoStatus
    heldBlob := none
    releaseError := some notSentLoginEnded }

/-- A submission is taken: it can no longer be cancelled. -/
def Submission.claim (s : Submission) : Submission :=
  let s := { s with undoStatus := if s.undoStatus = .pending then .final else s.undoStatus }
  if (s.heldBlob.map isBlobHash).getD true then s
  else { s with heldBlob := none, releaseError := some "the message was lost" }

/-- What a taken submission is handed over as. -/
def Submission.handed (s : Submission) : Option HeldSubmission :=
  match s.heldBlob with
  | some blob => if isBlobHash blob then some ⟨s.id, s.accountId, s.envelope, blob⟩ else none
  | none => none

/-- The rows of due submissions whose login no longer stands let go of their message. -/
def Db.letGoStale (db : Db) (now : Int) : Db :=
  { db with
    submissions := updateWhere (fun s => s.due now && db.loginEnded s) Submission.letGo db.submissions }

/-- The due submissions, the oldest first. -/
def Db.dueSubmissions (db : Db) (now : Int) (limit : Nat) : List Submission :=
  ((db.submissions.filter (Submission.due now)).insertionSort
    fun s t => s.sendAt < t.sendAt ∨ (s.sendAt = t.sendAt ∧ s.id ≤ t.id)).take limit

def claimDueSubmissions (now : Int) (limit : Nat) (db : Db) : List HeldSubmission × Db :=
  let db := db.letGoStale now
  let due := db.dueSubmissions now limit
  (due.filterMap Submission.handed,
    { db with
      submissions := updateWhere (fun s => due.any fun d => d.id == s.id) Submission.claim db.submissions })

/-- `finish_held_submission`.  One that was destroyed meanwhile has nothing left to record. -/
def finishHeldSubmission (id : Int) (queueMessageId : Option Int) (error : Option String) (db : Db) : Db :=
  { db with
    submissions := updateWhere (·.id == id)
      (fun s => { s with heldBlob := none, queueMessageId, releaseError := error }) db.submissions }

/-! ## 6. How a row may change -/

/-- A row keeps its id, account, login and time; its status changes only while it is pending; and
its message only goes. -/
structure Submission.Evolves (s s' : Submission) : Prop where
  id : s'.id = s.id
  accountId : s'.accountId = s.accountId
  credential : s'.credential = s.credential
  status : s'.undoStatus = s.undoStatus ∨ s.undoStatus = .pending
  held : s'.heldBlob = s.heldBlob ∨ s'.heldBlob = none
  canceled : s'.undoStatus = .canceled → s'.heldBlob = none ∨ s.undoStatus = .canceled

theorem Submission.Evolves.refl (s : Submission) : s.Evolves s :=
  ⟨rfl, rfl, rfl, .inl rfl, .inl rfl, .inr⟩

theorem Submission.Evolves.trans {s s' s'' : Submission} (h : s.Evolves s') (h' : s'.Evolves s'') :
    s.Evolves s'' where
  id := h'.id.trans h.id
  accountId := h'.accountId.trans h.accountId
  credential := h'.credential.trans h.credential
  status := by
    rcases h.status with hs | hs
    · rw [← hs]
      exact h'.status
    · exact .inr hs
  held := by
    rcases h'.held with hs | hs
    · rw [hs]
      exact h.held
    · exact .inr hs
  canceled := by
    intro hc
    rcases h'.canceled hc with hs | hs
    · exact .inl hs
    rcases h.canceled hs with hs | hs
    · rcases h'.held with heq | heq
      · exact .inl (heq.trans hs)
      · exact .inl heq
    · exact .inr hs

/-- A message that is still kept was kept before. -/
theorem Submission.Evolves.held_of_isSome {s s' : Submission} (h : s.Evolves s')
    (hs : s'.heldBlob.isSome) : s.heldBlob.isSome := by
  rcases h.held with heq | heq
  · rwa [← heq]
  · rw [heq] at hs
    cases hs

theorem evolves_letGo (s : Submission) : s.Evolves s.letGo := by
  refine ⟨rfl, rfl, rfl, ?_, .inr rfl, fun _ => .inl rfl⟩
  cases hs : s.undoStatus <;> simp [Submission.letGo, hs]

theorem evolves_claim (s : Submission) : s.Evolves s.claim := by
  unfold Submission.claim
  simp only
  split <;> constructor <;> cases hs : s.undoStatus <;> simp

/-- A taken row that was not cancelled is final. -/
theorem claim_final {s : Submission} (h : s.undoStatus ≠ .canceled) : s.claim.undoStatus = .final := by
  unfold Submission.claim
  simp only
  cases hs : s.undoStatus with
  | pending => split <;> rfl
  | final => split <;> simp
  | canceled => exact absurd hs h

/-- The rows of one state are those of another, each changed as a row may change. -/
def RowsEvolve (t t' : List Submission) : Prop := List.Forall₂ Submission.Evolves t t'

theorem RowsEvolve.refl (t : List Submission) : RowsEvolve t t :=
  List.forall₂_same.2 fun s _ => .refl s

theorem RowsEvolve.trans {t t' t'' : List Submission} (h : RowsEvolve t t') (h' : RowsEvolve t' t'') :
    RowsEvolve t t'' := by
  induction h generalizing t'' with
  | nil => exact h'
  | cons hs _ ih =>
    cases h' with
    | cons hs' h' => exact .cons (hs.trans hs') (ih h')

theorem rowsEvolve_updateWhere {p : Submission → Bool} {f : Submission → Submission}
    {t : List Submission} (hf : ∀ s ∈ t, p s = true → s.Evolves (f s)) :
    RowsEvolve t (updateWhere p f t) := by
  unfold RowsEvolve updateWhere
  rw [List.forall₂_map_right_iff]
  refine List.forall₂_same.2 ?_
  intro s hs
  by_cases h : p s = true
  · rw [if_pos h]
    exact hf s hs h
  · rw [if_neg h]
    exact .refl s

theorem RowsEvolve.map_id {t t' : List Submission} (h : RowsEvolve t t') :
    t'.map Submission.id = t.map Submission.id := by
  induction h with
  | nil => rfl
  | cons hs _ ih => rw [List.map_cons, List.map_cons, ih, hs.id]

theorem RowsEvolve.unique {t t' : List Submission} (h : RowsEvolve t t')
    (hu : UniqueKey Submission.id t) : UniqueKey Submission.id t' := by
  unfold UniqueKey
  rw [h.map_id]
  exact hu

/-- Where a row comes from. -/
theorem RowsEvolve.from {t t' : List Submission} (h : RowsEvolve t t') {s' : Submission}
    (hs' : s' ∈ t') : ∃ s ∈ t, s.Evolves s' := by
  induction h with
  | nil => cases hs'
  | cons hs _ ih =>
    rcases List.mem_cons.1 hs' with rfl | hs'
    · exact ⟨_, List.mem_cons_self, hs⟩
    · obtain ⟨s, hmem, hev⟩ := ih hs'
      exact ⟨s, List.mem_cons_of_mem _ hmem, hev⟩

theorem evolves_cancelHeld (db : Db) (accountId : Int) (stopped : HeldBy) (reason : String) :
    RowsEvolve db.submissions (db.cancelHeld accountId stopped reason).submissions := by
  refine rowsEvolve_updateWhere ?_
  intro s _ hs
  simp only [Bool.and_eq_true, beq_iff_eq] at hs
  exact ⟨rfl, rfl, rfl, .inr hs.1.1.2, .inr rfl, fun _ => .inl rfl⟩

/-- A row that is stopped keeps its message only when it was already final. -/
theorem cancelHeld_held {db : Db} {accountId : Int} {stopped : HeldBy} {reason : String}
    {s : Submission} (hs : s ∈ (db.cancelHeld accountId stopped reason).submissions)
    (hheld : s.heldBlob.isSome) (hacc : s.accountId = accountId) (hstop : stopped.stops s.credential) :
    s ∈ db.submissions ∧ s.undoStatus ≠ .pending := by
  obtain ⟨s₀, hs₀, hrow⟩ := mem_updateWhere.1 hs
  split at hrow
  · rw [← hrow] at hheld
    cases hheld
  · rename_i hno
    subst hrow
    refine ⟨hs₀, ?_⟩
    intro hpending
    simp [hpending, hheld, hacc, hstop] at hno

end UwuMail.Held
