/-
# What the IMAP service needs

`imap.rs`: mailboxes with their UIDs, the messages of one mailbox, flag changes, copying, moving
and expunging, and the UIDs that vanished since a change.

IMAP flags are the email's keywords, so a flag set in IMAP shows in every mailbox the email is
in.  Everything that writes does so through `update_one` and `destroy_one`, inside one batch, and
rolls back as a whole on an error.
-/
import UwuMail.Store.Mutate

namespace UwuMail.Store

open Table

/-! ## 1. What a client is shown -/

/-- The keyword IMAP's `\Deleted` flag is kept as. -/
def deletedKeyword : String := "$deleted"

structure ImapMailbox where
  id : Int
  parentId : Option Int
  name : String
  role : Option MailboxRole
  subscribed : Bool
  uidValidity : U32
  uidNext : U32

/-- A message as a selected mailbox tracks it. -/
structure ImapMessage where
  uid : U32
  emailId : Int
  modseq : Nat
  /-- Sorted. -/
  keywords : List String

/-- The messages of a mailbox, sorted by UID, and the change sequence number they reflect. -/
structure ImapMessages where
  uidValidity : U32
  uidNext : U32
  highestModseq : Nat
  /-- The owner's last change to who sees what, for noticing a share taken back. -/
  sharingModseq : Nat
  messages : List ImapMessage

inductive FlagChange
  | add (flags : List String)
  | remove (flags : List String)
  | replace (flags : List String)

/-- `value.clamp(1, u32::MAX as i64) as u32`. -/
def clampU32 (value : Int) : U32 := asU32 (max 1 (min value 4294967295))

/-- `value as i64` of a `u64`. -/
def asI64 (value : Nat) : Int := Int.bmod value 18446744073709551616

def mailboxRow (r : MailboxRow) : ImapMailbox where
  id := r.id
  parentId := r.parentId
  name := r.name
  role := r.role
  subscribed := r.subscribed
  uidValidity := clampU32 r.uidValidity
  uidNext := clampU32 r.uidNext

def ownMailbox (db : Db) (account mailbox : Int) : Except StoreError ImapMailbox :=
  match db.mailboxes.find? (fun r => r.id == mailbox && r.accountId == account) with
  | some row => .ok (mailboxRow row)
  | none => .error (.notFound s!"mailbox {mailbox}")

/-- `mailbox_modseq`: a mailbox's HIGHESTMODSEQ, the last change to it or to a message in it. -/
def mailboxModseq (db : Db) (mailbox : Int) : Except StoreError Nat :=
  match db.mailbox mailbox with
  | some row => .ok row.updatedModseq.toNat
  | none => .error (.sqlite "Query returned no rows")

/-- `imap_mailboxes`: `ORDER BY sort_order, name, id`. -/
def imapMailboxes (db : Db) (account : Int) : List ImapMailbox :=
  ((db.mailboxes.filter fun r => r.accountId == account).insertionSort fun a b =>
      a.sortOrder < b.sortOrder ∨ a.sortOrder = b.sortOrder ∧
        (a.name < b.name ∨ a.name = b.name ∧ a.id ≤ b.id)).map mailboxRow

/-- The memberships of a mailbox in UID order. -/
def Db.byUid (db : Db) (mailbox : Int) : List MembershipRow :=
  (db.emailMailboxes.filter fun r => r.mailboxId == mailbox).insertionSort fun a b => a.uid ≤ b.uid

def imapMessages (db : Db) (account mailbox : Int) : Except StoreError ImapMessages := do
  let own ← ownMailbox db account mailbox
  let highestModseq ← mailboxModseq db mailbox
  let messages := (db.byUid mailbox).map fun r =>
    { uid := asU32 r.uid, emailId := r.emailId, modseq := r.modseq.toNat,
      keywords := (db.keywordsOf r.emailId).elems : ImapMessage }
  match db.account account with
  | none => throw (.sqlite "Query returned no rows")
  | some row =>
    pure { uidValidity := own.uidValidity, uidNext := own.uidNext, highestModseq,
           sharingModseq := row.sharingModseq.toNat, messages }

/-- `imap_vanished`: UIDs that left a mailbox after the change `since`, in UID order. -/
def imapVanished (db : Db) (account mailbox : Int) (since : Nat) :
    Except StoreError (List U32) := do
  let _ ← ownMailbox db account mailbox
  let gone := db.imapVanished.filter fun r =>
    r.mailboxId == mailbox && decide (r.modseq > asI64 since)
  pure ((gone.insertionSort fun a b => a.uid ≤ b.uid).map fun r => asU32 r.uid)

/-! ## 2. Finding messages by UID -/

/-- `emails_by_uid`: UIDs that are not there are left out; ascending. -/
def emailsByUid (db : Db) (mailbox : Int) (uids : List U32) : List (U32 × Int × Nat) :=
  (SortedSet.ofList uids).elems.filterMap fun uid =>
    (db.emailMailboxes.find? fun r => r.mailboxId == mailbox && r.uid == (uid.val : Int)).map
      fun r => (uid, r.emailId, r.modseq.toNat)

def uidIn (db : Db) (mailbox email : Int) : Option U32 :=
  (db.emailMailboxes.find? fun r => r.mailboxId == mailbox && r.emailId == email).map
    fun r => asU32 r.uid

/-! ## 3. Flags -/

def FlagChange.keywords : FlagChange → KeywordsChange
  | add flags => .patch (flags.map fun flag => (flag, true))
  | remove flags => .patch (flags.map fun flag => (flag, false))
  | replace flags => .replace flags

/-- One turn of the loop of `imap_store_flags`: the UID, if the message was left alone. -/
def storeFlags (ext : Externals) (change : FlagChange) (unchangedSince : Option Nat)
    (entry : U32 × Int × Nat) : TxM (Option U32) :=
  if unchangedSince.any fun since => decide (entry.2.2 > since) then pure (some entry.1)
  else do
    updateOne ext { id := entry.2.1, keywords := change.keywords }
    pure none

/-- `imap_store_flags`.  Messages changed after `unchangedSince` are left alone and returned. -/
def imapStoreFlags (ext : Externals) (account mailbox : Int) (uids : List U32) (change : FlagChange)
    (unchangedSince : Option Nat) (db : Db) : Except StoreError (List U32) × Db :=
  write account (do
    let db := (← get).db
    let _ ← Tx.ofExcept (ownMailbox db account mailbox)
    let skipped ← (emailsByUid db mailbox uids).mapM (storeFlags ext change unchangedSince)
    pure (skipped.filterMap id)) db

/-! ## 4. Copying and moving -/

/-- One turn of the loop of `copy_in`: the pair of source and target UID. -/
def copyOne (ext : Externals) (source target : Int) (removeSource : Bool)
    (entry : U32 × Int × Nat) : TxM (U32 × U32) :=
  if source = target then pure (entry.1, entry.1)
  else do
    let email := entry.2.1
    let db := (← get).db
    let patch := (if (uidIn db target email).isNone then [(target, true)] else []) ++
      (if removeSource then [(source, false)] else [])
    unless patch.isEmpty do updateOne ext { id := email, mailboxes := .patch patch }
    match uidIn (← get).db target email with
    | some uid => pure (entry.1, uid)
    | none => throw (.internal s!"email {email} did not arrive in mailbox {target}")

def copyIn (ext : Externals) (source : Int) (uids : List U32) (target : Int) (removeSource : Bool) :
    TxM (List (U32 × U32)) := do
  (emailsByUid (← get).db source uids).mapM (copyOne ext source target removeSource)

/-- `imap_copy`.  A message that is in the target already keeps its UID there. -/
def imapCopy (ext : Externals) (account source : Int) (uids : List U32) (target : Int)
    (removeSource : Bool) (db : Db) : Except StoreError (List (U32 × U32)) × Db :=
  write account (do
    let _ ← Tx.ofExcept (ownMailbox (← get).db account source)
    let _ ← Tx.ofExcept (ownMailbox (← get).db account target)
    copyIn ext source uids target removeSource) db

/-! ## 5. Expunging -/

/-- The messages of a mailbox `imap_take_out` is about: the UID, the email, and the number of
its mailboxes. -/
def Db.flagged (db : Db) (mailbox : Int) (onlyDeleted : Bool) : List (U32 × Int × Nat) :=
  ((db.byUid mailbox).filter fun r => !onlyDeleted || db.hasKeyword r.emailId deletedKeyword).map
    fun r => (asU32 r.uid, r.emailId, (db.mailboxIdsOf r.emailId).length)

/-- One turn of the loop of `imap_take_out`. -/
def takeOut (ext : Externals) (mailbox : Int) (entry : U32 × Int × Nat) : TxM U32 := do
  if entry.2.2 > 1 then
    updateOne ext { id := entry.2.1, mailboxes := .patch [(mailbox, false)] }
  else destroyOne entry.2.1
  pure entry.1

def imapTakeOut (ext : Externals) (account mailbox : Int) (uids : Option (List U32))
    (onlyDeleted : Bool) (db : Db) : Except StoreError (List U32) × Db :=
  write account (do
    let db := (← get).db
    let _ ← Tx.ofExcept (ownMailbox db account mailbox)
    let wanted := (db.flagged mailbox onlyDeleted).filter fun entry =>
      uids.all fun uids => uids.contains entry.1
    wanted.mapM (takeOut ext mailbox)) db

/-- `imap_expunge`: removes the messages flagged `\Deleted`, only those in `uids` when given.
Messages in no other mailbox are destroyed. -/
def imapExpunge (ext : Externals) (account mailbox : Int) (uids : Option (List U32)) (db : Db) :
    Except StoreError (List U32) × Db :=
  imapTakeOut ext account mailbox uids true db

/-- `imap_remove`: takes messages out whatever their flags. -/
def imapRemove (ext : Externals) (account mailbox : Int) (uids : List U32) (db : Db) :
    Except StoreError (List U32) × Db :=
  imapTakeOut ext account mailbox (some uids) false db

end UwuMail.Store
