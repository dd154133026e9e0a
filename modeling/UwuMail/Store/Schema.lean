/-
# The mail tables

The part of the database that holds mail: `accounts`, `mailboxes`, `threads`, `emails` and what
hangs on them, the change log `changes`, and the UIDs that left a mailbox (`imap_vanished`).
One structure per table, with the columns the modelled code reads or writes, under their SQL
names; `migrations/0001_initial.sql`, `0015_imap.sql`, `0037_mailbox_acl.sql`,
`0041_groups_shared_mailboxes.sql` and `0054_shared_states.sql` declare them.

An SQL `INTEGER` is an `Int`.  The counters (`modseq`, `uid_next`, the row ids) only ever grow by
one, and a table would have to see 2^63 writes before the difference to `i64` showed.

Three columns of `Db` are not tables.  `mailboxSeq`, `threadSeq` and `emailSeq` are SQLite's
`sqlite_sequence`, `accountSeq` is `id_high_water`: ids are never handed out twice.  `assigned`
is a HISTORY variable: every UID `add_to_mailbox` ever gave out.  No function reads it; it is
there to say what "never again" means.
-/
import UwuMail.Lib.SortedSet
import UwuMail.Lib.Table
import UwuMail.Lib.Tx

namespace UwuMail.Store

/-! ## 1. Values -/

inductive MailboxRole
  | inbox | drafts | sent | archive | junk | trash
  deriving DecidableEq

namespace MailboxRole

/-- `MailboxRole::ALL`. -/
def all : List MailboxRole := [inbox, drafts, sent, archive, junk, trash]

/-- Name used when the mailbox is created. -/
def defaultName : MailboxRole → String
  | inbox => "Inbox"
  | drafts => "Drafts"
  | sent => "Sent"
  | archive => "Archive"
  | junk => "Junk"
  | trash => "Trash"

end MailboxRole

/-- The object types of the change log that mail uses. -/
inductive ObjectKind
  | email | thread | mailbox
  deriving DecidableEq

inductive ChangeType
  | created | updated | destroyed
  deriving DecidableEq

structure EmailAddress where
  name : Option String
  email : String

inductive StoreError
  | notFound (what : String)
  | conflict (what : String)
  | invalid (what : String)
  | quotaExceeded
  /-- A rule of the data model was broken; `code` is a stable machine-readable name. -/
  | rule (code message : String)
  | sqlite (what : String)
  | internal (what : String)
  deriving DecidableEq

/-- `u32`, the type of a UID outside the database. -/
abbrev U32 := Fin 4294967296

/-- `value as u32` of an `i64`. -/
def asU32 (value : Int) : U32 := Fin.ofNat 4294967296 (value % 4294967296).toNat

/-! ## 2. Rows -/

structure AccountRow where
  id : Int
  login : String
  /-- `kind = 'service'`: not a person. -/
  service : Bool
  /-- 0 is unlimited. -/
  quotaBytes : Int
  usedBytes : Int
  modseq : Int
  sharingModseq : Int
  sharedMailbox : Bool
  deletedAt : Option Int

structure MailboxRow where
  id : Int
  accountId : Int
  parentId : Option Int
  name : String
  role : Option MailboxRole
  sortOrder : Int
  subscribed : Bool
  uidValidity : Int
  uidNext : Int
  createdModseq : Int
  updatedModseq : Int

structure ThreadRow where
  id : Int
  accountId : Int

structure EmailRow where
  id : Int
  accountId : Int
  threadId : Int
  size : Int
  receivedAt : Int
  sentAt : Option Int
  messageId : Option String
  inReplyTo : List String
  references : List String
  subject : String
  fromAddr : List EmailAddress
  senderAddr : List EmailAddress
  toAddr : List EmailAddress
  ccAddr : List EmailAddress
  bccAddr : List EmailAddress
  replyToAddr : List EmailAddress
  preview : String
  hasAttachment : Bool
  createdModseq : Int
  updatedModseq : Int
  smtpDelivered : Bool

/-- `email_keywords`. -/
structure KeywordRow where
  emailId : Int
  keyword : String
  deriving DecidableEq

/-- `email_mailboxes`: membership, with the UID the message has in that mailbox. -/
structure MembershipRow where
  emailId : Int
  mailboxId : Int
  uid : Int
  modseq : Int
  deriving DecidableEq

/-- `thread_message_ids`: every message id seen in an account, mapped to its thread. -/
structure MessageIdRow where
  accountId : Int
  messageId : String
  threadId : Int

def MessageIdRow.key (r : MessageIdRow) : Int × String := (r.accountId, r.messageId)

/-- `email_fts`; `rowid` is the email's id. -/
structure FtsRow where
  rowid : Int
  subject : String
  addresses : String
  body : String

structure ChangeRow where
  accountId : Int
  modseq : Int
  kind : ObjectKind
  objectId : Int
  change : ChangeType
  deriving DecidableEq

/-- `PRIMARY KEY (account_id, modseq, kind, object_id)`: the kind of change is NOT part of it. -/
def ChangeRow.key (r : ChangeRow) : Int × Int × ObjectKind × Int :=
  (r.accountId, r.modseq, r.kind, r.objectId)

structure VanishedRow where
  mailboxId : Int
  uid : Int
  modseq : Int

def VanishedRow.key (r : VanishedRow) : Int × Int := (r.mailboxId, r.uid)

/-- `mailbox_acl`: a mailbox shared with one person, with RFC 4314 rights letters. -/
structure AclRow where
  mailboxId : Int
  ownerId : Int
  granteeId : Int
  rights : String
  deriving DecidableEq

structure MemberRow where
  accountId : Int
  memberId : Int
  rights : String

/-- One entry of the history variable: the UID an email was given in a mailbox. -/
structure Assignment where
  mailboxId : Int
  uid : Int
  emailId : Int

/-! ## 3. The database -/

structure Db where
  accounts : List AccountRow := []
  mailboxes : List MailboxRow := []
  threads : List ThreadRow := []
  emails : List EmailRow := []
  emailKeywords : List KeywordRow := []
  emailMailboxes : List MembershipRow := []
  threadMessageIds : List MessageIdRow := []
  emailFts : List FtsRow := []
  changes : List ChangeRow := []
  imapVanished : List VanishedRow := []
  mailboxAcl : List AclRow := []
  sharedMailboxMembers : List MemberRow := []
  accountSeq : Int := 0
  mailboxSeq : Int := 0
  threadSeq : Int := 0
  emailSeq : Int := 0
  assigned : List Assignment := []

namespace Db

def account (db : Db) (id : Int) : Option AccountRow := db.accounts.find? (·.id == id)

def mailbox (db : Db) (id : Int) : Option MailboxRow := db.mailboxes.find? (·.id == id)

def email (db : Db) (id : Int) : Option EmailRow := db.emails.find? (·.id == id)

/-- The account's change sequence number. -/
def modseqOf (db : Db) (account : Int) : Option Int := (db.account account).map (·.modseq)

end Db

/-- One modseq for a whole batch, taken on the first actual change. -/
structure Batch where
  accountId : Int
  modseq : Option Int := none

/-- An open write transaction: the tables, and the batch the statements belong to. -/
structure TxState where
  db : Db
  batch : Batch

abbrev TxM (α : Type) := Tx StoreError TxState α

/-- A statement that changes the tables. -/
def statement (f : Db → Db) : TxM PUnit := modify fun tx => { tx with db := f tx.db }

/-- `Store::write`: one immediate transaction, rolled back on an error. -/
def write {α : Type} (accountId : Int) (f : TxM α) (db : Db) : Except StoreError α × Db :=
  let (r, tx) := Tx.atomically f { db, batch := { accountId } }
  (r, tx.db)

end UwuMail.Store
