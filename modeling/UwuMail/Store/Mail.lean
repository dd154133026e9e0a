/-
# Mailboxes, message ingestion, threading

`mail.rs`, and of `directory.rs` the part of `create_account` that gives a new account its six
mailboxes.  Reading a message (`parse::read`) and lowercasing text belong to `mail-parser` and to
Rust's Unicode tables; they are fields of `Externals`, and nothing below asks anything of them.

`ingest_marked` is split where the source splits it: `ingestPrepare` is what happens before the
transaction, `ingestWrite` the transaction, whose writes are `Db.storeEmail` in the order of the
source.
-/
import UwuMail.Store.Db

namespace UwuMail.Store

open Table

/-! ## 1. What the store is given -/

/-- What `parse::read` finds in a message. -/
structure EmailMeta where
  messageId : Option String := none
  inReplyTo : List String := []
  references : List String := []
  subject : String := ""
  fromAddr : List EmailAddress := []
  senderAddr : List EmailAddress := []
  toAddr : List EmailAddress := []
  ccAddr : List EmailAddress := []
  bccAddr : List EmailAddress := []
  replyToAddr : List EmailAddress := []
  sentAt : Option Int := none
  preview : String := ""
  hasAttachment : Bool := false
  searchAddresses : String := ""
  searchBody : String := ""

/-- `meta.message_id.iter().chain(&meta.in_reply_to).chain(&meta.references)`. -/
def EmailMeta.messageIds (info : EmailMeta) : List String :=
  info.messageId.toList ++ info.inReplyTo ++ info.references

/-- Code outside the store that it calls. -/
structure Externals where
  /-- `str::to_lowercase`. -/
  toLowercase : String → String
  /-- How `format!("{:?}")` prints a text. -/
  debug : String → String
  /-- `parse::read`: what the message says, or the fault it is refused for. -/
  read : List UInt8 → Except String EmailMeta

inductive MailboxTarget
  | role (r : MailboxRole)
  | id (n : Int)

structure IngestRequest where
  accountId : Int
  raw : List UInt8
  /-- At least one. -/
  mailboxes : List MailboxTarget
  keywords : List String
  /-- Defaults to now. -/
  receivedAt : Option Int

structure IngestedEmail where
  id : Int
  threadId : Int
  mailboxIds : List Int
  /-- UID in the first mailbox. -/
  uid : Int
  size : Int

structure NewAccount where
  login : String
  service : Bool
  quotaBytes : Int
  /-- `Protocols::has_mailbox`: a service that only sends has no folders. -/
  hasMailbox : Bool

def rule (code message : String) : StoreError := .rule code message

/-! ## 2. Keywords -/

/-- The most keywords (flags and labels) one email may have. -/
def maxKeywordsPerEmail : Nat := 100

/-- Whether a keyword may be stored: 1 to 255 IMAP atom characters, that is printable ASCII
without space, `( ) { ] % * " \`. -/
def validKeyword (keyword : String) : Bool :=
  keyword != "" && decide (keyword.utf8ByteSize ≤ 255) &&
    keyword.toList.all fun c =>
      decide (0x21 ≤ c.toNat) && decide (c.toNat ≤ 0x7e) &&
        !(['(', ')', ']', '\x7b', '%', '*', '"', '\\'].contains c)

/-! ## 3. Default mailboxes -/

/-- The row of a default mailbox; `order` counts from 0. -/
def defaultMailbox (account uidValidity modseq : Int) (role : MailboxRole) (order : Nat) :
    MailboxRow where
  id := 0
  accountId := account
  parentId := none
  name := role.defaultName
  role := some role
  sortOrder := order + 1
  subscribed := true
  uidValidity
  uidNext := 1
  createdModseq := modseq
  updatedModseq := modseq

/-- `INSERT INTO mailboxes` and the row of the change log that belongs to it. -/
def Db.addMailbox (account modseq : Int) (row : MailboxRow) (db : Db) : Db :=
  let db := db.insertMailbox row
  db.recordChange account modseq .mailbox db.mailboxSeq .created

def createDefaultMailboxes (account now : Int) : TxM PUnit := do
  let modseq ← nextModseq account
  statement fun db =>
    MailboxRole.all.zipIdx.foldl
      (fun db p => db.addMailbox account modseq (defaultMailbox account now modseq p.1 p.2)) db

def Db.insertAccount (new : NewAccount) (db : Db) : Db :=
  let row : AccountRow :=
    { id := db.accountSeq + 1, login := new.login, service := new.service,
      quotaBytes := new.quotaBytes, usedBytes := 0, modseq := 0, sharingModseq := 0,
      sharedMailbox := false, deletedAt := none }
  { db with accounts := db.accounts ++ [row], accountSeq := db.accountSeq + 1 }

def createAccount (new : NewAccount) (now : Int) (db : Db) : Except StoreError Int × Db :=
  if new.quotaBytes < 0 then (.error (.invalid "the quota cannot be negative"), db)
  else write (db.accountSeq + 1) (do
    if (← get).db.accounts.any (fun r => r.login == new.login) then
      throw (.conflict s!"address {new.login}")
    statement (Db.insertAccount new)
    let id := (← get).db.accountSeq
    if new.hasMailbox then createDefaultMailboxes id now
    pure id) db

/-! ## 4. Finding mailboxes and threads -/

namespace MailboxTarget

/-- How `format!("{:?}")` prints a target. -/
def debug : MailboxTarget → String
  | role .inbox => "Role(Inbox)"
  | role .drafts => "Role(Drafts)"
  | role .sent => "Role(Sent)"
  | role .archive => "Role(Archive)"
  | role .junk => "Role(Junk)"
  | role .trash => "Role(Trash)"
  | id n => s!"Id({n})"

def isFor (target : MailboxTarget) (account : Int) (r : MailboxRow) : Bool :=
  r.accountId == account &&
    match target with
    | role wanted => r.role == some wanted
    | id n => r.id == n

end MailboxTarget

def resolveMailbox (db : Db) (account : Int) (target : MailboxTarget) : Except StoreError Int :=
  match db.mailboxes.find? (target.isFor account) with
  | some r => .ok r.id
  | none => .error (.notFound s!"mailbox {target.debug} of account {account}")

def resolveMailboxes (db : Db) (account : Int) (targets : List MailboxTarget) :
    Except StoreError (List Int) := do
  let ids ← targets.mapM (resolveMailbox db account)
  let ids := ids.eraseDups
  if ids.isEmpty then throw (.invalid "an email needs at least one mailbox")
  pure ids

/-- `thread_for`, the looking up: any known message id the message references (or that
references it) wins.  `none` starts a new thread. -/
def Db.threadFor (db : Db) (account : Int) (info : EmailMeta) : Option Int :=
  info.messageIds.findSome? fun messageId =>
    (db.threadMessageIds.find? fun r => r.key == (account, messageId)).map (·.threadId)

/-! ## 5. Storing a message -/

/-- Puts an email into a mailbox with the next UID of that mailbox.  The callers have looked the
mailbox up in the same transaction. -/
def Db.addToMailbox (email mailbox modseq : Int) (db : Db) : Db :=
  match db.mailbox mailbox with
  | none => db
  | some row =>
    let member : MembershipRow := ⟨email, mailbox, row.uidNext, modseq⟩
    let given : Assignment := ⟨mailbox, row.uidNext, email⟩
    { db with
        emailMailboxes := db.emailMailboxes ++ [member]
        assigned := db.assigned ++ [given] }
      |>.updateMailboxes (fun r => r.id == mailbox)
        fun r => { r with uidNext := r.uidNext + 1, updatedModseq := modseq }

/-- A message that passed the checks before the transaction. -/
structure Incoming where
  accountId : Int
  mailboxes : List MailboxTarget
  keywords : List String
  size : Int
  info : EmailMeta
  receivedAt : Int
  smtpDelivered : Bool

/-- The row of `emails`; its id is the next one of the table. -/
def Incoming.row (p : Incoming) (threadId modseq : Int) : EmailRow where
  id := 0
  accountId := p.accountId
  threadId
  size := p.size
  receivedAt := p.receivedAt
  sentAt := p.info.sentAt
  messageId := p.info.messageId
  inReplyTo := p.info.inReplyTo
  references := p.info.references
  subject := p.info.subject
  fromAddr := p.info.fromAddr
  senderAddr := p.info.senderAddr
  toAddr := p.info.toAddr
  ccAddr := p.info.ccAddr
  bccAddr := p.info.bccAddr
  replyToAddr := p.info.replyToAddr
  preview := p.info.preview
  hasAttachment := p.info.hasAttachment
  createdModseq := modseq
  updatedModseq := modseq
  smtpDelivered := p.smtpDelivered

/-- One turn of the loop over the mailboxes a message is stored in. -/
def Db.storeIn (account modseq email : Int) (db : Db) (mailbox : Int) : Db :=
  (db.addToMailbox email mailbox modseq).recordChange account modseq .mailbox mailbox .updated

/-- `INSERT INTO email_fts`. -/
def Db.insertFts (email : Int) (info : EmailMeta) (db : Db) : Db :=
  let row : FtsRow := ⟨email, info.subject, info.searchAddresses, info.searchBody⟩
  { db with emailFts := db.emailFts ++ [row] }

/-- `UPDATE accounts SET used_bytes = used_bytes + ?1`. -/
def Db.addUsed (account size : Int) (db : Db) : Db :=
  db.updateAccount account fun r => { r with usedBytes := r.usedBytes + size }

/-- What `ingest_marked` writes once `modseq` is taken. -/
def Db.storeEmail (p : Incoming) (mailboxIds : List Int) (modseq : Int) (db : Db) : Db :=
  let found := db.threadFor p.accountId p.info
  let threadId := found.getD (db.threadSeq + 1)
  let emailId := db.emailSeq + 1
  let db := if found.isSome then db else db.insertThread p.accountId
  let db := db.insertEmail (p.row threadId modseq)
  let db := mailboxIds.foldl (Db.storeIn p.accountId modseq emailId) db
  let db := p.keywords.foldl (fun db keyword => db.insertKeyword emailId keyword) db
  let db := p.info.messageIds.foldl (fun db m => db.insertMessageId p.accountId threadId m) db
  let db := db.insertFts emailId p.info
  let db := db.addUsed p.accountId p.size
  let db := db.recordChange p.accountId modseq .email emailId .created
  db.recordChange p.accountId modseq .thread threadId (if found.isSome then .updated else .created)

/-- What `ingest_marked` does before its transaction. -/
def ingestPrepare (ext : Externals) (now : Int) (request : IngestRequest) (smtpDelivered : Bool)
    (db : Db) : Except StoreError Incoming := do
  let keywords := request.keywords.map ext.toLowercase
  if let some bad := keywords.find? (fun keyword => !validKeyword keyword) then
    throw (rule "invalidProperties" s!"{ext.debug bad} is not a valid keyword")
  let keywords := keywords.eraseDups.take maxKeywordsPerEmail
  let size : Int := request.raw.length
  let some account := db.account request.accountId
    | throw (.notFound s!"account {request.accountId}")
  unless account.quotaBytes = 0 ∨ account.usedBytes + size ≤ account.quotaBytes do
    throw .quotaExceeded
  match ext.read request.raw with
  | .error fault => throw (rule "invalidEmail" fault)
  | .ok info =>
    pure { accountId := request.accountId, mailboxes := request.mailboxes, keywords, size, info,
           receivedAt := request.receivedAt.getD now, smtpDelivered }

/-- The transaction of `ingest_marked`. -/
def ingestWrite (p : Incoming) : TxM IngestedEmail := do
  let some account := (← get).db.account p.accountId | throw (.sqlite "Query returned no rows")
  -- Re-check inside the transaction; concurrent deliveries may have used the space.
  if account.quotaBytes > 0 ∧ account.usedBytes + p.size > account.quotaBytes then
    throw .quotaExceeded
  let mailboxIds ← Tx.ofExcept (resolveMailboxes (← get).db p.accountId p.mailboxes)
  let modseq ← nextModseq p.accountId
  let db := (← get).db
  statement (Db.storeEmail p mailboxIds modseq)
  pure { id := db.emailSeq + 1
         threadId := (db.threadFor p.accountId p.info).getD (db.threadSeq + 1)
         mailboxIds
         uid := ((mailboxIds.head?.bind db.mailbox).map (·.uidNext)).getD 0
         size := p.size }

def ingestMarked (ext : Externals) (now : Int) (request : IngestRequest) (smtpDelivered : Bool)
    (db : Db) : Except StoreError IngestedEmail × Db :=
  match ingestPrepare ext now request smtpDelivered db with
  | .error e => (.error e, db)
  | .ok p => write p.accountId (ingestWrite p) db

/-! ## 6. Mailboxes as clients see them -/

namespace Db

/-- The emails of a mailbox. -/
def emailIdsIn (db : Db) (mailbox : Int) : List Int :=
  (db.emailMailboxes.filter fun r => r.mailboxId == mailbox).map (·.emailId)

def hasKeyword (db : Db) (email : Int) (keyword : String) : Bool :=
  db.emailKeywords.contains ⟨email, keyword⟩

end Db

end UwuMail.Store
