/-
# Statements and triggers

`db.rs`, with what the schema does by itself.  Each definition is ONE statement the store
executes, as a function of the tables: the cascades of its foreign keys and the triggers that
fire on it are part of it.

Two of them carry the whole synchronisation machinery.  `Db.recordChange` writes a row of the
change log and moves the HIGHESTMODSEQ of the mailboxes the change shows in; its `INSERT OR
IGNORE` keeps the FIRST row of an object at a modseq.  `Db.deleteEmailMailboxes` is the only way
a membership goes, so the trigger that remembers the UID (`imap_vanished`) is inside it.
-/
import UwuMail.Store.Schema

namespace UwuMail.Store

open Table

namespace Db

/-! ## 1. Updates of single tables -/

def updateAccount (id : Int) (f : AccountRow → AccountRow) (db : Db) : Db :=
  { db with accounts := updateWhere (fun r => r.id == id) f db.accounts }

def updateMailboxes (p : MailboxRow → Bool) (f : MailboxRow → MailboxRow) (db : Db) : Db :=
  { db with mailboxes := updateWhere p f db.mailboxes }

def updateEmail (id : Int) (f : EmailRow → EmailRow) (db : Db) : Db :=
  { db with emails := updateWhere (fun r => r.id == id) f db.emails }

/-- `UPDATE mailboxes SET updated_modseq = max(updated_modseq, ?1) WHERE ..`. -/
def touchMailboxes (modseq : Int) (p : MailboxRow → Bool) (db : Db) : Db :=
  db.updateMailboxes p fun r => { r with updatedModseq := max r.updatedModseq modseq }

/-- `UPDATE accounts SET modseq = modseq + 1 WHERE id = ?1`. -/
def bumpModseq (account : Int) (db : Db) : Db :=
  db.updateAccount account fun r => { r with modseq := r.modseq + 1 }

/-! ## 2. The change log -/

/-- The mailboxes an email is in. -/
def mailboxIdsOf (db : Db) (email : Int) : List Int :=
  (db.emailMailboxes.filter fun r => r.emailId == email).map (·.mailboxId)

/-- A mailbox's own modseq moves with every change to it or to an email in it: it is the state
of the mailbox for those it is shared with and its IMAP HIGHESTMODSEQ. -/
def moveModseq (modseq : Int) (kind : ObjectKind) (objectId : Int) (db : Db) : Db :=
  match kind with
  | .mailbox => db.touchMailboxes modseq fun r => r.id == objectId
  | .email => db.touchMailboxes modseq fun r => (db.mailboxIdsOf objectId).contains r.id
  | .thread => db

def recordChange (account modseq : Int) (kind : ObjectKind) (objectId : Int) (change : ChangeType)
    (db : Db) : Db :=
  let row : ChangeRow := ⟨account, modseq, kind, objectId, change⟩
  { db with changes := insertOrIgnore ChangeRow.key row db.changes }
    |>.moveModseq modseq kind objectId

/-! ## 3. Deletions, with their cascades and triggers -/

/-- `email_mailboxes_vanished`: the UID that left, with the modseq its account stands at. -/
def vanish (db : Db) (row : MembershipRow) : Db :=
  match (db.mailbox row.mailboxId).bind fun m => db.modseqOf m.accountId with
  | none => db
  | some modseq =>
    let gone : VanishedRow := ⟨row.mailboxId, row.uid, modseq⟩
    { db with imapVanished := insertOrReplace VanishedRow.key gone db.imapVanished }

/-- `DELETE FROM email_mailboxes WHERE ..`. -/
def deleteEmailMailboxes (p : MembershipRow → Bool) (db : Db) : Db :=
  (db.emailMailboxes.filter p).foldl vanish
    { db with emailMailboxes := deleteWhere p db.emailMailboxes }

/-- `DELETE FROM emails WHERE id = ?1`: the keywords, the memberships and the search index go
with it. -/
def deleteEmail (id : Int) (db : Db) : Db :=
  { db with
      emails := deleteWhere (fun r => r.id == id) db.emails
      emailKeywords := deleteWhere (fun r => r.emailId == id) db.emailKeywords
      emailFts := deleteWhere (fun r => r.rowid == id) db.emailFts }
    |>.deleteEmailMailboxes fun r => r.emailId == id

/-- `DELETE FROM threads WHERE id = ?1`: the message ids it was known by go with it. -/
def deleteThread (id : Int) (db : Db) : Db :=
  { db with
    threads := deleteWhere (fun r => r.id == id) db.threads
    threadMessageIds := deleteWhere (fun r => r.threadId == id) db.threadMessageIds }

/-- `DELETE FROM mailboxes WHERE id = ?1`: what it held and whom it was shared with go with it,
and the UIDs that left it are forgotten.  The caller made sure that it has no children. -/
def deleteMailbox (id : Int) (db : Db) : Db :=
  { db with
    mailboxes := deleteWhere (fun r => r.id == id) db.mailboxes
    emailMailboxes := deleteWhere (fun r => r.mailboxId == id) db.emailMailboxes
    mailboxAcl := deleteWhere (fun r => r.mailboxId == id) db.mailboxAcl
    imapVanished := deleteWhere (fun r => r.mailboxId == id) db.imapVanished }

/-! ## 4. Insertions -/

/-- `INSERT INTO mailboxes`, which takes the next row id. -/
def insertMailbox (row : MailboxRow) (db : Db) : Db :=
  { db with
    mailboxes := db.mailboxes ++ [{ row with id := db.mailboxSeq + 1 }]
    mailboxSeq := db.mailboxSeq + 1 }

def insertThread (account : Int) (db : Db) : Db :=
  { db with
    threads := db.threads ++ [⟨db.threadSeq + 1, account⟩]
    threadSeq := db.threadSeq + 1 }

def insertEmail (row : EmailRow) (db : Db) : Db :=
  { db with
    emails := db.emails ++ [{ row with id := db.emailSeq + 1 }]
    emailSeq := db.emailSeq + 1 }

/-- `INSERT OR IGNORE INTO email_keywords`. -/
def insertKeyword (email : Int) (keyword : String) (db : Db) : Db :=
  { db with emailKeywords := insertOrIgnore id ⟨email, keyword⟩ db.emailKeywords }

def deleteKeyword (email : Int) (keyword : String) (db : Db) : Db :=
  { db with
    emailKeywords := deleteWhere (fun r => r.emailId == email && r.keyword == keyword)
      db.emailKeywords }

/-- `INSERT OR IGNORE INTO thread_message_ids`. -/
def insertMessageId (account thread : Int) (messageId : String) (db : Db) : Db :=
  let row : MessageIdRow := ⟨account, messageId, thread⟩
  { db with threadMessageIds := insertOrIgnore MessageIdRow.key row db.threadMessageIds }

end Db

/-! ## 5. Modseqs inside a transaction -/

/-- Increments and returns the account's change sequence number. -/
def nextModseq (account : Int) : TxM Int := do
  match (← get).db.modseqOf account with
  | none => throw (.notFound s!"account {account}")
  | some modseq =>
    statement (Db.bumpModseq account)
    pure (modseq + 1)

/-- `Batch::modseq`. -/
def batchModseq : TxM Int := do
  let batch := (← get).batch
  match batch.modseq with
  | some modseq => pure modseq
  | none =>
    let modseq ← nextModseq batch.accountId
    modify fun tx => { tx with batch := { batch with modseq := some modseq } }
    pure modseq

end UwuMail.Store
