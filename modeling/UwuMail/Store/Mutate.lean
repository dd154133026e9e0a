/-
# Changing mail objects

`mutate.rs`: keywords and mailbox membership of emails, destroying emails, managing mailboxes.

`update_one` decides everything before it writes anything, so it is a plan (`planUpdate`, which
may refuse) and the writes of the plan (`Db.applyUpdate`).  `destroy_one` and the mailbox
operations are cut the same way.  What teaches the spam filter and the labels along the way lives
in tables of its own and is left out: no table of `Db` depends on it.

`update_emails` and `destroy_emails` collect one result per element and commit whatever the
others did; `create_mailbox`, `update_mailbox` and `destroy_mailbox` roll back on the first
error.
-/
import UwuMail.Store.Mail

namespace UwuMail.Store

open Table

/-! ## 1. Requests -/

inductive KeywordsChange
  | keep
  | replace (list : List String)
  | patch (entries : List (String × Bool))

inductive MailboxesChange
  | keep
  | replace (list : List Int)
  | patch (entries : List (Int × Bool))

structure EmailUpdate where
  id : Int
  keywords : KeywordsChange := .keep
  mailboxes : MailboxesChange := .keep

structure MailboxUpdate where
  name : Option String := none
  parentId : Option (Option Int) := none
  role : Option (Option MailboxRole) := none
  sortOrder : Option Int := none
  subscribed : Option Bool := none

/-! ## 2. Updating one email -/

/-- `email_mailboxes`. -/
def Db.mailboxesOf (db : Db) (email : Int) : SortedSet Int := SortedSet.ofList (db.mailboxIdsOf email)

/-- `email_keywords`. -/
def Db.keywordsOf (db : Db) (email : Int) : SortedSet String :=
  SortedSet.ofList ((db.emailKeywords.filter fun r => r.emailId == email).map (·.keyword))

def mailboxBelongs (db : Db) (account mailbox : Int) : Bool :=
  db.mailboxes.any fun r => r.id == mailbox && r.accountId == account

/-- One entry of a patch: put in or taken out. -/
def patchSet {α : Type} [LinearOrder α] (set : SortedSet α) (entry : α × Bool) : SortedSet α :=
  if entry.2 then set.insert entry.1 else set.remove entry.1

def KeywordsChange.apply (ext : Externals) (old : SortedSet String) :
    KeywordsChange → SortedSet String
  | keep => old
  | replace list => SortedSet.ofList (list.map ext.toLowercase)
  | patch entries => (entries.map fun e => (ext.toLowercase e.1, e.2)).foldl patchSet old

def MailboxesChange.apply (old : SortedSet Int) : MailboxesChange → SortedSet Int
  | keep => old
  | replace list => SortedSet.ofList list
  | patch entries => entries.foldl patchSet old

/-- What `update_one` is about to write. -/
structure UpdatePlan where
  email : Int
  oldKeywords : SortedSet String
  newKeywords : SortedSet String
  oldMailboxes : SortedSet Int
  newMailboxes : SortedSet Int

namespace UpdatePlan

/-- Nothing to write. -/
def isNoop (p : UpdatePlan) : Bool :=
  p.newKeywords = p.oldKeywords ∧ p.newMailboxes = p.oldMailboxes

def seenChanged (p : UpdatePlan) : Bool :=
  decide ("$seen" ∈ p.oldKeywords) != decide ("$seen" ∈ p.newKeywords)

/-- The mailboxes the email comes into. -/
def entered (p : UpdatePlan) : SortedSet Int := p.newMailboxes.difference p.oldMailboxes

/-- The mailboxes it leaves. -/
def left (p : UpdatePlan) : SortedSet Int := p.oldMailboxes.difference p.newMailboxes

/-- Counts change in every mailbox the email was or is in. -/
def recounted (p : UpdatePlan) : List Int :=
  (p.oldMailboxes.symmetricDifference p.newMailboxes).elems ++
    if p.seenChanged then p.newMailboxes.elems else []

end UpdatePlan

/-- The checks of `update_one`. -/
def planUpdate (ext : Externals) (db : Db) (account : Int) (update : EmailUpdate) :
    Except StoreError UpdatePlan := do
  unless db.emails.any (fun r => r.id == update.id && r.accountId == account) do
    throw (.notFound s!"email {update.id}")
  let oldKeywords := db.keywordsOf update.id
  let newKeywords := update.keywords.apply ext oldKeywords
  if let some bad := newKeywords.elems.find? (fun k => !validKeyword k) then
    throw (rule "invalidProperties" s!"'{bad}' is not a valid keyword")
  -- Only more is refused: an email that has too many from before may still lose some.
  if newKeywords.len > maxKeywordsPerEmail ∧ newKeywords.len > oldKeywords.len then
    throw (rule "invalidProperties" s!"an email may have at most {maxKeywordsPerEmail} keywords")
  let oldMailboxes := db.mailboxesOf update.id
  let newMailboxes := update.mailboxes.apply oldMailboxes
  if newMailboxes.isEmpty then
    throw (rule "invalidProperties" "an email must be in at least one mailbox")
  if let some mailbox :=
      (newMailboxes.difference oldMailboxes).elems.find? (fun m => !mailboxBelongs db account m) then
    throw (rule "invalidProperties" s!"mailbox {mailbox} does not exist")
  pure { email := update.id, oldKeywords, newKeywords, oldMailboxes, newMailboxes }

/-- Flag changes are visible in IMAP per mailbox. -/
def Db.stampEmail (email modseq : Int) (db : Db) : Db :=
  { db with
      emailMailboxes :=
        updateWhere (fun r => r.emailId == email) (fun r => { r with modseq }) db.emailMailboxes }
    |>.updateEmail email fun r => { r with updatedModseq := modseq }

/-- The writes of `update_one`. -/
def Db.applyUpdate (account modseq : Int) (p : UpdatePlan) (db : Db) : Db :=
  let db := (p.newKeywords.difference p.oldKeywords).elems.foldl
    (fun db keyword => db.insertKeyword p.email keyword) db
  let db := (p.oldKeywords.difference p.newKeywords).elems.foldl
    (fun db keyword => db.deleteKeyword p.email keyword) db
  let db := p.entered.elems.foldl (fun db mailbox => db.addToMailbox p.email mailbox modseq) db
  let db := p.left.elems.foldl
    (fun db mailbox =>
      db.deleteEmailMailboxes fun r => r.emailId == p.email && r.mailboxId == mailbox) db
  let db := db.stampEmail p.email modseq
  let db := db.recordChange account modseq .email p.email .updated
  p.recounted.foldl
    (fun db mailbox => db.recordChange account modseq .mailbox mailbox .updated) db

def updateOne (ext : Externals) (update : EmailUpdate) : TxM PUnit := do
  let tx ← get
  let plan ← Tx.ofExcept (planUpdate ext tx.db tx.batch.accountId update)
  unless plan.isNoop do
    let modseq ← batchModseq
    statement (Db.applyUpdate tx.batch.accountId modseq plan)

/-! ## 3. Destroying one email -/

/-- `UPDATE accounts SET used_bytes = max(0, used_bytes - ?1)`. -/
def Db.subUsed (account size : Int) (db : Db) : Db :=
  db.updateAccount account fun r => { r with usedBytes := max 0 (r.usedBytes - size) }

/-- `UPDATE mailboxes SET updated_modseq = ?1 WHERE id = ?2` and the row of the change log. -/
def Db.mailboxUpdated (account modseq : Int) (db : Db) (mailbox : Int) : Db :=
  db.updateMailboxes (fun r => r.id == mailbox) (fun r => { r with updatedModseq := modseq })
    |>.recordChange account modseq .mailbox mailbox .updated

/-- A thread that lost an email: it goes with the last one. -/
def Db.shrinkThread (account modseq thread : Int) (db : Db) : Db :=
  if db.emails.any fun r => r.threadId == thread then
    db.recordChange account modseq .thread thread .updated
  else
    (db.deleteThread thread).recordChange account modseq .thread thread .destroyed

/-- The writes of `destroy_one`. -/
def Db.applyDestroy (account modseq : Int) (row : EmailRow) (db : Db) : Db :=
  let mailboxes := db.mailboxesOf row.id
  let db := db.deleteEmail row.id
  let db := db.subUsed account row.size
  let db := db.recordChange account modseq .email row.id .destroyed
  let db := mailboxes.elems.foldl (Db.mailboxUpdated account modseq) db
  db.shrinkThread account modseq row.threadId

/-- `SELECT .. FROM emails WHERE id = ?1 AND account_id = ?2`. -/
def Db.emailOf (db : Db) (account email : Int) : Option EmailRow :=
  db.emails.find? fun r => r.id == email && r.accountId == account

def destroyOne (email : Int) : TxM PUnit := do
  let tx ← get
  match tx.db.emailOf tx.batch.accountId email with
  | none => throw (.notFound s!"email {email}")
  | some row =>
    let modseq ← batchModseq
    statement (Db.applyDestroy tx.batch.accountId modseq row)

/-! ## 4. Batches of emails -/

def updateEmails (ext : Externals) (account : Int) (updates : List EmailUpdate) (db : Db) :
    Except StoreError (List (Except StoreError PUnit)) × Db :=
  write account (updates.mapM fun update => Tx.attempt (updateOne ext update)) db

def destroyEmails (account : Int) (ids : List Int) (db : Db) :
    Except StoreError (List (Except StoreError PUnit)) × Db :=
  write account (ids.mapM fun id => Tx.attempt (destroyOne id)) db

/-! ## 5. Mailboxes -/

/-- `char::is_whitespace`: the Unicode property White_Space. -/
def isWhitespace (c : Char) : Bool :=
  let n := c.toNat
  (0x9 ≤ n && n ≤ 0xd) || n == 0x20 || n == 0x85 || n == 0xa0 || n == 0x1680 ||
    (0x2000 ≤ n && n ≤ 0x200a) || n == 0x2028 || n == 0x2029 || n == 0x202f || n == 0x205f ||
    n == 0x3000

/-- `char::is_control`: the general category Cc. -/
def isControl (c : Char) : Bool := c.toNat ≤ 0x1f || (0x7f ≤ c.toNat && c.toNat ≤ 0x9f)

/-- `str::trim`. -/
def trim (s : String) : String :=
  String.ofList
    (((s.toList.dropWhile isWhitespace).reverse.dropWhile isWhitespace).reverse)

def validMailboxName (name : String) : Except StoreError String :=
  let name := trim name
  if name == "" || decide (name.toList.length > 255) || name.toList.any isControl then
    .error (rule "invalidProperties"
      "the mailbox name is empty, too long or contains control characters")
  else .ok name

/-- One turn of the loop of `check_parent`: the parent of the ancestor looked at. -/
def parentOf (db : Db) (account : Int) (mailbox : Option Int) (id : Int) :
    Except StoreError (Option Int) :=
  if some id = mailbox then
    .error (rule "invalidProperties" "a mailbox cannot be inside itself")
  else
    match db.mailboxes.find? (fun r => r.id == id && r.accountId == account) with
    | none => .error (rule "invalidProperties" s!"parent mailbox {id} does not exist")
    | some row => .ok row.parentId

/-- The loop of `check_parent`; `left` counts down from the nesting limit. -/
def checkParentLoop (db : Db) (account : Int) (mailbox : Option Int) :
    Nat → Option Int → Except StoreError PUnit
  | _, none => .ok ⟨⟩
  | 0, some id => do
    let _ ← parentOf db account mailbox id
    throw (rule "invalidProperties" "mailboxes are nested too deeply")
  | left + 1, some id => do checkParentLoop db account mailbox left (← parentOf db account mailbox id)

/-- The nesting limit. -/
def maxDepth : Nat := 64

def checkParent (db : Db) (account : Int) (mailbox parent : Option Int) : Except StoreError PUnit :=
  checkParentLoop db account mailbox maxDepth parent

/-- The unique indexes of `mailboxes` (the one on roles first, it is the newer), with the
messages `map_unique` makes of their names. -/
def checkUnique (db : Db) (row : MailboxRow) : Except StoreError PUnit :=
  if row.role.isSome && db.mailboxes.any fun r =>
      r.id != row.id && r.accountId == row.accountId && r.role == row.role then
    .error (rule "invalidProperties" "another mailbox already has this role")
  else if db.mailboxes.any fun r =>
      r.id != row.id && r.accountId == row.accountId &&
        r.parentId.getD 0 == row.parentId.getD 0 && r.name == row.name then
    .error (rule "invalidProperties" "a mailbox with this name already exists here")
  else .ok ⟨⟩

/-- The row `create_mailbox` inserts. -/
def newMailbox (account : Int) (name : String) (parentId : Option Int) (role : Option MailboxRole)
    (sortOrder : Int) (subscribed : Bool) (now modseq id : Int) : MailboxRow where
  id
  accountId := account
  parentId
  name
  role
  sortOrder
  subscribed
  uidValidity := now
  uidNext := 1
  createdModseq := modseq
  updatedModseq := modseq

/-- A folder made inside a shared one is shared the same way. -/
def Db.inheritAcl (id : Int) (parent : Option Int) (db : Db) : Db :=
  match parent with
  | none => db
  | some parent =>
    let shares := db.mailboxAcl.filter fun r => r.mailboxId == parent
    { db with mailboxAcl := db.mailboxAcl ++ shares.map fun r => { r with mailboxId := id } }

/-- The writes of `create_mailbox`. -/
def Db.applyCreate (account modseq : Int) (row : MailboxRow) (db : Db) : Db :=
  let id := db.mailboxSeq + 1
  (db.insertMailbox row).inheritAcl id row.parentId
    |>.recordChange account modseq .mailbox id .created

def createMailbox (account : Int) (name : String) (parentId : Option Int)
    (role : Option MailboxRole) (sortOrder : Int) (subscribed : Bool) (now : Int) (db : Db) :
    Except StoreError Int × Db :=
  match validMailboxName name with
  | .error e => (.error e, db)
  | .ok name =>
    write account (do
      Tx.ofExcept (checkParent (← get).db account none parentId)
      let modseq ← nextModseq account
      let db := (← get).db
      let row := newMailbox account name parentId role sortOrder subscribed now modseq
        (db.mailboxSeq + 1)
      Tx.ofExcept (checkUnique db row)
      statement (Db.applyCreate account modseq row)
      pure row.id) db

/-- `UPDATE mailboxes SET .. WHERE id = ?`, refused by the unique indexes. -/
def alterMailbox (id : Int) (f : MailboxRow → MailboxRow) : TxM PUnit := do
  let db := (← get).db
  if let some row := db.mailbox id then Tx.ofExcept (checkUnique db (f row))
  statement (Db.updateMailboxes (fun r => r.id == id) f)

/-- A column the unique indexes do not look at. -/
def setColumn (id : Int) (f : MailboxRow → MailboxRow) : TxM PUnit :=
  statement (Db.updateMailboxes (fun r => r.id == id) f)

/-- The column updates of `update_mailbox`, one statement each. -/
def alterColumns (id : Int) (name : Option String) (update : MailboxUpdate) : TxM PUnit := do
  name.forM fun name => alterMailbox id fun r => { r with name }
  update.parentId.forM fun parentId => alterMailbox id fun r => { r with parentId }
  update.role.forM fun role => alterMailbox id fun r => { r with role }
  update.sortOrder.forM fun sortOrder => setColumn id fun r => { r with sortOrder }
  update.subscribed.forM fun subscribed => setColumn id fun r => { r with subscribed }

def updateMailbox (account id : Int) (update : MailboxUpdate) (db : Db) :
    Except StoreError PUnit × Db :=
  match update.name.mapM validMailboxName with
  | .error e => (.error e, db)
  | .ok name =>
    write account (do
      unless mailboxBelongs (← get).db account id do throw (.notFound s!"mailbox {id}")
      let db := (← get).db
      update.parentId.forM fun parent => Tx.ofExcept (checkParent db account (some id) parent)
      let modseq ← nextModseq account
      alterColumns id name update
      statement (Db.mailboxUpdated account modseq · id)) db

/-! ## 6. Destroying a mailbox -/

/-- `sharing_changed`: who sees what in an owner's account changed at `modseq`. -/
def Db.sharingChanged (owner modseq : Int) (db : Db) : Db :=
  db.updateAccount owner fun r => { r with sharingModseq := max r.sharingModseq modseq }

/-- An email that is in other mailboxes too just leaves this one. -/
def Db.leaveMailbox (account modseq email mailbox : Int) (db : Db) : Db :=
  db.deleteEmailMailboxes (fun r => r.emailId == email && r.mailboxId == mailbox)
    |>.updateEmail email (fun r => { r with updatedModseq := modseq })
    |>.recordChange account modseq .email email .updated

/-- Whether anybody else sees the mailbox. -/
def Db.isShared (db : Db) (account mailbox : Int) : Bool :=
  db.mailboxAcl.any (fun r => r.mailboxId == mailbox) ||
    db.sharedMailboxMembers.any fun r => r.accountId == account

/-- The last writes of `destroy_mailbox`. -/
def Db.dropMailbox (account modseq mailbox : Int) (db : Db) : Db :=
  let db := if db.isShared account mailbox then db.sharingChanged account modseq else db
  (db.deleteMailbox mailbox).recordChange account modseq .mailbox mailbox .destroyed

/-- One turn of the loop over what the mailbox holds: the email, and how many mailboxes it is
in. -/
def clearOut (account modseq mailbox : Int) (entry : Int × Nat) : TxM PUnit :=
  if entry.2 ≤ 1 then destroyOne entry.1
  else statement (Db.leaveMailbox account modseq entry.1 mailbox)

/-- What a mailbox holds, each email with the number of its mailboxes. -/
def Db.holdings (db : Db) (mailbox : Int) : List (Int × Nat) :=
  (db.emailIdsIn mailbox).map fun email => (email, (db.mailboxIdsOf email).length)

def destroyMailbox (account id : Int) (removeEmails : Bool) (db : Db) :
    Except StoreError PUnit × Db :=
  write account (do
    let db := (← get).db
    unless mailboxBelongs db account id do throw (.notFound s!"mailbox {id}")
    if db.mailboxes.any (fun r => r.parentId == some id) then
      throw (rule "mailboxHasChild" "the mailbox has child mailboxes")
    if !(db.holdings id).isEmpty && !removeEmails then
      throw (rule "mailboxHasEmail" "the mailbox still has emails")
    let modseq ← batchModseq
    (db.holdings id).forM (clearOut account modseq id)
    statement (Db.dropMailbox account modseq id)) db

end UwuMail.Store
