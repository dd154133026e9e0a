/-
# Folders shared between people

`acl.rs`, and the members of a shared mailbox from `shared_mailboxes.rs`: who may use someone
else's mailbox, and what they hear of its changes.

Rights are the letters of RFC 4314.  The owner is never listed: they have every right on their
own mailboxes.  Every right anyone has on someone else's mailbox is in `grants`: the folders
shared one by one, and every folder of a shared mailbox for its members.
-/
import UwuMail.Store.Imap
import UwuMail.Store.Objects

namespace UwuMail.Store

open Table

/-! ## 1. Rights -/

/-- Every right, in the order RFC 4314 lists them. -/
def allRights : String := "lrswipkxtea"

/-- The letters one given letter stands for: the obsolete `c` and `d` of RFC 2086 too. -/
def rightLetters (c : Char) : Except StoreError (List Char) :=
  if c = 'c' then .ok ['k']
  else if c = 'd' then .ok ['x', 't', 'e']
  else if c ∈ allRights.toList then .ok [c]
  else .error (.invalid s!"unknown right {c.quote}")

/-- `normalize_rights`: rights letters in their usual order without repeats. -/
def normalizeRights (input : String) : Except StoreError String := do
  let wanted := (← input.toList.mapM rightLetters).flatten
  pure (String.ofList (allRights.toList.filter wanted.contains))

def hasRights (rights needed : String) : Bool := needed.toList.all rights.toList.contains

/-! ## 2. Grants -/

/-- `ACTIVE_PERSON`: people, not services, and not in the trash. -/
def AccountRow.isActivePerson (r : AccountRow) : Bool := !r.service && r.deletedAt.isNone

/-- `GRANTS`.  Where a member also got a single folder shared the ordinary way, the membership
decides. -/
def Db.grants (db : Db) : List AclRow :=
  (db.sharedMailboxMembers.flatMap fun s =>
      if db.accounts.any fun r => r.id == s.accountId && r.sharedMailbox then
        (db.mailboxes.filter fun m => m.accountId == s.accountId).map fun m =>
          ⟨m.id, s.accountId, s.memberId, s.rights⟩
      else []) ++
    db.mailboxAcl.filter fun a =>
      !db.sharedMailboxMembers.any fun s => s.accountId == a.ownerId && s.memberId == a.granteeId

/-- Someone else's mailbox the account may use. -/
structure SharedMailbox where
  ownerId : Int
  ownerLogin : String
  mailbox : ImapMailbox
  rights : String

/-- An account that is not in the trash. -/
def Db.living (db : Db) (id : Int) : Option AccountRow :=
  db.accounts.find? fun r => r.id == id && r.deletedAt.isNone

/-- The row a grant makes in `shared_query`, with what it is sorted by. -/
def Db.sharedRow (db : Db) (g : AclRow) : Option (SharedMailbox × MailboxRow) := do
  let m ← db.mailbox g.mailboxId
  let owner ← db.living g.ownerId
  let _ ← db.living g.granteeId
  pure ({ ownerId := owner.id, ownerLogin := owner.login, mailbox := mailboxRow m,
          rights := g.rights }, m)

/-- `mailboxes_shared_with`: `ORDER BY o.login, m.sort_order, m.name, m.id`. -/
def mailboxesSharedWith (db : Db) (grantee : Int) : List SharedMailbox :=
  (((db.grants.filter fun g => g.granteeId == grantee).filterMap db.sharedRow).insertionSort
    fun a b => a.1.ownerLogin < b.1.ownerLogin ∨ a.1.ownerLogin = b.1.ownerLogin ∧
      (a.2.sortOrder < b.2.sortOrder ∨ a.2.sortOrder = b.2.sortOrder ∧
        (a.2.name < b.2.name ∨ a.2.name = b.2.name ∧ a.2.id ≤ b.2.id))).map (·.1)

/-! ## 3. Sharing -/

def ownedMailbox (db : Db) (owner mailbox : Int) : Except StoreError PUnit :=
  if mailboxBelongs db owner mailbox then .ok ⟨⟩
  else .error (.notFound s!"mailbox {mailbox}")

/-- The shares of a mailbox after one person's rights were set. -/
def setAcl (owner mailbox grantee : Int) (rights : String) (t : List AclRow) : List AclRow :=
  let mine : AclRow → Bool := fun r => r.mailboxId == mailbox && r.granteeId == grantee
  if rights == "" then deleteWhere mine t
  else if t.any mine then updateWhere mine (fun r => { r with rights }) t
  else t ++ [⟨mailbox, owner, grantee, rights⟩]

/-- The writes of `set_mailbox_acl_for` once something changed. -/
def Db.applyAcl (owner modseq mailbox : Int) (acl : List AclRow) (db : Db) : Db :=
  { db with mailboxAcl := acl }
    |>.recordChange owner modseq .mailbox mailbox .updated
    |>.sharingChanged owner modseq

/-- `set_mailbox_acl_for`: shares a mailbox, or takes it back when `rights` is empty. -/
def setMailboxAclFor (owner mailbox grantee : Int) (rights : String) (db : Db) :
    Except StoreError String × Db :=
  match normalizeRights rights with
  | .error e => (.error e, db)
  | .ok rights =>
    if grantee = owner then
      (.error (.rule "shareWithOwner" "The owner always has every right on their own mailboxes"), db)
    else
      write owner (do
        let db := (← get).db
        Tx.ofExcept (ownedMailbox db owner mailbox)
        unless db.accounts.any (fun r => r.id == grantee && r.isActivePerson) do
          throw (.notFound s!"account {grantee}")
        let acl := setAcl owner mailbox grantee rights db.mailboxAcl
        unless acl = db.mailboxAcl do
          let modseq ← nextModseq owner
          statement (Db.applyAcl owner modseq mailbox acl)
        pure rights) db

def sharedMailboxMaxMembers : Nat := 500

/-- The person a login stands for. -/
def activePerson (db : Db) (login : String) : Except StoreError Int :=
  match db.accounts.find? (fun r => r.login == login && r.isActivePerson) with
  | some r => .ok r.id
  | none => .error (.notFound s!"account {login}")

/-- The writes of `replace_members`; `shared` is the account's `shared_mailbox` afterwards. -/
def Db.applyMembers (account modseq : Int) (members : List Int) (shared : Bool) (db : Db) : Db :=
  let rows : List MemberRow := members.map fun member => ⟨account, member, allRights⟩
  let others := deleteWhere (fun r => r.accountId == account) db.sharedMailboxMembers
  { db with sharedMailboxMembers := others ++ rows }
    |>.updateAccount account (fun r => { r with sharedMailbox := shared })
    |>.sharingChanged account modseq

/-- `replace_members`, inside the transaction that decides what the account is afterwards. -/
def replaceMembers (account : Int) (members : List String) (shared : Bool) : TxM PUnit := do
  if members.length > sharedMailboxMaxMembers then
    throw (.invalid s!"a shared mailbox may have at most {sharedMailboxMaxMembers} members")
  let wanted ← Tx.ofExcept (members.mapM (activePerson (← get).db))
  let modseq ← nextModseq account
  statement (Db.applyMembers account modseq wanted.eraseDups shared)

/-- `shared_account`, by id. -/
def sharedAccount (db : Db) (account : Int) : Except StoreError PUnit :=
  if db.accounts.any (fun r => r.id == account && r.sharedMailbox) then .ok ⟨⟩
  else .error (.notFound s!"shared mailbox {account}")

def setSharedMailboxMembers (account : Int) (members : List String) (db : Db) :
    Except StoreError PUnit × Db :=
  write account (do
    Tx.ofExcept (sharedAccount (← get).db account)
    replaceMembers account members true) db

/-- The second transaction of `create_shared_mailbox`. -/
def makeShared (account : Int) (members : List String) (db : Db) : Except StoreError PUnit × Db :=
  write account (replaceMembers account members true) db

def endSharedMailbox (account : Int) (db : Db) : Except StoreError PUnit × Db :=
  write account (do
    Tx.ofExcept (sharedAccount (← get).db account)
    replaceMembers account [] false) db

/-! ## 4. What someone hears of an owner's changes -/

/-- `shared_state_of`: the owner's last change to one of the `visible` mailboxes or what they
hold, or to the sharing, and the latter on its own. -/
def sharedStateOf (db : Db) (owner : Int) (visible : List Int) : Except StoreError (Int × Int) :=
  match db.account owner with
  | none => .error (.notFound s!"account {owner}")
  | some row =>
    let seen := db.mailboxes.filter fun m => m.accountId == owner && visible.contains m.id
    let last := (seen.map (·.updatedModseq)).max?.getD 0
    .ok (max last row.sharingModseq, row.sharingModseq)

def sharedState (db : Db) (owner : Int) (visible : List Int) : Except StoreError Int :=
  (sharedStateOf db owner visible).map (·.1)

/-- `RELEVANT`: a change to a visible mailbox, or to an email in one of them now. -/
def Db.isRelevant (db : Db) (visible : List Int) (c : ChangeRow) : Bool :=
  match c.kind with
  | .mailbox => visible.contains c.objectId
  | .email => (db.mailboxIdsOf c.objectId).any visible.contains
  | .thread => false

/-- The modseqs of the relevant changes. -/
def Db.relevant (db : Db) (owner : Int) (visible : List Int) (since : Int) : List Int :=
  (db.changes.filter fun c =>
    c.accountId == owner && decide (c.modseq > since) && db.isRelevant visible c).map (·.modseq)

/-- `shared_changes`: [`Invalid`] for states they never had, and across a change to the
sharing. -/
def sharedChanges (db : Db) (owner : Int) (kind : ObjectKind) (since : Int) (maxChanges : Nat)
    (visible : List Int) : Except StoreError Changes := do
  let (current, sharing) ← sharedStateOf db owner visible
  if since < 0 ∨ since > current ∨ sharing > since then
    throw (.invalid s!"cannot calculate changes since {since}")
  let relevant := db.relevant owner visible since
  let rows := (db.logSince owner kind since).filter fun row => relevant.contains row.modseq
  pure (aggregate rows current maxChanges)

end UwuMail.Store
