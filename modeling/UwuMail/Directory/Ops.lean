/-
# What changes the directory

The writes of `directory.rs`, `admin.rs`, `own.rs`, `groups.rs`, `shared_mailboxes.rs`,
`forward_addresses.rs` and `extras.rs`.  Each is one transaction: it either answers with the tables
after it, or with an error, and then nothing has changed.

The tables of the directory are a system that takes one transaction after another, in any order:
`Op` is what can come next, and `step` what it leaves behind.  A call that is refused is no step.
-/
import UwuMail.Directory.Masked
import UwuMail.Lib.Trace

namespace UwuMail.Directory

open Store (StoreError)
open Table

/-! ## 1. Domains and accounts -/

/-- `create_domain_with_kind`. -/
def createDomain (x : Text) (name : String) (kind : DomainKind) (db : Db) : Except StoreError Db := do
  let name ← normalizeDomain x name
  check (!db.domains.any (·.name == name)) (.conflict s!"domain {name}")
  pure { db with domains := db.domains ++ [{ id := nextRowId (db.domains.map (·.id)), name, kind }] }

/-- What goes with a domain's row. -/
def Db.dropDomain (db : Db) (id : Int) : Db :=
  let db := { db with
    domains := deleteWhere (·.id == id) db.domains
    addresses := deleteWhere (·.domainId == id) db.addresses
    groups := deleteWhere (·.domainId == id) db.groups
    forwardAddresses := deleteWhere (·.domainId == id) db.forwardAddresses
    maskedAddresses := deleteWhere (·.domainId == id) db.maskedAddresses
    releasedAddresses := deleteWhere (·.domainId == id) db.releasedAddresses
    sendAsDomains := deleteWhere (·.domainId == id) db.sendAsDomains
    domainMaskedDomains := deleteWhere (fun j => j.1 == id || j.2 == id) db.domainMaskedDomains
    accountMaskedDomains := deleteWhere (·.2 == id) db.accountMaskedDomains }
  db.forgetMaskedDomain id

/-- `substr(email, instr(email, '@') + 1)`: what stands behind the first `@`. -/
def behindAt (email : String) : String :=
  String.ofList (if '@' ∈ email.toList then (email.toList.dropWhile (· != '@')).tail else email.toList)

/-- `delete_domain`.  Refuses while addresses still use it; the identities on it go too. -/
def deleteDomain (x : Text) (name : String) (db : Db) : Except StoreError Db := do
  let name ← normalizeDomain x name
  let id ← domainId db name
  let inUse := db.addresses.countP (·.domainId == id) + db.forwardAddresses.countP (·.domainId == id) +
    db.groups.countP (·.domainId == id) +
    db.maskedAddresses.countP fun m => m.domainId == id && m.state != .deleted
  check (inUse == 0) (.invalid s!"{inUse} addresses still use {name}, remove them first")
  let onDomain := (db.identities.filter fun i => sqlLower (behindAt i.email) == name).map fun i =>
    (i.accountId, i.email)
  pure (onDomain.eraseDups.foldl (fun db i => revokeIdentities x i.1 i.2 db) (db.dropDomain id))

def setCatchAll (x : Text) (domain : String) (login : Option String) (db : Db) :
    Except StoreError Db := do
  let domain ← normalizeDomain x domain
  let login ← login.mapM (loginKey x)
  let id ← domainId db domain
  ensureMailDomainIf login.isSome db id
  let account ← login.mapM (accountId db)
  pure { db with
    domains := updateWhere (·.id == id) (fun d => { d with catchAll := account }) db.domains }

def setDomainSelfService (x : Text) (domain : String) (on : Bool) (db : Db) :
    Except StoreError Db := do
  let (_, domain) ← normalizeAddress x ("x@" ++ domain)
  let id ← domainId db domain
  ensureMailDomainIf on db id
  pure { db with
    domains := updateWhere (·.id == id) (fun d => { d with selfServiceAliases := on }) db.domains }

structure NewAccount where
  address : String
  displayName : String := ""
  role : Role
  quotaBytes : Int := 0

def createAccount (x : Text) (new : NewAccount) (db : Db) : Except StoreError Db := do
  let (localPart, domain) ← normalizeAddress x new.address
  check (0 ≤ new.quotaBytes) (.invalid "the quota cannot be negative")
  let d ← domainId db domain
  ensureMailDomain db d
  let login := written localPart domain
  check (!(db.accounts.any (·.login == login) || addressInUse db (localPart, d)))
    (.conflict s!"address {login}")
  -- Never an id an account had before.
  let id := db.accountHighWater + 1
  pure { db with
    accountHighWater := id
    accounts := db.accounts ++
      [{ id, login, displayName := x.trim new.displayName, role := new.role,
         quotaBytes := new.quotaBytes }]
    addresses := db.addresses ++ [⟨localPart, d, id, .primary, false⟩] }

/-- `keep_an_admin`: refuses a change that would leave the server without anyone to manage it. -/
def keepAnAdmin (db : Db) (before : Account) (afterIsActiveAdmin : Bool) : Except StoreError PUnit :=
  check (!before.activeAdmin || afterIsActiveAdmin ||
      db.accounts.any fun a => a.activeAdmin && a.id != before.id)
    (.rule "lastAdmin" (before.login ++ " is the last admin; make someone else an admin first"))

def setAccountDisabled (x : Text) (login : String) (disabled : Bool) (db : Db) :
    Except StoreError Db := do
  let login ← loginKey x login
  let id ← accountId db login
  pure { db with
    accounts := updateWhere (·.id == id) (fun a => { a with disabled }) db.accounts }

def trashAccount (x : Text) (now : Int) (login : String) (db : Db) : Except StoreError Db := do
  let login ← loginKey x login
  let account ← loadAccount db login
  if account.deletedAt.isSome then pure db
  else
    keepAnAdmin db account false
    pure { db with
      accounts := updateWhere (·.id == account.id) (fun a => { a with deletedAt := some now })
        db.accounts
      domains := updateWhere (·.catchAll == some account.id) (fun d => { d with catchAll := none })
        db.domains
      fetchAccounts := updateWhere (·.accountId == account.id)
        (fun f => { f with sendEnabled := false }) db.fetchAccounts }

/-- The domain of a login: what stands behind its last `@`. -/
def loginDomain (login : String) : String :=
  ((rsplitOnce '@' login.toList).map fun (_, domain) => String.ofList domain).getD ""

def restoreAccount (x : Text) (login : String) (db : Db) : Except StoreError Db := do
  let login ← loginKey x login
  let account ← loadAccount db login
  ensureMailDomain db (← domainId db (loginDomain login))
  pure { db with
    accounts := updateWhere (·.id == account.id) (fun a => { a with deletedAt := none })
      db.accounts }

/-! ## 2. Members of a shared mailbox -/

def addressesOf (db : Db) (account : Int) : List String :=
  (db.addresses.filter (·.accountId == account)).filterMap fun a => db.addressOf a.key

def membersOf (db : Db) (account : Int) : List SharedMember :=
  db.sharedMailboxMembers.filter (·.accountId == account)

def Db.isShared (db : Db) (account : Int) : Bool :=
  db.accounts.any fun a => a.id == account && a.sharedMailbox

/-- `sending_members`: the members of a shared mailbox with the addresses they may send as for
it. -/
def sendingMembers (db : Db) (account : Int) : List (Int × String) :=
  if db.isShared account then
    ((membersOf db account).filter (·.maySend)).flatMap fun m =>
      (addressesOf db account).map fun address => (m.memberId, address)
  else []

/-- `address_changed`: keeps the identities of a shared mailbox's members in step with its
addresses. -/
def addressChanged (x : Text) (account : Int) (address : String) (added : Bool) (db : Db) : Db :=
  match db.accounts.find? fun a => a.id == account && a.sharedMailbox with
  | none => db
  | some a =>
    (membersOf db account).foldl (fun db m =>
      if added && m.maySend then grantIdentity x m.memberId address a.displayName db
      else if !added then revokeIdentities x m.memberId address db
      else db) db

def sharedMailboxMaxMembers : Nat := 500

/-- One more member among those wanted: named twice, it may send if it may once. -/
def addWanted (wanted : List (Int × Bool)) (id : Int) (maySend : Bool) : List (Int × Bool) :=
  if wanted.any (·.1 == id) then
    wanted.map fun w => if w.1 = id then (w.1, w.2 || maySend) else w
  else wanted ++ [(id, maySend)]

/-- The members named by their logins: people only. -/
def wantedMembers (x : Text) (db : Db) (members : List (String × Bool)) :
    Except StoreError (List (Int × Bool)) := do
  let ids ← members.mapM fun (login, maySend) =>
    match loginKey x login with
    | .error _ => throw (.notFound s!"account {login}")
    | .ok key =>
      match db.accounts.find? fun a => a.login == key && a.activePerson with
      | none => throw (.notFound s!"account {login}")
      | some a => pure (a.id, maySend)
  pure (ids.foldl (fun wanted m => addWanted wanted m.1 m.2) [])

/-- `replace_members`: replaces the members of a shared mailbox, and with them who has an identity
for its addresses. -/
def replaceMembers (x : Text) (account : Int) (members : List (String × Bool)) (db : Db) :
    Except StoreError Db := do
  check (members.length ≤ sharedMailboxMaxMembers)
    (.invalid s!"a shared mailbox may have at most {sharedMailboxMaxMembers} members")
  let wanted ← wantedMembers x db members
  let before := (membersOf db account).map (·.memberId)
  let db := { db with
    sharedMailboxMembers := deleteWhere (·.accountId == account) db.sharedMailboxMembers ++
      wanted.map fun w => ⟨account, w.1, w.2⟩ }
  let addresses := addressesOf db account
  let db := (before.flatMap fun m => addresses.map (m, ·)).foldl
    (fun db r => revokeIdentities x r.1 r.2 db) db
  pure (((wanted.filter (·.2)).flatMap fun w => addresses.map (w.1, ·)).foldl
    (fun db g => grantIdentity x g.1 g.2 (db.displayName account) db) db)

def sharedAccount (x : Text) (db : Db) (login : String) : Except StoreError Int := do
  let key ← loginKey x login
  match db.accounts.find? fun a => a.login == key && a.sharedMailbox with
  | none => .error (.notFound s!"shared mailbox {login}")
  | some a => .ok a.id

def Db.setShared (db : Db) (account : Int) (shared : Bool) : Db :=
  { db with
    accounts := updateWhere (·.id == account) (fun a => { a with sharedMailbox := shared })
      db.accounts }

/-- The second transaction of `create_shared_mailbox`, on the service account just created. -/
def shareAccount (x : Text) (account : Int) (members : List (String × Bool)) (db : Db) :
    Except StoreError Db :=
  replaceMembers x account members (db.setShared account true)

def setSharedMailboxMembers (x : Text) (login : String) (members : List (String × Bool)) (db : Db) :
    Except StoreError Db := do
  let id ← sharedAccount x db login
  replaceMembers x id members db

def endSharedMailbox (x : Text) (login : String) (db : Db) : Except StoreError Db := do
  let id ← sharedAccount x db login
  let db ← replaceMembers x id [] db
  pure (db.setShared id false)

/-- What goes with an account's row. -/
def Db.dropAccount (db : Db) (id : Int) : Db :=
  { db with
    accounts := deleteWhere (·.id == id) db.accounts
    domains := updateWhere (·.catchAll == some id) (fun d => { d with catchAll := none }) db.domains
    addresses := deleteWhere (·.accountId == id) db.addresses
    groupMembers := deleteWhere (·.accountId == id) db.groupMembers
    maskedAddresses := updateWhere (·.accountId == some id) (fun m => { m with accountId := none })
      db.maskedAddresses
    releasedAddresses := deleteWhere (·.accountId == id) db.releasedAddresses
    sendAsDomains := deleteWhere (·.accountId == id) db.sendAsDomains
    sharedMailboxMembers := deleteWhere (fun s => s.accountId == id || s.memberId == id)
      db.sharedMailboxMembers
    fetchAccounts := deleteWhere (·.accountId == id) db.fetchAccounts
    accountMaskedDomains := deleteWhere (·.1 == id) db.accountMaskedDomains
    identities := deleteWhere (·.accountId == id) db.identities }

def deleteAccount (x : Text) (login : String) (db : Db) : Except StoreError Db := do
  let login ← loginKey x login
  let id ← accountId db login
  let members := sendingMembers db id
  pure (members.foldl (fun db m => revokeIdentities x m.1 m.2 db) (db.dropAccount id))

/-! ## 3. Aliases -/

def addAlias (x : Text) (now : Int) (address login : String) (db : Db) : Except StoreError Db := do
  let (localPart, domain) ← normalizeAddress x address
  let login ← loginKey x login
  let d ← domainId db domain
  ensureMailDomain db d
  let account ← accountId db login
  checkNotReleased db now (localPart, d) (some account)
  check (!addressInUse db (localPart, d)) (.conflict s!"address {written localPart domain}")
  let db := { db with
    releasedAddresses := deleteWhere (fun r => r.localPart == localPart && r.domainId == d)
      db.releasedAddresses
    addresses := db.addresses ++ [⟨localPart, d, account, .alias, false⟩] }
  let db := grantIdentity x account (written localPart domain) "" db
  pure (addressChanged x account (written localPart domain) true db)

def removeAlias (x : Text) (address : String) (db : Db) : Except StoreError Db := do
  let (localPart, domain) ← normalizeAddress x address
  let d ← domainId db domain
  match db.addresses.find? fun a => a.key == (localPart, d) && a.kind == .alias with
  | none => .error (.notFound s!"alias {written localPart domain}")
  | some a =>
    let db := { db with
      addresses := deleteWhere (fun a => a.key == (localPart, d) && a.kind == .alias) db.addresses }
    let db := revokeIdentities x a.accountId (written localPart domain) db
    pure (addressChanged x a.accountId (written localPart domain) false db)

/-- `RESERVED`: names people cannot take themselves. -/
def reservedNames : List String :=
  ["postmaster", "abuse", "hostmaster", "webmaster", "mailer-daemon", "root", "admin",
   "administrator", "security", "noreply", "no-reply", "dmarc", "dmarc-reports", "tls-rpt",
   "tls-reports"]

/-- `create_own_alias`: an alias the person asked for. -/
def createOwnAlias (x : Text) (now : Int) (account : Int) (address : String) (db : Db) :
    Except StoreError Db := do
  let (localPart, domain) ← normalizeAddress x address
  check (!localPart.toList.contains '+') (.rule "aliasInvalid" "an alias cannot contain +")
  check (!reservedNames.contains (baseLocalPart localPart))
    (.rule "aliasReserved" (localPart ++ " is kept for the server"))
  let db := { db with
    releasedAddresses := deleteWhere (fun r => decide (r.releasedAt < now - releasedAddressSecs))
      db.releasedAddresses }
  ((db.domains.find? (·.name == domain)).map fun d => ensureMailDomain db d.id).getD (.ok ⟨⟩)
  check (db.domains.any fun d => d.name == domain && d.selfServiceAliases)
    (.rule "aliasDomain" ("aliases on " ++ domain ++ " are not open"))
  let d ← domainId db domain
  let taken := addressInUse db (localPart, d) ||
    (db.releasedAddresses.any fun r =>
      r.localPart == localPart && r.domainId == d && r.accountId != account) ||
    db.accounts.any (·.login == written localPart domain)
  check (!taken) (.rule "addressTaken" (written localPart domain ++ " is taken"))
  match db.accounts.find? (·.id == account) with
  | none => .error (.sqlite "Query returned no rows")
  | some a =>
    check (decide (((db.addresses.countP fun a => a.accountId == account && a.createdByOwner : Nat) :
        Int) < a.aliasLimit)) (.rule "aliasLimit" s!"at most {a.aliasLimit} own aliases")
    let db := { db with
      addresses := db.addresses ++ [⟨localPart, d, account, .alias, true⟩]
      releasedAddresses := deleteWhere (fun r => r.localPart == localPart && r.domainId == d)
        db.releasedAddresses }
    pure (grantIdentity x account (written localPart domain) "" db)

/-- `delete_own_alias`: the address stays reserved for its owner for 30 days. -/
def deleteOwnAlias (x : Text) (now : Int) (account : Int) (address : String) (db : Db) :
    Except StoreError Db := do
  let (localPart, domain) ← normalizeAddress x address
  let d ← domainId db domain
  match db.addresses.find? fun a =>
      a.key == (localPart, d) && a.accountId == account && a.kind == .alias with
  | none => .error (.notFound s!"alias {written localPart domain}")
  | some a =>
    check a.createdByOwner (.rule "aliasNotYours" "an admin created this alias")
    let db := { db with
      addresses := deleteWhere (·.key == (localPart, d)) db.addresses
      releasedAddresses :=
        deleteWhere (fun r => r.localPart == localPart && r.domainId == d) db.releasedAddresses ++
          [⟨localPart, d, account, now⟩] }
    pure (revokeIdentities x account (written localPart domain) db)

/-! ## 4. Groups -/

def checkName (x : Text) (name : String) : Except StoreError String := do
  let name := x.trim name
  check (name.length ≤ 200) (.invalid "a name may have at most 200 characters")
  pure name

def groupMaxMembers : Nat := 500

/-- `member_ids`: account ids for member logins, each once.  Accounts in the trash cannot join. -/
def memberIds (x : Text) (db : Db) (logins : List String) : Except StoreError (List Int) := do
  check (logins.length ≤ groupMaxMembers)
    (.invalid s!"a group may have at most {groupMaxMembers} members")
  let ids ← logins.mapM fun login =>
    match loginKey x login with
    | .error _ => throw (.notFound s!"account {login}")
    | .ok key =>
      match db.accounts.find? fun a => a.login == key && a.deletedAt.isNone with
      | none => throw (.notFound s!"account {login}")
      | some a => pure a.id
  pure ids.eraseDups

/-- The members of a group, those in the trash too. -/
def Db.groupMemberIds (db : Db) (group : Int) : List Int :=
  (db.groupMembers.filter (·.groupId == group)).map (·.accountId)

/-- The members of a group replaced, where others are given. -/
def Db.putGroupMembers (db : Db) (group : Int) : Option (List Int) → Db
  | none => db
  | some members =>
    { db with
      groupMembers :=
        deleteWhere (·.groupId == group) db.groupMembers ++ members.map (⟨group, ·⟩) }

/-- `set_members`: replaces the members of a group and keeps the identities of those who may send as
it in step. -/
def setMembers (x : Text) (group : Int) (address name : String) (members : Option (List Int))
    (sendAs : Bool) (db : Db) : Db :=
  let before := db.groupMemberIds group
  let after := members.getD before
  let db := (before.filter fun a => !after.contains a || !sendAs).foldl
    (fun db a => revokeIdentities x a address db) (db.putGroupMembers group members)
  if sendAs then after.foldl (fun db a => grantIdentity x a address name db) db else db

structure NewGroup where
  address : String
  name : String := ""
  whoMaySend : WhoMaySend := .anyone
  membersMaySendAs : Bool := false
  members : List String := []

def createGroup (x : Text) (now : Int) (new : NewGroup) (db : Db) : Except StoreError Db := do
  let (localPart, domain) ← normalizeAddress x new.address
  check (!localPart.toList.contains '+') (.rule "aliasInvalid" "an address cannot contain +")
  let name ← checkName x new.name
  let d ← domainId db domain
  ensureMailDomain db d
  checkNotReleased db now (localPart, d) none
  check (!(db.accounts.any (·.login == written localPart domain) || addressInUse db (localPart, d)))
    (.conflict s!"address {written localPart domain}")
  let members ← memberIds x db new.members
  let id := nextRowId (db.groups.map (·.id))
  let db := { db with
    groups := db.groups ++ [⟨id, localPart, d, name, new.whoMaySend, new.membersMaySendAs⟩] }
  pure (setMembers x id (written localPart domain) name (some members) new.membersMaySendAs db)

def groupByAddress (db : Db) (localPart domain : String) : Except StoreError Group :=
  match db.groups.find? fun g => g.localPart == localPart && db.isNamed g.domainId domain with
  | none => .error (.notFound s!"group {written localPart domain}")
  | some g => .ok g

structure GroupUpdate where
  name : Option String := none
  whoMaySend : Option WhoMaySend := none
  membersMaySendAs : Option Bool := none
  /-- Replaces the members, by login. -/
  members : Option (List String) := none

def updateGroup (x : Text) (address : String) (update : GroupUpdate) (db : Db) :
    Except StoreError Db := do
  let (localPart, domain) ← normalizeAddress x address
  let name ← update.name.mapM (checkName x)
  let before ← groupByAddress db localPart domain
  let members ← update.members.mapM (memberIds x db)
  let db := { db with
    groups := updateWhere (·.id == before.id)
      (fun g => { g with
        name := name.getD g.name, whoMaySend := update.whoMaySend.getD g.whoMaySend,
        membersMaySendAs := update.membersMaySendAs.getD g.membersMaySendAs }) db.groups }
  pure (setMembers x before.id (written localPart domain) (name.getD before.name) members
    (update.membersMaySendAs.getD before.membersMaySendAs) db)

def deleteGroup (x : Text) (address : String) (db : Db) : Except StoreError Db := do
  let (localPart, domain) ← normalizeAddress x address
  let g ← groupByAddress db localPart domain
  let members := db.groupMemberIds g.id
  let db := { db with
    groups := deleteWhere (·.id == g.id) db.groups
    groupMembers := deleteWhere (·.groupId == g.id) db.groupMembers }
  pure (members.foldl (fun db m => revokeIdentities x m (written localPart domain) db) db)

/-! ## 5. Forwarding addresses -/

def forwardAddressMaxTargets : Nat := 20

/-- `split`. -/
def splitAddress (x : Text) (address : String) : Except StoreError (String × String) :=
  match normalizeAddress x address with
  | .ok found => .ok found
  | .error _ => .error (.invalid s!"'{address}' is not a valid email address")

/-- `set_forward_address`: creates a forwarding address or replaces its targets. -/
def setForwardAddress (x : Text) (now : Int) (address : String) (targets : List String)
    (note : String) (db : Db) : Except StoreError Db := do
  let (localPart, domain) ← splitAddress x address
  let own := written localPart domain
  let normalized ← targets.mapM fun target => do
    let (targetLocal, targetDomain) ← splitAddress x (x.trim target)
    check (written targetLocal targetDomain != own) (.invalid (own ++ " cannot forward to itself"))
    pure (written targetLocal targetDomain)
  let normalized := normalized.eraseDups
  check (!normalized.isEmpty && normalized.length ≤ forwardAddressMaxTargets)
    (.invalid s!"a forwarding address needs between 1 and {forwardAddressMaxTargets} targets")
  let note := x.trim note
  check (note.length ≤ 200) (.invalid "the note may have at most 200 characters")
  let d ← domainId db domain
  ensureMailDomain db d
  check (!takenByOtherThanForwarding db (localPart, d)) (.conflict s!"address {own}")
  pure { db with
    forwardAddresses :=
      if db.forwardAddresses.any (·.key == (localPart, d)) then
        updateWhere (·.key == (localPart, d)) (fun f => { f with targets := normalized, note })
          db.forwardAddresses
      else db.forwardAddresses ++ [⟨localPart, d, normalized, note, now⟩] }

def removeForwardAddress (x : Text) (address : String) (db : Db) : Except StoreError Db := do
  let (localPart, domain) ← splitAddress x address
  let d ← domainId db domain
  check (db.forwardAddresses.any (·.key == (localPart, d)))
    (.notFound s!"forwarding address {written localPart domain}")
  pure { db with
    forwardAddresses := deleteWhere (·.key == (localPart, d)) db.forwardAddresses }

/-! ## 6. Identities -/

/-- `set_send_as_domains`: replaces the domains an account may send as with any address. -/
def setSendAsDomains (x : Text) (account : Int) (domains : List String) (db : Db) :
    Except StoreError Db := do
  let names ← domains.mapM (normalizeDomain x)
  let ids ← names.mapM (domainId db)
  ids.forM (ensureMailDomain db)
  pure { db with
    sendAsDomains := deleteWhere (·.accountId == account) db.sendAsDomains ++
      ids.eraseDups.map (⟨account, ·⟩) }

/-- `identities`: an account starts with one per address, and one for everything its groups and
shared mailboxes let it send as. -/
def readIdentities (x : Text) (account : Int) (db : Db) : Except StoreError Db :=
  if db.identities.any (·.accountId == account) then .ok db
  else
    match db.accounts.find? (·.id == account) with
    | none => .error (.notFound s!"account {account}")
    | some a =>
      let mine := db.addresses.filter (·.accountId == account)
      let primaryFirst := mine.filter (·.kind == .primary) ++ mine.filter (·.kind != .primary)
      let own := primaryFirst.filterMap fun a => db.addressOf a.key
      let own := (if own.isEmpty then [a.login] else own).map fun email => (email, a.displayName)
      let all := (grantedAddresses db account).foldl (fun all g =>
        if all.any (·.1 == g.1) then all
        else all ++ [(g.1, if x.trim g.2 = "" then a.displayName else g.2)]) own
      .ok (all.foldl (fun db i => db.addIdentity account i.2 i.1) db)

def maxIdentitiesPerAccount : Nat := 2000

def createIdentity (x : Text) (account : Int) (name email : String) (db : Db) :
    Except StoreError Db := do
  let name := x.trim name
  let email := x.trim email
  check (owns x db account email)
    (.rule "forbiddenFrom" (email ++ " is not an address of this account"))
  check (db.identities.countP (·.accountId == account) < maxIdentitiesPerAccount)
    (.rule "overQuota" s!"an account may have at most {maxIdentitiesPerAccount} identities")
  pure (db.addIdentity account name (x.toLowercase email))

/-! ## 7. One transaction after another -/

inductive Op
  | createDomain (name : String) (kind : DomainKind)
  | deleteDomain (name : String)
  | setCatchAll (domain : String) (login : Option String)
  | setDomainSelfService (domain : String) (on : Bool)
  | setDomainKind (domain : String) (kind : DomainKind)
  | setDomainMaskedPolicy (domain : String) (policy : DomainMaskedPolicy)
  | setAccountMaskedPolicy (account : Int) (policy : AccountMaskedPolicy)
  | createAccount (new : NewAccount)
  | setAccountDisabled (login : String) (disabled : Bool)
  | trashAccount (now : Int) (login : String)
  | restoreAccount (login : String)
  | deleteAccount (login : String)
  | shareAccount (account : Int) (members : List (String × Bool))
  | setSharedMailboxMembers (login : String) (members : List (String × Bool))
  | endSharedMailbox (login : String)
  | addAlias (now : Int) (address login : String)
  | removeAlias (address : String)
  | createOwnAlias (now account : Int) (address : String)
  | deleteOwnAlias (now account : Int) (address : String)
  | createGroup (now : Int) (new : NewGroup)
  | updateGroup (address : String) (update : GroupUpdate)
  | deleteGroup (address : String)
  | setForwardAddress (now : Int) (address : String) (targets : List String) (note : String)
  | removeForwardAddress (address : String)
  | createMaskedAddress (now : Int) (picks : List Pick) (account : Int) (new : NewMaskedAddress)
  | updateMaskedAddress (account id : Int) (update : MaskedUpdate)
  | noteMaskedMessage (now id : Int)
  | retirePendingMaskedAddresses (now : Int)
  | setSendAsDomains (account : Int) (domains : List String)
  | readIdentities (account : Int)
  | createIdentity (account : Int) (name email : String)

/-- The call an event stands for. -/
def Op.call (x : Text) (db : Db) : Op → Except StoreError Db
  | .createDomain name kind => Directory.createDomain x name kind db
  | .deleteDomain name => Directory.deleteDomain x name db
  | .setCatchAll domain login => Directory.setCatchAll x domain login db
  | .setDomainSelfService domain on => Directory.setDomainSelfService x domain on db
  | .setDomainKind domain kind => Directory.setDomainKind x domain kind db
  | .setDomainMaskedPolicy domain policy => Directory.setDomainMaskedPolicy x domain policy db
  | .setAccountMaskedPolicy account policy => Directory.setAccountMaskedPolicy x account policy db
  | .createAccount new => Directory.createAccount x new db
  | .setAccountDisabled login disabled => Directory.setAccountDisabled x login disabled db
  | .trashAccount now login => Directory.trashAccount x now login db
  | .restoreAccount login => Directory.restoreAccount x login db
  | .deleteAccount login => Directory.deleteAccount x login db
  | .shareAccount account members => Directory.shareAccount x account members db
  | .setSharedMailboxMembers login members => Directory.setSharedMailboxMembers x login members db
  | .endSharedMailbox login => Directory.endSharedMailbox x login db
  | .addAlias now address login => Directory.addAlias x now address login db
  | .removeAlias address => Directory.removeAlias x address db
  | .createOwnAlias now account address => Directory.createOwnAlias x now account address db
  | .deleteOwnAlias now account address => Directory.deleteOwnAlias x now account address db
  | .createGroup now new => Directory.createGroup x now new db
  | .updateGroup address update => Directory.updateGroup x address update db
  | .deleteGroup address => Directory.deleteGroup x address db
  | .setForwardAddress now address targets note =>
    Directory.setForwardAddress x now address targets note db
  | .removeForwardAddress address => Directory.removeForwardAddress x address db
  | .createMaskedAddress now picks account new =>
    Directory.createMaskedAddress x now picks account new db
  | .updateMaskedAddress account id update => Directory.updateMaskedAddress x account id update db
  | .noteMaskedMessage now id => .ok (Directory.noteMaskedMessage now id db)
  | .retirePendingMaskedAddresses now => .ok (Directory.retirePendingMaskedAddresses now db)
  | .setSendAsDomains account domains => Directory.setSendAsDomains x account domains db
  | .readIdentities account => Directory.readIdentities x account db
  | .createIdentity account name email => Directory.createIdentity x account name email db

/-- The tables after an event, if it was not refused. -/
def step (x : Text) (db : Db) (op : Op) : Option Db := (op.call x db).toOption

theorem step_eq_some {x : Text} {db db' : Db} {op : Op} :
    step x db op = some db' ↔ op.call x db = .ok db' := by
  unfold step
  cases op.call x db <;> simp [Except.toOption]

end UwuMail.Directory
