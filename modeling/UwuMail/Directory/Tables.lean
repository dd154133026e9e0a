/-
# The directory's tables

Domains, accounts and everything that holds an address: the tables of `directory.rs`, `own.rs`,
`groups.rs`, `shared_mailboxes.rs`, `forward_addresses.rs`, `masked.rs`, `masked_domains.rs` and the
identities of `extras.rs`, with the lookups they share.

Four tables hold addresses of our domains: the addresses of the accounts, the groups, the forwarding
addresses and the masked addresses.  `Db.names` is all of them under one key, a local part and the
id of a domain.

A row that is deleted takes along what refers to it (`ON DELETE CASCADE`), except a masked address,
which only forgets its account: its name is never handed out again.
-/
import UwuMail.Directory.Address
import UwuMail.Lib.Table

namespace UwuMail.Directory

open Store (StoreError)

/-! ## 1. Rows -/

inductive DomainKind
  | mail
  | masked
  deriving DecidableEq

/-- Where the users of a domain may make masked addresses. -/
inductive MaskedMode
  | off
  | own
  | dedicated
  | both
  deriving DecidableEq

def MaskedMode.onOwn (m : MaskedMode) : Bool := m = .own || m = .both

def MaskedMode.onDedicated (m : MaskedMode) : Bool := m = .dedicated || m = .both

structure Domain where
  id : Int
  name : String
  kind : DomainKind
  catchAll : Option Int := none
  maskedMode : MaskedMode := .off
  maskedDefault : Option Int := none
  selfServiceAliases : Bool := false

inductive Role
  | admin
  | user
  | service
  deriving DecidableEq

structure Account where
  id : Int
  login : String
  displayName : String
  role : Role
  quotaBytes : Int
  disabled : Bool := false
  deletedAt : Option Int := none
  sharedMailbox : Bool := false
  aliasLimit : Int := 10
  maskedMode : Option MaskedMode := none
  maskedDomainsCustom : Bool := false
  maskedDefault : Option Int := none
  deriving DecidableEq

def Account.canLogIn (a : Account) : Bool := !a.disabled && a.deletedAt.isNone

def Account.activeAdmin (a : Account) : Bool := a.role = .admin && a.canLogIn

def Account.activePerson (a : Account) : Bool := a.role != .service && a.deletedAt.isNone

inductive AddressKind
  | primary
  | alias
  deriving DecidableEq

structure Address where
  localPart : String
  domainId : Int
  accountId : Int
  kind : AddressKind
  createdByOwner : Bool := false

inductive WhoMaySend
  | anyone
  | members
  | domain
  deriving DecidableEq

structure Group where
  id : Int
  localPart : String
  domainId : Int
  name : String
  whoMaySend : WhoMaySend
  membersMaySendAs : Bool

structure GroupMember where
  groupId : Int
  accountId : Int

structure ForwardAddress where
  localPart : String
  domainId : Int
  targets : List String
  note : String
  createdAt : Int

inductive MaskedState
  | pending
  | enabled
  | disabled
  | deleted
  deriving DecidableEq

structure MaskedAddress where
  id : Int
  /-- None once the account is gone. -/
  accountId : Option Int
  localPart : String
  domainId : Int
  state : MaskedState
  forDomain : String
  description : String
  url : Option String
  emailPrefix : Option String
  createdBy : String
  createdAt : Int
  lastMessageAt : Option Int := none

structure ReleasedAddress where
  localPart : String
  domainId : Int
  accountId : Int
  releasedAt : Int

structure SendAsDomain where
  accountId : Int
  domainId : Int

structure SharedMember where
  accountId : Int
  memberId : Int
  maySend : Bool

/-- A mailbox elsewhere that an account fetches, as far as it may be sent from. -/
structure FetchAccount where
  accountId : Int
  address : String
  sendEnabled : Bool
  smtpHost : String

structure Identity where
  id : Int
  accountId : Int
  name : String
  email : String

structure Db where
  domains : List Domain := []
  accounts : List Account := []
  addresses : List Address := []
  groups : List Group := []
  groupMembers : List GroupMember := []
  forwardAddresses : List ForwardAddress := []
  maskedAddresses : List MaskedAddress := []
  releasedAddresses : List ReleasedAddress := []
  sendAsDomains : List SendAsDomain := []
  sharedMailboxMembers : List SharedMember := []
  fetchAccounts : List FetchAccount := []
  /-- `domain_masked_domains`: a mail domain and a masked-only domain its users may use. -/
  domainMaskedDomains : List (Int × Int) := []
  /-- `account_masked_domains`. -/
  accountMaskedDomains : List (Int × Int) := []
  identities : List Identity := []
  /-- `id_high_water` of `accounts`: the highest id an account ever had. -/
  accountHighWater : Int := 0
  /-- The identity ids handed out so far; they are never used again either. -/
  identitySeq : Int := 0

/-! ## 2. Names -/

/-- An address as the tables key it. -/
abbrev Name := String × Int

def Address.key (a : Address) : Name := (a.localPart, a.domainId)

def Group.key (g : Group) : Name := (g.localPart, g.domainId)

def ForwardAddress.key (f : ForwardAddress) : Name := (f.localPart, f.domainId)

def MaskedAddress.key (m : MaskedAddress) : Name := (m.localPart, m.domainId)

/-- Every address of our domains, in whichever of the four tables it stands. -/
def Db.names (db : Db) : List Name :=
  db.addresses.map (·.key) ++ db.groups.map (·.key) ++ db.forwardAddresses.map (·.key) ++
    db.maskedAddresses.map (·.key)

/-- `address_in_use` but for forwarding addresses: `taken_by_other_than_forwarding`. -/
def takenByOtherThanForwarding (db : Db) (name : Name) : Bool :=
  db.addresses.any (·.key == name) || db.groups.any (·.key == name) ||
    db.maskedAddresses.any (·.key == name)

def addressInUse (db : Db) (name : Name) : Bool :=
  db.forwardAddresses.any (·.key == name) || takenByOtherThanForwarding db name

theorem addressInUse_iff {db : Db} {name : Name} : addressInUse db name ↔ name ∈ db.names := by
  simp only [addressInUse, takenByOtherThanForwarding, Db.names, Bool.or_eq_true, List.any_eq_true,
    beq_iff_eq, List.mem_append, List.mem_map, or_assoc, or_left_comm]

/-! ## 3. Lookups -/

/-- The id a table without `AUTOINCREMENT` gives its next row. -/
def nextRowId (ids : List Int) : Int := ids.foldl max 0 + 1

def domainId (db : Db) (name : String) : Except StoreError Int :=
  match db.domains.find? (·.name == name) with
  | some d => .ok d.id
  | none => .error (.notFound s!"domain {name}")

def accountId (db : Db) (login : String) : Except StoreError Int :=
  match db.accounts.find? (·.login == login) with
  | some a => .ok a.id
  | none => .error (.notFound s!"account {login}")

def loadAccount (db : Db) (login : String) : Except StoreError Account :=
  match db.accounts.find? (·.login == login) with
  | some a => .ok a
  | none => .error (.notFound s!"account {login}")

/-- `ensure_mail_domain`: refuses anything but a masked address on a masked-only domain. -/
def ensureMailDomain (db : Db) (domain : Int) : Except StoreError PUnit :=
  match db.domains.find? (·.id == domain) with
  | none => .error (.notFound s!"domain {domain}")
  | some d =>
    if d.kind = .masked then
      .error (.rule "maskedOnlyDomain" (d.name ++ " only carries masked addresses"))
    else .ok ⟨⟩

/-- `ensure_mail_domain`, asked only in some cases. -/
def ensureMailDomainIf (asked : Bool) (db : Db) (domain : Int) : Except StoreError PUnit :=
  if asked then ensureMailDomain db domain else .ok ⟨⟩

/-- The domain a row names is called `name`. -/
def Db.isNamed (db : Db) (domain : Int) (name : String) : Bool :=
  db.domains.any fun d => d.id == domain && d.name == name

/-- The account is there and not in the trash. -/
def Db.living (db : Db) (account : Int) : Bool :=
  db.accounts.any fun a => a.id == account && a.deletedAt.isNone

/-- `released_at >= now - RELEASED_ADDRESS_SECS`: 30 days. -/
def releasedAddressSecs : Int := 30 * 24 * 3600

/-- `check_not_released`: refuses an address someone deleted themselves recently. -/
def checkNotReleased (db : Db) (now : Int) (name : Name) (forAccount : Option Int) :
    Except StoreError PUnit :=
  match db.releasedAddresses.find? fun r =>
      (r.localPart, r.domainId) == name && decide (r.releasedAt ≥ now - releasedAddressSecs) with
  | none => .ok ⟨⟩
  | some r =>
    if some r.accountId = forAccount then .ok ⟨⟩
    else
      let domain := ((db.domains.find? (·.id == name.2)).map (·.name)).getD ""
      .error (.rule "addressReserved"
        (name.1 ++ "@" ++ domain ++ " was deleted recently and is still reserved"))

/-- The written form of a name on a domain called `domain`. -/
def written (localPart domain : String) : String := localPart ++ "@" ++ domain

/-- `SELECT local_part || '@' || d.name … JOIN domains d`: the domain's row is there by its key. -/
def Db.addressOf (db : Db) (name : Name) : Option String :=
  (db.domains.find? (·.id == name.2)).map fun d => written name.1 d.name

/-! ## 4. Identities -/

/-- SQLite's `lower`, which knows ASCII only. -/
def sqlLower (s : String) : String := String.ofList (s.toList.map Char.toLower)

/-- `owns`: whether an account may send as `email`. -/
def owns (x : Text) (db : Db) (account : Int) (email : String) : Bool :=
  match normalizeAddress x email with
  | .error _ => false
  | .ok (localPart, domain) =>
    let names : Name → Bool := fun name =>
      db.isNamed name.2 domain && (name.1 == localPart || name.1 == baseLocalPart localPart)
    (db.addresses.any fun a => a.accountId == account && names a.key) ||
    (db.sendAsDomains.any fun s => s.accountId == account && db.isNamed s.domainId domain) ||
    (db.fetchAccounts.any fun f => f.accountId == account && f.address == written localPart domain &&
      f.sendEnabled && f.smtpHost != "") ||
    (db.groups.any fun g => g.membersMaySendAs && names g.key &&
      db.groupMembers.any fun m => m.groupId == g.id && m.accountId == account) ||
    (db.sharedMailboxMembers.any fun s => s.memberId == account && s.maySend &&
      db.living s.accountId && db.addresses.any fun a => a.accountId == s.accountId && names a.key) ||
    (db.maskedAddresses.any fun m => m.accountId == some account && names m.key &&
      m.state != .deleted)

/-- The identity is one for `email`, in whatever case it is spelt. -/
def Identity.isFor (i : Identity) (account : Int) (email : String) : Bool :=
  i.accountId == account && sqlLower i.email == sqlLower email

def Db.displayName (db : Db) (account : Int) : String :=
  ((db.accounts.find? (·.id == account)).map (·.displayName)).getD ""

/-- A new identity at the end of the table. -/
def Db.addIdentity (db : Db) (account : Int) (name email : String) : Db :=
  { db with
    identities := db.identities ++ [⟨db.identitySeq + 1, account, name, email⟩]
    identitySeq := db.identitySeq + 1 }

/-- `grant_identity`: adds an identity for `email` to an account that has identities already. -/
def grantIdentity (x : Text) (account : Int) (email name : String) (db : Db) : Db :=
  if !(db.identities.any (·.accountId == account)) || db.identities.any (·.isFor account email) then
    db
  else
    let name := x.trim name
    db.addIdentity account (if name = "" then db.displayName account else name) email

/-- `revoke_identities`: removes the identities for `email` from an account that may no longer send
as it. -/
def revokeIdentities (x : Text) (account : Int) (email : String) (db : Db) : Db :=
  if owns x db account email then db
  else { db with identities := Table.deleteWhere (·.isFor account email) db.identities }

/-- `granted_addresses`: what an account may send as because it belongs to a group or a shared
mailbox, with the name its identity starts with. -/
def grantedAddresses (db : Db) (account : Int) : List (String × String) :=
  (db.groups.filter fun g => g.membersMaySendAs &&
      db.groupMembers.any fun m => m.groupId == g.id && m.accountId == account).filterMap
    (fun g => (db.addressOf g.key).map fun address => (address, g.name)) ++
  (db.sharedMailboxMembers.filter fun s => s.memberId == account && s.maySend).flatMap fun s =>
    (db.accounts.filter fun acc => acc.id == s.accountId && acc.deletedAt.isNone).flatMap fun acc =>
      (db.addresses.filter (·.accountId == s.accountId)).filterMap fun a =>
        (db.addressOf a.key).map fun address => (address, acc.displayName)

/-! ## 5. What identities leave alone -/

/-- Only the identities differ. -/
def SameButIdentities (db db' : Db) : Prop :=
  ∃ identities seq, db' = { db with identities, identitySeq := seq }

theorem SameButIdentities.rfl' (db : Db) : SameButIdentities db db := ⟨_, _, rfl⟩

theorem SameButIdentities.trans {db db' db'' : Db} (h : SameButIdentities db db')
    (h' : SameButIdentities db' db'') : SameButIdentities db db'' := by
  obtain ⟨i, n, rfl⟩ := h
  obtain ⟨i', n', rfl⟩ := h'
  exact ⟨i', n', rfl⟩

theorem SameButIdentities.foldl {α : Type} {f : Db → α → Db}
    (hf : ∀ db a, SameButIdentities db (f db a)) (l : List α) (db : Db) :
    SameButIdentities db (l.foldl f db) := by
  induction l generalizing db with
  | nil => exact .rfl' db
  | cons a l ih => exact (hf db a).trans (ih (f db a))

theorem sameButIdentities_grant (x : Text) (account : Int) (email name : String) (db : Db) :
    SameButIdentities db (grantIdentity x account email name db) := by
  unfold grantIdentity
  split
  · exact .rfl' db
  · exact ⟨_, _, rfl⟩

theorem sameButIdentities_revoke (x : Text) (account : Int) (email : String) (db : Db) :
    SameButIdentities db (revokeIdentities x account email db) := by
  unfold revokeIdentities
  split
  · exact .rfl' db
  · exact ⟨_, _, rfl⟩

end UwuMail.Directory
