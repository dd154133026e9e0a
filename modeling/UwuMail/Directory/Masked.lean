/-
# Masked addresses

`masked.rs` and `masked_domains.rs`: random addresses a person makes for one website each, and the
policy of who may make them on which domain.

A domain is a mail domain or a masked-only domain.  Each mail domain says where its users may make
masked addresses: on the domain itself, on some masked-only domains, both, or nowhere; an admin can
set any part of that differently for one account.

The random bytes are an input, and so is the clock.  Whatever they are, a masked address carries no
`+`: not its prefix, not one of the words, not the number (`plus_notMem_random`).
-/
import Mathlib.Data.List.Sort
import UwuMail.Directory.Tables
import UwuMail.Lib.Tx

namespace UwuMail.Directory

open Store (StoreError)
open Table

/-- Stops with `e` where a check fails. -/
def check (ok : Bool) (e : StoreError) : Except StoreError PUnit :=
  if ok then .ok ⟨⟩ else .error e

theorem check_ok {ok : Bool} {e : StoreError} {u : PUnit} : check ok e = .ok u ↔ ok = true := by
  cases ok <;> simp [check]

/-! ## 1. The policy -/

/-- The domains a policy allows, sorted by name. -/
def allowed (mode : MaskedMode) (own : Option String) (maskedDomains : List String) : List String :=
  (((if mode.onOwn then own.toList else []) ++
      (if mode.onDedicated then maskedDomains.filter fun name => own != some name else [])
    ).insertionSort (· ≤ ·)).eraseDups

/-- `pick_default`: the first stored default that is still allowed; otherwise the own domain when
allowed, else the first allowed one by name. -/
def pickDefault (domains : List String) (own : Option String) (stored : List (Option String)) :
    Option String :=
  ((stored.reduceOption.find? domains.contains).or (own.filter domains.contains)).or domains.head?

/-- `own_domain`: the login domain of an account, when it is a mail domain here. -/
def ownDomain (db : Db) (account : Int) : Except StoreError (Option Domain) :=
  match db.accounts.find? (·.id == account) with
  | none => .error (.notFound s!"account {account}")
  | some a =>
    let name := ((rsplitOnce '@' a.login.toList).map fun (_, domain) => String.ofList domain).getD ""
    .ok (db.domains.find? fun d => d.name == name && d.kind == .mail)

/-- The masked-only domains among these, by name. -/
def Db.maskedNames (db : Db) (ids : List Int) : List String :=
  ((db.domains.filter fun d => d.kind == .masked && ids.contains d.id).map (·.name)).insertionSort
    (· ≤ ·)

def Db.domainName (db : Db) (id : Option Int) : Option String :=
  (id.bind fun id => db.domains.find? (·.id == id)).map (·.name)

/-- What holds for an account. -/
structure EffectiveMaskedPolicy where
  domains : List String
  defaultDomain : Option String

/-- `effective`, through `load_domain_policy` and `load_account_policy`: what was set for the
account part by part, and its domain's policy otherwise. -/
def effective (db : Db) (account : Int) : Except StoreError EffectiveMaskedPolicy := do
  let own ← ownDomain db account
  match db.accounts.find? (·.id == account) with
  | none => .error (.notFound s!"account {account}")
  | some a =>
    let domainList := (own.map fun d =>
      db.maskedNames ((db.domainMaskedDomains.filter (·.1 == d.id)).map (·.2))).getD []
    let mode := a.maskedMode.getD ((own.map (·.maskedMode)).getD .off)
    let maskedDomains :=
      if a.maskedDomainsCustom then
        db.maskedNames ((db.accountMaskedDomains.filter (·.1 == account)).map (·.2))
      else domainList
    let name := own.map (·.name)
    let domains := allowed mode name maskedDomains
    let stored := [db.domainName a.maskedDefault, own.bind fun d => db.domainName d.maskedDefault]
    pure ⟨domains, pickDefault domains name stored⟩

/-- `masked_domain_ids`: the ids of masked-only domains; anything else is refused. -/
def maskedDomainIds (x : Text) (db : Db) (names : List String) :
    Except StoreError (List (Int × String)) := do
  let ids ← names.mapM fun name => do
    let name ← normalizeDomain x name
    let id ← domainId db name
    check (db.domains.any fun d => d.id == id && d.kind == .masked)
      (.rule "notMaskedDomain" (name ++ " is not a domain for masked addresses only"))
    pure (id, name)
  pure ids.eraseDups

/-- The default domain a policy names has to be one it allows. -/
def wantedDefault (x : Text) (db : Db) (domains : List String) :
    Option String → Except StoreError (Option Int)
  | none => .ok none
  | some wanted => do
    let wanted ← normalizeDomain x wanted
    check (domains.contains wanted)
      (.rule "maskedDefault" (wanted ++ " is not one of the allowed domains"))
    pure (some (← domainId db wanted))

structure DomainMaskedPolicy where
  mode : MaskedMode
  maskedDomains : List String
  defaultDomain : Option String

/-- `set_domain_masked_policy`: where the users of a mail domain may make masked addresses. -/
def setDomainMaskedPolicy (x : Text) (domain : String) (policy : DomainMaskedPolicy) (db : Db) :
    Except StoreError Db := do
  let domain ← normalizeDomain x domain
  let id ← domainId db domain
  ensureMailDomain db id
  let masked ← maskedDomainIds x db policy.maskedDomains
  let default ← wantedDefault x db (allowed policy.mode (some domain) (masked.map (·.2)))
    policy.defaultDomain
  pure { db with
    domains := updateWhere (·.id == id)
      (fun d => { d with maskedMode := policy.mode, maskedDefault := default }) db.domains
    domainMaskedDomains :=
      deleteWhere (·.1 == id) db.domainMaskedDomains ++ masked.map fun m => (id, m.1) }

structure AccountMaskedPolicy where
  mode : Option MaskedMode
  maskedDomains : Option (List String)
  defaultDomain : Option String

/-- `set_account_masked_policy`: what an admin sets differently for one account. -/
def setAccountMaskedPolicy (x : Text) (account : Int) (policy : AccountMaskedPolicy) (db : Db) :
    Except StoreError Db := do
  let masked ← policy.maskedDomains.mapM (maskedDomainIds x db)
  let own ← ownDomain db account
  let domainList := (own.map fun d =>
    db.maskedNames ((db.domainMaskedDomains.filter (·.1 == d.id)).map (·.2))).getD []
  let mode := policy.mode.getD ((own.map (·.maskedMode)).getD .off)
  let names := (masked.map fun ids => ids.map (·.2)).getD domainList
  let default ← wantedDefault x db (allowed mode (own.map (·.name)) names) policy.defaultDomain
  pure { db with
    accounts := updateWhere (·.id == account)
      (fun a => { a with
        maskedMode := policy.mode, maskedDomainsCustom := masked.isSome, maskedDefault := default })
      db.accounts
    accountMaskedDomains := deleteWhere (·.1 == account) db.accountMaskedDomains ++
      (masked.getD []).map fun m => (account, m.1) }

/-- No policy names the masked-only domain any more. -/
def Db.forgetMaskedDomain (db : Db) (id : Int) : Db :=
  { db with
    domains := updateWhere (·.maskedDefault == some id) (fun d => { d with maskedDefault := none })
      db.domains
    accounts := updateWhere (·.maskedDefault == some id) (fun a => { a with maskedDefault := none })
      db.accounts }

/-- `KindBlockers`: what keeps a mail domain from becoming masked-only.  Accounts in the trash
count, as they can come back. -/
structure KindBlockers where
  accounts : Nat
  aliases : Nat
  groups : Nat
  forwards : Nat
  catchAll : Bool
  sendAs : Nat
  deriving DecidableEq

def blockers (db : Db) (d : Domain) : KindBlockers where
  accounts := db.accounts.countP fun a =>
    ((rsplitOnce '@' a.login.toList).map fun (_, domain) => String.ofList domain) == some d.name
  aliases := db.addresses.countP fun a => a.domainId == d.id && a.kind == .alias
  groups := db.groups.countP (·.domainId == d.id)
  forwards := db.forwardAddresses.countP (·.domainId == d.id)
  catchAll := d.catchAll.isSome
  sendAs := db.sendAsDomains.countP (·.domainId == d.id)

def KindBlockers.isEmpty (b : KindBlockers) : Bool := b == ⟨0, 0, 0, 0, false, 0⟩

def KindBlockers.describe (b : KindBlockers) : String :=
  let counted := [(b.accounts, "accounts"), (b.aliases, "aliases"), (b.groups, "groups"),
    (b.forwards, "forwarding addresses"), (b.sendAs, "people who may send as any of its addresses")]
  let parts := (counted.filter (·.1 > 0)).map fun (count, what) => s!"{count} {what}"
  ", ".intercalate (parts ++ if b.catchAll then ["a catch-all"] else [])

def setDomainKind (x : Text) (domain : String) (kind : DomainKind) (db : Db) :
    Except StoreError Db := do
  let domain ← normalizeDomain x domain
  let id ← domainId db domain
  match db.domains.find? (·.id == id) with
  | none => .error (.notFound s!"domain {id}")
  | some d =>
    if d.kind = kind then pure db
    else
      match kind with
      | .masked => do
        check (blockers db d).isEmpty
          (.rule "kindChangeBlocked"
            (domain ++ " still has " ++ (blockers db d).describe ++ "; remove them first"))
        let db := { db with
          domains := updateWhere (·.id == id)
            (fun d => { d with
              kind := .masked, maskedMode := .off, maskedDefault := none, selfServiceAliases := false })
            db.domains
          domainMaskedDomains := deleteWhere (·.1 == id) db.domainMaskedDomains }
        pure (db.forgetMaskedDomain id)
      | .mail =>
        let db := { db with
          domainMaskedDomains := deleteWhere (·.2 == id) db.domainMaskedDomains
          accountMaskedDomains := deleteWhere (·.2 == id) db.accountMaskedDomains }
        let db := db.forgetMaskedDomain id
        pure { db with
          domains := updateWhere (·.id == id) (fun d => { d with kind := .mail }) db.domains }

/-! ## 2. A random name -/

def words : List String :=
  ["acorn", "amber", "apple", "aspen", "badge", "bagel", "basil", "beach", "berry", "birch",
   "bloom", "brook", "cabin", "candle", "cedar", "cloud", "clover", "cocoa", "comet", "coral",
   "cotton", "daisy", "dune", "ember", "fern", "field", "finch", "flint", "frost", "garden",
   "ginger", "glade", "harbor", "hazel", "honey", "island", "ivory", "jade", "kettle", "kiwi",
   "lagoon", "lemon", "lilac", "linen", "maple", "meadow", "mint", "misty", "moss", "nectar",
   "nutmeg", "oak", "ocean", "olive", "orbit", "otter", "panda", "pebble", "pepper", "piano",
   "pine", "plum", "pond", "poppy", "quartz", "quill", "rainy", "raven", "reed", "river", "robin",
   "saffron", "sage", "sand", "shell", "silver", "sky", "snow", "sparrow", "spruce", "stone",
   "sunny", "thyme", "tide", "tulip", "velvet", "violet", "walnut", "willow", "wind", "wren",
   "zephyr"]

/-- The random bytes of one attempt, read as the three 16-bit numbers they are used as. -/
structure Pick where
  first : Nat
  second : Nat
  number : Nat

/-- `{:03}`. -/
def padded (n : Nat) : List Char :=
  let digits := (toString n).toList
  List.replicate (3 - digits.length) '0' ++ digits

def pickWord (n : Nat) : List Char := (words.getD (n % words.length) "").toList

/-- `random_local_part`: `word.word123`, behind the prefix if there is one. -/
def randomLocalPart (pick : Pick) (localPrefix : Option String) : String :=
  let random := pickWord pick.first ++ '.' :: pickWord pick.second ++ padded (pick.number % 1000)
  match localPrefix with
  | some p => String.ofList (p.toList ++ '.' :: random)
  | none => String.ofList random

theorem plus_notMem_words : ∀ w ∈ words, '+' ∉ w.toList := by decide

theorem plus_notMem_pickWord (n : Nat) : '+' ∉ pickWord n := by
  have hn : n % words.length < words.length := Nat.mod_lt _ (by decide)
  unfold pickWord
  rw [List.getD_eq_getElem _ _ hn]
  exact plus_notMem_words _ (List.getElem_mem hn)

theorem plus_notMem_padded (n : Nat) : '+' ∉ padded n := by
  have hdigits : '+' ∉ (toString n).toList := by
    rw [Nat.toString_eq_ofList_toDigits, String.toList_ofList]
    intro hmem
    have := Nat.isDigit_of_mem_toDigits (by decide) (by decide) hmem
    exact absurd this (by decide)
  unfold padded
  rw [List.mem_append, List.mem_replicate]
  rintro (⟨-, heq⟩ | hmem)
  · exact absurd heq (by decide)
  · exact hdigits hmem

/-- **A masked address has no tag**, if its prefix holds no `+`. -/
theorem plus_notMem_random (pick : Pick) {localPrefix : Option String}
    (hp : ∀ p ∈ localPrefix, '+' ∉ p.toList) : '+' ∉ (randomLocalPart pick localPrefix).toList := by
  have hnum := plus_notMem_padded (pick.number % 1000)
  have h₁ := plus_notMem_pickWord pick.first
  have h₂ := plus_notMem_pickWord pick.second
  cases localPrefix with
  | none => simp [randomLocalPart, hnum, h₁, h₂]
  | some p =>
    have := hp p rfl
    simp [randomLocalPart, hnum, h₁, h₂, this]

/-! ## 3. The addresses -/

/-- `MASKED_PENDING_SECS`: a pending address that got no mail for this long is deleted. -/
def maskedPendingSecs : Int := 24 * 3600

def maskedMaxPerAccount : Nat := 5000

/-- `limited`: a text of at most `max` characters. -/
def limited (x : Text) (value : String) (max : Nat) (what : String) : Except StoreError String := do
  let value := x.trim value
  check (value.length ≤ max) (.invalid (what ++ s!" may have at most {max} characters"))
  check (!value.toList.any x.isControl) (.invalid (what ++ " may not contain control characters"))
  pure value

def checkUrl (x : Text) (url : Option String) : Except StoreError (Option String) :=
  match (url.map x.trim).filter (· != "") with
  | none => .ok none
  | some url => do
    let url ← limited x url 2000 "a URL"
    check (!url.toList.any x.isWhitespace) (.invalid "a URL may not contain spaces")
    pure (some url)

/-- What a prefix may hold: `a-z`, `0-9` and `_`. -/
def prefixChar (c : Char) : Bool := (decide ('a' ≤ c) && decide (c ≤ 'z')) || c.isDigit || c == '_'

def checkPrefix (x : Text) (localPrefix : Option String) : Except StoreError (Option String) :=
  match (localPrefix.map x.trim).filter (· != "") with
  | none => .ok none
  | some p => do
    let p := x.toLowercase p
    check (decide (p.length ≤ 64) && p.toList.all prefixChar)
      (.rule "maskedPrefix" "a prefix may have up to 64 letters a-z, digits and _")
    pure (some p)

theorem plus_notMem_before {x : Text} {given : Option String} {localPrefix : Option String}
    (h : checkPrefix x given = .ok localPrefix) : ∀ p ∈ localPrefix, '+' ∉ p.toList := by
  unfold checkPrefix at h
  split at h
  · cases h
    simp
  · obtain ⟨_, hok, h⟩ := Tx.except_bind_ok h
    cases h
    rintro _ ⟨⟩ hmem
    have hall := List.all_eq_true.1 (Bool.and_eq_true_iff.1 (check_ok.1 hok)).2 _ hmem
    exact absurd hall (by decide)

structure NewMaskedAddress where
  domain : Option String := none
  state : Option MaskedState := none
  forDomain : String := ""
  description : String := ""
  url : Option String := none
  emailPrefix : Option String := none
  createdBy : String := ""

/-- The name of an attempt is not anybody's, and nobody gave it back. -/
def Db.freeMasked (db : Db) (domain : Int) (domainName candidate : String) : Bool :=
  !(db.accounts.any (·.login == written candidate domainName)) &&
    !(db.releasedAddresses.any fun r => r.localPart == candidate && r.domainId == domain) &&
    !addressInUse db (candidate, domain)

/-- Where a new masked address of the account goes: the domain the policy gives. -/
def maskedDomain (db : Db) (account : Int) (wanted : Option String) : Except StoreError String := do
  let policy ← effective db account
  match wanted with
  | some wanted =>
    if policy.domains.contains wanted then pure wanted
    else .error (.rule "maskedDomain"
      ("masked addresses on " ++ wanted ++ " are not allowed for this account"))
  | none =>
    match policy.defaultDomain with
    | some name => pure name
    | none =>
      .error (.rule "maskedDomain" "masked addresses are not switched on for this account")

/-- The domain a client asks for.  A name that is no domain at all is no domain the account may use
either. -/
def wantedDomain (x : Text) (domain : Option String) : Except StoreError (Option String) :=
  match (domain.map x.trim).filter (· != "") with
  | none => .ok none
  | some domain =>
    match normalizeDomain x domain with
    | .ok name => .ok (some name)
    | .error _ => .error (.rule "maskedDomain" (domain ++ " is not a domain for masked addresses"))

/-- The first of twenty attempts whose name is free. -/
def Db.drawMasked (db : Db) (picks : List Pick) (emailPrefix : Option String) (domain : Int)
    (domainName : String) : Option String :=
  ((picks.take 20).map (randomLocalPart · emailPrefix)).find? (db.freeMasked domain domainName)

/-- `create_masked_address`: a masked address with a random name nobody had before.  There are
twenty attempts, `picks` says what is drawn in each. -/
def createMaskedAddress (x : Text) (now : Int) (picks : List Pick) (account : Int)
    (new : NewMaskedAddress) (db : Db) : Except StoreError Db := do
  let state := new.state.getD .pending
  check (state == .pending || state == .enabled)
    (.rule "maskedState" "a new masked address is pending or enabled")
  let forDomain ← limited x new.forDomain 200 "the site"
  let description ← limited x new.description 200 "a description"
  let url ← checkUrl x new.url
  let emailPrefix ← checkPrefix x new.emailPrefix
  let createdBy ← limited x new.createdBy 100 "the creator"
  let wanted ← wantedDomain x new.domain
  check (db.living account) (.notFound s!"account {account}")
  let domainName ← maskedDomain db account wanted
  let domain ← domainId db domainName
  check (decide ((db.maskedAddresses.countP fun m =>
      m.accountId == some account && m.state != .deleted) < maskedMaxPerAccount))
    (.rule "maskedLimit" s!"at most {maskedMaxPerAccount} masked addresses")
  match db.drawMasked picks emailPrefix domain domainName with
  | none => .error (.internal "no free masked address found")
  | some localPart =>
    pure { db with
      maskedAddresses := db.maskedAddresses ++
        [{ id := nextRowId (db.maskedAddresses.map (·.id)), accountId := some account, localPart,
           domainId := domain, state, forDomain, description, url, emailPrefix, createdBy,
           createdAt := now }] }

structure MaskedUpdate where
  state : Option MaskedState := none
  forDomain : Option String := none
  description : Option String := none
  url : Option (Option String) := none

/-- A masked address of an account, with its written form. -/
def loadMasked (db : Db) (account id : Int) : Except StoreError (MaskedAddress × String) :=
  match db.maskedAddresses.find? fun m => m.id == id && m.accountId == some account with
  | none => .error (.notFound s!"masked address {id}")
  | some m =>
    match db.addressOf m.key with
    | none => .error (.notFound s!"masked address {id}")
    | some email => .ok (m, email)

/-- `update_masked_address`.  It can go between enabled, disabled and deleted either way, a deleted
one back included, but never back to pending. -/
def updateMaskedAddress (x : Text) (account id : Int) (update : MaskedUpdate) (db : Db) :
    Except StoreError Db := do
  let forDomain ← update.forDomain.mapM (limited x · 200 "the site")
  let description ← update.description.mapM (limited x · 200 "a description")
  let url ← update.url.mapM (checkUrl x)
  let (before, email) ← loadMasked db account id
  check (!(update.state == some .pending && before.state != .pending))
    (.rule "maskedState" "a masked address cannot become pending again")
  let db := { db with
    maskedAddresses := updateWhere (·.id == id)
      (fun m => { m with
        state := update.state.getD m.state, forDomain := forDomain.getD m.forDomain,
        description := description.getD m.description, url := url.getD m.url })
      db.maskedAddresses }
  -- An identity made for it goes once it is deleted; nobody may send as it any more.
  pure (if update.state.getD before.state = .deleted then revokeIdentities x account email db
    else db)

/-- `note_masked_message`: mail arrived for a masked address; a pending one is enabled by it. -/
def noteMaskedMessage (now id : Int) (db : Db) : Db :=
  { db with
    maskedAddresses := updateWhere (fun m => m.id == id && m.accountId.isSome)
      (fun m => { m with
        lastMessageAt := some now
        state := if m.state = .pending then .enabled else m.state }) db.maskedAddresses }

/-- What `retire_pending_masked_addresses` takes: pending, without mail, and more than a day old. -/
def MaskedAddress.stale (now : Int) (m : MaskedAddress) : Bool :=
  m.state == .pending && m.lastMessageAt.isNone && decide (m.createdAt < now - maskedPendingSecs)

def retirePendingMaskedAddresses (now : Int) (db : Db) : Db :=
  { db with
    maskedAddresses := updateWhere (·.stale now) (fun m => { m with state := .deleted })
      db.maskedAddresses }

/-- What delivery needs to know about a masked address. -/
structure MaskedDelivery where
  id : Int
  /-- The owner, when it still exists and is not in the trash. -/
  accountId : Option Int
  state : MaskedState

def MaskedDelivery.deliversTo (m : MaskedDelivery) : Option Int :=
  if m.state = .deleted then none else m.accountId

/-- The masked address that has this very name. -/
def Db.maskedAt (db : Db) (name : Name) : Option MaskedDelivery :=
  (db.maskedAddresses.find? (·.key == name)).map fun m =>
    ⟨m.id, m.accountId.filter db.living, m.state⟩

/-- `masked::find`: the address itself, or its base without a `+tag`. -/
def findMasked (db : Db) (name : Name) : Option MaskedDelivery :=
  (db.maskedAt name).or
    (if tagged name.1 then db.maskedAt (baseLocalPart name.1, name.2) else none)

end UwuMail.Directory
