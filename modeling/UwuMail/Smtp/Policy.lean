/-
# What a domain asks of those who send to it

`mta_sts.rs` and `dane.rs`: the MTA-STS policy of a domain (RFC 8461), as it is fetched, kept and
found again, and the TLSA records of an MX host (RFC 7672), as the validating resolver answers them.

A policy that was fetched is kept until it expires.  It is followed while the TXT record names it,
and also where the record or the policy host cannot be had NOW: that is what a policy is for.
`policyFor_of_kept` says so for every answer of the two.

The validating resolver, the web and the certificate checks are not in the repository.  What they
answer comes in as it is: `Checked`, `Fetched`, and `Pki` for what is asked about certificates.
-/
import Mathlib.Data.List.Sort
import UwuMail.Directory.Address
import UwuMail.Directory.Tables

namespace UwuMail.Smtp

open Directory (Text asciiText trimEnd sqlLower)

/-! ## 1. MTA-STS policies -/

namespace Sts

inductive Mode
  | enforce
  | testing
  | none
  deriving DecidableEq

def Mode.asStr : Mode → String
  | .enforce => "enforce"
  | .testing => "testing"
  | .none => "none"

def Mode.parse (value : String) : Option Mode :=
  if value = "enforce" then some .enforce
  else if value = "testing" then some .testing
  else if value = "none" then some .none
  else Option.none

@[simp] theorem Mode.parse_asStr (m : Mode) : Mode.parse m.asStr = some m := by
  cases m <;> decide

structure Policy where
  mode : Mode
  /-- MX names, possibly with a leading `*.` for exactly one label. -/
  mx : List String
  maxAge : Nat
  deriving DecidableEq

/-- `trim_end_matches('.')` and `to_ascii_lowercase`. -/
def plainName (name : String) : String :=
  sqlLower (String.ofList (trimEnd (· == '.') name.toList))

def splitOnce (c : Char) (s : List Char) : Option (List Char × List Char) :=
  if c ∈ s then some (s.takeWhile (· != c), (s.dropWhile (· != c)).drop 1) else none

/-- `parse::<u64>`. -/
def parseU64 (s : List Char) : Option Nat :=
  let digits := if s.head? = some '+' then s.drop 1 else s
  if digits ≠ [] ∧ digits.all Char.isDigit then
    let value := digits.foldl (fun n c => 10 * n + (c.toNat - '0'.toNat)) 0
    if value < 2 ^ 64 then some value else none
  else none

/-- RFC 8461 allows at most one year. -/
def maxAgeLimit : Nat := 31557600

/-- What the lines of a policy file have said so far. -/
structure Fields where
  version : Option String := none
  mode : Option Mode := none
  mx : List String := []
  maxAge : Option Nat := none

def Fields.line (x : Text) (f : Fields) (line : List Char) : Except String Fields :=
  let line := (x.trim (String.ofList line)).toList
  if line = [] then .ok f
  else
    match splitOnce ':' line with
    | none => .error s!"the line \"{String.ofList line}\" is not key: value"
    | some (key, value) =>
      let value := x.trim (String.ofList value)
      let key := x.trim (String.ofList key)
      if key = "version" then .ok { f with version := some value }
      else if key = "mode" then
        match Mode.parse value with
        | some mode => .ok { f with mode := some mode }
        | none => .error s!"unknown mode \"{value}\""
      else if key = "mx" then .ok { f with mx := f.mx ++ [plainName value] }
      else if key = "max_age" then
        match parseU64 value.toList with
        | some seconds => .ok { f with maxAge := some (min seconds maxAgeLimit) }
        | none => .error s!"max_age \"{value}\" is not a number"
      else .ok f

def Policy.parse (x : Text) (text : String) : Except String Policy := do
  let f ← (text.toList.splitOn '\n').foldlM (Fields.line x) {}
  if f.version ≠ some "STSv1" then .error "the policy does not start with version: STSv1"
  else
    match f.mode, f.maxAge with
    | none, _ => .error "the policy has no mode"
    | _, none => .error "the policy has no max_age"
    | some mode, some maxAge =>
      if mode ≠ .none ∧ f.mx = [] then .error "the policy lists no mx"
      else .ok { mode, mx := f.mx, maxAge }

/-- Whether an MX host may be used under this policy. -/
def Policy.allows (p : Policy) (host : String) : Bool :=
  let host := (plainName host).toList
  p.mx.any fun pattern =>
    if pattern.toList.take 2 = ['*', '.'] then
      (splitOnce '.' host).any fun (label, rest) => label ≠ [] && rest = pattern.toList.drop 2
    else pattern.toList = host

structure Fetched where
  contentType : String
  body : String

/-- Checks a fetched policy file: text/plain and well-formed. -/
def readFetched (x : Text) (fetched : Fetched) : Except String Policy :=
  let mediaType := x.trim (String.ofList (fetched.contentType.toList.takeWhile (· != ';')))
  if sqlLower mediaType = "text/plain" then Policy.parse x fetched.body
  else .error s!"the policy is served as \"{mediaType}\" instead of text/plain"

/-! ## 2. The policies that are kept -/

structure CachedPolicy where
  domain : String
  policyId : String
  mode : String
  mx : List String
  maxAge : Int
  fetchedAt : Int

def CachedPolicy.expired (c : CachedPolicy) (at_ : Int) : Bool := c.fetchedAt + c.maxAge ≤ at_

/-- `From<&CachedStsPolicy>`. -/
def CachedPolicy.policy (c : CachedPolicy) : Policy :=
  { mode := (Mode.parse c.mode).getD .none, mx := c.mx, maxAge := c.maxAge.toNat }

/-- The row `policy_for` writes. -/
def cachedOf (domain id : String) (p : Policy) (fetchedAt : Int) : CachedPolicy :=
  { domain, policyId := id, mode := p.mode.asStr, mx := p.mx, maxAge := p.maxAge, fetchedAt }

@[simp] theorem policy_cachedOf (domain id : String) (p : Policy) (fetchedAt : Int) :
    (cachedOf domain id p fetchedAt).policy = p := by
  simp [CachedPolicy.policy, cachedOf]

/-- `mta_sts_policies`. -/
abbrev Cache := List CachedPolicy

/-- `cached_sts_policy`. -/
def Cache.find (cache : Cache) (domain : String) : Option CachedPolicy :=
  cache.find? fun c => c.domain == sqlLower domain

/-- `cache_sts_policy`: `INSERT OR REPLACE`. -/
def Cache.keep (cache : Cache) (c : CachedPolicy) : Cache :=
  { c with domain := sqlLower c.domain } :: cache.filter fun c' => c'.domain != sqlLower c.domain

/-- Another domain's policy stays. -/
theorem Cache.find_keep_of_ne {cache : Cache} {c : CachedPolicy} {domain : String}
    (h : sqlLower c.domain ≠ sqlLower domain) : (cache.keep c).find domain = cache.find domain := by
  unfold Cache.find Cache.keep
  rw [List.find?_cons_of_neg (by simpa using h), List.find?_filter]
  congr 1
  funext c'
  by_cases hc : c'.domain = sqlLower domain
  · simp [hc, Ne.symm h]
  · simp [hc]

/-- The answers one lookup gets: of the clock, of the store, of DNS and of the web. -/
structure Answers where
  now : Int
  /-- The store can be read. -/
  readable : Bool := true
  /-- The id the TXT record names. -/
  txt : Option String
  fetched : Except String Fetched
  fetchedAt : Int
  /-- The store takes what was fetched. -/
  writable : Bool := true

inductive Failure
  | stsPolicyInvalid
  | stsWebpkiInvalid
  | stsPolicyFetchError

structure Lookup where
  /-- The policy to follow, if there is one. -/
  policy : Option Policy := none
  /-- The domain announces a policy that could not be had. -/
  failure : Option Failure := none

/-- What a fetch that came to nothing is called in the reports. -/
def failureOf : Except String Fetched → Failure
  | .ok _ => .stsPolicyInvalid
  | .error e =>
    if "certificate".toList <:+: e.toList then .stsWebpkiInvalid else .stsPolicyFetchError

/-- The policy a fetch gives. -/
def fetchedPolicy (x : Text) : Except String Fetched → Option Policy
  | .ok f => (readFetched x f).toOption
  | .error _ => none

/-- `policy_for`: the policy to follow when delivering to `domain`, the cache afterwards, and the
policy that was fetched on the way. -/
def policyFor (x : Text) (cache : Cache) (domain : String) (a : Answers) :
    Lookup × Cache × Option Policy :=
  let domain := plainName domain
  let cached := (if a.readable then cache.find domain else none).filter (!·.expired a.now)
  match a.txt with
  -- No record: the domain has no policy, unless one we saw before is still valid.
  | none => ({ policy := cached.map (·.policy) }, cache, none)
  | some id =>
    match cached.filter (·.policyId = id) with
    | some cached => ({ policy := some cached.policy }, cache, none)
    | none =>
      match fetchedPolicy x a.fetched with
      | some policy =>
        let cache := if a.writable then cache.keep (cachedOf domain id policy a.fetchedAt) else cache
        ({ policy := some policy }, cache, some policy)
      | none =>
        match cached with
        | some cached => ({ policy := some cached.policy }, cache, none)
        | none => ({ failure := some (failureOf a.fetched) }, cache, none)

variable {x : Text} {cache : Cache} {domain : String} {a : Answers}

/-- What was fetched is followed at once. -/
theorem policyFor_of_fetched {p : Policy} (h : (policyFor x cache domain a).2.2 = some p) :
    (policyFor x cache domain a).1.policy = some p ∧
      (policyFor x cache domain a).2.1 = if a.writable then
        cache.keep (cachedOf (plainName domain) (a.txt.getD "") p a.fetchedAt) else cache := by
  unfold policyFor at h ⊢
  dsimp only at h ⊢
  split at h
  · cases h
  · split at h
    · cases h
    · split at h
      · rename_i policy hfetched
        obtain rfl := Option.some.inj h
        simp [*]
      · split at h <;> cases h

theorem cache_of_not_fetched (h : (policyFor x cache domain a).2.2 = none) :
    (policyFor x cache domain a).2.1 = cache := by
  unfold policyFor at h ⊢
  dsimp only at h ⊢
  split at h
  · rfl
  · split at h
    · rfl
    · split at h
      · cases h
      · split <;> rfl

/-- **A policy that is kept is followed** until it expires, whatever the TXT record and the policy
host say, unless another one is fetched. -/
theorem policyFor_of_kept {c : CachedPolicy} (hread : a.readable)
    (hc : cache.find (plainName domain) = some c)
    (hvalid : c.expired a.now = false) (hno : (policyFor x cache domain a).2.2 = none) :
    (policyFor x cache domain a).1.policy = some c.policy := by
  have hcached : (if a.readable then cache.find (plainName domain) else none).filter
      (!·.expired a.now) = some c := by
    simp [hread, hc, hvalid]
  unfold policyFor at hno ⊢
  dsimp only at hno ⊢
  rw [hcached] at hno ⊢
  split at hno
  · rfl
  · split at hno
    · rename_i c' hsame
      obtain ⟨_, rfl⟩ : c.policyId = _ ∧ c = c' := by simpa [Option.filter] using hsame
      rfl
    · split at hno
      · cases hno
      · rfl

end Sts

/-! ## 3. TLSA records -/

/-- A certificate, in DER. -/
abbrev Cert := List UInt8

/-- What is asked about certificates. -/
structure Pki where
  publicKeyInfo : Cert → Option (List UInt8)
  sha256 : List UInt8 → List UInt8
  sha512 : List UInt8 → List UInt8
  /-- `ServerName::try_from`. -/
  serverName : String → Option String
  /-- The roots of the web. -/
  systemRoots : List Cert
  /-- A certificate can be a root at all. -/
  canRoot : Cert → Bool
  /-- `WebPkiServerVerifier` with these roots: the server's certificate, those sent along, and a
  name. -/
  webpki : List Cert → Cert → List Cert → String → Bool

structure Tlsa where
  /-- 0 PKIX-TA, 1 PKIX-EE, 2 DANE-TA, 3 DANE-EE. -/
  usage : Nat
  /-- 0 the whole certificate, 1 its public key. -/
  selector : Nat
  /-- 0 the data itself, 1 SHA-256, 2 SHA-512. -/
  matching : Nat
  data : List UInt8
  deriving DecidableEq

/-- Whether a mail server may use it. -/
def Tlsa.usable (t : Tlsa) : Bool :=
  (t.usage == 2 || t.usage == 3) && t.selector ≤ 1 && t.matching ≤ 2

/-- Whether `cert` is the certificate (or carries the key) this record names. -/
def Tlsa.matches (x : Pki) (t : Tlsa) (cert : Cert) : Bool :=
  let selected :=
    match t.selector with
    | 0 => some cert
    | 1 => x.publicKeyInfo cert
    | _ => none
  match selected, t.matching with
  | some selected, 0 => selected == t.data
  | some selected, 1 => x.sha256 selected == t.data
  | some selected, 2 => x.sha512 selected == t.data
  | _, _ => false

/-- `dane::verify`: the server's certificate against TLSA records.  DANE-EE names it; DANE-TA names
one that was sent along, from which the chain must hold, for one of `names`. -/
def verify (x : Pki) (records : List Tlsa) (endEntity : Cert) (intermediates : List Cert)
    (names : List String) : Bool :=
  (records.any fun r => r.usage == 3 && r.usable && r.matches x endEntity) ||
    records.any fun r => r.usage == 2 && r.usable &&
      intermediates.any fun anchor => r.matches x anchor && x.canRoot anchor &&
        names.any fun name => x.webpki [anchor] endEntity intermediates name

/-- What the validating resolver makes of a question. -/
inductive Checked (α : Type)
  | secure (records : List α)
  /-- No such record, or not signed. -/
  | insecure
  | bogus
  /-- The lookup or its validation did not work. -/
  | failed

inductive HostTlsa
  /-- None, or none that validate as secure. -/
  | none
  /-- Validated records, usable or not. -/
  | records (records : List Tlsa)
  | bogus

def hostTlsa : Checked Tlsa → HostTlsa
  | .secure records => if records.isEmpty then .none else .records records
  | .insecure => .none
  | .bogus => .bogus
  | .failed => .none

inductive ValidatedMx
  /-- The MX hosts as the validated answer names them, the most preferred first. -/
  | secure (hosts : List String)
  /-- Unsigned, or the validating lookup did not work: DANE does not apply. -/
  | insecure
  | bogus
  deriving DecidableEq

/-- `validated_mx`: a preference and an exchange for each record.  `works` is what the resolver's
own probe said. -/
def validatedMx (works : Bool) : Checked (Nat × String) → ValidatedMx
  | .secure records =>
    let exchanges := records.mergeSort fun a b => a.1 ≤ b.1
    if !works || exchanges.isEmpty then .insecure
    else .secure (exchanges.map fun r => String.ofList (trimEnd (· == '.') r.2.toList))
  | .insecure => .insecure
  | .bogus => if works then .bogus else .insecure
  | .failed => .insecure

/-- How DANE applies to one MX host. -/
inductive Dane
  | off
  /-- STARTTLS with a certificate one of these usable records matches. -/
  | verify (records : List Tlsa)
  /-- Records exist, but none is usable: STARTTLS without checking the certificate. -/
  | encryptOnly (records : List Tlsa)
  /-- The TLSA answer does not validate: this host gets no mail for now. -/
  | bogus
  deriving DecidableEq

def Dane.of : HostTlsa → Dane
  | .none => .off
  | .bogus => .bogus
  | .records records =>
    let usable := records.filter (·.usable)
    if usable.isEmpty then .encryptOnly records else .verify usable

def Dane.applies : Dane → Bool
  | .off => false
  | _ => true

end UwuMail.Smtp
