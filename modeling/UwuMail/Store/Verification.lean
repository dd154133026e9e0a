/-
# The header that carries a verification code

`verification.rs` finds the one-time code or the sign-in link in a mail.  A `Verification-Info`
header that the sender's signature vouches for says it outright; it is read strictly, and **what is
read of it is trustworthy**: the origin lies in the sender's registrable domain, the code is of the
characters a code has, the link leads to the origin over `https` without a user name, and the end is
a day away at most (`fromHeader_spec`).

What a link is said to be is `HttpsBelow`: a URL by its parts, which does not depend on how the
source cuts it.

`Outside` is what the source asks of other crates.
-/
import UwuMail.Directory.Address
import UwuMail.Imap.Dates
import UwuMail.Lib.Letters
import UwuMail.Lib.Pieces
import UwuMail.Store.Sent

namespace UwuMail.Store.Verification

open Abuse (Text byteLen)
open Lib (lower)

/-! ## 1. What is found -/

/-- The longest header value read; a real one is well under 300 bytes. -/
def maxHeader : Nat := 1024

/-- At most this many `key=value` pairs in the header. -/
def maxParams : Nat := 8

/-- The longest link kept. -/
def maxUrl : Nat := 2048

/-- A code is never valid for longer, whatever the sender writes. -/
def maxValidity : Int := 24 * 3600

/-- A code to type or a link to open. -/
inductive Kind
  | otp
  | link
  deriving DecidableEq

def Kind.parse (value : Text) : Option Kind :=
  if value = "otp".toList then some .otp
  else if value = "link".toList then some .link
  else none

/-- What the code is for. -/
inductive Purpose
  | login
  | signup
  | confirmEmail
  | resetPassword
  | confirmAction
  | other
  deriving DecidableEq

def Purpose.parse (value : Text) : Option Purpose :=
  if value = "login".toList then some .login
  else if value = "signup".toList then some .signup
  else if value = "confirm-email".toList then some .confirmEmail
  else if value = "reset-password".toList then some .resetPassword
  else if value = "confirm-action".toList then some .confirmAction
  else if value = "other".toList then some .other
  else none

/-- Where an answer came from: the signed header, or the guess. -/
inductive Source
  | header
  | heuristic
  deriving DecidableEq

/-- A code or link found in a mail. -/
structure Detected where
  kind : Kind
  origin : Text
  code : Option Text
  url : Option Text
  purpose : Purpose
  expiresAt : Int
  source : Source
  autofill : Bool
  deriving DecidableEq

/-- What the SMTP checks found out about the sender, which decides what is believed. -/
structure Authenticity where
  headerSigned : Bool
  dmarcPassed : Bool
  fromDomain : Option Text

/-- The body of a part. -/
inductive Body
  | html (html : Text)
  | other

/-- What is asked of a message that was parsed. -/
structure Message where
  headersRaw : List (Text × Text)
  date : Option Int
  subject : Option Text
  htmlPart : Option Body
  textPart : Option Body
  bodyText : Option Text

/-- The Public Suffix List, the parser of messages, Unicode, regular expressions (the groups of the
first match) and the times of RFC 3339. -/
structure Outside where
  pslDomain : Text → Option Text
  parseMessage : List UInt8 → Option Message
  htmlToText : Text → Text
  toLowercase : Text → Text
  isAlphanumeric : Char → Bool
  isUppercase : Char → Bool
  captures : String → Text → Option (List (Option Text))
  parseRfc3339 : Text → Option Int

/-! ## 2. Hosts, codes and links -/

def isLowerDigit (c : Char) : Bool := c.isDigit || c.isLower

/-- Letters, digits, hyphens and dots, at least two labels, none empty or edged with a hyphen. -/
def isHost (host : Text) : Bool :=
  decide (byteLen host ≤ 253) && host.contains '.' &&
    (host.splitOn '.').all fun label =>
      !label.isEmpty && decide (byteLen label ≤ 63) && label.head? != some '-' && label.getLast? != some '-' &&
        label.all fun c => isLowerDigit c || c == '-'

def trimDots (text : Text) : Text := text.rdropWhile (· == '.')

/-- The registrable domain of a host name by the Public Suffix List.  Nothing for what is not a
plausible host name. -/
def registrableDomain (x : Outside) (host : Text) : Option Text :=
  let host := lower (trimDots (Lib.trim isWhitespace host))
  if isHost host then x.pslDomain host else none

/-- 4 to 12 characters of `[0-9A-Z-]`, at least one of them not a hyphen. -/
def isCode (code : Text) : Bool :=
  decide (4 ≤ byteLen code) && decide (byteLen code ≤ 12) &&
    (code.all fun c => c.isDigit || c.isUpper || c == '-') && code.any (· != '-')

def authorityEnds (c : Char) : Bool := c == '/' || c == '?' || c == '#'

/-- The host of an authority without user information; nothing for a port that is none. -/
def hostOf (authority : Text) : Option Text :=
  match Directory.rsplitOnce ':' authority with
  | some (host, port) => if !port.isEmpty && port.all Char.isDigit then some host else none
  | none => some authority

def notInUrl (c : Char) : Bool := c.toNat ≤ 0x20 || c.toNat == 0x7f || c == '"' || c == '<' || c == '>'

/-- `url` when it is an `https` link to `origin` or a host below it, without user name or
password. -/
def httpsBelow (url origin : Text) : Option Text :=
  if byteLen url > maxUrl ∨ url.any notInUrl then none
  else if lower (url.take 8) ≠ "https://".toList then none
  else
    let authority := (url.drop 8).takeWhile fun c => !authorityEnds c
    if authority.contains '@' || authority.contains '\\' then none
    else
      (hostOf authority).bind fun host =>
        let host := lower host
        if isHost host ∧ (host = origin ∨ '.' :: origin <:+ host) then some url else none

/-! ## 3. The header -/

/-- One part of the header behind those that were read. -/
def readField (fields : List (Text × Text)) (part : Text) : Option (List (Text × Text)) :=
  let part := Lib.trim isWhitespace part
  if part.isEmpty then some fields
  else if part.contains '=' then
    let key := lower (Lib.trim isWhitespace (part.takeWhile (· != '=')))
    let field := Lib.trim isWhitespace (part.dropWhile (· != '=')).tail
    if key.isEmpty || !key.all (fun c => c.isLower || c == '-') then none
    else
      let field := if field.head? = some '"' ∧ 2 ≤ field.length ∧ field.getLast? =
        some '"' then field.tail.dropLast else field
      if fields.any (·.1 == key) || fields.length == maxParams then none
      else some (fields ++ [(key, field)])
  else none

def readFields (value : Text) : Option (List (Text × Text)) :=
  let value := value.map fun c => if c == '\r' || c == '\n' then ' ' else c
  (value.splitOn ';').foldlM readField []

def readPurpose : Option Text → Option Purpose
  | some purpose => Purpose.parse (lower purpose)
  | none => some .other

/-- A code that is none is an error, no code is none. -/
def readCode : Option Text → Option (Option Text)
  | some code => if isCode code then some (some code) else none
  | none => some none

def readUrl (origin : Text) : Option Text → Option (Option Text)
  | some url => (httpsBelow url origin).map some
  | none => some none

def i64Max : Int := 2 ^ 63 - 1
def i64Min : Int := -2 ^ 63

/-- `i64::saturating_add`. -/
def saturatingAdd (a b : Int) : Int := max i64Min (min i64Max (a + b))

/-- Reads `kind=otp; origin=…; code=…; purpose=…; expires=…`.  Strict: anything off and the header
counts as absent. -/
def fromHeader (x : Outside) (value fromDomain : Text) (sent : Option Int) (receivedAt : Int64) :
    Option Detected :=
  if byteLen value > maxHeader then none
  else do
    let fields ← readFields value
    let get (key : String) := (fields.find? (·.1 == key.toList)).map (·.2)
    let kind ← Kind.parse (lower (← get "kind"))
    let origin := lower (trimDots (← get "origin"))
    let domain ← registrableDomain x origin
    let purpose ← readPurpose (get "purpose")
    let code ← readCode (get "code")
    let url ← readUrl origin (get "url")
    let expires ← x.parseRfc3339 (← get "expires")
    -- never longer than a day: not after the mail was written, not after it arrived
    let latest := saturatingAdd (min (sent.getD receivedAt.toInt) receivedAt.toInt) maxValidity
    if domain ≠ fromDomain ∨ (kind = .otp ∧ code = none) ∨ (kind = .link ∧ url = none) then none
    else some ⟨kind, origin, code, url, purpose, min expires latest, .header, true⟩

/-! ## 4. Hosts -/

/-- What the source relies on of the Public Suffix List: the registrable domain of a host is what
stands behind one of its dots, or all of it, has a dot, and is its own. -/
structure Outside.Registry (x : Outside) : Prop where
  suffix : ∀ host domain, x.pslDomain host = some domain → host = domain ∨ '.' :: domain <:+ host
  dotted : ∀ host domain, x.pslDomain host = some domain → '.' ∈ domain
  own : ∀ host domain, x.pslDomain host = some domain → x.pslDomain domain = some domain

section
variable {x : Outside} {host domain code url origin authority before : Text}

theorem byteLen_append (a b : Text) : byteLen (a ++ b) = byteLen a + byteLen b := by
  unfold byteLen
  rw [List.map_append, List.sum_append]

theorem byteLen_cons (c : Char) (a : Text) : byteLen (c :: a) = c.utf8Size + byteLen a := rfl

/-- Of ASCII characters a byte is one. -/
theorem byteLen_ascii (h : ∀ c ∈ code, c.val ≤ 0x7f) : byteLen code = code.length := by
  induction code with
  | nil => rfl
  | cons c code ih =>
    rw [List.forall_mem_cons] at h
    have hone : c.utf8Size = 1 := if_pos h.1
    rw [byteLen_cons, hone, ih h.2, List.length_cons, Nat.add_comm]

/-- A label of a host. -/
def isLabel (label : Text) : Bool :=
  !label.isEmpty && decide (byteLen label ≤ 63) && label.head? != some '-' && label.getLast? != some '-' &&
    label.all fun c => isLowerDigit c || c == '-'

theorem isHost_iff : isHost host = true ↔
    byteLen host ≤ 253 ∧ '.' ∈ host ∧ ∀ label ∈ host.splitOn '.', isLabel label = true := by
  unfold isHost
  rw [Bool.and_eq_true, Bool.and_eq_true, decide_eq_true_eq, List.contains_iff_mem,
    List.all_eq_true, and_assoc]
  rfl

theorem splitOn_behind (before domain : Text) :
    (before ++ '.' :: domain).splitOn '.' = before.splitOn '.' ++ domain.splitOn '.' :=
  List.splitOnP_append_cons before domain (beq_self_eq_true '.')

/-- What stands behind a dot of a host is a host, if it has a dot. -/
theorem isHost_behind (h : isHost (before ++ '.' :: domain) = true) (hdot : '.' ∈ domain) :
    isHost domain = true := by
  rw [isHost_iff] at h ⊢
  obtain ⟨hlen, -, hlabels⟩ := h
  rw [byteLen_append, byteLen_cons] at hlen
  refine ⟨by omega, hdot, fun label hlabel => hlabels label ?_⟩
  rw [splitOn_behind]
  exact List.mem_append_right _ hlabel

/-- A character of a text stands in one of its pieces, or separates them. -/
theorem mem_splitOn {c : Char} (h : c ∈ host) : c = '.' ∨ ∃ label ∈ host.splitOn '.', c ∈ label := by
  rw [← @List.intercalate_splitOn _ host _ _ '.'] at h
  rcases Lib.mem_intercalate h with h | h
  · exact .inl (List.mem_singleton.1 h)
  · exact .inr h

/-- What a host is written with. -/
def isHostChar (c : Char) : Bool := isLowerDigit c || c == '-' || c == '.'

theorem isHostChar_of_isHost (h : isHost host = true) {c : Char} (hc : c ∈ host) : isHostChar c = true := by
  unfold isHostChar
  rcases mem_splitOn hc with rfl | ⟨label, hlabel, hc⟩
  · rfl
  · have hgood := (isHost_iff.1 h).2.2 label hlabel
    unfold isLabel at hgood
    rw [Bool.and_eq_true] at hgood
    rw [Bool.or_eq_true]
    exact .inl (List.all_eq_true.1 hgood.2 c hc)

theorem isHostChar_range {c : Char} (h : isHostChar c = true) : c.toNat = 0x2d ∨ c.toNat = 0x2e ∨
    (0x30 ≤ c.toNat ∧ c.toNat ≤ 0x39) ∨ (0x61 ≤ c.toNat ∧ c.toNat ≤ 0x7a) := by
  unfold isHostChar isLowerDigit Char.isDigit Char.isLower at h
  simp only [Bool.or_eq_true, beq_iff_eq, Bool.and_eq_true, decide_eq_true_eq, ge_iff_le,
    UInt32.le_iff_toNat_le] at h
  rcases h with ((h | h) | rfl) | rfl
  · exact .inr (.inr (.inl h))
  · exact .inr (.inr (.inr h))
  · exact .inl rfl
  · exact .inr (.inl rfl)

theorem isHostChar_toLower {c : Char} (h : isHostChar c = true) : c.toLower = c := by
  rcases Lib.toLower_cases c with heq | ⟨n, hn, rfl, -⟩
  · exact heq
  · have hall : ∀ n < 26, isHostChar (Char.ofNat (65 + n)) = false := by decide
    rw [hall n hn] at h
    cases h

theorem isHostChar_not_white {c : Char} (h : isHostChar c = true) : isWhitespace c = false := by
  have hrange := isHostChar_range h
  rw [Bool.eq_false_iff]
  unfold isWhitespace
  simp only [ne_eq, Bool.or_eq_true, Bool.and_eq_true, decide_eq_true_eq, beq_iff_eq]
  omega

/-- A host ends with no dot. -/
theorem trimDots_host (h : isHost host = true) : trimDots host = host := by
  unfold trimDots
  rw [List.rdropWhile_eq_self_iff]
  intro hne hlast
  rw [beq_iff_eq] at hlast
  have hempty : [] ∈ host.splitOn '.' := by
    rw [← List.dropLast_append_getLast hne, hlast, splitOn_behind]
    exact List.mem_append_right _ List.mem_cons_self
  have hlabel := (isHost_iff.1 h).2.2 [] hempty
  cases hlabel

/-- **A registrable domain is its own.** -/
theorem registrableDomain_own (hx : x.Registry) (h : registrableDomain x host = some domain) :
    registrableDomain x domain = some domain := by
  unfold registrableDomain at h
  dsimp only at h
  split at h
  · next hhost =>
    have hgood : isHost domain = true := by
      rcases hx.suffix _ _ h with heq | ⟨before, heq⟩
      · rwa [heq] at hhost
      · rw [← heq] at hhost
        exact isHost_behind hhost (hx.dotted _ _ h)
    have hchars : ∀ c ∈ domain, isHostChar c = true := fun c hc => isHostChar_of_isHost hgood hc
    have htrim : Lib.trim isWhitespace domain = domain := Lib.trim_eq_self
      (fun c hc => isHostChar_not_white (hchars c (List.mem_of_mem_head? hc)))
      (fun c hc => isHostChar_not_white (hchars c (List.mem_of_mem_getLast? hc)))
    have hlower : lower domain = domain := by
      unfold lower
      rw [List.map_congr_left fun c hc => isHostChar_toLower (hchars c hc), List.map_id']
    unfold registrableDomain
    rw [htrim, trimDots_host hgood, hlower, if_pos hgood]
    exact hx.own _ _ h
  · cases h

/-! ## 5. Codes -/

/-- What a code is made of. -/
structure GoodCode (code : Text) : Prop where
  length : 4 ≤ code.length ∧ code.length ≤ 12
  chars : ∀ c ∈ code, c.isDigit = true ∨ c.isUpper = true ∨ c = '-'
  some : ∃ c ∈ code, c ≠ '-'

theorem val_le_of_codeChar {c : Char} (h : c.isDigit = true ∨ c.isUpper = true ∨ c = '-') : c.val ≤ 0x7f := by
  rw [UInt32.le_iff_toNat_le]
  unfold Char.isDigit Char.isUpper at h
  simp only [Bool.and_eq_true, decide_eq_true_eq, ge_iff_le, UInt32.le_iff_toNat_le] at h
  rcases h with ⟨-, h⟩ | ⟨-, h⟩ | rfl
  · exact Nat.le_trans h (Nat.le_of_ble_eq_true rfl)
  · exact Nat.le_trans h (Nat.le_of_ble_eq_true rfl)
  · exact Nat.le_of_ble_eq_true rfl

theorem goodCode_of_isCode (h : isCode code = true) : GoodCode code := by
  unfold isCode at h
  simp only [Bool.and_eq_true, decide_eq_true_eq, List.all_eq_true, List.any_eq_true, bne_iff_ne,
    Bool.or_eq_true,
    beq_iff_eq, or_assoc] at h
  obtain ⟨⟨⟨hlong, hshort⟩, hchars⟩, hsome⟩ := h
  rw [byteLen_ascii fun c hc => val_le_of_codeChar (hchars c hc)] at hlong hshort
  exact ⟨⟨hlong, hshort⟩, hchars, hsome⟩

/-! ## 6. Links -/

/-- A URL by its parts: `https`, a host and perhaps a port, with no room for a user name, and the
rest; the host is the origin or lies below it. -/
def HttpsBelow (url origin : Text) : Prop := ∃ scheme host port rest,
  url = scheme ++ ("://".toList ++ (host ++ (port ++ rest))) ∧ lower scheme = "https".toList ∧
    (∀ c ∈ host, c.isAlphanum = true ∨ c = '-' ∨ c = '.') ∧
    (port = [] ∨ ∃ digits, port = ':' :: digits ∧ digits ≠ [] ∧ ∀ d ∈ digits, d.isDigit = true) ∧
    (∀ c ∈ rest.head?, c = '/' ∨ c = '?' ∨ c = '#') ∧ (lower host = origin ∨ '.' :: origin <:+ lower host)

theorem eq_of_lower_eq {a marks : Text} (hmarks : ∀ d ∈ marks, Lib.IsMark d) (h : lower a = marks) :
    a = marks := by
  induction a generalizing marks with
  | nil => exact h
  | cons c a ih =>
    cases marks with
    | nil => cases h
    | cons d marks =>
      obtain ⟨hc, ha⟩ := List.cons.inj h
      rw [List.forall_mem_cons] at hmarks
      rw [(Lib.toLower_eq_iff hmarks.1 c).1 hc, ih hmarks.2 ha]

theorem isMark_slashes : ∀ d ∈ "://".toList, Lib.IsMark d := by
  intro d hd
  have hall : d = ':' ∨ d = '/' := by simpa using hd
  rcases hall with rfl | rfl <;> unfold Lib.IsMark <;> decide

theorem alphanum_of_lower {c : Char} (h : isHostChar c.toLower = true) :
    c.isAlphanum = true ∨ c = '-' ∨ c = '.' := by
  rcases Lib.toLower_cases c with heq | ⟨n, hn, rfl, -⟩
  · rw [heq] at h
    unfold isHostChar isLowerDigit at h
    rw [Bool.or_eq_true, Bool.or_eq_true, beq_iff_eq, beq_iff_eq] at h
    rcases h with (h | h) | h
    · left
      unfold Char.isAlphanum Char.isAlpha
      rw [Bool.or_eq_true] at h
      rcases h with h | h <;> simp [h]
    · exact .inr (.inl h)
    · exact .inr (.inr h)
  · have hall : ∀ n < 26, (Char.ofNat (65 + n)).isAlphanum = true := by decide
    exact .inl (hall n hn)

/-- An authority is a host and perhaps a port. -/
theorem hostOf_spec (h : hostOf authority = some host) : ∃ port, authority = host ++ port ∧
    (port = [] ∨ ∃ digits, port = ':' :: digits ∧ digits ≠ [] ∧ ∀ d ∈ digits, d.isDigit = true) := by
  unfold hostOf at h
  split at h
  · next front digits hsplit =>
    obtain ⟨hauthority, -⟩ := Directory.rsplitOnce_eq_some.1 hsplit
    split at h
    · next hport =>
      cases h
      rw [Bool.and_eq_true, Bool.not_eq_true', List.all_eq_true] at hport
      exact ⟨':' :: digits, hauthority, .inr ⟨digits, rfl, by simpa using hport.1, hport.2⟩⟩
    · cases h
  · cases h
    exact ⟨[], (List.append_nil _).symm, .inl rfl⟩

/-- **A link that is kept** is an `https` URL of the origin or of a host below it. -/
theorem httpsBelow_spec {out : Text} (h : httpsBelow url origin = some out) :
    out = url ∧ HttpsBelow url origin := by
  unfold httpsBelow at h
  split at h
  · cases h
  · split at h
    · cases h
    · next hscheme =>
      dsimp only at h
      split at h
      · cases h
      · obtain ⟨host, hhost, h⟩ := Option.bind_eq_some_iff.1 h
        split at h
        · next hgood =>
          cases h
          refine ⟨rfl, ?_⟩
          obtain ⟨port, hauthority, hport⟩ := hostOf_spec hhost
          rw [not_not] at hscheme
          obtain ⟨scheme, slashes, htake, hhttps, hslashes⟩ :=
            List.map_eq_append_iff.1 (show (url.take 8).map Char.toLower = "https".toList ++
              "://".toList from hscheme)
          have hmarks : slashes = "://".toList := eq_of_lower_eq isMark_slashes hslashes
          refine ⟨scheme, host, port, (url.drop 8).dropWhile fun c => !authorityEnds c, ?_, hhttps,
            ?_, hport, ?_, hgood.2⟩
          · rw [← List.append_assoc host, ← hauthority, List.takeWhile_append_dropWhile,
              ← List.append_assoc, ← hmarks, ← htake,
              List.take_append_drop]
          · intro c hc
            exact alphanum_of_lower (isHostChar_of_isHost hgood.1 (List.mem_map_of_mem hc))
          · intro c hc
            have hends := List.head?_dropWhile_not (fun c => !authorityEnds c) (url.drop 8)
            rw [Option.mem_def.1 hc] at hends
            have hstop : authorityEnds c = true := by simpa using hends
            unfold authorityEnds at hstop
            simpa [or_assoc] using hstop
        · cases h

/-! ## 7. What is read of the header -/

/-- What is promised of a code or link that is found. -/
structure Trustworthy (x : Outside) (fromDomain : Text) (receivedAt : Int64) (found : Detected) : Prop where
  origin : registrableDomain x found.origin = some fromDomain
  day : found.expiresAt ≤ receivedAt.toInt + maxValidity
  code : ∀ code ∈ found.code, GoodCode code
  url : ∀ url ∈ found.url, HttpsBelow url found.origin

theorem saturatingAdd_le {a b : Int} {receivedAt : Int64} (ha : a ≤ receivedAt.toInt) (hb : b ≤ maxValidity) :
    saturatingAdd a b ≤ receivedAt.toInt + maxValidity := by
  have hmin := receivedAt.le_toInt
  unfold saturatingAdd i64Max i64Min
  unfold maxValidity at hb ⊢
  omega

theorem readCode_spec {field : Option Text} {read : Option Text} (h : readCode field = some read) :
    ∀ code ∈ read, GoodCode code := by
  unfold readCode at h
  split at h
  · split at h
    · next hgood =>
      cases h
      intro code hcode
      cases hcode
      exact goodCode_of_isCode hgood
    · cases h
  · cases h
    exact fun _ hcode => nomatch hcode

theorem readUrl_spec {field : Option Text} {read : Option Text} (h : readUrl origin field = some read) :
    ∀ url ∈ read, HttpsBelow url origin := by
  unfold readUrl at h
  split at h
  · obtain ⟨out, hout, heq⟩ := Option.map_eq_some_iff.1 h
    cases heq
    intro url hurl
    cases hurl
    obtain ⟨rfl, hlink⟩ := httpsBelow_spec hout
    exact hlink
  · cases h
    exact fun _ hurl => nomatch hurl

/-- **What is read of the header is trustworthy.** -/
theorem fromHeader_spec {value fromDomain : Text} {sent : Option Int} {receivedAt : Int64} {found : Detected}
    (h : fromHeader x value fromDomain sent receivedAt = some found) :
        Trustworthy x fromDomain receivedAt found := by
  unfold fromHeader at h
  split at h
  · cases h
  · simp only [Option.bind_eq_bind, Option.bind_eq_some_iff] at h
    obtain ⟨fields, -, kindText, -, kind, -, originText, -, domain, hdomain, purpose, -, code,
      hcode, url, hurl, expiresText, -,
      expires, -, h⟩ := h
    split at h
    · cases h
    · next hnot =>
      cases h
      rw [not_or, not_not] at hnot
      refine ⟨hnot.1 ▸ hdomain, ?_, readCode_spec hcode, readUrl_spec hurl⟩
      exact (min_le_right _ _).trans (saturatingAdd_le (min_le_right _ _) le_rfl)

end

end UwuMail.Store.Verification
