/-
# IP addresses

IPv4 and IPv6 addresses, the text they are written as, and the reading of such a text, as the
standard library has both. An IPv6 address is written with its longest run of zeros left out, and
one that stands for an IPv4 address with that address in its dotted form.

**What is written is read back** (`parse_display`), and it holds nothing but digits, colons and dots
(`isAddressChar_of_mem_display`).

§1 is numbers, §2 IPv4, §3 IPv6, §4 either.
-/
import Mathlib.Algebra.Group.Nat.Defs
import Mathlib.Data.List.Basic
import Mathlib.Data.List.Induction

namespace UwuMail.Lib

/-! ## 1. Numbers -/

/-- `char::to_digit`. -/
def toDigit (radix : Nat) (c : Char) : Option Nat :=
  let digit :=
    if '0' ≤ c ∧ c ≤ '9' then c.toNat - '0'.toNat
    else if 'a' ≤ c ∧ c ≤ 'z' then c.toNat - 'a'.toNat + 10
    else if 'A' ≤ c ∧ c ≤ 'Z' then c.toNat - 'A'.toNat + 10
    else radix
  if digit < radix then some digit else none

def isDigitOf (radix : Nat) (c : Char) : Bool := (toDigit radix c).isSome

def valueOf (radix : Nat) (digits : List Char) : Nat :=
  digits.foldl (fun n c => n * radix + (toDigit radix c).getD 0) 0

/-- Reads a number below `limit` of at most `max` digits. -/
def readNumber (radix max : Nat) (allowZeroPrefix : Bool) (limit : Nat) (text : List Char) :
    Option (Nat × List Char) :=
  let digits := text.takeWhile (isDigitOf radix)
  if digits.length > max ∨ digits = [] then none
  else if !allowZeroPrefix && text.head? == some '0' && 1 < digits.length then none
  else if valueOf radix digits < limit then some (valueOf radix digits, text.dropWhile (isDigitOf radix))
  else none

variable {text : List Char}

section
variable {radix n max limit : Nat} {allowZeroPrefix : Bool} {rest : List Char} {c : Char}

theorem toDigit_digitChar (hradix : radix ≤ 16) {d : Nat} (hd : d < radix) :
    toDigit radix d.digitChar = some d := by
  have hall : ∀ radix ≤ 16, ∀ d < radix, toDigit radix d.digitChar = some d := by decide
  exact hall radix hradix d hd

/-- A number is written with digits, of a larger radix as well. -/
theorem isDigitOf_of_mem_toDigits {radix' : Nat} (hpos : 1 < radix) (hle : radix ≤ radix')
    (hradix : radix' ≤ 16)
    (h : c ∈ Nat.toDigits radix n) : isDigitOf radix' c = true := by
  induction n using Nat.strongRecOn with
  | _ n ih =>
    have hdigit : ∀ d < radix, isDigitOf radix' d.digitChar = true := by
      intro d hd
      unfold isDigitOf
      rw [toDigit_digitChar hradix (Nat.lt_of_lt_of_le hd hle)]
      rfl
    rw [Nat.toDigits_eq_if hpos] at h
    split at h
    · obtain rfl := List.mem_singleton.1 h
      exact hdigit n ‹_›
    · rcases List.mem_append.1 h with h | h
      · exact ih (n / radix) (Nat.div_lt_self (by omega) hpos) h
      · obtain rfl := List.mem_singleton.1 h
        exact hdigit _ (Nat.mod_lt _ (by omega))

theorem valueOf_toDigits (hpos : 1 < radix) (hradix : radix ≤ 16) :
    valueOf radix (Nat.toDigits radix n) = n := by
  induction n using Nat.strongRecOn with
  | _ n ih =>
    rw [Nat.toDigits_eq_if hpos]
    unfold valueOf at ih ⊢
    split
    · rw [List.foldl_cons, List.foldl_nil, toDigit_digitChar hradix ‹_›, Nat.zero_mul, Nat.zero_add]
      rfl
    · rw [List.foldl_append, ih (n / radix) (Nat.div_lt_self (by omega) hpos), List.foldl_cons, List.foldl_nil,
        toDigit_digitChar hradix (Nat.mod_lt _ (by omega)), Option.getD_some]
      exact Nat.div_add_mod' n radix

/-- Only zero begins with a zero. -/
theorem head_toDigits (hpos : 1 < radix) (hradix : radix ≤ 16) (h : (Nat.toDigits radix n).head? = some '0') :
    Nat.toDigits radix n = ['0'] := by
  induction n using Nat.strongRecOn with
  | _ n ih =>
    rw [Nat.toDigits_eq_if hpos] at h ⊢
    split at h
    · rw [if_pos ‹_›]
      exact congrArg ([·]) (Option.some.inj h)
    · rename_i hbig
      rw [List.head?_append_of_ne_nil _ Nat.toDigits_ne_nil] at h
      have hzero := ih (n / radix) (Nat.div_lt_self (by omega) hpos) h
      have hvalue := @valueOf_toDigits radix (n / radix) hpos hradix
      rw [hzero] at hvalue
      have hdigit : valueOf radix ['0'] = 0 := by
        unfold valueOf
        rw [List.foldl_cons, List.foldl_nil, show '0' = Nat.digitChar 0 from rfl,
          toDigit_digitChar hradix (by omega),
          Nat.zero_mul, Nat.zero_add, Option.getD_some]
      have := Nat.div_pos (Nat.not_lt.1 hbig) (by omega)
      omega

/-- **A number that is written is read back**, up to what is no digit. -/
theorem readNumber_toDigits (hpos : 1 < radix) (hradix : radix ≤ 16) (hlimit : n < limit) (hmax : 0 < max)
    (hroom : n < radix ^ max) (hrest : ∀ c ∈ rest.head?, isDigitOf radix c = false) :
    readNumber radix max allowZeroPrefix limit (Nat.toDigits radix n ++ rest) = some (n, rest) := by
  have hdigits : ∀ c ∈ Nat.toDigits radix n, isDigitOf radix c = true :=
    fun c hc => isDigitOf_of_mem_toDigits hpos (Nat.le_refl _) hradix hc
  have hstop : rest.takeWhile (isDigitOf radix) = [] ∧ rest.dropWhile (isDigitOf radix) = rest := by
    cases rest with
    | nil => exact ⟨rfl, rfl⟩
    | cons c rest =>
      have hc := hrest c rfl
      constructor
      · rw [List.takeWhile_cons, hc]
        rfl
      · rw [List.dropWhile_cons, hc]
        rfl
  have hlength : ¬ ((Nat.toDigits radix n).length > max ∨ Nat.toDigits radix n = []) := by
    rintro (h | h)
    · exact absurd ((Nat.length_toDigits_le_iff hpos hmax).2 hroom) (Nat.not_le.2 h)
    · exact Nat.toDigits_ne_nil h
  have hzero : (!allowZeroPrefix && (Nat.toDigits radix n ++ rest).head? == some '0' &&
      decide (1 < (Nat.toDigits radix n).length)) = false := by
    rw [List.head?_append_of_ne_nil _ Nat.toDigits_ne_nil]
    cases hhead : (Nat.toDigits radix n).head? == some '0' with
    | false => simp
    | true =>
      rw [head_toDigits hpos hradix (beq_iff_eq.1 hhead)]
      simp
  unfold readNumber
  rw [List.takeWhile_append_of_pos hdigits, List.dropWhile_append_of_pos hdigits, hstop.1, hstop.2,
    List.append_nil,
    if_neg hlength, hzero, if_neg Bool.false_ne_true, valueOf_toDigits hpos hradix, if_pos hlimit]

theorem readNumber_suffix (h : readNumber radix max allowZeroPrefix limit text = some (n, rest)) :
    rest <:+ text := by
  unfold readNumber at h
  dsimp only at h
  split at h
  · cases h
  split at h
  · cases h
  split at h
  · cases h
    exact List.dropWhile_suffix _
  · cases h

theorem readNumber_eq_none (h : ∀ c ∈ text.head?, isDigitOf radix c = false) :
    readNumber radix max allowZeroPrefix limit text = none := by
  have hnil : text.takeWhile (isDigitOf radix) = [] := by
    cases text with
    | nil => rfl
    | cons c text => rw [List.takeWhile_cons, h c rfl]; rfl
  unfold readNumber
  rw [if_pos (.inr hnil)]

end

/-! ## 2. IPv4 -/

structure Ipv4 where
  a : UInt8
  b : UInt8
  c : UInt8
  d : UInt8

def octetText (octet : UInt8) : List Char := Nat.toDigits 10 octet.toNat

def Ipv4.display (x : Ipv4) : List Char := ['.'].intercalate ([x.a, x.b, x.c, x.d].map octetText)

def readGivenChar (c : Char) : List Char → Option (List Char)
  | d :: text => if d = c then some text else none
  | [] => none

/-- Reads what `inner` reads, behind `sep` if it is not the first. -/
def readSeparator {α : Type} (sep : Char) (first : Bool) (inner : List Char → Option (α × List Char))
    (text : List Char) : Option (α × List Char) :=
  if first then inner text else (readGivenChar sep text).bind inner

@[simp] theorem readGivenChar_self {c : Char} : readGivenChar c (c :: text) = some text := if_pos rfl

/-- No octal numbers. -/
def readOctet (first : Bool) (text : List Char) : Option (UInt8 × List Char) :=
  (readSeparator '.' first (readNumber 10 3 false 256) text).map fun read => (UInt8.ofNat read.1, read.2)

def readIpv4 (text : List Char) : Option (Ipv4 × List Char) := do
  let (a, text) ← readOctet true text
  let (b, text) ← readOctet false text
  let (c, text) ← readOctet false text
  let (d, text) ← readOctet false text
  some (⟨a, b, c, d⟩, text)

section
variable {rest : List Char} {x : Ipv4} {octet : UInt8}

theorem readOctet_true (h : ∀ c ∈ rest.head?, isDigitOf 10 c = false) :
    readOctet true (octetText octet ++ rest) = some (octet, rest) := by
  have hlt := octet.toNat_lt
  unfold readOctet readSeparator octetText
  rw [if_pos rfl, readNumber_toDigits (by decide) (by decide) (by omega) (by decide) (by omega) h, Option.map_some,
    UInt8.ofNat_toNat]

theorem readOctet_false (h : ∀ c ∈ rest.head?, isDigitOf 10 c = false) :
    readOctet false ('.' :: (octetText octet ++ rest)) = some (octet, rest) := by
  unfold readOctet readSeparator
  rw [if_neg Bool.false_ne_true, readGivenChar_self]
  exact readOctet_true h

theorem Ipv4.display_eq (x : Ipv4) : x.display =
    octetText x.a ++ '.' :: (octetText x.b ++ '.' :: (octetText x.c ++ '.' :: octetText x.d)) := by
  unfold Ipv4.display
  simp [List.intercalate_cons_cons]

/-- **A written IPv4 address is read back.** -/
theorem readIpv4_display (h : ∀ c ∈ rest.head?, isDigitOf 10 c = false) :
    readIpv4 (x.display ++ rest) = some (x, rest) := by
  have hdot : ∀ text : List Char, ∀ c ∈ ('.' :: text).head?, isDigitOf 10 c = false := by
    intro text c hc
    cases hc
    decide
  rw [Ipv4.display_eq]
  unfold readIpv4
  simp only [List.append_assoc, List.cons_append]
  simp only [Option.bind_eq_bind]
  rw [readOctet_true (hdot _), Option.bind_some]
  rw [readOctet_false (hdot _), Option.bind_some]
  rw [readOctet_false (hdot _), Option.bind_some]
  rw [readOctet_false h, Option.bind_some]

/-- A text that holds no dot begins with no IPv4 address. -/
theorem readIpv4_eq_none (h : '.' ∉ text) : readIpv4 text = none := by
  unfold readIpv4
  cases hfirst : readOctet true text with
  | none => rfl
  | some read =>
    obtain ⟨a, after⟩ := read
    have hafter : '.' ∉ after := by
      unfold readOctet readSeparator at hfirst
      rw [if_pos rfl] at hfirst
      obtain ⟨read, hread, heq⟩ := Option.map_eq_some_iff.1 hfirst
      cases heq
      exact fun hdot => h ((readNumber_suffix hread).subset hdot)
    rw [Option.bind_eq_bind, Option.bind_some]
    dsimp only
    have hnone : readOctet false after = none := by
      unfold readOctet readSeparator
      rw [if_neg Bool.false_ne_true]
      cases after with
      | nil => rfl
      | cons c after =>
        have hc : c ≠ '.' := fun heq => hafter (List.mem_cons.2 (.inl heq.symm))
        rw [readGivenChar, if_neg hc]
        rfl
    rw [hnone]
    rfl

theorem readIpv4_eq_none_of_head (h : ∀ c ∈ text.head?, isDigitOf 10 c = false) :
    readIpv4 text = none := by
  unfold readIpv4 readOctet readSeparator
  rw [if_pos rfl, readNumber_eq_none h]
  rfl

end

/-! ## 3. IPv6 -/

/-- The eight segments of an IPv6 address. -/
structure Ipv6 where
  segments : List UInt16
  size : segments.length = 8

/-- The segment of two octets. -/
def segmentOf (hi lo : UInt8) : UInt16 := UInt16.ofNat (hi.toNat * 256 + lo.toNat)

def octetsOf (segment : UInt16) : UInt8 × UInt8 := (UInt8.ofNat (segment.toNat / 256),
    UInt8.ofNat (segment.toNat % 256))

/-- `Ipv6Addr::to_ipv4_mapped`. -/
def Ipv6.toIpv4Mapped (x : Ipv6) : Option Ipv4 :=
  match x.segments with
  | [0, 0, 0, 0, 0, 0xffff, ab, cd] => some ⟨(octetsOf ab).1, (octetsOf ab).2, (octetsOf cd).1,
    (octetsOf cd).2⟩
  | _ => none

structure Span where
  start : Nat
  len : Nat

/-- The longest run of zeros so far, and the one that ends here. -/
def zerosStep (spans : Span × Span) (segment : UInt16 × Nat) : Span × Span :=
  if segment.1 = 0 then
    let current : Span := ⟨if spans.2.len = 0 then segment.2 else spans.2.start, spans.2.len + 1⟩
    (if current.len > spans.1.len then current else spans.1, current)
  else (spans.1, ⟨0, 0⟩)

def zeros (segments : List UInt16) : Span := (segments.zipIdx.foldl zerosStep (⟨0, 0⟩, ⟨0, 0⟩)).1

def segmentText (segment : UInt16) : List Char := Nat.toDigits 16 segment.toNat

/-- Writes a colon-separated part of the address. -/
def fmtSubslice (chunk : List UInt16) : List Char := [':'].intercalate (chunk.map segmentText)

def Ipv6.display (x : Ipv6) : List Char :=
  match x.toIpv4Mapped with
  | some mapped => "::ffff:".toList ++ mapped.display
  | none =>
    let zeros := zeros x.segments
    if zeros.len > 1 then
      fmtSubslice (x.segments.take zeros.start) ++ "::".toList ++ fmtSubslice
        (x.segments.drop (zeros.start + zeros.len))
    else fmtSubslice x.segments

/-- Reads `size` groups at most, and says whether an embedded IPv4 address was read, which takes
two. -/
def readGroups : Nat → Bool → List Char → List UInt16 × Bool × List Char
  | 0, _, text => ([], false, text)
  | size + 1, first, text =>
    match (if 1 ≤ size then readSeparator ':' first readIpv4 text else none) with
    | some (x, rest) => ([segmentOf x.a x.b, segmentOf x.c x.d], true, rest)
    | none =>
      match readSeparator ':' first (readNumber 16 4 true 65536) text with
      | some (group, rest) =>
        let (groups, embedded, rest) := readGroups size false rest
        (UInt16.ofNat group :: groups, embedded, rest)
      | none => ([], false, text)

def Ipv6.ofSegments? (segments : List UInt16) : Option Ipv6 :=
  if h : segments.length = 8 then some ⟨segments, h⟩ else none

def readIpv6 (text : List Char) : Option (Ipv6 × List Char) :=
  let (head, embedded, text) := readGroups 8 true text
  if head.length = 8 then (Ipv6.ofSegments? head).map fun x => (x, text)
  -- an IPv4 address is not allowed before `::`
  else if embedded then none
  else
    match (readGivenChar ':' text).bind (readGivenChar ':') with
    | some text =>
      -- the `::` stands for a zero at least
      let (tail, _, text) := readGroups (8 - (head.length + 1)) true text
      let zeros := List.replicate (8 - head.length - tail.length) 0
      (Ipv6.ofSegments? (head ++ (zeros ++ tail))).map fun x => (x, text)
    | none => none

section
variable {groups tail : List UInt16} {group : UInt16} {rest text : List Char} {size : Nat}
  {x : Ipv6}

/-- What groups are written as behind others. -/
def groupsText (groups : List UInt16) : List Char := groups.flatMap fun group => ':' :: segmentText group

theorem fmtSubslice_cons : fmtSubslice (group :: groups) = segmentText group ++ groupsText groups := by
  unfold fmtSubslice groupsText
  induction groups generalizing group with
  | nil => simp
  | cons next groups ih =>
    rw [List.map_cons, List.map_cons, List.intercalate_cons_cons, ← List.map_cons, ih, List.flatMap_cons,
      List.append_assoc]
    rfl

/-- What ends the groups: nothing, or `::`. -/
def EndsGroups (rest : List Char) : Prop := rest = [] ∨ ∃ more, rest = ':' :: ':' :: more

theorem EndsGroups.head (h : EndsGroups rest) : ∀ c ∈ rest.head?, isDigitOf 16 c = false := by
  intro c hc
  rcases h with rfl | ⟨more, rfl⟩
  · cases hc
  · cases hc
    decide

theorem head_groupsText (h : EndsGroups rest) :
    ∀ c ∈ (groupsText groups ++ rest).head?, isDigitOf 16 c = false := by
  cases groups with
  | nil => exact h.head
  | cons group groups =>
    intro c hc
    cases hc
    decide

theorem readGroup_segmentText (h : ∀ c ∈ rest.head?, isDigitOf 16 c = false) :
    readNumber 16 4 true 65536 (segmentText group ++ rest) = some (group.toNat, rest) := by
  have hlt := group.toNat_lt
  exact readNumber_toDigits (by decide) (by decide) (by omega) (by decide) (by omega) h

theorem readGroups_stops (first : Bool) (h : EndsGroups rest) :
    readGroups size first rest = ([], false, rest) := by
  have hnone : ∀ {α : Type} (inner : List Char → Option (α × List Char)),
      (∀ text : List Char, (∀ c ∈ text.head?, c = ':') → inner text = none) →
        readSeparator ':' first inner rest = none := by
    intro α inner hinner
    unfold readSeparator
    cases first with
    | true =>
      refine hinner rest fun c hc => ?_
      rcases h with rfl | ⟨more, rfl⟩
      · cases hc
      · exact (Option.some.inj hc).symm
    | false =>
      rw [if_neg Bool.false_ne_true]
      rcases h with rfl | ⟨more, rfl⟩
      · rfl
      · rw [readGivenChar_self]
        exact hinner _ fun c hc => (Option.some.inj hc).symm
  cases size with
  | zero => rfl
  | succ size =>
    have hipv4 := hnone readIpv4 fun text htext => readIpv4_eq_none_of_head fun c hc => by rw [htext c hc]; decide
    have hgroup := hnone (readNumber 16 4 true 65536) fun text htext => readNumber_eq_none fun c hc => by
      rw [htext c hc]
      decide
    rw [readGroups, hipv4, hgroup, ite_self]

/-- One group is read, where no IPv4 address begins. -/
theorem readGroups_cons (first : Bool) (hipv4 : readIpv4 (segmentText group ++ rest) = none)
    (h : ∀ c ∈ rest.head?, isDigitOf 16 c = false) :
    readGroups (size + 1) first (if first then segmentText group ++
      rest else ':' :: (segmentText group ++ rest)) =
      (group :: (readGroups size false rest).1, (readGroups size false rest).2) := by
  have hseparator : ∀ {α : Type} (inner : List Char → Option (α × List Char)), readSeparator ':' first inner
      (if first then segmentText group ++ rest else ':' :: (segmentText group ++ rest)) =
        inner (segmentText group ++ rest) := by
    intro α inner
    cases first with
    | true => rfl
    | false => rfl
  rw [readGroups, hseparator, hseparator, hipv4, ite_self, readGroup_segmentText h]
  dsimp only
  rw [UInt16.ofNat_toNat]

theorem readGroups_groupsText (hsize : groups.length ≤ size) (hdot : '.' ∉ groupsText groups ++ rest)
    (h : EndsGroups rest) : readGroups size false (groupsText groups ++ rest) = (groups, false, rest) := by
  induction groups generalizing size with
  | nil => exact readGroups_stops false h
  | cons group groups ih =>
    obtain ⟨size, rfl⟩ : ∃ n, size = n + 1 := Nat.exists_eq_succ_of_ne_zero (by simp at hsize; omega)
    have htext : groupsText (group :: groups) ++ rest =
        ':' :: (segmentText group ++ (groupsText groups ++ rest)) := by
      unfold groupsText
      rw [List.flatMap_cons, List.append_assoc]
      rfl
    rw [htext] at hdot ⊢
    have hdot' := fun hmem => hdot (List.mem_cons_of_mem _ hmem)
    have hcons := @readGroups_cons _ _ size false (readIpv4_eq_none hdot') (head_groupsText h)
    rw [if_neg Bool.false_ne_true] at hcons
    rw [hcons, ih (Nat.le_of_succ_le_succ hsize) fun hmem => hdot' (List.mem_append_right _ hmem)]

theorem readGroups_fmtSubslice (hsize : groups.length ≤ size) (hdot : '.' ∉ fmtSubslice groups ++ rest)
    (h : EndsGroups rest) : readGroups size true (fmtSubslice groups ++ rest) = (groups, false, rest) := by
  cases groups with
  | nil => exact readGroups_stops true h
  | cons group groups =>
    obtain ⟨size, rfl⟩ : ∃ n, size = n + 1 := Nat.exists_eq_succ_of_ne_zero (by simp at hsize; omega)
    rw [fmtSubslice_cons, List.append_assoc] at hdot ⊢
    have hcons := @readGroups_cons _ _ size true (readIpv4_eq_none hdot) (head_groupsText h)
    rw [if_pos rfl] at hcons
    rw [hcons, readGroups_groupsText (Nat.le_of_succ_le_succ hsize) (fun hmem => hdot (List.mem_append_right _ hmem)) h]

/-! What is left out is a run of zeros. -/

/-- A span of a list that holds nothing but zeros. -/
def IsRun (segments : List UInt16) (span : Span) : Prop :=
  ∃ before after, segments = before ++ (List.replicate span.len 0 ++ after) ∧
    (0 < span.len → before.length = span.start)

theorem zeros_step (segments : List UInt16) :
    IsRun segments (segments.zipIdx.foldl zerosStep (⟨0, 0⟩, ⟨0, 0⟩)).1 ∧
      ∃ before, segments = before ++ List.replicate (segments.zipIdx.foldl zerosStep (⟨0, 0⟩,
        ⟨0, 0⟩)).2.len 0 ∧
        (0 < (segments.zipIdx.foldl zerosStep (⟨0, 0⟩, ⟨0, 0⟩)).2.len →
          before.length = (segments.zipIdx.foldl zerosStep (⟨0, 0⟩, ⟨0, 0⟩)).2.start) := by
  induction segments using List.reverseRecOn with
  | nil => exact ⟨⟨[], [], rfl, (nomatch ·)⟩, [], rfl, (nomatch ·)⟩
  | append_singleton segments segment ih =>
    rw [List.zipIdx_append, List.foldl_append, Nat.zero_add]
    generalize segments.zipIdx.foldl zerosStep (⟨0, 0⟩, ⟨0, 0⟩) = spans at *
    obtain ⟨⟨before, after, hrun, hstart⟩, before', hcurrent, hstart'⟩ := ih
    have hlonger : IsRun (segments ++ [segment]) spans.1 :=
      ⟨before, after ++ [segment], by rw [hrun]; simp only [List.append_assoc], hstart⟩
    change IsRun _ (zerosStep spans (segment, segments.length)).1 ∧ ∃ before, _ =
      before ++ List.replicate (zerosStep spans (segment, segments.length)).2.len 0 ∧
        (0 < (zerosStep spans (segment, segments.length)).2.len → before.length =
          (zerosStep spans (segment, segments.length)).2.start)
    unfold zerosStep
    by_cases hzero : segment = 0
    · subst hzero
      dsimp only
      rw [if_pos rfl]
      dsimp only
      have hnow : segments ++ [0] = before' ++ List.replicate (spans.2.len + 1) 0 := by
        conv_lhs => rw [hcurrent]
        rw [List.append_assoc, List.replicate_succ']
      have hbegin : before'.length = if spans.2.len = 0 then segments.length else spans.2.start := by
        split
        · rename_i hnone
          rw [hcurrent, hnone, List.replicate_zero, List.append_nil]
        · exact hstart' (Nat.pos_of_ne_zero ‹_›)
      refine ⟨?_, before', hnow, fun _ => hbegin⟩
      split
      · exact ⟨before', [], by rw [List.append_nil]; exact hnow, fun _ => hbegin⟩
      · exact hlonger
    · dsimp only
      rw [if_neg hzero]
      exact ⟨hlonger, segments ++ [segment], (List.append_nil _).symm, (nomatch ·)⟩

/-- **The span that is left out holds nothing but zeros.** -/
theorem zeros_eq (segments : List UInt16) (h : 0 < (zeros segments).len) : segments =
    segments.take (zeros segments).start ++ (List.replicate (zeros segments).len 0 ++
      segments.drop ((zeros segments).start + (zeros segments).len)) := by
  obtain ⟨before, after, hrun, hstart⟩ := (zeros_step segments).1
  change segments = before ++ (List.replicate (zeros segments).len 0 ++ after) at hrun
  change 0 < (zeros segments).len → before.length = (zeros segments).start at hstart
  generalize zeros segments = span at *
  obtain ⟨start, len⟩ := span
  obtain rfl := hstart h
  have hdrop : segments.drop (before.length + len) = after := by
    rw [hrun, ← List.append_assoc, List.drop_left' (by simp)]
  have htake : segments.take before.length = before := by
    rw [hrun, List.take_left]
  rw [htake, hdrop]
  exact hrun

/-! What is written, and that it is read back. -/

theorem isDigitOf_segmentText {c : Char} (h : c ∈ segmentText group) : isDigitOf 16 c = true :=
  isDigitOf_of_mem_toDigits (by decide) (by decide) (by decide) h

theorem mem_fmtSubslice {c : Char} (h : c ∈ fmtSubslice groups) : isDigitOf 16 c = true ∨ c = ':' := by
  cases groups with
  | nil => cases h
  | cons group groups =>
    rw [fmtSubslice_cons] at h
    rcases List.mem_append.1 h with h | h
    · exact .inl (isDigitOf_segmentText h)
    · obtain ⟨next, -, h⟩ := List.mem_flatMap.1 h
      rcases List.mem_cons.1 h with h | h
      · exact .inr h
      · exact .inl (isDigitOf_segmentText h)

theorem dot_notMem_fmtSubslice : '.' ∉ fmtSubslice groups := by
  intro h
  rcases mem_fmtSubslice h with h | h
  · exact absurd h (by decide)
  · exact absurd h (by decide)

theorem segmentOf_octetsOf (segment : UInt16) :
    segmentOf (octetsOf segment).1 (octetsOf segment).2 = segment := by
  have hlt := segment.toNat_lt
  unfold segmentOf octetsOf
  rw [UInt8.toNat_ofNat', UInt8.toNat_ofNat', Nat.mod_eq_of_lt (by omega), Nat.mod_mod, Nat.div_add_mod']
  exact UInt16.ofNat_toNat

/-- What is read where zeros are left out. -/
theorem readIpv6_zeros {n : Nat} (hsize : groups.length + (n + tail.length) = 8) (hlong : 1 < n) :
    readIpv6 (fmtSubslice groups ++ "::".toList ++ fmtSubslice tail) =
      (Ipv6.ofSegments? (groups ++ (List.replicate n 0 ++ tail))).map fun x => (x, []) := by
  have hdot : '.' ∉ fmtSubslice groups ++ ':' :: ':' :: fmtSubslice tail := by
    intro h
    rcases List.mem_append.1 h with h | h
    · exact dot_notMem_fmtSubslice h
    · rcases List.mem_cons.1 h with h | h
      · exact absurd h (by decide)
      · rcases List.mem_cons.1 h with h | h
        · exact absurd h (by decide)
        · exact dot_notMem_fmtSubslice h
  have hhead := @readGroups_fmtSubslice _ _ 8 (by omega) hdot (.inr ⟨_, rfl⟩)
  have htail := @readGroups_fmtSubslice tail [] (8 - (groups.length + 1)) (by omega)
    (by rw [List.append_nil]; exact dot_notMem_fmtSubslice) (.inl rfl)
  rw [List.append_nil] at htail
  have htext : fmtSubslice groups ++ "::".toList ++ fmtSubslice tail =
      fmtSubslice groups ++ ':' :: ':' :: fmtSubslice tail := by rw [List.append_assoc]; rfl
  have hn : 8 - groups.length - tail.length = n := by omega
  rw [htext]
  unfold readIpv6
  rw [hhead]
  dsimp only
  rw [if_neg (by omega), if_neg Bool.false_ne_true, readGivenChar_self, Option.bind_some, readGivenChar_self]
  dsimp only
  rw [htail]
  dsimp only
  rw [hn]

/-- What is read where an IPv4 address is embedded. -/
theorem readIpv6_mapped {mapped : Ipv4} (h : x.toIpv4Mapped = some mapped) :
    readIpv6 ("::ffff:".toList ++ mapped.display) = some (x, []) := by
  obtain ⟨segments, hsize⟩ := x
  unfold Ipv6.toIpv4Mapped at h
  dsimp only at h
  split at h
  · rename_i ab cd
    cases h
    generalize hx : (⟨(octetsOf ab).1, (octetsOf ab).2, (octetsOf cd).1, (octetsOf cd).2⟩ : Ipv4) = mapped
    have hipv4 := @readIpv4_display [] mapped (by intro c hc; cases hc)
    rw [List.append_nil] at hipv4
    have htext : "::ffff:".toList ++ mapped.display =
      ':' :: ':' :: (segmentText 0xffff ++ ':' :: mapped.display) := rfl
    have htail := @readGroups_cons 0xffff (':' :: mapped.display) 6 true
      (readIpv4_eq_none_of_head (by intro c hc; cases hc; decide)) (by intro c hc; cases hc; decide)
    have hembedded : readGroups 6 false (':' :: mapped.display) = ([ab, cd], true, []) := by
      rw [readGroups]
      unfold readSeparator
      rw [if_neg Bool.false_ne_true, readGivenChar_self, Option.bind_some, hipv4, if_pos (by decide), ← hx]
      dsimp only
      rw [segmentOf_octetsOf, segmentOf_octetsOf]
    rw [hembedded, if_pos rfl] at htail
    rw [htext]
    unfold readIpv6
    rw [readGroups_stops true (.inr ⟨_, rfl⟩)]
    dsimp only
    rw [if_neg (by decide), if_neg Bool.false_ne_true, readGivenChar_self, Option.bind_some, readGivenChar_self]
    dsimp only
    rw [List.length_nil, htail]
    rfl
  · cases h

/-- **A written IPv6 address is read back.** -/
theorem readIpv6_display (x : Ipv6) : readIpv6 x.display = some (x, []) := by
  obtain ⟨segments, hsize⟩ := x
  unfold Ipv6.display
  cases hmapped : Ipv6.toIpv4Mapped ⟨segments, hsize⟩ with
  | some mapped => exact readIpv6_mapped hmapped
  | none =>
    dsimp only
    split
    · rename_i hlong
      have hzeros := zeros_eq segments (Nat.lt_of_succ_lt hlong)
      have hlen := congrArg List.length hzeros
      rw [hsize, List.length_append, List.length_append, List.length_replicate] at hlen
      have hread := @readIpv6_zeros (segments.take (zeros segments).start)
        (segments.drop ((zeros segments).start + (zeros segments).len)) (zeros segments).len (by omega) hlong
      rw [hread, ← hzeros, Ipv6.ofSegments?, dif_pos hsize]
      rfl
    · have hread := @readGroups_fmtSubslice _ [] _ (Nat.le_of_eq hsize)
        (by rw [List.append_nil]; exact dot_notMem_fmtSubslice) (.inl rfl)
      rw [List.append_nil] at hread
      unfold readIpv6
      rw [hread]
      dsimp only
      rw [if_pos hsize, Ipv6.ofSegments?, dif_pos hsize]
      rfl

end

/-! ## 4. Either -/

inductive IpAddr
  | v4 (address : Ipv4)
  | v6 (address : Ipv6)

namespace IpAddr

/-- An IPv4 address, where an IPv6 address stands for one. -/
def toCanonical : IpAddr → IpAddr
  | v4 address => v4 address
  | v6 address =>
    match address.toIpv4Mapped with
    | some mapped => v4 mapped
    | none => v6 address

def display : IpAddr → List Char
  | v4 address => address.display
  | v6 address => address.display

def readIpAddr (text : List Char) : Option (IpAddr × List Char) :=
  match readIpv4 text with
  | some (address, rest) => some (v4 address, rest)
  | none => (readIpv6 text).map fun read => (v6 read.1, read.2)

/-- `IpAddr::from_str`. -/
def parse (text : List Char) : Option IpAddr :=
  match readIpAddr text with
  | some (address, []) => some address
  | _ => none

@[simp] theorem toCanonical_toCanonical (address : IpAddr) :
    address.toCanonical.toCanonical = address.toCanonical := by
  cases address with
  | v4 address => rfl
  | v6 address =>
    unfold toCanonical
    cases h : address.toIpv4Mapped with
    | some mapped => simp only [h]
    | none => simp only [h]

theorem readIpv4_display_v6 (x : Ipv6) : readIpv4 x.display = none := by
  unfold Ipv6.display
  split
  · exact readIpv4_eq_none_of_head fun c hc => by cases hc; decide
  · refine readIpv4_eq_none fun h => ?_
    dsimp only at h
    split at h
    · rcases List.mem_append.1 h with h | h
      · rcases List.mem_append.1 h with h | h
        · exact dot_notMem_fmtSubslice h
        · exact absurd h (by decide)
      · exact dot_notMem_fmtSubslice h
    · exact dot_notMem_fmtSubslice h

/-- **What is written is read back.** -/
theorem parse_display (address : IpAddr) : parse address.display = some address := by
  unfold parse readIpAddr
  cases address with
  | v4 address =>
    have hread := @readIpv4_display [] address (by intro c hc; cases hc)
    rw [List.append_nil] at hread
    unfold display
    rw [hread]
  | v6 address =>
    unfold display
    rw [readIpv4_display_v6, readIpv6_display]
    rfl

def isAddressChar (c : Char) : Bool := isDigitOf 16 c || c == ':' || c == '.'

/-- These are ASCII, and no blanks. -/
theorem isAddressChar_range {c : Char} (h : isAddressChar c = true) : 0x2e ≤ c.toNat ∧ c.toNat ≤ 0x66 := by
  unfold isAddressChar at h
  rw [Bool.or_eq_true, Bool.or_eq_true, beq_iff_eq, beq_iff_eq] at h
  rcases h with (h | rfl) | rfl
  · have hle : ∀ a b : Char, a ≤ b ↔ a.toNat ≤ b.toNat := fun a b => UInt32.le_iff_toNat_le
    unfold isDigitOf toDigit at h
    simp only [hle, Char.reduceToNat] at h
    split at h
    · omega
    split at h
    · split at h
      · omega
      · cases h
    split at h
    · omega
    · rw [if_neg (Nat.lt_irrefl _)] at h
      cases h
  · decide
  · decide

theorem isAddressChar_display_v4 {x : Ipv4} {c : Char} (h : c ∈ x.display) : isAddressChar c = true := by
  have hoctet : ∀ octet, ∀ c ∈ octetText octet, isAddressChar c = true := by
    intro octet c hc
    unfold isAddressChar
    rw [isDigitOf_of_mem_toDigits (by decide) (by decide) (by decide) hc]
    rfl
  rw [Ipv4.display_eq] at h
  simp only [List.mem_append, List.mem_cons] at h
  rcases h with h | rfl | h | rfl | h | rfl | h
  · exact hoctet _ _ h
  · decide
  · exact hoctet _ _ h
  · decide
  · exact hoctet _ _ h
  · decide
  · exact hoctet _ _ h

/-- **An address is written with digits, colons and dots.** -/
theorem isAddressChar_of_mem_display {address : IpAddr} {c : Char} (h : c ∈ address.display) :
    isAddressChar c = true := by
  have hchunk : ∀ {groups : List UInt16}, c ∈ fmtSubslice groups → isAddressChar c = true := by
    intro groups h
    unfold isAddressChar
    rcases mem_fmtSubslice h with h | rfl
    · rw [h]
      rfl
    · rfl
  cases address with
  | v4 address => exact isAddressChar_display_v4 h
  | v6 address =>
    change c ∈ address.display at h
    unfold Ipv6.display at h
    split at h
    · rcases List.mem_append.1 h with h | h
      · have hall := List.all_eq_true.1 (by decide : "::ffff:".toList.all isAddressChar = true)
        exact hall c h
      · exact isAddressChar_display_v4 h
    · dsimp only at h
      split at h
      · rcases List.mem_append.1 h with h | h
        · rcases List.mem_append.1 h with h | h
          · exact hchunk h
          · have hall := List.all_eq_true.1 (by decide : "::".toList.all isAddressChar = true)
            exact hall c h
        · exact hchunk h
      · exact hchunk h

end IpAddr

end UwuMail.Lib
