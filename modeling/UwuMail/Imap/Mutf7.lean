/-
# Modified UTF-7

Mailbox names for clients without UTF8=ACCEPT (`mutf7.rs`).  Printable ASCII stands for itself, `&`
is written `&-`, and everything else goes as UTF-16 units in base64 between `&` and `-`.  **What is
encoded is printable ASCII and decodes to the name it was** (`decode_encode`).
-/
import Mathlib.Algebra.Group.Nat.Defs
import Mathlib.Data.List.Basic

namespace UwuMail.Imap.Mutf7

/-! ## 1. UTF-16 -/

/-- `char::encode_utf16`. -/
def encodeUtf16 (c : Char) : List UInt16 :=
  if c.toNat < 0x10000 then [UInt16.ofNat c.toNat]
  else
    let v := c.toNat - 0x10000
    [UInt16.ofNat (0xd800 + v / 0x400), UInt16.ofNat (0xdc00 + v % 0x400)]

/-- `String::from_utf16`: surrogates come in pairs. -/
def fromUtf16 : List UInt16 → Option (List Char)
  | [] => some []
  | u :: units =>
    if u < 0xd800 || 0xdfff < u then (fromUtf16 units).map (Char.ofNat u.toNat :: ·)
    else if 0xdc00 ≤ u then none
    else match units with
      | [] => none
      | v :: units =>
        if 0xdc00 ≤ v && v ≤ 0xdfff then
          (fromUtf16 units).map
            (Char.ofNat (0x10000 + (u.toNat - 0xd800) * 0x400 + (v.toNat - 0xdc00)) :: ·)
        else none

/-- `u16::to_be_bytes`. -/
def toBeBytes (u : UInt16) : List UInt8 := [UInt8.ofNat (u.toNat / 256), UInt8.ofNat (u.toNat % 256)]

/-- `bytes.chunks(2)` with `u16::from_be_bytes`; an odd length is refused before. -/
def fromBeBytes : List UInt8 → List UInt16
  | a :: b :: bytes => UInt16.ofNat (a.toNat * 256 + b.toNat) :: fromBeBytes bytes
  | _ => []

/-! ## 2. Base64 -/

def alphabet : List Char :=
  ['A', 'B', 'C', 'D', 'E', 'F', 'G', 'H', 'I', 'J', 'K', 'L', 'M', 'N', 'O', 'P', 'Q', 'R', 'S',
    'T', 'U', 'V',
    'W', 'X', 'Y', 'Z', 'a', 'b', 'c', 'd', 'e', 'f', 'g', 'h', 'i', 'j', 'k', 'l', 'm', 'n', 'o',
      'p', 'q', 'r',
    's', 't', 'u', 'v', 'w', 'x', 'y', 'z', '0', '1', '2', '3', '4', '5', '6', '7', '8', '9', '+', ',']

/-- The characters of one chunk: one more than it has bytes. -/
def encodeChunk (chunk : List UInt8) : List Char :=
  let n := (chunk.getD 0 0).toNat * 0x10000 + (chunk.getD 1 0).toNat * 0x100 + (chunk.getD 2 0).toNat
  (List.range (chunk.length + 1)).map fun i => alphabet.getD (n / 2 ^ (18 - 6 * i) % 64) 'A'

/-- The loop over `bytes.chunks(3)`. -/
def base64 : List UInt8 → List Char
  | [] => []
  | [a] => encodeChunk [a]
  | [a, b] => encodeChunk [a, b]
  | a :: b :: c :: bytes => encodeChunk [a, b, c] ++ base64 bytes

/-- The loop over the encoded bytes, with its bit buffer. -/
def unbase64 : Nat → Nat → List Char → Option (List UInt8)
  | _, _, [] => some []
  | bits, count, c :: encoded => do
    let value ← alphabet.idxOf? c
    let bits := bits * 64 + value
    let count := count + 6
    if count ≥ 8 then
      let count := count - 8
      (unbase64 (bits % 2 ^ count) count encoded).map (UInt8.ofNat (bits / 2 ^ count) :: ·)
    else unbase64 bits count encoded

/-! ## 3. Names -/

/-- `flush`: what the pending units are written as. -/
def flush (pending : List UInt16) : List Char :=
  if pending.isEmpty then [] else '&' :: base64 (pending.flatMap toBeBytes) ++ ['-']

def isPrintable (c : Char) : Bool := ' ' ≤ c && c ≤ '~'

/-- The loop of `encode`. -/
def encodeFrom : List UInt16 → List Char → List Char
  | pending, [] => flush pending
  | pending, c :: name =>
    if c = '&' then flush pending ++ '&' :: '-' :: encodeFrom [] name
    else if isPrintable c then flush pending ++ c :: encodeFrom [] name
    else encodeFrom (pending ++ encodeUtf16 c) name

def encode (name : List Char) : List Char := encodeFrom [] name

/-- What stands between `&` and `-`. -/
def decodeShifted (encoded : List Char) : Option (List Char) := do
  if encoded.isEmpty then some ['&']
  else
    let bytes ← unbase64 0 0 encoded
    if bytes.length % 2 ≠ 0 then none else fromUtf16 (fromBeBytes bytes)

/-- The loop of `decode`; every turn takes a `&`. -/
def decodeFrom : Nat → List Char → Option (List Char)
  | 0, _ => none
  | fuel + 1, rest =>
    match rest.idxOf? '&' with
    | none => some rest
    | some start => do
      let after := rest.drop (start + 1)
      let stop ← after.idxOf? '-'
      let part ← decodeShifted (after.take stop)
      let more ← decodeFrom fuel (after.drop (stop + 1))
      some (rest.take start ++ part ++ more)

def decode (text : List Char) : Option (List Char) := decodeFrom (text.length + 1) text

/-! ## 4. The units come back -/

variable {c : Char} {u : UInt16} {units : List UInt16} {bytes : List UInt8} {v bits count : Nat}
  {encoded : List Char}

theorem fromUtf16_encode (c : Char) (units : List UInt16) :
    fromUtf16 (encodeUtf16 c ++ units) = (fromUtf16 units).map (c :: ·) := by
  have hvalid : c.toNat < 0xd800 ∨ 0xdfff < c.toNat ∧ c.toNat < 0x110000 := c.valid
  unfold encodeUtf16
  split
  · rename_i hshort
    have hu : (UInt16.ofNat c.toNat).toNat = c.toNat := by
      rw [UInt16.toNat_ofNat', Nat.mod_eq_of_lt hshort]
    have hplain : (UInt16.ofNat c.toNat < 0xd800 || 0xdfff < UInt16.ofNat c.toNat) = true := by
      simp only [Bool.or_eq_true, decide_eq_true_eq, UInt16.lt_iff_toNat_lt, hu]
      exact hvalid.imp id And.left
    rw [List.singleton_append, fromUtf16.eq_def]
    simp only [hplain, if_true, hu, Char.ofNat_toNat]
  · rename_i hlong
    obtain ⟨v, hv⟩ : ∃ v, c.toNat = 0x10000 + v := ⟨c.toNat - 0x10000, by omega⟩
    have hbound : v < 0x100000 := by omega
    have hhigh : (UInt16.ofNat (0xd800 + v / 0x400)).toNat = 0xd800 + v / 0x400 := by
      rw [UInt16.toNat_ofNat', Nat.mod_eq_of_lt (by omega)]
    have hlow : (UInt16.ofNat (0xdc00 + v % 0x400)).toNat = 0xdc00 + v % 0x400 := by
      rw [UInt16.toNat_ofNat', Nat.mod_eq_of_lt (by omega)]
    have hv' : c.toNat - 0x10000 = v := by omega
    dsimp only
    rw [hv']
    generalize UInt16.ofNat (0xd800 + v / 0x400) = high at hhigh
    generalize UInt16.ofNat (0xdc00 + v % 0x400) = low at hlow
    have h₁ : (high < 0xd800 || 0xdfff < high) = false := by
      simp only [Bool.or_eq_false_iff, decide_eq_false_iff_not, UInt16.lt_iff_toNat_lt, hhigh]
      have : UInt16.toNat 0xd800 = 0xd800 := rfl
      have : UInt16.toNat 0xdfff = 0xdfff := rfl
      omega
    have h₂ : ¬ 0xdc00 ≤ high := by
      have : UInt16.toNat 0xdc00 = 0xdc00 := rfl
      rw [UInt16.le_iff_toNat_le, hhigh]
      omega
    have h₃ : (0xdc00 ≤ low && low ≤ 0xdfff) = true := by
      simp only [Bool.and_eq_true, decide_eq_true_eq, UInt16.le_iff_toNat_le, hlow]
      have : UInt16.toNat 0xdc00 = 0xdc00 := rfl
      have : UInt16.toNat 0xdfff = 0xdfff := rfl
      omega
    have hvalue : 0x10000 + (high.toNat - 0xd800) * 0x400 + (low.toNat - 0xdc00) = c.toNat := by
      rw [hhigh, hlow]
      omega
    rw [List.cons_append, List.singleton_append, fromUtf16.eq_def]
    simp only [h₁]
    simp only [Bool.false_eq_true, if_false, h₂, h₃, if_true, hvalue, Char.ofNat_toNat]

theorem fromBeBytes_append (u : UInt16) (bytes : List UInt8) :
    fromBeBytes (toBeBytes u ++ bytes) = u :: fromBeBytes bytes := by
  have hu : (u.toNat / 256 % 256) * 256 + u.toNat % 256 % 256 = u.toNat := by
    have := u.toNat_lt
    omega
  change UInt16.ofNat (_ * 256 + _) :: _ = _
  rw [UInt8.toNat_ofNat', UInt8.toNat_ofNat', hu, UInt16.ofNat_toNat]
  rfl

theorem length_toBeBytes (units : List UInt16) : (units.flatMap toBeBytes).length = 2 * units.length := by
  induction units with
  | nil => rfl
  | cons u units ih =>
    rw [List.flatMap_cons, List.length_append, ih, List.length_cons]
    simp only [toBeBytes, List.length_cons, List.length_nil]
    omega

theorem fromBeBytes_units (units : List UInt16) : fromBeBytes (units.flatMap toBeBytes) = units := by
  induction units with
  | nil => rfl
  | cons u units ih => rw [List.flatMap_cons, fromBeBytes_append, ih]

/-- What the printed units are read as, character by character. -/
theorem fromUtf16_units (name : List Char) : fromUtf16 (name.flatMap encodeUtf16) = some name := by
  induction name with
  | nil => rfl
  | cons c name ih => rw [List.flatMap_cons, fromUtf16_encode, ih, Option.map_some]

/-! ## 5. The bytes come back -/

theorem idxOf_alphabet : ∀ v < 64, alphabet.idxOf? (alphabet.getD v 'A') = some v := by decide

/-- A character of the alphabet fills the bit buffer, and a byte is taken where it holds one. -/
theorem unbase64_cons (hv : v < 64) : unbase64 bits count (alphabet.getD v 'A' :: encoded) =
    if count + 6 ≥ 8 then
      (unbase64 ((bits * 64 + v) % 2 ^ (count + 6 - 8)) (count + 6 - 8) encoded).map
        (UInt8.ofNat ((bits * 64 + v) / 2 ^ (count + 6 - 8)) :: ·)
    else unbase64 (bits * 64 + v) (count + 6) encoded := by
  rw [unbase64, idxOf_alphabet v hv]
  rfl

@[simp] theorem unbase64_nil : unbase64 bits count [] = some [] := rfl

/-- The four sextets of a number of 24 bits, put together again byte by byte. -/
theorem sextets (a b c : UInt8) : let n := a.toNat * 0x10000 + b.toNat * 0x100 + c.toNat
    (n / 2 ^ 18 % 64 * 64 + n / 2 ^ 12 % 64) / 2 ^ 4 = a.toNat ∧
    ((n / 2 ^ 18 % 64 * 64 + n / 2 ^ 12 % 64) % 2 ^ 4 * 64 + n / 2 ^ 6 % 64) / 2 ^ 2 = b.toNat ∧
    (((n / 2 ^ 18 % 64 * 64 + n / 2 ^ 12 % 64) % 2 ^ 4 * 64 + n / 2 ^ 6 % 64) % 2 ^ 2 * 64 +
      n / 2 ^ 0 % 64) / 2 ^ 0 = c.toNat := by
  have ha := a.toNat_lt
  have hb := b.toNat_lt
  have hc := c.toNat_lt
  refine ⟨?_, ?_, ?_⟩ <;> omega

theorem sextet_lt (n : Nat) : n % 64 < 64 := Nat.mod_lt n (by decide)

/-- Three bytes come back, and the buffer is empty after them. -/
theorem unbase64_three (a b c : UInt8) (encoded : List Char) :
    unbase64 0 0 (encodeChunk [a, b, c] ++ encoded) = (unbase64 0 0 encoded).map ([a, b, c] ++ ·) := by
  obtain ⟨h₁, h₂, h₃⟩ := sextets a b c
  have hchunk : encodeChunk [a, b, c] =
      let n := a.toNat * 0x10000 + b.toNat * 0x100 + c.toNat
      [alphabet.getD (n / 2 ^ 18 % 64) 'A', alphabet.getD (n / 2 ^ 12 % 64) 'A',
        alphabet.getD (n / 2 ^ 6 % 64) 'A', alphabet.getD (n / 2 ^ 0 % 64) 'A'] := rfl
  rw [hchunk]
  generalize a.toNat * 0x10000 + b.toNat * 0x100 + c.toNat = n at h₁ h₂ h₃
  simp only [List.cons_append, List.nil_append, unbase64_cons (sextet_lt _), Nat.zero_add,
    Nat.zero_mul, ge_iff_le,
    Nat.reduceLeDiff, Nat.reduceAdd, Nat.reduceSub, if_false, if_true]
  rw [h₁, h₂, h₃, Nat.pow_zero, Nat.mod_one, UInt8.ofNat_toNat, UInt8.ofNat_toNat, UInt8.ofNat_toNat]
  cases unbase64 0 0 encoded <;> rfl

/-- The last chunk: what is left in the buffer is padding. -/
theorem unbase64_two (a b : UInt8) : unbase64 0 0 (encodeChunk [a, b]) = some [a, b] := by
  obtain ⟨h₁, h₂, -⟩ := sextets a b 0
  have hchunk : encodeChunk [a, b] =
      let n := a.toNat * 0x10000 + b.toNat * 0x100 + UInt8.toNat 0
      [alphabet.getD (n / 2 ^ 18 % 64) 'A', alphabet.getD (n / 2 ^ 12 % 64) 'A',
        alphabet.getD (n / 2 ^ 6 % 64) 'A'] := rfl
  rw [hchunk]
  generalize a.toNat * 0x10000 + b.toNat * 0x100 + UInt8.toNat 0 = n at h₁ h₂
  simp only [unbase64_cons (sextet_lt _), Nat.zero_add, Nat.zero_mul, ge_iff_le,
    Nat.reduceLeDiff, Nat.reduceAdd, Nat.reduceSub, if_false, if_true, unbase64_nil, Option.map_some]
  rw [h₁, h₂, UInt8.ofNat_toNat, UInt8.ofNat_toNat]

theorem unbase64_one (a : UInt8) : unbase64 0 0 (encodeChunk [a]) = some [a] := by
  have h₁ : (a.toNat * 0x10000 / 2 ^ 18 % 64 * 64 + a.toNat * 0x10000 / 2 ^ 12 % 64) / 2 ^ 4 = a.toNat := by
    have := a.toNat_lt
    omega
  have hchunk : encodeChunk [a] =
      let n := a.toNat * 0x10000 + UInt8.toNat 0 * 0x100 + UInt8.toNat 0
      [alphabet.getD (n / 2 ^ 18 % 64) 'A', alphabet.getD (n / 2 ^ 12 % 64) 'A'] := rfl
  have hpad : a.toNat * 0x10000 + UInt8.toNat 0 * 0x100 + UInt8.toNat 0 = a.toNat * 0x10000 := by
    simp only [UInt8.toNat_zero, Nat.zero_mul, Nat.add_zero]
  rw [hchunk, hpad]
  generalize a.toNat * 0x10000 = n at h₁
  simp only [unbase64_cons (sextet_lt _), Nat.zero_add, Nat.zero_mul, ge_iff_le,
    Nat.reduceLeDiff, Nat.reduceAdd, Nat.reduceSub, if_false, if_true, unbase64_nil, Option.map_some]
  rw [h₁, UInt8.ofNat_toNat]

/-- **Base64 comes back.** -/
theorem unbase64_base64 (bytes : List UInt8) : unbase64 0 0 (base64 bytes) = some bytes := by
  induction bytes using base64.induct with
  | case1 => rfl
  | case2 a => exact unbase64_one a
  | case3 a b => exact unbase64_two a b
  | case4 a b c bytes ih => rw [base64, unbase64_three, ih, Option.map_some]; rfl

/-- What base64 is written with: printable, and none of the two marks. -/
theorem mem_base64 (h : c ∈ base64 bytes) : isPrintable c = true ∧ c ≠ '&' ∧ c ≠ '-' := by
  have hall : alphabet.all (fun d => isPrintable d && d != '&' && d != '-') = true := by decide
  have halphabet : ∀ d ∈ alphabet, isPrintable d = true ∧ d ≠ '&' ∧ d ≠ '-' := by
    intro d hd
    simpa [and_assoc] using List.all_eq_true.1 hall d hd
  have hget : ∀ v, alphabet.getD v 'A' ∈ alphabet := by
    intro v
    rw [List.getD_eq_getElem?_getD]
    cases hv : alphabet[v]? with
    | none => exact List.mem_cons_self
    | some d => exact List.mem_of_getElem? hv
  have hchunk : ∀ chunk, c ∈ encodeChunk chunk → c ∈ alphabet := by
    intro chunk hc
    obtain ⟨i, -, rfl⟩ := List.mem_map.1 hc
    exact hget _
  refine halphabet c ?_
  induction bytes using base64.induct with
  | case1 => cases h
  | case2 a => exact hchunk _ h
  | case3 a b => exact hchunk _ h
  | case4 a b c bytes ih =>
    rcases List.mem_append.1 h with h | h
    · exact hchunk _ h
    · exact ih h

theorem base64_ne_nil (h : bytes ≠ []) : base64 bytes ≠ [] := by
  match bytes, h with
  | [a], _ => exact List.cons_ne_nil _ _
  | [a, b], _ => exact List.cons_ne_nil _ _
  | a :: b :: c :: bytes, _ => exact List.cons_ne_nil _ _

/-! ## 6. The name comes back -/

theorem flatMap_utf16_ne_nil {name : List Char} (hne : name ≠ []) : name.flatMap encodeUtf16 ≠ [] := by
  cases name with
  | nil => exact absurd rfl hne
  | cons c name =>
    rw [List.flatMap_cons]
    unfold encodeUtf16
    split <;> simp

theorem decodeShifted_base64 {name : List Char} (hne : name ≠ []) :
    decodeShifted (base64 ((name.flatMap encodeUtf16).flatMap toBeBytes)) = some name := by
  have hunits := flatMap_utf16_ne_nil hne
  have hbytes : (name.flatMap encodeUtf16).flatMap toBeBytes ≠ [] := by
    intro h
    have hlen := congrArg List.length h
    rw [length_toBeBytes, List.length_nil] at hlen
    exact hunits (List.eq_nil_of_length_eq_zero (by omega))
  have hempty : (base64 ((name.flatMap encodeUtf16).flatMap toBeBytes)).isEmpty = false := by
    simpa using base64_ne_nil hbytes
  rw [decodeShifted, hempty, unbase64_base64]
  simp only [Bool.false_eq_true, if_false, Option.bind_eq_bind, Option.bind_some, length_toBeBytes,
    Nat.mul_mod_right, ne_eq, not_true_eq_false, fromBeBytes_units, fromUtf16_units]

variable {fuel : Nat} {text : List Char}

/-- Up to the first `&` the text stands for itself. -/
theorem decodeFrom_cons (h : c ≠ '&') :
    decodeFrom (fuel + 1) (c :: text) = (decodeFrom (fuel + 1) text).map (c :: ·) := by
  rw [decodeFrom, decodeFrom, List.idxOf?_cons, if_neg (by simpa using h)]
  cases text.idxOf? '&' with
  | none => rfl
  | some start =>
    simp only [Option.map_some, List.drop_succ_cons, Option.bind_eq_bind, List.take_succ_cons]
    cases (text.drop (start + 1)).idxOf? '-' with
    | none => rfl
    | some stop =>
      simp only [Option.bind_some]
      cases decodeShifted ((text.drop (start + 1)).take stop) with
      | none => rfl
      | some part =>
        simp only [Option.bind_some]
        cases decodeFrom fuel ((text.drop (start + 1)).drop (stop + 1)) <;> rfl

/-- A shifted part and what follows it. -/
theorem decodeFrom_shifted {part : List Char} (hstop : '-' ∉ encoded)
    (hpart : decodeShifted encoded = some part) :
    decodeFrom (fuel + 1) ('&' :: encoded ++ '-' :: text) = (decodeFrom fuel text).map (part ++ ·) := by
  have hfind : (encoded ++ '-' :: text).idxOf? '-' = some encoded.length := by
    clear hpart
    induction encoded with
    | nil => simp [List.idxOf?_cons]
    | cons c encoded ih =>
      have hc : (c == '-') = false := by
        simpa using fun h : c = '-' => hstop (h ▸ List.mem_cons_self)
      rw [List.cons_append, List.idxOf?_cons, hc, ih fun h => hstop (List.mem_cons_of_mem _ h)]
      simp
  have hdrop : (encoded ++ '-' :: text).drop (encoded.length + 1) = text := by
    rw [List.drop_append, List.drop_eq_nil_of_le (Nat.le_succ _)]
    simp
  rw [decodeFrom, List.cons_append, List.idxOf?_cons, if_pos (by decide)]
  simp only [List.drop_succ_cons, List.drop_zero, hfind, hdrop, Option.bind_eq_bind, Option.bind_some,
    List.take_left, hpart, List.take_zero, List.nil_append]
  cases decodeFrom fuel text <;> rfl

/-- What was pending is read before the rest. -/
theorem decodeFrom_flush (name text : List Char)
    (hfuel : (flush (name.flatMap encodeUtf16) ++ text).count '&' < fuel) :
    ∃ fuel', text.count '&' < fuel' ∧ decodeFrom fuel (flush (name.flatMap encodeUtf16) ++ text) =
      (decodeFrom fuel' text).map (name ++ ·) := by
  by_cases hne : name = []
  · subst hne
    refine ⟨fuel, hfuel, ?_⟩
    change decodeFrom fuel text = _
    cases decodeFrom fuel text <;> rfl
  · have hunits := flatMap_utf16_ne_nil hne
    have hflush : flush (name.flatMap encodeUtf16) ++ text =
        '&' :: base64 ((name.flatMap encodeUtf16).flatMap toBeBytes) ++ '-' :: text := by
      simp [flush, hunits]
    rw [hflush] at hfuel ⊢
    cases fuel with
    | zero => exact absurd hfuel (Nat.not_lt_zero _)
    | succ fuel =>
      refine ⟨fuel, ?_, decodeFrom_shifted (fun h => (mem_base64 h).2.2 rfl) (decodeShifted_base64 hne)⟩
      have hcount : text.count '&' + 1 ≤
          ('&' :: base64 ((name.flatMap encodeUtf16).flatMap toBeBytes) ++ '-' :: text).count '&' := by
        simp [List.count_append]
      omega

theorem decodeFrom_nil : decodeFrom (fuel + 1) [] = some [] := rfl

/-- **What the loop writes is read**: first what is pending, then the name. -/
theorem decodeFrom_encodeFrom (waiting name : List Char)
    (hfuel : (encodeFrom (waiting.flatMap encodeUtf16) name).count '&' < fuel) :
    decodeFrom fuel (encodeFrom (waiting.flatMap encodeUtf16) name) = some (waiting ++ name) := by
  induction name generalizing waiting fuel with
  | nil =>
    have hend : encodeFrom (waiting.flatMap encodeUtf16) [] = flush (waiting.flatMap encodeUtf16) ++ [] := by
      rw [encodeFrom, List.append_nil]
    rw [hend] at hfuel ⊢
    obtain ⟨fuel', hfuel', hread⟩ := decodeFrom_flush waiting [] hfuel
    obtain ⟨fuel', rfl⟩ := Nat.exists_eq_succ_of_ne_zero
      (Nat.ne_of_gt (Nat.lt_of_le_of_lt (Nat.zero_le _) hfuel'))
    rw [hread, Nat.succ_eq_add_one, decodeFrom_nil, Option.map_some]
  | cons c name ih =>
    rw [encodeFrom] at hfuel ⊢
    split at hfuel
    · rename_i hamp
      rw [if_pos hamp]
      obtain ⟨fuel', hfuel', hread⟩ := decodeFrom_flush waiting _ hfuel
      obtain ⟨fuel', rfl⟩ := Nat.exists_eq_succ_of_ne_zero
        (Nat.ne_of_gt (Nat.lt_of_le_of_lt (Nat.zero_le _) hfuel'))
      have hlow : (encodeFrom [] name).count '&' < fuel' := by
        simpa [Nat.lt_succ_iff, Nat.succ_le_iff] using hfuel'
      have hname : decodeFrom fuel' (encodeFrom [] name) = some name := ih [] hlow
      rw [hread, Nat.succ_eq_add_one]
      have hshift := @decodeFrom_shifted [] fuel' (encodeFrom [] name) ['&'] (by simp) rfl
      rw [List.singleton_append] at hshift
      rw [hshift, hname, hamp]
      rfl
    · rename_i hamp
      rw [if_neg hamp]
      split at hfuel
      · rename_i hprintable
        rw [if_pos hprintable]
        obtain ⟨fuel', hfuel', hread⟩ := decodeFrom_flush waiting _ hfuel
        obtain ⟨fuel', rfl⟩ :=
          Nat.exists_eq_succ_of_ne_zero (Nat.ne_of_gt (Nat.lt_of_le_of_lt (Nat.zero_le _) hfuel'))
        have hlow : (encodeFrom [] name).count '&' < fuel' + 1 := by
          rwa [List.count_cons_of_ne hamp] at hfuel'
        have hname : decodeFrom (fuel' + 1) (encodeFrom [] name) = some name := ih [] hlow
        rw [hread, Nat.succ_eq_add_one, decodeFrom_cons hamp, hname]
        rfl
      · rename_i hprintable
        rw [if_neg hprintable]
        have hmore : waiting.flatMap encodeUtf16 ++ encodeUtf16 c = (waiting ++ [c]).flatMap encodeUtf16 := by
          simp
        rw [hmore] at hfuel ⊢
        rw [ih (waiting ++ [c]) hfuel, List.append_assoc, List.singleton_append]

theorem isPrintable_encodeFrom {units : List UInt16} {name : List Char} (h : c ∈ encodeFrom units name) :
    isPrintable c = true := by
  have hflush : ∀ units, c ∈ flush units → isPrintable c = true := by
    intro units hc
    unfold flush at hc
    split at hc
    · cases hc
    · simp only [List.cons_append, List.mem_cons, List.mem_append, List.not_mem_nil, or_false] at hc
      rcases hc with rfl | hc | rfl
      · rfl
      · exact (mem_base64 hc).1
      · rfl
  induction name generalizing units with
  | nil => exact hflush units h
  | cons d name ih =>
    rw [encodeFrom] at h
    split at h
    · simp only [List.mem_append, List.mem_cons] at h
      rcases h with h | rfl | rfl | h
      · exact hflush units h
      · rfl
      · rfl
      · exact ih h
    split at h
    · rename_i hd
      simp only [List.mem_append, List.mem_cons] at h
      rcases h with h | rfl | h
      · exact hflush units h
      · exact hd
      · exact ih h
    · exact ih h

theorem decode_encode (name : List Char) : decode (encode name) = some name :=
  decodeFrom_encodeFrom [] name (Nat.lt_succ_of_le List.count_le_length)

end UwuMail.Imap.Mutf7
