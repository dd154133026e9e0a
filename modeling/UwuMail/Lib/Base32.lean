/-
# Base32 without padding

Five bits to a character.  The bits of all bytes are written in a row and cut into fives, the last
one filled up with zeros; reading cuts the bits of the characters into eights, and what is left over
must be fewer than five bits, all of them zero.  So a text that is read is the only one for its
bytes:

* `decode_encode`: what is written is read back;
* `encode_of_decode`: what is read is what would be written.
-/
import Mathlib

namespace UwuMail.Base32

/-! ## 1. Characters and bytes as bits -/

def alphabet : List Char :=
  ['A', 'B', 'C', 'D', 'E', 'F', 'G', 'H', 'I', 'J', 'K', 'L', 'M', 'N', 'O', 'P', 'Q', 'R', 'S',
    'T', 'U', 'V',
    'W', 'X', 'Y', 'Z', '2', '3', '4', '5', '6', '7']

/-- The number with these bits, the highest one first. -/
def ofBits (bits : List Bool) : Nat := bits.foldl (fun n b => 2 * n + b.toNat) 0

/-- The lowest bits of a number, the highest one first. -/
def toBits : Nat → Nat → List Bool
  | 0, _ => []
  | width + 1, n => toBits width (n / 2) ++ [n % 2 == 1]

def symbol (bits : List Bool) : Char := alphabet.getD (ofBits bits) 'A'

/-- The bits of a character. -/
def value (c : Char) : Option (List Bool) := (alphabet.idxOf? c).map (toBits 5)

@[simp] theorem length_toBits (width n : Nat) : (toBits width n).length = width := by
  induction width generalizing n with
  | zero => rfl
  | succ width ih => simp [toBits, ih]

theorem ofBits_append (bits : List Bool) (b : Bool) : ofBits (bits ++ [b]) = 2 * ofBits bits + b.toNat := by
  simp [ofBits]

theorem ofBits_toBits {width n : Nat} (h : n < 2 ^ width) : ofBits (toBits width n) = n := by
  induction width generalizing n with
  | zero =>
    have : n = 0 := by simpa using h
    rw [this]
    rfl
  | succ width ih =>
    rw [toBits, ofBits_append, ih (by rw [pow_succ] at h; omega)]
    rcases Nat.mod_two_eq_zero_or_one n with hn | hn
    · simp [hn]
      omega
    · simp [hn]
      omega

theorem toBits_ofBits (bits : List Bool) : toBits bits.length (ofBits bits) = bits := by
  induction bits using List.reverseRecOn with
  | nil => rfl
  | append_singleton bits b ih =>
    rw [List.length_append, List.length_singleton, toBits, ofBits_append]
    cases b
    · simp [ih]
    · rw [show (2 * ofBits bits + true.toNat) / 2 = ofBits bits by simp; omega, ih]
      simp

theorem ofBits_lt (bits : List Bool) : ofBits bits < 2 ^ bits.length := by
  induction bits using List.reverseRecOn with
  | nil => decide
  | append_singleton bits b ih =>
    rw [ofBits_append, List.length_append, List.length_singleton, pow_succ]
    cases b <;> simp <;> omega

/-- A character has the bits it stands for. -/
theorem value_symbol {bits : List Bool} (h : bits.length = 5) : value (symbol bits) = some bits := by
  have hlt : ofBits bits < alphabet.length := by
    have := ofBits_lt bits
    rw [h] at this
    exact this
  have hidx : ∀ i < alphabet.length, alphabet.idxOf? (alphabet.getD i 'A') = some i := by decide
  rw [value, symbol, hidx _ hlt, Option.map_some, ← h, toBits_ofBits]

theorem symbol_of_value {c : Char} {bits : List Bool} (h : value c = some bits) :
    bits.length = 5 ∧ symbol bits = c := by
  obtain ⟨i, hi, rfl⟩ := Option.map_eq_some_iff.1 h
  obtain ⟨hlt, hget, -⟩ := List.findIdx?_eq_some_iff_getElem.1 hi
  refine ⟨length_toBits 5 i, ?_⟩
  rw [symbol, ofBits_toBits (by exact hlt), List.getD_eq_getElem _ _ hlt]
  simpa using hget

/-- The bits of a byte. -/
def byteBits (b : UInt8) : List Bool := toBits 8 b.toNat

def byteOf (bits : List Bool) : UInt8 := UInt8.ofNat (ofBits bits)

theorem length_byteBits (b : UInt8) : (byteBits b).length = 8 := length_toBits 8 _

theorem byteOf_byteBits (b : UInt8) : byteOf (byteBits b) = b := by
  rw [byteOf, byteBits, ofBits_toBits b.toNat_lt, UInt8.ofNat_toNat]

theorem byteBits_byteOf {bits : List Bool} (h : bits.length = 8) : byteBits (byteOf bits) = bits := by
  have hlt := ofBits_lt bits
  rw [h] at hlt
  rw [byteBits, byteOf, UInt8.toNat_ofNat', Nat.mod_eq_of_lt hlt, ← h, toBits_ofBits]

/-! ## 2. Cutting bits -/

/-- Bits in fives, the last ones filled up with zeros. -/
def symbols : List Bool → List Char
  | a :: b :: c :: d :: e :: rest => symbol [a, b, c, d, e] :: symbols rest
  | [] => []
  | few => [symbol (few ++ List.replicate (5 - few.length) false)]

/-- Bits in eights; fewer than five zeros may be left over. -/
def bytes : List Bool → Option (List UInt8)
  | a :: b :: c :: d :: e :: f :: g :: h :: rest => (bytes rest).map (byteOf [a, b, c, d, e, f, g, h] :: ·)
  | few => if few.length < 5 ∧ few.all (· = false) = true then some [] else none

def encode (data : List UInt8) : List Char := symbols (data.flatMap byteBits)

def decode (text : List Char) : Option (List UInt8) := do
  let bits ← text.mapM value
  bytes bits.flatten

/-! ## 3. There and back -/

section
variable {bits group rest : List Bool} {k : Nat}

theorem symbols_append (h : group.length = 5) : symbols (group ++ rest) = symbol group :: symbols rest := by
  match group, h with
  | [a, b, c, d, e], _ => rfl

theorem symbols_few (h : bits.length < 5) (hne : bits ≠ []) :
    symbols bits = [symbol (bits ++ List.replicate (5 - bits.length) false)] := by
  match bits, h, hne with
  | [a], _, _ => rfl
  | [a, b], _, _ => rfl
  | [a, b, c], _, _ => rfl
  | [a, b, c, d], _, _ => rfl

theorem bytes_append (h : group.length = 8) : bytes (group ++ rest) =
    (bytes rest).map (byteOf group :: ·) := by
  match group, h with
  | [a, b, c, d, e, f, g, h], _ => rfl

/-- What the characters say is the bits and the zeros that fill up the last one. -/
theorem mapM_symbols (bits : List Bool) : ∃ groups k, (symbols bits).mapM value = some groups ∧
    groups.flatten = bits ++ List.replicate k false ∧ k < 5 := by
  induction hlen : bits.length using Nat.strong_induction_on generalizing bits with
  | _ n ih =>
    by_cases hfew : bits.length < 5
    · by_cases hne : bits = []
      · exact ⟨[], 0, by simp [hne, symbols], by simp [hne], by decide⟩
      · have hfive : (bits ++ List.replicate (5 - bits.length) false).length = 5 := by
          simp
          omega
        have hpos : 0 < bits.length := List.length_pos_of_ne_nil hne
        refine ⟨[bits ++ List.replicate (5 - bits.length) false], 5 - bits.length, ?_, by simp, by omega⟩
        rw [symbols_few hfew hne]
        simp [value_symbol hfive]
    · have hfive : (bits.take 5).length = 5 := by
        rw [List.length_take]
        omega
      obtain ⟨groups, k, hmap, hflat, hk⟩ := ih (bits.drop 5).length (by simp; omega) (bits.drop 5) rfl
      refine ⟨bits.take 5 :: groups, k, ?_, ?_, hk⟩
      · conv_lhs => rw [← List.take_append_drop 5 bits]
        rw [symbols_append hfive]
        simp [value_symbol hfive, hmap]
      · rw [List.flatten_cons, hflat, ← List.append_assoc, List.take_append_drop]

/-- Characters are the only ones for their bits without the zeros. -/
theorem symbols_of_mapM : ∀ {text : List Char} {groups : List (List Bool)} {bits : List Bool},
    text.mapM value = some groups → groups.flatten = bits ++ List.replicate k false → k < 5 →
      symbols bits = text
  | [], groups, bits, hmap, hflat, _ => by
    have hnil : groups = [] := by simpa using hmap.symm
    rw [hnil] at hflat
    have hbits : bits = [] := (List.append_eq_nil_iff.1 hflat.symm).1
    rw [hbits]
    rfl
  | c :: text, groups, bits, hmap, hflat, hk => by
    obtain ⟨group, hvalue, groups', hmap', rfl⟩ : ∃ group, value c = some group ∧
        ∃ groups', text.mapM value = some groups' ∧ groups = group :: groups' := by
      simp only [List.mapM_cons, Option.bind_eq_bind, Option.bind_eq_some_iff, Option.pure_def,
        Option.some.injEq] at hmap
      obtain ⟨group, hvalue, groups', hmap', h⟩ := hmap
      exact ⟨group, hvalue, groups', hmap', h.symm⟩
    obtain ⟨hfive, hsymbol⟩ := symbol_of_value hvalue
    rw [List.flatten_cons] at hflat
    by_cases hfew : bits.length < 5
    · -- the character is the last one
      have hlen := congrArg List.length hflat
      simp only [List.length_append, List.length_replicate, hfive] at hlen
      have hlast : text = [] := by
        cases text with
        | nil => rfl
        | cons c' text =>
          simp only [List.mapM_cons, Option.bind_eq_bind, Option.bind_eq_some_iff, Option.pure_def,
            Option.some.injEq] at hmap'
          obtain ⟨group', hvalue', groups'', -, rfl⟩ := hmap'
          have hfive' := (symbol_of_value hvalue').1
          simp only [List.flatten_cons, List.length_append, hfive'] at hlen
          omega
      rw [hlast] at hmap'
      have hnil : groups' = [] := by simpa using hmap'.symm
      rw [hnil, List.flatten_nil, List.append_nil] at hflat
      rw [hnil, List.flatten_nil, List.length_nil] at hlen
      have hne : bits ≠ [] := by
        rintro rfl
        simp at hlen
        omega
      rw [symbols_few hfew hne, hlast, show 5 - bits.length = k by omega, ← hflat, hsymbol]
    · have htake : bits.take 5 = group := by
        have := congrArg (List.take 5) hflat
        rw [List.take_left' hfive, List.take_append_of_le_length (by omega)] at this
        exact this.symm
      have hdrop : groups'.flatten = bits.drop 5 ++ List.replicate k false := by
        have := congrArg (List.drop 5) hflat
        rw [List.drop_left' hfive, List.drop_append_of_le_length (by omega)] at this
        exact this
      rw [← List.take_append_drop 5 bits, htake, symbols_append hfive, hsymbol,
        symbols_of_mapM hmap' hdrop hk]

theorem bytes_flatMap (hk : k < 5) : ∀ data : List UInt8,
    bytes (data.flatMap byteBits ++ List.replicate k false) = some data
  | [] => by
    rw [List.flatMap_nil, List.nil_append]
    interval_cases k <;> rfl
  | b :: data => by
    rw [List.flatMap_cons, List.append_assoc, bytes_append (length_byteBits b), bytes_flatMap hk data,
      Option.map_some, byteOf_byteBits]

theorem flatMap_of_bytes {data : List UInt8} (h : bytes bits = some data) :
    ∃ k < 5, bits = data.flatMap byteBits ++ List.replicate k false := by
  induction hlen : bits.length using Nat.strong_induction_on generalizing bits data with
  | _ n ih =>
    by_cases hfew : bits.length < 8
    · have hrest : bytes bits = if bits.length < 5 ∧ bits.all (· = false) = true then some [] else none := by
        unfold bytes
        split
        · simp at hfew
          omega
        · rfl
      rw [hrest] at h
      split at h
      next hzero =>
        cases h
        refine ⟨bits.length, hzero.1, ?_⟩
        rw [List.flatMap_nil, List.nil_append]
        exact List.eq_replicate_iff.2 ⟨rfl, fun b hb => of_decide_eq_true (List.all_eq_true.1 hzero.2 b hb)⟩
      next => cases h
    · have height : (bits.take 8).length = 8 := by
        rw [List.length_take]
        omega
      rw [← List.take_append_drop 8 bits, bytes_append height, Option.map_eq_some_iff] at h
      obtain ⟨data', hdata', rfl⟩ := h
      obtain ⟨k, hk, hbits⟩ := ih (bits.drop 8).length (by simp; omega) hdata' rfl
      refine ⟨k, hk, ?_⟩
      rw [List.flatMap_cons, byteBits_byteOf height, List.append_assoc, ← hbits, List.take_append_drop]

end

/-- **What is written is read back.** -/
theorem decode_encode (data : List UInt8) : decode (encode data) = some data := by
  obtain ⟨groups, k, hmap, hflat, hk⟩ := mapM_symbols (data.flatMap byteBits)
  rw [decode, encode, hmap, Option.bind_eq_bind, Option.bind_some, hflat, bytes_flatMap hk]

/-- **What is read is what would be written.** -/
theorem encode_of_decode {text : List Char} {data : List UInt8} (h : decode text = some data) :
    encode data = text := by
  rw [decode, Option.bind_eq_bind, Option.bind_eq_some_iff] at h
  obtain ⟨groups, hmap, hbytes⟩ := h
  obtain ⟨k, hk, hflat⟩ := flatMap_of_bytes hbytes
  exact symbols_of_mapM hmap hflat hk

theorem symbol_mem_alphabet (bits : List Bool) : symbol bits ∈ alphabet := by
  rw [symbol, List.getD_eq_getElem?_getD]
  cases h : alphabet[ofBits bits]? with
  | none => decide
  | some c => exact List.mem_of_getElem? h

/-- The characters that are written. -/
theorem mem_alphabet_of_mem {data : List UInt8} {c : Char} (h : c ∈ encode data) : c ∈ alphabet := by
  unfold encode at h
  generalize data.flatMap byteBits = bits at h
  induction bits using symbols.induct with
  | case1 a b c d e rest ih =>
    rcases List.mem_cons.1 h with rfl | h
    · exact symbol_mem_alphabet _
    · exact ih h
  | case2 => cases h
  | case3 few hfew hne =>
    rw [symbols] at h
    · rw [List.mem_singleton.1 h]
      exact symbol_mem_alphabet _
    · exact hfew
    · exact hne

end UwuMail.Base32
