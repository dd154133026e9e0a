/-
# Texts as bytes

UTF-8 over lists of bytes: what writes a text, the strict reading of it, which refuses what is no
UTF-8, and the forgiving one, which puts U+FFFD where it cannot read on.  Both readings give back a
text that was written (`decode_encode`, `lossy_encode`).  One character is read by the decoder of
the standard library.
-/
import Mathlib.Data.List.Basic

namespace UwuMail.Utf8

def encode (text : List Char) : List UInt8 := text.flatMap String.utf8EncodeChar

/-- The character the bytes begin with. -/
def decodeChar? (bytes : List UInt8) : Option Char := bytes.toByteArray.utf8DecodeChar? 0

/-- Reads on while there is fuel; each character takes a byte at least. -/
def decodeUpTo : Nat → List UInt8 → Option (List Char)
  | _, [] => some []
  | 0, _ :: _ => none
  | fuel + 1, b :: bytes =>
    match decodeChar? (b :: bytes) with
    | some c => (decodeUpTo fuel ((b :: bytes).drop c.utf8Size)).map (c :: ·)
    | none => none

/-- `String::from_utf8`. -/
def decode (bytes : List UInt8) : Option (List Char) := decodeUpTo bytes.length bytes

def isContinuation (b : UInt8) : Bool := b &&& 0xc0 == 0x80

/-- Whether the second byte of a character of three or four bytes may follow its first. -/
def mayFollow (first second : UInt8) : Bool :=
  if first == 0xe0 then 0xa0 ≤ second && second ≤ 0xbf
  else if first == 0xed then 0x80 ≤ second && second ≤ 0x9f
  else if first == 0xf0 then 0x90 ≤ second && second ≤ 0xbf
  else if first == 0xf4 then 0x80 ≤ second && second ≤ 0x8f
  else isContinuation second

/-- How many bytes one replacement character stands for: the beginning of a character that ends
early. -/
def broken : List UInt8 → Nat
  | first :: second :: rest =>
    if 0xe0 ≤ first && first ≤ 0xf4 && mayFollow first second then
      match rest with
      | third :: _ => if 0xf0 ≤ first && isContinuation third then 3 else 2
      | [] => 2
    else 1
  | _ => 1

def replacement : Char := Char.ofNat 0xfffd

/-- Reads on while there is fuel. -/
def lossyUpTo : Nat → List UInt8 → List Char
  | _, [] => []
  | 0, _ :: _ => []
  | fuel + 1, b :: bytes =>
    match decodeChar? (b :: bytes) with
    | some c => c :: lossyUpTo fuel ((b :: bytes).drop c.utf8Size)
    | none => replacement :: lossyUpTo fuel ((b :: bytes).drop (broken (b :: bytes)))

/-- `String::from_utf8_lossy`. -/
def lossy (bytes : List UInt8) : List Char := lossyUpTo bytes.length bytes

variable {c : Char} {text : List Char} {bytes : List UInt8}

@[simp] theorem encode_cons : encode (c :: text) = String.utf8EncodeChar c ++ encode text := rfl

@[simp] theorem encode_append {text' : List Char} : encode (text ++ text') = encode text ++ encode text' :=
  List.flatMap_append

/-- A character of ASCII is its own byte. -/
theorem encode_ascii (h : ∀ c ∈ text, c.val ≤ 127) : encode text = text.map fun c => UInt8.ofNat c.toNat := by
  induction text with
  | nil => rfl
  | cons c text ih =>
    have hc := String.utf8EncodeChar_eq_singleton (Char.utf8Size_eq_one_iff.2 (h c (by simp)))
    rw [encode_cons, hc, ih fun d hd => h d (by simp [hd])]
    rfl

theorem ofUInt8_ofNat (h : c.toNat < 256) : Char.ofUInt8 (UInt8.ofNat c.toNat) = c := by
  refine Char.ext (UInt32.toNat_inj.1 ?_)
  change (UInt8.ofNat c.toNat).toUInt32.toNat = c.toNat
  rw [UInt8.toNat_toUInt32, UInt8.toNat_ofNat', Nat.mod_eq_of_lt h]

theorem decodeChar?_append : decodeChar? (String.utf8EncodeChar c ++ bytes) = some c := by
  rw [decodeChar?, List.toByteArray_append]
  exact ByteArray.utf8DecodeChar?_utf8EncodeChar_append

/-- What a reader finds at the start of a written text. -/
theorem encode_cons_cases (c : Char) (text : List Char) : ∃ b bytes, encode (c :: text) = b :: bytes ∧
    decodeChar? (b :: bytes) = some c ∧ (b :: bytes).drop c.utf8Size = encode text := by
  have hread := @decodeChar?_append c (encode text)
  have hdrop : (String.utf8EncodeChar c ++ encode text).drop c.utf8Size = encode text := by
    rw [← String.length_utf8EncodeChar, List.drop_left]
  rw [← encode_cons] at hread hdrop
  cases hbytes : encode (c :: text) with
  | nil =>
    have hnone : decodeChar? [] = none := by decide
    rw [hbytes, hnone] at hread
    cases hread
  | cons b bytes =>
    rw [hbytes] at hread hdrop
    exact ⟨b, bytes, rfl, hread, hdrop⟩

/-- Every character takes a byte at least. -/
theorem length_le_encode : text.length ≤ (encode text).length := by
  induction text with
  | nil => exact Nat.le_refl 0
  | cons c text ih =>
    have := c.utf8Size_pos
    rw [encode_cons, List.length_append, String.length_utf8EncodeChar, List.length_cons]
    omega

theorem decodeUpTo_encode {fuel : Nat} (h : text.length ≤ fuel) :
    decodeUpTo fuel (encode text) = some text := by
  induction text generalizing fuel with
  | nil => cases fuel <;> rfl
  | cons c text ih =>
    cases fuel with
    | zero => exact absurd h (Nat.not_succ_le_zero _)
    | succ fuel =>
      obtain ⟨b, bytes, hbytes, hread, hdrop⟩ := encode_cons_cases c text
      rw [hbytes, decodeUpTo, hread]
      dsimp only
      rw [hdrop, ih (Nat.le_of_succ_le_succ h), Option.map_some]

theorem lossyUpTo_encode {fuel : Nat} (h : text.length ≤ fuel) : lossyUpTo fuel (encode text) = text := by
  induction text generalizing fuel with
  | nil => cases fuel <;> rfl
  | cons c text ih =>
    cases fuel with
    | zero => exact absurd h (Nat.not_succ_le_zero _)
    | succ fuel =>
      obtain ⟨b, bytes, hbytes, hread, hdrop⟩ := encode_cons_cases c text
      rw [hbytes, lossyUpTo, hread]
      dsimp only
      rw [hdrop, ih (Nat.le_of_succ_le_succ h)]

/-- **A written text is read back.** -/
theorem decode_encode : decode (encode text) = some text := decodeUpTo_encode length_le_encode

theorem lossy_encode : lossy (encode text) = text := lossyUpTo_encode length_le_encode

end UwuMail.Utf8
