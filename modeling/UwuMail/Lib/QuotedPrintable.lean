/-
# Quoted-printable

The encoding of RFC 2045, 6.7, from its reading side: blanks at the end of a line are gone, `=XY` is
a byte, `=` at the end of a line is no line break, and all else is itself.  Each thing a writer may
put down has a lemma of what it is read as, for whatever comes behind it.

`crlfLines` are the lines of what was written.
-/
import Mathlib.Data.List.Basic

namespace UwuMail.Lib.QuotedPrintable

abbrev Bytes := List UInt8

def cr : UInt8 := 0x0d
def lf : UInt8 := 0x0a
def equals : UInt8 := 0x3d

/-- A hexadecimal digit in upper case. -/
def upperHex (n : Nat) : UInt8 := if n < 10 then UInt8.ofNat (0x30 + n) else UInt8.ofNat (0x41 + n - 10)

def hexValue (b : UInt8) : Option Nat :=
  if 0x30 ≤ b ∧ b ≤ 0x39 then some (b.toNat - 0x30)
  else if 0x41 ≤ b ∧ b ≤ 0x46 then some (b.toNat - 0x41 + 10)
  else if 0x61 ≤ b ∧ b ≤ 0x66 then some (b.toNat - 0x61 + 10)
  else none

/-- `={byte:02X}`. -/
def escaped (b : UInt8) : Bytes := [equals, upperHex (b.toNat / 16), upperHex (b.toNat % 16)]

def softBreak : Bytes := [equals, cr, lf]

def isBlank (b : UInt8) : Bool := b == 0x20 || b == 0x09

/-- Whether nothing but blanks comes before the line ends, by a line break or with the text. -/
def lineEnds : Bytes → Bool
  | [] => true
  | b :: rest => if isBlank b then lineEnds rest else b == cr && rest.head? == some lf

/-- The text without the blanks at the ends of its lines: a relay may have added them, so a reader
deletes them (6.7, 3). -/
def trimmed : Bytes → Bytes
  | [] => []
  | b :: rest => if isBlank b && lineEnds rest then trimmed rest else b :: trimmed rest

def unescape : Bytes → Option Bytes
  | [] => some []
  | b :: rest =>
    if b = equals then
      match rest with
      | x :: y :: rest =>
        if x = cr ∧ y = lf then unescape rest
        else do
          let high ← hexValue x
          let low ← hexValue y
          let decoded ← unescape rest
          some (UInt8.ofNat (high * 16 + low) :: decoded)
      | _ => none
    else (unescape rest).map (b :: ·)

def decode (text : Bytes) : Option Bytes := unescape (trimmed text)

/-- The lines between the line breaks. -/
def crlfLines : Bytes → List Bytes
  | [] => [[]]
  | b :: rest =>
    match rest with
    | c :: rest' =>
      if b = cr ∧ c = lf then [] :: crlfLines rest'
      else match crlfLines (c :: rest') with
        | line :: lines => (b :: line) :: lines
        | [] => [[b]]
    | [] => [[b]]

section
variable {b : UInt8} {n : Nat} {rest line : Bytes}

theorem hexValue_upperHex : ∀ n < 16, hexValue (upperHex n) = some n ∧ upperHex n ≠ cr ∧ upperHex n ≠ lf ∧
    upperHex n ≠ 0x2d ∧ isBlank (upperHex n) = false := by
  decide

/-! ## Blanks -/

theorem lineEnds_blank (h : isBlank b = true) : lineEnds (b :: rest) = lineEnds rest := by
  rw [lineEnds, if_pos h]

/-- A line does not end where something else is written. -/
theorem lineEnds_plain (hblank : isBlank b = false) (hcr : b ≠ cr) : lineEnds (b :: rest) = false := by
  rw [lineEnds, hblank, if_neg Bool.false_ne_true, beq_eq_false_iff_ne.2 hcr, Bool.false_and]

theorem trimmed_keeps (h : isBlank b = true → lineEnds rest = false) :
    trimmed (b :: rest) = b :: trimmed rest := by
  rw [trimmed, if_neg]
  rw [Bool.and_eq_true]
  rintro ⟨hblank, hends⟩
  exact Bool.false_ne_true ((h hblank).symm.trans hends)

/-- What has no blanks stays. -/
theorem trimmed_append (h : ∀ b ∈ line, isBlank b = false) :
    trimmed (line ++ rest) = line ++ trimmed rest := by
  induction line with
  | nil => rfl
  | cons b line ih =>
    rw [List.forall_mem_cons] at h
    rw [List.cons_append, trimmed_keeps fun hblank => absurd (h.1.symm.trans hblank) Bool.false_ne_true, ih h.2,
      List.cons_append]

theorem isBlank_escaped (b : UInt8) : ∀ x ∈ escaped b, isBlank x = false := by
  have hb := b.toNat_lt
  obtain ⟨-, -, -, -, hhigh⟩ := hexValue_upperHex (b.toNat / 16) (by omega)
  obtain ⟨-, -, -, -, hlow⟩ := hexValue_upperHex (b.toNat % 16) (by omega)
  rw [escaped, List.forall_mem_cons, List.forall_mem_cons, List.forall_mem_singleton]
  exact ⟨by decide, hhigh, hlow⟩

/-! ## Escapes -/

theorem unescape_plain (h : b ≠ equals) : unescape (b :: rest) = (unescape rest).map (b :: ·) := by
  conv_lhs => unfold unescape
  rw [if_neg h]

theorem unescape_softBreak : unescape (softBreak ++ rest) = unescape rest := by
  change unescape (equals :: cr :: lf :: rest) = unescape rest
  conv_lhs => unfold unescape
  rw [if_pos rfl]
  exact if_pos ⟨rfl, rfl⟩

theorem unescape_escaped : unescape (escaped b ++ rest) = (unescape rest).map (b :: ·) := by
  have hb := b.toNat_lt
  obtain ⟨hhigh, hcr, -⟩ := hexValue_upperHex (b.toNat / 16) (by omega)
  obtain ⟨hlow, -⟩ := hexValue_upperHex (b.toNat % 16) (by omega)
  change unescape (equals :: upperHex (b.toNat / 16) :: upperHex (b.toNat % 16) :: rest) = _
  conv_lhs => unfold unescape
  rw [if_pos rfl]
  dsimp only
  rw [if_neg fun h => hcr h.1, hhigh, hlow]
  have hbyte : UInt8.ofNat (b.toNat / 16 * 16 + b.toNat % 16) = b := by
    rw [show b.toNat / 16 * 16 + b.toNat % 16 = b.toNat by omega, UInt8.ofNat_toNat]
  simp only [Option.bind_eq_bind, Option.bind_some, hbyte]
  cases unescape rest <;> rfl

/-! ## Lines -/

theorem crlfLines_ne_nil (l : Bytes) : crlfLines l ≠ [] := by
  fun_induction crlfLines l with
  | case1 => exact List.cons_ne_nil _ _
  | case2 => exact List.cons_ne_nil _ _
  | case3 => exact List.cons_ne_nil _ _
  | case4 => exact List.cons_ne_nil _ _
  | case5 => exact List.cons_ne_nil _ _

theorem crlfLines_cons (h : b ≠ cr) {lines : List Bytes} (hrest : crlfLines rest = line :: lines) :
    crlfLines (b :: rest) = (b :: line) :: lines := by
  cases rest with
  | nil =>
    cases hrest
    rfl
  | cons c rest =>
    rw [crlfLines, if_neg fun hb => h hb.1, hrest]

theorem crlfLines_break : crlfLines (cr :: lf :: rest) = [] :: crlfLines rest := by
  rw [crlfLines, if_pos ⟨rfl, rfl⟩]

/-- A line without CR is a line. -/
theorem crlfLines_append (h : cr ∉ line) {first : Bytes} {lines : List Bytes}
    (hrest : crlfLines rest = first :: lines) :
    crlfLines (line ++ rest) = (line ++ first) :: lines := by
  induction line with
  | nil => exact hrest
  | cons b line ih =>
    rw [List.mem_cons, not_or] at h
    exact crlfLines_cons (fun hb => h.1 hb.symm) (ih h.2)

theorem crlfLines_append_break (h : cr ∉ line) :
    crlfLines (line ++ cr :: lf :: rest) = line :: crlfLines rest := by
  have happend := crlfLines_append h (@crlfLines_break rest)
  rw [List.append_nil] at happend
  exact happend

theorem crlfLines_break_append (a : Bytes) : crlfLines (a ++ cr :: lf :: rest) = crlfLines a ++
    crlfLines rest := by
  fun_induction crlfLines a with
  | case1 => exact crlfLines_break
  | case2 b c a h ih =>
    obtain ⟨rfl, rfl⟩ := h
    rw [List.cons_append, List.cons_append, crlfLines_break, ih, List.cons_append]
  | case3 b c a h line lines heq ih =>
    rw [heq] at ih
    rw [List.cons_append, List.cons_append, crlfLines, if_neg h]
    rw [List.cons_append] at ih
    rw [ih]
    rfl
  | case4 b c a h heq ih => exact absurd heq (crlfLines_ne_nil _)
  | case5 b =>
    -- a CR in front of the line break belongs to the line
    rw [List.cons_append, List.nil_append, crlfLines,
      if_neg (fun h => absurd h.2 (by decide)), crlfLines_break]
    rfl

theorem intercalate_crlfLines (l : Bytes) : [cr, lf].intercalate (crlfLines l) = l := by
  fun_induction crlfLines l with
  | case1 => rfl
  | case2 b c rest h ih =>
    obtain ⟨rfl, rfl⟩ := h
    obtain ⟨line, lines, heq⟩ := List.exists_cons_of_ne_nil (crlfLines_ne_nil rest)
    rw [heq] at ih ⊢
    rw [List.intercalate_cons_cons, ih]
    rfl
  | case3 b c rest h line lines heq ih =>
    rw [heq] at ih
    rw [← ih]
    cases lines <;> simp [List.intercalate]
  | case4 b c rest h heq ih => exact absurd heq (crlfLines_ne_nil _)
  | case5 b => rfl

end

end UwuMail.Lib.QuotedPrintable
