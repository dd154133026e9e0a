/-
# Reading commands, writing answers

The parts of `parser.rs` and `response.rs` that strings and numbers go through.  A parser walks over
the bytes of a complete command; `Reads x bytes follows a` says that `x` takes exactly `bytes`,
whatever comes before them and whatever comes after that `follows` allows, and that it makes `a` of
them.  Parsers in a row read what is printed in a row (`Reads.bind`).
-/
import UwuMail.Lib.Tx
import UwuMail.Lib.Utf8

namespace UwuMail.Imap

/-! ## 1. The parser -/

structure Parser where
  input : List UInt8
  pos : Nat
  /-- Mailbox names come as UTF-8, as modified UTF-7 before. -/
  utf8 : Bool
  /-- No slice is longer than `isize::MAX`. -/
  fits : input.length < 2 ^ 63

abbrev Parsed (α : Type) := Tx String Parser α

def Parser.skip (p : Parser) (n : Nat) : Parser := { p with pos := p.pos + n }

/-- What is still to be read. -/
def Parser.rest (p : Parser) : List UInt8 := p.input.drop p.pos

namespace Byte

def quote : UInt8 := 0x22
def backslash : UInt8 := 0x5c
def cr : UInt8 := 0x0d
def lf : UInt8 := 0x0a
def openBrace : UInt8 := 0x7b
def closeBrace : UInt8 := 0x7d
def plus : UInt8 := 0x2b
def star : UInt8 := 0x2a
def colon : UInt8 := 0x3a
def comma : UInt8 := 0x2c
def dollar : UInt8 := 0x24
def bracket : UInt8 := 0x5d

end Byte

open Byte

def peek : Parsed (Option UInt8) := do return (← get).input[(← get).pos]?

/-- `self.pos += n`. -/
def advance (n : Nat) : Parsed PUnit := modify fun p => p.skip n

def byte (expected : UInt8) : Parsed PUnit := do
  if (← peek) = some expected then advance 1
  else throw s!"expected '{Char.ofUInt8 expected}'"

def eat (expected : UInt8) : Parsed Bool := do
  match ← Tx.attempt (byte expected) with
  | .ok _ => pure true
  | .error _ => pure false

/-- Goes on while the next byte passes, and gives what it went over. -/
def skipWhile (f : UInt8 → Bool) : Parsed (List UInt8) := do
  let bytes := (← get).rest.takeWhile f
  advance bytes.length
  pure bytes

def isAsciiDigit (b : UInt8) : Bool := 0x30 ≤ b && b ≤ 0x39

def isAtomChar (b : UInt8) : Bool :=
  0x20 < b && b < 0x7f && !([0x28, 0x29, 0x7b, 0x25, 0x2a, 0x22, 0x5c, 0x5d] : List UInt8).contains b

/-- `str::parse::<u64>` of ASCII digits. -/
def parseU64 (digits : List UInt8) : Option Nat :=
  let n := Nat.ofDigitChars 10 (digits.map Char.ofUInt8) 0
  if n < 2 ^ 64 then some n else none

def word (allowBracket : Bool) : Parsed (List UInt8) := do
  let bytes ← skipWhile fun b => isAtomChar b || (allowBracket && b == bracket)
  if bytes.isEmpty then throw "expected a word" else pure bytes

def number : Parsed Nat := do
  let digits ← skipWhile isAsciiDigit
  if !digits.isEmpty && digits.length ≤ 20 then
    match parseU64 digits with
    | some n => pure n
    | none => throw "expected a number"
  else throw "expected a number"

def nzNumber32 : Parsed Nat := do
  let n ← number
  if 1 ≤ n ∧ n ≤ 0xffffffff then pure n
  else throw "expected a number from 1 to 4294967295"

/-- The loop of `quoted` after the opening quote: the value, and how many bytes it takes. -/
def quotedRest : List UInt8 → Except String (List UInt8 × Nat)
  | [] => .error "a quoted string is not closed"
  | b :: rest =>
    if b = quote then .ok ([], 1)
    else if b = backslash then
      match rest with
      | [] => .error "only \\\" and \\\\ may be escaped in a quoted string"
      | c :: rest =>
        if c = quote ∨ c = backslash then (quotedRest rest).map fun (value, n) => (c :: value, n + 2)
        else .error "only \\\" and \\\\ may be escaped in a quoted string"
    else if b = cr ∨ b = lf then .error "a quoted string is not closed"
    else (quotedRest rest).map fun (value, n) => (b :: value, n + 1)

def quoted : Parsed (List UInt8) := do
  byte quote
  let (value, n) ← Tx.ofExcept (quotedRest (← get).rest)
  advance n
  pure value

/-- `checked_add` of `usize`. -/
def checkedAdd (a b : Nat) : Option Nat := if a + b < 2 ^ 64 then some (a + b) else none

def literal : Parsed (List UInt8) := do
  byte openBrace
  let size ← number
  let _ ← eat plus
  byte closeBrace
  if ← eat cr then
    byte lf
    let p ← get
    match checkedAdd p.pos size with
    | none => throw "the literal is longer than this server can hold"
    | some last =>
      if last ≤ p.input.length then
        advance size
        pure ((p.input.drop p.pos).take size)
      else throw "the literal is shorter than announced"
  else throw "a literal must end its line"

def string : Parsed (List UInt8) := do
  let next ← peek
  if next = some quote then quoted
  else if next = some openBrace then literal
  else throw "expected a string"

def astringBytes : Parsed (List UInt8) := do
  let next ← peek
  if next = some quote ∨ next = some openBrace then string else word true

def astring : Parsed (List Char) := do return Utf8.lossy (← astringBytes)

/-! ## 2. What is printed -/

/-- `Out::literal`. -/
def outLiteral (data : List UInt8) : List UInt8 :=
  Utf8.encode ('\x7b' :: Nat.toDigits 10 data.length ++ ['\x7d', '\r', '\n']) ++ data

def escape (b : UInt8) : List UInt8 := if b = quote ∨ b = backslash then [backslash, b] else [b]

/-- `Out::string`, with `Out::utf8`. -/
def outString (utf8 : Bool) (data : List UInt8) : List UInt8 :=
  let plain := data.all fun b => b != 0 && b != cr && b != lf
  let encodingOk := data.all (· < 128) || (utf8 && (Utf8.decode data).isSome)
  if data.length > 1024 || !plain || !encodingOk then outLiteral data
  else quote :: data.flatMap escape ++ [quote]

/-! ## 3. What is read back -/

section Reads

variable {α β : Type} {x : Parsed α} {f : α → Parsed β} {bytes bytes' : List UInt8} {a : α} {b : β}
  {follows follows' : List UInt8 → Prop} {p : Parser} {rest : List UInt8} {n : Nat}

/-- The parser is before this text, within its input. -/
structure Parser.At (p : Parser) (text : List UInt8) : Prop where
  inside : p.pos ≤ p.input.length
  rest : p.rest = text

/-- The parser reads exactly these bytes, where something that is allowed follows. -/
def Reads (x : Parsed α) (bytes : List UInt8) (follows : List UInt8 → Prop) (a : α) : Prop :=
  ∀ p rest, p.At (bytes ++ rest) → follows rest → Tx.exec x p = (.ok a, p.skip bytes.length)

/-- Anything may follow. -/
def anything (_ : List UInt8) : Prop := True

/-- Nothing follows that would be read as well. -/
def stops (f : UInt8 → Bool) (rest : List UInt8) : Prop := ∀ b, rest.head? = some b → f b = false

theorem Parser.At.length (h : p.At bytes) : p.pos + bytes.length = p.input.length := by
  have hlen := congrArg List.length h.rest
  have := h.inside
  rw [Parser.rest, List.length_drop] at hlen
  omega

theorem Parser.At.skip (h : p.At (bytes ++ rest)) : (p.skip bytes.length).At rest where
  inside := by
    have := h.length
    rw [List.length_append] at this
    change p.pos + bytes.length ≤ p.input.length
    omega
  rest := by
    have hrest : p.input.drop p.pos = bytes ++ rest := h.rest
    change p.input.drop (p.pos + bytes.length) = rest
    rw [← List.drop_drop, hrest, List.drop_left]

theorem skip_zero : p.skip 0 = p := rfl

theorem skip_skip {m : Nat} : (p.skip m).skip n = p.skip (m + n) := by
  simp only [Parser.skip, Nat.add_assoc]

theorem Reads.pure (a : α) : Reads (Pure.pure a) [] anything a := fun _ _ _ _ => rfl

theorem Reads.bind (hx : Reads x bytes follows a) (hf : Reads (f a) bytes' follows' b)
    (hfollows : ∀ rest, follows' rest → follows (bytes' ++ rest)) :
    Reads (x >>= f) (bytes ++ bytes') follows' b := by
  intro p rest hrest hallowed
  rw [List.append_assoc] at hrest
  rw [Tx.exec_bind, hx p _ hrest (hfollows rest hallowed)]
  dsimp only
  rw [hf _ rest hrest.skip hallowed, skip_skip, List.length_append]

/-- A parser after one that reads nothing here. -/
theorem Reads.bind_nil (hx : Reads x [] follows a) (hf : Reads (f a) bytes follows' b)
    (hfollows : ∀ rest, follows' rest → follows (bytes ++ rest)) : Reads (x >>= f) bytes follows' b :=
  Reads.bind hx hf hfollows

/-- A result that is made of what a parser reads. -/
theorem Reads.bind_pure {g : α → β} (hx : Reads x bytes follows a) :
    Reads (x >>= fun a => Pure.pure (g a)) bytes follows (g a) := by
  intro p rest hrest hallowed
  rw [Tx.exec_bind, hx p rest hrest hallowed]
  rfl

theorem Reads.mono (hx : Reads x bytes follows a) (h : ∀ rest, follows' rest → follows rest) :
    Reads x bytes follows' a := fun p rest hrest hallowed => hx p rest hrest (h rest hallowed)

theorem Reads.of_eq (hx : Reads x bytes follows a) (h : bytes = bytes') : Reads x bytes' follows a := h ▸ hx

theorem exec_peek (p : Parser) : Tx.exec peek p = (.ok p.rest.head?, p) := by
  have : p.input[p.pos]? = p.rest.head? := List.head?_drop.symm
  rw [← this]
  rfl

theorem exec_advance (p : Parser) : Tx.exec (advance n) p = (.ok ⟨⟩, p.skip n) := rfl

/-- What the next byte decides. -/
theorem reads_peek {f : Option UInt8 → Parsed α}
    (h : ∀ rest, follows rest → Reads (f (bytes ++ rest).head?) bytes (· = rest) a) :
    Reads (peek >>= f) bytes follows a := by
  intro p rest hrest hallowed
  rw [Tx.exec_bind, exec_peek]
  rw [hrest.rest]
  exact h rest hallowed p rest hrest rfl

variable {expected : UInt8}

theorem exec_byte (p : Parser) : Tx.exec (byte expected) p =
    if p.rest.head? = some expected then (.ok ⟨⟩, p.skip 1)
    else (.error s!"expected '{Char.ofUInt8 expected}'", p) := by
  rw [byte, Tx.exec_bind, exec_peek]
  dsimp only
  split <;> rfl

theorem reads_byte : Reads (byte expected) [expected] anything ⟨⟩ := by
  intro p rest hrest _
  rw [exec_byte, hrest.rest]
  exact if_pos rfl

theorem reads_eat : Reads (eat expected) [expected] anything true := by
  intro p rest hrest _
  rw [eat, Tx.exec_bind, Tx.exec_attempt, exec_byte, hrest.rest, List.singleton_append,
    List.head?_cons, if_pos rfl]
  rfl

theorem reads_eat_not : Reads (eat expected) [] (stops (· == expected)) false := by
  intro p rest hrest hallowed
  have hne : p.rest.head? ≠ some expected := by
    intro heq
    rw [hrest.rest] at heq
    simpa using hallowed expected heq
  rw [eat, Tx.exec_bind, Tx.exec_attempt, exec_byte, if_neg hne]
  rfl

theorem reads_skipWhile {f : UInt8 → Bool} (hbytes : ∀ b ∈ bytes, f b = true) :
    Reads (skipWhile f) bytes (stops f) bytes := by
  intro p rest hrest hallowed
  have htake : p.rest.takeWhile f = bytes := by
    rw [hrest.rest, List.takeWhile_append_of_pos hbytes]
    cases rest with
    | nil => simp
    | cons b rest =>
      have hb : f b = false := hallowed b rfl
      simp [hb]
  rw [skipWhile, Tx.exec_bind, Tx.exec_get]
  dsimp only
  rw [Tx.exec_bind, exec_advance, htake]
  rfl

theorem stops_cons {f : UInt8 → Bool} {b : UInt8} (h : f b = false) : stops f (b :: rest) := by
  intro c hc
  cases hc
  exact h

theorem stops_mono {f g : UInt8 → Bool} (h : ∀ b, f b = true → g b = true) (hrest : stops g rest) :
    stops f rest := by
  intro b hb
  have := hrest b hb
  cases hf : f b with
  | false => rfl
  | true =>
    rw [h b hf] at this
    cases this

/-- Anything may be there that is no digit where a number begins. -/
theorem digit_ne {b d : UInt8} (hd : isAsciiDigit d = true) (hb : isAsciiDigit b = false) :
    (d == b) = false := by
  rw [beq_eq_false_iff_ne]
  rintro rfl
  rw [hd] at hb
  cases hb

/-! ### Numbers -/

/-- The digits of a number. -/
def printNat (n : Nat) : List UInt8 := Utf8.encode (Nat.toDigits 10 n)

theorem isDigit_val {c : Char} (h : c.isDigit = true) : 0x30 ≤ c.toNat ∧ c.toNat ≤ 0x39 := by
  simpa [Char.isDigit, UInt32.le_iff_toNat_le] using h

theorem printNat_eq (n : Nat) : printNat n = (Nat.toDigits 10 n).map fun c => UInt8.ofNat c.toNat := by
  refine Utf8.encode_ascii fun c hc => ?_
  have := (isDigit_val (Nat.isDigit_of_mem_toDigits (by decide) (by decide) hc)).2
  rw [UInt32.le_iff_toNat_le]
  exact Nat.le_trans this (by decide)

theorem printNat_digits {d : UInt8} (h : d ∈ printNat n) : isAsciiDigit d = true := by
  rw [printNat_eq] at h
  obtain ⟨c, hc, rfl⟩ := List.mem_map.1 h
  obtain ⟨hlo, hhi⟩ := isDigit_val (Nat.isDigit_of_mem_toDigits (by decide) (by decide) hc)
  simp only [isAsciiDigit, Bool.and_eq_true, decide_eq_true_eq, UInt8.le_iff_toNat_le, UInt8.toNat_ofNat']
  have h30 : UInt8.toNat 0x30 = 48 := rfl
  have h39 : UInt8.toNat 0x39 = 57 := rfl
  omega

theorem printNat_ne_nil : printNat n ≠ [] := by
  rw [printNat_eq]
  simp

/-- A number begins with a digit. -/
theorem printNat_cases (n : Nat) : ∃ d bytes, printNat n = d :: bytes ∧ isAsciiDigit d = true := by
  cases h : printNat n with
  | nil => exact absurd h printNat_ne_nil
  | cons d bytes => exact ⟨d, bytes, rfl, printNat_digits (n := n) (by simp [h])⟩

theorem length_printNat (h : n < 10 ^ 20) : (printNat n).length ≤ 20 := by
  rw [printNat_eq, List.length_map]
  exact (Nat.length_toDigits_le_iff (by decide) (by decide)).2 h

theorem chars_printNat (n : Nat) : (printNat n).map Char.ofUInt8 = Nat.toDigits 10 n := by
  rw [printNat_eq, List.map_map]
  refine (List.map_congr_left fun c hc => ?_).trans (List.map_id _)
  have := (isDigit_val (Nat.isDigit_of_mem_toDigits (by decide) (by decide) hc)).2
  exact Utf8.ofUInt8_ofNat (by omega)

theorem parseU64_printNat (h : n < 2 ^ 64) : parseU64 (printNat n) = some n := by
  rw [parseU64, chars_printNat, Nat.ofDigitChars_ten_toDigits]
  exact if_pos h

theorem reads_number (h : n < 2 ^ 64) : Reads number (printNat n) (stops isAsciiDigit) n := by
  refine (Reads.bind (reads_skipWhile fun d hd => printNat_digits hd) ?_ fun _ hrest => hrest).of_eq
    (List.append_nil _)
  intro p rest _ _
  have hlen := length_printNat (Nat.lt_trans h (by decide))
  have hne : (printNat n).isEmpty = false := by
    simpa using printNat_ne_nil
  simp only [hne, hlen, parseU64_printNat h, Bool.not_false, Bool.true_and, decide_true, if_true]
  rfl

theorem reads_nzNumber32 (hpos : n ≠ 0) (h : n < 2 ^ 32) :
    Reads nzNumber32 (printNat n) (stops isAsciiDigit) n := by
  refine (Reads.bind (reads_number (Nat.lt_trans h (by decide))) ?_ fun _ hrest => hrest).of_eq
    (List.append_nil _)
  intro p rest _ _
  rw [if_pos ⟨Nat.one_le_iff_ne_zero.2 hpos, Nat.le_of_lt_succ h⟩]
  rfl

/-! ### Strings -/

/-- A string that goes into a line. -/
def Plain (data : List UInt8) : Prop := ∀ b ∈ data, b ≠ cr ∧ b ≠ lf

variable {data : List UInt8}

theorem quotedRest_escape (h : Plain data) :
    quotedRest (data.flatMap escape ++ quote :: rest) = .ok (data, (data.flatMap escape).length + 1) := by
  have hquote : backslash ≠ quote := by decide
  induction data with
  | nil =>
    rw [List.flatMap_nil, List.nil_append, quotedRest.eq_def]
    exact if_pos rfl
  | cons b data ih =>
    have ih := ih fun d hd => h d (List.mem_cons_of_mem _ hd)
    rw [List.flatMap_cons, List.append_assoc]
    unfold escape
    split
    · rename_i hb
      rw [List.cons_append, List.singleton_append, quotedRest, if_neg hquote, if_pos rfl]
      dsimp only
      rw [if_pos hb]
      change (quotedRest (data.flatMap escape ++ quote :: rest)).map _ = _
      rw [ih]
      rfl
    · rename_i hb
      rw [not_or] at hb
      rw [List.singleton_append, quotedRest.eq_def]
      dsimp only
      rw [if_neg hb.1, if_neg hb.2, if_neg (not_or.2 (h b List.mem_cons_self))]
      change (quotedRest (data.flatMap escape ++ quote :: rest)).map _ = _
      rw [ih]
      rfl

theorem reads_quoted (h : Plain data) : Reads quoted (quote :: data.flatMap escape ++ [quote])
    anything data := by
  have hbody : Reads (do
      let (value, n) ← Tx.ofExcept (quotedRest (← get).rest)
      advance n
      pure value) (data.flatMap escape ++ [quote]) anything data := by
    intro p rest hrest _
    rw [Tx.exec_bind, Tx.exec_get]
    dsimp only
    rw [hrest.rest, List.append_assoc, List.singleton_append, quotedRest_escape h, List.length_append]
    rfl
  exact reads_byte.bind hbody fun _ _ => trivial

theorem outLiteral_eq (data : List UInt8) : outLiteral data =
    [openBrace] ++ (printNat data.length ++ ([closeBrace] ++ ([cr] ++ ([lf] ++ data)))) := by
  rw [outLiteral, Utf8.encode_append, Utf8.encode_cons, List.append_assoc, List.append_assoc]
  rfl

theorem reads_literal : Reads literal (outLiteral data) anything data := by
  intro p rest hrest _
  have hlen : data.length < 2 ^ 63 := by
    have := hrest.length
    have := p.fits
    rw [outLiteral_eq] at *
    simp only [List.length_append] at *
    omega
  have hdata : Reads (do
      let p ← get
      match checkedAdd p.pos data.length with
      | none => throw "the literal is longer than this server can hold"
      | some last =>
        if last ≤ p.input.length then
          advance data.length
          pure ((p.input.drop p.pos).take data.length)
        else throw "the literal is shorter than announced") data anything data := by
    intro p rest hrest _
    have hinside := hrest.length
    rw [List.length_append] at hinside
    have hfits := p.fits
    have hadd : checkedAdd p.pos data.length = some (p.pos + data.length) := if_pos (by omega)
    have htext : p.input.drop p.pos = data ++ rest := hrest.rest
    rw [Tx.exec_bind, Tx.exec_get]
    dsimp only
    rw [hadd]
    dsimp only
    rw [if_pos (by omega), htext, List.take_left]
    rfl
  refine (?_ : Reads literal (outLiteral data) anything data) p rest hrest trivial
  rw [outLiteral_eq]
  refine reads_byte.bind ?_ fun _ _ => trivial
  refine (reads_number (Nat.lt_trans hlen (by decide))).bind ?_ fun rest _ => stops_cons rfl
  refine Reads.bind_nil reads_eat_not ?_ fun rest _ => stops_cons rfl
  refine reads_byte.bind ?_ fun _ _ => trivial
  refine reads_eat.bind ?_ fun _ _ => trivial
  exact reads_byte.bind hdata fun _ _ => trivial

end Reads

end UwuMail.Imap
