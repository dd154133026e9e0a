/-
# Strings and mailbox names on the wire

`Out::string` prints a string quoted where it can be, as a literal otherwise, and `Parser::astring`
chooses by the first byte.  **The bytes are read back as they were printed**, and exactly those
(`strings_read`).

A string is text for the parser: bytes that are no UTF-8 become U+FFFD where `astring` makes a text
of them. And a mailbox that is called INBOX in any case is INBOX, which is all that a name can lose
(`strings_changed`).
-/
import UwuMail.Imap.Parser
import UwuMail.Imap.Mutf7
import UwuMail.Imap.Pattern

namespace UwuMail.Imap

open Byte
open Pattern (eqIgnoreAsciiCase inbox)

/-! ## 1. Mailbox names -/

def mailboxName (utf8 : Bool) (raw : List UInt8) : Except String (List Char) := do
  let name ←
    if utf8 then
      match Utf8.decode raw with
      | some name => .ok name
      | none => .error "the mailbox name is not UTF-8"
    else
      match Utf8.decode raw with
      | some text => .ok ((Mutf7.decode text).getD text)
      | none => .error "the mailbox name is not modified UTF-7"
  if eqIgnoreAsciiCase name inbox then .ok inbox else .ok name

/-- `Parser::mailbox`. -/
def mailbox : Parsed (List Char) := do
  let raw ← astringBytes
  Tx.ofExcept (mailboxName (← get).utf8 raw)

/-- `Out::mailbox`. -/
def outMailbox (utf8 : Bool) (name : List Char) : List UInt8 :=
  if utf8 then outString utf8 (Utf8.encode name) else outString utf8 (Utf8.encode (Mutf7.encode name))

/-! ## 2. They are read back -/

variable {utf8 : Bool} {data : List UInt8} {name : List Char}

theorem outString_cases (utf8 : Bool) (data : List UInt8) : outString utf8 data = outLiteral data ∨
    Plain data ∧ outString utf8 data = quote :: data.flatMap escape ++ [quote] := by
  unfold outString
  dsimp only
  split
  · exact .inl rfl
  · rename_i hcond
    refine .inr ⟨fun b hb => ?_, rfl⟩
    simp only [Bool.or_eq_true, Bool.not_eq_true', not_or, Bool.not_eq_false, List.all_eq_true,
      Bool.and_eq_true,
      bne_iff_ne] at hcond
    have := hcond.1.2 b hb
    exact ⟨this.1.2, this.2⟩

/-- **What is printed is read, byte for byte.** -/
theorem reads_astringBytes (utf8 : Bool) (data : List UInt8) :
    Reads astringBytes (outString utf8 data) anything data := by
  rcases outString_cases utf8 data with h | ⟨hplain, h⟩
  · rw [h]
    have hhead : ∀ rest, (outLiteral data ++ rest).head? = some openBrace := fun rest => by
      rw [outLiteral_eq]
      rfl
    have hquote : openBrace ≠ quote := by decide
    refine reads_peek fun rest _ => ?_
    rw [hhead, if_pos (.inr rfl)]
    refine reads_peek fun rest' _ => ?_
    rw [hhead, if_neg (by simpa using hquote), if_pos rfl]
    exact reads_literal.mono fun _ _ => trivial
  · rw [h]
    refine reads_peek fun rest _ => ?_
    rw [List.cons_append, List.cons_append, List.head?_cons, if_pos (.inl rfl)]
    refine reads_peek fun rest' _ => ?_
    rw [List.cons_append, List.head?_cons, if_pos rfl]
    exact (reads_quoted hplain).mono fun _ _ => trivial

/-- The mailbox that is read, in the mode in which it was printed. -/
def ReadsMailbox (utf8 : Bool) (bytes : List UInt8) (name : List Char) : Prop :=
  ∀ p rest, p.utf8 = utf8 → p.At (bytes ++ rest) → Tx.exec mailbox p = (.ok name, p.skip bytes.length)

/-- The name under which a mailbox is found. -/
def received (name : List Char) : List Char := if eqIgnoreAsciiCase name inbox then inbox else name

theorem reads_mailbox (utf8 : Bool) (name : List Char) :
    ReadsMailbox utf8 (outMailbox utf8 name) (received name) := by
  intro p rest hmode hrest
  have hname : ∀ data, outMailbox utf8 name = outString utf8 data →
      mailboxName utf8 data = .ok (received name) →
        Tx.exec mailbox p = (.ok (received name), p.skip (outMailbox utf8 name).length) := by
    intro data hbytes hdata
    rw [hbytes] at hrest ⊢
    rw [mailbox, Tx.exec_bind, reads_astringBytes utf8 data p rest hrest trivial]
    dsimp only
    rw [Tx.exec_bind, Tx.exec_get]
    dsimp only [Parser.skip]
    rw [hmode, hdata]
    rfl
  cases utf8 with
  | true =>
    refine hname (Utf8.encode name) rfl ?_
    simp only [mailboxName, if_true, Utf8.decode_encode, received]
    change (if eqIgnoreAsciiCase name inbox then Except.ok inbox else Except.ok name) = _
    split <;> rfl
  | false =>
    refine hname (Utf8.encode (Mutf7.encode name)) rfl ?_
    simp only [mailboxName, Bool.false_eq_true, if_false, Utf8.decode_encode, Mutf7.decode_encode, received]
    change (if eqIgnoreAsciiCase name inbox then Except.ok inbox else Except.ok name) = _
    split <;> rfl

/-- **Strings are read back.** -/
theorem strings_read :
    (∀ name, Mutf7.decode (Mutf7.encode name) = some name ∧
      ∀ c ∈ Mutf7.encode name, ' ' ≤ c ∧ c ≤ '~') ∧
    (∀ utf8 data, Reads astringBytes (outString utf8 data) anything data ∧
      Reads astring (outString utf8 data) anything (Utf8.lossy data)) ∧
    (∀ utf8 text, Reads astring (outString utf8 (Utf8.encode text)) anything text) ∧
    ∀ utf8 name, ReadsMailbox utf8 (outMailbox utf8 name) (received name) := by
  have hastring : ∀ utf8 data, Reads astring (outString utf8 data) anything (Utf8.lossy data) :=
    fun utf8 data => (reads_astringBytes utf8 data).bind_pure (g := Utf8.lossy)
  refine ⟨fun name => ⟨Mutf7.decode_encode name, fun c hc => ?_⟩,
    fun utf8 data => ⟨reads_astringBytes utf8 data, hastring utf8 data⟩, fun utf8 text => ?_, reads_mailbox⟩
  · simpa [Mutf7.isPrintable] using Mutf7.isPrintable_encodeFrom hc
  · have := hastring utf8 (Utf8.encode text)
    rwa [Utf8.lossy_encode] at this

/-- **What may change**: bytes that are no text, and the case of INBOX. -/
theorem strings_changed :
    (¬ ∀ utf8 data, ∃ text, Reads astring (outString utf8 data) anything text ∧ Utf8.encode text = data) ∧
    ¬ ∀ utf8 name, ReadsMailbox utf8 (outMailbox utf8 name) name := by
  constructor
  · intro h
    obtain ⟨text, hreads, hsame⟩ := h false [0xff]
    let p : Parser := { input := outString false [0xff], pos := 0, utf8 := false, fits := by decide }
    have hat : p.At (outString false [0xff] ++ []) := ⟨Nat.zero_le _, (List.append_nil _).symm⟩
    have hlossy := strings_read.2.1 false [0xff]
    have heq := (hreads p [] hat trivial).symm.trans (hlossy.2 p [] hat trivial)
    have htext : text = Utf8.lossy [0xff] := Except.ok.inj (congrArg Prod.fst heq)
    rw [htext] at hsame
    exact absurd hsame (by decide)
  · intro h
    let name := ['i', 'n', 'b', 'o', 'x']
    let p : Parser := { input := outMailbox true name, pos := 0, utf8 := true, fits := by decide }
    have hat : p.At (outMailbox true name ++ []) := ⟨Nat.zero_le _, (List.append_nil _).symm⟩
    have heq := (h true name p [] rfl hat).symm.trans (reads_mailbox true name p [] rfl hat)
    exact absurd (Except.ok.inj (congrArg Prod.fst heq)) (by decide)

end UwuMail.Imap
