/-
# How a footer is encoded

`quoted_printable` of `footer.rs` writes the text of a part that got a footer, with `=2D` for a dash
that begins a line or follows another, so that nothing in it is read as a boundary.  Reading gives
the text back and the dashes stand alone, for every text; but **the width is checked before a dash
becomes three characters**, so a line may get 78 of them.

`faithful_iff`: the lines are short if and only if no second dash comes at column 74, and at column
73 only as the last byte of its line.
-/
import UwuMail.Lib.QuotedPrintable

namespace UwuMail.Smtp.Footer

open UwuMail.Lib.QuotedPrintable

/-! ## 1. The source -/

def dash : UInt8 := 0x2d

/-- What the loop over a line keeps: how wide the encoded line is, and whether it ends with a
dash. -/
structure Column where
  width : Nat := 0
  afterDash : Bool := false

/-- What is written as it is. -/
def isPlain (byte : UInt8) (last : Bool) : Bool :=
  (byte == 0x20 || byte == 0x09) && !last || (33 ≤ byte && byte ≤ 126 && byte != equals)

def piece (byte : UInt8) (last : Bool) : Bytes := if isPlain byte last then [byte] else escaped byte

/-- Whether the piece begins a new line. -/
def breaks (c : Column) (byte : UInt8) (last : Bool) : Bool := c.width + (piece byte last).length > 75

/-- The width in front of the piece. -/
def widthAt (c : Column) (byte : UInt8) (last : Bool) : Nat := if breaks c byte last then 0 else c.width

/-- What is written for the byte: no encoded line, after a hard or a soft line break, starts with
`-`, and no two dashes ever stand together. -/
def written (c : Column) (byte : UInt8) (last : Bool) : Bytes :=
  if byte == dash && (widthAt c byte last == 0 || c.afterDash) then escaped dash else piece byte last

def put (c : Column) (byte : UInt8) (last : Bool) : Bytes × Column :=
  ((if breaks c byte last then softBreak else []) ++ written c byte last,
    ⟨widthAt c byte last + (written c byte last).length, written c byte last == [dash]⟩)

def encodeLine (c : Column) : Bytes → Bytes
  | [] => []
  | byte :: rest => (put c byte rest.isEmpty).1 ++ encodeLine (put c byte rest.isEmpty).2 rest

/-- Quoted-printable with CRLF line breaks, of a text as its bytes. -/
def quotedPrintable (text : Bytes) : Bytes := [cr, lf].intercalate ((crlfLines text).map (encodeLine {}))

section
variable {c : Column} {byte : UInt8} {last : Bool} {line rest : Bytes}

theorem isPlain_dash : isPlain dash last = true := by cases last <;> decide

theorem piece_dash : piece dash last = [dash] := if_pos isPlain_dash

/-- What is written is the byte or its escape. -/
theorem written_cases (c : Column) (byte : UInt8) (last : Bool) :
    (written c byte last = [byte] ∧ isPlain byte last = true ∧
      (byte = dash → widthAt c byte last ≠ 0 ∧ c.afterDash = false)) ∨
          written c byte last = escaped byte := by
  unfold written
  split
  · next h =>
    rw [Bool.and_eq_true, beq_iff_eq] at h
    exact .inr (by rw [h.1])
  · next h =>
    unfold piece
    split
    · next hplain =>
      refine .inl ⟨rfl, hplain, fun hdash => ?_⟩
      subst hdash
      simpa using h
    · exact .inr rfl

theorem plain_ne (h : isPlain byte last = true) : byte ≠ equals ∧ byte ≠ cr ∧ byte ≠ lf := by
  refine ⟨?_, ?_, ?_⟩ <;> rintro rfl <;> cases last <;> exact absurd h (by decide)

theorem cr_notMem_written (c : Column) (byte : UInt8) (last : Bool) : cr ∉ written c byte last := by
  have hb := byte.toNat_lt
  obtain ⟨-, hhigh, -⟩ := hexValue_upperHex (byte.toNat / 16) (by omega)
  obtain ⟨-, hlow, -⟩ := hexValue_upperHex (byte.toNat % 16) (by omega)
  rcases written_cases c byte last with ⟨heq, hplain, -⟩ | heq
  · rw [heq, List.mem_singleton]
    exact (plain_ne hplain).2.1.symm
  · rw [heq, escaped]
    simp only [List.mem_cons, List.not_mem_nil, or_false, not_or]
    exact ⟨by decide, hhigh.symm, hlow.symm⟩

/-! ## 2. Reading -/

/-- A blank stays only where something comes behind it on its line. -/
theorem isPlain_blank (hplain : isPlain byte last = true) (hblank : isBlank byte = true) : last = false := by
  unfold isBlank at hblank
  rw [Bool.or_eq_true, beq_iff_eq, beq_iff_eq] at hblank
  rcases hblank with rfl | rfl <;> cases last <;> first | rfl | exact absurd hplain (by decide)

theorem lineEnds_equals (rest : Bytes) : lineEnds (equals :: rest) = false :=
    lineEnds_plain (by decide) (by decide)

/-- No line ends in blanks, by induction over it: the last byte is no plain blank. -/
theorem lineEnds_encodeLine (c : Column) (hline : line ≠ []) :
    lineEnds (encodeLine c line ++ rest) = false := by
  induction line generalizing c with
  | nil => exact absurd rfl hline
  | cons byte line ih =>
    have hwritten : lineEnds (written c byte line.isEmpty ++
      (encodeLine (put c byte line.isEmpty).2 line ++ rest)) =
        false := by
      rcases written_cases c byte line.isEmpty with ⟨heq, hplain, -⟩ | heq
      · rw [heq, List.singleton_append]
        cases hblank : isBlank byte with
        | false => exact lineEnds_plain hblank (plain_ne hplain).2.1
        | true =>
          rw [lineEnds_blank hblank]
          exact ih _ (List.isEmpty_eq_false_iff.1 (isPlain_blank hplain hblank))
      · rw [heq]
        exact lineEnds_equals _
    rw [encodeLine, List.append_assoc]
    unfold put at hwritten ⊢
    rw [List.append_assoc]
    split
    · exact lineEnds_equals _
    · exact hwritten

/-- So nothing is deleted from it. -/
theorem trimmed_encodeLine (c : Column) (line : Bytes) :
    trimmed (encodeLine c line ++ rest) = encodeLine c line ++ trimmed rest := by
  induction line generalizing c with
  | nil => rfl
  | cons byte line ih =>
    have hwritten : trimmed (written c byte line.isEmpty ++
      (encodeLine (put c byte line.isEmpty).2 line ++ rest)) =
        written c byte line.isEmpty ++ trimmed (encodeLine (put c byte line.isEmpty).2 line ++ rest) := by
      rcases written_cases c byte line.isEmpty with ⟨heq, hplain, -⟩ | heq
      · rw [heq]
        exact trimmed_keeps fun hblank =>
          lineEnds_encodeLine _ (List.isEmpty_eq_false_iff.1 (isPlain_blank hplain hblank))
      · rw [heq]
        exact trimmed_append (isBlank_escaped byte)
    have hbreak : ∀ b ∈ (if breaks c byte line.isEmpty then softBreak else []), isBlank b = false := by
      split <;> simp [softBreak]
      decide
    rw [ih] at hwritten
    rw [encodeLine, put]
    rw [put] at hwritten
    simp only [List.append_assoc]
    rw [trimmed_append hbreak, hwritten]

theorem unescape_put (c : Column) (byte : UInt8) (last : Bool) :
    unescape ((put c byte last).1 ++ rest) = (unescape rest).map (byte :: ·) := by
  have hwritten : unescape (written c byte last ++ rest) = (unescape rest).map (byte :: ·) := by
    rcases written_cases c byte last with ⟨heq, hplain, -⟩ | heq
    · rw [heq]
      exact unescape_plain (plain_ne hplain).1
    · rw [heq]
      exact unescape_escaped
  unfold put
  rw [List.append_assoc]
  split
  · rw [unescape_softBreak, hwritten]
  · exact hwritten

theorem unescape_encodeLine (c : Column) (line : Bytes) :
    unescape (encodeLine c line ++ rest) = (unescape rest).map (line ++ ·) := by
  induction line generalizing c with
  | nil =>
    rw [encodeLine, List.nil_append]
    exact Option.map_id'.symm
  | cons byte line ih =>
    rw [encodeLine, List.append_assoc, unescape_put, ih, Option.map_map]
    rfl

/-- One line and what comes behind it. -/
theorem decode_encodeLine (c : Column) (line : Bytes) :
    decode (encodeLine c line ++ rest) = (decode rest).map (line ++ ·) := by
  rw [decode, trimmed_encodeLine, unescape_encodeLine, decode]

theorem decode_break : decode (cr :: lf :: rest) = (decode rest).map ([cr, lf] ++ ·) := by
  unfold decode
  rw [trimmed_keeps fun h => absurd h (by decide), trimmed_keeps fun h => absurd h (by decide),
    unescape_plain (by decide), unescape_plain (by decide), Option.map_map]
  rfl

theorem decode_lines (lines : List Bytes) :
    decode ([cr, lf].intercalate (lines.map (encodeLine {}))) = some ([cr, lf].intercalate lines) := by
  induction lines with
  | nil => rfl
  | cons line lines ih =>
    cases lines with
    | nil =>
      have hlast := @decode_encodeLine [] {} line
      rw [List.append_nil] at hlast
      rw [List.map_cons, List.map_nil, List.intercalate_singleton, List.intercalate_singleton, hlast]
      rw [show decode [] = some [] from rfl, Option.map_some, List.append_nil]
    | cons line' lines =>
      rw [List.map_cons, List.map_cons, List.intercalate_cons_cons, List.intercalate_cons_cons,
        List.append_assoc,
        decode_encodeLine]
      rw [List.map_cons] at ih
      change ((decode (cr :: lf :: _)).map (line ++ ·)) = _
      rw [decode_break]
      change ((decode ([cr, lf].intercalate (encodeLine {} line' :: lines.map (encodeLine {})))).map _).map _ = _
      rw [ih]
      simp only [Option.map_some, List.append_assoc]

/-- **What is written is read back.** -/
theorem decode_quotedPrintable (text : Bytes) : decode (quotedPrintable text) = some text := by
  rw [quotedPrintable, decode_lines, intercalate_crlfLines]

end

/-! ## 3. Dashes -/

/-- No dash stands at the beginning of a line or behind another; `hot` says whether a line begins
here or a dash ended. -/
def Calm (hot : Bool) : Bytes → Prop
  | [] => True
  | b :: rest => (hot = true → b ≠ dash) ∧ Calm (b == dash || b == lf) rest

section
variable {hot : Bool} {a b out rest line : Bytes} {x : UInt8}

theorem Calm.cool (h : Calm true out) : Calm hot out := by
  cases out with
  | nil => trivial
  | cons b out => exact ⟨fun _ => h.1 rfl, h.2⟩

/-- Behind what ends with no dash and no line, the rest may begin with anything. -/
theorem calm_append (ha : Calm hot a) (hb : Calm (a.getLast?.elim hot fun x => x == dash || x == lf) b) :
    Calm hot (a ++ b) := by
  induction a generalizing hot with
  | nil => exact hb
  | cons x a ih =>
    refine ⟨ha.1, ih ha.2 ?_⟩
    cases a with
    | nil => exact hb
    | cons y a =>
      rw [List.getLast?_cons_cons] at hb
      obtain ⟨last, hlast⟩ := Option.ne_none_iff_exists'.1
        (mt List.getLast?_eq_none_iff.1 (List.cons_ne_nil y a))
      rw [hlast] at hb ⊢
      exact hb

theorem calm_escaped (byte : UInt8) : Calm hot (escaped byte) ∧ ∀ x ∈ (escaped byte).getLast?,
    (x == dash || x == lf) = false := by
  have hb := byte.toNat_lt
  obtain ⟨-, -, -, hhigh, -⟩ := hexValue_upperHex (byte.toNat / 16) (by omega)
  obtain ⟨-, -, hlf, hlow, -⟩ := hexValue_upperHex (byte.toNat % 16) (by omega)
  constructor
  · exact ⟨fun _ => by decide, fun _ => hhigh, fun _ => hlow, trivial⟩
  · intro x hx
    cases hx
    rw [Bool.or_eq_false_iff, beq_eq_false_iff_ne, beq_eq_false_iff_ne]
    exact ⟨hlow, hlf⟩

end

/-- What a column says of what may come next. -/
def Column.hot (c : Column) : Bool := c.width == 0 || c.afterDash

section
variable {c : Column} {byte : UInt8} {last : Bool} {text rest line : Bytes}

theorem last_put (c : Column) (byte : UInt8) (last : Bool) :
    ((put c byte last).1.getLast?.elim c.hot fun x => x == dash || x == lf) = (put c byte last).2.hot := by
  have hlast : (put c byte last).1.getLast? = (written c byte last).getLast? := by
    have hne : written c byte last ≠ [] := by
      rcases written_cases c byte last with ⟨heq, -⟩ | heq <;> rw [heq] <;> exact List.cons_ne_nil _ _
    unfold put
    exact List.getLast?_append_of_ne_nil _ hne
  rw [hlast]
  unfold Column.hot put
  rcases written_cases c byte last with ⟨heq, hplain, -⟩ | heq
  · rw [heq]
    simp [(plain_ne hplain).2.2]
  · rw [heq]
    have hcool := (@calm_escaped true byte).2
    simp only [escaped, List.getLast?_cons_cons, List.getLast?_singleton, Option.mem_def, Option.some.injEq,
      forall_eq', Option.elim_some] at hcool ⊢
    rw [hcool]
    simp

theorem calm_put (c : Column) (byte : UInt8) (last : Bool) : Calm c.hot (put c byte last).1 := by
  have hwritten : ∀ hot : Bool, (hot = true → widthAt c byte last = 0 ∨ c.afterDash = true) →
      Calm hot (written c byte last) := by
    intro hot hhot
    rcases written_cases c byte last with ⟨heq, -, hdash⟩ | heq
    · rw [heq]
      refine ⟨fun hyes hbyte => ?_, trivial⟩
      obtain ⟨hwidth, hafter⟩ := hdash hbyte
      rcases hhot hyes with h | h
      · exact hwidth h
      · rw [hafter] at h
        cases h
    · rw [heq]
      exact (calm_escaped byte).1
  unfold put
  cases hbreaks : breaks c byte last with
  | true =>
    rw [if_pos rfl]
    refine calm_append (a := softBreak) ⟨fun _ => by decide, ?_⟩ (hwritten _ fun _ => .inl ?_)
    · exact ⟨fun h => absurd h (by decide), fun h => absurd h (by decide), trivial⟩
    · rw [widthAt, hbreaks, if_pos rfl]
  | false =>
    rw [if_neg Bool.false_ne_true, List.nil_append]
    refine hwritten _ fun h => ?_
    rw [widthAt, hbreaks, if_neg Bool.false_ne_true]
    unfold Column.hot at h
    simpa using h

theorem calm_encodeLine (c : Column) (line : Bytes) (hrest : Calm true rest) :
    Calm c.hot (encodeLine c line ++ rest) := by
  induction line generalizing c with
  | nil => exact hrest.cool
  | cons byte line ih =>
    rw [encodeLine, List.append_assoc]
    refine calm_append (calm_put c byte _) ?_
    rw [last_put]
    exact ih _

theorem calm_quotedPrintable (text : Bytes) : Calm true (quotedPrintable text) := by
  unfold quotedPrintable
  induction crlfLines text with
  | nil => trivial
  | cons line lines ih =>
    cases lines with
    | nil =>
      have hline := @calm_encodeLine [] {} line trivial
      rw [List.append_nil] at hline
      rw [List.map_cons, List.map_nil, List.intercalate_singleton]
      exact hline
    | cons line' lines =>
      rw [List.map_cons, List.map_cons, List.intercalate_cons_cons, List.append_assoc]
      refine @calm_encodeLine _ {} line ⟨fun _ => by decide, fun _ => by decide, ?_⟩
      rw [List.map_cons] at ih
      exact ih

theorem Calm.heads {hot : Bool} (h : Calm hot text) {first : Bytes} {lines : List Bytes}
    (heq : crlfLines text = first :: lines) :
    (hot = true → first.head? ≠ some dash) ∧ ∀ line ∈ lines, line.head? ≠ some dash := by
  have hhead : ∀ {b : UInt8} {line : Bytes}, b ≠ dash → (b :: line).head? ≠ some dash := by
    intro b line hb hsome
    exact hb (Option.some.inj hsome)
  fun_induction crlfLines text generalizing hot first lines with
  | case1 =>
    cases heq
    exact ⟨by simp, by simp⟩
  | case2 b c rest hbreak ih =>
    cases heq
    obtain ⟨rfl, rfl⟩ := hbreak
    refine ⟨by simp, fun line hline => ?_⟩
    obtain ⟨first, lines, hrest⟩ := List.exists_cons_of_ne_nil (crlfLines_ne_nil rest)
    rw [hrest] at hline
    obtain ⟨hfirst, hlines⟩ := ih h.2.2 hrest
    rcases List.mem_cons.1 hline with rfl | hline
    · exact hfirst rfl
    · exact hlines line hline
  | case3 b c rest hbreak line lines' hrest ih =>
    cases heq
    exact ⟨fun hhot => hhead (h.1 hhot), (ih h.2 hrest).2⟩
  | case4 b c rest hbreak hrest ih => exact absurd hrest (crlfLines_ne_nil _)
  | case5 b =>
    cases heq
    exact ⟨fun hhot => hhead (h.1 hhot), by simp⟩

theorem Calm.apart {hot : Bool} (h : Calm hot text) : ¬ [dash, dash] <:+: text := by
  rintro ⟨before, behind, rfl⟩
  induction before generalizing hot with
  | nil => exact h.2.1 rfl rfl
  | cons b before ih => exact ih h.2

end

/-! ## 4. The width -/

/-- How far a line is filled: 75 characters at most, one for a byte that is plain and three for
another; a dash that begins a line or follows another takes three, though it is put down where one
fits. -/
def fill (c : Column) (byte : UInt8) : Column :=
  let size := if isPlain byte false then 1 else 3
  let width := if c.width + size > 75 then 0 else c.width
  let alone := byte == dash && !(width == 0 || c.afterDash)
  ⟨width + (if byte == dash && !alone then 3 else size), alone⟩

/-- A second dash comes at column 73 or 74 only where there is room for it. -/
def Roomy (c : Column) (line : Bytes) : Prop :=
  ∀ before behind, line = before ++ dash :: behind → (before.foldl fill c).afterDash = true →
    (before.foldl fill c).width ≠ 74 ∧ ((before.foldl fill c).width = 73 → behind = [])

section
variable {c : Column} {byte : UInt8} {last : Bool} {text rest line row : Bytes}

theorem length_piece_false (byte : UInt8) : (piece byte false).length = if isPlain byte false then 1
    else 3 := by
  unfold piece
  split <;> rfl

theorem put_fill (c : Column) (byte : UInt8) : (put c byte false).2 = fill c byte := by
  have hwidth : widthAt c byte false =
      if c.width + (if isPlain byte false then 1 else 3) > 75 then 0 else c.width := by
    unfold widthAt breaks
    rw [length_piece_false]
    simp only [decide_eq_true_eq]
  unfold put fill written
  dsimp only
  rw [hwidth]
  generalize (if c.width + (if isPlain byte false = true then 1 else 3) > 75 then 0 else c.width) = width
  by_cases hbyte : byte = dash
  · subst hbyte
    rw [piece_dash, isPlain_dash]
    cases h : (width == 0 || c.afterDash)
    · rfl
    · rfl
  · have hne : (byte == dash) = false := beq_eq_false_iff_ne.2 hbyte
    have hpiece : (piece byte false == [dash]) = false := by
      rw [beq_eq_false_iff_ne]
      unfold piece
      split
      · exact fun h => hbyte (List.singleton_inj.1 h)
      · exact fun h => nomatch (List.cons.inj h).2
    simp only [hne, Bool.false_and, Bool.false_eq_true, if_false, hpiece, length_piece_false]

theorem roomy_nil : Roomy c [] := by
  intro before behind heq
  exact absurd heq (by simp)

theorem roomy_cons : Roomy c (byte :: rest) ↔
    (byte = dash → c.afterDash = true → c.width ≠ 74 ∧ (c.width = 73 → rest = [])) ∧
        Roomy (fill c byte) rest := by
  constructor
  · intro h
    refine ⟨fun hbyte hafter => ?_, fun before behind heq => ?_⟩
    · subst hbyte
      exact h [] rest rfl hafter
    · exact h (byte :: before) behind (by rw [heq, List.cons_append])
  · rintro ⟨hfirst, hrest⟩ before behind heq
    cases before with
    | nil =>
      cases heq
      exact hfirst rfl
    | cons b before =>
      cases heq
      exact hrest before behind rfl

/-- Whether all lines are short. -/
def Short (text : Bytes) : Prop := ∀ row ∈ crlfLines text, row.length ≤ 76

theorem short_of_notMem (h : cr ∉ row) : Short row ↔ row.length ≤ 76 := by
  have hrow : crlfLines row = [row] := by
    have happend := @crlfLines_append [] row h [] [] rfl
    rw [List.append_nil] at happend
    exact happend
  unfold Short
  rw [hrow, List.forall_mem_singleton]

theorem short_append_break (h : cr ∉ row) : Short (row ++ cr :: lf :: rest) ↔
    row.length ≤ 76 ∧ Short rest := by
  unfold Short
  rw [crlfLines_append_break h, List.forall_mem_cons]

/-- The column behind a byte is the one the condition speaks of, if anything comes behind it. -/
theorem roomy_put : Roomy (put c byte line.isEmpty).2 line ↔ Roomy (fill c byte) line := by
  cases line with
  | nil => exact iff_of_true roomy_nil roomy_nil
  | cons b line => rw [List.isEmpty_cons, put_fill]

/-- Only a dash behind another takes more room than was looked for. -/
theorem over_put (hbreaks : breaks c byte last = false)
    (hover : 75 < c.width + (written c byte last).length) :
    byte = dash ∧ c.afterDash = true ∧ (c.width = 73 ∨ c.width = 74) ∧
        written c byte last = escaped dash := by
  have hroom : c.width + (piece byte last).length ≤ 75 := by
    unfold breaks at hbreaks
    have := of_decide_eq_false hbreaks
    omega
  have hat : widthAt c byte last = c.width := by rw [widthAt, hbreaks, if_neg Bool.false_ne_true]
  unfold written at hover ⊢
  split at hover
  · next hdash =>
    rw [Bool.and_eq_true, beq_iff_eq, hat, Bool.or_eq_true, beq_iff_eq] at hdash
    obtain ⟨rfl, hcases⟩ := hdash
    rw [piece_dash, List.length_singleton] at hroom
    have hlen : (escaped dash).length = 3 := rfl
    rw [hlen] at hover
    have hafter : c.afterDash = true := hcases.resolve_left (by omega)
    exact ⟨rfl, hafter, by omega, if_pos (by simp [hafter])⟩
  · omega

/-- A byte that does not fit where the line is full already begins a new one. -/
theorem put_full (hfull : 75 < c.width) : ∃ out, (put c byte last).1 = softBreak ++ out := by
  have hbreaks : breaks c byte last = true := decide_eq_true (by omega)
  unfold put
  rw [hbreaks]
  exact ⟨_, rfl⟩

/-- **A line of the text**, by induction over it: `row` is what stands on the encoded line so
far. -/
theorem short_encodeLine (hwidth : c.width ≤ 75) (hrow : row.length = c.width) (hcr : cr ∉ row) :
    Short (row ++ encodeLine c line) ↔ Roomy c line := by
  induction line generalizing c row with
  | nil =>
    rw [encodeLine, List.append_nil, short_of_notMem hcr]
    exact iff_of_true (by omega) roomy_nil
  | cons byte line ih =>
    have hwritten := cr_notMem_written c byte line.isEmpty
    rw [encodeLine, roomy_cons, ← roomy_put]
    cases hbreaks : breaks c byte line.isEmpty with
    | true =>
      have hput : (put c byte line.isEmpty).1 = softBreak ++ written c byte line.isEmpty := by
        rw [put, hbreaks, if_pos rfl]
      have hat : widthAt c byte line.isEmpty = 0 := by rw [widthAt, hbreaks, if_pos rfl]
      have hlen : (written c byte line.isEmpty).length ≤ 3 := by
        rcases written_cases c byte line.isEmpty with ⟨heq, -⟩ | heq <;> rw [heq]
        · exact Nat.le_of_ble_eq_true rfl
        · exact Nat.le_refl 3
      have hrow' : row ++ ((put c byte line.isEmpty).1 ++ encodeLine (put c byte line.isEmpty).2 line) =
          (row ++ [equals]) ++ cr :: lf :: (written c byte line.isEmpty ++ encodeLine
            (put c byte line.isEmpty).2 line) := by
        rw [hput]
        simp only [softBreak, List.append_assoc, List.cons_append, List.nil_append]
      have hequals : cr ∉ row ++ [equals] := by
        rw [List.mem_append, not_or]
        exact ⟨hcr, by decide⟩
      rw [hrow', short_append_break hequals, ih ?_ ?_ hwritten]
      · refine and_congr_left fun _ => iff_of_true ?_ ?_
        · rw [List.length_append, List.length_singleton]
          omega
        · rintro rfl -
          have hfull := of_decide_eq_true hbreaks
          rw [piece_dash, List.length_singleton] at hfull
          omega
      · rw [put, hat]
        dsimp only
        omega
      · rw [put, hat]
        exact (Nat.zero_add _).symm
    | false =>
      have hat : widthAt c byte line.isEmpty = c.width := by rw [widthAt, hbreaks, if_neg Bool.false_ne_true]
      have hput : (put c byte line.isEmpty).1 = written c byte line.isEmpty := by
        rw [put, hbreaks, if_neg Bool.false_ne_true, List.nil_append]
      have hcolumn : (put c byte line.isEmpty).2.width = c.width + (written c byte line.isEmpty).length := by
        rw [put, hat]
      have hcr' : cr ∉ row ++ written c byte line.isEmpty := by
        rw [List.mem_append, not_or]
        exact ⟨hcr, hwritten⟩
      have hlen' : (row ++ written c byte line.isEmpty).length = (put c byte line.isEmpty).2.width := by
        rw [List.length_append, hrow, hcolumn]
      rw [hput, ← List.append_assoc]
      by_cases hover : 75 < c.width + (written c byte line.isEmpty).length
      · obtain ⟨rfl, hafter, hcolumns, hescaped⟩ := over_put hbreaks hover
        have hthree : (escaped dash).length = 3 := rfl
        rw [hescaped] at hcr' hlen' hcolumn ⊢
        rw [hthree] at hcolumn
        cases line with
        | nil =>
          rw [encodeLine, List.append_nil, short_of_notMem hcr', hlen', hcolumn]
          refine ⟨fun hshort => ⟨fun _ _ => ⟨by omega, fun _ => rfl⟩, roomy_nil⟩, fun ⟨hroom, _⟩ => ?_⟩
          have hnot := (hroom rfl hafter).1
          omega
        | cons b line =>
          rw [List.isEmpty_cons] at hlen' hcolumn ⊢
          -- the line is over full, so what comes next begins a new one, behind one more character
          refine iff_of_false (fun hshort => ?_) fun ⟨hroom, _⟩ => ?_
          · obtain ⟨out, hout⟩ := @put_full (put c dash false).2 b line.isEmpty (by omega)
            have hrow' : (row ++ escaped dash) ++ encodeLine (put c dash false).2 (b :: line) =
                (row ++ escaped dash ++ [equals]) ++ cr :: lf ::
                  (out ++ encodeLine (put (put c dash false).2 b line.isEmpty).2 line) := by
              rw [encodeLine, hout]
              simp only [softBreak, List.append_assoc, List.cons_append, List.nil_append]
            have hequals : cr ∉ row ++ escaped dash ++ [equals] := by
              rw [List.mem_append, not_or]
              exact ⟨hcr', by decide⟩
            rw [hrow', short_append_break hequals, List.length_append, hlen', List.length_singleton] at hshort
            omega
          · obtain ⟨hnot, hlast⟩ := hroom rfl hafter
            exact absurd (hlast (by omega)) (List.cons_ne_nil b line)
      · rw [ih (by omega) hlen' hcr', iff_and_self]
        rintro - rfl hafter
        have hescaped : written c dash line.isEmpty = escaped dash := if_pos (by simp [hafter])
        rw [hescaped] at hover
        have hthree : (escaped dash).length = 3 := rfl
        omega

theorem short_break : Short (text ++ cr :: lf :: rest) ↔ Short text ∧ Short rest := by
  unfold Short
  rw [crlfLines_break_append, List.forall_mem_append]

/-- The lines of all lines. -/
theorem short_quotedPrintable (text : Bytes) : Short (quotedPrintable text) ↔
    ∀ line ∈ crlfLines text, Roomy {} line := by
  have hline : ∀ line, Short (encodeLine {} line) ↔ Roomy {} line := by
    intro line
    exact @short_encodeLine {} line [] (Nat.zero_le _) rfl List.not_mem_nil
  unfold quotedPrintable
  generalize hlines : crlfLines text = lines
  have hne : lines ≠ [] := hlines ▸ crlfLines_ne_nil text
  clear hlines
  induction lines with
  | nil => exact absurd rfl hne
  | cons line lines ih =>
    rw [List.forall_mem_cons]
    cases lines with
    | nil =>
      rw [List.map_cons, List.map_nil, List.intercalate_singleton, hline]
      exact ⟨fun h => ⟨h, fun _ hl => nomatch hl⟩, fun h => h.1⟩
    | cons line' lines =>
      rw [List.map_cons, List.map_cons, List.intercalate_cons_cons, List.append_assoc]
      change Short (encodeLine {} line ++ cr :: lf :: _) ↔ _
      rw [short_break, hline]
      exact and_congr_right fun _ => ih (List.cons_ne_nil _ _)

end

/-- What is promised of a footer: short lines, no dash that begins a line or follows another, and a
text that is read back. -/
def Faithful (text : Bytes) : Prop :=
  (∀ row ∈ crlfLines (quotedPrintable text), row.length ≤ 76) ∧
    (∀ row ∈ crlfLines (quotedPrintable text), row.head? ≠ some dash) ∧
      ¬ [dash, dash] <:+: quotedPrintable text ∧
    decode (quotedPrintable text) = some text

/-- **The encoding is what it promises** if and only if no second dash comes where there is no room
for it. -/
theorem faithful_iff (text : Bytes) : Faithful text ↔ ∀ line ∈ crlfLines text, Roomy {} line := by
  have hcalm := calm_quotedPrintable text
  unfold Faithful
  rw [← short_quotedPrintable, and_iff_left]
  · rfl
  · refine ⟨fun row hrow => ?_, hcalm.apart, decode_quotedPrintable text⟩
    obtain ⟨first, lines, heq⟩ := List.exists_cons_of_ne_nil (crlfLines_ne_nil (quotedPrintable text))
    obtain ⟨hfirst, hlines⟩ := hcalm.heads heq
    rw [heq] at hrow
    rcases List.mem_cons.1 hrow with rfl | hrow
    · exact hfirst rfl
    · exact hlines row hrow

/-- **A line of 77 characters**: 73 letters and two dashes. -/
theorem dashes_too_wide : ¬ Faithful (List.replicate 73 0x61 ++ [dash, dash]) := by
  intro h
  have hlong : (crlfLines (quotedPrintable (List.replicate 73 0x61 ++ [dash, dash]))).any
    (fun row => row.length == 77) =
      true := by
    decide +kernel
  obtain ⟨row, hrow, hlength⟩ := List.any_eq_true.1 hlong
  have := h.1 row hrow
  rw [beq_iff_eq] at hlength
  omega

end UwuMail.Smtp.Footer
