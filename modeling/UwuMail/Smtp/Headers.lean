/-
# Headers taken out of a message

`headers.rs`: the header block of a raw message as fields, without encoding anything anew, and
`without`, which takes the fields out that a sender may not bring along.  Lines end at LF alone, a
line that begins with a blank belongs to the field before it, and the block ends at an empty line,
at the end of the message, or at a line that is no field.

**What is left reads as the fields that are left and the same body** (`without_spec`): a field is
whole lines, so taking it out leaves whole lines, and the line behind it belongs to no other field
than before.
-/
import Mathlib.Algebra.GroupWithZero.Nat
import Mathlib.Data.List.Flatten
import UwuMail.Lib.Lines
import UwuMail.Lib.Utf8

namespace UwuMail.Smtp.Headers

open UwuMail.Lib

/-! ## 1. The source -/

abbrev Bytes := List UInt8

def lf : UInt8 := 0x0a
def cr : UInt8 := 0x0d
def colon : UInt8 := 0x3a

/-- One header field: the name and the full raw bytes including folded lines and CRLF. -/
structure RawHeader where
  name : List Char
  raw : Bytes

/-- A field, and where its bytes lie in the message. -/
structure Placed where
  header : RawHeader
  start : Nat

/-- `&raw[start..stop]`. -/
def slice (raw : Bytes) (start stop : Nat) : Bytes := (raw.take stop).drop start

/-- Behind the LF of the line, or the end of the message. -/
def lineEnd (raw : Bytes) (pos : Nat) : Nat :=
  match (raw.drop pos).findIdx? (· == lf) with
  | some i => pos + i + 1
  | none => raw.length

def isBlank (line : Bytes) : Bool := line == [cr, lf] || line == [lf]

/-- A continuation line. -/
def isFolded (line : Bytes) : Bool :=
  match line with
  | b :: _ => b == 0x20 || b == 0x09
  | [] => false

/-- The name of the field the line begins. -/
def fieldName (line : Bytes) : Option (List Char) := do
  let i ← line.findIdx? (· == colon)
  let name ← Utf8.decode (line.take i)
  if name.isEmpty || name.any (fun c => c == ' ' || c == '\t') then none else some name

theorem lt_lineEnd {raw : Bytes} {pos : Nat} (h : pos < raw.length) : pos < lineEnd raw pos := by
  unfold lineEnd
  split
  · omega
  · exact h

/-- Splits the header block into fields.  Returns the fields and the offset where the body
starts. -/
def splitFrom (raw : Bytes) (pos : Nat) (headers : List Placed) : List Placed × Nat :=
  if _ : pos < raw.length then
    let stop := lineEnd raw pos
    let line := slice raw pos stop
    if isBlank line then (headers, stop)
    else if isFolded line then
      match headers.getLast? with
      -- A continuation line without a preceding field: malformed, treat as body.
      | none => (headers, pos)
      | some last =>
        splitFrom raw stop
          (headers.dropLast ++ [{ last with header := { last.header with raw := slice raw last.start stop } }])
    else
      match fieldName line with
      | none => (headers, pos)
      | some name => splitFrom raw stop (headers ++ [⟨⟨name, line⟩, pos⟩])
  else (headers, raw.length)
termination_by raw.length - pos
decreasing_by
  all_goals
    have := lt_lineEnd ‹pos < raw.length›
    omega

def split (raw : Bytes) : List Placed × Nat := splitFrom raw 0 []

def fields (raw : Bytes) : List RawHeader := (split raw).1.map (·.header)

def body (raw : Bytes) : Bytes := raw.drop (split raw).2

/-- What is copied around the removed fields. -/
def copyAround (raw : Bytes) : Nat → List Placed → Bytes
  | pos, [] => raw.drop pos
  | pos, header :: removed =>
    slice raw pos header.start ++ copyAround raw (header.start + header.header.raw.length) removed

/-- `raw` without the headers `unwanted` picks. -/
def without (raw : Bytes) (unwanted : RawHeader → Bool) : Bytes :=
  let removed := (split raw).1.filter fun placed => unwanted placed.header
  if removed.isEmpty then raw else copyAround raw 0 removed

/-! ## 2. The block by its lines -/

/-- `split` over lines: the fields, and the lines from where it stopped. -/
def splitLines (headers : List RawHeader) : List Bytes → List RawHeader × List Bytes
  | [] => (headers, [])
  | line :: ls =>
    if isBlank line then (headers, line :: ls)
    else if isFolded line then
      match headers.getLast? with
      | none => (headers, line :: ls)
      | some last => splitLines (headers.dropLast ++ [{ last with raw := last.raw ++ line }]) ls
    else
      match fieldName line with
      | none => (headers, line :: ls)
      | some name => splitLines (headers ++ [⟨name, line⟩]) ls

/-- A field and its lines: one with the name, and those that go on with it. -/
structure Field where
  name : List Char
  first : Bytes
  folded : List Bytes
  notBlank : isBlank first = false
  notFolded : isFolded first = false
  named : fieldName first = some name
  allFolded : ∀ line ∈ folded, isBlank line = false ∧ isFolded line = true

def Field.lines (field : Field) : List Bytes := field.first :: field.folded

def Field.header (field : Field) : RawHeader := ⟨field.name, field.lines.flatten⟩

/-- What may stand behind fields: a line that ends the block. -/
def Stops (ls : List Bytes) : Prop :=
  ∀ line ∈ ls.head?, isBlank line = true ∨ (isFolded line = false ∧ fieldName line = none)

section
variable {headers : List RawHeader} {ls tail : List Bytes} {last : RawHeader} {fs : List Field}

theorem splitLines_stops (h : Stops ls) : splitLines headers ls = (headers, ls) := by
  cases ls with
  | nil => rfl
  | cons line ls =>
    unfold splitLines
    rcases h line rfl with hblank | ⟨hfolded, hname⟩
    · rw [if_pos hblank]
    · split
      · rfl
      · rw [if_neg (by rw [hfolded]; exact Bool.false_ne_true), hname]

/-- Lines that go on with a field become part of it. -/
theorem splitLines_folded {folded : List Bytes}
    (h : ∀ line ∈ folded, isBlank line = false ∧ isFolded line = true) :
    splitLines (headers ++ [last]) (folded ++ ls) =
      splitLines (headers ++ [{ last with raw := last.raw ++ folded.flatten }]) ls := by
  induction folded generalizing last with
  | nil => rw [List.nil_append, List.flatten_nil, List.append_nil]
  | cons line folded ih =>
    obtain ⟨hblank, hfolded⟩ := h line List.mem_cons_self
    rw [List.cons_append]
    conv_lhs => unfold splitLines
    rw [if_neg (by rw [hblank]; exact Bool.false_ne_true), if_pos hfolded, List.getLast?_concat,
      List.dropLast_concat]
    dsimp only
    rw [ih fun l hl => h l (List.mem_cons_of_mem _ hl), List.flatten_cons, List.append_assoc]

theorem splitLines_field (field : Field) :
    splitLines headers (field.lines ++ ls) = splitLines (headers ++ [field.header]) ls := by
  rw [Field.lines, List.cons_append]
  conv_lhs => unfold splitLines
  rw [if_neg (by rw [field.notBlank]; exact Bool.false_ne_true),
    if_neg (by rw [field.notFolded]; exact Bool.false_ne_true), field.named]
  dsimp only
  rw [splitLines_folded field.allFolded, Field.header, Field.lines, List.flatten_cons]

/-- **Fields are read back.** -/
theorem splitLines_fields (fs : List Field) (h : Stops tail) :
    splitLines headers (fs.flatMap Field.lines ++ tail) = (headers ++ fs.map Field.header, tail) := by
  induction fs generalizing headers with
  | nil => rw [List.flatMap_nil, List.nil_append, splitLines_stops h, List.map_nil, List.append_nil]
  | cons field fs ih =>
    rw [List.flatMap_cons, List.append_assoc, splitLines_field, ih, List.map_cons, List.append_assoc,
      List.singleton_append]

end

/-- **Every list of lines is the end of a field, fields, and a rest that stops.** -/
theorem exists_fields (ls : List Bytes) : ∃ folded fs tail,
    ls = folded ++ (List.flatMap Field.lines fs ++ tail) ∧
    (∀ line ∈ folded, isBlank line = false ∧ isFolded line = true) ∧ Stops tail := by
  induction ls with
  | nil => exact ⟨[], [], [], rfl, (fun _ h => nomatch h), fun _ h => nomatch h⟩
  | cons line ls ih =>
    obtain ⟨folded, fs, tail, rfl, hfolded, hstops⟩ := ih
    have hrest : (isBlank line = true ∨ (isFolded line = false ∧ fieldName line = none)) →
        Stops (line :: (folded ++ (List.flatMap Field.lines fs ++ tail))) := by
      intro h l hl
      cases hl
      exact h
    cases hblank : isBlank line with
    | true => exact ⟨[], [], _, rfl, (fun _ h => nomatch h), hrest (.inl hblank)⟩
    | false =>
      cases hfold : isFolded line with
      | true =>
        refine ⟨line :: folded, fs, tail, rfl, fun l hl => ?_, hstops⟩
        rcases List.mem_cons.1 hl with rfl | hl
        · exact ⟨hblank, hfold⟩
        · exact hfolded l hl
      | false =>
        cases hname : fieldName line with
        | none => exact ⟨[], [], _, rfl, (fun _ h => nomatch h), hrest (.inr ⟨hfold, hname⟩)⟩
        | some name =>
          refine ⟨[], ⟨name, line, folded, hblank, hfold, hname, hfolded⟩ :: fs, tail, ?_,
            (fun _ h => nomatch h), hstops⟩
          rw [List.flatMap_cons, List.append_assoc]
          rfl

/-! ## 3. By positions -/

/-- Where fields lie that stand one behind the other. -/
def place (start : Nat) : List RawHeader → List Placed
  | [] => []
  | header :: headers => ⟨header, start⟩ :: place (start + header.raw.length) headers

/-- The bytes of fields that stand one behind the other. -/
def rawOf (headers : List RawHeader) : Bytes := headers.flatMap (·.raw)

def size (headers : List RawHeader) : Nat := (rawOf headers).length

section
variable {headers : List RawHeader} {header : RawHeader} {start : Nat}
  {raw before line rest : Bytes}

@[simp] theorem map_place : (place start headers).map (·.header) = headers := by
  induction headers generalizing start with
  | nil => rfl
  | cons header headers ih => rw [place, List.map_cons, ih]

@[simp] theorem rawOf_cons : rawOf (header :: headers) = header.raw ++ rawOf headers := List.flatMap_cons

@[simp] theorem rawOf_concat : rawOf (headers ++ [header]) = rawOf headers ++ header.raw := by
  unfold rawOf
  rw [List.flatMap_append, List.flatMap_singleton]

@[simp] theorem size_cons : size (header :: headers) = header.raw.length + size headers := by
  unfold size
  rw [rawOf_cons, List.length_append]

theorem size_concat : size (headers ++ [header]) = size headers + header.raw.length := by
  unfold size
  rw [rawOf_concat, List.length_append]

theorem place_concat : place start (headers ++ [header]) = place start headers ++
    [⟨header, start + size headers⟩] := by
  induction headers generalizing start with
  | nil => rfl
  | cons h headers ih => rw [List.cons_append, place, ih, place, size_cons, List.cons_append, Nat.add_assoc]

theorem slice_append : slice (before ++ (line ++ rest)) before.length
    (before.length + line.length) = line := by
  unfold slice
  rw [← List.append_assoc, ← List.length_append, List.take_left, List.drop_left]

theorem findIdx_append {init : Bytes} {b : UInt8} (hinit : ∀ c ∈ init, (c == lf) = false)
    (hb : (b == lf) = true) :
    (init ++ [b] ++ rest).findIdx? (· == lf) = some init.length := by
  induction init with
  | nil => rw [List.nil_append, List.singleton_append, List.findIdx?_cons, if_pos hb]; rfl
  | cons c init ih =>
    rw [List.cons_append, List.cons_append, List.findIdx?_cons,
      if_neg (by rw [hinit c List.mem_cons_self]; exact Bool.false_ne_true),
      ih fun d hd => hinit d (List.mem_cons_of_mem _ hd)]
    rfl

/-- The line at a position is the first of the lines from there. -/
theorem lineEnd_append {ls : List Bytes} (h : Whole (· == lf) (line :: ls)) :
    lineEnd (before ++ (line ++ ls.flatten)) before.length = before.length + line.length := by
  unfold lineEnd
  rw [List.drop_left]
  rcases h.1 with ⟨init, b, rfl, hb, hinit⟩ | ⟨hopen, rfl⟩
  · rw [findIdx_append hinit hb]
    dsimp only
    rw [List.length_append, List.length_singleton, Nat.add_assoc]
  · rw [List.flatten_nil, List.append_nil]
    have hnone : line.findIdx? (· == lf) = none := List.findIdx?_eq_none_iff.2 hopen.2
    rw [hnone]
    dsimp only
    rw [List.length_append]

end

/-- The offset where the body starts, when `split` stopped at these lines. -/
def bodyStart (pos : Nat) : List Bytes → Nat
  | [] => pos
  | line :: _ => if isBlank line then pos + line.length else pos

/-- **`split` by positions is `split` by lines.** -/
theorem splitFrom_eq {headers : List RawHeader} {ls : List Bytes} (hwhole : Whole (· == lf) ls) :
    splitFrom (rawOf headers ++ ls.flatten) (size headers) (place 0 headers) =
      (place 0 (splitLines headers ls).1,
        bodyStart (size (splitLines headers ls).1) (splitLines headers ls).2) := by
  induction ls generalizing headers with
  | nil =>
    unfold splitFrom
    rw [List.flatten_nil, List.append_nil, dif_neg (by exact Nat.lt_irrefl _)]
    rfl
  | cons line ls ih =>
    have hend := @lineEnd_append (rawOf headers) line ls hwhole
    have hlt : size headers < (rawOf headers ++ (line :: ls).flatten).length := by
      have := List.length_pos_iff.2 hwhole.head_ne_nil
      rw [List.length_append, List.flatten_cons, List.length_append]
      unfold size
      omega
    have hline := @slice_append (rawOf headers) line ls.flatten
    rw [List.flatten_cons] at hlt ⊢
    unfold splitFrom splitLines
    rw [dif_pos hlt]
    have hpos : size headers = (rawOf headers).length := rfl
    dsimp only
    rw [hpos, hend, hline, ← hpos]
    cases hblank : isBlank line with
    | true =>
      rw [if_pos rfl, if_pos rfl]
      dsimp only
      rw [bodyStart, if_pos hblank]
    | false =>
      have hstay : bodyStart (size headers) (line :: ls) = size headers := by
        rw [bodyStart, if_neg (by rw [hblank]; exact Bool.false_ne_true)]
      rw [if_neg Bool.false_ne_true, if_neg Bool.false_ne_true]
      cases hfolded : isFolded line with
      | true =>
        rw [if_pos rfl, if_pos rfl]
        cases hlast : headers.getLast? with
        | none =>
          rw [List.getLast?_eq_none_iff.1 hlast] at hstay ⊢
          rw [hstay]
          rfl
        | some last =>
          obtain ⟨init, rfl⟩ := List.getLast?_eq_some_iff.1 hlast
          rw [place_concat, List.getLast?_concat, List.dropLast_concat, List.dropLast_concat]
          dsimp only
          have hsize : size (init ++ [last]) + line.length =
              size (init ++ [{ last with raw := last.raw ++ line }]) := by
            rw [size_concat, size_concat, List.length_append, Nat.add_assoc]
          have hraw : rawOf (init ++ [last]) ++ (line ++ ls.flatten) =
              rawOf (init ++ [{ last with raw := last.raw ++ line }]) ++ ls.flatten := by
            simp only [rawOf_concat, List.append_assoc]
          have hslice : slice (rawOf (init ++ [last]) ++ (line ++ ls.flatten)) (0 + size init)
              (size (init ++ [last]) + line.length) = last.raw ++ line := by
            have hwhole := @slice_append (rawOf init) (last.raw ++ line) ls.flatten
            rw [List.length_append, ← Nat.add_assoc] at hwhole
            rw [hraw, size_concat, Nat.zero_add, rawOf_concat, List.append_assoc]
            exact hwhole
          rw [hslice, hsize, hraw, ← ih hwhole.2, place_concat]
      | false =>
        rw [if_neg Bool.false_ne_true, if_neg Bool.false_ne_true]
        cases hname : fieldName line with
        | none =>
          dsimp only
          rw [hstay]
        | some name =>
          dsimp only
          have hsize : size headers + line.length = size (headers ++ [⟨name, line⟩]) := by
            rw [size_concat]
          have hraw : rawOf headers ++ (line ++ ls.flatten) =
              rawOf (headers ++ [⟨name, line⟩]) ++ ls.flatten := by
            simp only [rawOf_concat, List.append_assoc]
          rw [hsize, hraw, ← ih hwhole.2, place_concat, Nat.zero_add]

/-- A message is its fields and a rest that stops. -/
structure Block (raw : Bytes) (fs : List Field) (tail : List Bytes) : Prop where
  raw_eq : raw = rawOf (fs.map Field.header) ++ tail.flatten
  whole : Whole (· == lf) (fs.flatMap Field.lines ++ tail)
  stops : Stops tail ∨ (fs = [] ∧ ∃ line ∈ tail.head?, isBlank line = false ∧ isFolded line = true)

theorem flatten_lines_fields (fs : List Field) :
    (fs.flatMap Field.lines).flatten = rawOf (fs.map Field.header) := by
  induction fs with
  | nil => rfl
  | cons field fs ih => rw [List.flatMap_cons, List.flatten_append, ih, List.map_cons, rawOf_cons]; rfl

theorem exists_block (raw : Bytes) : ∃ fs tail, Block raw fs tail := by
  obtain ⟨folded, fs, tail, heq, hfolded, hstops⟩ := exists_fields (lines (· == lf) raw)
  have hwhole := whole_lines (· == lf) raw
  have hraw := flatten_lines (· == lf) raw
  cases folded with
  | nil =>
    rw [List.nil_append] at heq
    rw [heq] at hwhole hraw
    rw [List.flatten_append, flatten_lines_fields] at hraw
    exact ⟨fs, tail, hraw.symm, hwhole, .inl hstops⟩
  | cons line folded =>
    refine ⟨[], lines (· == lf) raw, hraw.symm, hwhole, .inr ⟨rfl, line, ?_, hfolded line List.mem_cons_self⟩⟩
    rw [heq]
    rfl

section
variable {raw : Bytes} {fs : List Field} {tail : List Bytes}

theorem Block.splitLines_eq (h : Block raw fs tail) :
    splitLines [] (fs.flatMap Field.lines ++ tail) = (fs.map Field.header, tail) := by
  rcases h.stops with hstops | ⟨rfl, line, hline, hblank, hfolded⟩
  · exact splitLines_fields fs hstops
  · obtain ⟨rest, rfl⟩ := List.head?_eq_some_iff.1 hline
    rw [List.flatMap_nil, List.nil_append]
    unfold splitLines
    rw [if_neg (by rw [hblank]; exact Bool.false_ne_true), if_pos hfolded]
    rfl

theorem Block.split_eq (h : Block raw fs tail) : split raw =
    (place 0 (fs.map Field.header), bodyStart (size (fs.map Field.header)) tail) := by
  have hsplit := @splitFrom_eq [] _ h.whole
  rw [h.splitLines_eq, rawOf, List.flatMap_nil, List.nil_append, List.flatten_append,
    flatten_lines_fields, ← h.raw_eq] at hsplit
  exact hsplit

theorem Block.fields_eq (h : Block raw fs tail) : fields raw = fs.map Field.header := by
  unfold fields
  rw [h.split_eq]
  exact map_place

/-- The body begins behind the empty line, or where the block stopped. -/
def bodyOf : List Bytes → Bytes
  | [] => []
  | line :: ls => if isBlank line then ls.flatten else (line :: ls).flatten

theorem Block.body_eq (h : Block raw fs tail) : body raw = bodyOf tail := by
  unfold body
  rw [h.split_eq]
  have hdrop : raw.drop (size (fs.map Field.header)) = tail.flatten := by
    rw [h.raw_eq]
    exact List.drop_left
  cases tail with
  | nil => exact hdrop
  | cons line ls =>
    rw [bodyOf, bodyStart]
    split
    · rw [← List.drop_drop, hdrop, List.flatten_cons, List.drop_left]
    · exact hdrop

end

/-! ## 4. Taking fields out -/

/-- What is copied around the fields that are picked. -/
theorem copyAround_place {raw before rest : Bytes} {headers : List RawHeader}
    {unwanted : RawHeader → Bool} {pos : Nat}
    {between : Bytes} (hraw : raw = before ++ between ++ (rawOf headers ++ rest))
    (hpos : pos = before.length) :
    copyAround raw pos ((place (before.length + between.length) headers).filter fun placed => unwanted placed.header) =
      between ++ rawOf (headers.filter fun header => !unwanted header) ++ rest := by
  induction headers generalizing before between pos with
  | nil =>
    subst hpos
    rw [hraw, place, List.filter_nil, copyAround, List.append_assoc, List.drop_left]
    simp
  | cons header headers ih =>
    rw [place]
    cases hunwanted : unwanted header with
    | true =>
      rw [List.filter_cons_of_pos (by exact hunwanted), List.filter_cons_of_neg (by simp [hunwanted]), copyAround]
      have hslice : slice raw pos (before.length + between.length) = between := by
        rw [hraw, hpos, List.append_assoc]
        exact slice_append
      have hnext := @ih (before ++ between ++ header.raw)
        (before.length + between.length + header.raw.length) []
        (by rw [hraw, rawOf_cons]; simp only [List.append_assoc, List.nil_append])
        (by rw [List.length_append, List.length_append])
      rw [List.length_nil, Nat.add_zero, List.length_append, List.length_append, List.nil_append] at hnext
      rw [hslice, hnext, List.append_assoc]
    | false =>
      rw [List.filter_cons_of_neg (by simp [hunwanted]), List.filter_cons_of_pos (by simp [hunwanted])]
      have hnext := @ih before pos (between ++ header.raw)
        (by rw [hraw, rawOf_cons]; simp only [List.append_assoc]) hpos
      rw [List.length_append, ← Nat.add_assoc] at hnext
      rw [hnext, rawOf_cons]
      simp only [List.append_assoc]

section
variable {raw : Bytes} {fs : List Field} {tail : List Bytes}

theorem Block.without_eq (h : Block raw fs tail) (unwanted : RawHeader → Bool) : without raw unwanted =
    rawOf ((fs.map Field.header).filter fun header => !unwanted header) ++ tail.flatten := by
  unfold without
  rw [h.split_eq]
  dsimp only
  have hcopy := @copyAround_place raw [] tail.flatten (fs.map Field.header) unwanted 0 [] h.raw_eq rfl
  rw [List.length_nil, Nat.add_zero, List.nil_append] at hcopy
  split
  · next hempty =>
    have hnone : ∀ header ∈ fs.map Field.header, unwanted header = false := by
      intro header hheader
      rw [← @map_place (fs.map Field.header) 0] at hheader
      obtain ⟨placed, hplaced, rfl⟩ := List.mem_map.1 hheader
      exact Bool.eq_false_iff.2 (List.filter_eq_nil_iff.1 (List.isEmpty_iff.1 hempty) placed hplaced)
    rw [List.filter_eq_self.2 fun header hheader => by rw [hnone header hheader]; rfl]
    exact h.raw_eq
  · exact hcopy

/-- **Fields are whole lines**, so what is left when some are taken out is a block again. -/
theorem Block.filter (h : Block raw fs tail) (keep : RawHeader → Bool) :
    Block (rawOf ((fs.map Field.header).filter keep) ++ tail.flatten)
      (fs.filter fun field => keep field.header) tail := by
  constructor
  · rw [List.filter_map]
    rfl
  · refine h.whole.sublist (.append ?_ (List.Sublist.refl tail))
    exact List.filter_sublist.flatMap _
  · refine h.stops.imp_right fun hfolded => ⟨?_, hfolded.2⟩
    rw [hfolded.1]
    rfl

end

section
variable {raw : Bytes} {fs : List Field} {tail : List Bytes}

theorem map_filter_header (fs : List Field) (keep : RawHeader → Bool) :
    (fs.filter fun field => keep field.header).map Field.header = (fs.map Field.header).filter keep := by
  rw [List.filter_map]
  rfl

theorem Block.without (h : Block raw fs tail) (unwanted : RawHeader → Bool) :
    Block (without raw unwanted) (fs.filter fun field => !unwanted field.header) tail := by
  rw [h.without_eq]
  exact h.filter fun header => !unwanted header

end

theorem fields_without (raw : Bytes) (unwanted : RawHeader → Bool) :
    fields (without raw unwanted) = (fields raw).filter fun header => !unwanted header := by
  obtain ⟨fs, tail, hblock⟩ := exists_block raw
  rw [(hblock.without unwanted).fields_eq, map_filter_header fs fun header => !unwanted header,
    hblock.fields_eq]

theorem body_without (raw : Bytes) (unwanted : RawHeader → Bool) :
    body (without raw unwanted) = body raw := by
  obtain ⟨fs, tail, hblock⟩ := exists_block raw
  rw [(hblock.without unwanted).body_eq, hblock.body_eq]

/-- **Fields taken out.**  What is left is the bytes of the other fields and what stood behind all
of them; it reads as the other fields, in order and byte for byte, and the same body, so no field
that was to go is there; taking out twice is taking out once; and it does not matter which fields go
first. -/
theorem without_spec (raw : Bytes) (unwanted : RawHeader → Bool) :
    (∃ rest, raw = rawOf (fields raw) ++ rest ∧ without raw unwanted =
      rawOf ((fields raw).filter fun header => !unwanted header) ++ rest) ∧
      fields (without raw unwanted) = (fields raw).filter (fun header => !unwanted header) ∧
      body (without raw unwanted) = body raw ∧
      (∀ header ∈ fields (without raw unwanted), unwanted header = false) ∧
      without (without raw unwanted) unwanted = without raw unwanted ∧
      ∀ unwanted', without (without raw unwanted) unwanted' = without (without raw unwanted') unwanted := by
  obtain ⟨fs, tail, hblock⟩ := exists_block raw
  have htwice : ∀ gone gone', without (without raw gone) gone' =
      rawOf ((fs.map Field.header).filter fun header => !gone header && !gone' header) ++ tail.flatten := by
    intro gone gone'
    rw [(hblock.without gone).without_eq, map_filter_header fs fun header => !gone header, List.filter_filter]
    simp only [Bool.and_comm]
  refine ⟨⟨tail.flatten, ?_, ?_⟩, fields_without raw unwanted, ?_, ?_, ?_, ?_⟩
  · rw [hblock.fields_eq]
    exact hblock.raw_eq
  · rw [hblock.fields_eq]
    exact hblock.without_eq unwanted
  · rw [(hblock.without unwanted).body_eq, hblock.body_eq]
  · intro header hheader
    rw [fields_without, List.mem_filter, Bool.not_eq_true'] at hheader
    exact hheader.2
  · rw [htwice, hblock.without_eq]
    simp only [Bool.and_self]
  · intro unwanted'
    rw [htwice, htwice]
    simp only [Bool.and_comm]

/-! ## 5. What a sender may not bring along -/

/-- `str::eq_ignore_ascii_case`. -/
def eqIgnoreAsciiCase (a b : List Char) : Bool := a.map Char.toLower == b.map Char.toLower

def named (names : List String) (header : RawHeader) : Bool :=
  names.any fun name => eqIgnoreAsciiCase header.name name.toList

def labelHeader : String := "X-UwUMail-Label"

def stripSpamVerdicts (raw : Bytes) : Bytes := without raw (named ["X-Spam-Score", "X-Spam-Status"])
def stripLabelHeaders (raw : Bytes) : Bytes := without raw (named [labelHeader])
def stripFaces (raw : Bytes) : Bytes := without raw (named ["Face"])
def stripVerificationInfo (raw : Bytes) : Bytes := without raw (named ["Verification-Info"])

end UwuMail.Smtp.Headers
