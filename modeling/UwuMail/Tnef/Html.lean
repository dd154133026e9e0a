/-
# The text of an HTML document

`html.rs`: the text a reader sees of a document, without tags, style and script, with line breaks
for blocks and entities decoded.  The decoder makes it of the HTML of a message that brings no text,
takes as many bytes from its budget as the HTML has, and gives back what the text does not need.

**The text is never longer than the document** (`byteLen_toText`), in bytes.  What is put in is paid
for by what is left out: a line break by its tag, a character by the entity it is decoded from,
which has four bytes at least, and a blank by the line break it stands for.

`scan` and `pushText` end because each turn of their loops leaves less of the document.
-/
import UwuMail.Store.Mutate

namespace UwuMail.Tnef.Html

open Store (isWhitespace)

abbrev Text := List Char

/-! ## 1. The source -/

/-- `split_once` at a character. -/
def splitOnce (sep : Char) : Text → Option (Text × Text)
  | [] => none
  | c :: text => if c = sep then some ([], text) else (splitOnce sep text).map fun s => (c :: s.1, s.2)

/-- What is left of the text from the first place on where `p` holds. -/
def find (p : Text → Bool) : Text → Option Text
  | [] => if p [] then some [] else none
  | c :: text => if p (c :: text) then some (c :: text) else find p text

/-- `from_str_radix` of `u32`, which takes a plus sign. -/
def parseU32 (radix : Nat) (text : Text) : Option Nat := do
  let digits := if text.head? = some '+' then text.tail else text
  if digits = [] then none
  let value ← digits.foldlM (fun n c => do
    let digit ← if c.isDigit then some (c.toNat - '0'.toNat)
      else if 'a' ≤ c.toLower ∧ c.toLower ≤ 'f' then some (c.toLower.toNat - 'a'.toNat + 10) else none
    if digit < radix then some (n * radix + digit) else none) 0
  if value < 2 ^ 32 then some value else none

/-- `char::from_u32`. -/
def fromU32 (code : Nat) : Option Char := if code.isValidChar then some (Char.ofNat code) else none

def entity (name : Text) : Option Char :=
  match name with
  | '#' :: num =>
    (match num with
    | 'x' :: hex => parseU32 16 hex
    | 'X' :: hex => parseU32 16 hex
    | num => parseU32 10 num).bind fromU32
  | name =>
    if name = "amp".toList then some '&'
    else if name = "lt".toList then some '<'
    else if name = "gt".toList then some '>'
    else if name = "quot".toList then some '"'
    else if name = "apos".toList then some '\''
    else if name = "nbsp".toList then some ' '
    else none

/-- What stands in front of a semicolon in the next `left` bytes, and what stands behind it. -/
def semicolon (left : Nat) : Text → Option (Text × Text)
  | [] => none
  | c :: text =>
    if left = 0 then none
    else if c = ';' then some ([], text)
    else (semicolon (left - c.utf8Size) text).map fun s => (c :: s.1, s.2)

/-- Text with the line breaks of the source as spaces, as HTML shows it. -/
def pushSpaces (out text : Text) : Text :=
  text.foldl (fun out c =>
    if c = '\r' ∨ c = '\n' ∨ c = '\t' then
      if out.getLast? ≠ some ' ' ∧ out.getLast? ≠ some '\n' ∧ out ≠ [] then out ++ [' '] else out
    else out ++ [c]) out

theorem splitOnce_eq {sep : Char} {text before after : Text} (h : splitOnce sep text = some (before, after)) :
    text = before ++ sep :: after := by
  induction text generalizing before with
  | nil => cases h
  | cons c text ih =>
    unfold splitOnce at h
    split at h
    · rename_i hc
      cases h
      rw [hc]
      rfl
    · obtain ⟨⟨before', after'⟩, hs, heq⟩ := Option.map_eq_some_iff.1 h
      cases heq
      rw [ih hs]
      rfl

theorem semicolon_eq {left : Nat} {text name rest : Text} (h : semicolon left text = some (name, rest)) :
    text = name ++ ';' :: rest := by
  induction text generalizing left name with
  | nil => cases h
  | cons c text ih =>
    unfold semicolon at h
    split at h
    · cases h
    · split at h
      · rename_i hc
        cases h
        rw [hc]
        rfl
      · obtain ⟨⟨name', rest'⟩, hs, heq⟩ := Option.map_eq_some_iff.1 h
        cases heq
        rw [ih hs]
        rfl

/-- An entity, and what stands behind it. -/
def entityAt (text : Text) : Option (Char × Text) :=
  (semicolon 11 text).bind fun s => (entity s.1).map fun c => (c, s.2)

theorem entityAt_eq {text rest : Text} {c : Char} (h : entityAt text = some (c, rest)) :
    ∃ name, entity name = some c ∧ text = name ++ ';' :: rest := by
  obtain ⟨⟨name, rest'⟩, hs, h⟩ := Option.bind_eq_some_iff.1 h
  obtain ⟨c', hc, heq⟩ := Option.map_eq_some_iff.1 h
  cases heq
  exact ⟨name, hc, semicolon_eq hs⟩

def pushText (out raw : Text) : Text :=
  match _hamp : splitOnce '&' raw with
  | none => pushSpaces out raw
  | some (before, after) =>
    let out := pushSpaces out before
    match _hentity : entityAt after with
    | some (c, rest) => pushText (out ++ [c]) rest
    | none => pushText (out ++ ['&']) after
termination_by raw.length
decreasing_by
  · obtain ⟨name, -, rfl⟩ := entityAt_eq _hentity
    rw [splitOnce_eq _hamp]
    simp only [List.length_append, List.length_cons]
    omega
  · rw [splitOnce_eq _hamp]
    simp only [List.length_append, List.length_cons]
    omega

/-- The name of a tag, opening or closing. -/
def tagName (tag : Text) : Text := ((tag.dropWhile (· = '/')).takeWhile Char.isAlphanum).map Char.toLower

/-- Elements whose text nobody sees. -/
def unseen : List Text := ["style", "script", "head", "title"].map String.toList

def blocks : List Text := ["p", "div", "tr", "li", "h1", "h2", "h3", "h4", "h5", "h6"].map String.toList

/-- Whether the text begins so, in any case; `needle` is lower case. -/
def startsIgnoreCase (needle text : Text) : Bool := (text.take needle.length).map Char.toLower = needle

/-- What is left behind the end of an element nobody sees. -/
def skipElement (name rest : Text) : Text :=
  match find (startsIgnoreCase ('<' :: '/' :: name)) rest with
  | some found =>
    match splitOnce '>' found with
    | some (_, rest) => rest
    | none => []
  | none => []

/-- What is left behind the end of a comment. -/
def skipComment (rest : Text) : Text :=
  match find ("-->".toList.isPrefixOf ·) rest with
  | some found => found.drop 3
  | none => []

theorem find_suffix {p : Text → Bool} {text found : Text} (h : find p text = some found) : found <:+ text := by
  induction text with
  | nil =>
    unfold find at h
    split at h
    · cases h
      exact List.suffix_refl _
    · cases h
  | cons c text ih =>
    unfold find at h
    split at h
    · cases h
      exact List.suffix_refl _
    · exact (ih h).trans (List.suffix_cons c text)

theorem skipElement_suffix (name rest : Text) : skipElement name rest <:+ rest := by
  unfold skipElement
  split
  · rename_i found hfound
    split
    · rename_i before after hs
      refine List.IsSuffix.trans ?_ (find_suffix hfound)
      rw [splitOnce_eq hs]
      exact (List.suffix_cons '>' after).trans (List.suffix_append before _)
    · exact List.nil_suffix
  · exact List.nil_suffix

theorem skipComment_suffix (rest : Text) : skipComment rest <:+ rest := by
  unfold skipComment
  split
  · rename_i found hfound
    exact (List.drop_suffix 3 found).trans (find_suffix hfound)
  · exact List.nil_suffix

/-- The loop of `to_text`: what is written, and what is left of the document. -/
def scan (out rest : Text) : Text :=
  match _hlt : splitOnce '<' rest with
  | none => pushText out rest
  | some (before, after) =>
    let out := pushText out before
    match _hgt : splitOnce '>' after with
    | none => pushText out []
    | some (tag, rest) =>
      let name := tagName tag
      if tag.head? ≠ some '/' ∧ name ∈ unseen then scan out (skipElement name rest)
      else if "!--".toList <+: tag ∧ ¬ "--".toList <:+ tag then scan out (skipComment rest)
      else if name = "br".toList ∨ name ∈ blocks ∧ out ≠ [] ∧ out.getLast? ≠ some '\n'
        then scan (out ++ ['\n']) rest
      else scan out rest
termination_by rest.length
decreasing_by
  all_goals
    rw [splitOnce_eq _hlt, splitOnce_eq _hgt]
    simp only [List.length_append, List.length_cons]
  · have := (skipElement_suffix (tagName tag) rest).length_le
    omega
  · have := (skipComment_suffix rest).length_le
    omega
  · omega
  · omega

def stripCr (line : Text) : Text := if line.getLast? = some '\r' then line.dropLast else line

/-- `str::lines`: a line break may have a carriage return in front, and ends a line without
beginning one. -/
def lines (text : Text) : List Text :=
  let pieces := text.splitOn '\n'
  pieces.dropLast.map stripCr ++ pieces.getLast?.toList.filter (!·.isEmpty)

def trimEnd (text : Text) : Text := text.rdropWhile isWhitespace

/-- One line more, or none where it is blank behind a blank one or in front of all others. -/
def pushLine (s : Text × Nat) (line : Text) : Text × Nat :=
  if trimEnd (line.dropWhile isWhitespace) = [] then
    if s.2 + 1 > 1 ∨ s.1 = [] then (s.1, s.2 + 1) else (s.1 ++ line ++ ['\n'], s.2 + 1)
  else (s.1 ++ line ++ ['\n'], 0)

/-- The text of an HTML document, roughly as a reader sees it. -/
def toText (html : Text) : Text :=
  trimEnd (((lines (scan [] html)).map trimEnd).foldl pushLine ([], 0)).1

/-- The length of a text in UTF-8. -/
def byteLen (text : Text) : Nat := (text.map Char.utf8Size).sum

/-- What is left for the whole stream (`lib.rs`). -/
structure Budget where
  /-- Bytes of output. -/
  output : Nat
  /-- Something was left out because `output` ran out. -/
  exhausted : Bool := false

/-- Takes `n` bytes when they fit. -/
def Budget.take (n : Nat) (b : Budget) : Budget × Bool :=
  if n > b.output then ({ b with exhausted := true }, false) else ({ b with output := b.output - n }, true)

/-- The text of a body that brings HTML and no text: the last step of `body`.  Nothing where the
budget has no room for the HTML, or there is no text in it. -/
def bodyText (html : Text) (budget : Budget) : Budget × Option Text :=
  let (budget, fits) := budget.take (byteLen html)
  if fits then
    let text := toText html
    ({ budget with output := budget.output + (byteLen html - min (byteLen text) (byteLen html)) },
      some text |>.filter (!·.isEmpty))
  else (budget, none)

/-! ## 2. Bytes -/

variable {out text raw rest name line : Text} {c : Char}

@[simp] theorem byteLen_nil : byteLen [] = 0 := rfl

@[simp] theorem byteLen_cons (c : Char) (text : Text) :
    byteLen (c :: text) = c.utf8Size + byteLen text := List.sum_cons

@[simp] theorem byteLen_append (a b : Text) : byteLen (a ++ b) = byteLen a + byteLen b := by
  unfold byteLen
  rw [List.map_append, List.sum_append]

theorem byteLen_le {a b : Text} (h : a.Sublist b) : byteLen a ≤ byteLen b :=
  (h.map _).sum_le_sum fun _ _ => Nat.zero_le _

theorem length_le_byteLen (text : Text) : text.length ≤ byteLen text := by
  induction text with
  | nil => exact Nat.le_refl _
  | cons c text ih =>
    have hpos := c.utf8Size_pos
    rw [List.length_cons, byteLen_cons]
    omega

/-! ## 3. What is written -/

theorem byteLen_pushSpaces (out text : Text) : byteLen (pushSpaces out text) ≤ byteLen out + byteLen text := by
  unfold pushSpaces
  induction text generalizing out with
  | nil => exact Nat.le_refl _
  | cons c text ih =>
    rw [List.foldl_cons, byteLen_cons]
    have hpos := c.utf8Size_pos
    have hspace : ' '.utf8Size = 1 := rfl
    refine (ih _).trans ?_
    split
    · split
      · rw [byteLen_append, byteLen_cons, byteLen_nil]
        omega
      · omega
    · rw [byteLen_append, byteLen_cons, byteLen_nil]
      omega

/-- The name of an entity has two characters at least. -/
theorem two_le_of_entity (h : entity name = some c) : 2 ≤ name.length := by
  match name with
  | [] => cases h
  | [d] =>
    exfalso
    by_cases hd : d = '#'
    · subst hd
      cases h
    · have hnone : entity [d] = none := by
        unfold entity
        split
        · rename_i num heq
          exact absurd (List.cons.inj heq).1 hd
        · simp
      rw [hnone] at h
      cases h
  | _ :: _ :: _ => simp

/-- **An entity pays for the character it is decoded to.** -/
theorem byteLen_entityAt (h : entityAt text = some (c, rest)) :
    c.utf8Size + byteLen rest ≤ 1 + byteLen text := by
  obtain ⟨name, hname, rfl⟩ := entityAt_eq h
  have htwo := Nat.le_trans (two_le_of_entity hname) (length_le_byteLen name)
  have hfour := c.utf8Size_le_four
  have hsemicolon : ';'.utf8Size = 1 := rfl
  rw [byteLen_append, byteLen_cons]
  omega

theorem byteLen_pushText (out raw : Text) : byteLen (pushText out raw) ≤ byteLen out + byteLen raw := by
  have hamp : '&'.utf8Size = 1 := rfl
  fun_induction pushText out raw with
  | case1 out raw hnone => exact byteLen_pushSpaces out raw
  | case2 out raw before after hsplit out' c rest hentity ih =>
    have hout : byteLen out' ≤ _ := byteLen_pushSpaces out before
    have hpaid := byteLen_entityAt hentity
    rw [byteLen_append, byteLen_cons, byteLen_nil] at ih
    rw [splitOnce_eq hsplit, byteLen_append, byteLen_cons]
    omega
  | case3 out raw before after hsplit out' hentity ih =>
    have hout : byteLen out' ≤ _ := byteLen_pushSpaces out before
    rw [byteLen_append, byteLen_cons, byteLen_nil] at ih
    rw [splitOnce_eq hsplit, byteLen_append, byteLen_cons]
    omega

/-- **The loop writes no more than it reads.** -/
theorem byteLen_scan (out rest : Text) : byteLen (scan out rest) ≤ byteLen out + byteLen rest := by
  have hbreak : '\n'.utf8Size = 1 := rfl
  fun_induction scan out rest with
  | case1 out rest hnone => exact byteLen_pushText out rest
  | case2 out rest before after hlt out' hnone =>
    have hout : byteLen out' ≤ _ := byteLen_pushText out before
    have hend := byteLen_pushText out' []
    rw [byteLen_nil] at hend
    rw [splitOnce_eq hlt, byteLen_append]
    omega
  | case3 out rest before after hlt out' tag rest' hgt name hunseen ih =>
    have hout : byteLen out' ≤ _ := byteLen_pushText out before
    have hrest := byteLen_le (skipElement_suffix name rest').sublist
    rw [splitOnce_eq hlt, splitOnce_eq hgt]
    simp only [byteLen_append, byteLen_cons]
    omega
  | case4 out rest before after hlt out' tag rest' hgt name hseen hcomment ih =>
    have hout : byteLen out' ≤ _ := byteLen_pushText out before
    have hrest := byteLen_le (skipComment_suffix rest').sublist
    rw [splitOnce_eq hlt, splitOnce_eq hgt]
    simp only [byteLen_append, byteLen_cons]
    omega
  | case5 out rest before after hlt out' tag rest' hgt name hseen hno hbreaks ih =>
    -- the line break is paid for by the angle bracket
    have hout : byteLen out' ≤ _ := byteLen_pushText out before
    have hopen : '<'.utf8Size = 1 := rfl
    rw [byteLen_append, byteLen_cons, byteLen_nil] at ih
    rw [splitOnce_eq hlt, splitOnce_eq hgt]
    simp only [byteLen_append, byteLen_cons]
    omega
  | case6 out rest before after hlt out' tag rest' hgt name hseen hno hnone ih =>
    have hout : byteLen out' ≤ _ := byteLen_pushText out before
    rw [splitOnce_eq hlt, splitOnce_eq hgt]
    simp only [byteLen_append, byteLen_cons]
    omega

/-! ## 4. The lines -/

/-- What lines take, each with a line break. -/
def ended (lines : List Text) : Nat := (lines.map fun line => byteLen line + 1).sum

theorem ended_cons (line : Text) (lines : List Text) : ended (line :: lines) =
    byteLen line + 1 + ended lines := List.sum_cons

theorem ended_splitOn (text : Text) : ended (text.splitOn '\n') = byteLen text + 1 := by
  induction text with
  | nil => rfl
  | cons c text ih =>
    rw [List.splitOn_cons_eq_if_modifyHead]
    split
    · rename_i hc
      have hsize : c.utf8Size = 1 := by
        rw [beq_iff_eq.1 hc]
        rfl
      rw [ended_cons, ih, byteLen_nil, byteLen_cons]
      omega
    · obtain ⟨first, pieces, hpieces⟩ := List.exists_cons_of_ne_nil (List.splitOn_ne_nil '\n' text)
      rw [hpieces, ended_cons] at ih
      rw [hpieces, List.modifyHead_cons, ended_cons, byteLen_cons, byteLen_cons]
      omega

/-- Lines that are shorter, or fewer, take no more. -/
theorem ended_map_le {f : Text → Text} (hf : ∀ line, (f line).Sublist line) (lines : List Text) :
    ended (lines.map f) ≤ ended lines := by
  induction lines with
  | nil => exact Nat.le_refl _
  | cons line lines ih =>
    have hline := byteLen_le (hf line)
    rw [List.map_cons, ended_cons, ended_cons]
    omega

theorem ended_append (a b : List Text) : ended (a ++ b) = ended a + ended b := by
  unfold ended
  rw [List.map_append, List.sum_append]

theorem stripCr_sublist (line : Text) : (stripCr line).Sublist line := by
  unfold stripCr
  split
  · exact List.dropLast_sublist line
  · exact List.Sublist.refl line

theorem ended_lines (text : Text) : ended (lines text) ≤ byteLen text + 1 := by
  have hsplit := ended_splitOn text
  obtain ⟨init, last, hpieces⟩ := (List.eq_nil_or_concat (text.splitOn '\n')).resolve_left
    (List.splitOn_ne_nil '\n' text)
  have hinit := ended_map_le stripCr_sublist init
  have hlast : ended ([last].filter fun line : List Char => !line.isEmpty) ≤ ended [last] := by
    rw [List.filter_cons]
    split
    · exact Nat.le_refl _
    · exact Nat.zero_le _
  rw [hpieces, List.concat_eq_append, ended_append] at hsplit
  unfold lines
  dsimp only
  rw [hpieces, List.concat_eq_append, List.dropLast_concat, List.getLast?_concat,
    Option.toList_some, ended_append]
  omega

theorem byteLen_pushLine (s : Text × Nat) (line : Text) : byteLen (pushLine s line).1 ≤
    byteLen s.1 + (byteLen line + 1) := by
  have hbreak : '\n'.utf8Size = 1 := rfl
  unfold pushLine
  split
  · split
    · exact Nat.le_add_right _ _
    · simp only [byteLen_append, byteLen_cons, byteLen_nil]
      omega
  · simp only [byteLen_append, byteLen_cons, byteLen_nil]
    omega

theorem byteLen_pushLines (s : Text × Nat) (lines : List Text) :
    byteLen (lines.foldl pushLine s).1 ≤ byteLen s.1 + ended lines := by
  induction lines generalizing s with
  | nil => exact Nat.le_refl _
  | cons line lines ih =>
    have hline := byteLen_pushLine s line
    have hlines := ih (pushLine s line)
    rw [List.foldl_cons, ended_cons]
    omega

/-- What is written ends with a line break, if anything is. -/
theorem pushLines_ends (lines : List Text) : (lines.foldl pushLine ([], 0)).1 = [] ∨
    ∃ init, (lines.foldl pushLine ([], 0)).1 = init ++ ['\n'] := by
  have hpush : ∀ (s : Text × Nat) (line : Text), (s.1 = [] ∨ ∃ init, s.1 = init ++ ['\n']) →
      (pushLine s line).1 = [] ∨ ∃ init, (pushLine s line).1 = init ++ ['\n'] := by
    intro s line h
    unfold pushLine
    split
    · split
      · exact h
      · exact .inr ⟨_, rfl⟩
    · exact .inr ⟨_, rfl⟩
  have hall : ∀ (lines : List Text) (s : Text × Nat), (s.1 = [] ∨ ∃ init, s.1 = init ++ ['\n']) →
      (lines.foldl pushLine s).1 = [] ∨ ∃ init, (lines.foldl pushLine s).1 = init ++ ['\n'] := by
    intro lines
    induction lines with
    | nil => exact fun s h => h
    | cons line lines ih => exact fun s h => ih _ (hpush s line h)
  exact hall lines ([], 0) (.inl rfl)

theorem trimEnd_sublist (text : Text) : (trimEnd text).Sublist text :=
    (List.rdropWhile_prefix isWhitespace text).sublist

theorem byteLen_toText (html : Text) : byteLen (toText html) ≤ byteLen html := by
  have hscan := byteLen_scan [] html
  have hlines := ended_lines (scan [] html)
  have htrim := ended_map_le trimEnd_sublist (lines (scan [] html))
  have hpush := byteLen_pushLines ([], 0) ((lines (scan [] html)).map trimEnd)
  have hbreak : '\n'.utf8Size = 1 := rfl
  rw [byteLen_nil] at hscan hpush
  unfold toText
  rcases pushLines_ends ((lines (scan [] html)).map trimEnd) with hnil | ⟨init, hinit⟩
  · rw [hnil]
    exact Nat.zero_le _
  · -- the last line break is taken off again
    have hlast : trimEnd (init ++ ['\n']) = trimEnd init :=
      List.rdropWhile_concat_pos isWhitespace init '\n' rfl
    have hle := byteLen_le (trimEnd_sublist init)
    rw [hinit, byteLen_append, byteLen_cons, byteLen_nil] at hpush
    rw [hinit, hlast]
    omega

/-- **The text of a document is never longer than the document**, and a budget that makes room for
the document is left with what the text does not take. -/
theorem to_text_fits (html : Text) : byteLen (toText html) ≤ byteLen html ∧
    ∀ budget, (bodyText html budget).1.output + byteLen ((bodyText html budget).2.getD []) =
        budget.output := by
  have hle := byteLen_toText html
  refine ⟨hle, fun budget => ?_⟩
  unfold bodyText Budget.take
  by_cases hroom : byteLen html > budget.output
  · rw [if_pos hroom]
    rfl
  · have htext : byteLen ((Option.filter (!·.isEmpty) (some (toText html))).getD []) =
        byteLen (toText html) := by
      cases toText html with
      | nil => rfl
      | cons c text => rfl
    rw [if_neg hroom]
    simp only [if_true, htext, Nat.min_eq_left hle]
    omega

end UwuMail.Tnef.Html
