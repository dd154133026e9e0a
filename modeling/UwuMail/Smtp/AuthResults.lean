/-
# The words of Authentication-Results

`auth_results_parts` of `headers.rs` reads a value as its `;` parts and their words, with quoted
strings, nested comments and escapes, and two limits: a word of more than 1024 bytes is left out,
and a part of more than 32 words comes out empty.

**The answer is what a reader without limits finds, part by part, less what is over them**
(`parts_eq`), so no word of it was ever cut.  Between quoted strings and comments, a comment put in
is a blank and a quoted string is its text; the rest is read as before, UNLESS it takes the part
over 32 words, or long words leave it (`auth_results_words`).
-/
import UwuMail.Lib.Pieces
import UwuMail.Smtp.Headers

namespace UwuMail.Smtp.Headers

/-! ## 1. The source -/

abbrev Text := List Char

/-- The longest word of an `Authentication-Results` value that is kept. -/
def maxAuthWord : Nat := 1024
/-- The most words of one `;` part; a part with more is left out as a whole. -/
def maxAuthPartWords : Nat := 32

/-- `str::len`. -/
def byteLen (word : Text) : Nat := (word.map Char.utf8Size).sum

/-- What `next` has read of a part. -/
structure Reading where
  part : List Text := []
  overflow : Bool := false
  word : Text := []
  tooLong : Bool := false

def Reading.endWord (r : Reading) : Reading :=
  if !r.word.isEmpty && !r.tooLong then
    if r.part.length < maxAuthPartWords then { r with part := r.part ++ [r.word], word := [], tooLong := false }
    else { r with overflow := true, word := [], tooLong := false }
  else { r with word := [], tooLong := false }

def Reading.push (r : Reading) (c : Char) : Reading :=
  if r.tooLong then r
  else if byteLen r.word + c.utf8Size > maxAuthWord then { r with word := [], tooLong := true }
  else { r with word := r.word ++ [c] }

def Reading.words (r : Reading) : List Text := if r.overflow then [] else r.part

structure AuthResultsParts where
  chars : List Char
  done : Bool := false
  malformed : Bool := false

/-- Only the whitespace of RFC 8601's CFWS. -/
def isCfws (c : Char) : Bool := c == ' ' || c == '\t' || c == '\r' || c == '\n'

/-- The loop of `next`. -/
def readPart (quoted : Bool) (depth : Nat) (r : Reading) (malformed : Bool) :
    List Char → List Text × AuthResultsParts
  | [] => (r.endWord.words, ⟨[], true, malformed || (quoted || 0 < depth)⟩)
  | c :: chars =>
    if quoted then
      if c == '\\' then
        match chars with
        | next :: chars => readPart quoted depth (r.push next) malformed chars
        | [] => readPart quoted depth r malformed []
      else if c == '"' then readPart false depth r malformed chars
      else readPart quoted depth (r.push c) malformed chars
    else if depth > 0 then
      if c == '\\' then
        match chars with
        | _ :: chars => readPart quoted depth r malformed chars
        | [] => readPart quoted depth r malformed []
      else if c == '(' then readPart quoted (depth + 1) r malformed chars
      else if c == ')' then readPart quoted (depth - 1) r malformed chars
      else readPart quoted depth r malformed chars
    else if c == '"' then readPart true depth r malformed chars
    else if c == ')' then readPart quoted depth r.endWord true chars
    else if c == '(' then readPart quoted 1 r.endWord malformed chars
    else if c == ';' then (r.endWord.words, ⟨chars, false, malformed⟩)
    else if isCfws c then readPart quoted depth r.endWord malformed chars
    else readPart quoted depth (r.push c) malformed chars

def AuthResultsParts.next (parts : AuthResultsParts) : Option (List Text × AuthResultsParts) :=
  if parts.done then none else some (readPart false 0 {} parts.malformed parts.chars)

/-- `Iterator::collect`, for at most so many items. -/
def AuthResultsParts.collect : Nat → AuthResultsParts → List (List Text)
  | 0, _ => []
  | fuel + 1, parts =>
    match parts.next with
    | some (part, parts) => part :: collect fuel parts
    | none => []

/-- An `Authentication-Results` value as its `;` parts, each as its words. -/
def authResultsParts (value : Text) : List (List Text) := AuthResultsParts.collect
    (value.length + 2) ⟨value, false, false⟩

/-! ## 2. A reader without limits -/

/-- What a character stands for. -/
inductive Mark where
  | char (c : Char)
  | blank
  | semicolon

/-- Between what the next character stands. -/
structure State where
  quoted : Bool
  depth : Nat
  escaped : Bool
deriving DecidableEq

/-- Outside of quoted strings and comments. -/
def outside : State := ⟨false, 0, false⟩

def State.step (s : State) (c : Char) : State × List Mark :=
  if s.escaped then ({ s with escaped := false }, if s.quoted then [.char c] else [])
  else if s.quoted then
    if c == '\\' then ({ s with escaped := true }, [])
    else if c == '"' then ({ s with quoted := false }, [])
    else (s, [.char c])
  else if s.depth > 0 then
    if c == '\\' then ({ s with escaped := true }, [])
    else if c == '(' then ({ s with depth := s.depth + 1 }, [])
    else if c == ')' then ({ s with depth := s.depth - 1 }, [])
    else (s, [])
  else if c == '"' then ({ s with quoted := true }, [])
  else if c == ')' then (s, [.blank])
  else if c == '(' then ({ s with depth := 1 }, [.blank])
  else if c == ';' then (s, [.semicolon])
  else if isCfws c then (s, [.blank])
  else (s, [.char c])

def State.after (s : State) (text : Text) : State := text.foldl (fun s c => (s.step c).1) s

def State.marks (s : State) : Text → List Mark
  | [] => []
  | c :: text => (s.step c).2 ++ (s.step c).1.marks text

/-- A word, if there is one. -/
def one (word : Text) : List Text := if word.isEmpty then [] else [word]

/-- All that was read: whole parts, whole words of the part that is read, and the word that is
read. -/
structure Found where
  parts : List (List Text) := []
  words : List Text := []
  word : Text := []

def Found.read (f : Found) : Mark → Found
  | .char c => { f with word := f.word ++ [c] }
  | .blank => { f with words := f.words ++ one f.word, word := [] }
  | .semicolon => { parts := f.parts ++ [f.words ++ one f.word] }

def Found.close (f : Found) : List (List Text) := f.parts ++ [f.words ++ one f.word]

def partsOf (f : Found) (marks : List Mark) : List (List Text) := (marks.foldl Found.read f).close

/-- The parts of a value and all their words. -/
def wholeParts (value : Text) : List (List Text) := partsOf {} (outside.marks value)

/-- What the limits leave of a part. -/
def limit (words : List Text) : List Text :=
  let kept := words.filter fun word => byteLen word ≤ maxAuthWord
  if kept.length ≤ maxAuthPartWords then kept else []

section
variable {s : State} {text text' : Text} {f : Found} {marks : List Mark}

@[simp] theorem State.after_cons {c : Char} : s.after (c :: text) = (s.step c).1.after text := rfl

theorem State.after_append : s.after (text ++ text') = (s.after text).after text' := List.foldl_append

theorem State.marks_append : s.marks (text ++ text') = s.marks text ++ (s.after text).marks text' := by
  induction text generalizing s with
  | nil => rfl
  | cons c text ih => rw [List.cons_append, marks, ih, marks, List.append_assoc, State.after_cons]

/-- **What comes behind a place** is part of a word, words of its part, and other parts; what came
before does not matter. -/
theorem exists_rest (marks : List Mark) : ∃ word words parts, ∀ f : Found,
    partsOf f marks = f.parts ++ (f.words ++ one (f.word ++ word) ++ words) :: parts := by
  induction marks with
  | nil =>
    refine ⟨[], [], [], fun f => ?_⟩
    rw [List.append_nil, List.append_nil]
    rfl
  | cons mark marks ih =>
    obtain ⟨word, words, parts, hrest⟩ := ih
    cases mark with
    | char c =>
      refine ⟨c :: word, words, parts, fun f => ?_⟩
      have := hrest (f.read (.char c))
      rw [partsOf, List.foldl_cons]
      rw [partsOf] at this
      rw [this]
      simp only [Found.read, List.append_assoc, List.singleton_append]
    | blank =>
      refine ⟨[], one word ++ words, parts, fun f => ?_⟩
      have := hrest (f.read .blank)
      rw [partsOf, List.foldl_cons]
      rw [partsOf] at this
      rw [this]
      simp only [Found.read, List.append_assoc, List.nil_append, List.append_nil]
    | semicolon =>
      refine ⟨[], [], (one word ++ words) :: parts, fun f => ?_⟩
      have := hrest (f.read .semicolon)
      rw [partsOf, List.foldl_cons]
      rw [partsOf] at this
      rw [this]
      simp only [Found.read, List.append_assoc, List.nil_append, List.append_nil, List.singleton_append]

/-- Parts that are whole stay in front. -/
theorem partsOf_parts (parts : List (List Text)) (marks : List Mark) :
    partsOf { parts := parts } marks = parts ++ partsOf {} marks := by
  obtain ⟨word, words, rest, hrest⟩ := exists_rest marks
  rw [hrest, hrest]
  rfl

end

/-! ## 3. With the limits -/

def fits (word : Text) : Bool := byteLen word ≤ maxAuthWord

/-- What the limits leave of these words is what was read. -/
structure Limited (r : Reading) (words : List Text) (word : Text) : Prop where
  part : r.part = (words.filter fits).take maxAuthPartWords
  overflow : r.overflow = decide (maxAuthPartWords < (words.filter fits).length)
  word : (r.tooLong = false ∧ r.word = word ∧ fits word = true) ∨
    (r.tooLong = true ∧ r.word = [] ∧ fits word = false)

section
variable {r : Reading} {words : List Text} {word : Text}

theorem byteLen_concat (word : Text) (c : Char) : byteLen (word ++ [c]) = byteLen word + c.utf8Size := by
  simp [byteLen]

theorem Limited.start : Limited {} [] [] := ⟨rfl, rfl, .inl ⟨rfl, rfl, by decide⟩⟩

theorem Limited.push (h : Limited r words word) (c : Char) : Limited (r.push c) words (word ++ [c]) := by
  unfold Reading.push
  rcases h.word with ⟨hlong, hword, hfits⟩ | ⟨hlong, hword, hfits⟩
  · rw [hlong, hword, ← byteLen_concat, if_neg Bool.false_ne_true]
    split
    · next hover => exact ⟨h.part, h.overflow, .inr ⟨rfl, rfl, decide_eq_false (Nat.not_le_of_gt hover)⟩⟩
    · next hle => exact ⟨h.part, h.overflow, .inl ⟨rfl, rfl, decide_eq_true (Nat.le_of_not_gt hle)⟩⟩
  · rw [hlong, if_pos rfl]
    refine ⟨h.part, h.overflow, .inr ⟨hlong, hword, ?_⟩⟩
    have hover := of_decide_eq_false hfits
    refine decide_eq_false fun hle => hover ?_
    rw [byteLen_concat] at hle
    exact Nat.le_trans (Nat.le_add_right _ _) hle

theorem Limited.endWord (h : Limited r words word) : Limited r.endWord (words ++ one word) [] := by
  have hempty : ∀ r' : Reading, r'.tooLong = false → r'.word = [] →
      (r'.tooLong = false ∧ r'.word = [] ∧ fits [] = true) ∨
          (r'.tooLong = true ∧ r'.word = [] ∧ fits [] = false) :=
    fun _ hlong hword => .inl ⟨hlong, hword, by decide⟩
  unfold Reading.endWord
  rcases h.word with ⟨hlong, hword, hfits⟩ | ⟨hlong, hword, hfits⟩
  · rw [hlong, hword]
    cases word with
    | nil =>
      rw [show one [] = [] from rfl, List.append_nil, if_neg (by decide)]
      exact ⟨h.part, h.overflow, hempty _ rfl rfl⟩
    | cons c word =>
      have hkept : ((words ++ one (c :: word)).filter fits) = words.filter fits ++ [c :: word] := by
        rw [one, if_neg (by simp), List.filter_append, List.filter_cons_of_pos hfits, List.filter_nil]
      have hlen : r.part.length = min maxAuthPartWords (words.filter fits).length := by
        rw [h.part, List.length_take]
      rw [if_pos (by rfl)]
      split
      · next hlt =>
        have hroom : (words.filter fits).length < maxAuthPartWords := by omega
        constructor
        · dsimp only
          rw [hkept, h.part, List.take_of_length_le (Nat.le_of_lt hroom), List.take_of_length_le]
          rw [List.length_append, List.length_singleton]
          exact hroom
        · dsimp only
          rw [hkept, h.overflow, List.length_append, List.length_singleton,
            decide_eq_false (Nat.not_lt_of_gt hroom),
            decide_eq_false (Nat.not_lt_of_ge hroom)]
        · exact hempty _ rfl rfl
      · next hge =>
        have hfull : maxAuthPartWords ≤ (words.filter fits).length := by omega
        constructor
        · dsimp only
          rw [hkept, h.part, List.take_append_of_le_length hfull]
        · dsimp only
          rw [hkept, List.length_append, List.length_singleton, decide_eq_true (Nat.lt_succ_of_le hfull)]
        · exact hempty _ rfl rfl
  · rw [hlong, hword, if_neg (by decide)]
    have hkept : ((words ++ one word).filter fits) = words.filter fits := by
      unfold one
      split
      · rw [List.append_nil]
      · rw [List.filter_append, List.filter_cons_of_neg (by rw [hfits]; exact Bool.false_ne_true), List.filter_nil,
          List.append_nil]
    constructor
    · rw [hkept]
      exact h.part
    · rw [hkept]
      exact h.overflow
    · exact hempty _ rfl rfl

theorem Limited.words_eq (h : Limited r words []) : r.words = limit words := by
  unfold Reading.words limit
  have hkept : (words.filter fun word => byteLen word ≤ maxAuthWord) = words.filter fits := rfl
  rw [hkept, h.overflow]
  by_cases hle : (words.filter fits).length ≤ maxAuthPartWords
  · rw [decide_eq_false (Nat.not_lt_of_ge hle), if_neg Bool.false_ne_true, if_pos hle, h.part,
      List.take_of_length_le hle]
  · rw [decide_eq_true (Nat.lt_of_not_le hle), if_pos rfl, if_neg hle]

/-- What one call of `next` answers, and what it leaves. -/
def Reads (f : Found) (marks : List Mark) (length : Nat) (result : List Text × AuthResultsParts) : Prop :=
  ∃ whole, result.1 = limit whole ∧
    ((result.2.done = true ∧ partsOf f marks = [whole]) ∨
      (result.2.done = false ∧ result.2.chars.length < length ∧
        partsOf f marks = whole :: partsOf {} (outside.marks result.2.chars)))

theorem Reads.le {f : Found} {marks : List Mark} {m n : Nat} {result : List Text × AuthResultsParts}
    (h : Reads f marks m result) (hle : m ≤ n) : Reads f marks n result := by
  obtain ⟨whole, hlimit, hdone | ⟨hmore, hlt, hrest⟩⟩ := h
  · exact ⟨whole, hlimit, .inl hdone⟩
  · exact ⟨whole, hlimit, .inr ⟨hmore, Nat.lt_of_lt_of_le hlt hle, hrest⟩⟩

/-- One character, and what comes behind it. -/
theorem Reads.step {f : Found} {s : State} {c : Char} {chars : Text} (s' : State) (marks : List Mark)
    {result : List Text × AuthResultsParts} (hstep : s.step c = (s', marks))
    (h : Reads (marks.foldl Found.read f) (s'.marks chars) chars.length result) :
    Reads f (s.marks (c :: chars)) (c :: chars).length result := by
  have hmarks : partsOf f (s.marks (c :: chars)) = partsOf (marks.foldl Found.read f) (s'.marks chars) := by
    rw [State.marks, hstep]
    unfold partsOf
    rw [List.foldl_append]
  have hle := h.le (Nat.le_succ chars.length)
  unfold Reads at hle ⊢
  rw [hmarks]
  exact hle

/-- **One part**, by induction over what is left of the value; what was read so far is `words` and
`word`. -/
theorem readPart_spec (quoted : Bool) (depth : Nat) (r : Reading) (malformed : Bool) (chars : Text)
    (h : Limited r words word) :
    Reads ⟨[], words, word⟩ (State.marks ⟨quoted, depth, false⟩ chars) chars.length
      (readPart quoted depth r malformed chars) := by
  fun_induction readPart quoted depth r malformed chars generalizing words word
  case case1 => exact ⟨_, h.endWord.words_eq, .inl ⟨rfl, rfl⟩⟩
  case case2 depth r malformed c hc next chars ih =>
    refine .step ⟨true, depth, true⟩ [] (by simp [State.step, hc]) ?_
    exact .step ⟨true, depth, false⟩ [.char next] rfl (ih (h.push next))
  case case3 depth r malformed c hc ih =>
    exact .step ⟨true, depth, true⟩ [] (by simp [State.step, hc]) (ih h)
  case case4 depth r malformed c chars hc hquote ih =>
    exact .step ⟨false, depth, false⟩ [] (by simp [State.step, hc, hquote]) (ih h)
  case case5 depth r malformed c chars hc hquote ih =>
    exact .step ⟨true, depth, false⟩ [.char c] (by simp [State.step, hc, hquote]) (ih (h.push c))
  -- Comments, which say nothing.
  case case6 quoted depth r malformed c hquoted hdepth hc next chars ih =>
    refine .step ⟨quoted, depth, true⟩ [] (by simp [State.step, hquoted, hdepth, hc]) ?_
    exact .step ⟨quoted, depth, false⟩ [] (by simp [State.step, hquoted]) (ih h)
  case case7 quoted depth r malformed c hquoted hdepth hc ih =>
    exact .step ⟨quoted, depth, true⟩ [] (by simp [State.step, hquoted, hdepth, hc]) (ih h)
  case case8 quoted depth r malformed c chars hquoted hdepth hc hopen ih =>
    exact .step ⟨quoted, depth + 1, false⟩ [] (by simp [State.step, hquoted, hdepth, hc, hopen]) (ih h)
  case case9 quoted depth r malformed c chars hquoted hdepth hc hopen hclose ih =>
    exact .step ⟨quoted, depth - 1, false⟩ [] (by simp [State.step, hquoted, hdepth, hc, hopen,
      hclose]) (ih h)
  case case10 quoted depth r malformed c chars hquoted hdepth hc hopen hclose ih =>
    exact .step ⟨quoted, depth, false⟩ [] (by simp [State.step, hquoted, hdepth, hc, hopen, hclose]) (ih h)
  -- Outside of both.
  case case11 quoted depth r malformed c chars hquoted hdepth hquote ih =>
    exact .step ⟨true, depth, false⟩ [] (by simp [State.step, hquoted, hdepth, hquote]) (ih h)
  case case12 quoted depth r malformed c chars hquoted hdepth hquote hclose ih =>
    exact .step ⟨quoted, depth, false⟩ [.blank] (by simp [State.step, hquoted, hdepth, hquote,
      hclose]) (ih h.endWord)
  case case13 quoted depth r malformed c chars hquoted hdepth hquote hclose hopen ih =>
    exact .step ⟨quoted, 1, false⟩ [.blank] (by simp [State.step, hquoted, hdepth, hquote, hclose, hopen])
      (ih h.endWord)
  case case14 quoted depth r malformed c chars hquoted hdepth hquote hclose hopen hsemicolon =>
    have hstep : State.step ⟨quoted, depth, false⟩ c = (outside, [.semicolon]) := by
      simp [State.step, hquoted, hquote, hclose, hopen, hsemicolon, outside, Nat.eq_zero_of_not_pos hdepth]
    refine ⟨words ++ one word, h.endWord.words_eq, .inr ⟨rfl, Nat.lt_succ_self _, ?_⟩⟩
    rw [State.marks, hstep]
    exact partsOf_parts [words ++ one word] (outside.marks chars)
  case case15 quoted depth r malformed c chars hquoted hdepth hquote hclose hopen hsemicolon hblank ih =>
    exact .step ⟨quoted, depth, false⟩ [.blank]
      (by simp [State.step, hquoted, hdepth, hquote, hclose, hopen, hsemicolon, hblank]) (ih h.endWord)
  case case16 quoted depth r malformed c chars hquoted hdepth hquote hclose hopen hsemicolon hblank ih =>
    exact .step ⟨quoted, depth, false⟩ [.char c]
      (by simp [State.step, hquoted, hdepth, hquote, hclose, hopen, hsemicolon, hblank]) (ih (h.push c))

/-- All parts, by induction over the calls. -/
theorem collect_spec (fuel : Nat) (chars : Text) (malformed : Bool) (hfuel : chars.length + 1 < fuel) :
    AuthResultsParts.collect fuel ⟨chars, false, malformed⟩ = (wholeParts chars).map limit := by
  induction fuel generalizing chars malformed with
  | zero => exact absurd hfuel (Nat.not_lt_zero _)
  | succ fuel ih =>
    obtain ⟨whole, hlimit, hcases⟩ := readPart_spec false 0 {} malformed chars .start
    rw [AuthResultsParts.collect, AuthResultsParts.next, if_neg Bool.false_ne_true]
    dsimp only
    generalize readPart false 0 {} malformed chars = result at hlimit hcases
    obtain ⟨part, chars', done, malformed'⟩ := result
    dsimp only at hlimit hcases ⊢
    unfold wholeParts
    rcases hcases with ⟨rfl, hlast⟩ | ⟨rfl, hlt, hrest⟩
    · have hlast' : partsOf {} (outside.marks chars) = [whole] := hlast
      rw [hlast', hlimit]
      have hpos : 0 < fuel := by omega
      obtain ⟨fuel, rfl⟩ := Nat.exists_eq_succ_of_ne_zero (Nat.ne_of_gt hpos)
      rfl
    · have hrest' : partsOf {} (outside.marks chars) = whole :: partsOf {} (outside.marks chars') := hrest
      rw [hrest', hlimit, ih chars' malformed' (by omega)]
      rfl

/-- **What the code answers** is what a reader without limits finds, less what is over them. -/
theorem parts_eq (value : Text) : authResultsParts value = (wholeParts value).map limit :=
  collect_spec _ value false (Nat.lt_succ_self _)

end

/-! ## 4. What is put in between -/

/-- What may stand in a comment: brackets in pairs, and anything behind a backslash. -/
inductive CommentText : Text → Prop
  | nil : CommentText []
  | char {c : Char} {text : Text} (hc : c ≠ '(' ∧ c ≠ ')' ∧ c ≠ '\\') (h : CommentText text) :
    CommentText (c :: text)
  | escaped {text : Text} (c : Char) (h : CommentText text) : CommentText ('\\' :: c :: text)
  | nested {inner text : Text} (hinner : CommentText inner) (h : CommentText text) :
    CommentText ('(' :: inner ++ ')' :: text)

/-- What may stand in a quoted string, and the text it is. -/
inductive QuotedText : Text → Text → Prop
  | nil : QuotedText [] []
  | char {c : Char} {text said : Text} (hc : c ≠ '"' ∧ c ≠ '\\') (h : QuotedText text said) :
    QuotedText (c :: text) (c :: said)
  | escaped {text said : Text} (c : Char) (h : QuotedText text said) :
    QuotedText ('\\' :: c :: text) (c :: said)

section
variable {text said : Text} {depth : Nat}

theorem CommentText.read (h : CommentText text) (depth : Nat) :
    State.after ⟨false, depth + 1, false⟩ text = ⟨false, depth + 1, false⟩ ∧
      State.marks ⟨false, depth + 1, false⟩ text = [] := by
  induction h generalizing depth with
  | nil => exact ⟨rfl, rfl⟩
  | @char c text hc h ih =>
    have hstep : State.step ⟨false, depth + 1, false⟩ c = (⟨false, depth + 1, false⟩, []) := by
      simp [State.step, hc.1, hc.2.1, hc.2.2]
    rw [State.after_cons, State.marks, hstep]
    exact ih depth
  | @escaped text c h ih => exact ih depth
  | @nested inner text hinner h ihinner ih =>
    have hopen : State.step ⟨false, depth + 1, false⟩ '(' = (⟨false, depth + 1 + 1, false⟩, []) := rfl
    have hclose : State.step ⟨false, depth + 1 + 1, false⟩ ')' = (⟨false, depth + 1, false⟩, []) := rfl
    obtain ⟨hafter, hmarks⟩ := ihinner (depth + 1)
    obtain ⟨hafter', hmarks'⟩ := ih depth
    rw [List.cons_append]
    constructor
    · rw [State.after_cons, hopen, State.after_append, hafter, State.after_cons, hclose]
      exact hafter'
    · rw [State.marks, hopen, State.marks_append, hafter, hmarks, State.marks, hclose, hmarks']
      rfl

theorem QuotedText.read (h : QuotedText text said) :
    State.after ⟨true, 0, false⟩ text = ⟨true, 0, false⟩ ∧
        State.marks ⟨true, 0, false⟩ text = said.map .char := by
  induction h with
  | nil => exact ⟨rfl, rfl⟩
  | @char c text said hc h ih =>
    have hstep : State.step ⟨true, 0, false⟩ c = (⟨true, 0, false⟩, [.char c]) := by
      simp [State.step, hc.1, hc.2]
    rw [State.after_cons, State.marks, hstep]
    exact ⟨ih.1, congrArg (Mark.char c :: ·) ih.2⟩
  | @escaped text said c h ih => exact ⟨ih.1, congrArg (Mark.char c :: ·) ih.2⟩

/-- A comment is a blank. -/
theorem CommentText.marks (h : CommentText text) (rest : Text) :
    outside.marks ('(' :: text ++ ')' :: rest) = .blank :: outside.marks rest := by
  obtain ⟨hafter, hmarks⟩ := h.read 0
  have hopen : outside.step '(' = (⟨false, 1, false⟩, [.blank]) := rfl
  have hclose : State.step ⟨false, 1, false⟩ ')' = (outside, []) := rfl
  rw [List.cons_append, State.marks, hopen, State.marks_append]
  rw [Nat.zero_add] at hafter hmarks
  rw [hafter, hmarks, State.marks, hclose]
  rfl

/-- A quoted string is its text. -/
theorem QuotedText.marks (h : QuotedText text said) (rest : Text) :
    outside.marks ('"' :: text ++ '"' :: rest) = said.map .char ++ outside.marks rest := by
  obtain ⟨hafter, hmarks⟩ := h.read
  have hopen : outside.step '"' = (⟨true, 0, false⟩, []) := rfl
  have hclose : State.step ⟨true, 0, false⟩ '"' = (outside, []) := rfl
  rw [List.cons_append, State.marks, hopen, List.nil_append, State.marks_append, hafter, hmarks,
    State.marks, hclose]
  rfl

theorem foldl_chars (f : Found) (said : Text) :
    (said.map Mark.char).foldl Found.read f = { f with word := f.word ++ said } := by
  induction said generalizing f with
  | nil => rw [List.append_nil]; rfl
  | cons c said ih =>
    rw [List.map_cons, List.foldl_cons, ih]
    simp only [Found.read, List.append_assoc, List.singleton_append]

end

/-- **The words, and what is put in between them.**  The answer is what a reader without limits
finds, less the words that are too long, and a part that then has too many words is empty: no word
was cut.  Outside of quoted strings and comments, a comment put in divides the word it stands in and
a quoted string becomes part of it; the words in front and behind, and the parts, are the same. -/
theorem auth_results_words : (∀ value, authResultsParts value = (wholeParts value).map limit) ∧
    ∀ before behind, outside.after before = outside → ∃ parts words word word' words' parts',
      wholeParts (before ++ behind) = parts ++ (words ++ one (word ++ word') ++ words') :: parts' ∧
      (∀ text, CommentText text → wholeParts (before ++ ('(' :: text ++ ')' :: behind)) =
        parts ++ (words ++ (one word ++ one word') ++ words') :: parts') ∧
      ∀ text said, QuotedText text said → wholeParts (before ++ ('"' :: text ++ '"' :: behind)) =
        parts ++ (words ++ one (word ++ (said ++ word')) ++ words') :: parts' := by
  refine ⟨parts_eq, fun before behind hout => ?_⟩
  obtain ⟨word', words', parts', hrest⟩ := exists_rest (outside.marks behind)
  have hsplit : ∀ behind, wholeParts (before ++ behind) =
      partsOf ((outside.marks before).foldl Found.read {}) (outside.marks behind) := by
    intro behind
    unfold wholeParts partsOf
    rw [State.marks_append, hout, List.foldl_append]
  obtain ⟨f, hf⟩ : ∃ f, f = (outside.marks before).foldl Found.read {} := ⟨_, rfl⟩
  rw [← hf] at hsplit
  refine ⟨f.parts, f.words, f.word, word', words', parts', ?_, ?_, ?_⟩
  · rw [hsplit, hrest]
  · intro text htext
    have hblank := hrest (f.read .blank)
    rw [hsplit, htext.marks, partsOf, List.foldl_cons]
    rw [partsOf] at hblank
    rw [hblank]
    simp only [Found.read, List.nil_append, List.append_assoc]
  · intro text said htext
    have hsaid := hrest { f with word := f.word ++ said }
    rw [hsplit, htext.marks, partsOf, List.foldl_append, foldl_chars]
    rw [partsOf] at hsaid
    rw [hsaid]
    simp only [List.append_assoc]

/-- Put into the second of two words. -/
theorem auth_results_words_pass : ∃ parts words word word' words' parts',
    wholeParts ("spf=p".toList ++ "ass x".toList) = parts ++
      (words ++ one (word ++ word') ++ words') :: parts' ∧
    wholeParts ("spf=p".toList ++ ('(' :: "a\\)".toList ++ ')' :: "ass x".toList)) =
      parts ++ (words ++ (one word ++ one word') ++ words') :: parts' := by
  obtain ⟨parts, words, word, word', words', parts', hplain, hcomment, -⟩ :=
    auth_results_words.2 "spf=p".toList "ass x".toList (by decide)
  exact ⟨parts, words, word, word', words', parts', hplain,
    hcomment "a\\)".toList (.char (by decide) (.escaped ')' .nil))⟩

/-- 31 words and the beginning of one more. -/
def crowded : Text := (List.replicate 31 ['c', ' ']).flatten ++ ['d']

/-- **A comment may empty its part**: a word divided makes one more word than a part may have. -/
theorem comment_empties_part : outside.after crowded = outside ∧
    authResultsParts (crowded ++ ['e']) = [List.replicate 31 ['c'] ++ [['d', 'e']]] ∧
    CommentText [] ∧ authResultsParts (crowded ++ ('(' :: [] ++ ')' :: ['e'])) = [[]] := by
  refine ⟨by decide +kernel, by decide +kernel, .nil, by decide +kernel⟩

/-! ## 5. Whose results they claim to be -/

/-- `RawHeader::value`: the value with folding removed and surrounding whitespace trimmed. -/
def RawHeader.value (header : RawHeader) : Text :=
  let value := ((Utf8.lossy header.raw).dropWhile (· != ':')).drop 1
  let lines := (value.splitOnP fun c => c == '\r' || c == '\n').map (Lib.trim isAsciiWhitespace)
  [' '].intercalate (lines.filter fun line => !line.isEmpty)
where
  isAsciiWhitespace (c : Char) : Bool := c == ' ' || c == '\t' || c == '\n' || c == '\r' || c ==
    Char.ofNat 0x0c

/-- The authserv-id of a value: the first word of its first part, without a trailing dot. -/
def authservId (value : Text) : Option Text := do
  let first ← (authResultsParts value).head?
  let id ← first.head?
  let id := id.rdropWhile (· == '.')
  if id.isEmpty then none else some id

def claimsToBe (value hostname : Text) : Bool := (authservId value).any fun id =>
    eqIgnoreAsciiCase id hostname

/-- Removes Authentication-Results headers that claim to come from `hostname`. -/
def stripForgedAuthResults (raw : Bytes) (hostname : Text) : Bytes :=
  without raw fun header => named ["Authentication-Results"] header && claimsToBe header.value hostname

/-- What `submit_checked` leaves of a message before it adds anything of its own. -/
def submitted (raw : Bytes) (hostname : Text) : Bytes :=
  let raw := stripVerificationInfo (stripLabelHeaders (stripFaces raw))
  stripSpamVerdicts (stripForgedAuthResults raw hostname)

/-- The fields that are this server's to write. -/
def oursToWrite (hostname : Text) (header : RawHeader) : Bool :=
  named ["Face", labelHeader, "Verification-Info", "X-Spam-Score", "X-Spam-Status"] header ||
    (named ["Authentication-Results"] header && claimsToBe header.value hostname)

/-- **A sender cannot speak for the server.**  Of a message that is submitted every field stays, in
order and byte for byte, but those that are the server's to write, and the body stays as it is. -/
theorem submitted_fields (raw : Bytes) (hostname : Text) :
    fields (submitted raw hostname) = (fields raw).filter (fun header => !oursToWrite hostname header) ∧
      body (submitted raw hostname) = body raw := by
  constructor
  · unfold submitted stripSpamVerdicts stripForgedAuthResults stripVerificationInfo stripLabelHeaders stripFaces
    simp only [fields_without, List.filter_filter]
    refine List.filter_congr fun header _ => ?_
    unfold oursToWrite named
    simp only [List.any_cons, List.any_nil, Bool.or_false, Bool.not_or]
    ac_rfl
  · unfold submitted stripSpamVerdicts stripForgedAuthResults stripVerificationInfo stripLabelHeaders stripFaces
    simp only [body_without]

end UwuMail.Smtp.Headers
