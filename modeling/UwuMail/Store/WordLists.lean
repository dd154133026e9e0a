/-
# Word list entries

`word_lists.rs`: what an entry of a word list means (`word_regex`), and the form it is stored in
(`normalize_word`).  A word or phrase is found in any case, with any white space between the words;
an expression between slashes is taken as written, and is said to be stored so.

**A stored entry means what was typed in exactly if it is `Plain`** (`normalize_keeps_meaning_iff`):

* an expression has single blanks for white space.  `normalize_word` squashes its white space as it
  does that of a phrase, so `/a  b/` is stored as `/a b/`, which is another expression;
* a word has no `İ`, the one character whose lower case is two, which the engine does not take for
  an `İ`.

Unicode and the regex engine are parameters, with what is used of them: `Unicode` is `char` and
`str::to_lowercase`, which writes a final sigma where a word ends, and the engine promises what
`(?i)`, `\b`, `\s+` and an escaped text mean.
-/
import UwuMail.Lib.Phrase
import UwuMail.Lib.Pieces
import UwuMail.Lib.Letters
import UwuMail.Directory.Address
import UwuMail.Store.Mutate

namespace UwuMail.Store.WordLists

open Lib (words squash singleBreaks holdsPhrase)
open Directory (rsplitOnce)

abbrev Text := List Char

/-! ## 1. Unicode, and the engine -/

/-- COMBINING DOT ABOVE. -/
def dotAbove : Char := '\u0307'

/-- What `char` knows, and simple case folding. -/
structure Unicode where
  /-- `char::to_lowercase`. -/
  lower : Char → List Char
  isAlphanumeric : Char → Bool
  isCased : Char → Bool
  isCaseIgnorable : Char → Bool
  fold : Char → Char
  lower_single : ∀ c, c ≠ 'İ' → ∃ d, lower c = [d] ∧ fold d = fold c ∧ isAlphanumeric d = isAlphanumeric c ∧
    (isWhitespace c = true → d = c) ∧ (isWhitespace c = false → isWhitespace d = false) ∧ (d = '/' → c = '/')
  lower_long : lower 'İ' = ['i', dotAbove]
  lower_lower : ∀ c, ∀ d ∈ lower c, lower d = [d]
  /-- The two small sigmas. -/
  lower_sigma : lower 'Σ' = ['σ'] ∧ lower 'ς' = ['ς']
  fold_sigma : fold 'ς' = fold 'Σ' ∧ isAlphanumeric 'ς' = isAlphanumeric 'Σ'
  /-- Nothing but the dot folds to it. -/
  fold_dot : ∀ c, fold c = fold dotAbove → c = dotAbove

namespace Unicode

variable (x : Unicode)

/-- `case_ignorable_then_cased`. -/
def casedNext (text : Text) : Bool := (text.dropWhile x.isCaseIgnorable).head?.any x.isCased

/-- One character of `str::to_lowercase`, with what stands before it, from its end, and behind
it. -/
def lowerAt (before : Text) (c : Char) (rest : Text) : Text :=
  if c = 'Σ' then [if x.casedNext before && !x.casedNext rest then 'ς' else 'σ'] else x.lower c

def lowerFrom (before : Text) : Text → Text
  | [] => []
  | c :: rest => x.lowerAt before c rest ++ lowerFrom (c :: before) rest

/-- `str::to_lowercase`. -/
def toLowercase (text : Text) : Text := x.lowerFrom [] text

end Unicode

/-- The source of a phrase: `(?i)`, the words, escaped, with `\s+` between them, and `\b` where it
has to begin or end. -/
def phraseSource (escape : Text → Text) (first last : Bool) (words : List Text) : Text :=
  "(?i)".toList ++ (if first then "\\b".toList else []) ++ "\\s+".toList.intercalate (words.map escape) ++
    if last then "\\b".toList else []

/-- The regex engine. -/
structure Engine (x : Unicode) where
  /-- `regex::escape`. -/
  escape : Text → Text
  /-- `RegexBuilder::build`, and `is_match` of what it builds.  An error is the last line of what it
  says. -/
  build : Text → Except Text (Text → Bool)
  /-- The class `\w`. -/
  isWord : Char → Bool
  /-- Whether a phrase stays in the size limit; in any case. -/
  fits : Bool → Bool → List Text → Bool
  isWord_a : isWord 'a' = true
  build_phrase : ∀ first last phrase, phrase ≠ [] →
    (∀ word ∈ phrase, word ≠ [] ∧ ∀ c ∈ word, isWhitespace c = false) →
    ∃ e, build (phraseSource escape first last phrase) =
      if fits first last (phrase.map (·.map x.fold)) then
        .ok (holdsPhrase x.fold isWhitespace isWord first last (phrase.map (·.map x.fold)))
      else .error e

/-! ## 2. The source -/

def patternMaxChars : Nat := 1000

def invalid (message : String) : StoreError := .rule "wordInvalid" message

/-- `strip_prefix('/')` and `rsplit_once('/')`: the body of an expression, and what stands behind
it. -/
def expression (pattern : Text) : Option (Text × Text) :=
  match pattern with
  | '/' :: rest => rsplitOnce '/' rest
  | _ => none

section Source

variable {x : Unicode} (e : Engine x)

/-- The source of an expression, or why it has none. -/
def expressionSource (pattern body flags : Text) : Except StoreError Text :=
  let flags := (words isWhitespace flags).headD []
  if body = [] then .error (invalid s!"'{String.ofList pattern}' is an empty expression")
  else
    match flags.find? fun flag => !"imsxu".toList.contains flag with
    | some flag => .error (invalid s!"'{String.ofList pattern}' has the unknown flag '{flag}'")
    | none =>
      let flags := flags.filter (· != 'u')
      .ok (if flags = [] then body else "(?".toList ++ flags ++ [')'] ++ body)

def wordSource (pattern : Text) : Text :=
  phraseSource e.escape (pattern.head?.any x.isAlphanumeric) (pattern.getLast?.any x.isAlphanumeric)
    (words isWhitespace pattern)

/-- The source of an entry, from its first character that is no blank to its last. -/
def sourceOf (pattern : Text) : Except StoreError Text :=
  match expression pattern with
  | some (body, flags) => expressionSource pattern body flags
  | none => .ok (wordSource e pattern)

/-- The regular expression behind an entry. -/
def wordRegex (pattern : Text) : Except StoreError Text := do
  let pattern := Lib.trim isWhitespace pattern
  if pattern = [] then throw (invalid "the entry is empty")
  if pattern.length > patternMaxChars then
    throw (invalid s!"the entry is longer than {patternMaxChars} characters")
  let source ← sourceOf e pattern
  match e.build source with
  | .ok isMatch =>
    if isMatch [] then throw (invalid s!"'{String.ofList pattern}' matches every message") else pure source
  | .error reason =>
    throw (invalid s!"'{String.ofList pattern}' is not a usable expression: {String.ofList reason}")

/-- An entry in the form it is stored and compared in. -/
def normalizeWord (pattern : Text) : Except StoreError Text := do
  let _ ← wordRegex e pattern
  let pattern := Lib.trim isWhitespace pattern
  if pattern.head? = some '/' then pure (squash isWhitespace ' ' pattern)
  else pure (x.toLowercase (squash isWhitespace ' ' pattern))

end Source

/-! ## 3. What is claimed -/

/-- **A stored entry means what was typed in**: it is its own normal form, its expression matches
the same texts, and an expression is stored as written. -/
structure KeepsMeaning {x : Unicode} (e : Engine x) (pattern stored : Text) : Prop where
  again : normalizeWord e stored = .ok stored
  same : ∃ source source' isMatch isMatch', wordRegex e pattern = .ok source ∧
    wordRegex e stored = .ok source' ∧
    e.build source = .ok isMatch ∧ e.build source' = .ok isMatch' ∧ ∀ text, isMatch' text = isMatch text
  written : (expression (Lib.trim isWhitespace pattern)).isSome → stored = Lib.trim isWhitespace pattern

/-- Entries the normal form is right for. -/
def Plain (pattern : Text) : Prop :=
  ((expression (Lib.trim isWhitespace pattern)).isSome → singleBreaks isWhitespace ' '
    (Lib.trim isWhitespace pattern)) ∧
  ((Lib.trim isWhitespace pattern).head? ≠ some '/' → 'İ' ∉ pattern)

instance (pattern : Text) : Decidable (Plain pattern) := inferInstanceAs (Decidable (_ ∧ _))

/-! ## 4. Lower case -/

section Lower

variable {x : Unicode} {before rest text : Text} {c d : Char}

/-- A character and its lower case, where that is one. -/
structure Alike (x : Unicode) (c d : Char) : Prop where
  fold : x.fold d = x.fold c
  alnum : x.isAlphanumeric d = x.isAlphanumeric c
  blank : isWhitespace c = isWhitespace d
  same : isWhitespace c = true → d = c
  slash : d = '/' → c = '/'

theorem lowerAt_single (h : c ≠ 'İ') : ∃ d, x.lowerAt before c rest = [d] ∧ Alike x c d ∧ x.lower d = [d] := by
  unfold Unicode.lowerAt
  obtain ⟨d, hlower, hfold, halnum, hsame, hletter, hslash⟩ := x.lower_single c h
  have hd : Alike x c d := by
    refine ⟨hfold, halnum, ?_, hsame, hslash⟩
    cases hc : isWhitespace c with
    | true => rw [hsame hc, hc]
    | false => exact (hletter hc).symm
  split
  · rename_i hsigma
    subst hsigma
    obtain rfl : d = 'σ' := (List.cons.inj (hlower.symm.trans x.lower_sigma.1)).1
    split
    · exact ⟨'ς', rfl, ⟨x.fold_sigma.1, x.fold_sigma.2, by decide, by decide, by decide⟩, x.lower_sigma.2⟩
    · exact ⟨'σ', rfl, hd, x.lower_lower 'Σ' 'σ' (hlower ▸ List.mem_singleton_self _)⟩
  · exact ⟨d, hlower, hd, x.lower_lower c d (hlower ▸ List.mem_singleton_self _)⟩

theorem lowerAt_long : x.lowerAt before 'İ' rest = ['i', dotAbove] := by
  unfold Unicode.lowerAt
  rw [if_neg (by decide), x.lower_long]

theorem lowerAt_spec (x : Unicode) (before : Text) (c : Char) (rest : Text) : x.lowerAt before c rest ≠ [] ∧
    ∀ d ∈ x.lowerAt before c rest, x.lower d = [d] ∧ isWhitespace d = isWhitespace c ∧
        (d = '/' → c = '/') := by
  by_cases hc : c = 'İ'
  · subst hc
    rw [lowerAt_long]
    refine ⟨List.cons_ne_nil _ _, fun d hd => ?_⟩
    have hlower := x.lower_lower 'İ' d (x.lower_long ▸ hd)
    rcases List.mem_cons.1 hd with rfl | hd
    · exact ⟨hlower, by decide, by decide⟩
    · obtain rfl := List.mem_singleton.1 hd
      exact ⟨hlower, by decide, by decide⟩
  · obtain ⟨d, hlowered, halike, hlower⟩ := @lowerAt_single x before rest _ hc
    rw [hlowered]
    refine ⟨List.cons_ne_nil _ _, fun d' hd' => ?_⟩
    obtain rfl := List.mem_singleton.1 hd'
    exact ⟨hlower, halike.blank.symm, halike.slash⟩

/-- Without an `İ` the lower case goes character by character. -/
theorem lowerFrom_alike (h : 'İ' ∉ text) : List.Forall₂ (Alike x) text (x.lowerFrom before text) := by
  induction text generalizing before with
  | nil => exact .nil
  | cons c text ih =>
    rw [List.mem_cons, not_or] at h
    obtain ⟨d, hd, halike, -⟩ := @lowerAt_single x before text _ (Ne.symm h.1)
    rw [Unicode.lowerFrom, hd]
    exact .cons halike (ih h.2)

theorem lower_of_mem_lowerFrom (hd : d ∈ x.lowerFrom before text) : x.lower d = [d] := by
  induction text generalizing before with
  | nil => cases hd
  | cons c text ih =>
    rcases List.mem_append.1 hd with hd | hd
    · exact ((lowerAt_spec x before c text).2 d hd).1
    · exact ih hd

theorem lowerFrom_eq_self (h : ∀ d ∈ text, x.lower d = [d]) : x.lowerFrom before text = text := by
  induction text generalizing before with
  | nil => rfl
  | cons c text ih =>
    have hc := h c List.mem_cons_self
    have hsigma : c ≠ 'Σ' := by
      rintro rfl
      exact absurd (List.cons.inj (hc.symm.trans x.lower_sigma.1)).1 (by decide)
    rw [Unicode.lowerFrom, Unicode.lowerAt, if_neg hsigma, hc, ih fun d hd => h d (List.mem_cons_of_mem _ hd)]
    rfl

/-- Lower case twice is lower case once. -/
theorem toLowercase_toLowercase : x.toLowercase (x.toLowercase text) = x.toLowercase text :=
  lowerFrom_eq_self fun _ hd => lower_of_mem_lowerFrom hd

theorem head_lowerFrom (hd : d ∈ (x.lowerFrom before (c :: text)).head?) :
    isWhitespace d = isWhitespace c ∧ (d = '/' → c = '/') := by
  obtain ⟨hne, hspec⟩ := lowerAt_spec x before c text
  rw [Unicode.lowerFrom, List.head?_append_of_ne_nil _ hne] at hd
  exact (hspec d (List.mem_of_mem_head? hd)).2

theorem last_lowerFrom (hd : d ∈ (x.lowerFrom before (text ++ [c])).getLast?) :
    isWhitespace d = isWhitespace c := by
  obtain ⟨lowered, hlowered⟩ : ∃ lowered, x.lowerFrom before (text ++ [c]) =
      lowered ++ x.lowerAt (text.reverse ++ before) c [] := by
    clear hd
    induction text generalizing before with
    | nil => exact ⟨[], List.append_nil _⟩
    | cons b text ih =>
      obtain ⟨lowered, hlowered⟩ := @ih (b :: before)
      refine ⟨x.lowerAt before b (text ++ [c]) ++ lowered, ?_⟩
      rw [List.cons_append, Unicode.lowerFrom, hlowered, List.append_assoc, List.reverse_cons,
        List.append_assoc]
      rfl
  obtain ⟨hne, hspec⟩ := lowerAt_spec x (text.reverse ++ before) c []
  rw [hlowered, List.getLast?_append_of_ne_nil _ hne] at hd
  exact (hspec d (List.mem_of_mem_getLast? hd)).2.1

theorem fold_ne_dot (h : c ≠ dotAbove) : x.fold c ≠ x.fold dotAbove := fun hfold => h (x.fold_dot c hfold)

/-- **Each `İ` puts a dot into the lower case.** -/
theorem count_lowerFrom : ((x.lowerFrom before text).map x.fold).count (x.fold dotAbove) =
    (text.map x.fold).count (x.fold dotAbove) + text.count 'İ' := by
  induction text generalizing before with
  | nil => rfl
  | cons c text ih =>
    rw [Unicode.lowerFrom, List.map_append, List.count_append, ih, List.map_cons, List.count_cons,
      List.count_cons]
    by_cases hc : c = 'İ'
    · subst hc
      have hi : x.fold 'i' ≠ x.fold dotAbove := fold_ne_dot (by decide)
      have hlong : x.fold 'İ' ≠ x.fold dotAbove := fold_ne_dot (by decide)
      rw [lowerAt_long]
      simp [hi, hlong]
      omega
    · obtain ⟨d, hd, halike, -⟩ := @lowerAt_single x before text _ hc
      rw [hd]
      simp [halike.fold, hc, List.count_singleton]
      omega

end Lower

/-! ## 5. What is accepted -/

section Accepted

variable {x : Unicode} {e : Engine x} {pattern stored source t n : Text}

theorem wordRegex_eq_ok : wordRegex e pattern = .ok source ↔
    Lib.trim isWhitespace pattern ≠ [] ∧ (Lib.trim isWhitespace pattern).length ≤ patternMaxChars ∧
      sourceOf e (Lib.trim isWhitespace pattern) = .ok source ∧
      ∃ isMatch, e.build source = .ok isMatch ∧ isMatch [] = false := by
  unfold wordRegex
  dsimp only
  generalize Lib.trim isWhitespace pattern = t
  by_cases hempty : t = []
  · simp [hempty, throw, throwThe, MonadExceptOf.throw, bind, Except.bind]
  by_cases hlong : t.length > patternMaxChars
  · simp [hempty, hlong, throw, throwThe, MonadExceptOf.throw, bind, Except.bind]
  simp only [hempty, hlong, if_false]
  cases sourceOf e t with
  | error err => simp [bind, Except.bind]
  | ok source' =>
    simp only [bind, Except.bind, pure, Except.pure, throw, throwThe, MonadExceptOf.throw, Except.ok.injEq]
    have hroom : t.length ≤ patternMaxChars := Nat.not_lt.1 hlong
    constructor
    · intro h
      cases hbuild : e.build source' with
      | error reason =>
        rw [hbuild] at h
        cases h
      | ok isMatch =>
        rw [hbuild] at h
        dsimp only at h
        split at h
        · cases h
        · rename_i hmatch
          cases h
          exact ⟨hempty, hroom, rfl, isMatch, hbuild, by simpa using hmatch⟩
    · rintro ⟨-, -, rfl, isMatch, hbuild, hmatch⟩
      rw [hbuild]
      simp [hmatch]

theorem normalizeWord_eq_ok : normalizeWord e pattern = .ok stored ↔
    (∃ source, wordRegex e pattern = .ok source) ∧
    stored = if (Lib.trim isWhitespace pattern).head? = some '/' then
        squash isWhitespace ' ' (Lib.trim isWhitespace pattern)
      else x.toLowercase (squash isWhitespace ' ' (Lib.trim isWhitespace pattern)) := by
  unfold normalizeWord
  cases wordRegex e pattern with
  | error err => simp [bind, Except.bind]
  | ok source =>
    simp only [bind, Except.bind, Except.ok.injEq, exists_eq', true_and]
    split
    · simp [pure, Except.pure, eq_comm]
    · simp [pure, Except.pure, eq_comm]

/-- A phrase has the matcher the engine promises. -/
theorem build_wordSource {isMatch : Text → Bool} (hne : words isWhitespace t ≠ [])
    (hbuild : e.build (wordSource e t) = .ok isMatch) :
    e.fits (t.head?.any x.isAlphanumeric) (t.getLast?.any x.isAlphanumeric)
        ((words isWhitespace t).map (·.map x.fold)) = true ∧
      isMatch = holdsPhrase x.fold isWhitespace e.isWord (t.head?.any x.isAlphanumeric)
        (t.getLast?.any x.isAlphanumeric) ((words isWhitespace t).map (·.map x.fold)) := by
  have hwords : ∀ word ∈ words isWhitespace t, word ≠ [] ∧ ∀ c ∈ word, isWhitespace c = false :=
    fun word hword => ⟨Lib.ne_nil_of_mem_words hword, fun c hc => Lib.letters_of_mem_words hword hc⟩
  obtain ⟨err, hphrase⟩ := e.build_phrase (t.head?.any x.isAlphanumeric)
    (t.getLast?.any x.isAlphanumeric) _ hne hwords
  rw [wordSource, hphrase] at hbuild
  split at hbuild
  · rename_i hfits
    exact ⟨hfits, (Except.ok.inj hbuild).symm⟩
  · cases hbuild

/-- **A phrase with the same folded words means the same.** -/
theorem same_of_words {isMatch : Text → Bool} (hn : expression n = none) (hne : words isWhitespace t ≠ [])
    (hwords : (words isWhitespace n).map (·.map x.fold) = (words isWhitespace t).map (·.map x.fold))
    (hhead : n.head?.any x.isAlphanumeric = t.head?.any x.isAlphanumeric)
    (hlast : n.getLast?.any x.isAlphanumeric = t.getLast?.any x.isAlphanumeric)
    (hbuild : e.build (wordSource e t) = .ok isMatch) : sourceOf e n = .ok (wordSource e n) ∧
      e.build (wordSource e n) = .ok isMatch := by
  obtain ⟨hfits, hmatch⟩ := build_wordSource hne hbuild
  have hne' : words isWhitespace n ≠ [] := by
    intro hnil
    rw [hnil, List.map_nil, eq_comm, List.map_eq_nil_iff] at hwords
    exact hne hwords
  obtain ⟨err, hphrase⟩ := e.build_phrase (n.head?.any x.isAlphanumeric)
    (n.getLast?.any x.isAlphanumeric) _ hne'
    fun word hword => ⟨Lib.ne_nil_of_mem_words hword, fun c hc => Lib.letters_of_mem_words hword hc⟩
  rw [hwords, hhead, hlast, if_pos hfits, ← hmatch] at hphrase
  refine ⟨?_, ?_⟩
  · unfold sourceOf
    rw [hn]
  · unfold wordSource
    rw [hhead, hlast]
    exact hphrase

theorem expression_eq_none_of_head (h : t.head? ≠ some '/') : expression t = none := by
  unfold expression
  split
  · exact absurd rfl h
  · rfl

/-- One slash is no expression. -/
theorem expression_eq_none_of_count (h : t.count '/' ≤ 1) : expression t = none := by
  unfold expression
  split
  · rename_i rest
    rw [List.count_cons_self] at h
    cases hsplit : rsplitOnce '/' rest with
    | none => rfl
    | some halves =>
      obtain ⟨hrest, -⟩ := Directory.rsplitOnce_eq_some.1 hsplit
      rw [hrest, List.count_append, List.count_cons_self] at h
      omega
  · rfl

theorem count_of_expression (hhead : t.head? = some '/') (h : expression t = none) : t.count '/' = 1 := by
  obtain ⟨rest, rfl⟩ := List.head?_eq_some_iff.1 hhead
  rw [List.count_cons_self, List.count_eq_zero.2]
  intro hmem
  obtain ⟨before, after, hsplit, hnot⟩ := List.eq_append_cons_of_mem (List.mem_reverse.2 hmem)
  have hrest : rest = after.reverse ++ '/' :: before.reverse := by
    rw [← List.reverse_reverse rest, hsplit, List.reverse_append, List.reverse_cons, List.append_assoc]
    rfl
  have hsome : expression ('/' :: rest) = some (after.reverse, before.reverse) :=
    Directory.rsplitOnce_eq_some.2 ⟨hrest, fun hc => hnot (List.mem_reverse.1 hc)⟩
  rw [hsome] at h
  cases h

end Accepted

/-! ## 6. The white space of an entry -/

section Squash

variable {x : Unicode} {e : Engine x} {p t n source : Text} {isMatch : Text → Bool}

/-- A text that begins and ends with no blank. -/
structure Tight (t : Text) : Prop where
  ne : t ≠ []
  head : ∀ c ∈ t.head?, isWhitespace c = false
  last : ∀ c ∈ t.getLast?, isWhitespace c = false

theorem tight_trim (h : Lib.trim isWhitespace p ≠ []) : Tight (Lib.trim isWhitespace p) :=
  ⟨h, Lib.head_trim, Lib.last_trim⟩

theorem Tight.trim (h : Tight t) : Lib.trim isWhitespace t = t := Lib.trim_eq_self h.head h.last

theorem Tight.head_squash (h : Tight t) : (squash isWhitespace ' ' t).head? = t.head? := by
  obtain ⟨c, rest, rfl⟩ := List.exists_cons_of_ne_nil h.ne
  exact Lib.head_squash (h.head c rfl)

theorem Tight.last_squash (h : Tight t) : (squash isWhitespace ' ' t).getLast? = t.getLast? := by
  obtain ⟨front, c, rfl⟩ := (List.eq_nil_or_concat' t).resolve_left h.ne
  rw [List.getLast?_concat]
  exact Lib.last_squash (h.last c List.getLast?_concat)

theorem tight_squash (h : Tight t) : Tight (squash isWhitespace ' ' t) := by
  refine ⟨?_, ?_, ?_⟩
  · intro hnil
    have hhead := h.head_squash
    rw [hnil] at hhead
    exact h.ne (List.head?_eq_none_iff.1 hhead.symm)
  · rw [h.head_squash]
    exact h.head
  · rw [h.last_squash]
    exact h.last

theorem Tight.squash_eq_self_iff (h : Tight t) :
    squash isWhitespace ' ' t = t ↔ singleBreaks isWhitespace ' ' t = true := by
  obtain ⟨c, rest, rfl⟩ := List.exists_cons_of_ne_nil h.ne
  exact Lib.squash_eq_self_iff (h.head c rfl) h.last

theorem Tight.words_ne (h : Tight t) : words isWhitespace t ≠ [] := by
  intro hnil
  refine (tight_squash h).ne ?_
  unfold Lib.squash
  rw [hnil]
  rfl

theorem count_squash {c : Char} (hc : isWhitespace c = false) :
    (squash isWhitespace ' ' t).count c = t.count c := by
  have hblank : ∀ a, isWhitespace a = true → id a ≠ c := by
    rintro a ha rfl
    exact absurd (hc.symm.trans ha) nofun
  have hs := Lib.count_words hblank (squash isWhitespace ' ' t)
  rw [Lib.words_squash (by decide), Lib.count_words hblank, List.map_id, List.map_id] at hs
  exact hs.symm

/-- **A phrase keeps its meaning in a form with the same words and the same ends**, if that is a
normal form. -/
theorem keepsMeaning_of_words (hp : wordRegex e p = .ok source)
    (hexp : expression (Lib.trim isWhitespace p) = none)
    (htight : Tight n) (hlen : n.length ≤ (Lib.trim isWhitespace p).length) (hexp' : expression n = none)
    (hwords : (words isWhitespace n).map (·.map x.fold) =
      (words isWhitespace (Lib.trim isWhitespace p)).map (·.map x.fold))
    (hhead : n.head?.any x.isAlphanumeric = (Lib.trim isWhitespace p).head?.any x.isAlphanumeric)
    (hlast : n.getLast?.any x.isAlphanumeric = (Lib.trim isWhitespace p).getLast?.any x.isAlphanumeric)
    (hform : (if n.head? = some '/' then squash isWhitespace ' ' n else x.toLowercase
      (squash isWhitespace ' ' n)) = n) :
    KeepsMeaning e p n := by
  obtain ⟨hne, hroom, hsource, isMatch, hbuild, hempty⟩ := wordRegex_eq_ok.1 hp
  obtain rfl : wordSource e (Lib.trim isWhitespace p) = source := by
    unfold sourceOf at hsource
    rw [hexp] at hsource
    exact Except.ok.inj hsource
  obtain ⟨hsource', hbuild'⟩ := same_of_words hexp' (tight_trim hne).words_ne hwords hhead hlast hbuild
  have hn : wordRegex e n = .ok (wordSource e n) := by
    refine wordRegex_eq_ok.2 ?_
    rw [htight.trim]
    exact ⟨htight.ne, hlen.trans hroom, hsource', isMatch, hbuild', hempty⟩
  refine ⟨?_, ⟨_, _, isMatch, isMatch, hp, hn, hbuild, hbuild', fun _ => rfl⟩, ?_⟩
  · refine normalizeWord_eq_ok.2 ⟨⟨_, hn⟩, ?_⟩
    rw [htight.trim, hform]
  · rw [hexp]
    exact (nomatch ·)

/-- A text behind a slash that is no expression. -/
theorem keepsMeaning_slash (hp : wordRegex e p = .ok source)
    (hhead : (Lib.trim isWhitespace p).head? = some '/')
    (hexp : expression (Lib.trim isWhitespace p) = none) :
    KeepsMeaning e p (squash isWhitespace ' ' (Lib.trim isWhitespace p)) := by
  have htight := tight_trim (wordRegex_eq_ok.1 hp).1
  refine keepsMeaning_of_words hp hexp (tight_squash htight) Lib.squash_length_le ?_ ?_ ?_ ?_ ?_
  · refine expression_eq_none_of_count (le_of_eq ?_)
    rw [count_squash (by decide), count_of_expression hhead hexp]
  · rw [Lib.words_squash (by decide)]
  · rw [htight.head_squash]
  · rw [htight.last_squash]
  · rw [htight.head_squash, if_pos hhead, Lib.squash_squash (by decide)]

/-- An expression that is stored as written. -/
theorem keepsMeaning_self (hp : wordRegex e p = .ok source)
    (h : normalizeWord e p = .ok (Lib.trim isWhitespace p)) :
    KeepsMeaning e p (Lib.trim isWhitespace p) := by
  obtain ⟨hne, hroom, hsource, isMatch, hbuild, hempty⟩ := wordRegex_eq_ok.1 hp
  have htrim : wordRegex e (Lib.trim isWhitespace p) = .ok source := by
    refine wordRegex_eq_ok.2 ?_
    rw [Lib.trim_trim]
    exact ⟨hne, hroom, hsource, isMatch, hbuild, hempty⟩
  refine ⟨?_, ⟨_, _, isMatch, isMatch, hp, htrim, hbuild, hbuild, fun _ => rfl⟩, fun _ => rfl⟩
  refine normalizeWord_eq_ok.2 ⟨⟨_, htrim⟩, ?_⟩
  rw [Lib.trim_trim]
  exact (normalizeWord_eq_ok.1 h).2

end Squash

/-! ## 7. The case of a word -/

section Case

variable {x : Unicode} {e : Engine x} {p t q n source : Text} {isMatch : Text → Bool}

theorem alike_fold (h : List.Forall₂ (Alike x) q n) : n.map x.fold = q.map x.fold := by
  induction h with
  | nil => rfl
  | cons hcd _ ih => rw [List.map_cons, List.map_cons, ih, hcd.fold]

theorem alike_head (h : List.Forall₂ (Alike x) q n) :
    n.head?.any x.isAlphanumeric = q.head?.any x.isAlphanumeric := by
  cases h with
  | nil => rfl
  | cons hcd _ => exact hcd.alnum

theorem alike_last (h : List.Forall₂ (Alike x) q n) :
    n.getLast?.any x.isAlphanumeric = q.getLast?.any x.isAlphanumeric := by
  rw [← List.head?_reverse, ← List.head?_reverse]
  exact alike_head (List.rel_reverse h)

/-- The words of a text and of one alike fold alike. -/
theorem alike_words (h : List.Forall₂ (Alike x) q n) :
    (words isWhitespace n).map (·.map x.fold) = (words isWhitespace q).map (·.map x.fold) := by
  have hwords := Lib.words_forall₂ (q := isWhitespace) (fun c d hcd => hcd.blank) h
  generalize words isWhitespace q = texts at hwords
  generalize words isWhitespace n = texts' at hwords
  induction hwords with
  | nil => rfl
  | cons hcd _ ih => rw [List.map_cons, List.map_cons, ih, alike_fold hcd]

theorem alike_singleBreaks (h : List.Forall₂ (Alike x) q n) (hq : singleBreaks isWhitespace ' ' q = true) :
    singleBreaks isWhitespace ' ' n = true := by
  induction h with
  | nil => exact hq
  | @cons c c' q n hc hrest ih =>
    cases hrest with
    | nil => rfl
    | @cons d d' q n hd hrest =>
      rw [singleBreaks, Bool.and_eq_true_iff] at hq ⊢
      refine ⟨?_, ih hq.2⟩
      rw [← hc.blank, ← hd.blank]
      cases hblank : isWhitespace c with
      | false => rfl
      | true =>
        have hsep := hq.1
        rwa [hblank, ← hc.same hblank] at hsep

theorem tight_toLowercase (hq : Tight q) : Tight (x.toLowercase q) := by
  refine ⟨?_, fun d hd => ?_, fun d hd => ?_⟩
  · obtain ⟨c, rest, rfl⟩ := List.exists_cons_of_ne_nil hq.ne
    exact List.append_ne_nil_of_left_ne_nil (lowerAt_spec x [] c rest).1 _
  · obtain ⟨c, rest, rfl⟩ := List.exists_cons_of_ne_nil hq.ne
    exact (head_lowerFrom hd).1.trans (hq.head c rfl)
  · obtain ⟨front, c, rfl⟩ := (List.eq_nil_or_concat' q).resolve_left hq.ne
    exact (last_lowerFrom hd).trans (hq.last c List.getLast?_concat)

theorem head_toLowercase (h : q.head? ≠ some '/') : (x.toLowercase q).head? ≠ some '/' := by
  intro hn
  cases q with
  | nil => cases hn
  | cons c rest => exact h (congrArg some ((head_lowerFrom hn).2 rfl))

/-- **A word without an `İ` keeps its meaning in lower case.** -/
theorem keepsMeaning_lower (hp : wordRegex e p = .ok source)
    (hhead : (Lib.trim isWhitespace p).head? ≠ some '/')
    (hlong : 'İ' ∉ Lib.trim isWhitespace p) :
    KeepsMeaning e p (x.toLowercase (squash isWhitespace ' ' (Lib.trim isWhitespace p))) := by
  have htight := tight_trim (wordRegex_eq_ok.1 hp).1
  have hlong' : 'İ' ∉ squash isWhitespace ' ' (Lib.trim isWhitespace p) := by
    rw [← List.count_eq_zero] at hlong ⊢
    rw [count_squash (by decide), hlong]
  have halike : List.Forall₂ (Alike x) _ (x.toLowercase (squash isWhitespace ' ' (Lib.trim isWhitespace p))) :=
    lowerFrom_alike hlong'
  have hslash : (x.toLowercase (squash isWhitespace ' ' (Lib.trim isWhitespace p))).head? ≠ some '/' :=
    head_toLowercase (htight.head_squash ▸ hhead)
  have htight' : Tight (x.toLowercase _) := tight_toLowercase (tight_squash htight)
  refine keepsMeaning_of_words hp (expression_eq_none_of_head hhead) htight' ?_
    (expression_eq_none_of_head hslash)
    ?_ ?_ ?_ ?_
  · exact halike.length_eq.symm.trans_le Lib.squash_length_le
  · rw [alike_words halike, Lib.words_squash (by decide)]
  · rw [alike_head halike, htight.head_squash]
  · rw [alike_last halike, htight.last_squash]
  · have hsingle : singleBreaks isWhitespace ' ' (squash isWhitespace ' ' (Lib.trim isWhitespace p)) = true :=
      (tight_squash htight).squash_eq_self_iff.1 (Lib.squash_squash (by decide))
    rw [if_neg hslash, htight'.squash_eq_self_iff.2 (alike_singleBreaks halike hsingle),
      toLowercase_toLowercase]

theorem count_dots (text : Text) : ((words isWhitespace text).map (·.map x.fold)).flatten.count
    (x.fold dotAbove) =
    (text.map x.fold).count (x.fold dotAbove) := by
  refine Lib.count_words (fun c hc => fold_ne_dot ?_) text
  rintro rfl
  exact absurd hc (by decide)

theorem count_dots_squash (text : Text) : ((squash isWhitespace ' ' text).map x.fold).count (x.fold dotAbove) =
    (text.map x.fold).count (x.fold dotAbove) := by
  rw [← count_dots, Lib.words_squash (by decide), count_dots]

/-- **Some text holds a phrase, and no more dots than it.** -/
theorem exists_holdsPhrase (e : Engine x) (first last : Bool) (hq : Tight q) : ∃ text,
    holdsPhrase x.fold isWhitespace e.isWord first last ((words isWhitespace q).map (·.map x.fold))
      text = true ∧
      (text.map x.fold).count (x.fold dotAbove) = (q.map x.fold).count (x.fold dotAbove) := by
  have hsq := tight_squash hq
  have hspells := @Lib.spells_intercalate _ _ _ _ x.fold isWhitespace ' ' (by decide)
    (words isWhitespace q)
  have hcount := count_dots_squash (x := x) q
  change Lib.spells _ _ _ (squash isWhitespace ' ' q) = true at hspells
  generalize squash isWhitespace ' ' q = part at *
  have ha : x.fold 'a' ≠ x.fold dotAbove := fold_ne_dot (by decide)
  -- an `a` makes an edge where the phrase does not
  have hpad : ∀ b : Bool, ∃ pad : Text, (pad.map x.fold).count (x.fold dotAbove) = 0 ∧
    (pad.getLast?.any e.isWord) = !b ∧
      (pad.head?.any e.isWord) = !b := by
    intro b
    cases b with
    | true => exact ⟨[], rfl, rfl, rfl⟩
    | false => exact ⟨['a'], by simp [ha], by simp [e.isWord_a], by simp [e.isWord_a]⟩
  obtain ⟨before, hbefore, hfirst, -⟩ := hpad (part.head?.any e.isWord)
  obtain ⟨after, hafter, -, hlast⟩ := hpad (part.getLast?.any e.isWord)
  refine ⟨before ++ (part ++ after), Lib.holdsPhrase_eq_true.2
    ⟨before, part, after, rfl, hspells, fun _ => ?_, fun _ => ?_⟩, ?_⟩
  · unfold Lib.edge
    rw [hfirst, List.head?_append_of_ne_nil _ hsq.ne]
    simp
  · unfold Lib.edge
    rw [hlast, List.getLast?_append_of_ne_nil _ hsq.ne]
    simp
  · rw [List.map_append, List.map_append, List.count_append, List.count_append, hbefore, hafter, hcount]
    omega

/-- **A word with an `İ` does not**: the text it is found in has no dot that the stored form asks
for. -/
theorem not_keepsMeaning_lower (hhead : (Lib.trim isWhitespace p).head? ≠ some '/')
    (hlong : 'İ' ∈ Lib.trim isWhitespace p) :
    ¬ KeepsMeaning e p (x.toLowercase (squash isWhitespace ' ' (Lib.trim isWhitespace p))) := by
  rintro ⟨-, ⟨source, source', isMatch, isMatch', hp, hn, hbuild, hbuild', hsame⟩, -⟩
  have htight := tight_trim (wordRegex_eq_ok.1 hp).1
  have hslash : (x.toLowercase (squash isWhitespace ' ' (Lib.trim isWhitespace p))).head? ≠ some '/' :=
    head_toLowercase (htight.head_squash ▸ hhead)
  have htight' : Tight (x.toLowercase _) := tight_toLowercase (tight_squash htight)
  have hsource := (wordRegex_eq_ok.1 hp).2.2.1
  have hsource' := (wordRegex_eq_ok.1 hn).2.2.1
  rw [htight'.trim] at hsource'
  have hcount := @count_lowerFrom x [] (squash isWhitespace ' ' (Lib.trim isWhitespace p))
  change ((x.toLowercase _).map _).count _ = _ at hcount
  rw [count_dots_squash, count_squash (by decide)] at hcount
  have hmore := List.count_pos_iff.2 hlong
  generalize Lib.trim isWhitespace p = t at *
  generalize x.toLowercase (squash isWhitespace ' ' t) = n at *
  unfold sourceOf at hsource hsource'
  rw [expression_eq_none_of_head hhead] at hsource
  rw [expression_eq_none_of_head hslash] at hsource'
  cases hsource
  cases hsource'
  obtain ⟨text, hholds, htext⟩ := exists_holdsPhrase e (t.head?.any x.isAlphanumeric)
    (t.getLast?.any x.isAlphanumeric)
    htight
  rw [← (build_wordSource htight.words_ne hbuild).2, ← hsame,
    (build_wordSource htight'.words_ne hbuild').2] at hholds
  have hdots := Lib.holdsPhrase_count hholds (x.fold dotAbove)
  rw [count_dots] at hdots
  omega

end Case

/-! ## 8. A small engine -/

/-- Letters of ASCII, and the characters of the laws. -/
def ascii : Unicode where
  lower c := if c = 'İ' then ['i', dotAbove] else if c = 'Σ' then ['σ'] else [c.toLower]
  isAlphanumeric c := c.isAlphanum || "İΣσς".toList.contains c
  isCased c := c.isAlpha || "İΣσς".toList.contains c
  isCaseIgnorable c := "'.".toList.contains c || c == dotAbove
  fold c := if c = 'Σ' ∨ c = 'ς' then 'σ' else c.toLower
  lower_single c hc := by
    rw [if_neg hc]
    by_cases hsigma : c = 'Σ'
    · subst hsigma
      exact ⟨'σ', rfl, by decide, by decide, by decide, by decide, by decide⟩
    · rw [if_neg hsigma]
      refine ⟨c.toLower, rfl, ?_, ?_, fun hblank => ?_, fun hletter => ?_, (Lib.toLower_eq_iff (by unfold Lib.IsMark; decide) c).1⟩
      · exact Lib.toLower_kind (fun c => if c = 'Σ' ∨ c = 'ς' then 'σ' else c.toLower) (by decide) c
      · exact Lib.toLower_kind (fun c => c.isAlphanum || "İΣσς".toList.contains c) (by decide) c
      · obtain h | ⟨i, hi, hupper, -⟩ := Lib.toLower_cases c
        · exact h
        · have hall : ∀ i < 26, isWhitespace (Char.ofNat (65 + i)) = false := by decide
          rw [hupper, hall i hi] at hblank
          cases hblank
      · rw [Lib.toLower_kind isWhitespace (by decide) c, hletter]
  lower_long := rfl
  lower_lower c d hd := by
    by_cases hlong : c = 'İ'
    · subst hlong
      rcases List.mem_cons.1 hd with rfl | hd
      · rfl
      · obtain rfl := List.mem_singleton.1 hd
        rfl
    by_cases hsigma : c = 'Σ'
    · subst hsigma
      obtain rfl := List.mem_singleton.1 hd
      rfl
    rw [if_neg hlong, if_neg hsigma] at hd
    obtain rfl := List.mem_singleton.1 hd
    have hlong' : c.toLower ≠ 'İ' := fun h => hlong ((Lib.toLower_eq_iff (by unfold Lib.IsMark; decide) c).1 h)
    have hsigma' : c.toLower ≠ 'Σ' := fun h => hsigma ((Lib.toLower_eq_iff (by unfold Lib.IsMark; decide) c).1 h)
    rw [if_neg hlong', if_neg hsigma', Lib.toLower_kind Char.toLower (by decide) c]
  lower_sigma := ⟨rfl, rfl⟩
  fold_sigma := ⟨rfl, rfl⟩
  fold_dot c h := by
    have hdot : (if dotAbove = 'Σ' ∨ dotAbove = 'ς' then 'σ' else dotAbove.toLower) = dotAbove := by decide
    rw [hdot] at h
    split at h
    · exact absurd h (by decide)
    · exact (Lib.toLower_eq_iff (by unfold Lib.IsMark; decide) c).1 h

/-- `is_meta_character`. -/
def isMeta (c : Char) : Bool := "\\.+*?()|[]\x7b\x7d^$#&-~".toList.contains c

/-- `regex::escape`. -/
def escape (text : Text) : Text := text.flatMap fun c => if isMeta c then ['\\', c] else [c]

/-- Whether a source begins at an edge, and the rest of it. -/
def readEdge : Text → Bool × Text
  | '\\' :: 'b' :: rest => (true, rest)
  | source => (false, source)

/-- A character in front of the first word. -/
def push (c : Char) (read : List Text × Bool) : List Text × Bool := (read.1.modifyHead (c :: ·), read.2)

/-- The words of a source, and whether it ends at an edge. -/
def readWords : Text → List Text × Bool
  | [] => ([[]], false)
  | '\\' :: c :: rest =>
    if c = 'b' then ([[]], true)
    else if c = 's' then ([] :: (readWords rest).1, (readWords rest).2)
    else push c (readWords rest)
  | c :: rest => if c = '+' then readWords rest else push c (readWords rest)

/-- What the source of a phrase matches. -/
def readPhrase (source : Text) : Text → Bool :=
  let (first, source) := readEdge source
  let (phrase, last) := readWords source
  holdsPhrase ascii.fold isWhitespace Char.isAlphanum first last (phrase.map (·.map ascii.fold))

/-- Phrases, and expressions that are a text. -/
def build (source : Text) : Except Text (Text → Bool) :=
  match source with
  | '(' :: '?' :: 'i' :: ')' :: rest => .ok (readPhrase rest)
  | _ =>
    if source.any isMeta then .error "not supported".toList
    else .ok fun text => (Lib.cuts text).any fun s => source.isPrefixOf s.2

section Read

variable {word next rest : Text} {phrase : List Text} {first last : Bool} {c : Char}

theorem escape_cons : escape (c :: word) = (if isMeta c then ['\\', c] else [c]) ++ escape word :=
    List.flatMap_cons

theorem readWords_letter (hc : isMeta c = false) : readWords (c :: rest) = push c (readWords rest) := by
  have hslash : c ≠ '\\' := by
    rintro rfl
    exact absurd hc (by decide)
  have hplus : c ≠ '+' := by
    rintro rfl
    exact absurd hc (by decide)
  rw [readWords.eq_3 c rest fun _ _ h _ => hslash h, if_neg hplus]

theorem readWords_meta (hc : isMeta c = true) : readWords ('\\' :: c :: rest) = push c (readWords rest) := by
  have hb : c ≠ 'b' := by
    rintro rfl
    exact absurd hc (by decide)
  have hs : c ≠ 's' := by
    rintro rfl
    exact absurd hc (by decide)
  rw [readWords, if_neg hb, if_neg hs]

theorem readWords_escape (word : Text) (h : readWords rest = (next :: phrase, last)) :
    readWords (escape word ++ rest) = ((word ++ next) :: phrase, last) := by
  induction word with
  | nil => exact h
  | cons c word ih =>
    rw [escape_cons, List.append_assoc]
    cases hc : isMeta c with
    | true =>
      change readWords ('\\' :: c :: (escape word ++ rest)) = _
      rw [readWords_meta hc, ih]
      rfl
    | false =>
      change readWords (c :: (escape word ++ rest)) = _
      rw [readWords_letter hc, ih]
      rfl

theorem readWords_phrase (hne : phrase ≠ []) : readWords ("\\s+".toList.intercalate (phrase.map escape) ++
    if last then "\\b".toList else []) = (phrase, last) := by
  induction phrase with
  | nil => exact absurd rfl hne
  | cons word phrase ih =>
    cases phrase with
    | nil =>
      have hend : readWords (if last then "\\b".toList else []) = ([[]], last) := by
        cases last with
        | true => rfl
        | false => rfl
      have hword := readWords_escape word hend
      rw [List.append_nil] at hword
      rw [List.map_singleton, List.intercalate_singleton, hword]
    | cons next phrase =>
      rw [List.map_cons, List.map_cons, List.intercalate_cons_cons, ← List.map_cons,
        List.append_assoc, List.append_assoc]
      have hnext := ih (List.cons_ne_nil _ _)
      generalize "\\s+".toList.intercalate ((next :: phrase).map escape) ++
        (if last then "\\b".toList else []) = source at *
      have hbreak : readWords ("\\s+".toList ++ source) = ([] :: next :: phrase, last) := by
        change ([] :: (readWords source).1, (readWords source).2) = _
        rw [hnext]
      have hword := readWords_escape word hbreak
      rw [List.append_nil] at hword
      exact hword

theorem readEdge_escape (hne : word ≠ []) : readEdge (escape word ++ rest) = (false, escape word ++ rest) := by
  obtain ⟨c, word, rfl⟩ := List.exists_cons_of_ne_nil hne
  rw [escape_cons, List.append_assoc]
  cases hc : isMeta c with
  | true =>
    refine readEdge.eq_2 _ fun rest' h => ?_
    obtain rfl := (List.cons.inj (List.cons.inj h).2).1
    exact absurd hc (by decide)
  | false =>
    refine readEdge.eq_2 _ fun rest' h => ?_
    obtain rfl := (List.cons.inj h).1
    exact absurd hc (by decide)

end Read

/-- An engine for phrases and for expressions without a metacharacter. -/
def engine : Engine ascii where
  escape := escape
  build := build
  isWord := Char.isAlphanum
  fits _ _ _ := true
  isWord_a := by decide
  build_phrase first last phrase hne hwords := by
    refine ⟨[], ?_⟩
    have hread := @readWords_phrase _ last hne
    unfold phraseSource
    rw [if_pos rfl, List.append_assoc]
    generalize htail : "\\s+".toList.intercalate (phrase.map escape) ++
      (if last then "\\b".toList else []) = tail at *
    have hedge : readEdge ((if first then "\\b".toList else []) ++ tail) = (first, tail) := by
      cases first with
      | true => rfl
      | false =>
        obtain ⟨word, rest, rfl⟩ := List.exists_cons_of_ne_nil hne
        obtain ⟨after, hafter⟩ : ∃ after, tail = escape word ++ after := by
          rw [← htail]
          cases rest with
          | nil => exact ⟨_, by rw [List.map_singleton, List.intercalate_singleton]⟩
          | cons next rest =>
            exact ⟨_, by rw [List.map_cons, List.map_cons, List.intercalate_cons_cons,
              List.append_assoc, List.append_assoc]⟩
        rw [hafter]
        exact readEdge_escape (hwords word List.mem_cons_self).1
    change Except.ok (readPhrase ((if first then "\\b".toList else []) ++ tail)) = _
    unfold readPhrase
    rw [hedge]
    dsimp only
    rw [hread]

/-! ## 9. The result -/

section Result

variable {x : Unicode} (e : Engine x) {p n : Text}

theorem mem_trim_iff : 'İ' ∈ Lib.trim isWhitespace p ↔ 'İ' ∈ p := by
  refine ⟨Lib.mem_of_mem_trim, fun hmem => ?_⟩
  obtain ⟨a, b, hsplit, ha, hb⟩ := Lib.exists_trim isWhitespace p
  rw [hsplit, List.mem_append, List.mem_append] at hmem
  rcases hmem with (hmem | hmem) | hmem
  · exact absurd (ha _ hmem) (by decide)
  · exact hmem
  · exact absurd (hb _ hmem) (by decide)

/-- **A stored entry means what was typed in exactly if that is plain.** -/
theorem normalize_keeps_meaning_iff (h : normalizeWord e p = .ok n) : KeepsMeaning e p n ↔ Plain p := by
  obtain ⟨⟨source, hp⟩, hn⟩ := normalizeWord_eq_ok.1 h
  have htight := tight_trim (wordRegex_eq_ok.1 hp).1
  unfold Plain
  by_cases hhead : (Lib.trim isWhitespace p).head? = some '/'
  · rw [if_pos hhead] at hn
    cases hexp : expression (Lib.trim isWhitespace p) with
    | none =>
      rw [hn]
      exact ⟨fun _ => ⟨(nomatch ·), absurd hhead⟩, fun _ => keepsMeaning_slash hp hhead hexp⟩
    | some halves =>
      constructor
      · intro hkeeps
        have hwritten : n = Lib.trim isWhitespace p := hkeeps.written (by rw [hexp]; rfl)
        exact ⟨fun _ => htight.squash_eq_self_iff.1 (hn.symm.trans hwritten), absurd hhead⟩
      · rintro ⟨hsingle, -⟩
        have hself : n = Lib.trim isWhitespace p := hn.trans (htight.squash_eq_self_iff.2 (hsingle rfl))
        subst hself
        exact keepsMeaning_self hp h
  · rw [if_neg hhead] at hn
    rw [hn, expression_eq_none_of_head hhead, ← mem_trim_iff]
    constructor
    · intro hkeeps
      exact ⟨(nomatch ·), fun _ hlong => not_keepsMeaning_lower hhead hlong hkeeps⟩
    · rintro ⟨-, hlong⟩
      exact keepsMeaning_lower hp hhead (hlong hhead)

end Result

theorem web_development : KeepsMeaning engine "  Web   Development ".toList "web development".toList :=
  (normalize_keeps_meaning_iff engine (by decide)).2 (by decide)

/-- **An expression with two blanks is stored with one**, and does not match what it matched. -/
theorem a_blank_is_lost : ¬ ∀ (x : Unicode) (e : Engine x) (p n : Text), normalizeWord e p = .ok n →
    KeepsMeaning e p n := by
  intro h
  obtain ⟨source, source', isMatch, isMatch', hp, hn, hbuild, hbuild', hsame⟩ :=
    (h ascii engine "/a  b/".toList "/a b/".toList (by decide)).same
  obtain rfl : "a  b".toList = source := Except.ok.inj
    ((by decide : wordRegex engine "/a  b/".toList = .ok _).symm.trans hp)
  obtain rfl : "a b".toList = source' := Except.ok.inj
    ((by decide : wordRegex engine "/a b/".toList = .ok _).symm.trans hn)
  cases hbuild
  cases hbuild'
  exact absurd (hsame "a b".toList) (by decide)

end UwuMail.Store.WordLists
