/-
# Phrases in a text

A phrase is a list of words.  A text SPELLS it where the words stand one behind the other with
blanks between them, each as far as `fold` tells; a text HOLDS it where a part of it spells the
phrase, which may have to begin or end at an edge between letters and the rest.

Only the folded words count, so two phrases that fold alike are held by the same texts.  A text that
holds a phrase has each kind of element at least as often as its words (`holdsPhrase_count`), and
the phrase itself, with one blank between the words, spells it (`spells_intercalate`).
-/
import UwuMail.Lib.Words

namespace UwuMail.Lib

variable {α β : Type}

/-- All ways to cut a list in two. -/
def cuts : List α → List (List α × List α)
  | [] => [([], [])]
  | a :: l => ([], a :: l) :: (cuts l).map fun s => (a :: s.1, s.2)

@[simp] theorem mem_cuts {l : List α} {s : List α × List α} : s ∈ cuts l ↔ s.1 ++ s.2 = l := by
  induction l generalizing s with
  | nil =>
    obtain ⟨a, b⟩ := s
    simp [cuts]
  | cons x l ih =>
    obtain ⟨a, b⟩ := s
    rw [cuts, List.mem_cons, List.mem_map]
    constructor
    · rintro (h | ⟨t, ht, h⟩)
      · obtain ⟨rfl, rfl⟩ := Prod.mk.inj h
        rfl
      · obtain ⟨rfl, rfl⟩ := Prod.mk.inj h
        exact congrArg (x :: ·) (ih.1 ht)
    · intro h
      cases a with
      | nil => exact .inl (Prod.ext rfl h)
      | cons y a =>
        obtain ⟨rfl, hrest⟩ := List.cons.inj h
        exact .inr ⟨(a, b), ih.2 hrest, rfl⟩

section
variable [BEq β] (fold : α → β) (blank letter : α → Bool)

/-- The text is the words, with blanks between them. -/
def spells : List (List β) → List α → Bool
  | [], text => text.isEmpty
  | [word], text => text.map fold == word
  | word :: next :: words, text => (cuts text).any fun s => s.1.map fold == word &&
      (cuts s.2).any fun t => !t.1.isEmpty && t.1.all blank && spells (next :: words) t.2

/-- A letter stands on one side, and none on the other. -/
def edge (before after : List α) : Bool := before.getLast?.any letter != after.head?.any letter

/-- A part of the text spells the phrase, from an edge on if `first`, and up to one if `last`. -/
def holdsPhrase (first last : Bool) (words : List (List β)) (text : List α) : Bool :=
  (cuts text).any fun s => (cuts s.2).any fun t =>
    spells fold blank words t.1 && (!first || edge letter s.1 s.2) && (!last || edge letter (s.1 ++ t.1) t.2)

end

section
variable [BEq β] [LawfulBEq β] {fold : α → β} {blank letter : α → Bool} {first last : Bool}
  {text : List α}

theorem spells_count {words : List (List β)} (h : spells fold blank words text = true) (b : β) :
    words.flatten.count b ≤ (text.map fold).count b := by
  induction words generalizing text with
  | nil => exact Nat.zero_le _
  | cons word words ih =>
    cases words with
    | nil =>
      rw [List.flatten_singleton, ← beq_iff_eq.1 h]
    | cons next words =>
      rw [spells, List.any_eq_true] at h
      obtain ⟨⟨word', rest⟩, hcut, h⟩ := h
      obtain ⟨hword, h⟩ := Bool.and_eq_true_iff.1 h
      obtain ⟨⟨blanks, rest'⟩, hcut', h⟩ := List.any_eq_true.1 h
      have hcount : (next :: words).flatten.count b ≤ (rest'.map fold).count b :=
        ih (Bool.and_eq_true_iff.1 h).2
      have htext : text = word' ++ (blanks ++ rest') := by rw [mem_cuts.1 hcut', mem_cuts.1 hcut]
      rw [List.flatten_cons, List.count_append, htext, List.map_append, List.map_append, List.count_append,
        List.count_append, beq_iff_eq.1 hword]
      omega

omit [LawfulBEq β] in
theorem holdsPhrase_eq_true {words : List (List β)} :
    holdsPhrase fold blank letter first last words text = true ↔
    ∃ before part after, text = before ++ (part ++ after) ∧ spells fold blank words part = true ∧
      (first = true → edge letter before (part ++ after) = true) ∧
      (last = true → edge letter (before ++ part) after = true) := by
  unfold holdsPhrase
  rw [List.any_eq_true]
  constructor
  · rintro ⟨⟨before, rest⟩, hcut, h⟩
    obtain ⟨⟨part, after⟩, hcut', h⟩ := List.any_eq_true.1 h
    obtain ⟨h, hlast⟩ := Bool.and_eq_true_iff.1 h
    obtain ⟨hspells, hfirst⟩ := Bool.and_eq_true_iff.1 h
    obtain rfl : part ++ after = rest := mem_cuts.1 hcut'
    refine ⟨before, part, after, (mem_cuts.1 hcut).symm, hspells, fun he => ?_, fun he => ?_⟩
    · simpa [he] using hfirst
    · simpa [he] using hlast
  · rintro ⟨before, part, after, htext, hspells, hfirst, hlast⟩
    refine ⟨(before, part ++ after), mem_cuts.2 htext.symm, List.any_eq_true.2
      ⟨(part, after), mem_cuts.2 rfl, ?_⟩⟩
    rw [hspells, Bool.true_and, Bool.and_eq_true_iff]
    constructor
    · cases first with
      | false => rfl
      | true => exact hfirst rfl
    · cases last with
      | false => rfl
      | true => exact hlast rfl

/-- **A text that holds a phrase has what its words have.** -/
theorem holdsPhrase_count {words : List (List β)}
    (h : holdsPhrase fold blank letter first last words text = true)
    (b : β) : words.flatten.count b ≤ (text.map fold).count b := by
  obtain ⟨before, part, after, rfl, hspells, -, -⟩ := holdsPhrase_eq_true.1 h
  have hcount := spells_count hspells b
  rw [List.map_append, List.map_append, List.count_append, List.count_append]
  omega

/-- A phrase spells itself. -/
theorem spells_intercalate {sep : α} (hsep : blank sep = true) (words : List (List α)) :
    spells fold blank (words.map (·.map fold)) ([sep].intercalate words) = true := by
  induction words with
  | nil => rfl
  | cons word words ih =>
    cases words with
    | nil =>
      rw [List.intercalate_singleton]
      exact beq_self_eq_true _
    | cons next words =>
      rw [List.intercalate_cons_cons, List.append_assoc, List.map_cons, List.map_cons, spells,
        List.any_eq_true]
      refine ⟨(word, [sep] ++ [sep].intercalate (next :: words)), mem_cuts.2 rfl, ?_⟩
      rw [beq_self_eq_true, Bool.true_and, List.any_eq_true]
      refine ⟨([sep], [sep].intercalate (next :: words)), mem_cuts.2 rfl, ?_⟩
      rw [← List.map_cons, ih]
      simp [hsep]

end

/-! ## The words of two texts -/

/-- Texts with breaks at the same places have words that correspond. -/
theorem words_forall₂ {R : α → β → Prop} {p : α → Bool} {q : β → Bool}
    (hR : ∀ a b, R a b → p a = q b) {l : List α}
    {l' : List β} (h : List.Forall₂ R l l') : List.Forall₂ (List.Forall₂ R) (words p l) (words q l') := by
  have hall : ∀ {l : List α} {l' : List β}, List.Forall₂ R l l' →
      List.Forall₂ (List.Forall₂ R) (l.splitOnP p) (l'.splitOnP q) := by
    intro l l' h
    induction h with
    | nil => exact .cons .nil .nil
    | @cons a b l l' hab _ ih =>
      rw [List.splitOnP_cons_eq_if_modifyHead, List.splitOnP_cons_eq_if_modifyHead, hR a b hab]
      generalize l.splitOnP p = pieces at ih ⊢
      generalize l'.splitOnP q = pieces' at ih ⊢
      split
      · exact .cons .nil ih
      · cases ih with
        | nil => exact .nil
        | cons hhead htail => exact .cons (.cons hab hhead) htail
  unfold words
  refine List.rel_filter ?_ (hall h)
  intro u v huv
  cases huv with
  | nil => exact Iff.rfl
  | cons _ _ => exact Iff.rfl

/-- A kind of element that is no break is counted word by word. -/
theorem count_words [BEq β] [LawfulBEq β] {p : α → Bool} {f : α → β} {b : β} (hb : ∀ a, p a = true →
    f a ≠ b) (l : List α) :
    ((words p l).map (·.map f)).flatten.count b = (l.map f).count b := by
  rw [← List.map_flatten, flatten_words, List.count_eq_countP, List.count_eq_countP,
    List.countP_map, List.countP_map, List.countP_filter]
  refine List.countP_congr fun a _ => ?_
  cases hp : p a with
  | true => simpa [hp] using hb a hp
  | false => simp

/-! ## Squashed texts -/

section
variable {p : α → Bool} {sep c : α} {s : List α}

theorem letters_of_mem_words {word : List α} (hword : word ∈ words p s) {x : α} (hx : x ∈ word) :
    p x = false := by
  have hmem : x ∈ (words p s).flatten := List.mem_flatten.2 ⟨word, hword, hx⟩
  rw [flatten_words, List.mem_filter] at hmem
  simpa using hmem.2

theorem words_word {word : List α} (hword : word ∈ words p s) : words p word = [word] := by
  have hne := ne_nil_of_mem_words hword
  unfold words
  rw [List.splitOnP_eq_singleton fun x hx => letters_of_mem_words hword hx]
  simp [hne]

theorem words_squash (hsep : p sep = true) : words p (squash p sep s) = words p s := by
  unfold squash
  rw [words_intercalate hsep]
  have hall : ∀ l : List (List α), (∀ word ∈ l, words p word = [word]) → l.flatMap (words p) = l := by
    intro l hl
    induction l with
    | nil => rfl
    | cons word l ih =>
      rw [List.flatMap_cons, hl word List.mem_cons_self, ih fun w hw => hl w (List.mem_cons_of_mem _ hw)]
      rfl
  exact hall _ fun word hword => words_word hword

/-- Squashing twice is squashing once. -/
theorem squash_squash (hsep : p sep = true) : squash p sep (squash p sep s) = squash p sep s := by
  show [sep].intercalate (words p (squash p sep s)) = squash p sep s
  rw [words_squash hsep]
  rfl

/-- A squashed text begins with a letter. -/
theorem head_squash_letter {x : α} (h : x ∈ (squash p sep s).head?) : p x = false := by
  unfold squash at h
  cases hwords : words p s with
  | nil =>
    rw [hwords] at h
    cases h
  | cons word rest =>
    have hmem : word ∈ words p s := hwords ▸ List.mem_cons_self
    obtain ⟨y, word', rfl⟩ := List.exists_cons_of_ne_nil (ne_nil_of_mem_words hmem)
    rw [hwords, intercalate_cons_head] at h
    cases h
    exact letters_of_mem_words hmem List.mem_cons_self

theorem head_squash (h : p c = false) : (squash p sep (c :: s)).head? = some c := by
  obtain ⟨rest, hrest⟩ := @squash_start _ p sep [c] s
  rw [squash_letter h] at hrest
  rw [show c :: s = [c] ++ s from rfl, ← hrest]
  rfl

theorem last_squash (h : p c = false) : (squash p sep (s ++ [c])).getLast? = some c := by
  obtain ⟨before, hbefore⟩ := @squash_behind _ p sep s [c]
  rw [squash_letter h] at hbefore
  rw [← hbefore, List.getLast?_concat]

theorem squash_length_le : (squash p sep s).length ≤ s.length := by
  induction hn : s.length using Nat.strong_induction_on generalizing s with
  | _ n ih =>
    subst hn
    cases s with
    | nil => exact Nat.le_refl _
    | cons c s =>
      cases hc : p c with
      | true =>
        rw [squash_break hc]
        exact Nat.le_succ_of_le (ih s.length (Nat.lt_succ_self _) rfl)
      | false =>
        cases s with
        | nil => rw [squash_letter hc]
        | cons d s =>
          cases hd : p d with
          | false =>
            rw [squash_letter_letter hc hd]
            exact Nat.succ_le_succ (ih (d :: s).length (Nat.lt_succ_self _) rfl)
          | true =>
            have hrest := ih s.length (by simp only [List.length_cons]; omega) rfl
            rw [squash_letter_break hc hd]
            split
            · simp
            · simpa using hrest

/-- Breaks are `sep`, and none stands behind another. -/
def singleBreaks [BEq α] (p : α → Bool) (sep : α) : List α → Bool
  | c :: d :: s => (!p c || c == sep && !p d) && singleBreaks p sep (d :: s)
  | _ => true

/-- **A text from letter to letter is squashed exactly if its breaks are single.** -/
theorem squash_eq_self_iff [BEq α] [LawfulBEq α] (hhead : p c = false)
    (hlast : ∀ x ∈ (c :: s).getLast?, p x = false) :
    squash p sep (c :: s) = c :: s ↔ singleBreaks p sep (c :: s) = true := by
  induction hn : s.length using Nat.strong_induction_on generalizing c s with
  | _ n ih =>
    subst hn
    cases s with
    | nil =>
      rw [squash_letter hhead]
      exact ⟨fun _ => rfl, fun _ => rfl⟩
    | cons d s =>
      have hlast' : ∀ x ∈ (d :: s).getLast?, p x = false :=
        fun x hx => hlast x (by rwa [List.getLast?_cons_cons])
      rw [singleBreaks, hhead, Bool.not_false, Bool.true_or, Bool.true_and]
      cases hd : p d with
      | false =>
        rw [squash_letter_letter hhead hd, List.cons.injEq, eq_self, true_and]
        exact ih s.length (Nat.lt_succ_self _) hd hlast' rfl
      | true =>
        cases s with
        | nil => exact absurd (hd.symm.trans (hlast' d rfl)) nofun
        | cons e s =>
          have hlast'' : ∀ x ∈ (e :: s).getLast?, p x = false :=
            fun x hx => hlast' x (by rwa [List.getLast?_cons_cons])
          rw [squash_letter_break hhead hd, singleBreaks, hd]
          cases he : p e with
          | true =>
            simp only [Bool.not_true, Bool.and_false, Bool.false_or, Bool.false_and,
              Bool.false_eq_true, iff_false]
            intro heq
            have hbreak : (squash p sep (e :: s)).head? = some e := by
              have htail := (List.cons.inj heq).2
              split at htail
              · cases htail
              · rw [(List.cons.inj htail).2]
                rfl
            exact absurd (he.symm.trans (head_squash_letter hbreak)) nofun
          | false =>
            have hsome : (squash p sep (e :: s)).isEmpty = false := by
              cases hempty : squash p sep (e :: s) with
              | nil =>
                have := @head_squash _ _ sep _ s he
                rw [hempty] at this
                cases this
              | cons x xs => rfl
            rw [hsome, if_neg Bool.false_ne_true, List.cons.injEq, eq_self, true_and,
              List.cons.injEq, eq_comm,
              ih s.length (by simp only [List.length_cons]; omega) he hlast'' rfl]
            simp

end

end UwuMail.Lib
