/-
# Words

The words of a text are what stands between its breaks, and `squash` puts one break between each two
of them.  A text squashed stands in every text around it squashed (`squash_infix`), though its first
and last word may be glued to others there; and texts that differ only in which breaks stand where
have the same words (`SameWords.words_eq`).
-/
import Mathlib

namespace UwuMail.Lib

variable {α : Type} {p : α → Bool} {sep c d : α} {a b s u v : List α}

def words (p : α → Bool) (text : List α) : List (List α) := (text.splitOnP p).filter (!·.isEmpty)

def squash (p : α → Bool) (sep : α) (text : List α) : List α := [sep].intercalate (words p text)

@[simp] theorem words_nil : words p [] = [] := rfl

/-- **Words split at a break.** -/
theorem words_append_break (h : p c = true) : words p (a ++ c :: b) = words p a ++ words p b := by
  unfold words
  rw [List.splitOnP_append_cons a b h, List.filter_append]

theorem words_cons_break (h : p c = true) : words p (c :: b) = words p b := @words_append_break _ p c [] b h

theorem words_breaks_append (h : ∀ x ∈ u, p x = true) : words p (u ++ b) = words p b := by
  induction u with
  | nil => rfl
  | cons c u ih =>
    rw [List.forall_mem_cons] at h
    rw [List.cons_append, words_cons_break h.1, ih h.2]

theorem words_append_breaks (h : ∀ x ∈ u, p x = true) : words p (a ++ u) = words p a := by
  cases u with
  | nil => rw [List.append_nil]
  | cons c u =>
    rw [List.forall_mem_cons] at h
    have hnone := @words_breaks_append _ p [] u h.2
    rw [List.append_nil] at hnone
    rw [words_append_break h.1, hnone, words_nil, List.append_nil]

/-! ## Squashed, by the two characters in front -/

section
variable {word : List α} {rest : List (List α)}

theorem intercalate_cons_head : [sep].intercalate ((c :: word) :: rest) =
    c :: [sep].intercalate (word :: rest) := by
  cases rest with
  | nil => rw [List.intercalate_singleton, List.intercalate_singleton]
  | cons next rest => rw [List.intercalate_cons_cons, List.intercalate_cons_cons, List.cons_append,
    List.cons_append]

theorem intercalate_cons_isEmpty (h : ∀ word ∈ rest, word ≠ []) :
    [sep].intercalate (word :: rest) =
      word ++ if ([sep].intercalate rest).isEmpty then [] else sep :: [sep].intercalate rest := by
  cases rest with
  | nil => rw [List.intercalate_singleton, List.intercalate_nil, List.isEmpty_nil, if_pos rfl,
    List.append_nil]
  | cons next rest =>
    obtain ⟨x, next, rfl⟩ := List.exists_cons_of_ne_nil (h next List.mem_cons_self)
    rw [List.intercalate_cons_cons, intercalate_cons_head, List.isEmpty_cons, if_neg Bool.false_ne_true,
      List.append_assoc]
    rfl

end

theorem ne_nil_of_mem_words {word : List α} (h : word ∈ words p s) : word ≠ [] := by
  obtain ⟨-, hne⟩ := List.mem_filter.1 h
  intro hword
  rw [hword] at hne
  cases hne

theorem squash_break (h : p c = true) : squash p sep (c :: s) = squash p sep s := by
  unfold squash
  rw [words_cons_break h]

theorem words_letter (h : p c = false) : words p [c] = [[c]] := by
  unfold words
  rw [List.splitOnP_eq_singleton fun x hx => List.mem_singleton.1 hx ▸ h]
  rfl

theorem squash_letter (h : p c = false) : squash p sep [c] = [c] := by
  unfold squash
  rw [words_letter h, List.intercalate_singleton]

/-- A word ends. -/
theorem squash_letter_break (h : p c = false) (hd : p d = true) :
    squash p sep (c :: d :: s) = c :: if (squash p sep s).isEmpty then [] else sep :: squash p sep s := by
  unfold squash
  rw [show c :: d :: s = [c] ++ d :: s from rfl, words_append_break hd, words_letter h, List.singleton_append,
    intercalate_cons_isEmpty fun _ => ne_nil_of_mem_words]
  rfl

/-- A word goes on. -/
theorem squash_letter_letter (h : p c = false) (hd : p d = false) :
    squash p sep (c :: d :: s) = c :: squash p sep (d :: s) := by
  obtain ⟨word, pieces, hpieces⟩ := List.exists_cons_of_ne_nil (List.splitOnP_ne_nil p s)
  unfold squash words
  rw [List.splitOnP_cons_eq_if_modifyHead, h, if_neg Bool.false_ne_true,
    List.splitOnP_cons_eq_if_modifyHead, hd,
    if_neg Bool.false_ne_true, hpieces]
  exact intercalate_cons_head

/-! ## What stands around a text -/

/-- What stands in front of a text leaves its words as they are, but for the first. -/
theorem squash_behind (a s : List α) : squash p sep s <:+ squash p sep (a ++ s) := by
  induction a with
  | nil => exact List.suffix_refl _
  | cons c a ih =>
    refine ih.trans ?_
    rw [List.cons_append]
    generalize a ++ s = t
    cases h : p c with
    | true =>
      rw [squash_break h]
    | false =>
      cases t with
      | nil => exact List.nil_suffix
      | cons d t =>
        cases hd : p d with
        | false =>
          rw [squash_letter_letter h hd]
          exact List.suffix_cons _ _
        | true =>
          rw [squash_letter_break h hd, squash_break hd]
          split
          · next hnone =>
            rw [List.isEmpty_iff.1 hnone]
            exact List.nil_suffix
          · exact (List.suffix_cons _ _).trans (List.suffix_cons _ _)

/-- What stands behind a text leaves its words as they are, but for the last. -/
theorem squash_start (s b : List α) : squash p sep s <+: squash p sep (s ++ b) := by
  induction s with
  | nil => exact List.nil_prefix
  | cons c s ih =>
    rw [List.cons_append]
    cases h : p c with
    | true =>
      rw [squash_break h, squash_break h]
      exact ih
    | false =>
      cases s with
      | nil =>
        rw [squash_letter h]
        cases b with
        | nil =>
          rw [List.append_nil, squash_letter h]
        | cons d b =>
          rw [List.nil_append]
          cases hd : p d with
          | false =>
            rw [squash_letter_letter h hd]
            exact (List.prefix_cons_inj c).2 List.nil_prefix
          | true =>
            rw [squash_letter_break h hd]
            exact (List.prefix_cons_inj c).2 List.nil_prefix
      | cons d s =>
        rw [List.cons_append] at ih ⊢
        cases hd : p d with
        | false =>
          rw [squash_letter_letter h hd, squash_letter_letter h hd]
          exact (List.prefix_cons_inj c).2 ih
        | true =>
          rw [squash_break hd, squash_break hd] at ih
          rw [squash_letter_break h hd, squash_letter_break h hd]
          refine (List.prefix_cons_inj c).2 ?_
          split
          · exact List.nil_prefix
          · next hsome =>
            rw [if_neg fun hnone => hsome ?_]
            · exact (List.prefix_cons_inj sep).2 ih
            · rw [List.isEmpty_iff.1 hnone, List.prefix_nil] at ih
              rw [ih]
              rfl

/-- **A text squashed stands in every text around it squashed.** -/
theorem squash_infix (a s b : List α) : squash p sep s <:+: squash p sep (a ++ s ++ b) := by
  rw [List.append_assoc]
  exact (squash_start s b).isInfix.trans (squash_behind a (s ++ b)).isInfix

/-! ## The words of a list -/

theorem mem_intercalate {texts : List (List α)} (h : c ∈ s.intercalate texts) :
    c ∈ s ∨ ∃ text ∈ texts, c ∈ text := by
  induction texts with
  | nil => cases h
  | cons text texts ih =>
    cases texts with
    | nil =>
      rw [List.intercalate_singleton] at h
      exact .inr ⟨text, List.mem_cons_self, h⟩
    | cons next texts =>
      rw [List.intercalate_cons_cons, List.mem_append, List.mem_append] at h
      rcases h with (h | h) | h
      · exact .inr ⟨text, List.mem_cons_self, h⟩
      · exact .inl h
      · rcases ih h with h | ⟨text', hmem, h⟩
        · exact .inl h
        · exact .inr ⟨text', List.mem_cons_of_mem _ hmem, h⟩

theorem flatten_words (p : α → Bool) (l : List α) : (words p l).flatten = l.filter fun a => !p a := by
  have hpieces : ∀ l : List α, (l.splitOnP p).flatten = l.filter fun a => !p a := by
    intro l
    induction l with
    | nil => rfl
    | cons c l ih =>
      obtain ⟨piece, pieces, hpieces⟩ := List.exists_cons_of_ne_nil (List.splitOnP_ne_nil p l)
      rw [List.splitOnP_cons_eq_if_modifyHead]
      rw [hpieces] at ih ⊢
      cases hc : p c with
      | true => simpa [hc] using ih
      | false => simpa [hc] using ih
  unfold words
  rw [← hpieces, List.flatten_filter_not_isEmpty]

theorem mem_squash (h : c ∈ squash p sep s) : c = sep ∨ c ∈ s := by
  refine (mem_intercalate h).imp List.mem_singleton.1 fun ⟨word, hword, hc⟩ => ?_
  have hmem : c ∈ (words p s).flatten := List.mem_flatten.2 ⟨word, hword, hc⟩
  rw [flatten_words] at hmem
  exact (List.mem_filter.1 hmem).1

theorem words_intercalate (h : p sep = true) (texts : List (List α)) :
    words p ([sep].intercalate texts) = texts.flatMap (words p) := by
  induction texts with
  | nil => rfl
  | cons text texts ih =>
    cases texts with
    | nil => rw [List.intercalate_singleton, List.flatMap_singleton]
    | cons next texts =>
      rw [List.intercalate_cons_cons, List.append_assoc, List.singleton_append, words_append_break h, ih]
      rfl

/-- A text of letters is one word, or empty. -/
theorem mem_words_of_letters {word : List α} (h : ∀ x ∈ s, p x = false) (hword : word ∈ words p s) :
    word = s := by
  unfold words at hword
  rw [List.splitOnP_eq_singleton h] at hword
  exact List.mem_singleton.1 (List.mem_filter.1 hword).1

/-- A text cut in front of a break or behind one keeps its words whole. -/
theorem mem_words_take {n : Nat} {word : List α} (hcut : ∀ c d, s[n - 1]? = some c →
    s[n]? = some d → p c = true ∨ p d = true)
    (hword : word ∈ words p (s.take n)) : word ∈ words p s := by
  cases n with
  | zero => cases hword
  | succ n =>
    rcases Nat.lt_or_ge (n + 1) s.length with hn | hn
    · have hfront : s = s.take n ++ s[n] :: s.drop (n + 1) := by
        rw [← List.drop_eq_getElem_cons, List.take_append_drop]
      have hbehind : s = s.take (n + 1) ++ s[n + 1] :: s.drop (n + 2) := by
        rw [← List.drop_eq_getElem_cons, List.take_append_drop]
      rcases hcut s[n] s[n + 1] (List.getElem?_eq_getElem _)
        (List.getElem?_eq_getElem hn) with hbreak | hbreak
      · rw [List.take_succ_eq_append_getElem (by omega), words_append_break hbreak, List.mem_append] at hword
        rw [hfront, words_append_break hbreak, List.mem_append]
        exact .inl (hword.resolve_right fun h => nomatch h)
      · rw [hbehind, words_append_break hbreak, List.mem_append]
        exact .inl hword
    · rw [List.take_of_length_le hn] at hword
      exact hword

/-! ## Which breaks -/

/-- The same letters in the same places, and breaks where the other has breaks. -/
inductive SameWords {α : Type} (p : α → Bool) : List α → List α → Prop
  | nil : SameWords p [] []
  | cons (c : α) {a b : List α} (h : SameWords p a b) : SameWords p (c :: a) (c :: b)
  | breaks {u v a b : List α} (hu : u ≠ []) (hv : v ≠ []) (hbreaks : ∀ x ∈ u ++ v,
    p x = true) (h : SameWords p a b) :
      SameWords p (u ++ a) (v ++ b)

theorem words_append_breaks_append (hne : u ≠ []) (h : ∀ x ∈ u, p x = true) :
    words p (s ++ (u ++ b)) = words p s ++ words p b := by
  cases u with
  | nil => exact absurd rfl hne
  | cons c u =>
    rw [List.forall_mem_cons] at h
    rw [List.cons_append, words_append_break h.1, words_breaks_append h.2]

theorem SameWords.words_eq (h : SameWords p a b) : words p a = words p b := by
  have hall : ∀ s, words p (s ++ a) = words p (s ++ b) := by
    induction h with
    | nil => exact fun _ => rfl
    | @cons c a b _ ih =>
      intro s
      have hnext := ih (s ++ [c])
      rwa [List.append_assoc, List.append_assoc] at hnext
    | breaks hu hv hbreaks _ ih =>
      intro s
      rw [List.forall_mem_append] at hbreaks
      rw [words_append_breaks_append hu hbreaks.1, words_append_breaks_append hv hbreaks.2]
      exact congrArg _ (ih [])
  exact hall []

/-- Breaks put in the place of breaks. -/
theorem sameWords_flatMap {f : α → List α} (h : ∀ c, f c = [c] ∨ p c = true ∧ f c ≠ [] ∧ ∀ x ∈ f c,
    p x = true)
    (text : List α) : SameWords p text (text.flatMap f) := by
  induction text with
  | nil => exact .nil
  | cons c text ih =>
    rw [List.flatMap_cons]
    rcases h c with heq | ⟨hc, hne, hall⟩
    · rw [heq]
      exact .cons c ih
    · refine .breaks (List.cons_ne_nil c []) hne ?_ ih
      rw [List.singleton_append, List.forall_mem_cons]
      exact ⟨hc, hall⟩

end UwuMail.Lib
