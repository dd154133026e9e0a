/-
# Lines with their ends

A list cut behind each element that ends a line (`lines`), so that nothing is lost and the last line
may have no end. Cutting is putting together undone (`lines_flatten`), for a list of whole lines;
and **what is left of whole lines when some are taken out is whole lines** (`Whole.sublist`).
-/
import Mathlib.Data.List.Basic

namespace UwuMail.Lib

section
variable {α : Type} {p : α → Bool} {l : List α} {ls ls' : List (List α)} {a : α}

def lines (p : α → Bool) : List α → List (List α)
  | [] => []
  | a :: l =>
    if p a then [a] :: lines p l
    else match lines p l with
      | [] => [[a]]
      | line :: ls => (a :: line) :: ls

/-- A line and its end. -/
def Ended (p : α → Bool) (line : List α) : Prop :=
    ∃ init a, line = init ++ [a] ∧ p a = true ∧ ∀ b ∈ init, p b = false

/-- The last line, which need not have an end. -/
def Open (p : α → Bool) (line : List α) : Prop := line ≠ [] ∧ ∀ b ∈ line, p b = false

/-- All lines have an end but perhaps the last. -/
def Whole (p : α → Bool) : List (List α) → Prop
  | [] => True
  | line :: ls => (Ended p line ∨ (Open p line ∧ ls = [])) ∧ Whole p ls

theorem Ended.ne_nil {line : List α} (h : Ended p line) : line ≠ [] := by
  obtain ⟨init, a, rfl, -⟩ := h
  exact List.append_ne_nil_of_right_ne_nil _ (List.cons_ne_nil _ _)

theorem Ended.cons {line : List α} (ha : p a = false) (h : Ended p line) : Ended p (a :: line) := by
  obtain ⟨init, b, rfl, hb, hinit⟩ := h
  refine ⟨a :: init, b, rfl, hb, fun c hc => ?_⟩
  rcases List.mem_cons.1 hc with rfl | hc
  · exact ha
  · exact hinit c hc

theorem Open.cons {line : List α} (ha : p a = false) (h : ∀ b ∈ line, p b = false) : Open p (a :: line) := by
  refine ⟨List.cons_ne_nil _ _, fun c hc => ?_⟩
  rcases List.mem_cons.1 hc with rfl | hc
  · exact ha
  · exact h c hc

/-! ## 1. Cutting -/

theorem flatten_lines (p : α → Bool) (l : List α) : (lines p l).flatten = l := by
  induction l with
  | nil => rfl
  | cons a l ih =>
    rw [lines]
    split
    · rw [List.flatten_cons, ih, List.singleton_append]
    · split
      · next heq =>
        rw [heq] at ih
        rw [← ih]
        rfl
      · next heq =>
        rw [heq] at ih
        rw [← ih]
        rfl

theorem whole_lines (p : α → Bool) (l : List α) : Whole p (lines p l) := by
  induction l with
  | nil => trivial
  | cons a l ih =>
    rw [lines]
    split
    · next ha => exact ⟨.inl ⟨[], a, rfl, ha, fun _ hb => nomatch hb⟩, ih⟩
    · next ha =>
      rw [Bool.not_eq_true] at ha
      split
      · exact ⟨.inr ⟨.cons ha (fun _ hb => nomatch hb), rfl⟩, trivial⟩
      · next heq =>
        rw [heq] at ih
        refine ⟨ih.1.imp (.cons ha) fun h => ⟨.cons ha h.1.2, h.2⟩, ih.2⟩

/-! ## 2. Putting together -/

theorem lines_append_of_ended {line : List α} (h : Ended p line) :
    lines p (line ++ l) = line :: lines p l := by
  obtain ⟨init, a, rfl, ha, hinit⟩ := h
  induction init with
  | nil => rw [List.nil_append, List.singleton_append, lines, if_pos ha]
  | cons b init ih =>
    have hb := hinit b List.mem_cons_self
    have hrest := ih fun c hc => hinit c (List.mem_cons_of_mem _ hc)
    rw [List.cons_append, List.cons_append, lines, if_neg (by rw [hb]; exact Bool.false_ne_true), hrest]

/-! ## 3. Taking lines out -/

theorem Whole.sublist (h : Whole p ls') (hsub : ls.Sublist ls') : Whole p ls := by
  induction hsub with
  | slnil => trivial
  | cons _ _ ih => exact ih h.2
  | cons_cons _ hsub ih =>
    refine ⟨h.1.imp_right fun hopen => ⟨hopen.1, ?_⟩, ih h.2⟩
    obtain ⟨-, rfl⟩ := hopen
    exact List.sublist_nil.1 hsub

theorem Whole.head_ne_nil {line : List α} (h : Whole p (line :: ls)) : line ≠ [] :=
  h.1.elim Ended.ne_nil fun hopen => hopen.1.1

end

end UwuMail.Lib
