/-
# Pieces of a list

What is left of a list when the elements of one kind are taken off its two ends, and what stands
between two separators.  `trim_eq_self` says when nothing is taken off, so that trimming twice is
trimming once.
-/
import Mathlib.Data.List.DropRight

namespace UwuMail.Lib

variable {α : Type} {p : α → Bool} {l : List α}

/-- What is between the first and the last element that is not `p`. -/
def trim (p : α → Bool) (l : List α) : List α := (l.dropWhile p).rdropWhile p

theorem trim_eq_self (hhead : ∀ x ∈ l.head?, p x = false) (hlast : ∀ x ∈ l.getLast?, p x = false) :
    trim p l = l := by
  have hdrop : l.dropWhile p = l := by
    cases l with
    | nil => rfl
    | cons x l => exact List.dropWhile_cons_of_neg (by rw [hhead x rfl]; exact Bool.false_ne_true)
  rw [trim, hdrop, List.rdropWhile_eq_self_iff]
  intro hne
  rw [hlast _ (List.getLast?_eq_getLast_of_ne_nil hne)]
  exact Bool.false_ne_true

theorem head_trim (x : α) (h : x ∈ (trim p l).head?) : p x = false := by
  obtain ⟨rest, hrest⟩ : ∃ rest, l.dropWhile p = x :: rest := by
    have hstart : trim p l <+: l.dropWhile p := List.rdropWhile_prefix p _
    obtain ⟨after, hafter⟩ := hstart
    rw [Option.mem_def, List.head?_eq_some_iff] at h
    obtain ⟨rest, hrest⟩ := h
    exact ⟨rest ++ after, by rw [← hafter, hrest, List.cons_append]⟩
  have hhead := List.dropWhile_get_zero_not p l (by rw [hrest]; exact Nat.succ_pos _)
  simp only [hrest, List.get_eq_getElem, List.getElem_cons_zero] at hhead
  exact Bool.eq_false_iff.2 hhead

theorem last_trim (x : α) (h : x ∈ (trim p l).getLast?) : p x = false := by
  have hne : trim p l ≠ [] := by
    intro hnil
    rw [hnil] at h
    cases h
  have hlast := List.rdropWhile_last_not p (l.dropWhile p) hne
  rw [Option.mem_def, List.getLast?_eq_getLast_of_ne_nil hne, Option.some.injEq] at h
  rw [← h]
  exact Bool.eq_false_iff.2 hlast

/-- Trimming twice is trimming once. -/
@[simp] theorem trim_trim : trim p (trim p l) = trim p l := trim_eq_self head_trim last_trim

/-- What is taken off is of that kind. -/
theorem exists_trim (p : α → Bool) (l : List α) :
    ∃ a b, l = a ++ trim p l ++ b ∧ (∀ x ∈ a, p x = true) ∧ ∀ x ∈ b, p x = true := by
  refine ⟨l.takeWhile p, (l.dropWhile p).rtakeWhile p, ?_, fun x hx => List.mem_takeWhile_imp hx, ?_⟩
  · rw [List.append_assoc, trim, List.rdropWhile_append_rtakeWhile, List.takeWhile_append_dropWhile]
  · intro x hx
    exact List.mem_rtakeWhile_imp hx

theorem mem_of_mem_trim {x : α} (h : x ∈ trim p l) : x ∈ l :=
  (List.dropWhile_sublist p).subset ((List.rdropWhile_prefix p _).sublist.subset h)

/-- Trimming looks only at the kind of an element. -/
theorem trim_map {β : Type} {q : β → Bool} {f : α → β} (h : ∀ x, q (f x) = p x) : trim q (l.map f) =
    (trim p l).map f := by
  have hcomp : q ∘ f = p := funext h
  rw [trim, trim, List.dropWhile_map, hcomp, List.rdropWhile, List.rdropWhile, ← List.map_reverse,
    List.dropWhile_map,
    hcomp, ← List.map_reverse]

/-- A piece between two separators holds none. -/
theorem notMem_of_mem_splitOn [DecidableEq α] {x : α} {piece : List α} (h : piece ∈ l.splitOn x) :
    x ∉ piece := by
  induction l generalizing piece with
  | nil =>
    rw [List.splitOn_nil, List.mem_singleton] at h
    rw [h]
    exact List.not_mem_nil
  | cons c l ih =>
    rw [List.splitOn_cons_eq_if_modifyHead] at h
    split at h
    next =>
      obtain rfl | h := List.mem_cons.1 h
      · exact List.not_mem_nil
      · exact ih h
    next hc =>
      obtain ⟨first, rest, hsplit⟩ := List.exists_cons_of_ne_nil (List.splitOn_ne_nil x l)
      rw [hsplit] at ih h
      obtain rfl | h := List.mem_cons.1 h
      · rw [List.mem_cons, not_or]
        exact ⟨fun heq => hc (beq_iff_eq.2 heq.symm), ih List.mem_cons_self⟩
      · exact ih (List.mem_cons_of_mem _ h)

end UwuMail.Lib
