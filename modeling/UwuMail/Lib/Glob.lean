/-
# Patterns of letters and wildcards

A pattern is a list of symbols: a letter stands for itself, a wildcard for any run of the letters it
allows.  A word matches when it can be cut into pieces, one for each symbol.

A matcher that reads the word once keeps, for each position of the pattern, whether the word read so
far reaches it (`Reached`): the symbols before the position have taken all of it, or the wildcard AT
the position is taking.  `reached_snoc` says how one more letter changes these positions, which is
all that such a matcher has to do.
-/
import Mathlib.Data.List.Basic
import Mathlib.Data.List.Forall2

namespace UwuMail.Glob

inductive Sym (α : Type) where
  | one (a : α)
  | run (allows : α → Bool)

variable {α : Type} {p q : List (Sym α)} {x : Sym α} {a c : α} {w piece : List α} {f : α → Bool}
  {i j : Nat}

/-- The symbol stands for the piece. -/
def Sym.Takes : Sym α → List α → Prop
  | .one a, piece => piece = [a]
  | .run allows, piece => ∀ c ∈ piece, allows c = true

/-- The word can be cut into pieces, one for each symbol of the pattern. -/
def Splits (p : List (Sym α)) (w : List α) : Prop :=
  ∃ pieces, List.Forall₂ Sym.Takes p pieces ∧ pieces.flatten = w

@[simp] theorem splits_nil : Splits ([] : List (Sym α)) w ↔ w = [] := by
  constructor
  · rintro ⟨pieces, hpieces, rfl⟩
    cases hpieces
    rfl
  · rintro rfl
    exact ⟨[], .nil, rfl⟩

theorem splits_concat : Splits (p ++ [x]) w ↔ ∃ u v, w = u ++ v ∧ Splits p u ∧ x.Takes v := by
  constructor
  · rintro ⟨pieces, hpieces, rfl⟩
    have hfront := (List.forall₂_take_append _ _ _ hpieces.flip).flip
    have hback := (List.forall₂_drop_append _ _ _ hpieces.flip).flip
    generalize hlast : pieces.drop p.length = last at hback
    cases hback with
    | cons hx hnone =>
      rename_i v rest
      cases hnone
      refine ⟨(pieces.take p.length).flatten, v, ?_, ⟨_, hfront, rfl⟩, hx⟩
      calc pieces.flatten = (pieces.take p.length ++ pieces.drop p.length).flatten := by
            rw [List.take_append_drop]
        _ = _ := by rw [hlast]; simp
  · rintro ⟨u, v, rfl, ⟨pieces, hpieces, rfl⟩, hx⟩
    exact ⟨pieces ++ [v], List.rel_append hpieces (.cons hx .nil), by simp⟩

theorem splits_concat_one : Splits (p ++ [.one a]) (w ++ [c]) ↔ a = c ∧ Splits p w := by
  rw [splits_concat]
  constructor
  · rintro ⟨u, v, hw, hu, rfl⟩
    obtain ⟨rfl, hac⟩ := List.append_inj' hw rfl
    exact ⟨(List.cons.inj hac).1.symm, hu⟩
  · rintro ⟨rfl, hw⟩
    exact ⟨w, [a], rfl, hw, rfl⟩

/-- A wildcard may take nothing. -/
theorem Splits.concat_run (h : Splits p w) : Splits (p ++ [.run f]) w :=
  splits_concat.2 ⟨w, [], (List.append_nil w).symm, h, fun _ hc => absurd hc List.not_mem_nil⟩

theorem splits_concat_run :
    Splits (p ++ [.run f]) (w ++ [c]) ↔ Splits p (w ++ [c]) ∨ f c = true ∧ Splits (p ++ [.run f]) w := by
  constructor
  · intro h
    obtain ⟨u, v, hw, hu, hv⟩ := splits_concat.1 h
    -- the last letter is the wildcard's, or the wildcard takes nothing
    rcases List.eq_nil_or_concat v with rfl | ⟨v, d, rfl⟩
    · left
      rwa [hw, List.append_nil]
    · right
      rw [List.concat_eq_append, ← List.append_assoc] at hw
      obtain ⟨rfl, hcd⟩ := List.append_inj' hw rfl
      obtain rfl := (List.cons.inj hcd).1
      refine ⟨hv c (by simp), splits_concat.2 ⟨u, v, rfl, hu, fun d hd => hv d (by simp [hd])⟩⟩
  · rintro (h | ⟨hc, h⟩)
    · exact h.concat_run
    · obtain ⟨u, v, rfl, hu, hv⟩ := splits_concat.1 h
      refine splits_concat.2 ⟨u, v ++ [c], by simp, hu, fun d hd => ?_⟩
      rcases List.mem_append.1 hd with hd | hd
      · exact hv d hd
      · rwa [List.mem_singleton.1 hd]

theorem splits_concat_empty : Splits (p ++ [x]) [] ↔ Splits p [] ∧ ∃ f, x = .run f := by
  constructor
  · intro h
    obtain ⟨u, v, hw, hu, hv⟩ := splits_concat.1 h
    obtain ⟨rfl, rfl⟩ := List.append_eq_nil_iff.1 hw.symm
    cases x with
    | one a => cases hv
    | run f => exact ⟨hu, f, rfl⟩
  · rintro ⟨h, f, rfl⟩
    exact h.concat_run

/-! ## Positions -/

/-- The word read so far reaches the position: the symbols before it take all of the word, or the
wildcard at the position does with them. -/
def Reached (p : List (Sym α)) (w : List α) (i : Nat) : Prop :=
  match p[i]? with
  | some (.run _) => Splits (p.take (i + 1)) w
  | _ => Splits (p.take i) w

theorem take_succ (h : p[i]? = some x) : p.take (i + 1) = p.take i ++ [x] := by
  rw [List.take_add_one, h]
  rfl

theorem reached_run (h : p[i]? = some (.run f)) : Reached p w i ↔ Splits (p.take i ++ [.run f]) w := by
  rw [Reached, h, ← take_succ h]

theorem reached_one (h : p[i]? = some (.one a)) : Reached p w i ↔ Splits (p.take i) w := by
  rw [Reached, h]

theorem reached_length : Reached p w p.length ↔ Splits p w := by
  simp [Reached]

theorem reached_empty : Reached p [] i ↔ Splits (p.take i) [] := by
  unfold Reached
  split
  · rename_i hx
    rw [take_succ hx, splits_concat_empty]
    exact and_iff_left ⟨_, rfl⟩
  · rfl

theorem splits_take_succ_empty (h : p[i]? = some x) :
    Splits (p.take (i + 1)) [] ↔ Splits (p.take i) [] ∧ ∃ f, x = .run f := by
  rw [take_succ h, splits_concat_empty]

/-- One more letter takes the symbols before a position when the last of them takes it. -/
theorem splits_take_succ (h : p[i]? = some x) : Splits (p.take (i + 1)) (w ++ [c]) ↔
    (x = .one c ∧ Reached p w i) ∨ (∃ f, x = .run f) ∧ Reached p (w ++ [c]) i := by
  rw [take_succ h]
  cases x with
  | one a =>
    rw [splits_concat_one, reached_one h]
    simp
  | run f => simp [reached_run h]

/-- The wildcard at the position takes the letter. -/
def Stays (p : List (Sym α)) (c : α) (i : Nat) : Prop := ∃ f, p[i]? = some (.run f) ∧ f c = true

theorem reached_concat : Reached p (w ++ [c]) i ↔
    Stays p c i ∧ Reached p w i ∨ Splits (p.take i) (w ++ [c]) := by
  cases hx : p[i]? with
  | none => simp [Reached, Stays, hx]
  | some x =>
    cases x with
    | one a => simp [Reached, Stays, hx]
    | run f =>
      rw [reached_run hx, reached_run hx, splits_concat_run, or_comm]
      simp [Stays, hx]

/-- **One more letter.**  A position is reached when its wildcard takes the letter, when the symbol
before it is the letter, or when the symbol before it is a wildcard and reached itself. -/
theorem reached_concat_zero : Reached p (w ++ [c]) 0 ↔ Stays p c 0 ∧ Reached p w 0 := by
  rw [reached_concat]
  simp

theorem reached_concat_succ (h : p[i]? = some x) : Reached p (w ++ [c]) (i + 1) ↔
    (Stays p c (i + 1) ∧ Reached p w (i + 1) ∨ x = .one c ∧ Reached p w i) ∨
      (∃ f, x = .run f) ∧ Reached p (w ++ [c]) i := by
  rw [reached_concat, splits_take_succ h, or_assoc]

/-- A word that reaches no position is no beginning of a word that matches. -/
theorem not_reached (h : ∀ i ≤ p.length, ¬ Reached p w i) : ∀ i ≤ p.length, ¬ Reached p (w ++ [c]) i := by
  intro i hi
  induction i with
  | zero =>
    rw [reached_concat_zero]
    exact fun hr => h 0 hi hr.2
  | succ i ih =>
    have hx : p[i]? = some p[i] := List.getElem?_eq_getElem hi
    rw [reached_concat_succ hx]
    rintro ((⟨-, hr⟩ | ⟨-, hr⟩) | ⟨-, hr⟩)
    · exact h (i + 1) hi hr
    · exact h i (Nat.le_of_succ_le hi) hr
    · exact ih (Nat.le_of_succ_le hi) hr

end UwuMail.Glob
