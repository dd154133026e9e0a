/-
# Prefixes among neighbours

Words sorted as in a dictionary, prefixes first.  What begins with a word `p` stands together and
follows `p` directly: whatever lies between `p` and a continuation of it is a continuation of it
too.  So one word of a sorted list continues another just when SOME WORD CONTINUES ITS NEIGHBOUR.
-/
import Mathlib

namespace UwuMail.Lib

variable {α : Type} [LinearOrder α] {p q r : List α} {l : List (List α)}

/-- One word is a prefix of another, and not all of it. -/
def Within (p q : List α) : Prop := p <+: q ∧ p ≠ q

/-- A word of the list continues its neighbour. -/
def neighboursNest (l : List (List α)) : Bool :=
  (l.zip l.tail).any fun pair => decide (pair.1.length < pair.2.length) && pair.1.isPrefixOf pair.2

omit [LinearOrder α] in
theorem within_iff_length : Within p q ↔ p.length < q.length ∧ p <+: q := by
  constructor
  · rintro ⟨h, hne⟩
    exact ⟨lt_of_le_of_ne h.length_le fun heq => hne (h.eq_of_length heq), h⟩
  · rintro ⟨hlt, h⟩
    exact ⟨h, fun heq => absurd (congrArg List.length heq) hlt.ne⟩

theorem nil_le : [] ≤ p := by
  cases p with
  | nil => exact le_rfl
  | cons a p => exact le_of_lt List.Lex.nil

theorem cons_le_cons_iff {a b : α} : a :: p ≤ b :: q ↔ a < b ∨ a = b ∧ p ≤ q := by
  rw [le_iff_lt_or_eq, le_iff_lt_or_eq, List.cons_lt_cons_iff, List.cons.injEq]
  tauto

/-- A prefix comes first. -/
theorem le_of_starts (h : p <+: q) : p ≤ q := by
  obtain ⟨s, rfl⟩ := h
  induction p with
  | nil => exact nil_le
  | cons a p ih => exact List.cons_le_cons a ih

/-- What lies between a word and its continuation continues it. -/
theorem prefix_of_between (h : p <+: q) (hpr : p ≤ r) (hrq : r ≤ q) : p <+: r := by
  induction p generalizing q r with
  | nil => exact List.nil_prefix
  | cons a p ih =>
    obtain ⟨q', rfl, h'⟩ := List.cons_prefix_iff.1 h
    cases r with
    | nil => exact absurd (hpr.antisymm nil_le) (List.cons_ne_nil a p)
    | cons b r =>
      rw [cons_le_cons_iff] at hpr hrq
      rcases hpr with hab | ⟨rfl, hpr⟩
      · rcases hrq with hba | ⟨rfl, -⟩
        · exact absurd hab hba.asymm
        · exact absurd hab (lt_irrefl _)
      · rcases hrq with haa | ⟨-, hrq⟩
        · exact absurd haa (lt_irrefl _)
        · exact List.cons_prefix_cons.2 ⟨rfl, ih h' hpr hrq⟩

/-- **Neighbours are enough**: in a sorted list a word continues another just when one continues the
word before it. -/
theorem neighboursNest_iff (hsorted : l.Pairwise (· ≤ ·)) :
    neighboursNest l = true ↔ ∃ p ∈ l, ∃ q ∈ l, Within p q := by
  induction l with
  | nil => simp [neighboursNest]
  | cons a l ih =>
    obtain ⟨hfirst, hrest⟩ := List.pairwise_cons.1 hsorted
    cases l with
    | nil =>
      have hnone : ¬ Within a a := fun h => h.2 rfl
      simp [neighboursNest, hnone]
    | cons b l =>
      have hstep : neighboursNest (a :: b :: l) = true ↔ Within a b ∨ neighboursNest (b :: l) = true := by
        simp [neighboursNest, within_iff_length]
      rw [hstep, ih hrest]
      constructor
      · rintro (h | ⟨p, hp, q, hq, h⟩)
        · exact ⟨a, List.mem_cons_self, b, List.mem_cons_of_mem _ List.mem_cons_self, h⟩
        · exact ⟨p, List.mem_cons_of_mem _ hp, q, List.mem_cons_of_mem _ hq, h⟩
      · rintro ⟨p, hp, q, hq, h⟩
        rcases List.mem_cons.1 hq with rfl | hq'
        · -- nothing that follows `q` is a prefix of it
          rcases List.mem_cons.1 hp with rfl | hp'
          · exact absurd rfl h.2
          · exact absurd ((le_of_starts h.1).antisymm (hfirst p hp')) h.2
        · rcases List.mem_cons.1 hp with rfl | hp'
          · -- the neighbour lies between the two
            have hbq : b ≤ q := by
              rcases List.mem_cons.1 hq' with rfl | hlater
              · exact le_rfl
              · exact (List.pairwise_cons.1 hrest).1 q hlater
            by_cases heq : p = b
            · exact .inr ⟨b, List.mem_cons_self, q, hq', heq ▸ h⟩
            · exact .inl ⟨prefix_of_between h.1 (hfirst b List.mem_cons_self) hbq, heq⟩
          · exact .inr ⟨p, hp', q, hq', h⟩

end UwuMail.Lib
