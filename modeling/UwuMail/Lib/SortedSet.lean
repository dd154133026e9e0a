/-
# Ordered sets as strictly increasing lists

A `SortedSet` is an ordered set that can be ITERATED: its elements are a strictly increasing
list, so two sets with the same members are the same value and a loop over a set runs in
ascending order.  The sortedness is a field of the structure, so no operation can build a
list with a duplicate or out of order, and equality of sets is decidable equality of lists.

Everything is structural recursion on lists.  A closed set therefore evaluates in the kernel,
which the well-founded `List.mergeSort` behind `Finset.sort` does not.
-/
import Mathlib

namespace UwuMail

/-- A finite set as the strictly increasing list of its elements. -/
structure SortedSet (α : Type) [LinearOrder α] where
  elems : List α
  sorted : elems.Pairwise (· < ·)

namespace SortedSet

variable {α : Type} [LinearOrder α]

instance : DecidableEq (SortedSet α) := fun s t =>
  decidable_of_iff (s.elems = t.elems) ⟨fun h => by cases s; cases t; simp_all, fun h => by rw [h]⟩

instance : Membership α (SortedSet α) := ⟨fun s x => x ∈ s.elems⟩

instance (x : α) (s : SortedSet α) : Decidable (x ∈ s) :=
  inferInstanceAs (Decidable (x ∈ s.elems))

variable {s : SortedSet α}

theorem mem_def {x : α} : x ∈ s ↔ x ∈ s.elems := Iff.rfl

@[simp] theorem mem_elems {x : α} : x ∈ s.elems ↔ x ∈ s := Iff.rfl

theorem nodup (s : SortedSet α) : s.elems.Nodup :=
  s.sorted.imp fun h => ne_of_lt h

/-! ## 1. Extensionality -/

/-- Two strictly increasing lists with the same members are equal. -/
theorem eq_of_pairwise_lt : ∀ {l₁ l₂ : List α}, l₁.Pairwise (· < ·) → l₂.Pairwise (· < ·) →
    (∀ x, x ∈ l₁ ↔ x ∈ l₂) → l₁ = l₂ := by
  intro l₁ l₂ h₁ h₂ hmem
  have hp : l₁.Perm l₂ :=
    (List.perm_ext_iff_of_nodup (h₁.imp fun h => ne_of_lt h) (h₂.imp fun h => ne_of_lt h)).2 hmem
  exact hp.eq_of_pairwise (fun a b _ _ hab hba => absurd hba (not_lt_of_gt hab)) h₁ h₂

@[ext] theorem ext {s t : SortedSet α} (h : ∀ x, x ∈ s ↔ x ∈ t) : s = t := by
  obtain ⟨l₁, h₁⟩ := s
  obtain ⟨l₂, h₂⟩ := t
  have : l₁ = l₂ := eq_of_pairwise_lt h₁ h₂ h
  subst this
  rfl

/-! ## 2. The operations -/

/-- The set without elements. -/
def empty : SortedSet α := ⟨[], List.Pairwise.nil⟩

/-- Insertion into a strictly increasing list; an element that is there stays once. -/
def insertList (x : α) : List α → List α
  | [] => [x]
  | y :: ys => if x < y then x :: y :: ys else if x = y then y :: ys else y :: insertList x ys

theorem mem_insertList (x y : α) : ∀ l : List α, y ∈ insertList x l ↔ y = x ∨ y ∈ l
  | [] => by simp [insertList]
  | z :: l => by
    simp only [insertList]
    split
    · simp
    · split
      · rename_i h
        subst h
        simp
      · simp only [List.mem_cons, mem_insertList x y l]
        tauto

theorem insertList_sorted (x : α) : ∀ l : List α, l.Pairwise (· < ·) →
    (insertList x l).Pairwise (· < ·)
  | [], _ => by simp [insertList]
  | z :: l, h => by
    have hz := List.pairwise_cons.1 h
    simp only [insertList]
    split
    · rename_i hxz
      refine List.pairwise_cons.2 ⟨?_, h⟩
      intro y hy
      rcases List.mem_cons.1 hy with rfl | hy
      · exact hxz
      · exact lt_trans hxz (hz.1 y hy)
    · split
      · exact h
      · rename_i h1 h2
        refine List.pairwise_cons.2 ⟨?_, insertList_sorted x l hz.2⟩
        intro y hy
        rcases (mem_insertList x y l).1 hy with rfl | hy
        · exact lt_of_le_of_ne (not_lt.1 h1) (fun e => h2 e.symm)
        · exact hz.1 y hy

def insert (x : α) (s : SortedSet α) : SortedSet α :=
  ⟨insertList x s.elems, insertList_sorted x s.elems s.sorted⟩

/-- The elements that satisfy a test. -/
def filter (p : α → Bool) (s : SortedSet α) : SortedSet α :=
  ⟨s.elems.filter p, s.sorted.sublist List.filter_sublist⟩

def remove (x : α) (s : SortedSet α) : SortedSet α := s.filter (fun y => y ≠ x)

def difference (s t : SortedSet α) : SortedSet α := s.filter (fun x => x ∉ t)

/-- The set of a list's elements. -/
def ofList (l : List α) : SortedSet α := l.foldr insert empty

def symmetricDifference (s t : SortedSet α) : SortedSet α :=
  ofList ((s.difference t).elems ++ (t.difference s).elems)

/-- The number of elements. -/
def len (s : SortedSet α) : Nat := s.elems.length

def isEmpty (s : SortedSet α) : Bool := s.elems.isEmpty

/-! ## 3. What each operation holds -/

@[simp] theorem not_mem_empty {x : α} : x ∉ (empty : SortedSet α) := by simp [empty, mem_def]

@[simp] theorem mem_insert {x y : α} : y ∈ s.insert x ↔ y = x ∨ y ∈ s :=
  mem_insertList x y s.elems

@[simp] theorem mem_filter {p : α → Bool} {x : α} {s : SortedSet α} :
    x ∈ s.filter p ↔ x ∈ s ∧ p x = true := List.mem_filter

@[simp] theorem mem_remove {x y : α} : y ∈ s.remove x ↔ y ∈ s ∧ y ≠ x := by
  simp [remove]

@[simp] theorem mem_difference {x : α} {s t : SortedSet α} :
    x ∈ s.difference t ↔ x ∈ s ∧ x ∉ t := by
  simp [difference]

@[simp] theorem mem_ofList {x : α} {l : List α} : x ∈ ofList l ↔ x ∈ l := by
  induction l with
  | nil => simp [ofList]
  | cons y l ih =>
    have : ofList (y :: l) = (ofList l).insert y := rfl
    rw [this, mem_insert, ih, List.mem_cons]

@[simp] theorem mem_symmetricDifference {x : α} {s t : SortedSet α} :
    x ∈ s.symmetricDifference t ↔ (x ∈ s ∧ x ∉ t) ∨ (x ∈ t ∧ x ∉ s) := by
  simp [symmetricDifference]

theorem isEmpty_iff : s.isEmpty = true ↔ ∀ x, x ∉ s := by
  simp [isEmpty, List.isEmpty_iff, List.eq_nil_iff_forall_not_mem]

theorem exists_mem_of_isEmpty (h : s.isEmpty = false) : ∃ x, x ∈ s := by
  by_contra hne
  push Not at hne
  rw [isEmpty_iff.2 hne] at h
  exact absurd h (by simp)

end SortedSet

end UwuMail
