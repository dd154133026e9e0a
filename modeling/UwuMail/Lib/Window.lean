/-
# A window of cells

The last `n` values that went by: each is written to the cell after the one before it, and after the
last cell comes the first.

`copy` reads and writes at once, as one who unpacks repeats does.  It gives back what was in the
cells BEFORE it began, as long as it is not longer than the way back (`copy_eq`).
-/
import Mathlib.Data.Nat.ModEq

namespace UwuMail.Lib

structure Window (α : Type) where
  cells : List α
  /-- Where the next value goes. -/
  write : Nat

namespace Window

variable {α : Type} {n back k offset : Nat} {r : Window α} {a : α} {l : List α}

structure Sound (n : Nat) (r : Window α) : Prop where
  size : r.cells.length = n
  write_lt : r.write < n

def put (n : Nat) (r : Window α) (a : α) : Window α := ⟨r.cells.set r.write a, (r.write + 1) % n⟩

def putAll (n : Nat) (r : Window α) (l : List α) : Window α := l.foldl (put n) r

/-- `put`, with the check of the index. -/
def put? (n : Nat) (r : Window α) (a : α) : Option (Window α) := if r.write <
    r.cells.length then some (r.put n a) else none

/-- The value of a cell, counted around. -/
def get? (n : Nat) (r : Window α) (i : Nat) : Option α := r.cells[i % n]?

/-- `len` values from `offset + k` on, each written as soon as it is read. -/
def copy (n offset : Nat) : Nat → Nat → Window α → Option (List α × Window α)
  | _, 0, r => some ([], r)
  | k, len + 1, r => do
    let a ← r.get? n (offset + k)
    let r ← r.put? n a
    let (l, r) ← copy n offset (k + 1) len r
    some (a :: l, r)

/-! ## 1. One value -/

/-- A window that has seen `l` only, in a fresh buffer. -/
theorem Sound.filled (h : l.length < n) (a : α) :
    Sound n ⟨l ++ List.replicate (n - l.length) a, l.length⟩ := by
  constructor
  · rw [List.length_append, List.length_replicate, Nat.add_sub_cancel' h.le]
  · exact h

theorem Sound.put (h : Sound n r) (a : α) : Sound n (r.put n a) := by
  refine ⟨?_, Nat.mod_lt _ (Nat.zero_lt_of_lt h.write_lt)⟩
  rw [Window.put, List.length_set]
  exact h.size

theorem Sound.put?_eq (h : Sound n r) (a : α) : r.put? n a = some (r.put n a) :=
  if_pos (h.size ▸ h.write_lt)

theorem Sound.exists_get (h : Sound n r) (i : Nat) : ∃ a, r.get? n i = some a := by
  have hpos : 0 < n := Nat.zero_lt_of_lt h.write_lt
  have hlt : i % n < r.cells.length := by
    rw [h.size]
    exact Nat.mod_lt _ hpos
  exact ⟨_, List.getElem?_eq_getElem hlt⟩

theorem get?_put (h : i % n ≠ r.write) : (r.put n a).get? n i = r.get? n i :=
  List.getElem?_set_ne (Ne.symm h)

theorem Sound.putAll (h : Sound n r) (l : List α) : Sound n (r.putAll n l) := by
  induction l generalizing r with
  | nil => exact h
  | cons a l ih => exact ih (h.put a)

/-! ## 2. Many values -/

/-- **A copy never reads or writes outside of the cells.** -/
theorem Sound.copy (h : Sound n r) (offset k len : Nat) :
    ∃ l r', r.copy n offset k len = some (l, r') ∧ l.length = len ∧ Sound n r' := by
  induction len generalizing k r with
  | zero => exact ⟨[], r, rfl, rfl, h⟩
  | succ len ih =>
    obtain ⟨a, ha⟩ := h.exists_get (offset + k)
    obtain ⟨l, r', hcopy, hlen, hr'⟩ := ih (h.put a) (k + 1)
    refine ⟨a :: l, r', ?_, by rw [List.length_cons, hlen], hr'⟩
    rw [Window.copy, ha]
    dsimp only [Option.bind_eq_bind, Option.bind_some]
    rw [h.put?_eq, Option.bind_some, hcopy]
    rfl

/-- **What is copied** is what was `back` cells before the next one. -/
theorem Sound.copy_eq (h : Sound n r) (hback : back < n) (hlen : l.length ≤ back)
    (hoffset : (offset + k + back) % n = r.write)
      (hcells : ∀ j < l.length, r.get? n (offset + k + j) = l[j]?) :
    r.copy n offset k l.length = some (l, r.putAll n l) := by
  induction l generalizing k r with
  | nil => rfl
  | cons a l ih =>
    rw [List.length_cons] at hlen
    have ha : r.get? n (offset + k) = some a := hcells 0 (Nat.succ_pos _)
    have hrest : (r.put n a).copy n offset (k + 1) l.length = some (l, (r.put n a).putAll n l) := by
      refine ih (h.put a) (by omega) ?_ fun j hj => ?_
      · rw [show offset + (k + 1) + back = offset + k + back + 1 by omega, Nat.add_mod, hoffset,
          Window.put, ← Nat.add_mod_mod]
        simp
      · rw [show offset + (k + 1) + j = offset + k + (j + 1) by omega, get?_put]
        · rw [hcells (j + 1) (by rw [List.length_cons]; omega), List.getElem?_cons_succ]
        · -- the cell that is written now is read only after `back` values
          rw [← hoffset]
          intro heq
          have hmod : j + 1 ≡ back [MOD n] := Nat.ModEq.add_left_cancel' (offset + k) heq
          have := Nat.ModEq.eq_of_lt_of_lt hmod (by omega) hback
          omega
    rw [List.length_cons, Window.copy, ha]
    dsimp only [Option.bind_eq_bind, Option.bind_some]
    rw [h.put?_eq, Option.bind_some, hrest]
    rfl

end Window

end UwuMail.Lib
