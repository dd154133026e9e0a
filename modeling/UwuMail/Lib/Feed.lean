/-
# Change feeds

A collection whose entries are written and removed under a running number, and which tells a client
what changed after the number the client was at.  Every key has a CELL: an entry carries the number
it was written under, and a key that lost its entry carries the number it lost it under.

What makes a feed work is `Later`: from one state of a feed to the next, a cell is the one it was or
its stamp is newer than the whole feed was.  Every step has the property, it is transitive, and
`Later.patch` is what it is for: the values of THEN with the news since then are the values of NOW.
-/
import Mathlib

namespace UwuMail

/-- What a feed knows of one key. -/
inductive Cell (ν : Type) where
  | absent
  | live (value : ν) (stamp : Nat)
  | dead (stamp : Nat)

namespace Cell

variable {ν : Type}

def stamp : Cell ν → Nat
  | absent => 0
  | live _ n => n
  | dead n => n

def value : Cell ν → Option ν
  | live v _ => some v
  | _ => none

end Cell

/-- A feed: its number, and a cell for every key, none of which is newer than the number. -/
@[ext]
structure Feed (κ ν : Type) where
  change : Nat
  cell : κ → Cell ν
  stamped : ∀ k, (cell k).stamp ≤ change

namespace Feed

variable {κ ν : Type}

/-! ## 1. What a client reads -/

/-- The current value of a key. -/
def values (f : Feed κ ν) (k : κ) : Option ν := (f.cell k).value

/-- The value of a key written after `since`. -/
def changed (f : Feed κ ν) (since : Nat) (k : κ) : Option ν :=
  match f.cell k with
  | .live v n => if since < n then some v else none
  | _ => none

/-- Whether a key lost its entry after `since`. -/
def deleted (f : Feed κ ν) (since : Nat) (k : κ) : Bool :=
  match f.cell k with
  | .dead n => decide (since < n)
  | _ => false

/-- A client's values with the news: deleted keys are removed, changed ones overwritten. -/
def patch (f : Feed κ ν) (since : Nat) (held : κ → Option ν) (k : κ) : Option ν :=
  match f.changed since k with
  | some v => some v
  | none => if f.deleted since k then none else held k

/-! ## 2. What a feed goes through -/

/-- The number moves, and nothing else. -/
def touch (f : Feed κ ν) : Feed κ ν := ⟨f.change + 1, f.cell, fun k => (f.stamped k).trans (by simp)⟩

section Steps

variable [DecidableEq κ]

/-- One key's cell is replaced, under the next number. -/
def set (f : Feed κ ν) (k : κ) (c : Cell ν) (hc : c.stamp ≤ f.change + 1) : Feed κ ν where
  change := f.change + 1
  cell := Function.update f.cell k c
  stamped k' := by
    by_cases h : k' = k
    · subst h
      simpa using hc
    · simpa [h] using (f.stamped k').trans (by simp)

/-- An entry is written. -/
def put (f : Feed κ ν) (k : κ) (v : ν) : Feed κ ν := f.set k (.live v (f.change + 1)) le_rfl

/-- An entry is removed. -/
def remove (f : Feed κ ν) (k : κ) : Feed κ ν := f.set k (.dead (f.change + 1)) le_rfl

/-- What one write does to a feed. -/
inductive Step : Feed κ ν → Feed κ ν → Prop
  | same (f : Feed κ ν) : Step f f
  | touch (f : Feed κ ν) : Step f f.touch
  | put (f : Feed κ ν) (k : κ) (v : ν) : Step f (f.put k v)
  | remove (f : Feed κ ν) (k : κ) : Step f (f.remove k)

end Steps

/-! ## 3. Later states -/

/-- A cell is the one it was, or newer than the feed was. -/
structure Later (f g : Feed κ ν) : Prop where
  change : f.change ≤ g.change
  cell : ∀ k, g.cell k = f.cell k ∨ f.change < (g.cell k).stamp

variable {f g h : Feed κ ν}

theorem Later.refl (f : Feed κ ν) : Later f f := ⟨le_rfl, fun _ => .inl rfl⟩

theorem Later.trans (hfg : Later f g) (hgh : Later g h) : Later f h where
  change := hfg.change.trans hgh.change
  cell k := by
    rcases hgh.cell k with heq | hlt
    · rw [heq]
      exact hfg.cell k
    · exact .inr (lt_of_le_of_lt hfg.change hlt)

theorem Later.set [DecidableEq κ] (f : Feed κ ν) (k : κ) (c : Cell ν)
    (hc : c.stamp = f.change + 1) : Later f (f.set k c hc.le) where
  change := by simp [Feed.set]
  cell k' := by
    by_cases h : k' = k
    · subst h
      exact .inr (by simp [Feed.set, hc])
    · exact .inl (by simp [Feed.set, h])

theorem Step.later [DecidableEq κ] (h : Step f g) : Later f g := by
  cases h with
  | same => exact .refl f
  | touch => exact ⟨by simp [Feed.touch], fun _ => Or.inl rfl⟩
  | put k v => exact .set f k _ rfl
  | remove k => exact .set f k _ rfl

/-- **A client that applies the news is up to date.** -/
theorem Later.patch (h : Later f g) : g.patch f.change f.values = g.values := by
  funext k
  unfold Feed.patch Feed.changed Feed.deleted Feed.values
  rcases h.cell k with heq | hlt
  · -- the cell of then: its stamp is no news, and the client holds its value
    have hle := f.stamped k
    rw [heq]
    cases hc : f.cell k with
    | absent => simp [Cell.value]
    | live v n =>
      rw [hc] at hle
      simp only [Cell.value, Cell.stamp] at hle ⊢
      rw [if_neg (by omega)]
      simp
    | dead n =>
      rw [hc] at hle
      simp [Cell.value]
  · -- a newer one: whichever it is, it is in the news
    cases hc : g.cell k with
    | absent => simp [hc, Cell.stamp] at hlt
    | live v n =>
      rw [hc, Cell.stamp] at hlt
      simp [Cell.value, hlt]
    | dead n =>
      rw [hc, Cell.stamp] at hlt
      simp [Cell.value, hlt]

end Feed

end UwuMail
