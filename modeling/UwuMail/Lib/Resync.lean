/-
# Catching up by sequence numbers

A server keeps values under keys.  Every value carries the number of the change that last touched
it, and a key whose value was taken away leaves a TOMBSTONE with the number of that change.  A
client that saw everything at number `since` asks for what is newer, drops the keys it is told are
gone and writes the values it is given over its own (`Slots.patch`).

`Covers since old now` is what makes that work: a value that is not newer is the one the client
has, and a key the client has a value for and the server has not left a newer tombstone.  It holds
at the moment the client looked, and any change that stamps what it touches keeps it.
-/
import Mathlib

namespace UwuMail

/-- What a server has under each key: the value and its number, and the numbers of tombstones. -/
structure Slots (κ V : Type) where
  present : κ → Option (V × Int)
  gone : κ → List Int

namespace Slots

variable {κ V : Type}

/-- The values without their numbers. -/
def view (s : Slots κ V) (k : κ) : Option V := (s.present k).map (·.1)

/-- Whether the key left a tombstone after `since`. -/
def goneSince (s : Slots κ V) (since : Int) (k : κ) : Bool :=
  (s.gone k).any fun m => decide (since < m)

/-- What a client makes of its old values: first what is gone goes, then what is new comes. -/
def patch (now : Slots κ V) (since : Int) (old : κ → Option V) (k : κ) : Option V :=
  let kept := if now.goneSince since k then none else old k
  match now.present k with
  | some (v, m) => if since < m then some v else kept
  | none => kept

/-- Nothing changed after `since` without a trace. -/
structure Covers (since : Int) (old : κ → Option V) (now : Slots κ V) : Prop where
  unstamped : ∀ k v m, now.present k = some (v, m) → m ≤ since → old k = some v
  tombstone : ∀ k, now.present k = none → old k ≠ none → ∃ m ∈ now.gone k, since < m

/-- A key has a value or tombstones, not both. -/
def Apart (s : Slots κ V) : Prop := ∀ k, s.present k ≠ none → s.gone k = []

/-- A change with the number `m`: each key is as it was, or has a value with that number, or lost
its value and has a tombstone with that number. -/
structure Step (m : Int) (s s' : Slots κ V) : Prop where
  slot : ∀ k, s'.present k = s.present k ∨ (∃ v, s'.present k = some (v, m)) ∨
    (s'.present k = none ∧ m ∈ s'.gone k)
  kept : ∀ k, ∀ n ∈ s.gone k, n ∈ s'.gone k ∨ m ∈ s'.gone k

variable {since m : Int} {old : κ → Option V} {s s' : Slots κ V}

/-- The moment the client looked. -/
theorem Covers.start (s : Slots κ V) : Covers since s.view s where
  unstamped := by
    intro k v m h _
    rw [view, h]
    rfl
  tombstone := by
    intro k h hold
    rw [view, h] at hold
    exact absurd rfl hold

/-- A later change keeps it. -/
theorem Covers.step (h : Covers since old s) (st : Step m s s') (hm : since < m) :
    Covers since old s' := by
  refine ⟨?_, ?_⟩
  · intro k v n hk hn
    rcases st.slot k with hsame | ⟨v', hnew⟩ | ⟨hnone, -⟩
    · exact h.unstamped k v n (hsame ▸ hk) hn
    · rw [hnew] at hk
      cases hk
      omega
    · rw [hnone] at hk
      cases hk
  · intro k hk hold
    rcases st.slot k with hsame | ⟨v', hnew⟩ | ⟨-, hgone⟩
    · obtain ⟨n, hn, hlt⟩ := h.tombstone k (hsame ▸ hk) hold
      rcases st.kept k n hn with hn | hn
      · exact ⟨n, hn, hlt⟩
      · exact ⟨m, hn, hm⟩
    · rw [hnew] at hk
      cases hk
    · exact ⟨m, hgone, hm⟩

/-- **Catching up is exact.** -/
theorem Covers.patch_eq (h : Covers since old s) (ha : s.Apart) : s.patch since old = s.view := by
  funext k
  unfold patch view
  cases hk : s.present k with
  | none =>
    show (if s.goneSince since k then none else old k) = none
    split
    · rfl
    · rename_i hno
      by_contra hold
      obtain ⟨m, hm, hlt⟩ := h.tombstone k hk hold
      exact hno (List.any_eq_true.2 ⟨m, hm, by simpa using hlt⟩)
  | some p =>
    obtain ⟨v, m⟩ := p
    have hgone : s.goneSince since k = false := by
      rw [goneSince, ha k (by simp [hk])]
      rfl
    simp only [hgone, Bool.false_eq_true, if_false, Option.map_some]
    split
    · rfl
    · exact h.unstamped k v m hk (by omega)

end Slots
end UwuMail
