/-
# Hash maps

A hash map is Mathlib's `AList`: a list of entries with distinct keys.  What `AList` lacks of the
interface of a hash map is `retain`, which sweeps out the entries a predicate does not hold of, and
`map`, which changes every value.
-/
import Mathlib

namespace UwuMail

/-- A hash map. -/
abbrev Dict (κ ν : Type) := AList fun _ : κ => ν

namespace Dict

variable {κ ν : Type}

/-- Keeps the entries the predicate holds of. -/
def retain (p : κ → ν → Bool) (m : Dict κ ν) : Dict κ ν :=
  ⟨m.entries.filter fun e => p e.1 e.2, m.nodupKeys.sublist List.filter_sublist⟩

/-- Changes every value. -/
def map (f : ν → ν) (m : Dict κ ν) : Dict κ ν where
  entries := m.entries.map fun e => ⟨e.1, f e.2⟩
  nodupKeys := by
    have hkeys : (m.entries.map fun e => (⟨e.1, f e.2⟩ : Sigma fun _ : κ => ν)).keys = m.entries.keys := by
      simp only [List.keys, List.map_map]
      rfl
    rw [List.NodupKeys, hkeys]
    exact m.nodupKeys

variable [DecidableEq κ]

theorem dlookup_map (f : ν → ν) (k : κ) : ∀ l : List (Sigma fun _ : κ => ν),
    (l.map fun e => (⟨e.1, f e.2⟩ : Sigma fun _ : κ => ν)).dlookup k = (l.dlookup k).map f
  | [] => rfl
  | e :: l => by
    obtain ⟨a, v⟩ := e
    by_cases ha : k = a
    · subst ha
      rw [List.map_cons, List.dlookup_cons_eq, List.dlookup_cons_eq, Option.map_some]
    · rw [List.map_cons, List.dlookup_cons_ne (a := k) l (s := ⟨a, v⟩) ha]
      exact (List.dlookup_cons_ne _ _ ha).trans (dlookup_map f k l)

@[simp] theorem lookup_map (f : ν → ν) (m : Dict κ ν) (k : κ) : (m.map f).lookup k = (m.lookup k).map f :=
  dlookup_map f k m.entries

theorem dlookup_filter (p : κ → ν → Bool) (k : κ) : ∀ l : List (Sigma fun _ : κ => ν), l.NodupKeys →
    (l.filter fun e => p e.1 e.2).dlookup k = (l.dlookup k).filter (p k)
  | [], _ => by simp
  | e :: l, h => by
    obtain ⟨hk, hl⟩ := List.nodupKeys_cons.1 h
    have ih := dlookup_filter p k l hl
    obtain ⟨a, v⟩ := e
    by_cases ha : k = a
    · subst ha
      have hnone : l.dlookup k = none := List.dlookup_eq_none.2 hk
      by_cases hp : p k v
      · rw [List.filter_cons_of_pos (by simpa using hp), List.dlookup_cons_eq, List.dlookup_cons_eq]
        exact (Option.filter_some_pos hp).symm
      · rw [List.filter_cons_of_neg (by simpa using hp), ih, hnone, List.dlookup_cons_eq]
        exact (Option.filter_some_neg (Bool.eq_false_iff.2 hp)).symm
    · rw [List.dlookup_cons_ne l _ ha]
      by_cases hp : p a v
      · rw [List.filter_cons_of_pos (by simpa using hp), List.dlookup_cons_ne _ _ ha, ih]
      · rw [List.filter_cons_of_neg (by simpa using hp), ih]

@[simp] theorem lookup_retain (p : κ → ν → Bool) (m : Dict κ ν) (k : κ) :
    (m.retain p).lookup k = (m.lookup k).filter (p k) :=
  dlookup_filter p k m.entries m.nodupKeys

/-- What is left when one key after the other is erased. -/
theorem lookup_foldl_erase {α : Type} (key : α → κ) (l : List α) (m : Dict κ ν) (k : κ) :
    (l.foldl (fun m a => m.erase (key a)) m).lookup k =
      if ∃ a ∈ l, key a = k then none else m.lookup k := by
  induction l generalizing m with
  | nil => simp
  | cons a l ih =>
    rw [List.foldl_cons, ih]
    by_cases hl : ∃ b ∈ l, key b = k
    · have hcons : ∃ b ∈ a :: l, key b = k := by
        obtain ⟨b, hb, hk⟩ := hl
        exact ⟨b, List.mem_cons_of_mem _ hb, hk⟩
      rw [if_pos hl, if_pos hcons]
    · rw [if_neg hl]
      by_cases ha : key a = k
      · subst ha
        rw [if_pos ⟨a, List.mem_cons_self, rfl⟩, AList.lookup_erase]
      · rw [AList.lookup_erase_ne (Ne.symm ha), if_neg]
        rintro ⟨b, hb, hk⟩
        rcases List.mem_cons.1 hb with rfl | hb
        · exact ha hk
        · exact hl ⟨b, hb, hk⟩

end Dict

end UwuMail
