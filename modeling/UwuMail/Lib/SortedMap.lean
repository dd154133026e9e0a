/-
# Ordered maps as lists sorted by key

The map that belongs to `SortedSet`: its entries are a list whose keys strictly increase, so a
loop over the map runs in the order of the keys and every key stands once.  `get?` and `insert`
are all a program asks of it; `get?_insert` and `mem_entries` are all a proof does.
-/
import Mathlib

namespace UwuMail

/-- A finite map as the list of its entries, by strictly increasing key. -/
structure SortedMap (κ ν : Type) [LinearOrder κ] where
  entries : List (κ × ν)
  sorted : entries.Pairwise (fun a b => a.1 < b.1)

namespace SortedMap

variable {κ ν : Type} [LinearOrder κ]

def empty : SortedMap κ ν := ⟨[], List.Pairwise.nil⟩

/-- The value of a key. -/
def get? (m : SortedMap κ ν) (k : κ) : Option ν :=
  (m.entries.find? fun e => decide (e.1 = k)).map (·.2)

/-- Puts an entry in its place; an entry of that key is replaced. -/
def insertList (k : κ) (v : ν) : List (κ × ν) → List (κ × ν)
  | [] => [(k, v)]
  | e :: es =>
    if k < e.1 then (k, v) :: e :: es
    else if k = e.1 then (k, v) :: es
    else e :: insertList k v es

theorem fst_mem_insertList {k : κ} {v : ν} {e : κ × ν} :
    ∀ {es : List (κ × ν)}, e ∈ insertList k v es → e.1 = k ∨ e ∈ es
  | [], h => by
    simp only [insertList, List.mem_singleton] at h
    exact .inl (by rw [h])
  | e' :: es, h => by
    simp only [insertList] at h
    split at h
    · rcases List.mem_cons.1 h with rfl | h
      · exact .inl rfl
      · exact .inr h
    · split at h
      · rcases List.mem_cons.1 h with rfl | h
        · exact .inl rfl
        · exact .inr (List.mem_cons_of_mem _ h)
      · rcases List.mem_cons.1 h with rfl | h
        · exact .inr List.mem_cons_self
        · rcases fst_mem_insertList h with hk | h
          · exact .inl hk
          · exact .inr (List.mem_cons_of_mem _ h)

theorem insertList_sorted (k : κ) (v : ν) : ∀ es : List (κ × ν),
    es.Pairwise (fun a b => a.1 < b.1) → (insertList k v es).Pairwise (fun a b => a.1 < b.1)
  | [], _ => by simp [insertList]
  | e :: es, h => by
    obtain ⟨he, hes⟩ := List.pairwise_cons.1 h
    simp only [insertList]
    split
    · rename_i hk
      refine List.pairwise_cons.2 ⟨?_, h⟩
      intro e' he'
      rcases List.mem_cons.1 he' with rfl | he'
      · exact hk
      · exact lt_trans hk (he e' he')
    · split
      · rename_i hk
        exact List.pairwise_cons.2 ⟨fun e' he' => hk ▸ he e' he', hes⟩
      · rename_i h₁ h₂
        refine List.pairwise_cons.2 ⟨?_, insertList_sorted k v es hes⟩
        intro e' he'
        rcases fst_mem_insertList he' with hk | he'
        · exact hk ▸ lt_of_le_of_ne (not_lt.1 h₁) (fun h => h₂ h.symm)
        · exact he e' he'

def insert (m : SortedMap κ ν) (k : κ) (v : ν) : SortedMap κ ν :=
  ⟨insertList k v m.entries, insertList_sorted k v m.entries m.sorted⟩

/-- The number of entries. -/
def len (m : SortedMap κ ν) : Nat := m.entries.length

def isEmpty (m : SortedMap κ ν) : Bool := m.entries.isEmpty

@[simp] theorem get?_empty (k : κ) : (empty : SortedMap κ ν).get? k = none := rfl

theorem find?_insertList (k k' : κ) (v : ν) : ∀ es : List (κ × ν),
    ((insertList k v es).find? fun e => decide (e.1 = k')).map (·.2) =
      if k' = k then some v else (es.find? fun e => decide (e.1 = k')).map (·.2)
  | [] => by
    by_cases h : k' = k
    · subst h
      simp [insertList]
    · simp [insertList, h, Ne.symm h]
  | e :: es => by
    have ih := find?_insertList k k' v es
    simp only [insertList]
    split
    · by_cases h : k' = k
      · subst h
        simp
      · simp [List.find?_cons, h, Ne.symm h]
    · split
      · rename_i hk
        by_cases h : k' = k
        · subst h
          simp
        · have h' : ¬ e.1 = k' := fun e' => h (e' ▸ hk.symm)
          simp [h, Ne.symm h, h']
      · rename_i h₁ h₂
        by_cases h : e.1 = k'
        · subst h
          have h' : ¬ e.1 = k := fun e' => h₂ e'.symm
          simp [h']
        · simp only [List.find?_cons, h, decide_false]
          exact ih

/-- Inserting changes the value of one key. -/
@[simp] theorem get?_insert (m : SortedMap κ ν) (k k' : κ) (v : ν) :
    (m.insert k v).get? k' = if k' = k then some v else m.get? k' :=
  find?_insertList k k' v m.entries

theorem nodup_keys (m : SortedMap κ ν) : (m.entries.map (·.1)).Nodup :=
  List.pairwise_map.2 (m.sorted.imp fun h => ne_of_lt h)

/-- The entries are the values of the keys. -/
theorem mem_entries {m : SortedMap κ ν} {k : κ} {v : ν} :
    (k, v) ∈ m.entries ↔ m.get? k = some v := by
  unfold get?
  constructor
  · intro h
    cases hf : m.entries.find? fun e => decide (e.1 = k) with
    | none => exact absurd (List.find?_eq_none.1 hf (k, v) h) (by simp)
    | some e =>
      have he := List.mem_of_find?_eq_some hf
      have hk : e.1 = k := by simpa using List.find?_some hf
      have heq : e = (k, v) := List.inj_on_of_nodup_map m.nodup_keys he h hk
      simp [heq]
  · intro h
    obtain ⟨e, he, hv⟩ := Option.map_eq_some_iff.1 h
    have hk : e.1 = k := by simpa using List.find?_some he
    have := List.mem_of_find?_eq_some he
    rw [← hk, ← hv]
    exact this

/-- What an insertion leaves is the new entry, or was there. -/
theorem mem_insert {m : SortedMap κ ν} {k : κ} {v : ν} {e : κ × ν} (h : e ∈ (m.insert k v).entries) :
    e = (k, v) ∨ e ∈ m.entries := by
  obtain ⟨k', v'⟩ := e
  rw [mem_entries, get?_insert] at h
  split at h
  · rename_i hk
    cases h
    exact .inl (hk ▸ rfl)
  · exact .inr (mem_entries.2 h)

theorem length_insertList (k : κ) (v : ν) : ∀ es : List (κ × ν), es.Pairwise (fun a b => a.1 < b.1) →
    (insertList k v es).length = if k ∈ es.map (·.1) then es.length else es.length + 1
  | [], _ => by simp [insertList]
  | e :: es, h => by
    obtain ⟨he, hes⟩ := List.pairwise_cons.1 h
    have ih := length_insertList k v es hes
    simp only [insertList]
    split
    · rename_i hk
      have hno : k ∉ (e :: es).map (·.1) := by
        intro hmem
        obtain ⟨e', he', rfl⟩ := List.mem_map.1 hmem
        rcases List.mem_cons.1 he' with rfl | he'
        · exact lt_irrefl _ hk
        · exact lt_asymm hk (he e' he')
      rw [if_neg hno]
      rfl
    · split
      · rename_i hk
        simp [hk]
      · rename_i hk
        rw [List.length_cons, ih]
        split <;> simp_all

/-- A new key is one entry more. -/
theorem len_insert (m : SortedMap κ ν) (k : κ) (v : ν) :
    (m.insert k v).len = if (m.get? k).isNone then m.len + 1 else m.len := by
  have hkeys : k ∈ m.entries.map (·.1) ↔ (m.get? k).isNone = false := by
    rw [Option.isNone_eq_false_iff, Option.isSome_iff_exists]
    constructor
    · intro h
      obtain ⟨e, he, rfl⟩ := List.mem_map.1 h
      exact ⟨e.2, mem_entries.1 he⟩
    · rintro ⟨v, hv⟩
      exact List.mem_map.2 ⟨(k, v), mem_entries.2 hv, rfl⟩
  refine (length_insertList k v m.entries m.sorted).trans ?_
  by_cases hnew : (m.get? k).isNone = true
  · rw [if_pos hnew, if_neg (by rw [hkeys, hnew]; simp)]
    rfl
  · rw [if_neg hnew, if_pos (hkeys.2 (by simpa only [Bool.not_eq_true] using hnew))]
    rfl

theorem isEmpty_eq (m : SortedMap κ ν) : m.isEmpty = true ↔ m.len = 0 := by
  simp [isEmpty, len]

/-- Two keys of a map with one entry are the same. -/
theorem key_unique {m : SortedMap κ ν} {k k' : κ} (h : m.len ≤ 1) (hk : (m.get? k).isSome)
    (hk' : (m.get? k').isSome) : k = k' := by
  obtain ⟨v, hv⟩ := Option.isSome_iff_exists.1 hk
  obtain ⟨v', hv'⟩ := Option.isSome_iff_exists.1 hk'
  have hmem := mem_entries.2 hv
  have hmem' := mem_entries.2 hv'
  have hlen : m.entries.length ≤ 1 := h
  match m.entries, hlen, hmem, hmem' with
  | [e], _, hmem, hmem' =>
    have heq := (List.mem_singleton.1 hmem).trans (List.mem_singleton.1 hmem').symm
    exact congrArg Prod.fst heq

end SortedMap

end UwuMail
