/-
# Tables as lists of rows

A relational table is the list of its rows, in the order they were inserted.  The four
statements a program writes with are list functions: `UPDATE .. WHERE` maps, `DELETE .. WHERE`
filters, `INSERT` appends, and `INSERT OR IGNORE` / `INSERT OR REPLACE` append behind a test of
the row's key.  A primary key or unique index is the proposition `UniqueKey key t`: the keys of
the rows are pairwise different.

Nothing here knows what the rows are.  The lemmas say which rows a table holds after each
statement, and that every statement keeps a unique key it cannot break.
-/
import Mathlib

namespace UwuMail
namespace Table

variable {ρ κ β : Type}

/-! ## 1. The statements -/

/-- `UPDATE t SET .. WHERE p`. -/
def updateWhere (p : ρ → Bool) (f : ρ → ρ) (t : List ρ) : List ρ :=
  t.map fun r => if p r then f r else r

/-- `DELETE FROM t WHERE p`. -/
def deleteWhere (p : ρ → Bool) (t : List ρ) : List ρ := t.filter fun r => !p r

section Keyed

variable [DecidableEq κ]

/-- `INSERT OR IGNORE INTO t`: a row whose key is taken is not inserted. -/
def insertOrIgnore (key : ρ → κ) (row : ρ) (t : List ρ) : List ρ :=
  if t.any fun r => key r = key row then t else t ++ [row]

/-- `INSERT OR REPLACE INTO t`: a row with the same key goes first. -/
def insertOrReplace (key : ρ → κ) (row : ρ) (t : List ρ) : List ρ :=
  deleteWhere (fun r => key r = key row) t ++ [row]

/-- `INSERT OR IGNORE` of one row after the other. -/
def insertAll (key : ρ → κ) (rows t : List ρ) : List ρ :=
  rows.foldl (fun t row => insertOrIgnore key row t) t

/-- `INSERT OR REPLACE` of one row after the other. -/
def replaceAll (key : ρ → κ) (rows t : List ρ) : List ρ :=
  rows.foldl (fun t row => insertOrReplace key row t) t

end Keyed

/-- The rows of a table have pairwise different keys. -/
def UniqueKey (key : ρ → κ) (t : List ρ) : Prop := (t.map key).Nodup

/-! ## 2. Which rows a table holds afterwards -/

theorem mem_updateWhere {p : ρ → Bool} {f : ρ → ρ} {t : List ρ} {r : ρ} :
    r ∈ updateWhere p f t ↔ ∃ r₀ ∈ t, (if p r₀ then f r₀ else r₀) = r := List.mem_map

@[simp] theorem mem_deleteWhere {p : ρ → Bool} {t : List ρ} {r : ρ} :
    r ∈ deleteWhere p t ↔ r ∈ t ∧ p r = false := by
  simp [deleteWhere]

theorem deleteWhere_sublist (p : ρ → Bool) (t : List ρ) : (deleteWhere p t).Sublist t :=
  List.filter_sublist

/-- Deleting rows that are not there changes nothing. -/
theorem deleteWhere_eq_self {p : ρ → Bool} {t : List ρ} (h : ∀ r ∈ t, p r = false) :
    deleteWhere p t = t := by
  refine List.filter_eq_self.2 ?_
  intro r hr
  simp [h r hr]

/-- A column that no statement writes keeps its values. -/
theorem map_updateWhere {g : ρ → β} {f : ρ → ρ} (hf : ∀ r, g (f r) = g r) (p : ρ → Bool)
    (t : List ρ) : (updateWhere p f t).map g = t.map g := by
  rw [updateWhere, List.map_map]
  refine List.map_congr_left ?_
  intro r _
  simp only [Function.comp_apply]
  split
  · exact hf r
  · rfl

/-- Two updates of the same rows are one. -/
theorem updateWhere_updateWhere {p : ρ → Bool} {f g : ρ → ρ} (hp : ∀ r, p (f r) = p r)
    (t : List ρ) : updateWhere p g (updateWhere p f t) = updateWhere p (fun r => g (f r)) t := by
  rw [updateWhere, updateWhere, updateWhere, List.map_map]
  refine List.map_congr_left ?_
  intro r _
  by_cases h : p r = true <;> simp [h, hp]

/-- A selection on columns that no statement writes selects the rewritten rows. -/
theorem filter_updateWhere {q : ρ → Bool} {f : ρ → ρ} (hf : ∀ r, q (f r) = q r) (p : ρ → Bool)
    (t : List ρ) : (updateWhere p f t).filter q = updateWhere p f (t.filter q) := by
  rw [updateWhere, updateWhere, List.filter_map]
  congr 1
  refine List.filter_congr ?_
  intro r _
  simp only [Function.comp_apply]
  split
  · exact hf r
  · rfl

section Keyed

variable [DecidableEq κ] {key : ρ → κ} {row r : ρ} {t : List ρ}

theorem mem_insertOrIgnore :
    r ∈ insertOrIgnore key row t ↔ r ∈ t ∨ (r = row ∧ ∀ r' ∈ t, key r' ≠ key row) := by
  unfold insertOrIgnore
  split
  · rename_i h
    obtain ⟨r', hr', hk⟩ := List.any_eq_true.1 h
    simp only [decide_eq_true_eq] at hk
    constructor
    · exact .inl
    · rintro (hr | ⟨-, hno⟩)
      · exact hr
      · exact absurd hk (hno r' hr')
  · rename_i h
    have hno : ∀ r' ∈ t, key r' ≠ key row := fun r' hr' hk =>
      h (List.any_eq_true.2 ⟨r', hr', by simpa using hk⟩)
    simp only [List.mem_append, List.mem_singleton]
    constructor
    · rintro (hr | rfl)
      · exact .inl hr
      · exact .inr ⟨rfl, hno⟩
    · rintro (hr | ⟨rfl, -⟩)
      · exact .inl hr
      · exact .inr rfl

theorem mem_insertOrIgnore_of_mem (h : r ∈ t) : r ∈ insertOrIgnore key row t :=
  mem_insertOrIgnore.2 (.inl h)

/-- After `INSERT OR IGNORE` some row has the key, whichever row that is. -/
theorem exists_key_insertOrIgnore (key : ρ → κ) (row : ρ) (t : List ρ) :
    ∃ r ∈ insertOrIgnore key row t, key r = key row := by
  by_cases h : ∃ r ∈ t, key r = key row
  · obtain ⟨r, hr, hk⟩ := h
    exact ⟨r, mem_insertOrIgnore_of_mem hr, hk⟩
  · push Not at h
    exact ⟨row, mem_insertOrIgnore.2 (.inr ⟨rfl, h⟩), rfl⟩

theorem mem_insertOrReplace :
    r ∈ insertOrReplace key row t ↔ (r ∈ t ∧ key r ≠ key row) ∨ r = row := by
  simp [insertOrReplace]

/-! ### Several rows -/

variable {rows : List ρ}

@[simp] theorem insertAll_nil (key : ρ → κ) (t : List ρ) : insertAll key [] t = t := rfl

@[simp] theorem insertAll_cons (key : ρ → κ) (row : ρ) (rows t : List ρ) :
    insertAll key (row :: rows) t = insertAll key rows (insertOrIgnore key row t) := rfl

theorem insertAll_append (key : ρ → κ) (rows rows' t : List ρ) :
    insertAll key (rows ++ rows') t = insertAll key rows' (insertAll key rows t) :=
  List.foldl_append

theorem mem_insertAll_of_mem (h : r ∈ t) : r ∈ insertAll key rows t := by
  induction rows generalizing t with
  | nil => exact h
  | cons row rows ih => exact ih (mem_insertOrIgnore_of_mem h)

/-- A row is old, or new under a key that was free. -/
theorem mem_insertAll (h : r ∈ insertAll key rows t) :
    r ∈ t ∨ (r ∈ rows ∧ ∀ r' ∈ t, key r' ≠ key r) := by
  induction rows generalizing t with
  | nil => exact .inl h
  | cons row rows ih =>
    rcases ih h with hr | ⟨hr, hno⟩
    · rcases mem_insertOrIgnore.1 hr with hr | ⟨rfl, hno⟩
      · exact .inl hr
      · exact .inr ⟨List.mem_cons_self, hno⟩
    · exact .inr ⟨List.mem_cons_of_mem _ hr, fun r' hr' => hno r' (mem_insertOrIgnore_of_mem hr')⟩

/-- Every key that was offered is taken afterwards. -/
theorem exists_key_insertAll (h : r ∈ rows) : ∃ r' ∈ insertAll key rows t, key r' = key r := by
  induction rows generalizing t with
  | nil => exact absurd h (by simp)
  | cons row rows ih =>
    rcases List.mem_cons.1 h with rfl | h
    · obtain ⟨r', hr', hk⟩ := exists_key_insertOrIgnore key r t
      refine ⟨r', ?_, hk⟩
      rw [insertAll_cons]
      exact mem_insertAll_of_mem hr'
    · exact ih h

/-- The first row offered under a free key is in the table afterwards. -/
theorem mem_insertAll_first {before after : List ρ} (hno : ∀ r' ∈ t, key r' ≠ key r)
    (hfirst : ∀ r' ∈ before, key r' ≠ key r) : r ∈ insertAll key (before ++ r :: after) t := by
  rw [insertAll_append, insertAll_cons]
  refine mem_insertAll_of_mem (mem_insertOrIgnore.2 (.inr ⟨rfl, ?_⟩))
  intro r' hr'
  rcases mem_insertAll hr' with hr' | ⟨hr', -⟩
  · exact hno r' hr'
  · exact hfirst r' hr'

@[simp] theorem replaceAll_nil (key : ρ → κ) (t : List ρ) : replaceAll key [] t = t := rfl

theorem replaceAll_append (key : ρ → κ) (rows rows' t : List ρ) :
    replaceAll key (rows ++ rows') t = replaceAll key rows' (replaceAll key rows t) :=
  List.foldl_append

/-- Rows that agree wherever their keys do replace what had their keys. -/
theorem mem_replaceAll (hrows : ∀ r₁ ∈ rows, ∀ r₂ ∈ rows, key r₁ = key r₂ → r₁ = r₂) :
    r ∈ replaceAll key rows t ↔ (r ∈ t ∧ ∀ r' ∈ rows, key r' ≠ key r) ∨ r ∈ rows := by
  induction rows generalizing t with
  | nil => simp
  | cons row rows ih =>
    have ih := ih (t := insertOrReplace key row t)
      fun r₁ h₁ r₂ h₂ => hrows r₁ (List.mem_cons_of_mem _ h₁) r₂ (List.mem_cons_of_mem _ h₂)
    have hcons : replaceAll key (row :: rows) t = replaceAll key rows (insertOrReplace key row t) :=
      rfl
    rw [hcons, ih, mem_insertOrReplace]
    simp only [List.mem_cons, forall_eq_or_imp]
    constructor
    · rintro (⟨⟨hr, hk⟩ | rfl, hno⟩ | hr)
      · exact .inl ⟨hr, Ne.symm hk, hno⟩
      · exact .inr (.inl rfl)
      · exact .inr (.inr hr)
    · rintro (⟨hr, hk, hno⟩ | rfl | hr)
      · exact .inl ⟨.inl ⟨hr, Ne.symm hk⟩, hno⟩
      · by_cases hno : ∀ r' ∈ rows, key r' ≠ key r
        · exact .inl ⟨.inr rfl, hno⟩
        · push Not at hno
          obtain ⟨r', hr', hk⟩ := hno
          have := hrows r' (List.mem_cons_of_mem _ hr') r List.mem_cons_self hk
          exact .inr (this ▸ hr')
      · exact .inr hr

end Keyed

/-! ## 3. Unique keys -/

section Unique

variable {key : ρ → κ} {t : List ρ} {row r r' : ρ}

theorem UniqueKey.nil : UniqueKey key ([] : List ρ) := List.nodup_nil

/-- Two rows with the same key are the same row. -/
theorem UniqueKey.eq (h : UniqueKey key t) (hr : r ∈ t) (hr' : r' ∈ t) (hk : key r = key r') :
    r = r' := List.inj_on_of_nodup_map h hr hr' hk

theorem UniqueKey.nodup (h : UniqueKey key t) : t.Nodup := List.Nodup.of_map _ h

theorem UniqueKey.sublist {t' : List ρ} (h : UniqueKey key t) (hs : t'.Sublist t) :
    UniqueKey key t' := List.Nodup.sublist (hs.map key) h

theorem UniqueKey.deleteWhere (h : UniqueKey key t) (p : ρ → Bool) :
    UniqueKey key (deleteWhere p t) := h.sublist (deleteWhere_sublist p t)

theorem UniqueKey.updateWhere {f : ρ → ρ} (h : UniqueKey key t) (hf : ∀ r, key (f r) = key r)
    (p : ρ → Bool) : UniqueKey key (updateWhere p f t) := by
  unfold UniqueKey
  rw [map_updateWhere hf]
  exact h

theorem UniqueKey.map {f : ρ → ρ} (h : UniqueKey key t) (hf : ∀ r, key (f r) = key r) :
    UniqueKey key (t.map f) := by
  unfold UniqueKey
  rw [List.map_map]
  have hcomp : key ∘ f = key := funext hf
  rw [hcomp]
  exact h

/-- Several rows with new keys that differ from each other. -/
theorem UniqueKey.append_of_disjoint {t' : List ρ} (h : UniqueKey key t) (h' : UniqueKey key t')
    (hno : ∀ r ∈ t, ∀ r' ∈ t', key r ≠ key r') : UniqueKey key (t ++ t') := by
  unfold UniqueKey
  rw [List.map_append]
  refine List.Nodup.append h h' ?_
  intro k hk hk'
  obtain ⟨r, hr, rfl⟩ := List.mem_map.1 hk
  obtain ⟨r', hr', hkey⟩ := List.mem_map.1 hk'
  exact hno r hr r' hr' hkey.symm

theorem UniqueKey.append (h : UniqueKey key t) (hno : ∀ r ∈ t, key r ≠ key row) :
    UniqueKey key (t ++ [row]) := by
  unfold UniqueKey
  rw [List.map_append, List.map_singleton]
  refine List.Nodup.append h (List.nodup_singleton _) ?_
  intro k hk hk'
  obtain ⟨r, hr, rfl⟩ := List.mem_map.1 hk
  exact hno r hr (List.mem_singleton.1 hk')

theorem UniqueKey.insertOrIgnore [DecidableEq κ] (h : UniqueKey key t) (row : ρ) :
    UniqueKey key (insertOrIgnore key row t) := by
  unfold Table.insertOrIgnore
  split
  · exact h
  · rename_i hany
    refine h.append ?_
    intro r hr hk
    exact hany (List.any_eq_true.2 ⟨r, hr, by simpa using hk⟩)

theorem UniqueKey.insertAll [DecidableEq κ] (h : UniqueKey key t) (rows : List ρ) :
    UniqueKey key (insertAll key rows t) := by
  induction rows generalizing t with
  | nil => exact h
  | cons row rows ih => exact ih (h.insertOrIgnore row)

theorem UniqueKey.insertOrReplace [DecidableEq κ] (h : UniqueKey key t) (row : ρ) :
    UniqueKey key (insertOrReplace key row t) := by
  refine (h.deleteWhere _).append ?_
  intro r hr hk
  have := (mem_deleteWhere.1 hr).2
  simp [hk] at this

/-- Deleting by a key takes one row out. -/
theorem UniqueKey.perm_cons_deleteWhere [BEq κ] [LawfulBEq κ] (h : UniqueKey key t) (hr : r ∈ t) :
    t.Perm (r :: Table.deleteWhere (fun r' => key r' == key r) t) := by
  classical
  refine (List.perm_cons_erase hr).trans (List.Perm.cons r ?_)
  rw [h.nodup.erase_eq_filter, Table.deleteWhere]
  refine List.Perm.of_eq (List.filter_congr ?_)
  intro r' hr'
  by_cases hk : key r' = key r
  · rw [h.eq hr' hr hk]
    simp
  · have hne : r' ≠ r := fun e => hk (congrArg key e)
    rw [bne_iff_ne.2 hne, beq_eq_false_iff_ne.2 hk]
    rfl

/-- Looking a row up by its key finds that row. -/
theorem UniqueKey.find?_eq [BEq κ] [LawfulBEq κ] (h : UniqueKey key t) (hr : r ∈ t) :
    t.find? (fun r' => key r' == key r) = some r := by
  cases hf : t.find? (fun r' => key r' == key r) with
  | none => exact absurd (List.find?_eq_none.1 hf r hr) (by simp)
  | some r' =>
    have hk : key r' = key r := by simpa using List.find?_some hf
    rw [h.eq (List.mem_of_find?_eq_some hf) hr hk]

/-- What a look-up by the key finds. -/
theorem UniqueKey.find?_eq_some_iff [BEq κ] [LawfulBEq κ] (h : UniqueKey key t) {k : κ} :
    t.find? (fun r' => key r' == k) = some r ↔ r ∈ t ∧ key r = k := by
  constructor
  · intro hf
    exact ⟨List.mem_of_find?_eq_some hf, by simpa using List.find?_some hf⟩
  · rintro ⟨hr, rfl⟩
    exact h.find?_eq hr

theorem find?_key_eq_none [BEq κ] [LawfulBEq κ] {k : κ} :
    t.find? (fun r' => key r' == k) = none ↔ ∀ r ∈ t, key r ≠ k := by
  simp [List.find?_eq_none]

/-- A look-up sees the rows of its key only. -/
theorem UniqueKey.find?_congr [BEq κ] [LawfulBEq κ] {t' : List ρ} (h : UniqueKey key t)
    (h' : UniqueKey key t') {k : κ} (hmem : ∀ r, key r = k → (r ∈ t ↔ r ∈ t')) :
    t.find? (fun r' => key r' == k) = t'.find? fun r' => key r' == k := by
  refine Option.ext fun r => ?_
  rw [h.find?_eq_some_iff, h'.find?_eq_some_iff]
  constructor
  · rintro ⟨hr, hk⟩
    exact ⟨(hmem r hk).1 hr, hk⟩
  · rintro ⟨hr, hk⟩
    exact ⟨(hmem r hk).2 hr, hk⟩

end Unique

/-! ### Sorted rows -/

section Sorted

variable {le : ρ → ρ → Prop} [DecidableRel le] {a : ρ} {t : List ρ}

theorem orderedInsert_eq_cons (h : ∀ b ∈ t, le a b) : t.orderedInsert le a = a :: t := by
  cases t with
  | nil => rfl
  | cons b t => rw [List.orderedInsert_cons, if_pos (h b List.mem_cons_self)]

variable [IsTrans ρ le]

theorem filter_orderedInsert (p : ρ → Bool) (h : t.Pairwise le) :
    (t.orderedInsert le a).filter p =
      if p a then (t.filter p).orderedInsert le a else t.filter p := by
  induction t with
  | nil => cases hp : p a <;> simp [hp]
  | cons b t ih =>
    obtain ⟨hb, ht⟩ := List.pairwise_cons.1 h
    rw [List.orderedInsert_cons]
    split
    next hab =>
      have hall : ∀ c ∈ (b :: t).filter p, le a c := by
        intro c hc
        rcases List.mem_cons.1 (List.mem_filter.1 hc).1 with rfl | hc
        · exact hab
        · exact trans_of le hab (hb c hc)
      rw [List.filter_cons]
      split
      · rw [orderedInsert_eq_cons hall]
      · rfl
    next hab =>
      rw [List.filter_cons, ih ht, List.filter_cons]
      cases hpa : p a <;> cases hpb : p b <;> simp [hab]

/-- `WHERE` and `ORDER BY` commute. -/
theorem filter_insertionSort [Std.Total le] (p : ρ → Bool) (t : List ρ) :
    (t.insertionSort le).filter p = (t.filter p).insertionSort le := by
  induction t with
  | nil => rfl
  | cons a t ih =>
    rw [List.insertionSort_cons, filter_orderedInsert p (List.pairwise_insertionSort le t), ih,
      List.filter_cons]
    split
    · rw [List.insertionSort_cons]
    · rfl

end Sorted

end Table
end UwuMail
