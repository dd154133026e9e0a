/-
# JSON values

Values with objects as lists of their members, in the order of the keys.  `get` reads the first
member of a name, `insert` and `remove` act on that name alone, so what a proof needs of a map is
`get_insert` and `get_remove`, and they hold of any list of members.

Where the order does matter, `Ordered` says that the keys increase, in every object of a value: two
lists of members with the same `get` are then the same list.
-/
import Mathlib

namespace UwuMail.Json

/-- What is neither an array nor an object; a float by its bits, where Rust's `==` takes 0.0 and
-0.0 for one. -/
inductive Scalar where
  | null
  | bool (b : Bool)
  | int (n : Int)
  | float (bits : UInt64)
  | string (s : String)
  deriving DecidableEq

inductive Value where
  | scalar (s : Scalar)
  | array (values : List Value)
  | object (members : List (String × Value))

mutual

def Value.decEq : (v w : Value) → Decidable (v = w)
  | .scalar s, .scalar t => decidable_of_iff (s = t) (by simp)
  | .array vs, .array ws => @decidable_of_iff _ (vs = ws) (by simp) (decEqArray vs ws)
  | .object ms, .object ns => @decidable_of_iff _ (ms = ns) (by simp) (decEqMembers ms ns)
  | .scalar _, .array _ => isFalse nofun
  | .scalar _, .object _ => isFalse nofun
  | .array _, .scalar _ => isFalse nofun
  | .array _, .object _ => isFalse nofun
  | .object _, .scalar _ => isFalse nofun
  | .object _, .array _ => isFalse nofun

def decEqArray : (vs ws : List Value) → Decidable (vs = ws)
  | [], [] => isTrue rfl
  | [], _ :: _ => isFalse nofun
  | _ :: _, [] => isFalse nofun
  | v :: vs, w :: ws =>
    @decidable_of_iff _ (v = w ∧ vs = ws) (by simp)
      (@instDecidableAnd _ _ (Value.decEq v w) (decEqArray vs ws))

def decEqMembers : (ms ns : List (String × Value)) → Decidable (ms = ns)
  | [], [] => isTrue rfl
  | [], _ :: _ => isFalse nofun
  | _ :: _, [] => isFalse nofun
  | (k, v) :: ms, (l, w) :: ns =>
    @decidable_of_iff _ (k = l ∧ v = w ∧ ms = ns) (by simp [and_assoc])
      (@instDecidableAnd _ _ inferInstance (@instDecidableAnd _ _ (Value.decEq v w) (decEqMembers ms ns)))

end

instance : DecidableEq Value := Value.decEq

def Value.null : Value := .scalar .null

def Value.string (s : String) : Value := .scalar (.string s)

def Value.isNull (v : Value) : Bool := v = .null

/-- The members of an object. -/
abbrev Map : Type := List (String × Value)

namespace Map

def get (m : Map) (key : String) : Option Value := (m.find? fun e => e.1 = key).map (·.2)

/-- Puts a member in its place; one of that name is replaced. -/
def insert : Map → String → Value → Map
  | [], key, value => [(key, value)]
  | e :: m, key, value =>
    if e.1 = key then (key, value) :: m
    else if key < e.1 then (key, value) :: e :: m
    else e :: insert m key value

def remove (m : Map) (key : String) : Map := m.filter fun e => e.1 ≠ key

variable {m : Map} {key key' : String} {value : Value} {e : String × Value}

theorem get_cons : get (e :: m) key = if e.1 = key then some e.2 else get m key := by
  unfold get
  by_cases h : e.1 = key <;> simp [h]

theorem get_insert : get (insert m key value) key' = if key = key' then some value else get m key' := by
  induction m with
  | nil => simp [insert, get_cons]
  | cons e m ih =>
    rw [insert]
    by_cases h : e.1 = key
    · rw [if_pos h, get_cons, get_cons, h]
      split <;> rfl
    · rw [if_neg h]
      split
      · rw [get_cons]
      · rw [get_cons, get_cons, ih]
        by_cases hkey : key = key'
        · simp only [if_pos hkey, if_neg (hkey ▸ h)]
        · simp only [if_neg hkey]

theorem get_remove : get (remove m key) key' = if key = key' then none else get m key' := by
  induction m with
  | nil => simp [remove, get]
  | cons e m ih =>
    unfold remove at ih ⊢
    by_cases h : e.1 = key
    · simp only [List.filter_cons, h, ne_eq, not_true_eq_false, decide_false, if_false,
        Bool.false_eq_true, ih,
        get_cons]
      split <;> rfl
    · simp only [List.filter_cons, h, ne_eq, not_false_eq_true, decide_true, if_true, get_cons, ih]
      by_cases hkey : key = key'
      · simp only [if_pos hkey, if_neg (hkey ▸ h)]
      · simp only [if_neg hkey]

theorem mem_insert_self : (key, value) ∈ insert m key value := by
  induction m with
  | nil => simp [insert]
  | cons e m ih =>
    unfold insert
    split
    · exact List.mem_cons_self
    · split
      · exact List.mem_cons_self
      · exact List.mem_cons_of_mem _ ih

theorem mem_of_mem_insert (h : e ∈ insert m key value) : e = (key, value) ∨ e ∈ m := by
  induction m with
  | nil => simpa [insert] using h
  | cons e' m ih =>
    unfold insert at h
    split at h
    · rcases List.mem_cons.1 h with rfl | h
      · exact .inl rfl
      · exact .inr (List.mem_cons_of_mem _ h)
    · split at h
      · rcases List.mem_cons.1 h with rfl | h
        · exact .inl rfl
        · exact .inr h
      · rcases List.mem_cons.1 h with rfl | h
        · exact .inr List.mem_cons_self
        · exact (ih h).imp id (List.mem_cons_of_mem _)

theorem mem_insert_of_ne (h : e ∈ m) (hne : e.1 ≠ key) : e ∈ insert m key value := by
  induction m with
  | nil => cases h
  | cons e' m ih =>
    unfold insert
    split
    next heq =>
      rcases List.mem_cons.1 h with rfl | h
      · exact absurd heq hne
      · exact List.mem_cons_of_mem _ h
    next =>
      split
      · exact List.mem_cons_of_mem _ h
      · rcases List.mem_cons.1 h with rfl | h
        · exact List.mem_cons_self
        · exact List.mem_cons_of_mem _ (ih h)

/-- A member that is filtered out may as well be inserted first. -/
theorem filter_insert {p : String → Bool} (h : p key = false) :
    (insert m key value).filter (fun e => p e.1) = m.filter (fun e => p e.1) := by
  induction m with
  | nil => simp [insert, h]
  | cons e m ih =>
    unfold insert
    split
    next heq => rw [List.filter_cons_of_neg (by simp [h]), List.filter_cons_of_neg (by simp [heq, h])]
    next =>
      split
      · rw [List.filter_cons_of_neg (by simp [h])]
      · rw [List.filter_cons, List.filter_cons, ih]

theorem exists_mem_of_get (h : get m key = some value) : ∃ e ∈ m, e.1 = key := by
  obtain ⟨e, he, -⟩ := Option.map_eq_some_iff.1 h
  exact ⟨e, List.mem_of_find?_eq_some he, by simpa using List.find?_some he⟩

theorem mem_of_get (h : get m key = some value) : (key, value) ∈ m := by
  obtain ⟨e, he, rfl⟩ := Option.map_eq_some_iff.1 h
  have hkey : e.1 = key := by simpa using List.find?_some he
  exact hkey ▸ List.mem_of_find?_eq_some he

theorem get_eq_none (h : ∀ e ∈ m, e.1 ≠ key) : get m key = none := by
  cases hget : get m key with
  | none => rfl
  | some value =>
    obtain ⟨e, he, hkey⟩ := exists_mem_of_get hget
    exact absurd hkey (h e he)

/-- Members chosen by their names. -/
theorem get_filter_key {p : String → Bool} :
    get (m.filter fun e => p e.1) key = if p key then get m key else none := by
  induction m with
  | nil => simp [get]
  | cons e m ih =>
    rw [List.filter_cons]
    by_cases hkey : e.1 = key
    · subst hkey
      cases hp : p e.1
      · simp [ih, hp]
      · simp [get_cons]
    · cases p e.1
      · simp [ih, get_cons, hkey]
      · simp [ih, get_cons, hkey]

/-- Members whose values are rewritten. -/
theorem get_map_value (f : String → Value → Value) :
    get (m.map fun e => (e.1, f e.1 e.2)) key = (get m key).map (f key) := by
  induction m with
  | nil => rfl
  | cons e m ih =>
    rw [List.map_cons, get_cons, get_cons, ih]
    by_cases hkey : e.1 = key
    · simp [hkey]
    · simp [hkey]

/-! ### Members in order -/

/-- The keys increase. -/
def Increasing (m : Map) : Prop := m.Pairwise fun e f => e.1 < f.1

theorem Increasing.insert (h : Increasing m) : Increasing (m.insert key value) := by
  induction m with
  | nil => exact List.pairwise_singleton _ _
  | cons e m ih =>
    obtain ⟨hfirst, hrest⟩ := List.pairwise_cons.1 h
    unfold Map.insert
    split
    next heq => exact List.pairwise_cons.2 ⟨fun f hf => heq ▸ hfirst f hf, hrest⟩
    next hne =>
      split
      next hlt =>
        refine List.pairwise_cons.2 ⟨fun f hf => ?_, h⟩
        rcases List.mem_cons.1 hf with rfl | hf
        · exact hlt
        · exact hlt.trans (hfirst f hf)
      next hle =>
        refine List.pairwise_cons.2 ⟨fun f hf => ?_, ih hrest⟩
        rcases mem_of_mem_insert hf with rfl | hf
        · exact lt_of_le_of_ne (not_lt.1 hle) hne
        · exact hfirst f hf

theorem Increasing.remove (h : Increasing m) : Increasing (m.remove key) := h.filter _

theorem Increasing.map_value (h : Increasing m) (f : String × Value → Value) :
    Increasing (m.map fun e => (e.1, f e)) := List.pairwise_map.2 h

theorem Increasing.get_of_mem (h : Increasing m) (hmem : (key, value) ∈ m) : get m key = some value := by
  induction m with
  | nil => cases hmem
  | cons e m ih =>
    obtain ⟨hfirst, hrest⟩ := List.pairwise_cons.1 h
    rw [get_cons]
    rcases List.mem_cons.1 hmem with rfl | hmem
    · rw [if_pos rfl]
    · rw [if_neg (hfirst _ hmem).ne, ih hrest hmem]

/-- Members chosen by name and value. -/
theorem Increasing.get_filter {p : String × Value → Bool} (h : Increasing m) :
    get (m.filter p) key = (get m key).filter fun value => p (key, value) := by
  cases hget : get m key with
  | none =>
    refine get_eq_none fun e he hkey => ?_
    have hthere := @get_of_mem m e.1 e.2 h (List.mem_of_mem_filter he)
    rw [hkey, hget] at hthere
    cases hthere
  | some value =>
    have hmem := mem_of_get hget
    have hkeys : Increasing (m.filter p) := h.filter p
    cases hp : p (key, value) with
    | true =>
      rw [hkeys.get_of_mem (List.mem_filter.2 ⟨hmem, hp⟩), Option.filter_some, if_pos hp]
    | false =>
      rw [Option.filter_some, hp]
      refine get_eq_none fun e he hkey => ?_
      have hthere := @get_of_mem m e.1 e.2 h (List.mem_of_mem_filter he)
      rw [hkey, hget, Option.some.injEq] at hthere
      have hpe := List.of_mem_filter he
      rw [show e = (key, value) from Prod.ext hkey hthere.symm, hp] at hpe
      cases hpe

/-- `Map::extend` -/
def extend (m : Map) (members : List (String × Value)) : Map := members.foldl (fun m e => m.insert e.1 e.2) m

theorem Increasing.extend {members : List (String × Value)} (h : Increasing m) :
    Increasing (m.extend members) := by
  induction members generalizing m with
  | nil => exact h
  | cons e members ih => exact ih h.insert

/-- What is added goes before what is there. -/
theorem get_extend {members : Map} (h : Increasing members) :
    get (m.extend members) key = (get members key).or (get m key) := by
  induction members generalizing m with
  | nil => rfl
  | cons e members ih =>
    obtain ⟨hfirst, hrest⟩ := List.pairwise_cons.1 h
    rw [Map.extend, List.foldl_cons]
    refine (ih hrest).trans ?_
    rw [get_insert, get_cons]
    by_cases hkey : e.1 = key
    · rw [if_pos hkey, if_pos hkey, get_eq_none fun f hf => hkey ▸ (hfirst f hf).ne']
      rfl
    · rw [if_neg hkey, if_neg hkey]

/-- `Map::retain`: members rewritten or dropped. -/
theorem Increasing.get_filterMap {f : String → Value → Option Value} (h : Increasing m) :
    get (m.filterMap fun e => (f e.1 e.2).map fun value => (e.1, value)) key = (get m key).bind (f key) := by
  induction m with
  | nil => rfl
  | cons e m ih =>
    obtain ⟨hfirst, hrest⟩ := List.pairwise_cons.1 h
    rw [List.filterMap_cons, get_cons]
    by_cases hkey : e.1 = key
    · subst hkey
      rw [if_pos rfl, Option.bind_some]
      cases f e.1 e.2 with
      | none =>
        rw [Option.map_none]
        rw [ih hrest, get_eq_none fun g hg => (hfirst g hg).ne']
        rfl
      | some value =>
        rw [Option.map_some]
        rw [get_cons, if_pos rfl]
    · rw [if_neg hkey, ← ih hrest]
      cases f e.1 e.2 with
      | none => rfl
      | some value =>
        rw [Option.map_some]
        rw [get_cons, if_neg hkey]

theorem Increasing.filterMap {f : String → Value → Option Value} (h : Increasing m) :
    Increasing (m.filterMap fun e => (f e.1 e.2).map fun value => (e.1, value)) := by
  refine List.pairwise_filterMap.2 (h.imp fun {e g} hlt e' he' g' hg' => ?_)
  obtain ⟨value, -, rfl⟩ := Option.map_eq_some_iff.1 he'
  obtain ⟨value', -, rfl⟩ := Option.map_eq_some_iff.1 hg'
  exact hlt

/-- What every name finds decides the list. -/
theorem Increasing.ext {n : Map} (hm : Increasing m) (hn : Increasing n) (h : ∀ key, get m key = get n key) :
    m = n := by
  induction m generalizing n with
  | nil =>
    cases n with
    | nil => rfl
    | cons f n => simpa [get_cons, get] using h f.1
  | cons e m ih =>
    cases n with
    | nil => simpa [get_cons, get] using h e.1
    | cons f n =>
      obtain ⟨he, hm⟩ := List.pairwise_cons.1 hm
      obtain ⟨hf, hn⟩ := List.pairwise_cons.1 hn
      have hkey : e.1 = f.1 := by
        rcases lt_trichotomy e.1 f.1 with hlt | heq | hlt
        · have hnone : get (f :: n) e.1 = none := get_eq_none (List.forall_mem_cons.2
            ⟨hlt.ne', fun g hg => (hlt.trans (hf g hg)).ne'⟩)
          rw [← h, get_cons, if_pos rfl] at hnone
          cases hnone
        · exact heq
        · have hnone : get (e :: m) f.1 = none := get_eq_none (List.forall_mem_cons.2
            ⟨hlt.ne', fun g hg => (hlt.trans (he g hg)).ne'⟩)
          rw [h, get_cons, if_pos rfl] at hnone
          cases hnone
      have hvalue : e.2 = f.2 := by
        have hget := h e.1
        rwa [get_cons, get_cons, if_pos rfl, if_pos hkey.symm, Option.some.injEq] at hget
      rw [Prod.ext hkey hvalue, ih hm hn fun key => ?_]
      have hget := h key
      rw [get_cons, get_cons] at hget
      by_cases heq : e.1 = key
      · rw [get_eq_none fun g hg => heq ▸ (he g hg).ne', get_eq_none fun g hg => heq ▸ hkey ▸ (hf g hg).ne']
      · rwa [if_neg heq, if_neg (hkey ▸ heq)] at hget

end Map

/-- The keys increase in every object of the value. -/
inductive Ordered : Value → Prop
  | scalar (s : Scalar) : Ordered (.scalar s)
  | array {values : List Value} (h : ∀ v ∈ values, Ordered v) : Ordered (.array values)
  | object {members : Map} (hkeys : Map.Increasing members) (h : ∀ e ∈ members, Ordered e.2) :
    Ordered (.object members)

namespace Ordered

variable {m : Map} {key : String} {value : Value}

theorem increasing (h : Ordered (.object m)) : Map.Increasing m := by
  cases h with
  | object hkeys _ => exact hkeys

theorem of_get (h : Ordered (.object m)) (hget : Map.get m key = some value) : Ordered value := by
  cases h with
  | object _ hvalues => exact hvalues _ (Map.mem_of_get hget)

theorem insert (h : Ordered (.object m)) (hvalue : Ordered value) :
    Ordered (.object (m.insert key value)) := by
  cases h with
  | object hkeys hvalues =>
    refine .object hkeys.insert fun e he => ?_
    rcases Map.mem_of_mem_insert he with rfl | he
    · exact hvalue
    · exact hvalues e he

theorem remove (h : Ordered (.object m)) : Ordered (.object (m.remove key)) := by
  cases h with
  | object hkeys hvalues => exact .object hkeys.remove fun e he => hvalues e (List.mem_of_mem_filter he)

end Ordered

end UwuMail.Json
