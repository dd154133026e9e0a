/-
# The first element of a kind

`modifyFirst` changes the first element that satisfies a predicate, `setFirst` puts one at the end
when there is none. What is looked for by another predicate is found as before, as long as the
change does not bring it about or take it away (`find?_modifyFirst`, `find?_setFirst`).

§3 is about many changes, each to the first element with a key: an element is changed as often as
its key comes up, if NO ELEMENT BEFORE IT has the key (`foldl_modifyFirst`).
-/
import Mathlib.Data.List.Forall2
import Mathlib.Logic.Function.Iterate

namespace UwuMail.Lib

variable {α β κ : Type} {p q : α → Bool} {f : α → α} {g : α → β} {a new : α}
  {l before behind : List α}

/-- The first element that is `p`, changed. -/
def modifyFirst (p : α → Bool) (f : α → α) : List α → List α
  | [] => []
  | a :: l => if p a then f a :: l else a :: modifyFirst p f l

/-- The first element that is `p`, changed, or `new` at the end. -/
def setFirst (p : α → Bool) (f : α → α) (new : α) : List α → List α
  | [] => [new]
  | a :: l => if p a then f a :: l else a :: setFirst p f new l

/-! ## 1. Changing -/

theorem modifyFirst_of_none (h : ∀ a ∈ l, p a = false) : modifyFirst p f l = l := by
  induction l with
  | nil => rfl
  | cons a l ih =>
    rw [modifyFirst, if_neg (Bool.eq_false_iff.1 (h a List.mem_cons_self)),
      ih fun b hb => h b (List.mem_cons_of_mem _ hb)]

theorem modifyFirst_append (hbefore : ∀ b ∈ before, p b = false) (ha : p a = true) :
    modifyFirst p f (before ++ a :: behind) = before ++ f a :: behind := by
  induction before with
  | nil => exact if_pos ha
  | cons b before ih =>
    rw [List.cons_append, modifyFirst, if_neg (Bool.eq_false_iff.1 (hbefore b List.mem_cons_self)),
      ih fun c hc => hbefore c (List.mem_cons_of_mem _ hc), List.cons_append]

theorem exists_first (h : l.any p = true) : ∃ before a behind, l = before ++ a :: behind ∧
    (∀ b ∈ before, p b = false) ∧ p a = true := by
  induction l with
  | nil => cases h
  | cons b l ih =>
    cases hb : p b with
    | true => exact ⟨[], b, l, rfl, fun _ h => absurd h List.not_mem_nil, hb⟩
    | false =>
      rw [List.any_cons, hb, Bool.false_or] at h
      obtain ⟨before, a, behind, rfl, hbefore, ha⟩ := ih h
      refine ⟨b :: before, a, behind, rfl, fun c hc => ?_, ha⟩
      obtain rfl | hc := List.mem_cons.1 hc
      · exact hb
      · exact hbefore c hc

theorem map_modifyFirst (h : ∀ a, p a = true → g (f a) = g a) : (modifyFirst p f l).map g = l.map g := by
  induction l with
  | nil => rfl
  | cons a l ih =>
    rw [modifyFirst]
    split
    next ha => rw [List.map_cons, List.map_cons, h a ha]
    next => rw [List.map_cons, List.map_cons, ih]

/-- Nothing is changed when there is no element of the kind, or the change leaves the first one as
it is. -/
theorem modifyFirst_of_find? (h : ∀ a, l.find? p = some a → f a = a) : modifyFirst p f l = l := by
  induction l with
  | nil => rfl
  | cons a l ih =>
    rw [modifyFirst]
    by_cases ha : p a = true
    · rw [if_pos ha, h a (List.find?_cons_of_pos ha)]
    · rw [List.find?_cons_of_neg ha] at h
      rw [if_neg ha, ih h]

theorem find?_modifyFirst (h : l.find? p = some a) (ha : p (f a) = true) :
    (modifyFirst p f l).find? p = some (f a) := by
  induction l with
  | nil => cases h
  | cons b l ih =>
    rw [modifyFirst]
    by_cases hb : p b = true
    · rw [List.find?_cons_of_pos hb, Option.some.injEq] at h
      rw [if_pos hb, h, List.find?_cons_of_pos ha]
    · rw [List.find?_cons_of_neg hb] at h
      rw [if_neg hb, List.find?_cons_of_neg hb, ih h]

/-- Each change is to the same element. -/
theorem iterate_modifyFirst (h : ∀ a, p (f a) = p a) (hbefore : ∀ b ∈ before, p b = false)
    (ha : p a = true) (n : Nat) :
    (modifyFirst p f)^[n] (before ++ a :: behind) = before ++ f^[n] a :: behind := by
  induction n generalizing a with
  | zero => rfl
  | succ n ih =>
    rw [Function.iterate_succ_apply, Function.iterate_succ_apply, modifyFirst_append hbefore ha,
      ih ((h a).trans ha)]

theorem iterate_modifyFirst_of_none (h : ∀ a ∈ l, p a = false) (n : Nat) : (modifyFirst p f)^[n] l = l := by
  induction n with
  | zero => rfl
  | succ n ih => rw [Function.iterate_succ_apply, modifyFirst_of_none h, ih]

/-! ## 2. Setting -/

theorem find?_setFirst (hf : ∀ a, p a = true → p (f a) = true) (hnew : p new = true) :
    (setFirst p f new l).find? p = some (((l.find? p).map f).getD new) := by
  induction l with
  | nil => rw [setFirst, List.find?_cons_of_pos hnew, List.find?_nil, Option.map_none, Option.getD_none]
  | cons a l ih =>
    rw [setFirst]
    by_cases ha : p a = true
    · rw [if_pos ha, List.find?_cons_of_pos (hf a ha), List.find?_cons_of_pos ha, Option.map_some,
        Option.getD_some]
    · rw [if_neg ha, List.find?_cons_of_neg ha, List.find?_cons_of_neg ha, ih]

/-- What is of another kind before and after is where it was. -/
theorem filter_setFirst (hf : ∀ a, p a = true → q a = false ∧ q (f a) = false) (hnew : q new = false) :
    (setFirst p f new l).filter q = l.filter q := by
  induction l with
  | nil => rw [setFirst, List.filter_cons_of_neg (Bool.eq_false_iff.1 hnew)]
  | cons a l ih =>
    rw [setFirst]
    by_cases ha : p a = true
    · obtain ⟨hq, hq'⟩ := hf a ha
      rw [if_pos ha, List.filter_cons_of_neg (Bool.eq_false_iff.1 hq'), List.filter_cons_of_neg
        (Bool.eq_false_iff.1 hq)]
    · rw [if_neg ha, List.filter_cons, List.filter_cons, ih]

theorem map_setFirst {p' : β → Bool} {f' : β → β} (hp : ∀ a, p' (g a) = p a) (hf : ∀ a, f' (g a) = g (f a)) :
    (setFirst p f new l).map g = setFirst p' f' (g new) (l.map g) := by
  induction l with
  | nil => rfl
  | cons a l ih =>
    rw [setFirst, List.map_cons, setFirst, hp]
    split
    next => rw [List.map_cons, hf]
    next => rw [List.map_cons, ih]

theorem mem_setFirst (h : a ∈ setFirst p f new l) : a ∈ l ∨ a = new ∨ ∃ b ∈ l, p b = true ∧ a = f b := by
  induction l with
  | nil => exact .inr (.inl (List.mem_singleton.1 h))
  | cons b l ih =>
    rw [setFirst] at h
    split at h
    next hb =>
      obtain rfl | h := List.mem_cons.1 h
      · exact .inr (.inr ⟨b, List.mem_cons_self, hb, rfl⟩)
      · exact .inl (List.mem_cons_of_mem _ h)
    next =>
      obtain rfl | h := List.mem_cons.1 h
      · exact .inl List.mem_cons_self
      · obtain h | h | ⟨c, hc, h⟩ := ih h
        · exact .inl (List.mem_cons_of_mem _ h)
        · exact .inr (.inl h)
        · exact .inr (.inr ⟨c, List.mem_cons_of_mem _ hc, h⟩)

/-- What is found is the first of its kind. -/
theorem find?_eq_of_filter {l' : List α} (h : l.filter q = l'.filter q) : l.find? q = l'.find? q := by
  rw [← List.head?_filter, ← List.head?_filter, h]

/-! ## 3. Changing by key -/

section
variable [DecidableEq κ] {key : α → Option κ}

/-- The first element with the key, changed. -/
def modifyKey (key : α → Option κ) (f : α → α) (l : List α) (k : κ) : List α :=
  modifyFirst (fun a => decide (key a = some k)) f l

theorem foldl_modifyKey_nil (ks : List κ) : ks.foldl (modifyKey key f) [] = [] := by
  induction ks with
  | nil => rfl
  | cons k ks ih => exact ih

theorem foldl_modifyKey_none (h : key a = none) (ks : List κ) :
    ks.foldl (modifyKey key f) (a :: l) = a :: ks.foldl (modifyKey key f) l := by
  induction ks generalizing l with
  | nil => rfl
  | cons k ks ih =>
    have hne : ¬ decide (key a = some k) = true := by rw [decide_eq_true_eq, h]; exact nofun
    rw [List.foldl_cons, modifyKey, modifyFirst, if_neg hne]
    exact ih

/-- The element is changed if its key comes up, as often as it does, and the rest never hears of the
key. -/
theorem foldl_modifyKey_some {k : κ} (hkey : ∀ a, key (f a) = key a) (h : key a = some k) (ks : List κ) :
    ∃ n, (0 < n ↔ k ∈ ks) ∧
      ks.foldl (modifyKey key f) (a :: l) = f^[n] a :: (ks.filter (· ≠ k)).foldl (modifyKey key f) l := by
  induction ks generalizing a l with
  | nil => exact ⟨0, iff_of_false (Nat.lt_irrefl 0) List.not_mem_nil, rfl⟩
  | cons k' ks ih =>
    rw [List.foldl_cons, modifyKey, modifyFirst]
    by_cases hk : k' = k
    · subst hk
      obtain ⟨n, -, hfold⟩ := @ih (f a) l ((hkey a).trans h)
      refine ⟨n + 1, iff_of_true (Nat.succ_pos n) List.mem_cons_self, ?_⟩
      rw [if_pos (decide_eq_true h), hfold, Function.iterate_succ_apply, List.filter_cons_of_neg (by simp)]
    · have hne : ¬ decide (key a = some k') = true := by
        rw [decide_eq_true_eq, h, Option.some.injEq]
        exact fun heq => hk heq.symm
      obtain ⟨n, hn, hfold⟩ := @ih a (modifyFirst (fun a => decide (key a = some k')) f l) h
      refine ⟨n, hn.trans ?_, ?_⟩
      · rw [List.mem_cons, or_iff_right fun heq => hk heq.symm]
      · rw [if_neg hne, hfold, List.filter_cons_of_pos (by simpa using hk), List.foldl_cons]
        rfl

end

/-! ## 4. Lists that correspond -/

section
variable {R : α → α → Prop} {l' : List α}

theorem forall₂_modifyFirst (hrefl : ∀ a, R a a) (hf : ∀ a, R a (f a)) :
    List.Forall₂ R l (modifyFirst p f l) := by
  induction l with
  | nil => exact .nil
  | cons a l ih =>
    rw [modifyFirst]
    split
    next => exact .cons (hf a) (List.forall₂_same.2 fun b _ => hrefl b)
    next => exact .cons (hrefl a) ih

theorem exists_find?_of_forall₂ (h : List.Forall₂ R l l') (hq : ∀ a b, R a b → q a = q b) {b : α}
    (hb : l'.find? q = some b) : ∃ a, l.find? q = some a ∧ R a b := by
  induction h with
  | nil => cases hb
  | @cons a c l l' hac _ ih =>
    by_cases hc : q c = true
    · rw [List.find?_cons_of_pos hc, Option.some.injEq] at hb
      subst hb
      exact ⟨a, List.find?_cons_of_pos ((hq a c hac).trans hc), hac⟩
    · rw [List.find?_cons_of_neg hc] at hb
      obtain ⟨d, hd, hdb⟩ := ih hb
      exact ⟨d, by rw [List.find?_cons_of_neg (by rw [hq a c hac]; exact hc), hd], hdb⟩

end

end UwuMail.Lib
