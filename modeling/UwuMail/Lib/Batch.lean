/-
# Batches: one after the other, whatever the others did

A batch runs an operation on one element after the other in ONE transaction, and keeps each answer,
also where it is an error.  Nothing is rolled back in between, so an element that is refused may
leave behind what it wrote before it was.  Where it does not (`Tx.Clean`), it may as well not have
been in the batch (`batch_spared`).
-/
import UwuMail.Lib.Tx

namespace UwuMail

namespace Tx

variable {ε σ α β γ : Type}

/-! ## 1. Errors that leave nothing behind -/

/-- An error leaves the state as it was. -/
def Clean (x : Tx ε σ α) : Prop := ∀ s e, (exec x s).1 = .error e → (exec x s).2 = s

section Clean

variable {x : Tx ε σ α}

theorem Clean.pure (a : α) : Clean (Pure.pure a : Tx ε σ α) := fun _ _ => nofun

theorem Clean.throw (e : ε) : Clean (MonadExcept.throw e : Tx ε σ α) := fun _ _ _ => rfl

/-- What is decided from the state before anything is written. -/
theorem Clean.get_bind {f : σ → Tx ε σ β} (hf : ∀ s, Clean (f s)) : Clean (MonadState.get >>= f) :=
  fun s => hf s s

theorem Clean.ofExcept_bind {y : Except ε α} {f : α → Tx ε σ β} (hf : ∀ a, y = .ok a → Clean (f a)) :
    Clean (Tx.ofExcept y >>= f) := by
  cases y with
  | ok a => exact hf a rfl
  | error e => exact fun _ _ _ => rfl

/-- The last step that may fail: what follows it does not. -/
theorem Clean.bind_total {f : α → Tx ε σ β} (hx : Clean x) (hf : ∀ a s, ∃ b, (exec (f a) s).1 = .ok b) :
    Clean (x >>= f) := by
  intro s e h
  have hclean := hx s
  rw [exec_bind] at h ⊢
  rcases hrun : exec x s with ⟨r, s'⟩
  rw [hrun] at h hclean
  cases r with
  | error e' => exact hclean e' rfl
  | ok a =>
    obtain ⟨b, hb⟩ := hf a s'
    cases hb.symm.trans h

end Clean

/-! ## 2. Runs over a list -/

/-- The answers to the elements, and the state in the end. -/
def batch (f : α → Tx ε σ β) : List α → σ → List (Except ε β) × σ
  | [], s => ([], s)
  | a :: l, s =>
    let (r, s') := exec (f a) s
    let (rs, s'') := batch f l s'
    (r :: rs, s'')

variable {f : α → Tx ε σ β}

theorem batch_cons (a : α) (l : List α) (s : σ) : batch f (a :: l) s =
    ((exec (f a) s).1 :: (batch f l (exec (f a) s).2).1, (batch f l (exec (f a) s).2).2) := rfl

/-- A loop over attempts is a batch, and does not fail. -/
theorem exec_mapM_attempt (l : List α) (s : σ) :
    exec (l.mapM fun a => attempt (f a)) s = (.ok (batch f l s).1, (batch f l s).2) := by
  induction l generalizing s with
  | nil => rfl
  | cons a l ih =>
    rw [List.mapM_cons, exec_bind, exec_attempt]
    dsimp only
    rw [exec_bind, ih]
    rfl

theorem length_batch (l : List α) (s : σ) : (batch f l s).1.length = l.length := by
  induction l generalizing s with
  | nil => rfl
  | cons a l ih => rw [batch_cons, List.length_cons, ih, List.length_cons]

/-- Some of the elements that were refused are left out. -/
inductive Spared : List (α × Except ε β) → List (α × Except ε β) → Prop where
  | nil : Spared [] []
  | keep {all kept : List (α × Except ε β)} (x : α × Except ε β) (h : Spared all kept) :
      Spared (x :: all) (x :: kept)
  | drop {all kept : List (α × Except ε β)} (a : α) (e : ε) (h : Spared all kept) :
      Spared ((a, .error e) :: all) kept

/-- **A clean refusal is as good as none**: without it the others get the same answers, and the
state in the end is the same. -/
theorem batch_spared (hclean : ∀ a, Clean (f a)) {l : List α} {s : σ} {kept : List (α × Except ε β)}
    (h : Spared (l.zip (batch f l s).1) kept) :
    batch f (kept.map (·.1)) s = (kept.map (·.2), (batch f l s).2) := by
  induction l generalizing s kept with
  | nil =>
    cases h
    rfl
  | cons a l ih =>
    rw [batch_cons, List.zip_cons_cons] at h
    rw [batch_cons]
    generalize hr : (exec (f a) s).1 = r at h
    cases h with
    | keep _ h =>
      rw [List.map_cons, List.map_cons, batch_cons, ih h, hr]
    | drop _ e h =>
      -- nothing was written, so the others start where they would have started
      rw [hclean a s e hr] at h ⊢
      exact ih h

/-- Where no element changes the state, none does after the others either. -/
theorem batch_idle {l : List α} {s : σ} (h : ∀ a ∈ l, (exec (f a) s).2 = s) : (batch f l s).2 = s := by
  induction l with
  | nil => rfl
  | cons a l ih =>
    rw [batch_cons, h a List.mem_cons_self]
    exact ih fun b hb => h b (List.mem_cons_of_mem _ hb)

/-- A view of the state that the operation does not look behind. -/
theorem batch_view {σ' : Type} {g : α → Tx ε σ' β} (view : σ' → σ)
    (h : ∀ a s, exec (f a) (view s) = ((exec (g a) s).1, view (exec (g a) s).2)) (l : List α) (s : σ') :
    batch f l (view s) = ((batch g l s).1, view (batch g l s).2) := by
  induction l generalizing s with
  | nil => rfl
  | cons a l ih => rw [batch_cons, batch_cons, h, ih]

end Tx

end UwuMail
