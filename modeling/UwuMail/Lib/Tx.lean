/-
# Transactions: state that survives an error, until somebody rolls it back

`Tx ε σ α` is `ExceptT ε (StateM σ) α`: a computation that reads and writes a state and may
stop with an error.  The state written BEFORE the error is still there after it, as it is for
code that runs statements inside an open database transaction.  Undoing them is a step of its
own: `Tx.atomically` runs a computation and keeps its state only when it ended well, and
`Tx.attempt` is the opposite, it turns the error into a value and keeps what was written.

`Tx.exec` is the meaning of a computation as a function of the state, with one equation for
each way to build one.  `Tx.exec_mapM_ok` and `Tx.exec_forM_ok` are the induction rules for loops:
what holds of the elements done so far, if every turn keeps it, holds of all of them at the end.

`Tx.Ends x s Q E` is for code that is not rolled back: `Q` holds of the answer and the state after a
run that ends well, and `E` of the state an error leaves behind.
-/
import Mathlib

namespace UwuMail

abbrev Tx (ε σ α : Type) := ExceptT ε (StateM σ) α

namespace Tx

variable {ε σ α β : Type}

/-- Runs a computation: its answer, and the state it left behind. -/
def exec (x : Tx ε σ α) (s : σ) : Except ε α × σ := (ExceptT.run x).run s

/-- Keeps an error as a value, and the state as it is. -/
def attempt (x : Tx ε σ α) : Tx ε σ (Except ε α) :=
  ExceptT.mk fun s => let (r, s') := x.exec s; (Except.ok r, s')

/-- Commits on success, rolls back on an error. -/
def atomically (x : Tx ε σ α) (s : σ) : Except ε α × σ :=
  match x.exec s with
  | (.ok v, s') => (.ok v, s')
  | (.error e, _) => (.error e, s)

/-- Lifts a check that writes nothing. -/
def ofExcept (x : Except ε α) : Tx ε σ α := ExceptT.mk (pure x)

/-- A step that is a run of its own: what it left stays, whatever comes later. -/
def call (f : σ → Except ε α × σ) : Tx ε σ α := ExceptT.mk f

/-! ## 1. The meaning of each construct -/

/-- A check that passed went through both parts. -/
theorem except_bind_ok {x : Except ε α} {f : α → Except ε β} {b : β} (h : (x >>= f) = .ok b) :
    ∃ a, x = .ok a ∧ f a = .ok b := by
  cases x with
  | error e => cases h
  | ok a => exact ⟨a, rfl, h⟩

/-- A loop of checks that passed, one element after the other. -/
theorem except_mapM_ok {f : α → Except ε β} : ∀ {l : List α} {bs : List β}, l.mapM f = .ok bs →
    List.Forall₂ (fun a b => f a = .ok b) l bs
  | [], bs, h => by
    cases h
    exact .nil
  | a :: l, bs, h => by
    rw [List.mapM_cons] at h
    obtain ⟨b, hb, h⟩ := except_bind_ok h
    obtain ⟨bs', hbs, h⟩ := except_bind_ok h
    cases h
    exact .cons hb (except_mapM_ok hbs)

@[simp] theorem exec_pure (a : α) (s : σ) : exec (pure a : Tx ε σ α) s = (.ok a, s) := rfl

@[simp] theorem exec_get (s : σ) : exec (get : Tx ε σ σ) s = (.ok s, s) := rfl

@[simp] theorem exec_ofExcept (x : Except ε α) (s : σ) :
    exec (ofExcept x : Tx ε σ α) s = (x, s) := rfl

@[simp] theorem exec_call (f : σ → Except ε α × σ) (s : σ) : exec (call f) s = f s := rfl

theorem exec_bind (x : Tx ε σ α) (f : α → Tx ε σ β) (s : σ) :
    exec (x >>= f) s =
      match exec x s with
      | (.ok a, s') => exec (f a) s'
      | (.error e, s') => (.error e, s') := by
  simp only [exec, ExceptT.run_bind, StateT.run_bind]
  rcases h : (ExceptT.run x).run s with ⟨r, s'⟩
  cases r <;> rfl

@[simp] theorem exec_attempt (x : Tx ε σ α) (s : σ) :
    exec (attempt x) s = (.ok (exec x s).1, (exec x s).2) := rfl

/-- An atomic run leaves the state alone or leaves the one its computation ended in. -/
theorem atomically_cases (x : Tx ε σ α) (s : σ) :
    (∃ e, (exec x s).1 = .error e ∧ atomically x s = (.error e, s)) ∨
      (∃ v, (exec x s).1 = .ok v ∧ atomically x s = (.ok v, (exec x s).2)) := by
  unfold atomically
  rcases h : exec x s with ⟨r, s'⟩
  cases r with
  | error e => exact .inl ⟨e, rfl, rfl⟩
  | ok v => exact .inr ⟨v, rfl, rfl⟩

/-- A sequence that ended well went through both parts. -/
theorem exec_bind_ok {x : Tx ε σ α} {f : α → Tx ε σ β} {s s' : σ} {b : β}
    (h : exec (x >>= f) s = (.ok b, s')) :
    ∃ a s₁, exec x s = (.ok a, s₁) ∧ exec (f a) s₁ = (.ok b, s') := by
  rw [exec_bind] at h
  rcases hx : exec x s with ⟨r, s₁⟩
  rw [hx] at h
  cases r with
  | error e => cases h
  | ok a => exact ⟨a, s₁, rfl, h⟩

/-- A loop that ended well, one element after the other: `P done s` says what holds when the
elements `done` are through. -/
theorem exec_mapM_ok {P : List α → σ → Prop} {f : α → Tx ε σ β}
    (hstep : ∀ done a s b s', P done s → exec (f a) s = (.ok b, s') → P (done ++ [a]) s') :
    ∀ (l done : List α) {s s' : σ} {bs : List β}, P done s → exec (l.mapM f) s = (.ok bs, s') →
      P (done ++ l) s'
  | [], done, s, s', bs, hP, h => by
    rw [List.mapM_nil, exec_pure] at h
    cases h
    rw [List.append_nil]
    exact hP
  | a :: l, done, s, s', bs, hP, h => by
    rw [List.mapM_cons] at h
    obtain ⟨b, s₁, h₁, h⟩ := exec_bind_ok h
    obtain ⟨bs', s₂, h₂, h⟩ := exec_bind_ok h
    rw [exec_pure] at h
    cases h
    have := exec_mapM_ok hstep l (done ++ [a]) (hstep done a s b s₁ hP h₁) h₂
    rwa [List.append_assoc] at this

/-- The same for a loop that collects nothing; the step also knows what is still to come. -/
theorem exec_forM_ok {P : List α → σ → Prop} {f : α → Tx ε σ PUnit} {full : List α}
    (hstep : ∀ done a rest s b s', full = done ++ a :: rest → P done s →
      exec (f a) s = (.ok b, s') → P (done ++ [a]) s') :
    ∀ (l done : List α) {s s' : σ} {u : PUnit}, full = done ++ l → P done s →
      exec (l.forM f) s = (.ok u, s') → P full s'
  | [], done, s, s', u, hfull, hP, h => by
    cases h
    rw [hfull, List.append_nil]
    exact hP
  | a :: l, done, s, s', u, hfull, hP, h => by
    obtain ⟨b, s₁, h₁, h⟩ := exec_bind_ok (x := f a) (f := fun _ => l.forM f) h
    refine exec_forM_ok hstep l (done ++ [a]) ?_ (hstep done a l s b s₁ hfull hP h₁) h
    rw [hfull, List.append_assoc]
    rfl

/-! ## 2. What a run leaves behind, however it ends -/

/-- Run from `s`, the computation ends well with `Q`, or with an error and `E`. -/
def Ends (x : Tx ε σ α) (s : σ) (Q : α → σ → Prop) (E : σ → Prop) : Prop :=
  match exec x s with
  | (.ok a, s') => Q a s'
  | (.error _, s') => E s'

section Ends

variable {x : Tx ε σ α} {s : σ} {Q Q' : α → σ → Prop} {E E' : σ → Prop}

theorem Ends.pure {a : α} (h : Q a s) : Ends (Pure.pure a : Tx ε σ α) s Q E := h

theorem Ends.ofExcept {y : Except ε α} (hok : ∀ a, y = .ok a → Q a s) (herr : E s) :
    Ends (ofExcept y : Tx ε σ α) s Q E := by
  unfold Ends
  rw [exec_ofExcept]
  cases y with
  | ok a => exact hok a rfl
  | error e => exact herr

theorem Ends.bind {f : α → Tx ε σ β} {R : β → σ → Prop} (hx : Ends x s Q E)
    (hf : ∀ a s', Q a s' → Ends (f a) s' R E) : Ends (x >>= f) s R E := by
  unfold Ends at hx ⊢
  rw [exec_bind]
  rcases h : exec x s with ⟨r, s'⟩
  rw [h] at hx
  cases r with
  | ok a => exact hf a s' hx
  | error e => exact hx

theorem Ends.mono (h : Ends x s Q E) (hQ : ∀ a s', Q a s' → Q' a s') (hE : ∀ s', E s' → E' s') :
    Ends x s Q' E' := by
  unfold Ends at h ⊢
  rcases h' : exec x s with ⟨r, s'⟩
  rw [h'] at h
  cases r with
  | ok a => exact hQ a s' h
  | error e => exact hE s' h

/-- A run that ended well, and one that did not. -/
theorem Ends.ok (h : Ends x s Q E) {a : α} {s' : σ} (hx : exec x s = (.ok a, s')) : Q a s' := by
  unfold Ends at h
  rwa [hx] at h

/-- Whatever the end, the state after it. -/
theorem Ends.always {P : σ → Prop} (h : Ends x s (fun _ => P) P) : P (exec x s).2 := by
  unfold Ends at h
  rcases h' : exec x s with ⟨r, s'⟩
  rw [h'] at h
  cases r with
  | ok a => exact h
  | error e => exact h

/-- A loop that collects answers: `P done bs s` says what holds when the elements `done` are through
with the answers `bs`. -/
theorem Ends.mapM {P : List α → List β → σ → Prop} {f : α → Tx ε σ β}
    (hstep : ∀ done bs a s, P done bs s → Ends (f a) s (fun b => P (done ++ [a]) (bs ++ [b])) E) :
    ∀ (l done : List α) (bs : List β) {s : σ}, P done bs s →
      Ends (l.mapM f) s (fun bs' => P (done ++ l) (bs ++ bs')) E
  | [], done, bs, s, h => by
    rw [List.mapM_nil]
    exact .pure (by simpa using h)
  | a :: l, done, bs, s, h => by
    rw [List.mapM_cons]
    refine (hstep done bs a s h).bind fun b s₁ h₁ => ?_
    refine (Ends.mapM hstep l (done ++ [a]) (bs ++ [b]) h₁).bind fun bs' s₂ h₂ => .pure ?_
    simpa using h₂

/-- A loop in which a turn may depend on the elements that are through and on those to come. -/
theorem Ends.mapM_split {P : List α → σ → Prop} {f : α → Tx ε σ β} {full : List α}
    (hstep : ∀ done a rest s, full = done ++ a :: rest → P done s →
      Ends (f a) s (fun _ => P (done ++ [a])) E) :
    ∀ (l done : List α) {s : σ}, full = done ++ l → P done s →
      Ends (l.mapM f) s (fun _ => P full) E
  | [], done, s, hfull, h => by
    rw [List.mapM_nil, hfull, List.append_nil]
    exact .pure h
  | a :: l, done, s, hfull, h => by
    rw [List.mapM_cons]
    refine (hstep done a l s hfull h).bind fun b s₁ h₁ => ?_
    have hfull' : full = done ++ [a] ++ l := by simpa using hfull
    exact (Ends.mapM_split hstep l (done ++ [a]) hfull' h₁).bind fun bs' s₂ h₂ => .pure h₂

/-- What is read is the state, and what is written is. -/
theorem Ends.get_bind {f : σ → Tx ε σ β} {R : β → σ → Prop} (h : Ends (f s) s R E) :
    Ends (MonadState.get >>= f) s R E := h

end Ends

end Tx

end UwuMail
