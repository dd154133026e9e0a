/-
# Runs of several parties

A system of tasks that share a state is a function `step` from a state and an event to the state
after it, with `none` where the event cannot happen there (a lock is held, a call has already
returned).  Which task takes the next step is the event's business, so a run is any list of events
and a statement about every run is a statement about every INTERLEAVING.

`Along step ok s es` says that every step of a run meets `ok`, a condition on the state before the
step and on the event.  `run_invariant` is the one induction the developments use.

The tasks are lists that only grow, and a task that takes a step is replaced at its place.
`set_perm` says so without indices: before, the list is the task and the others, and after it the
task's new state and the same others.
-/
import Mathlib

namespace UwuMail.Trace

variable {S E : Type} (step : S → E → Option S)

/-- The state after the events, if each of them could happen. -/
def run : S → List E → Option S
  | s, [] => some s
  | s, e :: es => (step s e).bind fun s' => run s' es

/-- Every step of the run that is taken meets `ok`. -/
def Along (ok : S → E → Prop) : S → List E → Prop
  | _, [] => True
  | s, e :: es => ok s e ∧ ∀ s', step s e = some s' → Along ok s' es

variable {step} {ok : S → E → Prop} {s s' s'' : S} {e : E} {es es' : List E}

theorem run_cons_eq_some :
    run step s (e :: es) = some s'' ↔ ∃ s', step s e = some s' ∧ run step s' es = some s'' := by
  simp [run, Option.bind_eq_some_iff]

theorem run_append (h : run step s es = some s') : run step s (es ++ es') = run step s' es' := by
  induction es generalizing s with
  | nil => cases h; rfl
  | cons e es ih =>
    obtain ⟨t, ht, hrun⟩ := run_cons_eq_some.1 h
    simp only [List.cons_append, run, ht, Option.bind_some]
    exact ih hrun

/-- **The invariant rule**, for runs that keep to a condition. -/
theorem run_invariant {P : S → Prop}
    (hstep : ∀ s e s', P s → ok s e → step s e = some s' → P s')
    (h : P s) (hok : Along step ok s es) (hrun : run step s es = some s') : P s' := by
  induction es generalizing s with
  | nil => cases hrun; exact h
  | cons e es ih =>
    obtain ⟨t, ht, hrun⟩ := run_cons_eq_some.1 hrun
    exact ih (hstep s e t h hok.1 ht) (hok.2 t ht) hrun

theorem Along.and {ok' : S → E → Prop} (h : Along step ok s es) (h' : Along step ok' s es) :
    Along step (fun s e => ok s e ∧ ok' s e) s es := by
  induction es generalizing s with
  | nil => trivial
  | cons e es ih => exact ⟨⟨h.1, h'.1⟩, fun s' hs => ih (h.2 s' hs) (h'.2 s' hs)⟩

theorem Along.of_forall (h : ∀ s e, ok s e) : Along step ok s es := by
  induction es generalizing s with
  | nil => trivial
  | cons e es ih => exact ⟨h s e, fun _ _ => ih⟩

/-- The invariant rule for runs without a condition. -/
theorem run_invariant' {P : S → Prop} (hstep : ∀ s e s', P s → step s e = some s' → P s')
    (h : P s) (hrun : run step s es = some s') : P s' :=
  run_invariant (fun s e s' hs _ => hstep s e s' hs) h
    (Along.of_forall fun _ _ => trivial) hrun

theorem along_append (h : run step s es = some s') :
    Along step ok s (es ++ es') ↔ Along step ok s es ∧ Along step ok s' es' := by
  induction es generalizing s with
  | nil => cases h; simp [Along]
  | cons e es ih =>
    obtain ⟨t, ht, hrun⟩ := run_cons_eq_some.1 h
    simp only [List.cons_append, Along, ht, Option.some.injEq, forall_eq', ih hrun, and_assoc]

/-- Where the condition can be decided, so can whether a run keeps to it. -/
instance Along.decidable [∀ s e, Decidable (ok s e)] :
    (s : S) → (es : List E) → Decidable (Along step ok s es)
  | _, [] => isTrue trivial
  | s, e :: es =>
    match h : step s e with
    | none => decidable_of_iff (ok s e) (by simp [Along, h])
    | some s' =>
      have := Along.decidable s' es
      decidable_of_iff (ok s e ∧ Along step ok s' es) (by simp [Along, h])

section Tasks

variable {α : Type} {l : List α} {i : Nat} {a b : α}

/-- **A task takes a step**: the others stay as they are. -/
theorem set_perm (h : l[i]? = some a) :
    ∃ rest, l.Perm (a :: rest) ∧ ∀ b, (l.set i b).Perm (b :: rest) := by
  obtain ⟨hi, rfl⟩ := List.getElem?_eq_some_iff.1 h
  exact ⟨l.eraseIdx i, (List.getElem_cons_eraseIdx_perm hi).symm,
    fun b => List.set_perm_cons_eraseIdx hi b⟩

theorem mem_of_mem_set {c : α} (h : l[i]? = some a)
    (hc : c ∈ l.set i b) : c = b ∨ c ∈ l := by
  obtain ⟨rest, hl, hset⟩ := set_perm h
  rcases List.mem_cons.1 ((hset b).mem_iff.1 hc) with hc | hc
  · exact .inl hc
  · exact .inr (hl.mem_iff.2 (List.mem_cons_of_mem _ hc))

/-- A count over the tasks when one of them takes a step. -/
theorem countP_set_add (p : α → Bool) (h : l[i]? = some a) :
    (l.set i b).countP p + (p a).toNat = l.countP p + (p b).toNat := by
  obtain ⟨rest, hl, hset⟩ := set_perm h
  rw [hl.countP_eq, (hset b).countP_eq, List.countP_cons, List.countP_cons]
  cases p a <;> cases p b <;> simp [Bool.toNat]

theorem countP_set_same {p : α → Bool} (h : l[i]? = some a) (hp : p b = p a) :
    (l.set i b).countP p = l.countP p := by
  have := countP_set_add (b := b) p h
  rw [hp] at this
  omega

end Tasks

end UwuMail.Trace
