/-
# Forests given by parent pointers

`up x` is the parent of `x`, or `none` for a root.  Nothing says that following the pointers ever
ends: `Chain up P q n` says that from `q` it does, after `n` nodes, all of which satisfy `P`.  A
node whose chain ends lies on no cycle.

The one operation is `Function.update up x p`, which hangs `x`, and with it everything below, under
`p`.  If the chain of `p` ends without meeting `x`, every chain still ends afterwards, and
`Chain.move` says how long it is.
-/
import Mathlib

namespace UwuMail
namespace Forest

variable {ι : Type}

/-- Following the pointers from `q` ends after `n` nodes, and all of them satisfy `P`. -/
inductive Chain (up : ι → Option ι) (P : ι → Prop) : Option ι → Nat → Prop
  | root : Chain up P none 0
  | node {x : ι} {n : Nat} : P x → Chain up P (up x) n → Chain up P (some x) (n + 1)

/-- The same without a condition: the number of nodes from `q` up to a root. -/
abbrev Depth (up : ι → Option ι) : Option ι → Nat → Prop := Chain up fun _ => True

/-- `y` is `k` levels below `x`. -/
inductive Below (up : ι → Option ι) (x : ι) : ι → Nat → Prop
  | refl : Below up x x 0
  | step {y z : ι} {k : Nat} : up y = some z → Below up x z k → Below up x y (k + 1)

variable {up up' : ι → Option ι} {P Q : ι → Prop} {q : Option ι} {x : ι} {n : Nat}

theorem Chain.mono (h : Chain up P q n) (hPQ : ∀ y, P y → Q y) : Chain up Q q n := by
  induction h with
  | root => exact .root
  | node hx _ ih => exact .node (hPQ _ hx) ih

/-- Pointers that a chain does not follow do not matter. -/
theorem Chain.congr (h : Chain up P q n) (hup : ∀ y, P y → up' y = up y) : Chain up' P q n := by
  induction h with
  | root => exact .root
  | @node y n hy _ ih =>
    refine .node hy ?_
    rw [hup y hy]
    exact ih

/-- A node that is nobody's parent is in nobody else's chain. -/
theorem Chain.avoid (h : Chain up P q n) (hx : ∀ y, up y ≠ some x) (hq : q ≠ some x) :
    Chain up (· ≠ x) q n := by
  induction h with
  | root => exact .root
  | @node y n _ _ ih => exact .node (fun e => hq (congrArg some e)) (ih (hx y))

/-- There is one way up. -/
theorem Chain.unique {m : Nat} (h : Chain up P q n) (h' : Chain up Q q m) : n = m := by
  induction h generalizing m with
  | root =>
    cases h'
    rfl
  | node _ _ ih =>
    cases h' with
    | node _ h' => rw [ih h']

/-- A parent's chain is shorter. -/
theorem Depth.lt_of_transGen {y : ι} (h : Relation.TransGen (fun c p => up c = some p) x y)
    (hx : Depth up (some x) n) : ∃ m < n, Depth up (some y) m := by
  induction h with
  | single hy =>
    cases hx with
    | node _ hx =>
      rw [hy] at hx
      exact ⟨_, Nat.lt_succ_self _, hx⟩
  | tail _ hy ih =>
    obtain ⟨m, hm, hz⟩ := ih
    cases hz with
    | node _ hz =>
      rw [hy] at hz
      exact ⟨_, by omega, hz⟩

/-- A node whose chain ends lies on no cycle. -/
theorem Depth.not_cycle (hx : Depth up (some x) n) :
    ¬ Relation.TransGen (fun c p => up c = some p) x x := by
  intro h
  obtain ⟨m, hm, hx'⟩ := hx.lt_of_transGen h
  have := hx.unique hx'
  omega

/-- **Moving a subtree.**  A chain that does not pass `x` is as it was; a node `k` levels below `x`
has `k` more nodes to go than `x` itself. -/
theorem Chain.move [DecidableEq ι] {p : Option ι} {d : Nat} (hp : Chain up (· ≠ x) p n)
    (h : Depth up q d) :
    Depth (Function.update up x p) q d ∨
      ∃ y k, q = some y ∧ Below up x y k ∧ Depth (Function.update up x p) q (k + 1 + n) := by
  -- The chain of `p` does not meet `x`, so it is as it was.
  have hp' : Depth (Function.update up x p) p n :=
    (hp.congr fun y hy => Function.update_of_ne hy p up).mono fun _ _ => trivial
  induction h with
  | root => exact .inl .root
  | @node y d _ h ih =>
    by_cases hy : y = x
    · subst hy
      refine .inr ⟨y, 0, rfl, .refl, ?_⟩
      rw [zero_add, add_comm]
      refine .node trivial ?_
      rw [Function.update_self]
      exact hp'
    · have hup : Function.update up x p y = up y := Function.update_of_ne hy p up
      rcases ih with ih | ⟨z, k, hz, hbelow, ih⟩
      · exact .inl (.node trivial (hup.symm ▸ ih))
      · refine .inr ⟨y, k + 1, rfl, .step hz hbelow, ?_⟩
        have := Chain.node (P := fun _ => True) (x := y) trivial (hup.symm ▸ ih)
        rwa [show k + 1 + n + 1 = k + 1 + 1 + n by omega] at this

/-- What is `k` levels below `x` has `k` more nodes to go. -/
theorem Below.depth {y : ι} {k : Nat} (h : Below up x y k) (hx : Depth up (some x) n) :
    Depth up (some y) (n + k) := by
  induction h with
  | refl => exact hx
  | @step y z k hy _ ih =>
    refine .node trivial ?_
    rw [hy]
    exact ih

/-- Nothing is below a node that is nobody's parent. -/
theorem Below.eq_zero {y : ι} {k : Nat} (h : Below up x y k) (hx : ∀ z, up z ≠ some x) : k = 0 := by
  induction h with
  | refl => rfl
  | @step y z k hy hz ih =>
    subst ih
    cases hz
    exact absurd hy (hx y)

/-- Follows the pointers, at most `fuel` of them. -/
def walk (up : ι → Option ι) : Nat → Option ι → Option Nat
  | _, none => some 0
  | 0, some _ => none
  | fuel + 1, some x => (walk up fuel (up x)).map (· + 1)

/-- What the walk counts is the depth. -/
theorem depth_of_walk {fuel : Nat} (h : walk up fuel q = some n) : Depth up q n := by
  induction fuel generalizing q n with
  | zero =>
    cases q with
    | none =>
      cases h
      exact .root
    | some x => cases h
  | succ fuel ih =>
    cases q with
    | none =>
      cases h
      exact .root
    | some x =>
      obtain ⟨k, hk, rfl⟩ := Option.map_eq_some_iff.1 h
      exact .node trivial (ih hk)

end Forest
end UwuMail
