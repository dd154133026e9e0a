/-
# Periods with a status

Half-open periods `[start, stop)` of a line, each with a status.  A list of them is MERGED when none
is empty, they stand in order without overlapping, and two that touch differ.  `glue` puts one more
behind a merged list.

**There is only one merged list for what holds at each point** (`Merged.unique`), so whoever
computes one may look at the periods in any order.
-/
import Mathlib.Data.List.Pairwise
import Mathlib.Order.Defs.LinearOrder
import Mathlib.Order.Basic
import Mathlib.Order.Lattice

namespace UwuMail.Lib

structure Period (τ σ : Type) where
  start : τ
  stop : τ
  status : σ

namespace Period

variable {τ σ : Type} [LinearOrder τ] {p q : Period τ σ} {l l' : List (Period τ σ)} {t : τ} {s : σ}

def Covers (p : Period τ σ) (t : τ) : Prop := p.start ≤ t ∧ t < p.stop

/-- A period that covers the point has this status. -/
def At (l : List (Period τ σ)) (t : τ) (s : σ) : Prop := ∃ p ∈ l, p.Covers t ∧ p.status = s

structure Merged (l : List (Period τ σ)) : Prop where
  nonempty : ∀ p ∈ l, p.start < p.stop
  apart : l.Pairwise fun p q => p.stop ≤ q.start ∧ (p.stop = q.start → p.status ≠ q.status)

/-- One more period, as part of the last one if that touches it and has its status. -/
def glue [DecidableEq σ] (l : List (Period τ σ)) (p : Period τ σ) : List (Period τ σ) :=
  match l.getLast? with
  | some last =>
    if last.stop = p.start ∧ last.status = p.status
      then l.dropLast ++ [{ last with stop := p.stop }] else l ++ [p]
  | none => l ++ [p]

/-! ## 1. What holds at a point -/

theorem at_nil : ¬ At ([] : List (Period τ σ)) t s := fun ⟨_, hp, _⟩ => nomatch hp

theorem at_cons : At (p :: l) t s ↔ (p.Covers t ∧ p.status = s) ∨ At l t s := by
  unfold At
  simp only [List.mem_cons, or_and_right, exists_or, exists_eq_left]

theorem at_append : At (l ++ l') t s ↔ At l t s ∨ At l' t s := by
  unfold At
  simp only [List.mem_append, or_and_right, exists_or]

theorem at_singleton : At [p] t s ↔ p.Covers t ∧ p.status = s := by
  rw [at_cons, or_iff_left at_nil]

theorem Merged.nil : Merged ([] : List (Period τ σ)) where
  nonempty _ hp := nomatch hp
  apart := List.Pairwise.nil

theorem Merged.head_le (h : Merged (p :: l)) (hat : At (p :: l) t s) : p.start ≤ t := by
  rcases at_cons.1 hat with hp | ⟨q, hq, hcovers, -⟩
  · exact hp.1.1
  · have hpq := ((List.pairwise_cons.1 h.apart).1 q hq).1
    exact ((h.nonempty p List.mem_cons_self).le.trans hpq).trans hcovers.1

theorem Merged.tail (h : Merged (p :: l)) : Merged l :=
  ⟨fun q hq => h.nonempty q (List.mem_cons_of_mem _ hq), (List.pairwise_cons.1 h.apart).2⟩

/-- What comes behind the first period begins where it ends, or later. -/
theorem Merged.stop_le (h : Merged (p :: l)) (hat : At l t s) : p.stop ≤ t := by
  obtain ⟨q, hq, hcovers, -⟩ := hat
  exact ((List.pairwise_cons.1 h.apart).1 q hq).1.trans hcovers.1

theorem Merged.at_stop (h : Merged (p :: l)) (hat : At l p.stop s) : p.status ≠ s := by
  obtain ⟨q, hq, hcovers, rfl⟩ := hat
  have hpq := (List.pairwise_cons.1 h.apart).1 q hq
  exact hpq.2 (le_antisymm hpq.1 hcovers.1)

theorem Merged.at_start (h : Merged (p :: l)) : At (p :: l) p.start p.status :=
  ⟨p, List.mem_cons_self, ⟨le_rfl, h.nonempty p List.mem_cons_self⟩, rfl⟩

/-! ## 2. There is only one -/

theorem Merged.start_le (h : Merged (p :: l)) (h' : Merged (q :: l'))
    (hsame : ∀ t s, At (p :: l) t s ↔ At (q :: l') t s) : p.start ≤ q.start :=
  h.head_le ((hsame _ _).2 h'.at_start)

/-- Where the first period ends, the first of the other list ends, or it went on. -/
theorem Merged.stop_le_stop (h : Merged (p :: l))
    (hsame : ∀ t s, At (p :: l) t s ↔ At (q :: l') t s) (hstart : p.start = q.start)
      (hstatus : p.status = q.status) :
    q.stop ≤ p.stop := by
  by_contra hlt
  have hcovers : q.Covers p.stop := ⟨hstart ▸ (h.nonempty p List.mem_cons_self).le, lt_of_not_ge hlt⟩
  rcases at_cons.1 ((hsame p.stop q.status).2 (at_cons.2 (.inl ⟨hcovers, rfl⟩))) with hp | hl
  · exact lt_irrefl _ hp.1.2
  · exact h.at_stop hl hstatus

theorem Merged.status_eq (h : Merged (p :: l)) (h' : Merged (q :: l'))
    (hsame : ∀ t s, At (p :: l) t s ↔ At (q :: l') t s) (hstart : p.start = q.start) :
        p.status = q.status := by
  rcases at_cons.1 ((hsame _ _).1 h.at_start) with hq | hl
  · exact hq.2.symm
  · have hle := h'.stop_le hl
    rw [hstart] at hle
    exact absurd (h'.nonempty q List.mem_cons_self) (not_lt_of_ge hle)

/-- **Merged lists that say the same at each point are the same.** -/
theorem Merged.unique (h : Merged l) (h' : Merged l') (hsame : ∀ t s, At l t s ↔ At l' t s) : l = l' := by
  induction l generalizing l' with
  | nil =>
    cases l' with
    | nil => rfl
    | cons q l' => exact absurd ((hsame _ _).2 h'.at_start) at_nil
  | cons p l ih =>
    cases l' with
    | nil => exact absurd ((hsame _ _).1 h.at_start) at_nil
    | cons q l' =>
      have hsame' : ∀ t s, At (q :: l') t s ↔ At (p :: l) t s := fun t s => (hsame t s).symm
      have hstart := le_antisymm (h.start_le h' hsame) (h'.start_le h hsame')
      have hstatus := h.status_eq h' hsame hstart
      have hstop := le_antisymm (h'.stop_le_stop hsame' hstart.symm hstatus.symm)
        (h.stop_le_stop hsame hstart hstatus)
      have hpq : p = q := by
        cases p
        cases q
        simp only at hstart hstop hstatus
        rw [hstart, hstop, hstatus]
      subst hpq
      have hrest : ∀ t s, At l t s ↔ At l' t s := by
        intro t s
        constructor
        · intro hl
          rcases at_cons.1 ((hsame t s).1 (at_cons.2 (.inr hl))) with hp | hl'
          · exact absurd hp.1.2 (not_lt_of_ge (h.stop_le hl))
          · exact hl'
        · intro hl'
          rcases at_cons.1 ((hsame t s).2 (at_cons.2 (.inr hl'))) with hp | hl
          · exact absurd hp.1.2 (not_lt_of_ge (h'.stop_le hl'))
          · exact hl
      rw [ih h.tail h'.tail hrest]

/-! ## 3. One more period -/

theorem Merged.append (h : Merged l) (hp : p.start < p.stop)
    (hbefore : ∀ q ∈ l, q.stop ≤ p.start ∧ (q.stop = p.start → q.status ≠ p.status)) : Merged (l ++ [p]) := by
  constructor
  · intro q hq
    rcases List.mem_append.1 hq with hq | hq
    · exact h.nonempty q hq
    · rw [List.mem_singleton.1 hq]
      exact hp
  · rw [List.pairwise_append]
    refine ⟨h.apart, List.pairwise_singleton _ _, fun q hq r hr => ?_⟩
    rw [List.mem_singleton.1 hr]
    exact hbefore q hq

/-- Only the last period of a merged list can touch what comes behind all of them. -/
theorem Merged.before_last (h : Merged (l ++ [q])) (hstop : q.stop ≤ t) : ∀ r ∈ l, r.stop < t := by
  intro r hr
  have hrq := (List.pairwise_append.1 h.apart).2.2 r hr q (List.mem_singleton_self q)
  have hq := h.nonempty q (List.mem_append_right _ (List.mem_singleton_self q))
  exact (hrq.1.trans_lt hq).trans_le hstop

section Glue

variable [DecidableEq σ]

theorem Merged.glue (h : Merged l) (hp : p.start < p.stop) (hbefore : ∀ q ∈ l, q.stop ≤ p.start) :
    Merged (glue l p) := by
  unfold Period.glue
  cases hlast : l.getLast? with
  | none =>
    rw [List.getLast?_eq_none_iff] at hlast
    subst hlast
    exact .append .nil hp fun _ hq => nomatch hq
  | some last =>
    obtain ⟨init, rfl⟩ := List.getLast?_eq_some_iff.1 hlast
    have hend := hbefore last (List.mem_append_right _ (List.mem_singleton_self _))
    have hinit := h.before_last hend
    dsimp only
    split
    · next htouch =>
      rw [List.dropLast_concat]
      have hlong : last.start < p.stop :=
        (h.nonempty last (List.mem_append_right _ (List.mem_singleton_self _))).trans_le
          (htouch.1.le.trans hp.le)
      have hwhole := List.pairwise_append.1 h.apart
      refine .append ⟨fun q hq => h.nonempty q (List.mem_append_left _ hq), hwhole.1⟩ hlong fun q hq => ?_
      exact hwhole.2.2 q hq last (List.mem_singleton_self _)
    · next hapart =>
      refine h.append hp fun q hq => ⟨hbefore q hq, fun heq => ?_⟩
      rcases List.mem_append.1 hq with hq | hq
      · exact absurd heq (hinit q hq).ne
      · rw [List.mem_singleton.1 hq] at heq ⊢
        exact fun hstatus => hapart ⟨heq, hstatus⟩

/-- **Gluing adds the period and nothing else.** -/
theorem at_glue (h : Merged l) (hp : p.start < p.stop) :
    At (glue l p) t s ↔ At l t s ∨ (p.Covers t ∧ p.status = s) := by
  unfold Period.glue
  cases hlast : l.getLast? with
  | none => rw [at_append, at_singleton]
  | some last =>
    obtain ⟨init, rfl⟩ := List.getLast?_eq_some_iff.1 hlast
    have hne := h.nonempty last (List.mem_append_right _ (List.mem_singleton_self _))
    dsimp only
    split
    · next htouch =>
      rw [List.dropLast_concat, at_append, at_append, at_singleton, at_singleton, or_assoc]
      refine or_congr_right ?_
      rw [← htouch.2, ← or_and_right]
      refine and_congr_left fun _ => ?_
      unfold Covers
      dsimp only
      rw [← htouch.1] at hp ⊢
      constructor
      · rintro ⟨hlo, hhi⟩
        rcases lt_or_ge t last.stop with hlt | hge
        · exact .inl ⟨hlo, hlt⟩
        · exact .inr ⟨hge, hhi⟩
      · rintro (⟨hlo, hhi⟩ | ⟨hlo, hhi⟩)
        · exact ⟨hlo, hhi.trans hp⟩
        · exact ⟨hne.le.trans hlo, hhi⟩
    · rw [at_append, at_singleton]

theorem stop_glue (hp : p.start < p.stop) (hbefore : ∀ q ∈ l, q.stop ≤ p.start) :
    ∀ q ∈ glue l p, q.stop ≤ p.stop := by
  intro q hq
  unfold Period.glue at hq
  have happend : q ∈ l ++ [p] → q.stop ≤ p.stop := by
    intro hq
    rcases List.mem_append.1 hq with hq | hq
    · exact (hbefore q hq).trans hp.le
    · rw [List.mem_singleton.1 hq]
  split at hq
  · split at hq
    · rcases List.mem_append.1 hq with hq | hq
      · exact (hbefore q (List.dropLast_subset _ hq)).trans hp.le
      · rw [List.mem_singleton.1 hq]
    · exact happend hq
  · exact happend hq

end Glue

end Period

end UwuMail.Lib
