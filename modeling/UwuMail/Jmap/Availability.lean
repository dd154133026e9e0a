/-
# Free and busy

`merge` of `availability.rs`: the periods someone is busy, cut at all bounds and glued together
again, so that none overlap.  **The answer is THE merged list of what holds at each point**
(`merge_spec`): the status of highest priority of all periods that cover it.
-/
import Mathlib.Data.List.Sort
import Mathlib.Data.List.Dedup
import UwuMail.Lib.Periods

namespace UwuMail.Jmap.Availability

open UwuMail.Lib UwuMail.Lib.Period

/-! ## 1. The source -/

/-- What `busyStatus` may be. -/
inductive Status where
  | confirmed
  | unavailable
  | tentative
deriving DecidableEq

/-- Somebody is busy from `start` up to `stop`, in seconds. -/
abbrev Period := Lib.Period Int Status

def priority : Status → Nat
  | .confirmed => 3
  | .unavailable => 2
  | .tentative => 1

/-- `Iterator::max_by_key`: of equal ones the last. -/
def maxByKey {α : Type} (key : α → Nat) (l : List α) : Option α :=
  l.foldl (fun best x => match best with
    | some y => if key y ≤ key x then some x else some y
    | none => some x) none

/-- All starts and ends, each once and in order. -/
def bounds (periods : List Period) : List Int :=
  (periods.flatMap fun p => [p.start, p.stop]).dedup.insertionSort (· ≤ ·)

/-- The status between two bounds. -/
def statusBetween (periods : List Period) (pair : Int × Int) : Option Status :=
  maxByKey priority
    ((periods.filter fun p => p.start ≤ pair.1 && p.stop ≥ pair.2 && p.stop > p.start).map fun p => p.status)

def step (periods merged : List Period) (pair : Int × Int) : List Period :=
  match statusBetween periods pair with
  | some status => glue merged ⟨pair.1, pair.2, status⟩
  | none => merged

/-- `Vec::windows(2)`. -/
def windows {α : Type} (l : List α) : List (α × α) := l.zip l.tail

/-- Periods merged and split so that none overlap and neighbours with the same status are one:
where they overlap, confirmed wins over unavailable, which wins over tentative. -/
def merge (periods : List Period) : List Period := (windows (bounds periods)).foldl (step periods) []

/-! ## 2. The highest -/

theorem priority_injective : Function.Injective priority := by
  intro a b h
  cases a <;> cases b <;> first | rfl | exact absurd h (by decide)

/-- What `maxByKey` has found so far is one of the elements, and none is above it. -/
theorem foldl_maxByKey {α : Type} (key : α → Nat) (l : List α) (y : α) :
    ∃ m, l.foldl (fun best x => match best with
      | some y => if key y ≤ key x then some x else some y
      | none => some x) (some y) = some m ∧ (m = y ∨ m ∈ l) ∧ key y ≤ key m ∧ ∀ x ∈ l, key x ≤ key m := by
  induction l generalizing y with
  | nil => exact ⟨y, rfl, .inl rfl, le_rfl, fun _ hx => nomatch hx⟩
  | cons x l ih =>
    rw [List.foldl_cons]
    dsimp only
    split
    · next hle =>
      obtain ⟨m, hm, hmem, hym, hall⟩ := ih x
      refine ⟨m, hm, ?_, hle.trans hym, ?_⟩
      · rcases hmem with rfl | hmem
        · exact .inr List.mem_cons_self
        · exact .inr (List.mem_cons_of_mem _ hmem)
      · intro z hz
        rcases List.mem_cons.1 hz with rfl | hz
        · exact hym
        · exact hall z hz
    · next hlt =>
      obtain ⟨m, hm, hmem, hym, hall⟩ := ih y
      refine ⟨m, hm, hmem.imp_right (List.mem_cons_of_mem _), hym, ?_⟩
      intro z hz
      rcases List.mem_cons.1 hz with rfl | hz
      · exact (Nat.lt_of_not_le hlt).le.trans hym
      · exact hall z hz

theorem exists_maxByKey {α : Type} (key : α → Nat) {l : List α} (h : l ≠ []) :
    ∃ m, maxByKey key l = some m := by
  cases l with
  | nil => exact absurd rfl h
  | cons y l =>
    obtain ⟨m, hm, -⟩ := foldl_maxByKey key l y
    exact ⟨m, hm⟩

theorem maxByKey_eq_some {α : Type} {key : α → Nat} (hkey : Function.Injective key) {l : List α} {m : α} :
    maxByKey key l = some m ↔ m ∈ l ∧ ∀ x ∈ l, key x ≤ key m := by
  cases l with
  | nil => simp [maxByKey]
  | cons y l =>
    unfold maxByKey
    rw [List.foldl_cons]
    obtain ⟨m', hm', hmem, hym, hall⟩ := foldl_maxByKey key l y
    rw [hm', Option.some.injEq]
    have hin : m' ∈ y :: l := by
      rcases hmem with rfl | hmem
      · exact List.mem_cons_self
      · exact List.mem_cons_of_mem _ hmem
    have htop : ∀ x ∈ y :: l, key x ≤ key m' := by
      intro x hx
      rcases List.mem_cons.1 hx with rfl | hx
      · exact hym
      · exact hall x hx
    constructor
    · rintro rfl
      exact ⟨hin, htop⟩
    · rintro ⟨hm, hm_top⟩
      exact hkey (le_antisymm (hm_top m' hin) (htop m hm))

/-! ## 3. Between the bounds -/

/-- **What holds at a point**: the status of highest priority of the periods that cover it. -/
def Highest (periods : List Period) (t : Int) (status : Status) : Prop :=
  At periods t status ∧ ∀ p ∈ periods, p.Covers t → priority p.status ≤ priority status

theorem mem_bounds {periods : List Period} {b : Int} :
    b ∈ bounds periods ↔ ∃ p ∈ periods, b = p.start ∨ b = p.stop := by
  unfold bounds
  rw [List.mem_insertionSort, List.mem_dedup, List.mem_flatMap]
  simp only [List.mem_cons, List.not_mem_nil, or_false]

theorem bounds_sorted (periods : List Period) : (bounds periods).Pairwise (· < ·) := by
  have hle : (bounds periods).Pairwise (· ≤ ·) := List.pairwise_insertionSort _ _
  have hnodup : (bounds periods).Nodup := by
    unfold bounds
    rw [(List.perm_insertionSort _ _).nodup_iff]
    exact List.nodup_dedup _
  exact (hle.and hnodup).imp fun h => lt_of_le_of_ne h.1 h.2

section
variable {l : List Int} {a b t c : Int}

theorem windows_cons_cons (a b : Int) (l : List Int) :
    windows (a :: b :: l) = (a, b) :: windows (b :: l) := rfl

theorem mem_of_mem_windows (h : (a, b) ∈ windows l) : a ∈ l ∧ b ∈ l := by
  have hzip := List.of_mem_zip h
  exact ⟨hzip.1, List.mem_of_mem_tail hzip.2⟩

/-- Bounds that follow each other have none in between. -/
theorem windows_gap (hl : l.Pairwise (· < ·)) (h : (a, b) ∈ windows l) : a < b ∧ ∀ c ∈ l, c ≤ a ∨ b ≤ c := by
  induction l with
  | nil => cases h
  | cons x l ih =>
    cases l with
    | nil => cases h
    | cons y l =>
      obtain ⟨hx, hrest⟩ := List.pairwise_cons.1 hl
      rw [windows_cons_cons, List.mem_cons] at h
      rcases h with heq | h
      · cases heq
        refine ⟨hx b List.mem_cons_self, fun c hc => ?_⟩
        rcases List.mem_cons.1 hc with rfl | hc
        · exact .inl le_rfl
        · rcases List.mem_cons.1 hc with rfl | hc
          · exact .inr le_rfl
          · exact .inr ((List.pairwise_cons.1 hrest).1 c hc).le
      · obtain ⟨hab, hgap⟩ := ih hrest h
        refine ⟨hab, fun c hc => ?_⟩
        rcases List.mem_cons.1 hc with rfl | hc
        · exact .inl (hx a (mem_of_mem_windows h).1).le
        · exact hgap c hc

/-- A point between two bounds lies between two that follow each other. -/
theorem exists_window {lo hi : Int} (hl : l.Pairwise (· < ·)) (hlo : lo ∈ l) (hhi : hi ∈ l)
    (h : lo ≤ t ∧ t < hi) :
    ∃ pair ∈ windows l, pair.1 ≤ t ∧ t < pair.2 := by
  induction l generalizing lo with
  | nil => cases hlo
  | cons x l ih =>
    obtain ⟨hx, hrest⟩ := List.pairwise_cons.1 hl
    have hxt : x ≤ t := by
      rcases List.mem_cons.1 hlo with rfl | hlo
      · exact h.1
      · exact (hx lo hlo).le.trans h.1
    have hhi' : hi ∈ l := by
      rcases List.mem_cons.1 hhi with rfl | hhi
      · exact absurd h.2 (not_lt_of_ge hxt)
      · exact hhi
    cases l with
    | nil => cases hhi'
    | cons y l =>
      rcases lt_or_ge t y with hlt | hge
      · exact ⟨(x, y), List.mem_cons_self, hxt, hlt⟩
      · obtain ⟨pair, hpair, hcovers⟩ := ih hrest List.mem_cons_self hhi' ⟨hge, h.2⟩
        exact ⟨pair, List.mem_cons_of_mem _ hpair, hcovers⟩

end

section
variable {periods : List Period} {pair : Int × Int} {t : Int}

/-- A period that covers one point between two bounds is there from the one to the other. -/
theorem covers_iff (hpair : pair ∈ windows (bounds periods)) (ht : pair.1 ≤ t ∧ t < pair.2) {p : Period}
    (hp : p ∈ periods) : p.Covers t ↔ p.start ≤ pair.1 ∧ p.stop ≥ pair.2 ∧ p.stop > p.start := by
  obtain ⟨hlt, hgap⟩ := windows_gap (bounds_sorted periods) hpair
  unfold Covers
  constructor
  · rintro ⟨hlo, hhi⟩
    have hstart := hgap p.start (mem_bounds.2 ⟨p, hp, .inl rfl⟩)
    have hstop := hgap p.stop (mem_bounds.2 ⟨p, hp, .inr rfl⟩)
    omega
  · rintro ⟨hlo, hhi, -⟩
    omega

/-- The statuses between two bounds, before the highest is chosen. -/
theorem mem_between (hpair : pair ∈ windows (bounds periods)) (ht : pair.1 ≤ t ∧ t < pair.2)
    {status : Status} :
    status ∈ ((periods.filter fun p => p.start ≤ pair.1 && p.stop ≥ pair.2 && p.stop > p.start).map
      fun p => p.status) ↔ At periods t status := by
  unfold At
  rw [List.mem_map]
  refine exists_congr fun p => ?_
  rw [List.mem_filter, and_assoc]
  refine and_congr_right fun hp => and_congr_left fun _ => ?_
  rw [covers_iff hpair ht hp]
  simp only [Bool.and_eq_true, decide_eq_true_eq, and_assoc]

theorem statusBetween_eq_some (hpair : pair ∈ windows (bounds periods)) (ht : pair.1 ≤ t ∧ t < pair.2)
    {status : Status} : statusBetween periods pair = some status ↔ Highest periods t status := by
  unfold statusBetween Highest
  rw [maxByKey_eq_some priority_injective, mem_between hpair ht]
  refine and_congr_right fun _ => ⟨fun h p hp hcovers => ?_, fun h s hs => ?_⟩
  · exact h _ ((mem_between hpair ht).2 ⟨p, hp, hcovers, rfl⟩)
  · obtain ⟨p, hp, hcovers, rfl⟩ := (mem_between hpair ht).1 hs
    exact h p hp hcovers

/-- Where some period is, there is a highest status. -/
theorem exists_highest {p : Period} (hp : p ∈ periods) (hcovers : p.Covers t) :
    ∃ status, Highest periods t status := by
  obtain ⟨pair, hpair, ht⟩ := exists_window (bounds_sorted periods) (mem_bounds.2 ⟨p, hp, .inl rfl⟩)
    (mem_bounds.2 ⟨p, hp, .inr rfl⟩) hcovers
  obtain ⟨status, hstatus⟩ := exists_maxByKey priority
    (List.ne_nil_of_mem ((mem_between hpair ht).2 ⟨p, hp, hcovers, rfl⟩))
  exact ⟨status, (statusBetween_eq_some hpair ht).1 hstatus⟩

end

/-! ## 4. The sweep -/

/-- **One step** adds what holds between the two bounds, behind all that came before. -/
theorem step_spec {periods merged : List Period} {pair : Int × Int} (hlt : pair.1 < pair.2)
    (hmerged : Merged merged) (hbefore : ∀ q ∈ merged, q.stop ≤ pair.1) :
    Merged (step periods merged pair) ∧ (∀ q ∈ step periods merged pair, q.stop ≤ pair.2) ∧
      ∀ t s, At (step periods merged pair) t s ↔
        At merged t s ∨ ((pair.1 ≤ t ∧ t < pair.2) ∧ statusBetween periods pair = some s) := by
  unfold step
  cases hstatus : statusBetween periods pair with
  | none =>
    refine ⟨hmerged, fun q hq => (hbefore q hq).trans hlt.le, fun t s => ?_⟩
    simp only [reduceCtorEq, and_false, or_false]
  | some status =>
    refine ⟨hmerged.glue hlt hbefore, stop_glue hlt hbefore, fun t s => ?_⟩
    rw [at_glue hmerged hlt, Option.some.injEq]
    rfl

/-- The whole sweep, by induction over the bounds: all that is there ends where the next step
begins. -/
theorem sweep_spec (periods : List Period) {l : List Int} {merged : List Period} (hl : l.Pairwise (· < ·))
    (hmerged : Merged merged) (hbefore : ∀ q ∈ merged, ∀ b ∈ l, q.stop ≤ b) :
    Merged ((windows l).foldl (step periods) merged) ∧
      ∀ t s, At ((windows l).foldl (step periods) merged) t s ↔ At merged t s ∨
        ∃ pair ∈ windows l, (pair.1 ≤ t ∧ t < pair.2) ∧ statusBetween periods pair = some s := by
  induction l generalizing merged with
  | nil => exact ⟨hmerged, fun t s => by simp [windows]⟩
  | cons a l ih =>
    cases l with
    | nil => exact ⟨hmerged, fun t s => by simp [windows]⟩
    | cons b l =>
      obtain ⟨ha, hrest⟩ := List.pairwise_cons.1 hl
      have hab : a < b := ha b List.mem_cons_self
      obtain ⟨hmerged', hstops, hat⟩ := @step_spec periods merged (a, b) hab hmerged
        fun q hq => hbefore q hq a List.mem_cons_self
      rw [windows_cons_cons, List.foldl_cons]
      obtain ⟨hdone, hall⟩ := ih hrest hmerged' fun q hq c hc => by
        refine (hstops q hq).trans ?_
        rcases List.mem_cons.1 hc with rfl | hc
        · exact le_rfl
        · exact ((List.pairwise_cons.1 hrest).1 c hc).le
      refine ⟨hdone, fun t s => ?_⟩
      rw [hall, hat, or_assoc]
      simp only [List.mem_cons, or_and_right, exists_or, exists_eq_left]

/-- At each point the merged list has what is highest there. -/
theorem at_merge (periods : List Period) :
    Merged (merge periods) ∧ ∀ t s, At (merge periods) t s ↔ Highest periods t s := by
  obtain ⟨hmerged, hat⟩ := sweep_spec periods (bounds_sorted periods) Merged.nil fun _ hq => nomatch hq
  refine ⟨hmerged, fun t s => ?_⟩
  unfold merge
  rw [hat, or_iff_right at_nil]
  constructor
  · rintro ⟨pair, hpair, ht, hstatus⟩
    exact (statusBetween_eq_some hpair ht).1 hstatus
  · intro hhighest
    obtain ⟨p, hp, hcovers, -⟩ := hhighest.1
    obtain ⟨pair, hpair, ht⟩ := exists_window (bounds_sorted periods) (mem_bounds.2 ⟨p, hp, .inl rfl⟩)
      (mem_bounds.2 ⟨p, hp, .inr rfl⟩) hcovers
    exact ⟨pair, hpair, ht, (statusBetween_eq_some hpair ht).2 hhighest⟩

theorem Highest.perm {periods periods' : List Period} (h : periods.Perm periods') {t : Int} {s : Status} :
    Highest periods t s ↔ Highest periods' t s := by
  unfold Highest At
  simp only [h.mem_iff]

/-- **Merging.**  No period of the answer is empty; they stand in order and apart, and two that
touch have different statuses; a point is covered if a given period that is not empty covers it,
with the status of highest priority of these; and the order of the list does not matter. -/
theorem merge_spec (periods : List Period) :
    (∀ p ∈ merge periods, p.start < p.stop) ∧
      ((merge periods).Pairwise fun p q => p.stop ≤ q.start ∧ (p.stop = q.start → p.status ≠ q.status)) ∧
      (∀ t : Int, (∃ p ∈ merge periods, p.start ≤ t ∧ t < p.stop) ↔
        ∃ p ∈ periods, p.start < p.stop ∧ p.start ≤ t ∧ t < p.stop) ∧
      (∀ t : Int, ∀ p ∈ merge periods, p.start ≤ t ∧ t < p.stop →
        (∃ q ∈ periods, (q.start ≤ t ∧ t < q.stop) ∧ q.status = p.status) ∧
          ∀ q ∈ periods, q.start ≤ t ∧ t < q.stop → priority q.status ≤ priority p.status) ∧
      ∀ periods', periods'.Perm periods → merge periods' = merge periods := by
  obtain ⟨hmerged, hat⟩ := at_merge periods
  refine ⟨hmerged.nonempty, hmerged.apart, fun t => ⟨?_, ?_⟩, ?_, ?_⟩
  · rintro ⟨p, hp, hcovers⟩
    obtain ⟨⟨q, hq, hcovers', -⟩, -⟩ := (hat t p.status).1 ⟨p, hp, hcovers, rfl⟩
    exact ⟨q, hq, hcovers'.1.trans_lt hcovers'.2, hcovers'⟩
  · rintro ⟨p, hp, -, hcovers⟩
    obtain ⟨status, hhighest⟩ := exists_highest hp hcovers
    obtain ⟨q, hq, hcovers', -⟩ := (hat t status).2 hhighest
    exact ⟨q, hq, hcovers'⟩
  · rintro t p hp hcovers
    exact (hat t p.status).1 ⟨p, hp, hcovers, rfl⟩
  · intro periods' hperm
    obtain ⟨hmerged', hat'⟩ := at_merge periods'
    exact hmerged'.unique hmerged fun t s => (hat' t s).trans ((Highest.perm hperm).trans (hat t s).symm)

end UwuMail.Jmap.Availability
