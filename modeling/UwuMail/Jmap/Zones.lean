/-
# Local times

A time zone is an offset and the instants from which another one holds.  At an instant `t` its
clocks show `t + offset`; a local time is shown once, or twice when clocks went back, or never when
they skipped it (`jscal.rs`, over the zones of `chrono-tz`).  `to_utc` takes the first instant that
shows a local time.  One that no instant shows it looks up AN HOUR LATER.

* §1 is the zone, and `from_local_datetime` as `chrono` documents it: the instants that show a local
  time.
* §4 is the result.  Times there are come back.  A time in a gap keeps the offset from before the
  gap when the gap is one hour long; for gaps of half an hour or of a day something else comes out.
-/
import Mathlib

namespace UwuMail.Jscal

/-! ## 1. Zones -/

/-- From an instant on, another offset holds. -/
structure Transition where
  instant : Int
  offset : Int
  deriving DecidableEq

/-- The offset there is first, and when it changes. -/
structure Zone where
  first : Int
  transitions : List Transition
  sorted : transitions.Pairwise fun t u => t.instant < u.instant

/-- The offset in force at an instant, seconds east of Greenwich. -/
def offsetFrom (t : Int) : Int → List Transition → Int
  | offset, [] => offset
  | offset, next :: rest => if t < next.instant then offset else offsetFrom t next.offset rest

def Zone.offsetAt (zone : Zone) (t : Int) : Int := offsetFrom t zone.first zone.transitions

/-- What the clocks show, seconds since 1970 as if the local time were UTC. -/
def Zone.shown (zone : Zone) (t : Int) : Int := t + zone.offsetAt t

/-- The instants from `since` on that show a local time, one span after the other. -/
def showingFrom (l : Int) : Option Int → Int → List Transition → List Int
  | since, offset, [] => if since.all (· ≤ l - offset) then [l - offset] else []
  | since, offset, next :: rest =>
    (if since.all (· ≤ l - offset) && decide (l - offset < next.instant) then [l - offset] else []) ++
      showingFrom l (some next.instant) next.offset rest

def Zone.showing (zone : Zone) (l : Int) : List Int := showingFrom l none zone.first zone.transitions

/-- `chrono::LocalResult` -/
inductive LocalResult where
  | single (t : Int)
  | ambiguous (earliest latest : Int)
  | none

def LocalResult.earliest : LocalResult → Option Int
  | .single t => some t
  | .ambiguous t _ => some t
  | .none => Option.none

/-- `TimeZone::from_local_datetime` -/
def Zone.fromLocal (zone : Zone) (l : Int) : LocalResult :=
  match zone.showing l with
  | [] => .none
  | [t] => .single t
  | t :: u :: rest => .ambiguous t ((u :: rest).getLast (List.cons_ne_nil u rest))

/-! ## 2. The source -/

/-- A local time in a zone as a UTC timestamp. -/
def toUtc (zone : Zone) (l : Int) : Int :=
  match zone.fromLocal l with
  | .single t => t
  | .ambiguous t _ => t
  | .none =>
    match (zone.fromLocal (l + 3600)).earliest with
    | some t => t
    | Option.none => l

def fromUtc (zone : Zone) (t : Int) : Int := zone.shown t

/-! ## 3. The instants that show a time -/

section
variable {zone : Zone} {l t : Int} {since : Option Int} {offset : Int} {rest : List Transition}

theorem mem_showingFrom (hsince : ∀ s ∈ since, ∀ next ∈ rest, s < next.instant)
    (hsorted : rest.Pairwise fun t u => t.instant < u.instant) :
    t ∈ showingFrom l since offset rest ↔ (∀ s ∈ since, s ≤ t) ∧ t + offsetFrom t offset rest = l := by
  induction rest generalizing since offset with
  | nil =>
    have hall : since.all (· ≤ l - offset) = true ↔ ∀ s ∈ since, s ≤ l - offset := by
      cases since <;> simp
    simp only [showingFrom, offsetFrom]
    split
    next h =>
      rw [hall] at h
      rw [List.mem_singleton]
      constructor
      · rintro rfl
        exact ⟨h, by omega⟩
      · rintro ⟨-, rfl⟩
        omega
    next h =>
      rw [hall] at h
      constructor
      · intro hmem
        cases hmem
      · rintro ⟨hfrom, rfl⟩
        exact absurd (by simpa using hfrom) h
  | cons next rest ih =>
    obtain ⟨hfirst, hrest⟩ := List.pairwise_cons.1 hsorted
    have hall : since.all (· ≤ l - offset) = true ↔ ∀ s ∈ since, s ≤ l - offset := by
      cases since <;> simp
    have hafter : ∀ s ∈ some next.instant, ∀ u ∈ rest, s < u.instant := by
      rintro s ⟨⟩ u hu
      exact hfirst u hu
    simp only [showingFrom, offsetFrom, List.mem_append, ih hafter hrest, Option.mem_some_iff, forall_eq']
    constructor
    · rintro (hmem | ⟨hle, hshown⟩)
      · split at hmem
        next h =>
          obtain rfl := List.mem_singleton.1 hmem
          simp only [Bool.and_eq_true, hall, decide_eq_true_eq] at h
          rw [if_pos h.2]
          exact ⟨h.1, by omega⟩
        next => cases hmem
      · rw [if_neg (by omega)]
        exact ⟨fun s hs => (hsince s hs next List.mem_cons_self).le.trans hle, hshown⟩
    · rintro ⟨hfrom, hshown⟩
      by_cases hlt : t < next.instant
      · rw [if_pos hlt] at hshown
        obtain rfl : t = l - offset := by omega
        left
        rw [if_pos (by simp only [Bool.and_eq_true, hall, decide_eq_true_eq]; exact ⟨hfrom, hlt⟩)]
        exact List.mem_singleton.2 rfl
      · rw [if_neg hlt] at hshown
        exact .inr ⟨by omega, hshown⟩

theorem sorted_showingFrom (hsince : ∀ s ∈ since, ∀ next ∈ rest, s < next.instant)
    (hsorted : rest.Pairwise fun t u => t.instant < u.instant) :
    (showingFrom l since offset rest).Pairwise (· < ·) := by
  induction rest generalizing since offset with
  | nil =>
    unfold showingFrom
    split
    · exact List.pairwise_singleton _ _
    · exact .nil
  | cons next rest ih =>
    obtain ⟨hfirst, hrest⟩ := List.pairwise_cons.1 hsorted
    have hafter : ∀ s ∈ some next.instant, ∀ u ∈ rest, s < u.instant := by
      rintro s ⟨⟩ u hu
      exact hfirst u hu
    unfold showingFrom
    split
    next h =>
      simp only [Bool.and_eq_true, decide_eq_true_eq] at h
      refine List.pairwise_cons.2 ⟨fun u hu => ?_, ih hafter hrest⟩
      have hle := ((mem_showingFrom hafter hrest).1 hu).1 next.instant rfl
      omega
    next => exact ih hafter hrest

theorem Zone.mem_showing : t ∈ zone.showing l ↔ zone.shown t = l := by
  unfold Zone.showing Zone.shown Zone.offsetAt
  rw [mem_showingFrom (fun _ hs => by cases hs) zone.sorted]
  exact and_iff_right fun _ hs => by cases hs

/-- **The first instant that shows a local time**, if one does. -/
theorem Zone.earliest_eq_some :
    (zone.fromLocal l).earliest = some t ↔ zone.shown t = l ∧ ∀ u < t, zone.shown u ≠ l := by
  have hhead : (zone.fromLocal l).earliest = (zone.showing l).head? := by
    unfold Zone.fromLocal
    split <;> simp_all [LocalResult.earliest]
  have hsorted : (zone.showing l).Pairwise (· < ·) :=
    @sorted_showingFrom l none zone.first zone.transitions (fun _ hs => by cases hs) zone.sorted
  have hmem : ∀ u, u ∈ zone.showing l ↔ zone.shown u = l := fun u => Zone.mem_showing
  rw [hhead]
  cases hshowing : zone.showing l with
  | nil =>
    rw [hshowing] at hmem
    have hnever := (hmem t).not.1 List.not_mem_nil
    simp [hnever]
  | cons u rest =>
    rw [hshowing] at hmem hsorted
    have hu := (hmem u).1 List.mem_cons_self
    rw [List.head?_cons, Option.some.injEq]
    constructor
    · rintro rfl
      refine ⟨hu, fun v hv hshown => ?_⟩
      rcases List.mem_cons.1 ((hmem v).2 hshown) with rfl | hmore
      · exact lt_irrefl _ hv
      · exact absurd ((List.pairwise_cons.1 hsorted).1 v hmore) hv.asymm
    · rintro ⟨hshown, hfirst⟩
      rcases List.mem_cons.1 ((hmem t).2 hshown) with rfl | hmore
      · rfl
      · exact absurd hu (hfirst u ((List.pairwise_cons.1 hsorted).1 t hmore))

theorem Zone.earliest_eq_none : (zone.fromLocal l).earliest = none ↔ ∀ t, zone.shown t ≠ l := by
  have hnil : (zone.fromLocal l).earliest = none ↔ zone.showing l = [] := by
    unfold Zone.fromLocal
    split <;> simp_all [LocalResult.earliest]
  rw [hnil, List.eq_nil_iff_forall_not_mem]
  exact forall_congr' fun t => Zone.mem_showing.not

/-- `to_utc` by the first instants: of the time, else of the time an hour later. -/
theorem toUtc_eq : toUtc zone l =
    ((zone.fromLocal l).earliest.or (zone.fromLocal (l + 3600)).earliest).getD l := by
  unfold toUtc
  cases zone.fromLocal l with
  | single t => rfl
  | ambiguous t u => rfl
  | none => cases (zone.fromLocal (l + 3600)).earliest <;> rfl

/-! ## 4. What `to_utc` makes of them -/

/-- Clocks skip a local time at a transition: they had not come to it, then they were past it, and
no other instant shows it. -/
structure Zone.Gap (zone : Zone) (l before : Int) (change : Transition) : Prop where
  there : change ∈ zone.transitions
  old : zone.offsetAt (change.instant - 1) = before
  starts : change.instant + before ≤ l
  ends : l < change.instant + change.offset
  missing : ∀ t, zone.shown t ≠ l

/-- When an hour is the right step.  At the instant to name, clocks are an hour ahead of the offset
before the gap, and no earlier instant showed the hour later; or no instant does and the offset
before the gap is zero. -/
def Zone.ByAnHour (zone : Zone) (l before : Int) : Prop :=
  (zone.offsetAt (l - before) = before + 3600 ∧ ∀ t < l - before, zone.shown t ≠ l + 3600) ∨
    (before = 0 ∧ ∀ t, zone.shown t ≠ l + 3600)

/-- **Local times.**  A local time that exists comes back from `to_utc`.  A time in a gap is taken
with the offset from before the gap just when looking an hour later leads there. -/
theorem local_times (zone : Zone) (l : Int) :
    ((∃ t, zone.shown t = l) → fromUtc zone (toUtc zone l) = l) ∧
      ∀ before change, zone.Gap l before change → (toUtc zone l = l - before ↔ zone.ByAnHour l before) := by
  constructor
  · rintro ⟨t, ht⟩
    cases hearliest : (zone.fromLocal l).earliest with
    | none => exact absurd ht (Zone.earliest_eq_none.1 hearliest t)
    | some u =>
      rw [toUtc_eq, hearliest, Option.some_or, Option.getD_some]
      exact (Zone.earliest_eq_some.1 hearliest).1
  · intro before change hgap
    have hnone : (zone.fromLocal l).earliest = none := Zone.earliest_eq_none.2 hgap.missing
    rw [toUtc_eq, hnone, Option.none_or]
    cases hlater : (zone.fromLocal (l + 3600)).earliest with
    | none =>
      -- no instant shows the hour later: the local time is taken as it is
      have hnever := Zone.earliest_eq_none.1 hlater
      rw [Option.getD_none]
      constructor
      · intro h
        exact .inr ⟨by omega, hnever⟩
      · rintro (⟨hoffset, -⟩ | ⟨hzero, -⟩)
        · refine absurd ?_ (hnever (l - before))
          rw [Zone.shown, hoffset]
          omega
        · omega
    | some u =>
      obtain ⟨hshown, hfirst⟩ := Zone.earliest_eq_some.1 hlater
      rw [Option.getD_some]
      constructor
      · rintro rfl
        refine .inl ⟨?_, hfirst⟩
        rw [Zone.shown] at hshown
        omega
      · rintro (⟨hoffset, hearlier⟩ | ⟨-, hnever⟩)
        · have hthere : zone.shown (l - before) = l + 3600 := by
            rw [Zone.shown, hoffset]
            omega
          rcases lt_trichotomy u (l - before) with hlt | heq | hgt
          · exact absurd hshown (hearlier u hlt)
          · exact heq
          · exact absurd hthere (hfirst _ hgt)
        · exact absurd hshown (hnever u)

/-- Lord Howe Island: half an hour is skipped on 4 October 2026, at two in the morning. -/
def lordHowe : Zone where
  first := 37800
  transitions := [⟨1791041400, 39600⟩]
  sorted := List.pairwise_singleton _ _

/-- A quarter past two that night: a quarter to four o'clock UTC is named, not a quarter past
three. -/
theorem half_hour_gap_fails :
    lordHowe.Gap 1791080100 37800 ⟨1791041400, 39600⟩ ∧ toUtc lordHowe 1791080100 = 1791044100 ∧
      toUtc lordHowe 1791080100 ≠ 1791080100 - 37800 := by
  have hnone : (lordHowe.fromLocal 1791080100).earliest = none := by decide
  refine ⟨⟨by decide, by decide, by decide, by decide, Zone.earliest_eq_none.1 hnone⟩, by decide,
    by decide⟩

/-- A whole day was skipped in Samoa at the end of 2011: the time is taken as if it were UTC. -/
example : toUtc ⟨-36000, [⟨1325239200, 50400⟩], List.pairwise_singleton _ _⟩ 1325246400 = 1325246400 := by
  decide

end

end UwuMail.Jscal
