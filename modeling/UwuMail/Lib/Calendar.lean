/-
# The Gregorian calendar

The calendar without a beginning, as a plain count of days: `dayNumber` adds up the lengths of the
years since 1970 (or takes away those up to it), the lengths of the months before, and the days.

Programs do not count, they divide.  The usual way is to let the year begin in March, so that the
leap day is its last: `marchStart` is the first day of such a year in closed form, `yearOfEra` finds
the year a day of a 400-year era lies in.

* §2 is `marchStart`: it grows by the lengths of the years, so a day lies in exactly one
  (`march_unique`).
* §3 shows that `yearOfEra` finds it (`yearOfEra_spec`).
* §4 connects the two: a date's number by its March year and month (`dayNumber_eq`).
-/
import Mathlib

namespace UwuMail.Calendar

/-! ## 1. Counting days -/

/-- Every fourth year, but of the centuries only every fourth one. -/
def isLeap (year : Int) : Bool := year % 4 = 0 && (year % 100 ≠ 0 || year % 400 = 0)

def yearLength (year : Int) : Int := if isLeap year then 366 else 365

/-- The days of a month, January being 1. -/
def monthLength (year : Int) : Nat → Int
  | 2 => if isLeap year then 29 else 28
  | 4 => 30
  | 6 => 30
  | 9 => 30
  | 11 => 30
  | _ => 31

/-- The days from the beginning of 1970 to the beginning of a year. -/
noncomputable def yearStart (year : Int) : Int :=
  ∑ y ∈ Finset.Ico 1970 year, yearLength y - ∑ y ∈ Finset.Ico year 1970, yearLength y

/-- The days since 1970-01-01. -/
noncomputable def dayNumber (year : Int) (month : Nat) (day : Int) : Int :=
  yearStart year + ∑ m ∈ Finset.Ico 1 month, monthLength year m + (day - 1)

/-- A date there is. -/
structure IsDate (year : Int) (month : Nat) (day : Int) : Prop where
  month_pos : 1 ≤ month
  month_le : month ≤ 12
  day_pos : 1 ≤ day
  day_le : day ≤ monthLength year month

theorem isLeap_iff {year : Int} :
    isLeap year = true ↔ year % 4 = 0 ∧ (¬ year % 100 = 0 ∨ year % 400 = 0) := by
  simp [isLeap]

theorem IsDate.day_le_31 {year day : Int} {month : Nat} (h : IsDate year month day) : day ≤ 31 := by
  refine h.day_le.trans ?_
  unfold monthLength
  split <;> first | split <;> omega | omega

theorem yearStart_succ (year : Int) : yearStart (year + 1) = yearStart year + yearLength year := by
  unfold yearStart
  by_cases h : 1970 ≤ year
  · rw [← Finset.insert_Ico_right_eq_Ico_add_one h, Finset.sum_insert (by simp),
      Finset.Ico_eq_empty (by omega : ¬ year + 1 < 1970), Finset.Ico_eq_empty (by omega : ¬ year < 1970)]
    simp only [Finset.sum_empty]
    ring
  · rw [← Finset.insert_Ico_add_one_left_eq_Ico (by omega : year < 1970), Finset.sum_insert (by simp),
      Finset.Ico_eq_empty (by omega : ¬ 1970 < year + 1), Finset.Ico_eq_empty (by omega : ¬ 1970 < year)]
    simp only [Finset.sum_empty]
    ring

/-- What the first day of a year is, by division. -/
theorem yearStart_eq (year : Int) : yearStart year =
    365 * year + (year + 3) / 4 - (year + 99) / 100 + (year + 399) / 400 - 719528 := by
  have hstep : ∀ y : Int,
      (365 * (y + 1) + (y + 1 + 3) / 4 - (y + 1 + 99) / 100 + (y + 1 + 399) / 400 - 719528) =
        365 * y + (y + 3) / 4 - (y + 99) / 100 + (y + 399) / 400 - 719528 + yearLength y := by
    intro y
    unfold yearLength
    split
    next h =>
      have := isLeap_iff.1 h
      omega
    next h =>
      have := mt isLeap_iff.2 h
      omega
  induction year using Int.inductionOn' (b := 1970) with
  | zero => simp [yearStart]
  | succ y _ ih => rw [yearStart_succ, hstep, ih]
  | pred y _ ih =>
    have h1 := yearStart_succ (y - 1)
    have h2 := hstep (y - 1)
    rw [show y - 1 + 1 = y by omega] at h1 h2
    omega

/-! ## 2. Years that begin in March -/

/-- The first of March of a year, counted from that of the year 0. -/
def marchStart (year : Int) : Int := 365 * year + year / 4 - year / 100 + year / 400

/-- A March year ends with the February of the next year. -/
theorem marchStart_succ (year : Int) : marchStart (year + 1) = marchStart year + yearLength (year + 1) := by
  unfold marchStart yearLength
  split
  next h =>
    have := isLeap_iff.1 h
    omega
  next h =>
    have := mt isLeap_iff.2 h
    omega

theorem marchStart_lt_succ (year : Int) : marchStart year < marchStart (year + 1) := by
  rw [marchStart_succ]
  unfold yearLength
  split <;> omega

theorem marchStart_strictMono : StrictMono marchStart := strictMono_int_of_lt_succ marchStart_lt_succ

/-- **A day lies in one March year.** -/
theorem march_unique {n n' z : Int} (h : marchStart n ≤ z) (h' : z < marchStart (n + 1))
    (k : marchStart n' ≤ z) (k' : z < marchStart (n' + 1)) : n = n' := by
  have h1 : n < n' + 1 := marchStart_strictMono.lt_iff_lt.1 (by omega)
  have h2 : n' < n + 1 := marchStart_strictMono.lt_iff_lt.1 (by omega)
  omega

/-- A later day lies in the same year or in a later one. -/
theorem march_mono {n n' z z' : Int} (hz : z ≤ z') (h : marchStart n ≤ z)
    (h' : z' < marchStart (n' + 1)) : n ≤ n' := by
  have : n < n' + 1 := marchStart_strictMono.lt_iff_lt.1 (by omega)
  omega

/-! ## 3. The year of a day -/

/-- The year of a 400-year era that a day of the era lies in. -/
def yearOfEra (doe : Int) : Int := (doe - doe / 1460 + doe / 36524 - doe / 146096) / 365

/-- A day of an era, by its century, its four years, its year and its day of the year. -/
theorem exists_parts {doe : Int} (h : 0 ≤ doe) (h' : doe < 146097) : ∃ f q j k : Int,
    doe = 36524 * f + 1461 * q + 365 * j + k ∧ 0 ≤ f ∧ f ≤ 3 ∧ 0 ≤ q ∧ q ≤ 24 ∧ 0 ≤ j ∧ j ≤ 3 ∧ 0 ≤ k ∧
      (k ≤ 364 ∨ k = 365 ∧ j = 3 ∧ (q < 24 ∨ f = 3)) := by
  obtain ⟨f, hf, hf', hfr, hfr'⟩ : ∃ f : Int, 0 ≤ f ∧ f ≤ 3 ∧ 36524 * f ≤ doe ∧
      (doe < 36524 * f + 36524 ∨ f = 3) := by
    by_cases hlast : doe = 146096
    · exact ⟨3, by omega, by omega, by omega, by omega⟩
    · exact ⟨doe / 36524, by omega, by omega, by omega, by omega⟩
  obtain ⟨r, hr⟩ : ∃ r, r = doe - 36524 * f := ⟨_, rfl⟩
  obtain ⟨q, hq⟩ : ∃ q, q = r / 1461 := ⟨_, rfl⟩
  obtain ⟨s, hs⟩ : ∃ s, s = r - 1461 * q := ⟨_, rfl⟩
  have hq0 : 0 ≤ q ∧ q ≤ 24 := by omega
  by_cases hleap : s = 1460
  · exact ⟨f, q, 3, 365, by omega, hf, hf', hq0.1, hq0.2, by omega, by omega, by omega, .inr ⟨rfl,
      rfl, by omega⟩⟩
  · exact ⟨f, q, s / 365, s % 365, by omega, hf, hf', hq0.1, hq0.2, by omega, by omega, by omega,
      .inl (by omega)⟩

theorem yearOfEra_parts {f q j k : Int} (hf : 0 ≤ f) (hf' : f ≤ 3) (hq : 0 ≤ q) (hq' : q ≤ 24) (hj : 0 ≤ j)
    (hj' : j ≤ 3) (hk : 0 ≤ k) (hk' : k ≤ 364 ∨ k = 365 ∧ j = 3 ∧ (q < 24 ∨ f = 3)) :
    yearOfEra (36524 * f + 1461 * q + 365 * j + k) = 100 * f + 4 * q + j := by
  obtain ⟨doe, hdoe⟩ : ∃ doe, doe = 36524 * f + 1461 * q + 365 * j + k := ⟨_, rfl⟩
  rw [← hdoe, yearOfEra]
  -- only the era's last day is past its fourth century
  have hcentury : doe / 36524 = f ∨ doe / 36524 = f + 1 ∧ f = 3 ∧ q = 24 ∧ j = 3 ∧ k = 365 := by omega
  have hera : doe / 146096 = 0 ∨ doe / 146096 = 1 ∧ f = 3 ∧ q = 24 ∧ j = 3 ∧ k = 365 := by omega
  rcases hcentury with hcentury | hcentury <;> rcases hera with hera | hera
  · rw [hcentury, hera]
    have hfour : doe / 1460 = 25 * f + q ∨
        doe / 1460 = 25 * f + q + 1 ∧ 365 * j + k + q + 24 * f ≥ 1460 := by omega
    rcases hfour with hfour | hfour
    · omega
    · omega
  · omega
  · omega
  · omega

/-- **The year a day of an era lies in.** -/
theorem yearOfEra_spec {doe : Int} (h : 0 ≤ doe) (h' : doe < 146097) :
    (0 ≤ yearOfEra doe ∧ yearOfEra doe < 400) ∧
      marchStart (yearOfEra doe) ≤ doe ∧ doe < marchStart (yearOfEra doe + 1) := by
  obtain ⟨f, q, j, k, rfl, hf, hf', hq, hq', hj, hj', hk, hk'⟩ := exists_parts h h'
  rw [yearOfEra_parts hf hf' hq hq' hj hj' hk hk']
  have hstart : marchStart (100 * f + 4 * q + j) = 36524 * f + 1461 * q + 365 * j := by
    unfold marchStart
    omega
  refine ⟨by omega, by omega, ?_⟩
  -- the next year begins after its last day, with the leap day where there is one
  unfold marchStart
  rcases (by omega : j ≤ 2 ∨ j = 3 ∧ q < 24 ∨ j = 3 ∧ q = 24 ∧ f < 3 ∨ j = 3 ∧ q = 24 ∧ f = 3) with
    hj2 | ⟨rfl, hq3⟩ | ⟨rfl, rfl, hf2⟩ | ⟨rfl, rfl, rfl⟩
  · have hquarter : (100 * f + 4 * q + j + 1) / 4 = 25 * f + q := by omega
    have hcentury : (100 * f + 4 * q + j + 1) / 100 = f := by omega
    omega
  · have hcentury : (100 * f + 4 * q + 3 + 1) / 100 = f := by omega
    omega
  · omega
  · omega

/-- **The March year of a day**, whatever its era. -/
theorem march_year (z : Int) :
    marchStart (yearOfEra (z - z / 146097 * 146097) + z / 146097 * 400) ≤ z ∧
      z < marchStart (yearOfEra (z - z / 146097 * 146097) + z / 146097 * 400 + 1) := by
  obtain ⟨-, hle, hlt⟩ := yearOfEra_spec (by omega : 0 ≤ z - z / 146097 * 146097) (by omega)
  have hera : ∀ n e : Int, marchStart (n + e * 400) = marchStart n + e * 146097 := by
    intro n e
    unfold marchStart
    omega
  rw [show yearOfEra (z - z / 146097 * 146097) + z / 146097 * 400 + 1 =
    yearOfEra (z - z / 146097 * 146097) + 1 + z / 146097 * 400 by ring, hera, hera]
  omega

/-! ## 4. Dates by their March year -/

/-- The months from March on, `153` days for five of them. -/
def monthStart (mp : Int) : Int := (153 * mp + 2) / 5

/-- **The number of a date**, by the year and the month counted from March. -/
theorem dayNumber_eq {year : Int} {month : Nat} (day : Int) (h : 1 ≤ month) (h' : month ≤ 12) :
    dayNumber year month day =
      marchStart (if month ≤ 2 then year - 1 else year) + monthStart (((month : Int) + 9) % 12) + day - 1 -
        719468 := by
  unfold dayNumber marchStart monthStart
  rw [yearStart_eq]
  interval_cases month <;>
    simp [Finset.sum_Ico_eq_sum_range, Finset.sum_range_succ, monthLength, isLeap_iff] <;>
    omega

/-- The month of a day of a March year. -/
theorem month_of_day {mp doy : Int} (h : monthStart mp ≤ doy) (h' : doy < monthStart (mp + 1)) :
    (5 * doy + 2) / 153 = mp := by
  unfold monthStart at h h'
  omega

section
variable {year day : Int} {month : Nat}

/-- The days of a month are before the next month's first; February, the last one, may be
shorter. -/
theorem IsDate.lt_monthStart (h : IsDate year month day) :
    monthStart (((month : Int) + 9) % 12) + day - 1 < monthStart (((month : Int) + 9) % 12 + 1) := by
  obtain ⟨hm, hm', hd, hd'⟩ := h
  have h31 := IsDate.day_le_31 ⟨hm, hm', hd, hd'⟩
  unfold monthStart
  interval_cases month <;> simp [monthLength] at hd' ⊢ <;> omega

/-- The days of a date are in its March year. -/
theorem IsDate.march (h : IsDate year month day) :
    marchStart (if month ≤ 2 then year - 1 else year) ≤ dayNumber year month day + 719468 ∧
      dayNumber year month day + 719468 < marchStart ((if month ≤ 2 then year - 1 else year) + 1) := by
  obtain ⟨hm, hm', hd, hd'⟩ := h
  have h31 := IsDate.day_le_31 ⟨hm, hm', hd, hd'⟩
  rw [dayNumber_eq _ hm hm', marchStart_succ]
  generalize marchStart _ = start
  have hpos : 0 ≤ monthStart (((month : Int) + 9) % 12) := by
    unfold monthStart
    omega
  refine ⟨by omega, ?_⟩
  rcases (by omega : 2 < month ∨ month = 1 ∨ month = 2) with hlate | rfl | rfl
  · have : monthStart (((month : Int) + 9) % 12) ≤ 275 := by
      unfold monthStart
      omega
    unfold yearLength
    split <;> omega
  · have : monthStart 10 = 306 := rfl
    unfold yearLength
    split <;> simp <;> omega
  · have : monthStart 11 = 337 := rfl
    rw [monthLength] at hd'
    simp only [le_refl, if_true, sub_add_cancel, yearLength]
    split at hd' <;> simp_all <;> omega

end

end UwuMail.Calendar
