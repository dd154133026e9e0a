/-
# Dates and times in commands and answers

INTERNALDATE goes out as `"17-Sep-2026 08:30:00 +0000"` and comes in with APPEND and SEARCH.  The
server computes with Unix times and does the calendar itself: `days_from_civil` and
`civil_from_days` count March years in eras of 400.

* §1 is the arithmetic, which is that of the calendar and its inverse.
* §3 reads what is written.  A written time has the quotes of an IMAP string around it; the parser
  of strings takes them off before `parse_date_time` sees the text.
* §4 is the result: the text between the quotes reads as the time it was written for, and every
  date-time that follows the grammar reads as its instant, where a day that its month does not have
  counts on into the next one.
-/
import UwuMail.Lib.Calendar
import UwuMail.Store.Mutate
import UwuMail.Imap.Parser

namespace UwuMail.Imap

open Calendar

/-! ## 1. Days and dates -/

/-- Days since 1970-01-01 of a calendar date. -/
def daysFromCivil (year : Int) (month day : Nat) : Int :=
  let year := if month ≤ 2 then year - 1 else year
  let era := year / 400
  let yoe := year - era * 400
  let mp := ((month : Int) + 9) % 12
  let doy := (153 * mp + 2) / 5 + day - 1
  let doe := yoe * 365 + yoe / 4 - yoe / 100 + doy
  era * 146097 + doe - 719468

def civilFromDays (days : Int) : Int × Nat × Nat :=
  let z := days + 719468
  let era := z / 146097
  let doe := z - era * 146097
  let yoe := (doe - doe / 1460 + doe / 36524 - doe / 146096) / 365
  let doy := doe - (365 * yoe + yoe / 4 - yoe / 100)
  let mp := (5 * doy + 2) / 153
  let day := (doy - (153 * mp + 2) / 5 + 1).toNat
  let month := (if mp < 10 then mp + 3 else mp - 9).toNat
  let year := yoe + era * 400 + (if month ≤ 2 then 1 else 0)
  (year, month, day)

/-- **`days_from_civil` is the calendar's count**; a day past the month's end counts on. -/
theorem daysFromCivil_eq {year : Int} {month day : Nat} (h : 1 ≤ month) (h' : month ≤ 12) :
    daysFromCivil year month day = dayNumber year month day := by
  rw [dayNumber_eq _ h h']
  unfold daysFromCivil marchStart monthStart
  generalize (if month ≤ 2 then year - 1 else year) = n
  simp only
  omega

/-- The date of a day by its March year. -/
theorem civilFromDays_eq {n days : Int} (h : marchStart n ≤ days + 719468)
    (h' : days + 719468 < marchStart (n + 1)) :
    civilFromDays days =
      let doy := days + 719468 - marchStart n
      let mp := (5 * doy + 2) / 153
      let month := (if mp < 10 then mp + 3 else mp - 9).toNat
      (n + (if month ≤ 2 then 1 else 0), month, (doy - (153 * mp + 2) / 5 + 1).toNat) := by
  obtain ⟨hle, hlt⟩ := march_year (days + 719468)
  have hn := march_unique h h' hle hlt
  obtain ⟨era, hera⟩ : ∃ era, era = (days + 719468) / 146097 := ⟨_, rfl⟩
  rw [← hera] at hn
  obtain ⟨yoe, hyoe⟩ : ∃ yoe, yoe = yearOfEra (days + 719468 - era * 146097) := ⟨_, rfl⟩
  have hyoe' := (yearOfEra_spec (by omega : 0 ≤ days + 719468 - era * 146097) (by omega)).1
  rw [← hyoe] at hn hyoe'
  have hdoy : days + 719468 - era * 146097 - (365 * yoe + yoe / 4 - yoe / 100) =
      days + 719468 - marchStart n := by
    unfold marchStart
    omega
  unfold yearOfEra at hyoe
  unfold civilFromDays
  simp only [← hera]
  simp only [← hyoe, hdoy, hn]

/-- **A date comes back from its day.** -/
theorem civilFromDays_dayNumber {year : Int} {month day : Nat} (h : IsDate year month day) :
    civilFromDays (dayNumber year month day) = (year, month, day) := by
  obtain ⟨hle, hlt⟩ := h.march
  rw [civilFromDays_eq hle hlt]
  have hlast := h.lt_monthStart
  obtain ⟨hm, hm', hd, -⟩ := h
  have hdoy : dayNumber year month day + 719468 - marchStart (if month ≤ 2 then year - 1 else year) =
      monthStart (((month : Int) + 9) % 12) + day - 1 := by
    rw [dayNumber_eq _ hm hm']
    omega
  have hmp : (5 * (monthStart (((month : Int) + 9) % 12) + day - 1) + 2) / 153 = ((month : Int) + 9) % 12 :=
    month_of_day (by omega) hlast
  simp only [hdoy, hmp]
  rw [← monthStart]
  have hmonth : (if ((month : Int) + 9) % 12 < 10 then ((month : Int) + 9) % 12 + 3
      else ((month : Int) + 9) % 12 - 9).toNat = month := by
    split <;> omega
  rw [hmonth]
  refine Prod.ext ?_ (Prod.ext rfl ?_)
  · dsimp only
    split <;> omega
  · dsimp only
    omega

/-- **And a day from its date**, whichever day it is. -/
theorem dayNumber_civilFromDays (days : Int) :
    IsDate (civilFromDays days).1 (civilFromDays days).2.1 (civilFromDays days).2.2 ∧
      daysFromCivil (civilFromDays days).1 (civilFromDays days).2.1 (civilFromDays days).2.2 = days := by
  obtain ⟨hle, hlt⟩ := march_year (days + 719468)
  generalize yearOfEra _ + (days + 719468) / 146097 * 400 = n at hle hlt
  rw [civilFromDays_eq hle hlt]
  obtain ⟨doy, hdoy⟩ : ∃ doy, doy = days + 719468 - marchStart n := ⟨_, rfl⟩
  obtain ⟨mp, hmp⟩ : ∃ mp, mp = (5 * doy + 2) / 153 := ⟨_, rfl⟩
  simp only [← hdoy, ← hmp]
  have hlen : doy < yearLength (n + 1) := by
    rw [hdoy]
    have := marchStart_succ n
    omega
  have hmp' : 0 ≤ mp ∧ mp ≤ 11 := by
    unfold yearLength at hlen
    split at hlen <;> omega
  have hdate : IsDate (n + if (if mp < 10 then mp + 3 else mp - 9).toNat ≤ 2 then 1 else 0)
      (if mp < 10 then mp + 3 else mp - 9).toNat ((doy - (153 * mp + 2) / 5 + 1).toNat : Int) := by
    obtain ⟨h0, h11⟩ := hmp'
    have hday : 1 ≤ doy - (153 * mp + 2) / 5 + 1 := by omega
    rw [Int.toNat_of_nonneg (by omega)]
    refine ⟨by split <;> omega, by split <;> omega, hday, ?_⟩
    -- February ends with the March year, the other months before the next one
    unfold yearLength at hlen
    interval_cases mp <;> simp [monthLength] at hlen ⊢ <;> first | omega | (split at hlen <;> simp_all <;> omega)
  refine ⟨hdate, ?_⟩
  rw [daysFromCivil_eq hdate.month_pos hdate.month_le, dayNumber_eq _ hdate.month_pos hdate.month_le]
  have hmonth : (((if mp < 10 then mp + 3 else mp - 9).toNat : Int) + 9) % 12 = mp := by
    split <;> omega
  have hyear : ∀ month : Nat, (if month ≤ 2 then n + (if month ≤ 2 then 1 else 0) - 1
      else n + (if month ≤ 2 then 1 else 0)) = n := by
    intro month
    split <;> omega
  rw [hmonth, hyear, Int.toNat_of_nonneg (by omega)]
  unfold monthStart
  omega

/-! ## 2. Writing and reading -/

/-- The names of the months as the parser compares them. -/
def monthNames : List (List Char) :=
  ["jan", "feb", "mar", "apr", "may", "jun", "jul", "aug", "sep", "oct", "nov", "dec"].map String.toList

/-- `MONTHS` of the answers. -/
def monthTitles : List (List Char) :=
  ["Jan", "Feb", "Mar", "Apr", "May", "Jun", "Jul", "Aug", "Sep", "Oct", "Nov", "Dec"].map String.toList

/-- `{n:0width}` -/
def pad (width n : Nat) : List Char :=
  List.replicate (width - (Nat.toDigits 10 n).length) '0' ++ Nat.toDigits 10 n

/-- `{n:0width}` of a signed number, the sign included. -/
def padInt (width : Nat) (n : Int) : List Char :=
  if n < 0 then '-' :: pad (width - 1) n.natAbs else pad width n.toNat

/-- INTERNALDATE: `"17-Sep-2026 08:30:00 +0000"`. -/
def internalDate (unix : Int) : List Char :=
  let days := unix / 86400
  let seconds := (unix % 86400).toNat
  let (year, month, day) := civilFromDays days
  '"' :: pad 2 day ++ '-' :: monthTitles.getD (month - 1) [] ++ '-' :: padInt 4 year ++ ' ' ::
    pad 2 (seconds / 3600) ++ ':' :: pad 2 (seconds / 60 % 60) ++ ':' :: pad 2 (seconds % 60) ++
    " +0000\"".toList

/-- `str::parse` of digits, a `+` before them being allowed. -/
def parseUnsigned (max : Nat) (text : List Char) : Option Nat :=
  let digits := if text.head? = some '+' then text.tail else text
  if digits ≠ [] ∧ digits.all Char.isDigit = true ∧ Nat.ofDigitChars 10 digits 0 ≤ max then
    some (Nat.ofDigitChars 10 digits 0)
  else none

/-- `str::parse::<i64>`. -/
def parseI64 (text : List Char) : Option Int :=
  if text.head? = some '-' then
    if text.tail ≠ [] ∧ text.tail.all Char.isDigit = true ∧ Nat.ofDigitChars 10 text.tail 0 ≤ 2 ^ 63 then
      some (-(Nat.ofDigitChars 10 text.tail 0 : Int))
    else none
  else (parseUnsigned (2 ^ 63 - 1) text).map Int.ofNat

/-- `17-Sep-2026` as days since 1970-01-01. -/
def parseDate (text : List Char) : Option Int := do
  let [day, month, year] := text.splitOn '-' | none
  let day ← parseUnsigned (2 ^ 32 - 1) day
  let month ← monthNames.findIdx? (· = month.map Char.toLower)
  let year ← parseI64 year
  if (1 ≤ day ∧ day ≤ 31) ∧ 1 ≤ year ∧ year ≤ 9999 then some (daysFromCivil year (month + 1) day) else none

/-- `split_once` -/
def splitOnceAt (c : Char) (text : List Char) : Option (List Char × List Char) :=
  match text.span (· ≠ c) with
  | (before, _ :: after) => some (before, after)
  | (_, []) => none

/-- One or two digits. -/
def twoDigits (part : List Char) : Option Nat :=
  if part ≠ [] ∧ part.length ≤ 2 ∧ part.all Char.isDigit = true
    then some (Nat.ofDigitChars 10 part 0) else none

/-- `17-Sep-2026 10:00:00 +0200` (the day may have a leading space) as a Unix time. -/
def parseDateTime (text : List Char) : Option Int := do
  let (date, rest) ← splitOnceAt ' ' (text.dropWhile Store.isWhitespace)
  let (time, zone) ← splitOnceAt ' ' rest
  let days ← parseDate date
  let [h, m, s] := time.splitOn ':' | none
  let h ← twoDigits h
  let m ← twoDigits m
  let s ← twoDigits s
  if h > 23 ∨ m > 59 ∨ s > 60 then none
  let (sign, rest) ← match zone with
    | '+' :: rest => some ((1 : Int), rest)
    | '-' :: rest => some (-1, rest)
    | _ => none
  if rest.length ≠ 4 then none
  let zoneH ← twoDigits (rest.take 2)
  let zoneM ← twoDigits (rest.drop 2)
  some (days * 86400 + h * 3600 + m * 60 + s - sign * (zoneH * 3600 + zoneM * 60))

example : internalDate 1789634096 = "\"17-Sep-2026 08:34:56 +0000\"".toList := by decide

/-! ## 3. What is written is read -/

section
variable {width n : Nat} {c : Char}

theorem isDigit_of_mem_pad (h : c ∈ pad width n) : c.isDigit = true := by
  rcases List.mem_append.1 h with h | h
  · rw [List.eq_of_mem_replicate h]
    rfl
  · exact Nat.isDigit_of_mem_toDigits (by decide) (by decide) h

theorem pad_ne_nil : pad width n ≠ [] := by
  simp [pad, Nat.toDigits_ne_nil]

theorem length_pad_two (h : n < 100) : (pad 2 n).length = 2 := by
  have hle : (Nat.toDigits 10 n).length ≤ 2 := (Nat.length_toDigits_le_iff (by decide) (by decide)).2 h
  simp only [pad, List.length_append, List.length_replicate]
  omega

theorem ofDigitChars_pad : Nat.ofDigitChars 10 (pad width n) 0 = n := by
  rw [pad, Nat.ofDigitChars_append, Nat.ofDigitChars_replicate_zero, Nat.mul_zero,
    Nat.ofDigitChars_ten_toDigits]

/-- A digit is none of the characters a date is taken apart at. -/
theorem notMem_pad (h : c.isDigit = false) : c ∉ pad width n := by
  intro hc
  rw [isDigit_of_mem_pad hc] at h
  cases h

theorem head_pad_ne (h : c.isDigit = false) : (pad width n).head? ≠ some c := by
  intro hc
  exact notMem_pad h (List.mem_of_mem_head? hc)

theorem parseUnsigned_pad {max : Nat} (h : n ≤ max) : parseUnsigned max (pad width n) = some n := by
  unfold parseUnsigned
  simp only [if_neg (@head_pad_ne width n '+' rfl), ofDigitChars_pad]
  rw [if_pos ⟨pad_ne_nil, List.all_eq_true.2 fun _ hc => isDigit_of_mem_pad hc, h⟩]

theorem parseI64_pad (h : n < 2 ^ 63) : parseI64 (pad width n) = some (n : Int) := by
  unfold parseI64
  rw [if_neg (head_pad_ne rfl), parseUnsigned_pad (by omega)]
  rfl

theorem twoDigits_pad (h : n < 100) : twoDigits (pad 2 n) = some n := by
  unfold twoDigits
  rw [if_pos ⟨pad_ne_nil, (length_pad_two h).le, List.all_eq_true.2 fun _ hc => isDigit_of_mem_pad hc⟩,
    ofDigitChars_pad]

theorem splitOnceAt_append {before after : List Char} (h : c ∉ before) :
    splitOnceAt c (before ++ c :: after) = some (before, after) := by
  have hall : ∀ x ∈ before, decide (x ≠ c) = true := by
    intro x hx
    rw [decide_eq_true_eq]
    rintro rfl
    exact h hx
  unfold splitOnceAt
  rw [List.span_eq_takeWhile_dropWhile, List.takeWhile_append_of_pos hall, List.dropWhile_append_of_pos hall]
  simp

theorem splitOn_three {a b d : List Char} (ha : c ∉ a) (hb : c ∉ b) (hd : c ∉ d) :
    (a ++ c :: (b ++ c :: d)).splitOn c = [a, b, d] := by
  rw [List.splitOn_append_cons_self, List.splitOn_append_cons_self, List.splitOn_eq_singleton ha,
    List.splitOn_eq_singleton hb, List.splitOn_eq_singleton hd]
  rfl

end

/-- A date-time that follows the grammar: two digits for each number (a space may stand for the
first one of the day), four for the year, and the month's name in any case. -/
structure DateTime where
  spaced : Bool
  day : Nat
  month : Nat
  name : List Char
  year : Nat
  hour : Nat
  minute : Nat
  second : Nat
  negative : Bool
  zoneHour : Nat
  zoneMinute : Nat
  day_lt : day < if spaced then 10 else 100
  month_pos : 1 ≤ month
  month_le : month ≤ 12
  name_eq : name.map Char.toLower = monthNames.getD (month - 1) []
  year_lt : year < 10000
  hour_lt : hour < 100
  minute_lt : minute < 100
  second_lt : second < 100
  zoneHour_lt : zoneHour < 100
  zoneMinute_lt : zoneMinute < 100

namespace DateTime

variable (x : DateTime)

/-- The text without the space that may stand before it. -/
def trimmed : List Char :=
  pad (if x.spaced then 1 else 2) x.day ++ '-' :: (x.name ++ '-' :: pad 4 x.year) ++ ' ' ::
    (pad 2 x.hour ++ ':' :: (pad 2 x.minute ++ ':' :: pad 2 x.second) ++ ' ' ::
      (if x.negative then '-' else '+') :: (pad 2 x.zoneHour ++ pad 2 x.zoneMinute))

def text : List Char := if x.spaced then ' ' :: x.trimmed else x.trimmed

/-- How far ahead of UTC the zone is, in seconds. -/
def zone : Int := (if x.negative then -1 else 1) * (x.zoneHour * 3600 + x.zoneMinute * 60)

/-- **The instant in the Gregorian calendar.** -/
noncomputable def instant : Int :=
  dayNumber x.year x.month x.day * 86400 + x.hour * 3600 + x.minute * 60 + x.second - x.zone

/-- The numbers a date-time may have; a leap second is one. -/
def InRange : Prop :=
  (1 ≤ x.day ∧ x.day ≤ 31) ∧ 1 ≤ x.year ∧ x.hour ≤ 23 ∧ x.minute ≤ 59 ∧ x.second ≤ 60

instance : Decidable x.InRange := by
  unfold InRange
  infer_instance

theorem name_letters {c : Char} (h : c ∈ x.name) : 'a' ≤ c.toLower ∧ c.toLower ≤ 'z' := by
  have hmem : c.toLower ∈ monthNames.getD (x.month - 1) [] := by
    rw [← x.name_eq]
    exact List.mem_map_of_mem h
  have hall : (monthNames.all fun name => name.all fun c => decide ('a' ≤ c ∧ c ≤ 'z')) = true := by
    decide
  have hidx : x.month - 1 < monthNames.length := by
    have h1 := x.month_pos
    have h2 := x.month_le
    simp [monthNames]
    omega
  rw [List.getD_eq_getElem _ _ hidx] at hmem
  exact of_decide_eq_true (List.all_eq_true.1 (List.all_eq_true.1 hall _ (List.getElem_mem hidx)) _ hmem)

/-- A character that is no letter does not stand in the month's name. -/
theorem notMem_name {c : Char} (h : ¬ ('a' ≤ c.toLower ∧ c.toLower ≤ 'z')) : c ∉ x.name :=
  fun hc => h (x.name_letters hc)

theorem findIdx_name : monthNames.findIdx? (· = x.name.map Char.toLower) = some (x.month - 1) := by
  rw [x.name_eq]
  have h1 := x.month_pos
  have h2 := x.month_le
  generalize x.month = month at h1 h2
  interval_cases month <;> decide

theorem parseDate_pad {width : Nat} (hday : x.day < 100) :
    parseDate (pad width x.day ++ '-' :: (x.name ++ '-' :: pad 4 x.year)) =
      if (1 ≤ x.day ∧ x.day ≤ 31) ∧ 1 ≤ x.year then some (dayNumber x.year x.month x.day) else none := by
  have hyear := x.year_lt
  unfold parseDate
  rw [splitOn_three (notMem_pad rfl) (x.notMem_name (by decide)) (notMem_pad rfl)]
  simp only [parseUnsigned_pad (show x.day ≤ 2 ^ 32 - 1 by omega), parseI64_pad (show x.year < 2 ^ 63 by omega),
    findIdx_name, Option.bind_eq_bind, Option.bind_some, Nat.sub_add_cancel x.month_pos]
  rw [daysFromCivil_eq x.month_pos x.month_le]
  refine if_congr ?_ rfl rfl
  omega

/-- **What follows the grammar is read as its instant**, or not at all when a number is out of
range. -/
theorem parseDateTime_text : parseDateTime x.text = if x.InRange then some x.instant else none := by
  have hday : x.day < 100 := by
    have := x.day_lt
    split at this <;> omega
  have htrim : x.text.dropWhile Store.isWhitespace = x.trimmed := by
    obtain ⟨d, rest, hd⟩ : ∃ d rest, pad (if x.spaced then 1 else 2) x.day = d :: rest :=
      List.exists_cons_of_ne_nil pad_ne_nil
    have hdigit : d.isDigit = true := isDigit_of_mem_pad (hd ▸ List.mem_cons_self)
    have hfirst : x.trimmed.dropWhile Store.isWhitespace = x.trimmed := by
      obtain ⟨hlo, hhi⟩ := isDigit_val hdigit
      have hspace : ¬ Store.isWhitespace d = true := by
        simp only [Store.isWhitespace, Bool.or_eq_true, Bool.and_eq_true, decide_eq_true_eq, beq_iff_eq]
        omega
      rw [trimmed, hd]
      exact List.dropWhile_cons_of_neg hspace
    unfold text
    split
    · rw [List.dropWhile_cons_of_pos (by decide)]
      exact hfirst
    · exact hfirst
  have hdate : ' ' ∉ pad (if x.spaced then 1 else 2) x.day ++ '-' :: (x.name ++ '-' :: pad 4 x.year) := by
    simp only [List.mem_append, List.mem_cons, not_or]
    exact ⟨notMem_pad rfl, by decide, x.notMem_name (by decide), by decide, notMem_pad rfl⟩
  have htime : ' ' ∉ pad 2 x.hour ++ ':' :: (pad 2 x.minute ++ ':' :: pad 2 x.second) := by
    simp only [List.mem_append, List.mem_cons, not_or]
    exact ⟨notMem_pad rfl, by decide, notMem_pad rfl, by decide, notMem_pad rfl⟩
  have hzone : (pad 2 x.zoneHour ++ pad 2 x.zoneMinute).length = 4 := by
    rw [List.length_append, length_pad_two x.zoneHour_lt, length_pad_two x.zoneMinute_lt]
  unfold parseDateTime
  rw [htrim, trimmed, splitOnceAt_append hdate]
  simp only [Option.bind_eq_bind, Option.bind_some]
  rw [splitOnceAt_append htime]
  simp only [Option.bind_some]
  rw [x.parseDate_pad hday, splitOn_three (notMem_pad rfl) (notMem_pad rfl) (notMem_pad rfl)]
  simp only [twoDigits_pad x.hour_lt, twoDigits_pad x.minute_lt, twoDigits_pad x.second_lt, Option.bind_some]
  have htake : (pad 2 x.zoneHour ++ pad 2 x.zoneMinute).take 2 = pad 2 x.zoneHour :=
    List.take_left' (length_pad_two x.zoneHour_lt)
  have hdrop : (pad 2 x.zoneHour ++ pad 2 x.zoneMinute).drop 2 = pad 2 x.zoneMinute :=
    List.drop_left' (length_pad_two x.zoneHour_lt)
  by_cases hfirst : (1 ≤ x.day ∧ x.day ≤ 31) ∧ 1 ≤ x.year
  · by_cases hclock : x.hour > 23 ∨ x.minute > 59 ∨ x.second > 60
    · have hout : ¬ x.InRange := by
        unfold InRange
        omega
      rw [if_pos hfirst, if_neg hout]
      simp [hclock]
    · have hin : x.InRange := by
        unfold InRange
        omega
      rw [if_pos hfirst, if_pos hin]
      simp only [hclock, if_false, Option.bind_some, instant, zone]
      cases x.negative
      · simp [hzone, htake, hdrop, twoDigits_pad x.zoneHour_lt, twoDigits_pad x.zoneMinute_lt]
      · simp [hzone, htake, hdrop, twoDigits_pad x.zoneHour_lt, twoDigits_pad x.zoneMinute_lt]
  · have hout : ¬ x.InRange := by
      unfold InRange
      omega
    rw [if_neg hfirst, if_neg hout]
    rfl

end DateTime

/-- A date and a second of the day as `internal_date` writes them. -/
def DateTime.ofUnix {year : Nat} {month day : Nat} (h : IsDate year month day) (hyear : year < 10000)
    (seconds : Nat) (hs : seconds < 86400) : DateTime where
  spaced := false
  day := day
  month := month
  name := monthTitles.getD (month - 1) []
  year := year
  hour := seconds / 3600
  minute := seconds / 60 % 60
  second := seconds % 60
  negative := false
  zoneHour := 0
  zoneMinute := 0
  day_lt := by
    have := h.day_le_31
    simp
    omega
  month_pos := h.month_pos
  month_le := h.month_le
  name_eq := by
    have h1 := h.month_pos
    have h2 := h.month_le
    interval_cases month <;> decide
  year_lt := hyear
  hour_lt := by omega
  minute_lt := by omega
  second_lt := by omega
  zoneHour_lt := by decide
  zoneMinute_lt := by decide

theorem internalDate_eq {year : Nat} {month day : Nat} (h : IsDate year month day) (hyear : year < 10000)
    {seconds : Nat} (hs : seconds < 86400) :
    internalDate (dayNumber year month day * 86400 + seconds) =
      '"' :: (DateTime.ofUnix h hyear seconds hs).text ++ ['"'] := by
  have hdays : (dayNumber year month day * 86400 + seconds) / 86400 = dayNumber year month day := by omega
  have hseconds : ((dayNumber year month day * 86400 + seconds) % 86400).toNat = seconds := by omega
  have hzone : " +0000\"".toList = ' ' :: '+' :: (pad 2 0 ++ pad 2 0) ++ ['"'] := by decide
  have hneg : ¬ (year : Int) < 0 := by omega
  simp only [internalDate, hdays, hseconds, civilFromDays_dayNumber h, padInt, hneg, if_false, hzone,
    DateTime.text, DateTime.trimmed, DateTime.ofUnix, Int.toNat_natCast]
  simp

/-- The instant is the time it was written for. -/
theorem instant_ofUnix {year : Nat} {month day : Nat} (h : IsDate year month day) (hyear : year < 10000)
    {seconds : Nat} (hs : seconds < 86400) :
    (DateTime.ofUnix h hyear seconds hs).instant = dayNumber year month day * 86400 + seconds := by
  simp only [DateTime.instant, DateTime.zone, DateTime.ofUnix]
  simp
  omega

/-! ## 4. Dates survive -/

/-- **Dates.**  Between the quotes that `internal_date` puts around it stands a text that reads as
the time it was written for.  Whatever follows the grammar reads as its instant, if its numbers are
in range.  And dates and day numbers are each other's inverse, on every day there is. -/
theorem dates_round_trip :
    (∀ (unix year day : Int) (month : Nat), IsDate year month day → dayNumber year month day = unix / 86400 →
      1 ≤ year → year ≤ 9999 →
      ∃ text, internalDate unix = '"' :: text ++ ['"'] ∧ parseDateTime text = some unix) ∧
    (∀ x : DateTime, parseDateTime x.text = if x.InRange then some x.instant else none) ∧
    (∀ days : Int, IsDate (civilFromDays days).1 (civilFromDays days).2.1 (civilFromDays days).2.2 ∧
      daysFromCivil (civilFromDays days).1 (civilFromDays days).2.1 (civilFromDays days).2.2 = days) ∧
    ∀ (year : Int) (month day : Nat), IsDate year month day →
      daysFromCivil year month day = dayNumber year month day ∧
        civilFromDays (daysFromCivil year month day) = (year, month, day) := by
  refine ⟨?_, DateTime.parseDateTime_text, dayNumber_civilFromDays, ?_⟩
  · intro unix year day month h hdays hlow hhigh
    lift year to Nat using by omega
    lift day to Nat using by have := h.day_pos; omega
    have hsplit : unix = dayNumber year month day * 86400 + ((unix % 86400).toNat : Nat) := by omega
    have hyear : year < 10000 := by omega
    have hs : (unix % 86400).toNat < 86400 := by omega
    refine ⟨(DateTime.ofUnix h hyear _ hs).text, ?_, ?_⟩
    · conv_lhs => rw [hsplit]
      exact internalDate_eq h hyear hs
    · have hin : (DateTime.ofUnix h hyear _ hs).InRange := by
        have h1 := h.day_pos
        have h2 := h.day_le_31
        simp only [DateTime.InRange, DateTime.ofUnix]
        omega
      rw [DateTime.parseDateTime_text, if_pos hin, instant_ofUnix, ← hsplit]
  · intro year month day h
    have heq := @daysFromCivil_eq year _ day h.month_pos h.month_le
    refine ⟨heq, ?_⟩
    rw [heq]
    exact civilFromDays_dayNumber h

/-- The first of January 1970 is the day 0. -/
theorem dayNumber_epoch : dayNumber 1970 1 1 = 0 := by
  rw [dayNumber_eq _ (by decide) (by decide)]
  decide

/-- The quotes themselves are not read. -/
theorem internalDate_quoted_fails :
    ¬ ∀ (unix year day : Int) (month : Nat), IsDate year month day → dayNumber year month day = unix / 86400 →
      1 ≤ year → year ≤ 9999 → parseDateTime (internalDate unix) = some unix := by
  intro h
  have hread := h 0 1970 1 1 ⟨by decide, by decide, by decide, by decide⟩ dayNumber_epoch (by decide) (by decide)
  exact absurd hread (by decide)

/-- The instant 0 and the text for it. -/
theorem dates_epoch : ∃ text, internalDate 0 = '"' :: text ++ ['"'] ∧ parseDateTime text = some 0 :=
  dates_round_trip.1 0 1970 1 1 ⟨by decide, by decide, by decide, by decide⟩ dayNumber_epoch (by decide) (by decide)

end UwuMail.Imap
