/-
# The time zones of meetings

`time.rs` and the zones of `meeting.rs`: a Windows zone is two offsets and the two RULES by which it
changes between them every year, each the nth weekday of a month at a local time.  The zone answers
which offset holds at a moment, and it is written as a VTIMEZONE, from which the reader of the
meeting works out the same.

Times are seconds since 1970, in UTC or of a local clock.
-/
import Mathlib
import UwuMail.Imap.Dates
import UwuMail.Lib.Words
import UwuMail.Store.Mutate
import UwuMail.Tnef.Reader

namespace UwuMail.Tnef

open Store (isControl isWhitespace)
open Imap (pad)

/-! ## 1. Dates -/

/-- Days since 1970-01-01 of a proleptic Gregorian date. -/
def daysFromCivil (year : Int) (month : Nat) (day : Int) : Int :=
  let y := if month ≤ 2 then year - 1 else year
  let era := y / 400
  let yoe := y - era * 400
  let m : Int := month
  let doy := (153 * (if m > 2 then m - 3 else m + 9) + 2) / 5 + day - 1
  let doe := yoe * 365 + yoe / 4 - yoe / 100 + doy
  era * 146097 + doe - 719468

/-- The date of a day count since 1970-01-01: the same lines as in the IMAP crate. -/
def civilFromDays (days : Int) : Int × Nat × Nat := Imap.civilFromDays days

/-- 0 for Sunday … 6 for Saturday. -/
def weekday (days : Int) : Nat := ((days + 4) % 7).toNat

def daysInMonth (year : Int) (month : Nat) : Nat :=
  let next := if month = 12 then daysFromCivil (year + 1) 1 1 else daysFromCivil year (month + 1) 1
  (next - daysFromCivil year month 1).toNat

/-- `while day > last { day -= 7 }`; the day is fuel enough. -/
def backInto (last : Nat) : Nat → Nat → Nat
  | 0, day => day
  | fuel + 1, day => if day > last then backInto last fuel (day - 7) else day

/-- The day of month of the `week`th (1–4, 5 = last) `weekday` (0 = Sunday) of a month. -/
def nthWeekday (year : Int) (month week weekdayWanted : Nat) : Nat :=
  let first := daysFromCivil year month 1
  let offset := (weekdayWanted + 7 - weekday first) % 7
  let day := 1 + offset + 7 * (max 1 (min week 5) - 1)
  backInto (daysInMonth year month) day day

/-- `y.clamp(0, 9999)`, `{:04}` -/
def fourDigits (year : Int) : Text := pad 4 (max 0 (min year 9999)).toNat

/-- `YYYYMMDD`. -/
def icalDate (secs : Int) : Text :=
  let (y, m, d) := civilFromDays (secs / 86400)
  fourDigits y ++ pad 2 m ++ pad 2 d

/-- `YYYYMMDDTHHMMSS` (with `Z` when `utc`). -/
def icalDatetime (secs : Int) (utc : Bool) : Text :=
  let rest := (secs % 86400).toNat
  let (y, m, d) := civilFromDays (secs / 86400)
  fourDigits y ++ pad 2 m ++ pad 2 d ++ 'T' :: pad 2 (rest / 3600) ++ pad 2 (rest % 3600 / 60) ++
    pad 2 (rest % 60) ++
    (if utc then ['Z'] else [])

/-! ## 2. Zones -/

/-- A time-zone rule's switch: the `week`th (5 = last) `weekday` (0 = Sunday) of `month`, at a local
time. -/
structure Transition where
  month : Nat
  week : Nat
  weekday : Nat
  hour : Nat
  minute : Nat
  second : Nat
  month_ok : 1 ≤ month ∧ month ≤ 12
  week_ok : 1 ≤ week ∧ week ≤ 5
  weekday_ok : weekday < 7
  time_ok : hour ≤ 23 ∧ minute ≤ 59 ∧ second ≤ 59

namespace Transition

/-- `read`, of the numbers that stand there.  Month 0: no switch.  A year: a switch on one date
only, which is not kept. -/
def read (year month weekday week hour minute second : Nat) : Option Transition :=
  if h : year = 0 ∧ (1 ≤ month ∧ month ≤ 12) ∧ weekday ≤ 6 ∧ (1 ≤ week ∧ week ≤ 5) ∧ hour ≤ 23 ∧ minute ≤ 59 ∧
      second ≤ 59 then
    some ⟨month, week, weekday, hour, minute, second, h.2.1, h.2.2.2.1, Nat.lt_succ_of_le h.2.2.1, h.2.2.2.2⟩
  else none

/-- The local time of the switch in `year`, as seconds. -/
def «local» (t : Transition) (year : Int) : Int :=
  daysFromCivil year t.month (nthWeekday year t.month t.week t.weekday) * 86400 + t.hour * 3600 + t.minute * 60 + t.second

end Transition

def weekdays : List Text := ["SU", "MO", "TU", "WE", "TH", "FR", "SA"].map String.toList

def Transition.rrule (t : Transition) : Text :=
  "FREQ=YEARLY;BYMONTH=".toList ++ Nat.toDigits 10 t.month ++ ";BYDAY=".toList ++
    (if t.week = 5 then "-1".toList else Nat.toDigits 10 t.week) ++ weekdays.get ⟨t.weekday, t.weekday_ok⟩

/-- Up to a day to either side, in minutes. -/
def Plausible (m : Int) : Prop := -(24 * 60) ≤ m ∧ m ≤ 24 * 60

instance (m : Int) : Decidable (Plausible m) := inferInstanceAs (Decidable (_ ∧ _))

/-- A zone as its bytes have it. -/
structure RawZone where
  name : Text
  bias : Int
  standardBias : Int
  daylightBias : Int
  standard : Option Transition
  daylight : Option Transition

/-- What is taken out of the name of a zone. -/
def isNameMark (c : Char) : Bool := isControl c || c == '"' || c == ';' || c == ':' || c == ','

/-- A Windows time zone as the meeting gives it, checked. -/
structure TimeZone extends RawZone where
  name_ne_nil : name ≠ []
  name_clear : ∀ c ∈ name, isNameMark c = false
  bias_ok : Plausible bias ∧ Plausible standardBias ∧ Plausible daylightBias
  /-- A zone switches both ways or not at all. -/
  both : standard.isSome = daylight.isSome

namespace RawZone

def Offsets (raw : RawZone) : Prop := Plausible raw.bias ∧ Plausible raw.standardBias ∧
    Plausible raw.daylightBias

def Switches (raw : RawZone) : Prop := raw.standard.isSome ∧ raw.daylight.isSome

instance (raw : RawZone) : Decidable raw.Offsets := inferInstanceAs (Decidable (_ ∧ _))

instance (raw : RawZone) : Decidable raw.Switches := inferInstanceAs (Decidable (_ ∧ _))

/-- Up to 100 characters, marks as blanks, with one blank between the words. -/
def checkedName (name : Text) : Text :=
  let clean := Lib.squash isWhitespace ' ' ((name.map fun c => if isNameMark c then ' ' else c).take 100)
  if clean = [] then "Windows".toList else clean

theorem checkedName_ne_nil (name : Text) : checkedName name ≠ [] := by
  unfold checkedName
  dsimp only
  split
  · exact List.cons_ne_nil _ _
  · next h => exact h

theorem checkedName_clear (name : Text) : ∀ c ∈ checkedName name, isNameMark c = false := by
  unfold checkedName
  dsimp only
  split
  · have hall : ("Windows".toList.all fun c => !isNameMark c) = true := rfl
    exact fun c hc => (Bool.not_eq_true' _).mp (List.all_eq_true.1 hall c hc)
  · intro c hc
    obtain rfl | hc := Lib.mem_squash hc
    · decide
    · obtain ⟨d, -, rfl⟩ := List.mem_map.1 (List.mem_of_mem_take hc)
      split
      · decide
      · next h => exact Bool.eq_false_iff.2 h

/-- Only plausible offsets; a zone switches both ways or not at all. -/
def checked (raw : RawZone) : TimeZone where
  name := checkedName raw.name
  bias := if raw.Offsets then raw.bias else 0
  standardBias := if raw.Offsets then raw.standardBias else 0
  daylightBias := if raw.Offsets then raw.daylightBias else 0
  standard := if raw.Switches then raw.standard else none
  daylight := if raw.Switches then raw.daylight else none
  name_ne_nil := checkedName_ne_nil raw.name
  name_clear := checkedName_clear raw.name
  bias_ok := by
    split
    · next h => exact h
    · exact ⟨by decide, by decide, by decide⟩
  both := by
    split
    · next h => rw [h.1, h.2]
    · rfl

end RawZone

namespace TimeZone

/-- Minutes east of UTC in standard time. -/
def standardOffset (z : TimeZone) : Int := -(z.bias + z.standardBias)

def daylightOffset (z : TimeZone) : Int := -(z.bias + z.daylightBias)

/-- Minutes east of UTC at a moment. -/
def offsetAt (z : TimeZone) (utc : Int) : Int :=
  match z.standard, z.daylight with
  | some standard, some daylight =>
    let stdOff := z.standardOffset * 60
    let dstOff := z.daylightOffset * 60
    let year := (civilFromDays ((utc + stdOff) / 86400)).1
    let dstStart := daylight.local year - stdOff
    let stdStart := standard.local year - dstOff
    let inDaylight :=
      if dstStart < stdStart then decide (utc ≥ dstStart) && decide (utc < stdStart)
      else !(decide (utc ≥ stdStart) && decide (utc < dstStart))
    if inDaylight then z.daylightOffset else z.standardOffset
  | _, _ => z.standardOffset

def toLocal (z : TimeZone) (utc : Int) : Int := utc + z.offsetAt utc * 60

def toUtc (z : TimeZone) (loc : Int) : Int :=
  let guess := loc - z.standardOffset * 60
  loc - z.offsetAt guess * 60

end TimeZone

/-- `offset`: `+0100` -/
def writeOffset (minutes : Int) : Text :=
  (if minutes < 0 then '-' else '+') :: pad 2 (minutes.natAbs / 60) ++ pad 2 (minutes.natAbs % 60)

/-- A content line, not folded yet: the property and what comes after its name. -/
structure Line where
  name : String
  rest : Text

def Line.text (l : Line) : Text := l.name.toList ++ l.rest

/-- One turn of the loop of `vtimezone`: a kind of time, its rule, the offset before and after the
switch. -/
def observance (kind : String) (rule : Transition) (before after : Text) : List Line :=
  [⟨"BEGIN", ':' :: kind.toList⟩,
    ⟨"DTSTART", ':' :: icalDatetime (rule.local 1601) false⟩,
    ⟨"RRULE", ':' :: rule.rrule⟩,
    ⟨"TZOFFSETFROM", ':' :: before⟩,
    ⟨"TZOFFSETTO", ':' :: after⟩,
    ⟨"END", ':' :: kind.toList⟩]

def TimeZone.vtimezone (z : TimeZone) : List Line :=
  let std := writeOffset z.standardOffset
  [⟨"BEGIN", ":VTIMEZONE".toList⟩, ⟨"TZID", ':' :: z.name⟩] ++
    (match z.standard, z.daylight with
      | some standard, some daylight =>
        let dst := writeOffset z.daylightOffset
        observance "STANDARD" standard dst std ++ observance "DAYLIGHT" daylight std dst
      | _, _ =>
        [⟨"BEGIN", ":STANDARD".toList⟩, ⟨"DTSTART", ":16010101T000000".toList⟩, ⟨"TZOFFSETFROM", ':' :: std⟩,
          ⟨"TZOFFSETTO", ':' :: std⟩, ⟨"END", ":STANDARD".toList⟩]) ++
    [⟨"END", ":VTIMEZONE".toList⟩]

end UwuMail.Tnef
