/-
# An event's own time zones

An event can bring a time zone with it: rules, each with the offset it goes to, an onset, further
onsets by their dates, and yearly ones by a month and a day of it (`timezones.rs`).  What is in
force at a local time is the rule with the LATEST onset at or before it.  Before all onsets it is
the offset the first rule starts from.

* §1 is `chrono`'s dates and local times, within the range they have.  A second 60 is a leap second:
  it counts as second 59 and comes after it.
* §3 is what its offsets can be.  They are read from two digits each for hours, minutes and seconds,
  so an instant is never far from its local time.
-/
import UwuMail.Imap.Dates
import UwuMail.Jmap.PerUser
import UwuMail.Jmap.Zones

namespace UwuMail.Jscal

open Json Imap Calendar

/-! ## 1. Dates and local times -/

/-- The first and the last day of a `NaiveDate`, since 1970. -/
def minDate : Int := -96465292

def maxDate : Int := 95026236

example : daysFromCivil (-262143) 1 1 = minDate ∧ daysFromCivil 262142 12 31 = maxDate := by decide

/-- `NaiveDateTime`: seconds since 1970 as if the local time were UTC. -/
@[ext]
structure NaiveDateTime where
  seconds : Int
  leap : Bool
  lower : minDate * 86400 ≤ seconds
  upper : seconds < (maxDate + 1) * 86400

namespace NaiveDateTime

/-- A time of a day, if there is that day. -/
def ofDate (date second : Int) (leap : Bool) : Option NaiveDateTime :=
  if h : minDate * 86400 ≤ date * 86400 + second ∧ date * 86400 + second < (maxDate + 1) * 86400 then
    some ⟨date * 86400 + second, leap, h.1, h.2⟩
  else none

def date (t : NaiveDateTime) : Int := t.seconds / 86400

def year (t : NaiveDateTime) : Int := (civilFromDays t.date).1

def month (t : NaiveDateTime) : Nat := (civilFromDays t.date).2.1

def day (t : NaiveDateTime) : Nat := (civilFromDays t.date).2.2

/-- `and_time` with the time of day of `t`. -/
def onDate (t : NaiveDateTime) (date : Int) : Option NaiveDateTime := ofDate date (t.seconds % 86400) t.leap

/-- Where it stands among all local times. -/
def rank (t : NaiveDateTime) : Int := 2 * t.seconds + t.leap.toNat

instance : LE NaiveDateTime := ⟨fun t u => t.rank ≤ u.rank⟩

instance (t u : NaiveDateTime) : Decidable (t ≤ u) := inferInstanceAs (Decidable (t.rank ≤ u.rank))

/-- `checked_add_signed` of days, of which there are no negative ones here.  A leap second is that
of its day. -/
def addDays (t : NaiveDateTime) (days : Int) : Option NaiveDateTime :=
  ofDate (t.date + days) (t.seconds % 86400) (t.leap && days = 0)

end NaiveDateTime

/-- `from_ymd_opt` -/
def fromYmd (year : Int) (month day : Nat) : Option Int :=
  if (-262143 ≤ year ∧ year ≤ 262142) ∧ (1 ≤ month ∧
    month ≤ 12) ∧ 1 ≤ day ∧ (day : Int) ≤ monthLength year month then
    some (daysFromCivil year month day)
  else none

/-- `pred_opt` and `checked_sub_days` -/
def subDays (date days : Int) : Option Int := if minDate ≤ date - days then some (date - days) else none

/-- `weekday`, with 0 for Sunday. -/
def weekdayOf (date : Int) : Int := (date + 4) % 7

/-- What the code takes from `chrono` and `chrono-tz`.  No name in the database begins with a
slash. -/
structure Crates where
  /-- `NaiveDateTime::parse_from_str` with `%Y-%m-%dT%H:%M:%S` -/
  parseFromStr : String → Option NaiveDateTime
  /-- `parse::<Tz>` -/
  timeZone : String → Option Zone
  slash : ∀ name : String, name.toList.head? = some '/' → timeZone name = none

/-! ## 2. The source -/

section
variable (x : Crates)

/-- `YYYY-MM-DDTHH:MM:SS`, a JSCalendar LocalDateTime. -/
def parseLocal (value : String) : Option NaiveDateTime :=
  if value.utf8ByteSize ≠ 19 then none else x.parseFromStr value

/-- `Value::get` with an index -/
def item (value : Value) (index : Nat) : Option Value :=
  match value with
  | .array values => values[index]?
  | _ => none

/-- `Value::as_str` -/
def asStr : Value → Option String
  | .scalar (.string s) => some s
  | _ => none

/-- `Value::as_bool` -/
def asBool : Value → Option Bool
  | .scalar (.bool b) => some b
  | _ => none

/-- `Value::as_i64` -/
def asI64 : Value → Option Int
  | .scalar (.int n) => if -2 ^ 63 ≤ n ∧ n < 2 ^ 63 then some n else none
  | _ => none

/-- `Value::as_array` -/
def asArray : Value → Option (List Value)
  | .array values => some values
  | _ => none

/-- Two digits of an offset, or what else `parse` reads of two characters. -/
def number (digits : List Char) (start : Nat) : Option Int :=
  if start + 2 ≤ digits.length then parseI64 ((digits.drop start).take 2) else none

def signOf : List Char → Option (Int × List Char)
  | '+' :: digits => some (1, digits)
  | '-' :: digits => some (-1, digits)
  | _ => none

def offsetSeconds (value : String) : Option Int := do
  let (sign, digits) ← signOf value.toList
  let hours ← number digits 0
  let minutes ← number digits 2
  let seconds ← (if (String.ofList digits).utf8ByteSize = 6 then number digits 4 else some 0 : Option Int)
  some (sign * (hours * 3600 + minutes * 60 + seconds))

/-- The weekdays of a rule; what is none of them is a Sunday. -/
def weekdayNamed (name : String) : Int :=
  match name with
  | "mo" => 1
  | "tu" => 2
  | "we" => 3
  | "th" => 4
  | "fr" => 5
  | "sa" => 6
  | _ => 0

/-- The days of a month with a weekday, and of them the one a rule wants. -/
def onWeekday (rule : Map) (first last : Int) (day : Value) : Option Int := do
  let name ← (member day "day").bind asStr
  let nth := ((member day "nthOfPeriod").bind asI64).getD 1
  let days := ((List.range (last - first + 1).toNat).map fun n => first + (n : Int)).filter
    (weekdayOf · = weekdayNamed name)
  match rule.get "byMonthDay" with
  | some (.array monthDays) =>
    -- `as u32` after the test of the sign
    let wanted := ((monthDays.filterMap asI64).filter (0 < ·)).map (· % 2 ^ 32)
    (days.filter fun date => (date - first + 1) ∈ wanted).head?
  | _ =>
    if 0 < nth then days[nth.toNat - 1]?
    else if nth.natAbs ≤ days.length then days[days.length - nth.natAbs]?
    else none

/-- The date a yearly rule falls on in `year`. -/
def onsetIn (year : Int) (rule : Map) (start : NaiveDateTime) : Option NaiveDateTime := do
  let month ← match ((rule.get "byMonth").bind (item · 0)).bind asStr with
    | some month => parseUnsigned (2 ^ 32 - 1) month.toList
    | none => some start.month
  let first ← fromYmd year month 1
  let next ← fromYmd (if month = 12 then year + 1 else year) (month % 12 + 1) 1
  let last ← subDays next 1
  let date ← match (rule.get "byDay").bind (item · 0) with
    | some day => onWeekday rule first last day
    | none =>
      match ((rule.get "byMonthDay").bind (item · 0)).bind asI64 with
      | some day =>
        if 1 ≤ day ∧ day ≤ 31 then fromYmd year month day.toNat
        else if -31 ≤ day ∧ day ≤ -1 then subDays last (-day - 1)
        else none
      | none => fromYmd year month start.day
  start.onDate date

/-- `max` of an onset and another one, none being the least. -/
def later (t u : Option NaiveDateTime) : Option NaiveDateTime :=
  match t, u with
  | none, u => u
  | t, none => t
  | some t, some u => if t ≤ u then some u else some t

/-- The onset a yearly rule has in a year, if it counts at `l`. -/
def yearlyOnset (yearly : Map) (start l : NaiveDateTime) (year : Int) : Option NaiveDateTime := do
  let last := ((yearly.get "until").bind asStr).bind (parseLocal x)
  let count := (yearly.get "count").bind asI64
  let interval := max (((yearly.get "interval").bind asI64).getD 1) 1
  let since := year - start.year
  if since < 0 ∨ since % interval ≠ 0 ∨ count.any (fun count => count ≤ since / interval) then none
  let onset ← onsetIn year yearly start
  if start ≤ onset ∧ onset ≤ l ∧ last.all (fun last => onset ≤ last) then some onset else none

/-- The latest onset of a rule at or before `l`. -/
def latestOnset (rule : Map) (l : NaiveDateTime) : Option NaiveDateTime := do
  let start ← ((rule.get "start").bind asStr).bind (parseLocal x)
  let best := if start ≤ l then some start else none
  let best := match ((rule.get "recurrenceRules").bind (item · 0)).bind asObject with
    | some yearly => [l.year - 1, l.year].foldl
      (fun best year => later best (yearlyOnset x yearly start l year)) best
    | none => best
  let onsets := ((rule.get "recurrenceOverrides").bind asObject).getD []
  onsets.foldl (fun best onset => later best ((parseLocal x onset.1).filter (· ≤ l))) best

/-- The rules of a zone, those of winter first. -/
def rulesOf (zone : Map) : List Map :=
  (["standard", "daylight"].flatMap fun kind => ((zone.get kind).bind asArray).getD []).filterMap asObject

/-- `max_by_key` over onsets: of equal ones the last. -/
def latestRule (rules : List (NaiveDateTime × Map)) : Option (NaiveDateTime × Map) :=
  rules.foldl (fun best rule => if best.all (·.1 ≤ rule.1) then some rule else best) none

/-- When a rule starts, as `min_by_key` compares it: one without a start comes before all others. -/
def startRank (rule : Map) : Option Int := (((rule.get "start").bind asStr).bind
    (parseLocal x)).map NaiveDateTime.rank

def earlierRank : Option Int → Option Int → Bool
  | none, some _ => true
  | some r, some s => r < s
  | _, none => false

/-- `min_by_key` over starts: of equal ones the first. -/
def firstRule (rules : List Map) : Option Map :=
  rules.foldl (fun best rule =>
    if best.all fun best => earlierRank (startRank x rule) (startRank x best) then some rule else best) none

/-- The offset from UTC in a custom zone at a local time, in seconds. -/
def offsetAt (zone : Map) (l : NaiveDateTime) : Option Int :=
  let rules := rulesOf zone
  match latestRule (rules.filterMap fun rule => (latestOnset x rule l).map fun onset => (onset, rule)) with
  | some (_, rule) => ((rule.get "offsetTo").bind asStr).bind offsetSeconds
  -- before its first rule, a zone keeps the offset that rule starts from
  | none => (firstRule x rules).bind fun rule => ((rule.get "offsetFrom").bind asStr).bind offsetSeconds

/-- A local time in a custom zone as a UTC timestamp. -/
def customToUtc (zone : Map) (l : NaiveDateTime) : Int := l.seconds - (offsetAt x zone l).getD 0

end

/-! ## 3. How far an instant is from its local time -/

theorem ofDigitChars_lt {text : List Char} {init : Nat} (h : text.all Char.isDigit = true) :
    Nat.ofDigitChars 10 text init < (init + 1) * 10 ^ text.length := by
  induction text generalizing init with
  | nil => simp
  | cons c text ih =>
    rw [List.all_cons, Bool.and_eq_true] at h
    have hdigit : c.toNat - '0'.toNat ≤ 9 := by
      have hle : c.toNat ≤ 57 := by
        have := h.1
        simp only [Char.isDigit, Bool.and_eq_true, decide_eq_true_eq] at this
        exact this.2
      have hzero : '0'.toNat = 48 := rfl
      omega
    rw [Nat.ofDigitChars_cons, List.length_cons, pow_succ]
    calc Nat.ofDigitChars 10 text (10 * init + (c.toNat - '0'.toNat))
        < (10 * init + (c.toNat - '0'.toNat) + 1) * 10 ^ text.length := ih h.2
      _ ≤ ((init + 1) * 10) * 10 ^ text.length := Nat.mul_le_mul_right _ (by omega)
      _ = (init + 1) * (10 ^ text.length * 10) := by ring

theorem parseUnsigned_lt {text : List Char} {max n : Nat} (h : parseUnsigned max text = some n) :
    n < 10 ^ text.length := by
  unfold parseUnsigned at h
  rw [Option.ite_none_right_eq_some, Option.some.injEq] at h
  obtain ⟨⟨-, hdigits, -⟩, rfl⟩ := h
  refine lt_of_lt_of_le (ofDigitChars_lt hdigits) ?_
  rw [zero_add, one_mul]
  refine Nat.pow_le_pow_right (by norm_num) ?_
  split
  · simp
  · exact le_rfl

/-- What `parse` makes of a short text is a small number. -/
theorem parseI64_bound {text : List Char} {n : Int} (h : parseI64 text = some n) :
    -10 ^ text.length < n ∧ n < 10 ^ text.length := by
  have hpow : (0 : Int) < 10 ^ text.length := by positivity
  unfold parseI64 at h
  split at h
  · rw [Option.ite_none_right_eq_some, Option.some.injEq] at h
    obtain ⟨⟨-, hdigits, -⟩, rfl⟩ := h
    have hlt : Nat.ofDigitChars 10 text.tail 0 < 10 ^ text.length := by
      refine lt_of_lt_of_le (ofDigitChars_lt hdigits) ?_
      rw [zero_add, one_mul]
      exact Nat.pow_le_pow_right (by norm_num) (by simp)
    have hcast : (Nat.ofDigitChars 10 text.tail 0 : Int) < 10 ^ text.length := by exact_mod_cast hlt
    omega
  · obtain ⟨m, hm, rfl⟩ := Option.map_eq_some_iff.1 h
    have hcast : (m : Int) < 10 ^ text.length := by exact_mod_cast parseUnsigned_lt hm
    rw [Int.ofNat_eq_natCast]
    omega

theorem number_bound {digits : List Char} {start : Nat} {n : Int} (h : number digits start = some n) :
    -100 < n ∧ n < 100 := by
  unfold number at h
  split at h
  next hlen =>
    have hbound := parseI64_bound h
    rw [List.length_take, List.length_drop, Nat.min_eq_left (by omega)] at hbound
    norm_num at hbound
    exact hbound
  next => cases h

/-- **Offsets are short of 101 hours.** -/
theorem offsetSeconds_bound {value : String} {n : Int} (h : offsetSeconds value = some n) :
    -362440 < n ∧ n < 362440 := by
  unfold offsetSeconds at h
  simp only [Option.bind_eq_bind, Option.bind_eq_some_iff, Option.some.injEq] at h
  obtain ⟨⟨sign, digits⟩, hsign, hours, hhours, minutes, hminutes, seconds, hseconds, rfl⟩ := h
  have hh := number_bound hhours
  have hm := number_bound hminutes
  have hs : -100 < seconds ∧ seconds < 100 := by
    split at hseconds
    · exact number_bound hseconds
    · cases hseconds
      decide
  have hone : sign = 1 ∨ sign = -1 := by
    unfold signOf at hsign
    split at hsign <;> cases hsign
    · exact .inl rfl
    · exact .inr rfl
  rcases hone with rfl | rfl <;> omega

section
variable {x : Crates} {l : NaiveDateTime} {zone : Map}

theorem offsetAt_bound : -362440 < (offsetAt x zone l).getD 0 ∧ (offsetAt x zone l).getD 0 < 362440 := by
  cases h : offsetAt x zone l with
  | none => decide
  | some n =>
    rw [Option.getD_some]
    unfold offsetAt at h
    dsimp only at h
    split at h
    · obtain ⟨value, -, hvalue⟩ := Option.bind_eq_some_iff.1 h
      exact offsetSeconds_bound hvalue
    · obtain ⟨rule, -, hrule⟩ := Option.bind_eq_some_iff.1 h
      obtain ⟨value, -, hvalue⟩ := Option.bind_eq_some_iff.1 hrule
      exact offsetSeconds_bound hvalue

/-- **An instant is within 101 hours of its local time.** -/
theorem customToUtc_bound : l.seconds - 362440 < customToUtc x zone l ∧
    customToUtc x zone l < l.seconds + 362440 := by
  have h := @offsetAt_bound x l zone
  unfold customToUtc
  omega

end

end UwuMail.Jscal
