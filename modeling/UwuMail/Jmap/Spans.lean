/-
# When an instance is

`span` says when an event starts and ends: a local start, nominal days, then exact seconds, in the
event's zone (`jscal.rs`).  Queries need that of every instance, and `instance_span` has a FAST PATH
for those their series does not change: it builds a small event with the start and with three
members of the series (`calendar_event.rs`).

An event's own zone is not among the three.  Its name is, and a name that begins with a slash is no
zone of the database, so the fast path reads the local times as if they were UTC.

* §3 is the result: the two agree just when the instance is changed, or the event's own zone, where
  it has one, is at offset zero at the start and at the nominal end.
-/
import UwuMail.Jmap.CustomZones

namespace UwuMail.Jscal

open Json

/-! ## 1. The source -/

/-- Digits before a unit, taken off the text; more than nine of them are no number. -/
def amount (unit : Char) (rest : List Char) : Option (Option Int × List Char) :=
  let digits := rest.takeWhile Char.isDigit
  match rest.dropWhile Char.isDigit with
  | c :: after =>
    if digits = [] ∨ c ≠ unit then some (none, rest)
    else if 9 < digits.length then none
    else some (some (Nat.ofDigitChars 10 digits 0 : Int), after)
  | [] => some (none, rest)

/-- The part of a duration from its `T` on, in seconds. -/
def exactPart (rest : List Char) : Option (Int × List Char) := do
  let (hours, rest) ← amount 'H' rest
  let (minutes, rest) ← amount 'M' rest
  let (seconds, rest) ← amount 'S' rest
  if hours = none ∧ minutes = none ∧ seconds = none then none
  else some (hours.getD 0 * 3600 + minutes.getD 0 * 60 + seconds.getD 0, rest)

/-- A duration without weeks. -/
def daysAndTime (rest : List Char) : Option (Int × Int) := do
  let (days, rest) ← amount 'D' rest
  match rest with
  | 'T' :: rest =>
    let (seconds, rest) ← exactPart rest
    if rest = [] then some (days.getD 0, seconds) else none
  | rest => if rest ≠ [] ∨ days = none then none else some (days.getD 0, 0)

/-- A JSCalendar Duration: nominal days (weeks count 7) and exact seconds.  No signs, no
fractions. -/
def parseDuration (value : String) : Option (Int × Int) :=
  match value.toList with
  | 'P' :: rest =>
    match amount 'W' rest with
    | none => none
    | some (some weeks, rest) => if rest = [] then some (weeks * 7, 0) else none
    | some (none, rest) => daysAndTime rest
  | _ => none

/-- `i64::checked_add` -/
def checkedAdd (n m : Int) : Option Int := if -2 ^ 63 ≤ n + m ∧ n + m < 2 ^ 63 then some (n + m) else none

def utc : Zone := ⟨0, [], .nil⟩

/-- The custom time zone (`timeZones`) an event's `timeZone` names, if it names one. -/
def customZone (event : Map) : Option Map := do
  let key ← (event.get "timeZone").bind asStr
  if key.toList.head? ≠ some '/' then none
  else ((event.get "timeZones").bind (member · key)).bind asObject

section
variable (x : Crates)

/-- A local time of an event in its time zone (IANA or custom; `floating` when it has none) as a UTC
timestamp. -/
def localToUtc (event : Map) (l : NaiveDateTime) (floating : Zone) : Int :=
  match customZone event with
  | some zone => customToUtc x zone l
  | none =>
    match event.get "timeZone" with
    | some (.scalar (.string name)) => toUtc ((x.timeZone name).getD utc) l.seconds
    | _ => toUtc floating l.seconds

/-- Days and seconds.  iCalendar gives a day to a date without an end. -/
def lengthOf (event : Map) : Int × Int :=
  let allDay := ((event.get "showWithoutTime").bind asBool).getD false
  match ((event.get "duration").bind asStr).bind parseDuration with
  | some duration => duration
  | none => if allDay then (1, 0) else (0, 0)

/-- When an event (or instance) starts and ends in UTC.  Floating times are read in `floating`. -/
def span (event : Map) (floating : Zone) : Option (Int × Int) := do
  let start ← ((event.get "start").bind asStr).bind (parseLocal x)
  let (days, seconds) := lengthOf event
  let nominalEnd ← start.addDays days
  let stop ← checkedAdd (localToUtc x event nominalEnd floating) seconds
  some (localToUtc x event start floating, stop)

/-- Whether the series changes the instance. -/
def changed (event : Map) (rid : String) : Bool :=
  (((event.get "recurrenceOverrides").bind (member · rid)).bind asObject).any fun patch => patch ≠ []

/-- The members of the series the fast path copies. -/
def timesOf (event : Map) (rid : String) : Map :=
  let times : Map := ["timeZone", "duration", "showWithoutTime"].foldl (fun times key =>
    match Map.get event key with
    | some value => Map.insert times key value
    | none => times) []
  times.insert "start" (.string rid)

/-- When an instance starts and ends, without building it when it is not changed. -/
def instanceSpan (event : Map) (rid : String) (floating : Zone) : Option (Int × Int) :=
  if changed event rid then (instanceOf event rid).bind fun object => span x object floating
  else span x (timesOf event rid) floating

end

/-! ## 2. What times are read from -/

section
variable {x : Crates} {event : Map} {rid key : String} {floating : Zone}

/-- What the series has under a name times are read from, the instance has too. -/
theorem get_seriesObject_times (h : key ∈ ["timeZone", "timeZones", "duration", "showWithoutTime"]) :
    Map.get (seriesObject event rid) key = Map.get event key := by
  have hall : ∀ key ∈ ["timeZone", "timeZones", "duration", "showWithoutTime"],
      (∀ name ∈ ["recurrenceRule", "recurrenceOverrides", "recurrenceId", "recurrenceIdTimeZone"],
        name ≠ key) ∧
        ¬ "start" = key ∧ ¬ key = "iCalendar" := by decide
  obtain ⟨hname, hstart, hical⟩ := hall key h
  rw [get_seriesObject_other hname, if_neg hstart, if_neg hical]

theorem get_seriesObject_start : Map.get (seriesObject event rid) "start" = some (.string rid) := by
  rw [get_seriesObject_other (by decide), if_pos rfl]

/-- A member that is copied where it is there. -/
theorem get_copied {times : Map} {name : String} :
    Map.get (match Map.get event name with
      | some value => Map.insert times name value
      | none => times) key =
      if name = key then (Map.get event key).or (Map.get times key) else Map.get times key := by
  by_cases hkey : name = key
  · subst hkey
    rw [if_pos rfl]
    cases Map.get event name with
    | none => rfl
    | some value => rw [Map.get_insert, if_pos rfl, Option.some_or]
  · rw [if_neg hkey]
    cases Map.get event name with
    | none => rfl
    | some value => rw [Map.get_insert, if_neg hkey]

theorem get_timesOf (h : ¬ "start" = key) : Map.get (timesOf event rid) key =
    if key ∈ ["timeZone", "duration", "showWithoutTime"] then Map.get event key else none := by
  have hnil : Map.get ([] : Map) key = none := rfl
  unfold timesOf
  dsimp only [List.foldl_cons, List.foldl_nil]
  rw [Map.get_insert, if_neg h, get_copied, get_copied, get_copied, hnil, Option.or_none]
  by_cases hin : key ∈ ["timeZone", "duration", "showWithoutTime"]
  · rw [if_pos hin]
    simp only [List.mem_cons, List.not_mem_nil, or_false] at hin
    rcases hin with rfl | rfl | rfl <;> simp
  · rw [if_neg hin]
    simp only [List.mem_cons, List.not_mem_nil, or_false, not_or] at hin
    rw [if_neg (Ne.symm hin.2.2), if_neg (Ne.symm hin.2.1), if_neg (Ne.symm hin.1)]

theorem get_timesOf_start : Map.get (timesOf event rid) "start" = some (.string rid) := by
  unfold timesOf
  rw [Map.get_insert, if_pos rfl]

/-- An instance its series does not change is the series with another start. -/
theorem instanceOf_unchanged (h : changed event rid = false) :
    instanceOf event rid = some (seriesObject event rid) := by
  unfold changed at h
  unfold instanceOf
  cases hpatch : (Map.get event "recurrenceOverrides").bind (member · rid) with
  | none => rfl
  | some patch =>
    rw [hpatch] at h
    cases patch with
    | scalar s => rfl
    | array values => rfl
    | object patch =>
      have hnil : patch = [] := by simpa [asObject] using h
      subst hnil
      rfl

theorem lengthOf_congr {event' : Map} (hall : Map.get event "showWithoutTime" =
    Map.get event' "showWithoutTime")
    (hduration : Map.get event "duration" = Map.get event' "duration") :
        lengthOf event = lengthOf event' := by
  unfold lengthOf
  rw [hall, hduration]

/-- A zone of one's own is known by a name with a slash, which is none of the database's. -/
theorem customZone_eq_some {zone : Map} (h : customZone event = some zone) :
    ∃ name, Map.get event "timeZone" = some (.string name) ∧ x.timeZone name = none := by
  unfold customZone at h
  obtain ⟨name, hname, hrest⟩ := Option.bind_eq_some_iff.1 h
  obtain ⟨value, hvalue, hstr⟩ := Option.bind_eq_some_iff.1 hname
  have hslash : name.toList.head? = some '/' := by
    by_contra hno
    rw [if_pos hno] at hrest
    cases hrest
  refine ⟨name, ?_, x.slash name hslash⟩
  unfold asStr at hstr
  split at hstr <;> cases hstr
  exact hvalue

theorem toUtc_utc {l : Int} : toUtc utc l = l := by
  have hshowing : utc.showing l = [l] := by simp [utc, Zone.showing, showingFrom]
  unfold toUtc Zone.fromLocal
  rw [hshowing]

/-! ## 3. The fast path -/

/-- Days and seconds of a duration are far from the bounds of an `i64`. -/
theorem amount_bound {c : Char} {rest rest' : List Char} {n : Option Int}
    (h : amount c rest = some (n, rest')) :
    0 ≤ n.getD 0 ∧ n.getD 0 < 10 ^ 9 := by
  unfold amount at h
  split at h
  next d after hdrop =>
    dsimp only at h
    split at h
    · cases h
      decide
    · split at h
      · cases h
      next hlen =>
        cases h
        have hdigits : (rest.takeWhile Char.isDigit).all Char.isDigit = true := by
          rw [List.all_eq_true]
          exact fun c hc => List.mem_takeWhile_imp hc
        have hlt : Nat.ofDigitChars 10 (rest.takeWhile Char.isDigit) 0 < 10 ^ 9 := by
          refine lt_of_lt_of_le (ofDigitChars_lt hdigits) ?_
          rw [zero_add, one_mul]
          exact Nat.pow_le_pow_right (by norm_num) (not_lt.1 hlen)
        rw [Option.getD_some]
        omega
  next =>
    cases h
    decide

theorem exactPart_bound {rest rest' : List Char} {n : Int} (h : exactPart rest = some (n, rest')) :
    0 ≤ n ∧ n < 10 ^ 13 := by
  unfold exactPart at h
  simp only [Option.bind_eq_bind, Option.bind_eq_some_iff] at h
  obtain ⟨⟨hours, rest₁⟩, hhours, ⟨minutes, rest₂⟩, hminutes, ⟨seconds, rest₃⟩, hseconds, h⟩ := h
  have hh := amount_bound hhours
  have hm := amount_bound hminutes
  have hs := amount_bound hseconds
  dsimp only at h
  split at h
  · cases h
  · cases h
    omega

theorem lengthOf_bound : 0 ≤ (lengthOf event).2 ∧ (lengthOf event).2 < 10 ^ 13 := by
  have hparse : ∀ {value : String} {days seconds : Int}, parseDuration value = some (days, seconds) →
      0 ≤ seconds ∧ seconds < 10 ^ 13 := by
    intro value days seconds h
    unfold parseDuration at h
    split at h
    next rest _ =>
      split at h
      · cases h
      · split at h
        · cases h
          decide
        · cases h
      next rest' _ =>
        unfold daysAndTime at h
        simp only [Option.bind_eq_bind, Option.bind_eq_some_iff] at h
        obtain ⟨⟨n, after⟩, -, h⟩ := h
        dsimp only at h
        split at h
        · obtain ⟨⟨exact, tail⟩, hexact, h⟩ := Option.bind_eq_some_iff.1 h
          dsimp only at h
          split at h
          · cases h
            exact exactPart_bound hexact
          · cases h
        · split at h
          · cases h
          · cases h
            decide
    · cases h
  unfold lengthOf
  dsimp only
  split
  next duration h =>
    obtain ⟨value, -, hvalue⟩ := Option.bind_eq_some_iff.1 h
    exact hparse hvalue
  next => split <;> decide

/-- The span of an event that starts at `rid`, read by read. -/
theorem span_eq (hstart : Map.get event "start" = some (.string rid)) : span x event floating =
    (parseLocal x rid).bind fun start => (start.addDays (lengthOf event).1).bind fun nominalEnd =>
      (checkedAdd (localToUtc x event nominalEnd floating) (lengthOf event).2).map fun stop =>
        (localToUtc x event start floating, stop) := by
  have hstr : ((some (Value.string rid)).bind asStr).bind (parseLocal x) = parseLocal x rid := rfl
  unfold span
  rw [hstart, hstr]
  refine Option.bind_congr fun start _ => Option.bind_congr fun nominalEnd _ => ?_
  rw [Option.map_eq_bind]
  rfl

theorem localToUtc_congr {event' : Map} {l : NaiveDateTime} (hzone : Map.get event "timeZone" =
    Map.get event' "timeZone")
    (hzones : Map.get event "timeZones" = Map.get event' "timeZones") :
    localToUtc x event l floating = localToUtc x event' l floating := by
  unfold localToUtc customZone
  rw [hzone, hzones]

/-- The fast path reads a local time by the name of the zone alone. -/
theorem localToUtc_timesOf {l : NaiveDateTime} : localToUtc x (timesOf event rid) l floating =
    match customZone event with
    | some _ => l.seconds
    | none => localToUtc x event l floating := by
  have hzone : Map.get (timesOf event rid) "timeZone" = Map.get event "timeZone" := by
    rw [get_timesOf (by decide), if_pos (by decide)]
  have hnone : customZone (timesOf event rid) = none := by
    have hzones : Map.get (timesOf event rid) "timeZones" = none := by
      rw [get_timesOf (by decide), if_neg (by decide)]
    unfold customZone
    rw [hzones]
    cases ((timesOf event rid).get "timeZone").bind asStr with
    | none => rfl
    | some name => exact ite_self none
  cases hcustom : customZone event with
  | none =>
    unfold localToUtc
    rw [hnone, hcustom, hzone]
  | some zone =>
    obtain ⟨name, hname, hnot⟩ := @customZone_eq_some x event zone hcustom
    unfold localToUtc
    rw [hnone, hzone, hname]
    show toUtc ((x.timeZone name).getD utc) l.seconds = l.seconds
    rw [hnot, Option.getD_none, toUtc_utc]

/-- A length can be added to any instant near a local time. -/
theorem checkedAdd_near {l : NaiveDateTime} {t : Int} (h : l.seconds - 362440 < t)
    (h' : t < l.seconds + 362440) :
    checkedAdd t (lengthOf event).2 = some (t + (lengthOf event).2) := by
  have hlength := @lengthOf_bound event
  have hlower := l.lower
  have hupper := l.upper
  unfold minDate at hlower
  unfold maxDate at hupper
  unfold checkedAdd
  rw [if_pos (by omega)]

/-- The event's own zone, if it has one, is at offset zero where the instance starts and where it
nominally ends. -/
def AtZero (x : Crates) (event : Map) (rid : String) : Prop :=
  ∀ zone ∈ customZone event, ∀ start ∈ parseLocal x rid, ∀ nominalEnd ∈ start.addDays (lengthOf event).1,
    (offsetAt x zone start).getD 0 = 0 ∧ (offsetAt x zone nominalEnd).getD 0 = 0

/-- **The fast path** gives the span of the instance just when it is not taken, or the event's own
zone does not matter. -/
theorem instance_span_iff (x : Crates) (event : Map) (rid : String) (floating : Zone) :
    (instanceSpan x event rid floating = (instanceOf event rid).bind fun object => span x object floating) ↔
      changed event rid = true ∨ AtZero x event rid := by
  cases hchanged : changed event rid with
  | true =>
    unfold instanceSpan
    rw [if_pos hchanged]
    exact iff_of_true rfl (.inl rfl)
  | false =>
    have hseries : ∀ l : NaiveDateTime,
        localToUtc x (seriesObject event rid) l floating = localToUtc x event l floating := fun l =>
      localToUtc_congr (get_seriesObject_times (by decide)) (get_seriesObject_times (by decide))
    have hlength : lengthOf (seriesObject event rid) = lengthOf event :=
      lengthOf_congr (get_seriesObject_times (by decide)) (get_seriesObject_times (by decide))
    have hlength' : lengthOf (timesOf event rid) = lengthOf event := by
      refine lengthOf_congr ?_ ?_ <;> rw [get_timesOf (by decide), if_pos (by decide)]
    unfold instanceSpan
    rw [if_neg (by rw [hchanged]; exact Bool.false_ne_true), instanceOf_unchanged hchanged, Option.bind_some,
      span_eq get_timesOf_start, span_eq get_seriesObject_start, hlength, hlength',
        or_iff_right Bool.false_ne_true]
    simp only [hseries, localToUtc_timesOf]
    unfold AtZero
    cases hcustom : customZone event with
    | none => simp
    | some zone =>
      have hzone : ∀ l : NaiveDateTime, localToUtc x event l floating = customToUtc x zone l := fun l => by
        unfold localToUtc
        rw [hcustom]
      simp only [hzone, Option.mem_some_iff, forall_eq']
      cases hstart : parseLocal x rid with
      | none => simp
      | some start =>
        simp only [Option.bind_some, Option.mem_some_iff, forall_eq']
        cases hend : start.addDays (lengthOf event).1 with
        | none => simp
        | some nominalEnd =>
          have hnear := @customToUtc_bound x nominalEnd zone
          simp only [Option.bind_some, Option.mem_some_iff, forall_eq']
          rw [checkedAdd_near (l := nominalEnd) (by omega) (by omega), checkedAdd_near hnear.1 hnear.2]
          simp only [Option.map_some, Option.some.injEq, Prod.mk.injEq]
          unfold customToUtc
          omega

end

/-- Digits at their places of `YYYY-MM-DDTHH:MM:SS`. -/
def readLocal (text : String) : Option NaiveDateTime :=
  let digits (start count : Nat) := (text.toList.drop start).take count
  let n (start count : Nat) := Nat.ofDigitChars 10 (digits start count) 0
  let marks := [4, 7, 10, 13, 16].filterMap (text.toList[·]?)
  let numbers := digits 0 4 ++ digits 5 2 ++ digits 8 2 ++ digits 11 2 ++ digits 14 2 ++ digits 17 2
  if marks = "--T::".toList ∧ numbers.all Char.isDigit ∧ n 11 2 < 24 ∧ n 14 2 < 60 ∧ n 17 2 < 60 then do
    let date ← fromYmd (n 0 4) (n 5 2) (n 8 2)
    NaiveDateTime.ofDate date (n 11 2 * 3600 + n 14 2 * 60 + n 17 2) false
  else none

/-- A database of no zones. -/
def noZones : Crates := ⟨readLocal, fun _ => none, fun _ _ => rfl⟩

/-- A weekly meeting at ten, in a zone of its own an hour east of Greenwich. -/
def meeting : Map :=
  [("duration", .scalar (.string "PT1H")),
   ("recurrenceRule", .object [("frequency", .scalar (.string "weekly"))]),
   ("start", .scalar (.string "2026-01-05T10:00:00")),
   ("timeZone", .scalar (.string "/Office")),
   ("timeZones", .object [("/Office", .object [("standard", .array [.object
     [("offsetFrom", .scalar (.string "+0100")), ("offsetTo", .scalar (.string "+0100")),
      ("start", .scalar (.string "1970-01-01T00:00:00"))]])])])]

theorem own_zone_is_lost : ¬ ∀ (x : Crates) (event : Map) (rid : String) (floating : Zone),
    instanceSpan x event rid floating = (instanceOf event rid).bind fun object => span x object floating := by
  intro h
  exact absurd (h noZones meeting "2026-01-12T10:00:00" utc) (by decide +kernel)

end UwuMail.Jscal
