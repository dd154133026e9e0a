/-
# Meetings as iCalendar

`meeting.rs`: what a TNEF message says of a meeting, written as an iCalendar object.  Subjects,
places, names and addresses are the sender's, who may be anyone; a line break in one of them must
not become a LINE.

* §2 is what is read of the text: the lines of the file, and the content lines of RFC 5545, where a
  line break before a blank is none.
* §3: whatever the values are, no line has a break in it.
-/
import Mathlib
import UwuMail.Lib.Pieces
import UwuMail.Store.Ics
import UwuMail.Tnef.Zones

namespace UwuMail.Tnef

open Store (isControl isWhitespace)
open Itip (octets)

/-! ## 1. The source -/

inductive PartStat where
  | accepted
  | declined
  | tentative
deriving DecidableEq

def PartStat.ical : PartStat → String
  | .accepted => "ACCEPTED"
  | .declined => "DECLINED"
  | .tentative => "TENTATIVE"

inductive MeetingKind where
  /-- An invitation, or an update of one. -/
  | request
  | cancel
  /-- An attendee's answer. -/
  | reply (partstat : PartStat)
  /-- An appointment sent as information, not an invitation. -/
  | publish
deriving DecidableEq

def MeetingKind.method : MeetingKind → String
  | .request => "REQUEST"
  | .cancel => "CANCEL"
  | .reply _ => "REPLY"
  | .publish => "PUBLISH"

/-- Someone named in the message. -/
structure Person where
  name : Option Text
  email : Option Text

inductive RecipientKind where
  | to_
  | cc
  /-- Bcc, and for meetings a resource (a room). -/
  | bcc

structure Attendee where
  person : Person
  /-- To: required, Cc: optional, Bcc: a resource. -/
  kind : RecipientKind

inductive Frequency where
  | daily
  | weekly
  | monthly
  | yearly
deriving DecidableEq

def Frequency.text : Frequency → String
  | .daily => "DAILY"
  | .weekly => "WEEKLY"
  | .monthly => "MONTHLY"
  | .yearly => "YEARLY"

/-- A recurring meeting's pattern (`PidLidAppointmentRecur`, MS-OXOCAL 2.2.1.44). -/
structure Recurrence where
  frequency : Frequency
  interval : Nat
  /-- Weekdays, 0 = Sunday. -/
  weekdays : List Nat
  /-- With `weekdays`: which of them in the month (1–4, -1 = last). -/
  setPosition : Option Int
  /-- Day of the month, -1 = the last. -/
  monthDay : Option Int
  count : Option Nat
  /-- The last day, local midnight as seconds. -/
  untilLocal : Option Int
  weekStart : Nat
  /-- Instances taken out of the series, local midnights as seconds. -/
  deletedLocal : List Int
  /-- Minutes after local midnight each instance starts. -/
  startOffset : Option Nat

/-- A meeting a message carries. -/
structure Meeting where
  kind : MeetingKind
  uid : Option Text
  /-- The instance of a series this message is about, UTC. -/
  recurrenceId : Option Int
  sequence : Int
  /-- UTC. -/
  start : Option Int
  stop : Option Int
  allDay : Bool
  summary : Option Text
  location : Option Text
  description : Option Text
  organizer : Option Person
  /-- Invited people; for an answer, the one who answers. -/
  attendees : List Attendee
  /-- 0 free, 1 tentative, 2 busy, 3 away. -/
  busyStatus : Option Int
  /-- As the bytes have it; what is kept of it is `zone`. -/
  timeZone : Option RawZone
  recurrence : Option Recurrence
  /-- When it was sent, UTC. -/
  stamp : Option Int

/-- What the surrounding mail says, for what the TNEF leaves out, and the time now. -/
structure IcsOptions where
  now : Int
  sender : Option Person
  recipients : List Person
  cc : List Person

/-- `{n}` of a signed number. -/
def integer (n : Int) : Text := (if n < 0 then ['-'] else []) ++ Nat.toDigits 10 n.natAbs

/-- `value.replace("\r\n", "\n")` -/
def joinBreaks : Text → Text
  | '\r' :: '\n' :: value => '\n' :: joinBreaks value
  | c :: value => c :: joinBreaks value
  | [] => []

/-- One character of `text`. -/
def escape (c : Char) : Text :=
  if c = '\\' then ['\\', '\\']
  else if c = ';' then ['\\', ';']
  else if c = ',' then ['\\', ',']
  else if c = '\n' ∨ c = '\r' then ['\\', 'n']
  else if isControl c ∧ c ≠ '\t' then []
  else [c]

/-- `text`: iCalendar TEXT escaping (RFC 5545 3.3.11). -/
def escaped (value : Text) : Text := (joinBreaks value).flatMap escape

/-- A parameter value, always quoted, without what a quoted value may not hold. -/
def param (value : Text) : Text :=
  let clean := (value.filter fun c => !isControl c && c != '"').take 200
  '"' :: Lib.trim isWhitespace clean ++ ['"']

/-- Folds a content line at 75 octets (RFC 5545 3.1): the same loop as in `itip.rs`. -/
def fold (line : Text) : Text := Itip.fold line

/-- `trim_start_matches`; the length is fuel enough. -/
def trimStartMatches (lead : Text) : Nat → Text → Text
  | 0, value => value
  | fuel + 1, value => if lead.isPrefixOf value
    then trimStartMatches lead fuel (value.drop lead.length) else value

def isAddressChar (c : Char) : Bool := !isWhitespace c && !isControl c && !"<>\"(),;:[]\\".toList.contains c

/-- An Internet address, never an Exchange-internal one. -/
def internetAddress (value : Text) : Option Text :=
  let value := Lib.trim isWhitespace value
  let value := trimStartMatches "SMTP:".toList value.length value
  let value := Lib.trim isWhitespace (trimStartMatches "smtp:".toList value.length value)
  let value := if "mailto:".toList.isPrefixOf value then value.drop 7 else value
  if octets value ≤ 254 ∧ '@' ∈ value ∧ value.head? ≠ some '/' ∧ value.head? ≠ some '@' ∧ value.getLast? ≠ some '@' ∧
      value.all isAddressChar then
    some value
  else none

/-- `p.email.as_deref().and_then(internet_address)` -/
def Person.address (p : Person) : Option Text := p.email.bind internetAddress

def addressLine (name : String) (person : Person) (params : List String) : Option Line :=
  person.address.map fun email =>
    let cn := (person.name.filter fun n => Lib.trim isWhitespace n ≠ []).elim [] fun n =>
      ";CN=".toList ++ param n
    ⟨name, cn ++ params.flatMap (fun p => ';' :: p.toList) ++ ":mailto:".toList ++ email⟩

def sameAddress (a b : Person) : Bool :=
  match a.email, b.email with
  | some x, some y => Itip.eqIgnoreAsciiCase x y
  | _, _ => false

namespace Meeting

/-- The zone as the decoder keeps it, checked. -/
def zone (m : Meeting) : Option TimeZone := m.timeZone.map RawZone.checked

def localDate (m : Meeting) (utc : Int) : Text :=
  match m.zone with
  | some zone => icalDate (zone.toLocal utc)
  | none => icalDate (utc + 12 * 3600)

/-- `zone.filter(|_| !self.all_day)` -/
def timedZone (m : Meeting) : Option TimeZone := m.zone.filter fun _ => !m.allDay

/-- A time in the meeting's zone, with its VTIMEZONE; in UTC without one. -/
def when (m : Meeting) (name : String) (utc : Int) : Line :=
  if m.allDay then ⟨name, ";VALUE=DATE:".toList ++ m.localDate utc⟩
  else match m.zone with
    | some zone => ⟨name, ";TZID=".toList ++ zone.name ++ ':' :: icalDatetime (zone.toLocal utc) false⟩
    | none => ⟨name, ':' :: icalDatetime utc true⟩

def endLine (m : Meeting) (start : Int) : List Line :=
  match m.stop with
  | none => []
  | some stop =>
    if m.allDay then
      if m.localDate start < m.localDate stop then [⟨"DTEND",
        ";VALUE=DATE:".toList ++ m.localDate stop⟩] else []
    else if stop ≥ start then [m.when "DTEND" stop] else []

/-- `WEEKDAYS[day as usize % 7]` -/
def dayName (day : Nat) : Text := weekdays.getD (day % 7) []

/-- Local time of day of each instance: from the pattern, else from the first one. -/
def timeOfDay (m : Meeting) (rule : Recurrence) (start : Int) : Int :=
  rule.startOffset.elim ((m.zone.elim start (·.toLocal start)) % 86400) fun minutes => minutes * 60

/-- Local time as UTC by the zone. -/
def utcOf (m : Meeting) (loc : Int) : Int := m.zone.elim loc (·.toUtc loc)

def rrule (m : Meeting) (rule : Recurrence) (start : Int) : Text :=
  "FREQ=".toList ++ rule.frequency.text.toList ++
    (if rule.interval > 1 then ";INTERVAL=".toList ++ Nat.toDigits 10 rule.interval else []) ++
    (if rule.weekdays = [] then [] else ";BYDAY=".toList ++ [','].intercalate (rule.weekdays.map dayName)) ++
    rule.setPosition.elim [] (fun position => ";BYSETPOS=".toList ++ integer position) ++
    rule.monthDay.elim [] (fun day => ";BYMONTHDAY=".toList ++ integer day) ++
    (if rule.frequency = .yearly then
      ";BYMONTH=".toList ++ Nat.toDigits 10 (civilFromDays ((m.zone.elim start (·.toLocal start)) / 86400)).2.1
    else []) ++
    (match rule.count, rule.untilLocal with
      | some count, _ => ";COUNT=".toList ++ Nat.toDigits 10 count
      | none, some last =>
        ";UNTIL=".toList ++
          if m.allDay then icalDate last else icalDatetime (m.utcOf (last + m.timeOfDay rule start)) true
      | none, none => []) ++
    (if rule.weekStart = 1 then [] else ";WKST=".toList ++ dayName rule.weekStart)

def exdate (m : Meeting) (rule : Recurrence) (start day : Int) : Line :=
  let loc := day + m.timeOfDay rule start
  if m.allDay then ⟨"EXDATE", ";VALUE=DATE:".toList ++ icalDate day⟩
  else match m.zone with
    | some z => ⟨"EXDATE", ";TZID=".toList ++ z.name ++ ':' :: icalDatetime loc false⟩
    | none => ⟨"EXDATE", ':' :: icalDatetime loc true⟩

def recurrenceLines (m : Meeting) (rule : Recurrence) (start : Int) : List Line :=
  ⟨"RRULE", ':' :: m.rrule rule start⟩ :: rule.deletedLocal.map (m.exdate rule start)

/-- The loop over the attendees: no one twice, and not the organizer. -/
def invited (organizer : Option Person) : List Person → List Attendee → List Attendee
  | _, [] => []
  | seen, a :: rest =>
    if organizer.any (sameAddress · a.person) || seen.any (sameAddress · a.person)
      then invited organizer seen rest
    else a :: invited organizer (seen ++ [a.person]) rest

def role : RecipientKind → String
  | .to_ => "ROLE=REQ-PARTICIPANT"
  | .cc => "ROLE=OPT-PARTICIPANT"
  | .bcc => "ROLE=NON-PARTICIPANT;CUTYPE=RESOURCE"

def attendeeLine (m : Meeting) (a : Attendee) : Option Line :=
  addressLine "ATTENDEE" a.person
    (role a.kind :: if m.kind = .request then ["PARTSTAT=NEEDS-ACTION", "RSVP=TRUE"] else [])

def withEmail (p : Person) : Bool := p.address.isSome

/-- ORGANIZER, ATTENDEE and STATUS; `none` where an answer has no one to go to or to come from. -/
def people (m : Meeting) (options : IcsOptions) : Option (List Line) :=
  match m.kind with
  | .reply partstat => do
    let organizer ← (m.organizer.filter withEmail).or options.recipients.head?
    let attendee ← ((m.attendees.head?.map Attendee.person).filter withEmail).or options.sender
    some ((addressLine "ORGANIZER" organizer []).toList ++
      (addressLine "ATTENDEE" attendee ["PARTSTAT=" ++ partstat.ical]).toList)
  | kind =>
    let organizer := (m.organizer.filter withEmail).or options.sender
    let named := m.attendees.filter fun a => withEmail a.person
    let attendees :=
      if named = [] then options.recipients.map (Attendee.mk · .to_) ++ options.cc.map (Attendee.mk · .cc) else named
    some ((organizer.bind (addressLine "ORGANIZER" · [])).toList ++
      (invited organizer [] (attendees.take 1000)).filterMap m.attendeeLine ++
      [⟨"STATUS", (if kind = .cancel then ":CANCELLED" else ":CONFIRMED").toList⟩])

def busyLines (busy : Int) : List Line :=
  [⟨"TRANSP", (if busy = 0 then ":TRANSPARENT" else ":OPAQUE").toList⟩,
    ⟨"X-MICROSOFT-CDO-BUSYSTATUS",
      (if busy = 0 then ":FREE" else if busy = 1 then ":TENTATIVE" else if busy = 3 then ":OOF"
        else ":BUSY").toList⟩]

/-- The lines of the VEVENT, BEGIN and END apart. -/
def event (m : Meeting) (options : IcsOptions) (uid : Text) (start : Int) (people : List Line) : List Line :=
  [⟨"UID", ':' :: escaped uid⟩] ++ m.recurrenceId.toList.map (m.when "RECURRENCE-ID") ++
    [⟨"SEQUENCE", ':' :: integer m.sequence⟩, ⟨"DTSTAMP", ':' :: icalDatetime (m.stamp.getD options.now) true⟩,
      m.when "DTSTART" start] ++
    m.endLine start ++
    (m.recurrence.filter fun _ => m.recurrenceId.isNone).elim [] (m.recurrenceLines · start) ++
    m.summary.toList.map (fun summary => ⟨"SUMMARY", ':' :: escaped summary⟩) ++
    m.location.toList.map (fun location => ⟨"LOCATION", ':' :: escaped location⟩) ++
    m.description.toList.map (fun description => ⟨"DESCRIPTION", ':' :: escaped description⟩) ++
    people ++ m.busyStatus.elim [] busyLines

/-- The content lines of the object; `none` when it lacks what one needs (a UID and a start). -/
def lines (m : Meeting) (options : IcsOptions) : Option (List Line) := do
  let uid ← m.uid
  let start ← m.start
  let people ← m.people options
  some ([⟨"BEGIN", ":VCALENDAR".toList⟩, ⟨"PRODID", ":-//UwUMail//TNEF//EN".toList⟩,
    ⟨"VERSION", ":2.0".toList⟩,
      ⟨"METHOD", ':' :: m.kind.method.toList⟩] ++
    m.timedZone.elim [] TimeZone.vtimezone ++
    ⟨"BEGIN", ":VEVENT".toList⟩ :: m.event options uid start people ++
    [⟨"END", ":VEVENT".toList⟩, ⟨"END", ":VCALENDAR".toList⟩])

/-- The meeting as an iCalendar object with a METHOD. -/
def toIcal (m : Meeting) (options : IcsOptions) : Option Text :=
  (m.lines options).map fun lines => lines.flatMap fun l => fold l.text

end Meeting

/-! ## 2. What is read -/

/-- Unfolding: a line break before a blank is none (RFC 5545 3.1). -/
def unfolded : Text → Text
  | '\r' :: '\n' :: ' ' :: text => unfolded text
  | '\r' :: '\n' :: '\t' :: text => unfolded text
  | c :: text => c :: unfolded text
  | [] => []

/-- The lines of a text as its line breaks end them. -/
def crlfLines : Text → List Text
  | [] => []
  | '\r' :: '\n' :: text => [] :: crlfLines text
  | c :: text =>
    match crlfLines text with
    | [] => [[c]]
    | line :: lines => (c :: line) :: lines

def contentLines (text : Text) : List Text := crlfLines (unfolded text)

/-- The property a content line is of. -/
def nameOf (line : Text) : Text := line.takeWhile fun c => c != ':' && c != ';'

/-- Every BEGIN has its END. -/
inductive Balanced : List Text → Prop
  | nil : Balanced []
  | plain {line : Text} {rest : List Text} : nameOf line ≠ "BEGIN".toList → nameOf line ≠ "END".toList →
      Balanced rest → Balanced (line :: rest)
  | block {name : Text} {inside rest : List Text} : Balanced inside → Balanced rest →
      Balanced (("BEGIN:".toList ++ name) :: (inside ++ ("END:".toList ++ name) :: rest))

def isBreak (c : Char) : Bool := c == '\r' || c == '\n'

/-- No line break in the text. -/
def OneLine (text : Text) : Prop := text.all (!isBreak ·) = true

instance (text : Text) : Decidable (OneLine text) := inferInstanceAs (Decidable (_ = true))

section
variable {line text : Text} {c : Char}

theorem oneLine_iff : OneLine text ↔ ∀ c ∈ text, isBreak c = false := by
  rw [OneLine, List.all_eq_true]
  exact forall₂_congr fun c _ => by rw [Bool.not_eq_true']

@[simp] theorem oneLine_nil : OneLine [] := rfl

@[simp] theorem oneLine_cons : OneLine (c :: text) ↔ isBreak c = false ∧ OneLine text := by
  rw [OneLine, List.all_cons, Bool.and_eq_true, Bool.not_eq_true', OneLine]

@[simp] theorem oneLine_append : OneLine (line ++ text) ↔ OneLine line ∧ OneLine text := by
  rw [OneLine, List.all_append, Bool.and_eq_true, OneLine, OneLine]

theorem isBreak_eq_false : isBreak c = false ↔ c ≠ '\r' ∧ c ≠ '\n' := by
  rw [isBreak, Bool.or_eq_false_iff, beq_eq_false_iff_ne, beq_eq_false_iff_ne]

theorem unfolded_cons (h : c ≠ '\r') : unfolded (c :: text) = c :: unfolded text := by
  rw [unfolded.eq_def]
  split
  · next heq => exact absurd (List.cons.inj heq).1 h
  · next heq => exact absurd (List.cons.inj heq).1 h
  · next heq =>
    obtain ⟨rfl, rfl⟩ := List.cons.inj heq
    rfl
  · next heq => cases heq

theorem unfolded_break (hspace : text.head? ≠ some ' ') (htab : text.head? ≠ some '\t') :
    unfolded ('\r' :: '\n' :: text) = '\r' :: '\n' :: unfolded text := by
  rw [unfolded.eq_def]
  split
  · next heq =>
    obtain ⟨-, heq⟩ := List.cons.inj heq
    obtain ⟨-, rfl⟩ := List.cons.inj heq
    exact absurd rfl hspace
  · next heq =>
    obtain ⟨-, heq⟩ := List.cons.inj heq
    obtain ⟨-, rfl⟩ := List.cons.inj heq
    exact absurd rfl htab
  · next heq =>
    obtain ⟨rfl, rfl⟩ := List.cons.inj heq
    rw [unfolded_cons (by decide)]
  · next heq => cases heq

/-- What was folded comes back, whatever blanks the line has. -/
theorem unfolded_foldFrom {width : Nat} (h : '\r' ∉ line) :
    unfolded (Itip.foldFrom width line ++ text) = line ++ unfolded ('\r' :: '\n' :: text) := by
  induction line generalizing width with
  | nil => rfl
  | cons c line ih =>
    rw [List.mem_cons, not_or] at h
    rw [Itip.foldFrom]
    split
    · change unfolded (c :: (Itip.foldFrom _ line ++ text)) = _
      rw [unfolded_cons (Ne.symm h.1), ih h.2, List.cons_append]
    · rw [List.cons_append, unfolded_cons (Ne.symm h.1), ih h.2, List.cons_append]

theorem crlfLines_append (h : '\r' ∉ line) : crlfLines (line ++ '\r' :: '\n' :: text) =
    line :: crlfLines text := by
  induction line with
  | nil => rfl
  | cons c line ih =>
    rw [List.mem_cons, not_or] at h
    rw [List.cons_append, crlfLines.eq_def]
    split
    · next heq => cases heq
    · next heq => exact absurd (List.cons.inj heq).1.symm h.1
    · next heq =>
      obtain ⟨rfl, rfl⟩ := List.cons.inj heq
      rw [ih h.2]

theorem notMem_of_oneLine (h : OneLine line) : '\r' ∉ line :=
    fun hmem => absurd (oneLine_iff.1 h _ hmem) (by decide)

theorem unfolded_flatMap {lines : List Text} (h : ∀ line ∈ lines, OneLine line ∧ line.head? ≠ some ' ' ∧
    line.head? ≠ some '\t' ∧ line ≠ []) : unfolded (lines.flatMap fold) = lines.flatMap (· ++ ['\r', '\n']) ∧
      (lines.flatMap fold).head? ≠ some ' ' ∧ (lines.flatMap fold).head? ≠ some '\t' := by
  induction lines with
  | nil => exact ⟨rfl, nofun, nofun⟩
  | cons line lines ih =>
    obtain ⟨heq, hspace, htab⟩ := ih fun line hmem => h line (List.mem_cons_of_mem _ hmem)
    obtain ⟨hone, hspace', htab', hne⟩ := h line List.mem_cons_self
    obtain ⟨c, rest, rfl⟩ := List.exists_cons_of_ne_nil hne
    rw [List.flatMap_cons, List.flatMap_cons, fold, Itip.fold, unfolded_foldFrom (notMem_of_oneLine hone),
      unfolded_break hspace htab, heq, List.append_assoc]
    have hsize := Char.utf8Size_le_four c
    have hhead : (Itip.foldFrom 0 (c :: rest) ++ lines.flatMap fold).head? = some c := by
      rw [Itip.foldFrom, if_neg (by change ¬ 0 + c.utf8Size > 75; omega)]
      rfl
    exact ⟨rfl, hhead ▸ hspace', hhead ▸ htab'⟩

theorem crlfLines_flatMap {lines : List Text} (h : ∀ line ∈ lines, OneLine line) :
    crlfLines (lines.flatMap (· ++ ['\r', '\n'])) = lines := by
  induction lines with
  | nil => rfl
  | cons line lines ih =>
    rw [List.flatMap_cons, List.append_assoc, List.cons_append, List.cons_append, List.nil_append,
      crlfLines_append (notMem_of_oneLine (h line List.mem_cons_self)), ih fun line hmem =>
        h line (List.mem_cons_of_mem _ hmem)]

/-- **Folding.**  A folded line is the line again, and no physical line is too long. -/
theorem physical_le {lines : List Text} (h : ∀ line ∈ lines, OneLine line) :
    ∀ physical ∈ crlfLines (lines.flatMap fold), octets physical ≤ 75 := by
  induction lines with
  | nil => exact fun _ hmem => absurd hmem List.not_mem_nil
  | cons line lines ih =>
    have ih := ih fun line hmem => h line (List.mem_cons_of_mem _ hmem)
    obtain ⟨first, pieces, rfl, hfold, hfirst, hpieces, -⟩ := Itip.foldFrom_pieces 0 line
    have hnone := notMem_of_oneLine (h _ List.mem_cons_self)
    rw [List.mem_append, not_or] at hnone
    have hlines : ∀ text, crlfLines ((pieces.map fun piece => ' ' :: (piece ++ ['\r'])).flatMap (· ++ ['\n']) ++ text) =
        pieces.map (' ' :: ·) ++ crlfLines text := by
      intro text
      have hclear : ∀ piece ∈ pieces, '\r' ∉ piece := fun piece hpiece hin =>
        hnone.2 (List.mem_flatten.2 ⟨piece, hpiece, hin⟩)
      clear hfold hpieces hnone h
      induction pieces with
      | nil => rfl
      | cons piece pieces ihp =>
        have hpiece : '\r' ∉ ' ' :: piece := by
          rw [List.mem_cons, not_or]
          exact ⟨by decide, hclear piece List.mem_cons_self⟩
        have hshape : ((piece :: pieces).map fun piece => ' ' :: (piece ++ ['\r'])).flatMap
          (· ++ ['\n']) ++ text =
            (' ' :: piece) ++ '\r' :: '\n' :: ((pieces.map fun piece =>
              ' ' :: (piece ++ ['\r'])).flatMap (· ++ ['\n']) ++
              text) := by
          simp
        rw [hshape, crlfLines_append hpiece, ihp fun p hp => hclear p (List.mem_cons_of_mem _ hp)]
        rfl
    have hshape : fold (first ++ pieces.flatten) ++ lines.flatMap fold =
        first ++ '\r' :: '\n' :: ((pieces.map fun piece => ' ' :: (piece ++ ['\r'])).flatMap (· ++ ['\n']) ++
          lines.flatMap fold) := by
      rw [fold, Itip.fold, hfold, Itip.physical]
      simp
    rw [List.flatMap_cons, hshape, crlfLines_append hnone.1, hlines]
    intro physical hmem
    obtain rfl | hmem := List.mem_cons.1 hmem
    · by_cases hnil : physical = []
      · rw [hnil]
        exact Nat.zero_le _
      · have := hfirst hnil
        rwa [Nat.zero_add] at this
    · obtain hmem | hmem := List.mem_append.1 hmem
      · obtain ⟨piece, hpiece, rfl⟩ := List.mem_map.1 hmem
        rw [Itip.octets_cons]
        exact hpieces piece hpiece
      · exact ih physical hmem

end

/-! ## 3. No value breaks its line -/

section
variable {text value : Text} {n i : Nat} {width : Nat}

theorem oneLine_of_control (h : ∀ c ∈ text, isControl c = false) : OneLine text := by
  refine oneLine_iff.2 fun c hc => isBreak_eq_false.2 ?_
  constructor <;> rintro rfl <;> exact absurd (h _ hc) (by decide)

theorem oneLine_of_digit (h : ∀ c ∈ text, c.isDigit = true) : OneLine text := by
  refine oneLine_iff.2 fun c hc => isBreak_eq_false.2 ?_
  constructor <;> rintro rfl <;> exact absurd (h _ hc) (by decide)

@[simp] theorem oneLine_digits : OneLine (Nat.toDigits 10 n) :=
  oneLine_of_digit fun _ hc => Nat.isDigit_of_mem_toDigits (by decide) (by decide) hc

@[simp] theorem oneLine_pad : OneLine (Imap.pad width n) :=
    oneLine_of_digit fun _ hc => Imap.isDigit_of_mem_pad hc

@[simp] theorem oneLine_integer (n : Int) : OneLine (integer n) := by
  unfold integer
  split <;> simp [isBreak_eq_false]

@[simp] theorem oneLine_fourDigits (year : Int) : OneLine (fourDigits year) := oneLine_pad

@[simp] theorem oneLine_icalDate (secs : Int) : OneLine (icalDate secs) := by
  simp [icalDate]

@[simp] theorem oneLine_icalDatetime (secs : Int) (utc : Bool) : OneLine (icalDatetime secs utc) := by
  cases utc <;> simp [icalDatetime, isBreak_eq_false]

@[simp] theorem oneLine_writeOffset (minutes : Int) : OneLine (writeOffset minutes) := by
  unfold writeOffset
  split <;> simp [isBreak_eq_false]

theorem oneLine_of_mem_weekdays : ∀ day ∈ weekdays, OneLine day := by decide

@[simp] theorem oneLine_weekdays : OneLine (weekdays.getD i []) := by
  rw [List.getD_eq_getElem?_getD]
  cases hget : weekdays[i]? with
  | none => rfl
  | some day => exact oneLine_of_mem_weekdays day (List.mem_of_getElem? hget)

@[simp] theorem oneLine_rrule (t : Transition) : OneLine t.rrule := by
  unfold Transition.rrule
  simp only [oneLine_append, oneLine_digits, and_true]
  refine ⟨⟨⟨rfl, rfl⟩, ?_⟩, oneLine_of_mem_weekdays _ (List.get_mem _ _)⟩
  split
  · rfl
  · exact oneLine_digits

@[simp] theorem oneLine_name (z : TimeZone) : OneLine z.name :=
  oneLine_of_control fun c hc => by
    have := z.name_clear c hc
    simp only [isNameMark, Bool.or_eq_false_iff] at this
    exact this.1.1.1.1

@[simp] theorem oneLine_escaped : OneLine (escaped value) := by
  refine oneLine_iff.2 fun c hc => ?_
  obtain ⟨d, -, hc⟩ := List.mem_flatMap.1 hc
  unfold escape at hc
  split_ifs at hc with hslash hsemi hcomma hbreak hcontrol
  · exact oneLine_iff.1 (rfl : OneLine ['\\', '\\']) c hc
  · exact oneLine_iff.1 (rfl : OneLine ['\\', ';']) c hc
  · exact oneLine_iff.1 (rfl : OneLine ['\\', ',']) c hc
  · exact oneLine_iff.1 (rfl : OneLine ['\\', 'n']) c hc
  · cases hc
  · rw [List.mem_singleton.1 hc]
    exact isBreak_eq_false.2 ⟨fun h => hbreak (.inr h), fun h => hbreak (.inl h)⟩

@[simp] theorem oneLine_param : OneLine (param value) := by
  unfold param
  have hclean : OneLine (Lib.trim isWhitespace ((value.filter fun c => !isControl c && c != '"').take 200)) := by
    refine oneLine_of_control fun c hc => ?_
    have := (List.mem_filter.1 (List.mem_of_mem_take (Lib.mem_of_mem_trim hc))).2
    rw [Bool.and_eq_true, Bool.not_eq_true'] at this
    exact this.1
  rw [List.cons_append, oneLine_cons, oneLine_append]
  exact ⟨rfl, hclean, rfl⟩

theorem oneLine_address {email : Text} (h : internetAddress value = some email) : OneLine email := by
  obtain ⟨hok, heq⟩ := Option.ite_none_right_eq_some.1 h
  obtain rfl := Option.some.inj heq
  refine oneLine_of_control fun c hc => ?_
  have := List.all_eq_true.1 hok.2.2.2.2.2 c hc
  rw [isAddressChar, Bool.and_eq_true, Bool.and_eq_true, Bool.not_eq_true', Bool.not_eq_true'] at this
  exact this.1.2

end

/-- A line of one property: its name is one, and nothing after it breaks the line. -/
structure Line.Ok (l : Line) : Prop where
  named : l.name.toList.all Itip.isNameChar = true
  marked : l.rest.head? = some ':' ∨ l.rest.head? = some ';'
  oneLine : OneLine l.rest

/-- Neither BEGIN nor END. -/
def Line.Plain (l : Line) : Prop := l.Ok ∧ l.name ≠ "BEGIN" ∧ l.name ≠ "END"

theorem plain_of {name : String} {rest : Text} (hname : name.toList.all Itip.isNameChar = true)
    (hmark : rest.head? = some ':' ∨ rest.head? = some ';') (hrest : OneLine rest)
      (hplain : name ≠ "BEGIN" ∧ name ≠ "END") :
    Line.Plain ⟨name, rest⟩ :=
  ⟨⟨hname, hmark, hrest⟩, hplain⟩

section
variable {m : Meeting} {l : Line} {name : String} {utc start : Int} {rule : Recurrence}
  {options : IcsOptions}

theorem plain_address {person : Person} {params : List String} (hparams : ∀ p ∈ params, OneLine p.toList)
    (hname : name.toList.all Itip.isNameChar = true) (hplain : name ≠ "BEGIN" ∧ name ≠ "END")
    (h : addressLine name person params = some l) : l.Plain := by
  obtain ⟨email, hemail, rfl⟩ := Option.map_eq_some_iff.1 h
  obtain ⟨value, -, hemail⟩ := Option.bind_eq_some_iff.1 hemail
  have hflat : OneLine (params.flatMap fun p => ';' :: p.toList) := by
    refine oneLine_iff.2 fun c hc => ?_
    obtain ⟨p, hp, hc⟩ := List.mem_flatMap.1 hc
    obtain rfl | hc := List.mem_cons.1 hc
    · rfl
    · exact oneLine_iff.1 (hparams p hp) c hc
  refine plain_of hname ?_ ?_ hplain
  · cases hn : person.name.filter fun n => Lib.trim isWhitespace n ≠ [] with
    | none =>
      cases params with
      | nil => exact .inl rfl
      | cons p params => exact .inr rfl
    | some n => exact .inr rfl
  · cases hn : person.name.filter fun n => Lib.trim isWhitespace n ≠ [] with
    | none => simp [hflat, oneLine_address hemail, isBreak_eq_false]
    | some n => simp [hflat, oneLine_address hemail, isBreak_eq_false]

@[simp] theorem oneLine_localDate : OneLine (m.localDate utc) := by
  unfold Meeting.localDate
  split <;> exact oneLine_icalDate _

theorem plain_when (hname : name.toList.all Itip.isNameChar = true) (hplain : name ≠ "BEGIN" ∧ name ≠ "END") :
    (m.when name utc).Plain := by
  unfold Meeting.when
  split
  · exact plain_of hname (Or.inr rfl) (by simp [isBreak_eq_false]) hplain
  · split
    · exact plain_of hname (Or.inr rfl) (by simp [isBreak_eq_false]) hplain
    · exact plain_of hname (Or.inl rfl) (by simp [isBreak_eq_false]) hplain

theorem plain_endLine (h : l ∈ m.endLine start) : l.Plain := by
  unfold Meeting.endLine at h
  split at h
  · cases h
  · split_ifs at h
    · rw [List.mem_singleton.1 h]
      exact plain_of rfl (Or.inr rfl) (by simp [isBreak_eq_false]) (by decide)
    · cases h
    · rw [List.mem_singleton.1 h]
      exact plain_when rfl (by decide)
    · cases h

@[simp] theorem oneLine_dayName (day : Nat) : OneLine (Meeting.dayName day) := oneLine_weekdays

theorem oneLine_dayNames (days : List Nat) : OneLine ([','].intercalate (days.map Meeting.dayName)) := by
  refine oneLine_iff.2 fun c hc => ?_
  obtain hc | ⟨text, htext, hc⟩ := Lib.mem_intercalate hc
  · rw [List.mem_singleton.1 hc]
    rfl
  · obtain ⟨day, -, rfl⟩ := List.mem_map.1 htext
    exact oneLine_iff.1 (oneLine_dayName day) c hc

@[simp] theorem oneLine_recurrence : OneLine (m.rrule rule start) := by
  have hfrequency : OneLine rule.frequency.text.toList := by cases rule.frequency <;> rfl
  unfold Meeting.rrule
  simp only [oneLine_append]
  refine ⟨⟨⟨⟨⟨⟨⟨⟨rfl, hfrequency⟩, ?_⟩, ?_⟩, ?_⟩, ?_⟩, ?_⟩, ?_⟩, ?_⟩
  · split
    · exact oneLine_append.2 ⟨rfl, oneLine_digits⟩
    · rfl
  · split
    · rfl
    · exact oneLine_append.2 ⟨rfl, oneLine_dayNames _⟩
  · cases rule.setPosition with
    | none => rfl
    | some position => exact oneLine_append.2 ⟨rfl, oneLine_integer position⟩
  · cases rule.monthDay with
    | none => rfl
    | some day => exact oneLine_append.2 ⟨rfl, oneLine_integer day⟩
  · split
    · exact oneLine_append.2 ⟨rfl, oneLine_digits⟩
    · rfl
  · split
    · exact oneLine_append.2 ⟨rfl, oneLine_digits⟩
    · refine oneLine_append.2 ⟨rfl, ?_⟩
      split
      · exact oneLine_icalDate _
      · exact oneLine_icalDatetime _ _
    · rfl
  · split
    · rfl
    · exact oneLine_append.2 ⟨rfl, oneLine_dayName _⟩

theorem plain_recurrence (h : l ∈ m.recurrenceLines rule start) : l.Plain := by
  obtain rfl | h := List.mem_cons.1 h
  · exact plain_of rfl (Or.inl rfl) (by simp [isBreak_eq_false]) (by decide)
  · obtain ⟨day, -, rfl⟩ := List.mem_map.1 h
    unfold Meeting.exdate
    split
    · exact plain_of rfl (Or.inr rfl) (by simp [isBreak_eq_false]) (by decide)
    · split
      · exact plain_of rfl (Or.inr rfl) (by simp [isBreak_eq_false]) (by decide)
      · exact plain_of rfl (Or.inl rfl) (by simp [isBreak_eq_false]) (by decide)

theorem plain_people {people : List Line} (h : m.people options = some people) : ∀ l ∈ people, l.Plain := by
  have hnone : ∀ p ∈ ([] : List String), OneLine p.toList := fun _ hmem => absurd hmem List.not_mem_nil
  unfold Meeting.people at h
  split at h
  · next partstat _ =>
    obtain ⟨organizer, -, h⟩ := Option.bind_eq_some_iff.1 h
    obtain ⟨attendee, -, h⟩ := Option.bind_eq_some_iff.1 h
    obtain rfl := Option.some.inj h
    intro l hl
    obtain hl | hl := List.mem_append.1 hl
    · exact plain_address hnone rfl (by decide) (Option.mem_toList.1 hl)
    · refine plain_address (fun p hp => ?_) rfl (by decide) (Option.mem_toList.1 hl)
      rw [List.mem_singleton.1 hp]
      cases partstat <;> rfl
  · obtain rfl := Option.some.inj h
    intro l hl
    obtain hl | hl := List.mem_append.1 hl
    · obtain hl | hl := List.mem_append.1 hl
      · obtain ⟨organizer, -, hl⟩ := Option.bind_eq_some_iff.1 (Option.mem_toList.1 hl)
        exact plain_address hnone rfl (by decide) hl
      · obtain ⟨a, -, hl⟩ := List.mem_filterMap.1 hl
        refine plain_address (fun p hp => ?_) rfl (by decide) hl
        obtain rfl | hp := List.mem_cons.1 hp
        · cases a.kind <;> rfl
        · split_ifs at hp
          · obtain rfl | hp := List.mem_cons.1 hp
            · rfl
            · rw [List.mem_singleton.1 hp]
              rfl
          · cases hp
    · rw [List.mem_singleton.1 hl]
      split_ifs
      · exact plain_of rfl (.inl rfl) rfl (by decide)
      · exact plain_of rfl (.inl rfl) rfl (by decide)

theorem plain_busy {busy : Int} : ∀ l ∈ Meeting.busyLines busy, l.Plain := by
  intro l hl
  obtain rfl | hl := List.mem_cons.1 hl
  · split_ifs
    · exact plain_of rfl (.inl rfl) rfl (by decide)
    · exact plain_of rfl (.inl rfl) rfl (by decide)
  · rw [List.mem_singleton.1 hl]
    split_ifs
    · exact plain_of rfl (.inl rfl) rfl (by decide)
    · exact plain_of rfl (.inl rfl) rfl (by decide)
    · exact plain_of rfl (.inl rfl) rfl (by decide)
    · exact plain_of rfl (.inl rfl) rfl (by decide)

theorem plain_text {value : Option Text} (hname : name.toList.all Itip.isNameChar = true)
    (hplain : name ≠ "BEGIN" ∧ name ≠ "END") (h : l ∈ value.toList.map fun v =>
      ⟨name, ':' :: escaped v⟩) : l.Plain := by
  obtain ⟨v, -, rfl⟩ := List.mem_map.1 h
  exact plain_of hname (Or.inl rfl) (by simp [isBreak_eq_false]) hplain

/-- Each line of the VEVENT is one property of it. -/
theorem plain_event {uid : Text} {people : List Line} (hpeople : m.people options = some people) :
    ∀ l ∈ m.event options uid start people, l.Plain := by
  intro l hl
  simp only [Meeting.event, List.mem_append] at hl
  obtain ((((((((hl | hl) | hl) | hl) | hl) | hl) | hl) | hl) | hl) | hl := hl
  · rw [List.mem_singleton.1 hl]
    exact plain_of rfl (Or.inl rfl) (by simp [isBreak_eq_false]) (by decide)
  · obtain ⟨rid, -, rfl⟩ := List.mem_map.1 hl
    exact plain_when rfl (by decide)
  · simp only [List.mem_cons, List.not_mem_nil, or_false] at hl
    obtain rfl | rfl | rfl := hl
    · exact plain_of rfl (Or.inl rfl) (by simp [isBreak_eq_false]) (by decide)
    · exact plain_of rfl (Or.inl rfl) (by simp [isBreak_eq_false]) (by decide)
    · exact plain_when rfl (by decide)
  · exact plain_endLine hl
  · cases hrule : m.recurrence.filter fun _ => m.recurrenceId.isNone with
    | none =>
      rw [hrule] at hl
      cases hl
    | some rule =>
      rw [hrule] at hl
      exact plain_recurrence hl
  · exact plain_text rfl (by decide) hl
  · exact plain_text rfl (by decide) hl
  · exact plain_text rfl (by decide) hl
  · exact plain_people hpeople l hl
  · cases hbusy : m.busyStatus with
    | none =>
      rw [hbusy] at hl
      cases hl
    | some busy =>
      rw [hbusy] at hl
      exact plain_busy l hl

end

/-! ## 4. The object -/

section
variable {l : Line} {inside : List Line}

theorem Line.Ok.nameOf_text (h : l.Ok) : nameOf l.text = l.name.toList := by
  have hclear : ∀ c ∈ l.name.toList, (c != ':' && c != ';') = true := by
    intro c hc
    have := List.all_eq_true.1 h.named c hc
    rw [Bool.and_eq_true, bne_iff_ne, bne_iff_ne]
    constructor <;> rintro rfl <;> exact absurd this (by decide)
  unfold nameOf Line.text
  rw [List.takeWhile_append_of_pos hclear]
  have hrest : l.rest.takeWhile (fun c => c != ':' && c != ';') = [] := by
    cases hr : l.rest with
    | nil => rfl
    | cons c rest =>
      have := h.marked
      rw [hr, List.head?_cons] at this
      obtain heq | heq := this <;> cases heq <;> rfl
  rw [hrest, List.append_nil]

/-- A line of the object is no more of the line before. -/
theorem Line.Ok.isLine (h : l.Ok) :
    OneLine l.text ∧ l.text.head? ≠ some ' ' ∧ l.text.head? ≠ some '\t' ∧ l.text ≠ [] := by
  have hname : OneLine l.name.toList := by
    refine oneLine_iff.2 fun c hc => isBreak_eq_false.2 ?_
    have := List.all_eq_true.1 h.named c hc
    constructor <;> rintro rfl <;> exact absurd this (by decide)
  have hhead : ∃ c, l.text.head? = some c ∧ (Itip.isNameChar c = true ∨ c = ':' ∨ c = ';') := by
    unfold Line.text
    cases hn : l.name.toList with
    | nil =>
      rw [List.nil_append]
      obtain heq | heq := h.marked
      · exact ⟨_, heq, .inr (.inl rfl)⟩
      · exact ⟨_, heq, .inr (.inr rfl)⟩
    | cons c name =>
      have := h.named
      rw [hn, List.all_cons, Bool.and_eq_true] at this
      exact ⟨c, rfl, .inl this.1⟩
  obtain ⟨c, hc, hkind⟩ := hhead
  refine ⟨oneLine_append.2 ⟨hname, h.oneLine⟩, ?_, ?_, ?_⟩
  · rw [hc]
    rintro ⟨⟩
    revert hkind
    decide
  · rw [hc]
    rintro ⟨⟩
    revert hkind
    decide
  · intro hnil
    rw [hnil] at hc
    cases hc

theorem Balanced.append {a b : List Text} (ha : Balanced a) (hb : Balanced b) : Balanced (a ++ b) := by
  induction ha with
  | nil => exact hb
  | plain hbegin hend _ ih => exact .plain hbegin hend ih
  | @block name inside rest hinside _ _ ih =>
    rw [List.cons_append, List.append_assoc, List.cons_append]
    exact .block hinside ih

theorem balanced_of_plain (h : ∀ l ∈ inside, l.Plain) : Balanced (inside.map Line.text) := by
  induction inside with
  | nil => exact .nil
  | cons l inside ih =>
    obtain ⟨hok, hbegin, hend⟩ := h l List.mem_cons_self
    refine .plain ?_ ?_ (ih fun l hl => h l (List.mem_cons_of_mem _ hl))
    · rw [hok.nameOf_text]
      exact fun heq => hbegin (String.toList_inj.1 heq)
    · rw [hok.nameOf_text]
      exact fun heq => hend (String.toList_inj.1 heq)

/-- A component: what is inside is balanced, and its BEGIN and END are. -/
theorem balanced_component {name : Text} {inside rest : List Line} (hinside : Balanced (inside.map Line.text))
    (hrest : Balanced (rest.map Line.text)) :
    Balanced ((⟨"BEGIN", ':' :: name⟩ :: (inside ++ ⟨"END", ':' :: name⟩ :: rest) : List Line).map Line.text) := by
  have hbegin : Line.text ⟨"BEGIN", ':' :: name⟩ = "BEGIN:".toList ++ name := by simp [Line.text]
  have hend : Line.text ⟨"END", ':' :: name⟩ = "END:".toList ++ name := by simp [Line.text]
  rw [List.map_cons, List.map_append, List.map_cons, hbegin, hend]
  exact .block hinside hrest

/-- What holds of a whole component holds of what it is put together from. -/
def Sound (lines : List Line) : Prop := (∀ l ∈ lines, l.Ok) ∧ Balanced (lines.map Line.text)

theorem sound_of_plain (h : ∀ l ∈ inside, l.Plain) : Sound inside :=
    ⟨fun l hl => (h l hl).1, balanced_of_plain h⟩

theorem Sound.append {a b : List Line} (ha : Sound a) (hb : Sound b) : Sound (a ++ b) := by
  refine ⟨fun l hl => (List.mem_append.1 hl).elim (ha.1 l) (hb.1 l), ?_⟩
  rw [List.map_append]
  exact ha.2.append hb.2

theorem Sound.component (name : Text) (inside : List Line) {rest : List Line} (hname : OneLine name)
    (hinside : Sound inside)
    (hrest : Sound rest) : Sound (⟨"BEGIN", ':' :: name⟩ :: (inside ++ ⟨"END", ':' :: name⟩ :: rest)) := by
  refine ⟨fun l hl => ?_, balanced_component hinside.2 hrest.2⟩
  have hrest' : OneLine (':' :: name) := oneLine_cons.2 ⟨rfl, hname⟩
  obtain rfl | hl := List.mem_cons.1 hl
  · exact ⟨(rfl : "BEGIN".toList.all Itip.isNameChar = true), .inl rfl, hrest'⟩
  obtain hl | hl := List.mem_append.1 hl
  · exact hinside.1 l hl
  obtain rfl | hl := List.mem_cons.1 hl
  · exact ⟨(rfl : "END".toList.all Itip.isNameChar = true), .inl rfl, hrest'⟩
  · exact hrest.1 l hl

theorem sound_observance (kind : String) (rule : Transition) {before after : Text} {rest : List Line}
    (hkind : OneLine kind.toList) (hbefore : OneLine before) (hafter : OneLine after) (hrest : Sound rest) :
    Sound (observance kind rule before after ++ rest) := by
  refine Sound.component kind.toList [_, _, _, _] hkind (sound_of_plain fun l hl => ?_) hrest
  simp only [List.mem_cons, List.not_mem_nil, or_false] at hl
  obtain rfl | rfl | rfl | rfl := hl
  · exact plain_of rfl (Or.inl rfl) (by simp [isBreak_eq_false]) (by decide)
  · exact plain_of rfl (Or.inl rfl) (by simp [isBreak_eq_false]) (by decide)
  · exact plain_of rfl (Or.inl rfl) (by simp [isBreak_eq_false, hbefore]) (by decide)
  · exact plain_of rfl (Or.inl rfl) (by simp [isBreak_eq_false, hafter]) (by decide)

theorem sound_nil : Sound [] := ⟨fun _ hl => absurd hl List.not_mem_nil, .nil⟩

theorem sound_vtimezone (z : TimeZone) : Sound z.vtimezone := by
  have htzid : ∀ l ∈ [Line.mk "TZID" (':' :: z.name)], l.Plain := by
    intro l hl
    rw [List.mem_singleton.1 hl]
    exact plain_of rfl (Or.inl rfl) (by simp [isBreak_eq_false]) (by decide)
  have hblock : ∀ {observances : List Line}, Sound observances →
      Sound ([⟨"BEGIN", ":VTIMEZONE".toList⟩, ⟨"TZID", ':' :: z.name⟩] ++ observances ++
        [⟨"END", ":VTIMEZONE".toList⟩]) := by
    intro observances h
    exact Sound.component "VTIMEZONE".toList (⟨"TZID", ':' :: z.name⟩ :: observances) rfl
      ((sound_of_plain htzid).append h) sound_nil
  unfold TimeZone.vtimezone
  refine hblock ?_
  split
  · have hdaylight := fun rule => sound_observance "DAYLIGHT" rule rfl
      (oneLine_writeOffset z.standardOffset) (oneLine_writeOffset z.daylightOffset) sound_nil
    refine sound_observance _ _ rfl (oneLine_writeOffset _) (oneLine_writeOffset _) ?_
    have := hdaylight ‹Transition›
    rwa [List.append_nil] at this
  · refine Sound.component "STANDARD".toList [_, _, _] rfl (sound_of_plain fun l hl => ?_) sound_nil
    simp only [List.mem_cons, List.not_mem_nil, or_false] at hl
    obtain rfl | rfl | rfl := hl
    · exact plain_of rfl (.inl rfl) rfl (by decide)
    · exact plain_of rfl (Or.inl rfl) (by simp [isBreak_eq_false]) (by decide)
    · exact plain_of rfl (Or.inl rfl) (by simp [isBreak_eq_false]) (by decide)

theorem sound_lines {m : Meeting} {options : IcsOptions} {lines : List Line}
    (h : m.lines options = some lines) :
    Sound lines := by
  obtain ⟨uid, -, h⟩ := Option.bind_eq_some_iff.1 h
  obtain ⟨start, -, h⟩ := Option.bind_eq_some_iff.1 h
  obtain ⟨people, hpeople, h⟩ := Option.bind_eq_some_iff.1 h
  obtain rfl := Option.some.inj h
  have hhead : Sound [⟨"PRODID", ":-//UwUMail//TNEF//EN".toList⟩, ⟨"VERSION", ":2.0".toList⟩,
      ⟨"METHOD", ':' :: m.kind.method.toList⟩] := by
    refine sound_of_plain fun l hl => ?_
    simp only [List.mem_cons, List.not_mem_nil, or_false] at hl
    obtain rfl | rfl | rfl := hl
    · exact plain_of rfl (.inl rfl) rfl (by decide)
    · exact plain_of rfl (.inl rfl) rfl (by decide)
    · refine plain_of rfl (.inl rfl) ?_ (by decide)
      cases m.kind with
      | reply partstat => exact oneLine_cons.2 ⟨rfl, (by decide : OneLine "REPLY".toList)⟩
      | _ => rfl
  have hzone : Sound (m.timedZone.elim [] TimeZone.vtimezone) := by
    cases m.timedZone with
    | none => exact sound_nil
    | some z => exact sound_vtimezone z
  have hevent := Sound.component "VEVENT".toList _ rfl
    (sound_of_plain (@plain_event m start options uid people hpeople))
    sound_nil
  have hall := Sound.component "VCALENDAR".toList _ rfl ((hhead.append hzone).append hevent) sound_nil
  convert hall using 1
  simp

/-- **The meeting as iCalendar.**  What is read of the text is the lines that were to be written,
one for each property and none that a value began; every BEGIN has its END; a physical line has 75
octets at most; and a folded line is the line again. -/
theorem to_ical_lines {m : Meeting} {options : IcsOptions} {ics : Text} (h : m.toIcal options = some ics) :
    (∃ lines, m.lines options = some lines ∧ contentLines ics = lines.map Line.text ∧
      (contentLines ics).map nameOf = lines.map fun l => l.name.toList) ∧
    Balanced (contentLines ics) ∧ (∀ physical ∈ crlfLines ics, octets physical ≤ 75) ∧
    ∀ line ∈ contentLines ics, contentLines (fold line) = [line] := by
  obtain ⟨lines, hlines, rfl⟩ := Option.map_eq_some_iff.1 h
  obtain ⟨hok, hbalanced⟩ := sound_lines hlines
  have hread : ∀ {ls : List Line}, (∀ l ∈ ls, l.Ok) → contentLines (ls.flatMap fun l =>
    fold l.text) = ls.map Line.text := by
    intro ls hls
    have hline : ∀ line ∈ ls.map Line.text, OneLine line ∧ line.head? ≠ some ' ' ∧
      line.head? ≠ some '\t' ∧ line ≠ [] := by
      intro line hline
      obtain ⟨l, hl, rfl⟩ := List.mem_map.1 hline
      exact (hls l hl).isLine
    rw [← List.flatMap_map, contentLines, (unfolded_flatMap hline).1,
      crlfLines_flatMap fun line hl => (hline line hl).1]
  rw [hread hok]
  refine ⟨⟨lines, hlines, rfl, ?_⟩, hbalanced, ?_, ?_⟩
  · rw [List.map_map]
    exact List.map_congr_left fun l hl => (hok l hl).nameOf_text
  · rw [← List.flatMap_map]
    refine physical_le fun line hline => ?_
    obtain ⟨l, hl, rfl⟩ := List.mem_map.1 hline
    exact (hok l hl).isLine.1
  · intro line hline
    obtain ⟨l, hl, rfl⟩ := List.mem_map.1 hline
    have := @hread [l] fun l' hl' => (List.mem_singleton.1 hl') ▸ hok l hl
    rwa [List.flatMap_singleton] at this

/-- An invitation whose subject goes on with a property of its own, whose one guest has a quotation
mark in the name and a line break in the address, and whose zone is named to begin a line. -/
def hostile : Meeting where
  kind := .request
  uid := some "1".toList
  recurrenceId := none
  sequence := 0
  start := some 0
  stop := none
  allDay := false
  summary := some "Lunch\r\nATTENDEE:mailto:nyu@example.com".toList
  location := none
  description := none
  organizer := none
  attendees := [⟨⟨some "N\"yu".toList, some "a@b\r\nEND:VEVENT".toList⟩, .to_⟩]
  busyStatus := none
  timeZone := some {
    name := "Rome\r\nATTENDEE;CN=x:mailto:nyu@example.com".toList
    bias := -60
    standardBias := 0
    daylightBias := -60
    standard := Transition.read 0 10 0 5 3 0 0
    daylight := Transition.read 0 3 0 5 2 0 0 }
  recurrence := none
  stamp := none

theorem to_ical_lines_hostile : ∃ ics, hostile.toIcal ⟨0, none, [], []⟩ = some ics ∧
    Balanced (contentLines ics) ∧
    (contentLines ics).map nameOf = ["BEGIN", "PRODID", "VERSION", "METHOD", "BEGIN", "TZID",
      "BEGIN", "DTSTART", "RRULE",
      "TZOFFSETFROM", "TZOFFSETTO", "END", "BEGIN", "DTSTART", "RRULE", "TZOFFSETFROM",
        "TZOFFSETTO", "END", "END",
      "BEGIN", "UID", "SEQUENCE", "DTSTAMP", "DTSTART", "SUMMARY", "STATUS", "END",
          "END"].map String.toList := by
  obtain ⟨lines, hlines⟩ : ∃ lines, hostile.lines ⟨0, none, [], []⟩ = some lines :=
    Option.isSome_iff_exists.1 rfl
  have h : hostile.toIcal ⟨0, none, [], []⟩ = some (lines.flatMap fun l => fold l.text) := by
    rw [Meeting.toIcal, hlines]
    rfl
  obtain ⟨⟨lines', hlines', -, hread⟩, hbalanced, -⟩ := to_ical_lines h
  obtain rfl := Option.some.inj (hlines.symm.trans hlines')
  refine ⟨_, h, hbalanced, hread.trans (Option.some.inj ?_)⟩
  change (some lines).map (fun ls : List Line => ls.map fun l => l.name.toList) = _
  rw [← hlines]
  decide +kernel

end

end UwuMail.Tnef
