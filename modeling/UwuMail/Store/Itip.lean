/-
# Scheduling messages

`itip.rs`: an organizer's invitation goes out (`request`), is kept as an attendee's copy
(`attendee_copy`), answered (`reply`), and the answer is taken into the organizer's object
(`apply_reply`).  `plan` says whom to tell what after an object changed.

* §2: an event keeps its attendees and its recurrence id all the way to the answer.
* §3: what an answer changes, one line, one event, and the whole object.
* §4: the plan looks at an object without its answers, so it asks for no message after one, unless
  the CLIENT asked for one with `SCHEDULE-FORCE-SEND=REQUEST`.
-/
import UwuMail.Imap.Dates
import UwuMail.Lib.First
import UwuMail.Store.Ics

namespace UwuMail.Itip

open Lib (modifyFirst setFirst)
open Property (isNamed)
open Imap (pad padInt parseI64 civilFromDays)

/-! ## 1. The source -/

/-- A parameter of the name. -/
def isParam (name : String) (param : Text × Text) : Bool := eqIgnoreAsciiCase param.1 name.toList

namespace Property

def param (p : Property) (name : String) : Option Text :=
  (p.params.find? (isParam name)).map Prod.snd

def setParam (p : Property) (name : String) (value : Text) : Property :=
  ⟨p.name, setFirst (isParam name) (fun param => (param.1, value)) (upper name.toList,
    value) p.params, p.value⟩

def removeParam (p : Property) (name : String) : Property :=
  ⟨p.name, p.params.filter (!isParam name ·), p.value⟩

end Property

/-- `mailto:Mini@Example.org` as `mini@example.org`.  `none` for other kinds of address.  `lower` is
`str::to_lowercase`. -/
def address (lower : Text → Text) (value : Text) : Option Text :=
  let value := trim value
  if eqIgnoreAsciiCase (value.take 7) "mailto:".toList then
    let rest := trim (value.drop 7)
    if rest.contains '@' && !rest.any (fun c => c == ' ' || c == '<' || c == '>')
      then some (lower rest) else none
  else none

def Property.address (lower : Text → Text) (p : Property) : Option Text := Itip.address lower p.value

namespace Component

def propertiesNamed (c : Component) (name : String) : List Property :=
  c.properties.filter (isNamed name)

/-- Replaces the first property of the name, or adds it. -/
def set (c : Component) (property : Property) : Component :=
  .mk c.name (setFirst (fun p => decide (p.name = property.name)) (fun _ => property)
    property c.properties) c.components

def remove (c : Component) (name : String) : Component :=
  .mk c.name (c.properties.filter (!isNamed name ·)) c.components

def isEvent (c : Component) : Bool := decide (c.name = "VEVENT".toList)

/-- The events of a calendar object: the series (or single event) and its changed instances. -/
def events (c : Component) : List Component := c.components.filter isEvent

/-- The instance an event component stands for: `none` for the series or a single event. -/
def recurrenceId (c : Component) : Option Text := (c.value "RECURRENCE-ID").map trim

/-- The recurrence id of an event. -/
def eventKey (c : Component) : Option (Option Text) := if c.isEvent then some c.recurrenceId else none

def eventFor (c : Component) (rid : Option Text) : Option Component :=
  c.events.find? fun event => decide (event.recurrenceId = rid)

/-- `event_for_mut`, and what is done with the event. -/
def modifyEvent (c : Component) (rid : Option Text) (f : Component → Component) : Component :=
  .mk c.name c.properties (Lib.modifyKey eventKey f c.components rid)

/-- `events_mut`, and what is done with each of them. -/
def modifyEvents (c : Component) (f : Component → Component) : Component :=
  .mk c.name c.properties (c.components.map fun d => if d.isEvent then f d else d)

end Component

section Reading

variable (lower : Text → Text)

/-- The organizer's address, if the object is a scheduled one. -/
def organizer (calendar : Component) : Option Text :=
  calendar.events.findSome? fun event => (event.property "ORGANIZER").bind (·.address lower)

def scheduleAgentIsServer (property : Property) : Bool :=
  (property.param "SCHEDULE-AGENT").all fun agent => eqIgnoreAsciiCase agent "SERVER".toList

/-- Someone an event invites. -/
structure Attendee where
  address : Text
  name : Option Text
  /-- `NEEDS-ACTION`, `ACCEPTED`, `DECLINED`, `TENTATIVE`, `DELEGATED`, upper case. -/
  partstat : Text
  /-- Whether the server is to send them scheduling messages (`SCHEDULE-AGENT`, RFC 6638). -/
  byServer : Bool
  /-- `SCHEDULE-FORCE-SEND=REQUEST`: the client asks for a new invitation even without a change. -/
  forceRequest : Bool
deriving DecidableEq

def attendeeOf (property : Property) : Option Attendee :=
  (property.address lower).map fun address =>
    { address
      name := property.param "CN"
      partstat := upper ((property.param "PARTSTAT").getD "NEEDS-ACTION".toList)
      byServer := scheduleAgentIsServer property
      forceRequest := (property.param "SCHEDULE-FORCE-SEND").any fun v =>
        eqIgnoreAsciiCase v "REQUEST".toList }

/-- One turn of the loop of `attendees`. -/
def addAttendee (out : List Attendee) (attendee : Attendee) : List Attendee :=
  setFirst (fun known => decide (known.address = attendee.address))
    (fun known => { known with forceRequest := known.forceRequest || attendee.forceRequest }) attendee out

/-- Everyone any event of the object invites, each once, in order. -/
def attendees (calendar : Component) : List Attendee :=
  (calendar.events.flatMap fun event => (event.propertiesNamed "ATTENDEE").filterMap (attendeeOf lower)).foldl
    addAttendee []

/-- One attendee's answer for each event of the object, by recurrence id. -/
def partstats (calendar : Component) (address : Text) : List (Option Text × Text) :=
  calendar.events.filterMap fun event =>
    (((event.propertiesNamed "ATTENDEE").filterMap (attendeeOf lower)).find? fun a => decide (a.address = address)).map
      fun attendee => (event.recurrenceId, attendee.partstat)

/-- What one of the addresses of an account is in an object. -/
inductive Role where
  /-- It is the organizer's own event. -/
  | organizer (address : Text)
  /-- It is invited, with this address. -/
  | attendee (address : Text)
  /-- Not scheduled, or not with any of these addresses. -/
  | none
deriving DecidableEq

/-- Which part `own` (lower-case addresses) plays in an object. -/
def role (calendar : Component) (own : List Text) : Role :=
  match organizer lower calendar with
  | .none => .none
  | some organizer =>
    if own.contains organizer then .organizer organizer
    else
      match (attendees lower calendar).find? fun a => own.contains a.address with
      | some attendee => .attendee attendee.address
      | .none => .none

/-- Whether the organizer left scheduling to the clients (`SCHEDULE-AGENT=CLIENT` or `NONE`). -/
def organizerSchedulesItself (calendar : Component) : Bool :=
  calendar.events.any fun event => (event.property "ORGANIZER").any fun p => !scheduleAgentIsServer p

/-- The attendees the server sends messages to for an organizer. -/
def recipients (calendar : Component) (own : List Text) : List Attendee :=
  (attendees lower calendar).filter fun a => a.byServer && !own.contains a.address

def ignored : List String := ["DTSTAMP", "LAST-MODIFIED", "SEQUENCE", "CREATED", "TRANSP", "CATEGORIES"]
def answerParams : List String := ["PARTSTAT", "RSVP", "SCHEDULE-STATUS", "SCHEDULE-FORCE-SEND"]

def paramLe (a b : Text × Text) : Bool := decide (a.1 < b.1) || a.1 == b.1 && decide (a.2 ≤ b.2)

/-- A property as `essence` compares it. -/
def essenceLine (p : Property) : Text :=
  let p := if p.name = "ATTENDEE".toList ∨ p.name = "ORGANIZER".toList then
      { p with
        params := p.params.filter fun param => !answerParams.any fun name => param.1 == name.toList
        value := (p.address lower).getD p.value }
    else p
  { p with params := p.params.mergeSort paramLe }.write

def ridLe : Option Text → Option Text → Bool
  | .none, _ => true
  | some _, .none => false
  | some a, some b => decide (a ≤ b)

def essenceLe (a b : Option Text × List Text) : Bool :=
  if a.1 = b.1 then decide (a.2 ≤ b.2) else ridLe a.1 b.1

/-- What an event is without what does not concern attendees: per-user data, stamps and answers. -/
def essence (calendar : Component) : List (Option Text × List Text) :=
  (calendar.events.map fun event =>
    let lines := (event.properties.filter fun p =>
      !(ignored.any fun name => p.name == name.toList) && !"X-".toList.isPrefixOf p.name).map
        (essenceLine lower)
    (event.recurrenceId, lines.mergeSort fun a b => decide (a ≤ b))).mergeSort essenceLe

/-- What the server has to send after a scheduling object changed. -/
structure Plan where
  /-- As organizer: attendees to (re)invite with a REQUEST. -/
  requests : List Text := []
  /-- As organizer: attendees taken off, or everyone when the event is gone, with a CANCEL. -/
  cancels : List Text := []
  /-- As attendee: the address to answer the organizer with, in a REPLY. -/
  replyAs : Option Text := .none
  /-- The organizer's address; for a reply, where it goes. -/
  organizer : Option Text := .none

/-- Whom to tell what after an account changed an object from `old` to `new` (`none`: it was not
there, or is gone). `own` are the account's addresses, lower case (RFC 6638, 3.2). -/
def plan (old new : Option Component) (own : List Text) : Plan :=
  match new.or old with
  | .none => {}
  | some reference =>
    let plan : Plan := { organizer := organizer lower reference }
    if organizerSchedulesItself reference then plan
    else
      match role lower reference own with
      | .organizer _ =>
        let before := (old.map (recipients lower · own)).getD []
        let after := (new.map (recipients lower · own)).getD []
        let changed := match old, new with
          | some old, some new => decide (essence lower old ≠ essence lower new)
          | _, _ => true
        { plan with
          cancels := (before.filter fun a => !after.any fun b => decide (b.address = a.address)).map Attendee.address
          requests := (after.filter fun a =>
            changed || a.forceRequest || !before.any fun b =>
              decide (b.address = a.address)).map Attendee.address }
      | .attendee me =>
        let answered := match old, new with
          | some old, some new => decide (partstats lower old me ≠ partstats lower new me)
          | .none, some new => (partstats lower new me).any fun answer => answer.2 != "NEEDS-ACTION".toList
          | some old, .none => (partstats lower old me).any fun answer => answer.2 != "DECLINED".toList
          | .none, .none => false
        if answered then { plan with replyAs := some me } else plan
      | .none => plan

end Reading

/-- `20260917T080000Z` for now. -/
def stamp (now : Int) : Text :=
  let (year, month, day) := civilFromDays (now / 86400)
  let seconds := (now % 86400).toNat
  padInt 4 year ++ pad 2 month ++ pad 2 day ++ 'T' :: pad 2 (seconds / 3600) ++ pad 2 (seconds / 60 % 60) ++
    pad 2 (seconds % 60) ++ ['Z']

/-- A new calendar object with the method and the object's time zones, for a message. -/
def message (calendar : Component) (method : String) : Component :=
  .mk "VCALENDAR".toList
    [.of "VERSION" "2.0".toList, .of "PRODID" "-//UwUMail//Server//EN".toList, .of "METHOD" method.toList]
    (calendar.components.filter fun c => decide (c.name = "VTIMEZONE".toList))

def schedulingParams : List String := ["SCHEDULE-STATUS", "SCHEDULE-AGENT", "SCHEDULE-FORCE-SEND"]

/-- Scheduling parameters are between a client and its server; they stay out of messages. -/
def cleanLine (p : Property) : Property :=
  if p.name = "ATTENDEE".toList ∨ p.name = "ORGANIZER".toList
    then schedulingParams.foldl Property.removeParam p else p

def cleanSchedulingParams (event : Component) : Component :=
  .mk event.name (event.properties.map cleanLine) event.components

def isAlarm (c : Component) : Bool := decide (c.name = "VALARM".toList)

/-- One event of an invitation. -/
def requestEvent (now : Int) (event : Component) : Component :=
  (cleanSchedulingParams (.mk event.name
    (event.properties.filter fun p => !"X-MOZ-".toList.isPrefixOf p.name && !"X-APPLE-".toList.isPrefixOf p.name)
    (event.components.filter (!isAlarm ·)))).set (.of "DTSTAMP" (stamp now))

/-- An organizer's invitation or update: the whole object, without the organizer's alarms. -/
def request (calendar : Component) (now : Int) : Component :=
  let out := message calendar "REQUEST"
  .mk out.name out.properties (out.components ++ calendar.events.map (requestEvent now))

def identifyingNames : List String :=
  ["UID", "RECURRENCE-ID", "DTSTART", "DTEND", "DURATION", "SUMMARY", "LOCATION", "ORGANIZER"]

/-- The lines that say which event a short message is about. -/
def identifying (event : Component) (sequence : Option Int) (now : Int) : Component :=
  let sequence := sequence.getD (((event.value "SEQUENCE").bind fun s => parseI64 (trim s)).getD 0)
  .mk "VEVENT".toList
    (identifyingNames.filterMap event.property ++
      [.of "SEQUENCE" (toString sequence).toList, .of "DTSTAMP" (stamp now)]) []

section Messages

variable (lower : Text → Text)

/-- One event of an answer. -/
def replyEvent (me : Text) (partstat : Option Text) (now : Int) (event : Component) : Option Component :=
  ((event.propertiesNamed "ATTENDEE").find? fun p => decide (p.address lower = some me)).map fun attendee =>
    let attendee := match partstat with
      | some partstat => attendee.setParam "PARTSTAT" partstat
      | none => attendee
    let answer := identifying event none now
    cleanSchedulingParams (.mk answer.name (answer.properties ++ [attendee.removeParam "RSVP"])
      answer.components)

/-- An attendee's answer to the organizer, for every event of the object that invites them.
`partstat` overrides what the object says. -/
def reply (calendar : Component) (me : Text) (partstat : Option Text) (now : Int) : Component :=
  let out := message calendar "REPLY"
  .mk out.name out.properties (out.components ++ calendar.events.filterMap (replyEvent lower me partstat now))

def timeNames : List String := ["DTSTART", "DTEND", "DURATION", "RRULE", "RDATE", "EXDATE"]

/-- What `times` compares, the text of it apart. -/
def times (event : Component) : List (String × List (Text × Text) × Text) :=
  timeNames.flatMap fun name => (event.propertiesNamed name).map fun p => (name, p.params, p.value)

/-- The answers of one's own in the current copy. -/
def ownAnswers (mine : Component) (own : List Text) : List (Text × Text) :=
  ((mine.propertiesNamed "ATTENDEE").filterMap fun p =>
    (p.address lower).bind fun address => (p.param "PARTSTAT").map fun partstat => (address, partstat)).filter
      fun answer => own.contains answer.1

def keepAnswer (answers : List (Text × Text)) (p : Property) : Property :=
  if p.name = "ATTENDEE".toList then
    match answers.find? fun answer => decide (p.address lower = some answer.1) with
    | some answer => p.setParam "PARTSTAT" answer.2
    | none => p
  else p

/-- One event of an attendee's copy. -/
def copyEvent (current : Option Component) (own : List Text) (event : Component) : Component :=
  let mine := current.bind (·.eventFor event.recurrenceId)
  let kept := event.components.filter (!isAlarm ·)
  cleanSchedulingParams <|
    match mine with
    | some mine =>
      let components := kept ++ mine.components.filter isAlarm
      if times mine = times (.mk event.name event.properties components) then
        .mk event.name (event.properties.map (keepAnswer lower (ownAnswers lower mine own))) components
      else .mk event.name event.properties components
    | none => .mk event.name event.properties kept

/-- What an attendee keeps of an organizer's REQUEST: the organizer's object, with the attendee's
own alarms and, while the time stays the same, their own answer from their current copy. -/
def attendeeCopy (request : Component) (current : Option Component) (own : List Text) : Component :=
  (request.remove "METHOD").modifyEvents (copyEvent lower current own)

def isLineOf (me : Text) (p : Property) : Bool :=
  decide (p.name = "ATTENDEE".toList) && decide (p.address lower = some me)

def answers : List String := ["ACCEPTED", "DECLINED", "TENTATIVE", "NEEDS-ACTION", "DELEGATED"]

/-- The answer of an event of a reply, if it is one. -/
def answerOf (answer : Component) (me : Text) : Option Text :=
  ((((answer.propertiesNamed "ATTENDEE").find? fun p => decide (p.address lower = some me)).bind
    (·.param "PARTSTAT")).map upper).filter fun partstat => answers.any fun name => partstat == name.toList

def differs (partstat : Text) (attendee : Property) : Bool :=
  (attendee.param "PARTSTAT").all fun old => !eqIgnoreAsciiCase old partstat

/-- An answer, written into the line of the attendee. -/
def takeAnswer (partstat : Text) (attendee : Property) : Property :=
  let attendee := if differs partstat attendee then attendee.setParam "PARTSTAT" partstat else attendee
  (attendee.removeParam "RSVP").setParam "SCHEDULE-STATUS" "2.0".toList

/-- ... and into an event. -/
def answerEvent (me partstat : Text) (event : Component) : Component :=
  .mk event.name (modifyFirst (isLineOf lower me) (takeAnswer partstat) event.properties) event.components

/-- One turn of the loop of `apply_reply`: the copy, and whether anything changed. -/
def applyAnswer (me : Text) (s : Component × Bool) (answer : Component) : Component × Bool :=
  match answerOf lower answer me with
  | none => s
  | some partstat =>
    match s.1.eventFor answer.recurrenceId with
    | none => s
    | some event =>
      match event.properties.find? (isLineOf lower me) with
      | none => s
      | some attendee => (s.1.modifyEvent answer.recurrenceId (answerEvent lower me partstat),
          s.2 || differs partstat attendee)

/-- Writes an attendee's answer into the organizer's copy.  Only lines of `me` count, so nobody
answers for someone else. -/
def applyReply (copy reply : Component) (me : Text) : Component × Bool :=
  reply.events.foldl (applyAnswer lower me) (copy, false)

end Messages

/-! ## 2. From the organizer to the answer -/

section
variable {p : Property} {name name' : String} {v : Text} {l : List Property} {e : Component}

theorem eqIgnoreAsciiCase_iff {a b : Text} : eqIgnoreAsciiCase a b = true ↔ upper a = upper b := beq_iff_eq

theorem eqIgnoreAsciiCase_ne {a b c : Text} (h : upper b ≠ upper c) (hab : eqIgnoreAsciiCase a b = true) :
    eqIgnoreAsciiCase a c = false := by
  rw [Bool.eq_false_iff, Ne, eqIgnoreAsciiCase_iff, eqIgnoreAsciiCase_iff.1 hab]
  exact h

theorem isParam_self (v : Text) : isParam name (upper name.toList, v) = true :=
    eqIgnoreAsciiCase_iff.2 (upper_upper _)

theorem isParam_ne (h : upper name'.toList ≠ upper name.toList) {param : Text × Text}
    (hparam : isParam name' param = true) :
    isParam name param = false := eqIgnoreAsciiCase_ne h hparam

theorem isNamed_ne (h : upper name'.toList ≠ upper name.toList) (hp : p.isNamed name' = true) :
    p.isNamed name = false :=
  eqIgnoreAsciiCase_ne h hp

theorem isNamed_of (v : Text) : (Property.of name v).isNamed name' = decide (upper name.toList =
    upper name'.toList) := by
  unfold isNamed Property.of eqIgnoreAsciiCase
  rw [upper_upper]
  exact Bool.beq_eq_decide_eq _ _

@[simp] theorem param_setParam : (p.setParam name v).param name = some v := by
  have hfind := @Lib.find?_setFirst _ (isParam name) (fun param => (param.1, v)) (upper name.toList,
    v) p.params
    (fun _ h => h) (isParam_self v)
  unfold Property.param Property.setParam
  rw [hfind, Option.map_some]
  cases p.params.find? (isParam name) <;> rfl

theorem param_setParam_ne (h : upper name'.toList ≠ upper name.toList) :
    (p.setParam name' v).param name = p.param name := by
  unfold Property.param Property.setParam
  refine congrArg _ (Lib.find?_eq_of_filter (Lib.filter_setFirst (fun param hparam => ?_) ?_))
  · exact ⟨isParam_ne h hparam, isParam_ne h hparam⟩
  · exact isParam_ne h (isParam_self v)

theorem param_removeParam_ne (h : upper name'.toList ≠ upper name.toList) :
    (p.removeParam name').param name = p.param name := by
  unfold Property.param Property.removeParam
  refine congrArg _ (Lib.find?_eq_of_filter ?_)
  rw [List.filter_filter]
  refine List.filter_congr fun param _ => ?_
  cases hparam : isParam name param with
  | false => rfl
  | true => rw [Bool.true_and, isParam_ne (Ne.symm h) hparam, Bool.not_false]

theorem param_removeParam : (p.removeParam name).param name = none := by
  unfold Property.param Property.removeParam
  rw [Option.map_eq_none_iff, List.find?_eq_none]
  intro param hparam
  rw [List.mem_filter, Bool.not_eq_true'] at hparam
  rw [hparam.2]
  exact Bool.false_ne_true

theorem cleanLine_name : (cleanLine p).name = p.name := by
  unfold cleanLine
  split <;> rfl

theorem cleanLine_value : (cleanLine p).value = p.value := by
  unfold cleanLine
  split <;> rfl

theorem isNamed_cleanLine : (cleanLine p).isNamed name = p.isNamed name := by
  unfold isNamed
  rw [cleanLine_name]

theorem cleanLine_partstat : (cleanLine p).param "PARTSTAT" = p.param "PARTSTAT" := by
  unfold cleanLine
  split
  next =>
    change (((p.removeParam "SCHEDULE-STATUS").removeParam "SCHEDULE-AGENT").removeParam "SCHEDULE-FORCE-SEND").param _ = _
    rw [param_removeParam_ne (by decide), param_removeParam_ne (by decide), param_removeParam_ne (by decide)]
  next => rfl

/-- Whether a property says who is invited or which instance it is. -/
def isRelevant (p : Property) : Bool := p.isNamed "ATTENDEE" || p.isNamed "RECURRENCE-ID"

/-- Who is invited, and to which instance. -/
def shape (properties : List Property) : List Property :=
  (properties.filter isRelevant).map fun p => ⟨p.name, [], p.value⟩

theorem recurrenceId_of_shape : e.recurrenceId =
    ((shape e.properties).find? (isNamed "RECURRENCE-ID")).map fun p => trim p.value := by
  unfold Component.recurrenceId Component.value Component.property shape
  have hsame : (fun p : Property => decide (isRelevant p = true ∧ p.isNamed "RECURRENCE-ID" = true)) =
      isNamed "RECURRENCE-ID" := by
    funext p
    unfold isRelevant
    cases p.isNamed "RECURRENCE-ID" <;> simp
  rw [List.find?_map, List.find?_filter, Option.map_map, Option.map_map]
  exact congrArg (fun q => (e.properties.find? q).map fun p => trim p.value) hsame.symm

section
variable (lower : Text → Text) (me : Text)

def invites (e : Component) : Bool := (e.propertiesNamed "ATTENDEE").any fun p =>
    decide (p.address lower = some me)

theorem invites_of_shape : invites lower me e = (shape e.properties).any fun p =>
    p.isNamed "ATTENDEE" && decide (p.address lower = some me) := by
  unfold invites Component.propertiesNamed shape
  rw [List.any_filter, List.any_map, List.any_filter]
  congr 1
  funext p
  unfold isRelevant
  simp only [Function.comp]
  change (p.isNamed "ATTENDEE" && _) = ((p.isNamed "ATTENDEE" || _) && (p.isNamed "ATTENDEE" && _))
  cases p.isNamed "ATTENDEE" with
  | true => rfl
  | false => rw [Bool.false_and, Bool.false_and, Bool.and_false]

end

theorem shape_map {f : Property → Property} (hname : ∀ p, (f p).name = p.name)
    (hvalue : ∀ p, (f p).value = p.value) :
    shape (l.map f) = shape l := by
  have hrelevant : isRelevant ∘ f = isRelevant := by
    funext p
    rw [Function.comp, isRelevant, isRelevant, isNamed, isNamed, hname]
    rfl
  unfold shape
  rw [List.filter_map, List.map_map, hrelevant]
  exact List.map_congr_left fun p _ => by rw [Function.comp, hname, hvalue]

theorem shape_clean : shape (l.map cleanLine) = shape l :=
    shape_map (fun _ => cleanLine_name) fun _ => cleanLine_value

theorem shape_filter {q : Property → Bool} (h : ∀ p, isRelevant p = true → q p = true) :
    shape (l.filter q) = shape l := by
  unfold shape
  rw [List.filter_filter]
  refine congrArg _ (List.filter_congr fun p _ => ?_)
  cases hp : isRelevant p with
  | false => rfl
  | true => rw [h p hp, Bool.and_self]

theorem shape_set {p : Property} (h : isRelevant p = false) :
    shape (e.set p).properties = shape e.properties := by
  refine congrArg (List.map _) (Lib.filter_setFirst (fun q hq => ?_) h)
  have hname : isRelevant q = isRelevant p := by
    rw [isRelevant, isRelevant, isNamed, isNamed, of_decide_eq_true hq]
    rfl
  exact ⟨hname.trans h, h⟩

end

/-! ### Events of messages -/

section
variable {c : Component} {f : Component → Component} {properties : List Property} {name : Text}

theorem events_modifyEvents (hf : ∀ e, (f e).name = e.name) : (c.modifyEvents f).events = c.events.map f := by
  unfold Component.modifyEvents Component.events Component.components
  obtain ⟨name, properties, components⟩ := c
  change (components.map _).filter _ = (components.filter _).map f
  have hevent (e : Component) : (if e.isEvent then f e else e).isEvent = e.isEvent := by
    split
    · rw [Component.isEvent, Component.isEvent, hf]
    · rfl
  induction components with
  | nil => rfl
  | cons e components ih =>
    rw [List.map_cons]
    by_cases he : e.isEvent = true
    · rw [List.filter_cons_of_pos ((hevent e).trans he), List.filter_cons_of_pos he, List.map_cons,
        ih, if_pos he]
    · rw [List.filter_cons_of_neg (by rw [hevent e]; exact he), List.filter_cons_of_neg he, ih]

theorem events_append {components events : List Component} (h : ∀ e ∈ events, e.name = "VEVENT".toList) :
    (Component.mk name properties ((components.filter fun c =>
      decide (c.name = "VTIMEZONE".toList)) ++ events)).events =
      events := by
  unfold Component.events
  change ((components.filter _) ++ events).filter Component.isEvent = events
  rw [List.filter_append, List.filter_eq_nil_iff.2, List.nil_append, List.filter_eq_self]
  · exact fun e he => decide_eq_true (h e he)
  · intro e he
    rw [Component.isEvent, of_decide_eq_true (List.mem_filter.1 he).2]
    decide

theorem name_of_event {e : Component} (he : e ∈ c.events) : e.name = "VEVENT".toList :=
  of_decide_eq_true (List.mem_filter.1 he).2

theorem requestEvent_name (now : Int) (e : Component) : (requestEvent now e).name = e.name := rfl

theorem shape_requestEvent (now : Int) (e : Component) : shape (requestEvent now e).properties =
    shape e.properties := by
  have hset : isRelevant (.of "DTSTAMP" (stamp now)) = false := by
    rw [isRelevant, isNamed_of, isNamed_of]
    decide
  unfold requestEvent
  rw [shape_set hset]
  change shape ((e.properties.filter _).map cleanLine) = _
  rw [shape_clean]
  refine shape_filter fun p hp => ?_
  -- a name that begins with X is neither of the two
  have hx (rest : Text) : ('X' :: rest).isPrefixOf p.name = false := by
    rw [Bool.eq_false_iff]
    intro hstart
    obtain ⟨after, hname⟩ := List.isPrefixOf_iff_prefix.1 hstart
    have hupper : upper p.name = 'X' :: upper (rest ++ after) := by
      rw [← hname]
      rfl
    rw [isRelevant, Bool.or_eq_true, isNamed, isNamed, eqIgnoreAsciiCase_iff, eqIgnoreAsciiCase_iff,
      hupper] at hp
    obtain hp | hp := hp
    · exact absurd (List.head_eq_of_cons_eq hp) (by decide)
    · exact absurd (List.head_eq_of_cons_eq hp) (by decide)
  rw [Bool.and_eq_true, Bool.not_eq_true', Bool.not_eq_true']
  exact ⟨hx _, hx _⟩

theorem events_request (now : Int) : (request c now).events = c.events.map (requestEvent now) :=
  events_append fun e he => by
    obtain ⟨d, hd, rfl⟩ := List.mem_map.1 he
    rw [requestEvent_name]
    exact name_of_event hd

section
variable (lower : Text → Text) (current : Option Component) (own : List Text)

theorem keepAnswer_name (answers : List (Text × Text)) (p : Property) :
    (keepAnswer lower answers p).name = p.name := by
  unfold keepAnswer
  split
  · split <;> rfl
  · rfl

theorem keepAnswer_value (answers : List (Text × Text)) (p : Property) :
    (keepAnswer lower answers p).value = p.value := by
  unfold keepAnswer
  split
  · split <;> rfl
  · rfl

theorem copyEvent_name (e : Component) : (copyEvent lower current own e).name = e.name := by
  unfold copyEvent
  dsimp only
  split
  · split <;> rfl
  · rfl

theorem shape_copyEvent (e : Component) : shape (copyEvent lower current own e).properties =
    shape e.properties := by
  unfold copyEvent
  dsimp only
  split
  · split
    · exact shape_clean.trans (shape_map (keepAnswer_name lower _) (keepAnswer_value lower _))
    · exact shape_clean
  · exact shape_clean

theorem events_attendeeCopy (request : Component) :
    (attendeeCopy lower request current own).events = request.events.map (copyEvent lower current own) :=
  events_modifyEvents (copyEvent_name lower current own)

end

theorem property_congr {e : Component} {n n' : String} (h : upper n.toList = upper n'.toList) :
    e.property n = e.property n' := by
  have hsame : isNamed n = isNamed n' := by
    funext p
    unfold isNamed eqIgnoreAsciiCase
    rw [h]
  unfold Component.property
  rw [hsame]

/-- Which of the identifying lines has a name. -/
theorem find?_identifying (e : Component) (names : List String) (n : String) :
    (names.filterMap e.property).find? (isNamed n) =
      if names.any (fun n' => decide (upper n'.toList = upper n.toList)) then e.property n else none := by
  induction names with
  | nil => rfl
  | cons n' names ih =>
    rw [List.any_cons, List.filterMap_cons]
    by_cases hn : upper n'.toList = upper n.toList
    · have hsame : e.property n' = e.property n := property_congr hn
      rw [decide_eq_true hn, Bool.true_or, if_pos rfl]
      cases hp : e.property n' with
      | none =>
        rw [hsame] at hp
        rw [ih, hp, ite_self]
      | some p => rw [List.find?_cons_of_pos (List.find?_some (hsame ▸ hp)), ← hsame, hp]
    · rw [decide_eq_false hn, Bool.false_or]
      cases hp : e.property n' with
      | none => exact ih
      | some p =>
        have hother : ¬ p.isNamed n = true := by
          rw [isNamed_ne hn (List.find?_some hp)]
          exact Bool.false_ne_true
        rw [List.find?_cons_of_neg hother, ih]

/-- The lines of an answer by name: the identifying ones, then the attendee's. -/
theorem find?_answer (e : Component) (now : Int) (n : String)
    (hsequence : upper "SEQUENCE".toList ≠ upper n.toList)
    (hstamp : upper "DTSTAMP".toList ≠ upper n.toList) :
    (identifying e none now).properties.find? (isNamed n) =
      if identifyingNames.any (fun n' => decide (upper n'.toList = upper n.toList)) then e.property n else none := by
  have hother (n' : String) (v : Text) (h : upper n'.toList ≠ upper n.toList) :
    ¬ (Property.of n' v).isNamed n = true := by
    rw [isNamed_of, decide_eq_false h]
    exact Bool.false_ne_true
  unfold identifying
  change (identifyingNames.filterMap e.property ++ [Property.of "SEQUENCE" _,
    Property.of "DTSTAMP" _]).find? _ = _
  rw [List.find?_append, find?_identifying, List.find?_cons_of_neg (hother _ _ hsequence),
    List.find?_cons_of_neg (hother _ _ hstamp), List.find?_nil, Option.or_none]

section
variable (lower : Text → Text) (me p : Text) (now : Int)

/-- An answer that is one. -/
def answer? (p : Text) : Option Text := (some (upper p)).filter fun partstat =>
    answers.any fun name => partstat == name.toList

/-- **One event's answer** is about that event, and says what was asked for. -/
theorem replyEvent_spec (e : Component) :
    (replyEvent lower me (some p) now e).map (fun answer => (answer.recurrenceId, answerOf lower answer me)) =
      if invites lower me e then some (e.recurrenceId, answer? p) else none := by
  unfold replyEvent invites
  cases hfind : (e.propertiesNamed "ATTENDEE").find? (fun p => decide (p.address lower = some me)) with
  | none =>
    have hnone : (e.propertiesNamed "ATTENDEE").any (fun p => decide (p.address lower = some me)) = false := by
      rw [List.any_eq_false]
      exact List.find?_eq_none.1 hfind
    rw [hnone]
    rfl
  | some attendee =>
    have hmem := List.mem_of_find?_eq_some hfind
    have haddress := List.find?_some hfind
    have hname : attendee.isNamed "ATTENDEE" = true := (List.mem_filter.1 hmem).2
    have hany : (e.propertiesNamed "ATTENDEE").any (fun p => decide (p.address lower = some me)) = true :=
      List.any_eq_true.2 ⟨attendee, hmem, haddress⟩
    rw [hany, if_pos rfl, Option.map_some, Option.map_some, Option.some.injEq, Prod.mk.injEq]
    obtain ⟨line, hline⟩ : ∃ line : Property, line =
      (attendee.setParam "PARTSTAT" p).removeParam "RSVP" := ⟨_, rfl⟩
    have hlineName : line.isNamed "ATTENDEE" = true := by rw [hline]; exact hname
    have hlineAddress : (cleanLine line).address lower = some me := by
      rw [Property.address, cleanLine_value, hline]
      exact of_decide_eq_true haddress
    have hpartstat : line.param "PARTSTAT" = some p := by
      rw [hline, param_removeParam_ne (by decide), param_setParam]
    change Component.recurrenceId (.mk _ (((identifying e none now).properties ++ [_]).map cleanLine) _) = _ ∧
      answerOf lower (.mk _ (((identifying e none now).properties ++ [_]).map cleanLine) _) me = _
    rw [← hline]
    have hnamed (n : String) : isNamed n ∘ cleanLine = isNamed n := funext fun _ => isNamed_cleanLine
    constructor
    · have hother : ¬ line.isNamed "RECURRENCE-ID" = true := by
        rw [isNamed_ne (by decide) hlineName]
        exact Bool.false_ne_true
      unfold Component.recurrenceId Component.value
      refine congrArg _ ?_
      change Option.map _ ((List.map cleanLine _).find? _) = _
      rw [List.find?_map, hnamed, List.find?_append, List.find?_cons_of_neg hother, List.find?_nil,
        Option.or_none,
        find?_answer e now _ (by decide) (by decide), if_pos (by decide), Option.map_map]
      exact Option.map_congr fun p _ => cleanLine_value
    · have hnone := find?_answer e now "ATTENDEE" (by decide) (by decide)
      rw [if_neg (by decide), List.find?_eq_none] at hnone
      have hfilter : (((identifying e none now).properties ++ [line]).map cleanLine).filter
        (isNamed "ATTENDEE") =
          [cleanLine line] := by
        rw [List.filter_map, hnamed, List.filter_append, List.filter_eq_nil_iff.2 hnone, List.nil_append,
          List.filter_cons_of_pos hlineName, List.filter_nil, List.map_singleton]
      unfold answerOf Component.propertiesNamed answer?
      change (((((((identifying e none now).properties ++ [line]).map cleanLine).filter
        (isNamed "ATTENDEE")).find? _).bind _).map upper).filter _ = _
      have hfound : [cleanLine line].find? (fun p => decide (p.address lower = some me)) = some (cleanLine line) :=
        List.find?_cons_of_pos (decide_eq_true hlineAddress)
      rw [hfilter, hfound, Option.bind_some, cleanLine_partstat, hpartstat, Option.map_some]

theorem name_replyEvent {e answer : Component} (h : replyEvent lower me (some p) now e = some answer) :
    answer.name = "VEVENT".toList := by
  obtain ⟨attendee, -, rfl⟩ := Option.map_eq_some_iff.1 h
  rfl

/-- **The whole answer**: one event for each event of the organizer's object that invites the
attendee. -/
theorem reply_spec (current : Option Component) (own : List Text) (sent : Int) :
    (reply lower (attendeeCopy lower (request c sent) current own) me (some p) now).events.map
        (fun answer => (answer.recurrenceId, answerOf lower answer me)) =
      (c.events.filter (invites lower me)).map fun e => (e.recurrenceId, answer? p) := by
  have hevents : (reply lower (attendeeCopy lower (request c sent) current own) me (some p) now).events =
      (attendeeCopy lower (request c sent) current own).events.filterMap (replyEvent lower me (some p) now) :=
    events_append fun e he => by
      obtain ⟨d, -, hd⟩ := List.mem_filterMap.1 he
      exact name_replyEvent lower me p now hd
  have hshape (e : Component) : shape (copyEvent lower current own
    (requestEvent sent e)).properties = shape e.properties :=
    (shape_copyEvent lower current own _).trans (shape_requestEvent sent e)
  have hinvites (e : Component) : invites lower me (copyEvent lower current own
    (requestEvent sent e)) = invites lower me e := by
    rw [invites_of_shape, hshape, ← invites_of_shape]
  have hrid (e : Component) : (copyEvent lower current own (requestEvent sent e)).recurrenceId =
      e.recurrenceId := by
    rw [recurrenceId_of_shape, hshape, ← recurrenceId_of_shape]
  rw [hevents, events_attendeeCopy, events_request, List.map_map, List.map_filterMap, List.filterMap_map,
    ← List.filterMap_eq_map, ← List.filterMap_eq_filter, List.filterMap_filterMap]
  refine List.filterMap_congr fun e _ => ?_
  change (replyEvent lower me (some p) now (copyEvent lower current own (requestEvent sent e))).map _ = _
  rw [replyEvent_spec, hinvites, hrid]
  cases h : invites lower me e with
  | true => simp [Option.guard, h]
  | false => simp [Option.guard, h]

end

end

/-! ## 3. What an answer changes -/

/-- A parameter that is none of an answer's. -/
def isOther (param : Text × Text) : Bool :=
  !(isParam "PARTSTAT" param || isParam "RSVP" param || isParam "SCHEDULE-STATUS" param)

/-- The names of the parameters are in upper case, as they are read. -/
def Property.IsUpper (p : Property) : Prop := ∀ param ∈ p.params, upper param.1 = param.1

/-- A line and the same line with an answer: PARTSTAT is the answer, RSVP is gone, SCHEDULE-STATUS
says it came in. -/
structure Answers (P : Text) (a b : Property) : Prop where
  name : b.name = a.name
  value : b.value = a.value
  partstat : ∃ v, b.param "PARTSTAT" = some v ∧ eqIgnoreAsciiCase v P = true
  rsvp : b.param "RSVP" = none
  status : b.param "SCHEDULE-STATUS" = some "2.0".toList
  others : b.params.filter isOther = a.params.filter isOther
  uppercase : a.IsUpper → b.IsUpper

/-- The components of an object before and after an answer of `me`: of the events with one
recurrence id the first, and of its lines of `me` the first. -/
inductive Answered (lower : Text → Text) (me P : Text) : List (Option Text) → List Component →
    List Component → Prop
  | nil {seen : List (Option Text)} : Answered lower me P seen [] []
  | other {seen : List (Option Text)} {e : Component} {es es' : List Component} (hevent : e.isEvent = false)
      (hrest : Answered lower me P seen es es') : Answered lower me P seen (e :: es) (e :: es')
  | again {seen : List (Option Text)} {e : Component} {es es' : List Component} (hevent : e.isEvent = true)
      (hseen : e.recurrenceId ∈ seen) (hrest : Answered lower me P seen es es') :
        Answered lower me P seen (e :: es) (e :: es')
  | uninvited {seen : List (Option Text)} {e : Component} {es es' : List Component} (hevent : e.isEvent = true)
      (hfirst : e.recurrenceId ∉ seen) (hnone : ∀ p ∈ e.properties, isLineOf lower me p = false)
      (hrest : Answered lower me P (e.recurrenceId :: seen) es es') :
        Answered lower me P seen (e :: es) (e :: es')
  | invited {seen : List (Option Text)} {e : Component} {es es' : List Component}
    {before behind : List Property}
      {line line' : Property} (hevent : e.isEvent = true) (hfirst : e.recurrenceId ∉ seen)
        (hlines : e.properties = before ++ line :: behind)
      (hbefore : ∀ p ∈ before, isLineOf lower me p = false) (hline : isLineOf lower me line = true)
      (hanswers : Answers P line line') (hrest : Answered lower me P (e.recurrenceId :: seen) es es') :
      Answered lower me P seen (e :: es) (.mk e.name (before ++ line' :: behind) e.components :: es')

section
variable {a b : Property} {l : List Property} {e : Component} {es es' : List Component}
  {P me : Text} {lower : Text → Text}

theorem isUpper_setParam {p : Property} {n : String} {v : Text} (h : p.IsUpper) :
    (p.setParam n v).IsUpper := by
  intro param hparam
  obtain hparam | rfl | ⟨old, hold, -, rfl⟩ := Lib.mem_setFirst hparam
  · exact h param hparam
  · exact upper_upper _
  · exact h old hold

/-- **One line.** -/
theorem answers_takeAnswer (P : Text) (a : Property) : Answers P a (takeAnswer P a) := by
  obtain ⟨b, hb⟩ : ∃ b, b = if differs P a then a.setParam "PARTSTAT" P else a := ⟨_, rfl⟩
  have htake : takeAnswer P a = (b.removeParam "RSVP").setParam "SCHEDULE-STATUS" "2.0".toList := by rw [hb]; rfl
  have hset {c : Property} {n : String} {v : Text} (hn : ∀ param, isParam n param = true →
    isOther param = false) :
      (c.setParam n v).params.filter isOther = c.params.filter isOther :=
    Lib.filter_setFirst (fun param hparam => ⟨hn _ hparam, hn _ hparam⟩) (hn _ (isParam_self v))
  have hsame : b.name = a.name ∧ b.value = a.value := by
    rw [hb]
    split <;> exact ⟨rfl, rfl⟩
  rw [htake]
  refine ⟨hsame.1, hsame.2, ?_, ?_, param_setParam, ?_, fun h => isUpper_setParam fun param hparam => ?_⟩
  · rw [param_setParam_ne (by decide), param_removeParam_ne (by decide), hb]
    cases hdiffers : differs P a with
    | true => exact ⟨P, by rw [if_pos rfl, param_setParam], beq_self_eq_true _⟩
    | false =>
      rw [if_neg Bool.false_ne_true]
      unfold differs at hdiffers
      cases hv : a.param "PARTSTAT" with
      | none =>
        rw [hv] at hdiffers
        cases hdiffers
      | some v =>
        rw [hv, Option.all_some, Bool.not_eq_false'] at hdiffers
        exact ⟨v, rfl, hdiffers⟩
  · rw [param_setParam_ne (by decide), param_removeParam]
  · rw [hset fun param h => by simp [isOther, h]]
    change (b.params.filter _).filter isOther = _
    rw [List.filter_filter]
    have hother : ∀ param, (isOther param && !isParam "RSVP" param) = isOther param := by
      intro param
      unfold isOther
      cases isParam "RSVP" param <;> simp
    simp only [hother]
    rw [hb]
    split
    · exact hset fun param h => by simp [isOther, h]
    · rfl
  · have hupper : b.IsUpper := by
      rw [hb]
      split
      · exact isUpper_setParam h
      · exact h
    exact hupper param (List.mem_of_mem_filter hparam)

theorem Answers.trans {c : Property} (h : Answers P a b) (h' : Answers P b c) : Answers P a c :=
  ⟨h'.name.trans h.name, h'.value.trans h.value, h'.partstat, h'.rsvp, h'.status,
    h'.others.trans h.others, h'.uppercase ∘ h.uppercase⟩

theorem answers_iterate (n : Nat) (a : Property) : Answers P a ((takeAnswer P)^[n + 1] a) := by
  induction n with
  | zero => exact answers_takeAnswer P a
  | succ n ih =>
    rw [Function.iterate_succ_apply']
    exact ih.trans (answers_takeAnswer P _)

theorem isLineOf_takeAnswer (a : Property) : isLineOf lower me (takeAnswer P a) = isLineOf lower me a := by
  have h := answers_takeAnswer P a
  rw [isLineOf, isLineOf, Property.address, Property.address, h.name, h.value]

/-- A line without its parameters. -/
def bare (p : Property) : Property := ⟨p.name, [], p.value⟩

theorem recurrenceId_of_bare (e : Component) : e.recurrenceId =
    ((e.properties.map bare).find? (isNamed "RECURRENCE-ID")).map fun p => trim p.value := by
  unfold Component.recurrenceId Component.value Component.property
  rw [List.find?_map, Option.map_map, Option.map_map]
  rfl

theorem eventKey_answerEvent (e : Component) : (answerEvent lower me P e).eventKey = e.eventKey := by
  have hbare : (answerEvent lower me P e).properties.map bare = e.properties.map bare :=
    Lib.map_modifyFirst fun a _ => by
      rw [bare, bare, (answers_takeAnswer P a).name, (answers_takeAnswer P a).value]
  rw [Component.eventKey, Component.eventKey, recurrenceId_of_bare, hbare, ← recurrenceId_of_bare]
  rfl

theorem iterate_answerEvent (n : Nat) (e : Component) : (answerEvent lower me P)^[n] e =
    .mk e.name ((modifyFirst (isLineOf lower me) (takeAnswer P))^[n] e.properties) e.components := by
  induction n generalizing e with
  | zero =>
    obtain ⟨name, properties, components⟩ := e
    rfl
  | succ n ih => rw [Function.iterate_succ_apply, ih, Function.iterate_succ_apply]; rfl

/-- **The components of an object**, changed once for each recurrence id of the reply. -/
theorem answered_foldl {seen rids : List (Option Text)} (hrids : ∀ rid ∈ rids, rid ∉ seen)
    (hinvites : ∀ e ∈ es, e.isEvent = true → e.recurrenceId ∉ seen →
      e.properties.any (isLineOf lower me) = true →
      e.recurrenceId ∈ rids) :
    Answered lower me P seen es (rids.foldl (Lib.modifyKey Component.eventKey (answerEvent lower me P)) es) := by
  induction es generalizing seen rids with
  | nil =>
    rw [Lib.foldl_modifyKey_nil]
    exact .nil
  | cons e es ih =>
    cases hevent : e.isEvent with
    | false =>
      have hkey : e.eventKey = none := by rw [Component.eventKey, hevent]; rfl
      rw [Lib.foldl_modifyKey_none hkey]
      exact .other hevent (ih hrids fun d hd => hinvites d (List.mem_cons_of_mem _ hd))
    | true =>
      have hkey : e.eventKey = some e.recurrenceId := by rw [Component.eventKey, hevent]; rfl
      obtain ⟨n, hn, hfold⟩ := Lib.foldl_modifyKey_some eventKey_answerEvent hkey rids
      rw [hfold]
      by_cases hseen : e.recurrenceId ∈ seen
      · have hnone : e.recurrenceId ∉ rids := fun h => hrids _ h hseen
        have hall : rids.filter (· ≠ e.recurrenceId) = rids := by
          rw [List.filter_eq_self]
          intro rid hrid
          rw [decide_eq_true_eq]
          rintro rfl
          exact hnone hrid
        obtain rfl : n = 0 := Nat.eq_zero_of_not_pos fun hpos => hnone (hn.1 hpos)
        rw [hall]
        exact .again hevent hseen (ih hrids fun d hd => hinvites d (List.mem_cons_of_mem _ hd))
      · have hrest := @ih (e.recurrenceId :: seen) (rids.filter (· ≠ e.recurrenceId)) (fun rid hrid => by
            rw [List.mem_filter, decide_eq_true_eq] at hrid
            rw [List.mem_cons, not_or]
            exact ⟨hrid.2, hrids rid hrid.1⟩) (fun d hd hd' hfirst hany => by
            rw [List.mem_cons, not_or] at hfirst
            rw [List.mem_filter, decide_eq_true_eq]
            exact ⟨hinvites d (List.mem_cons_of_mem _ hd) hd' hfirst.2 hany, hfirst.1⟩)
        rw [iterate_answerEvent]
        cases hany : e.properties.any (isLineOf lower me) with
        | false =>
          rw [List.any_eq_false] at hany
          have hnone : ∀ p ∈ e.properties, isLineOf lower me p = false :=
            fun p hp => Bool.eq_false_iff.2 (hany p hp)
          rw [Lib.iterate_modifyFirst_of_none hnone]
          have hself : Component.mk e.name e.properties e.components = e := by cases e; rfl
          rw [hself]
          exact .uninvited hevent hseen hnone hrest
        | true =>
          have hpos : 0 < n := hn.2 (hinvites e List.mem_cons_self hevent hseen hany)
          obtain ⟨n, rfl⟩ := Nat.exists_eq_add_one_of_ne_zero hpos.ne'
          obtain ⟨before, line, behind, hlines, hbefore, hline⟩ := Lib.exists_first hany
          rw [hlines, Lib.iterate_modifyFirst isLineOf_takeAnswer hbefore hline]
          exact .invited hevent hseen hlines hbefore hline (answers_iterate n line) hrest

/-! ### The whole answer -/

theorem eventFor_eq (c : Component) (rid : Option Text) :
    c.eventFor rid = c.components.find? fun e => decide (e.eventKey = some rid) := by
  unfold Component.eventFor Component.events
  rw [List.find?_filter]
  refine congrArg (fun q => c.components.find? q) (funext fun e => ?_)
  unfold Component.eventKey
  cases e.isEvent <;> simp

theorem modifyEvent_of_same {c : Component} {rid : Option Text} {f : Component → Component}
    (h : ∀ e, c.eventFor rid = some e → f e = e) : c.modifyEvent rid f = c := by
  obtain ⟨name, properties, components⟩ := c
  refine congrArg (Component.mk name properties) (Lib.modifyFirst_of_find? fun e he => h e ?_)
  rw [eventFor_eq]
  exact he

/-- One turn of the loop writes the answer, also where it turns back early. -/
theorem fst_applyAnswer {s : Component × Bool} {answer : Component} (h : answerOf lower answer me = some P) :
    (applyAnswer lower me s answer).1 = s.1.modifyEvent answer.recurrenceId (answerEvent lower me P) := by
  unfold applyAnswer
  rw [h]
  dsimp only
  cases hevent : s.1.eventFor answer.recurrenceId with
  | none => exact (modifyEvent_of_same fun e he => absurd (hevent.symm.trans he) nofun).symm
  | some event =>
    dsimp only
    cases hline : event.properties.find? (isLineOf lower me) with
    | some line => rfl
    | none =>
      refine (modifyEvent_of_same fun e he => ?_).symm
      obtain rfl : event = e := Option.some.inj (hevent.symm.trans he)
      obtain ⟨name, properties, components⟩ := event
      exact congrArg (Component.mk name · components) (Lib.modifyFirst_of_find? fun p hp =>
        absurd (hline.symm.trans hp) nofun)

theorem fst_foldl_applyAnswer {events : List Component} (h : ∀ a ∈ events, answerOf lower a me = some P)
    (s : Component × Bool) : (events.foldl (applyAnswer lower me) s).1 = .mk s.1.name s.1.properties
      ((events.map Component.recurrenceId).foldl (Lib.modifyKey Component.eventKey (answerEvent lower me P))
        s.1.components) := by
  induction events generalizing s with
  | nil =>
    obtain ⟨⟨name, properties, components⟩, changed⟩ := s
    rfl
  | cons a events ih =>
    rw [List.foldl_cons, ih fun b hb => h b (List.mem_cons_of_mem _ hb),
      fst_applyAnswer (h a List.mem_cons_self)]
    rfl

theorem foldl_applyAnswer_none {events : List Component} (h : ∀ a ∈ events, answerOf lower a me = none)
    (s : Component × Bool) : events.foldl (applyAnswer lower me) s = s := by
  induction events with
  | nil => rfl
  | cons a events ih =>
    have hone : applyAnswer lower me s a = s := by
      unfold applyAnswer
      rw [h a List.mem_cons_self]
    rw [List.foldl_cons, hone]
    exact ih fun b hb => h b (List.mem_cons_of_mem _ hb)

end

section
variable (lower : Text → Text) (c : Component) (me p : Text) (current : Option Component)
  (own : List Text) (sent now : Int)

/-- **The organizer's object with an answer**: nothing but the answer is new. -/
theorem applyReply_spec :
    let answered := applyReply lower c (reply lower (attendeeCopy lower (request c sent)
      current own) me (some p) now) me
    (answer? p = none → answered = (c, false)) ∧ ∀ P, answer? p = some P → answered.1.name = c.name ∧
      answered.1.properties = c.properties ∧ Answered lower me P [] c.components answered.1.components := by
  have hspec := reply_spec lower me p now current own sent (c := c)
  obtain ⟨events, hevents⟩ : ∃ events, events =
    (reply lower (attendeeCopy lower (request c sent) current own) me (some p) now).events := ⟨_, rfl⟩
  unfold applyReply
  rw [← hevents] at hspec ⊢
  have hanswer : ∀ a ∈ events, answerOf lower a me = answer? p := by
    intro a ha
    have hmem := List.mem_map_of_mem (f := fun answer => (answer.recurrenceId, answerOf lower answer me)) ha
    rw [hspec] at hmem
    obtain ⟨e, -, he⟩ := List.mem_map.1 hmem
    exact (congrArg Prod.snd he).symm
  have hrids : events.map Component.recurrenceId =
      (c.events.filter (invites lower me)).map Component.recurrenceId := by
    have h := congrArg (List.map Prod.fst) hspec
    rwa [List.map_map, List.map_map] at h
  constructor
  · intro hnone
    exact foldl_applyAnswer_none (fun a ha => (hanswer a ha).trans hnone) _
  · intro P hP
    rw [fst_foldl_applyAnswer (P := P) (fun a ha => (hanswer a ha).trans hP), hrids]
    refine ⟨rfl, rfl, answered_foldl (fun _ _ => List.not_mem_nil) fun e he hevent _ hany => ?_⟩
    obtain ⟨line, hline, hof⟩ := List.any_eq_true.1 hany
    obtain ⟨hname, haddress⟩ := Bool.and_eq_true_iff.1 hof
    have hnamed : line.isNamed "ATTENDEE" = true := by
      rw [isNamed, of_decide_eq_true hname]
      exact beq_self_eq_true _
    exact List.mem_map_of_mem (List.mem_filter.2 ⟨List.mem_filter.2 ⟨he, hevent⟩,
      List.any_eq_true.2 ⟨line, List.mem_filter.2 ⟨hline, hnamed⟩, haddress⟩⟩)

end

/-! ## 4. Nobody is told about an answer -/

/-- A line without what an answer changes. -/
def unanswered (p : Property) : Property :=
  if p.name = "ATTENDEE".toList then ⟨p.name, p.params.filter isOther, p.value⟩ else p

def bareEvent (e : Component) : Component := .mk e.name (e.properties.map unanswered) e.components

def Attendee.unanswered (a : Attendee) : Attendee := { a with partstat := [] }

section
variable {p : Property} {n : String} {e : Component} {es es' : List Component} {P me : Text}
  {lower : Text → Text} {seen : List (Option Text)} {c c' : Component}

theorem Answered.bareEvent_eq (h : Answered lower me P seen es es') :
    es'.map bareEvent = es.map bareEvent := by
  induction h with
  | nil => rfl
  | other _ _ ih => rw [List.map_cons, List.map_cons, ih]
  | again _ _ _ ih => rw [List.map_cons, List.map_cons, ih]
  | uninvited _ _ _ _ ih => rw [List.map_cons, List.map_cons, ih]
  | @invited _ e _ _ before behind line line' _ _ hlines _ hline hanswers _ ih =>
    have hname : line.name = "ATTENDEE".toList := of_decide_eq_true (Bool.and_eq_true_iff.1 hline).1
    have hsame : unanswered line' = unanswered line := by
      unfold unanswered
      rw [hanswers.name, hanswers.value, hanswers.others, if_pos hname, if_pos hname]
    have hevent : bareEvent (.mk e.name (before ++ line' :: behind) e.components) = bareEvent e := by
      refine congrArg (Component.mk e.name · e.components) ?_
      change (before ++ line' :: behind).map unanswered = _
      rw [hlines, List.map_append, List.map_append, List.map_cons, List.map_cons, hsame]
    rw [List.map_cons, List.map_cons, hevent, ih]

theorem Answered.isUpper (h : Answered lower me P seen es es')
    (hes : ∀ e ∈ es, ∀ p ∈ e.properties, p.IsUpper) :
    ∀ e ∈ es', ∀ p ∈ e.properties, p.IsUpper := by
  induction h with
  | nil => exact hes
  | other _ _ ih | again _ _ _ ih | uninvited _ _ _ _ ih =>
    rw [List.forall_mem_cons] at hes ⊢
    exact ⟨hes.1, ih hes.2⟩
  | invited _ _ hlines _ _ hanswers _ ih =>
    rw [List.forall_mem_cons] at hes ⊢
    refine ⟨?_, ih hes.2⟩
    have hold := hes.1
    rw [hlines] at hold
    change ∀ p : Property, p ∈ _ ++ _ :: _ → p.IsUpper
    rw [List.forall_mem_append, List.forall_mem_cons] at hold ⊢
    exact ⟨hold.1, hanswers.uppercase hold.2.1, hold.2.2⟩

theorem isNamed_unanswered : (unanswered p).isNamed n = p.isNamed n := by
  unfold unanswered
  split <;> rfl

theorem name_unanswered : (unanswered p).name = p.name := by
  unfold unanswered
  split <;> rfl

theorem value_unanswered : (unanswered p).value = p.value := by
  unfold unanswered
  split <;> rfl

theorem param_unanswered (h : ∀ param, isParam n param = true → isOther param = true) :
    (unanswered p).param n = p.param n := by
  unfold unanswered
  split
  · refine congrArg _ (Lib.find?_eq_of_filter ?_)
    rw [List.filter_filter]
    refine List.filter_congr fun param _ => ?_
    cases hparam : isParam n param with
    | false => rfl
    | true => rw [h param hparam, Bool.true_and]
  · rfl

theorem isOther_of_isParam (hpartstat : upper n.toList ≠ upper "PARTSTAT".toList)
    (hrsvp : upper n.toList ≠ upper "RSVP".toList)
    (hstatus : upper n.toList ≠ upper "SCHEDULE-STATUS".toList) (param : Text × Text)
      (h : isParam n param = true) :
    isOther param = true := by
  rw [isOther, isParam_ne hpartstat h, isParam_ne hrsvp h, isParam_ne hstatus h]
  rfl

theorem property_bareEvent (h : upper n.toList ≠ upper "ATTENDEE".toList) :
    (bareEvent e).property n = e.property n := by
  have hnamed : isNamed n ∘ unanswered = isNamed n := funext fun _ => isNamed_unanswered
  unfold Component.property
  change (e.properties.map unanswered).find? _ = _
  rw [List.find?_map, hnamed]
  cases hfind : e.properties.find? (isNamed n) with
  | none => rfl
  | some p =>
    have hother : p.name ≠ "ATTENDEE".toList := by
      intro hname
      have hnamed : p.isNamed "ATTENDEE" = true := by
        rw [isNamed, hname]
        exact beq_self_eq_true _
      rw [isNamed_ne h (List.find?_some hfind)] at hnamed
      cases hnamed
    rw [Option.map_some, unanswered, if_neg hother]

theorem recurrenceId_bareEvent : (bareEvent e).recurrenceId = e.recurrenceId := by
  unfold Component.recurrenceId Component.value
  rw [property_bareEvent (by decide)]

theorem events_bareEvent : (c.components.map bareEvent).filter Component.isEvent = c.events.map bareEvent := by
  rw [List.filter_map]
  rfl

/-- What is seen of an event with and without its answers is the same in an object with an
answer. -/
theorem map_events {β : Type} {view : Component → β}
    (h : c'.components.map bareEvent = c.components.map bareEvent)
    (hview : ∀ e ∈ c.events, view (bareEvent e) = view e)
      (hview' : ∀ e ∈ c'.events, view (bareEvent e) = view e) :
    c'.events.map view = c.events.map view := by
  have hevents : c'.events.map bareEvent = c.events.map bareEvent := by
    rw [← events_bareEvent, h, events_bareEvent]
  have hmapped := congrArg (List.map view) hevents
  rw [List.map_map, List.map_map] at hmapped
  calc c'.events.map view = c'.events.map (view ∘ bareEvent) := (List.map_congr_left hview').symm
    _ = c.events.map (view ∘ bareEvent) := hmapped
    _ = c.events.map view := List.map_congr_left hview

/-! ### What the plan looks at -/

theorem organizer_eq (h : c'.components.map bareEvent = c.components.map bareEvent) :
    organizer lower c' = organizer lower c := by
  have hview (e : Component) : ((bareEvent e).property "ORGANIZER").bind (·.address lower) =
      (e.property "ORGANIZER").bind (·.address lower) := by
    rw [property_bareEvent (by decide)]
  have hmap := @map_events _ _ _ (fun e : Component => (e.property "ORGANIZER").bind (·.address lower)) h
    (fun e _ => hview e) (fun e _ => hview e)
  have hfound := congrArg (List.findSome? id) hmap
  rwa [List.findSome?_map, List.findSome?_map] at hfound

theorem attendeeOf_unanswered :
    (attendeeOf lower (unanswered p)).map Attendee.unanswered =
        (attendeeOf lower p).map Attendee.unanswered := by
  unfold attendeeOf Property.address scheduleAgentIsServer
  rw [value_unanswered, param_unanswered (isOther_of_isParam (n := "CN") (by decide) (by decide) (by decide)),
    param_unanswered (isOther_of_isParam (n := "SCHEDULE-AGENT") (by decide) (by decide) (by decide)),
    param_unanswered (isOther_of_isParam (n := "SCHEDULE-FORCE-SEND") (by decide) (by decide) (by decide)),
    Option.map_map, Option.map_map]
  rfl

/-- The attendees of one event. -/
def attendeesOf (lower : Text → Text) (e : Component) : List Attendee :=
    (e.propertiesNamed "ATTENDEE").filterMap (attendeeOf lower)

theorem attendeesOf_bareEvent :
    (attendeesOf lower (bareEvent e)).map Attendee.unanswered =
        (attendeesOf lower e).map Attendee.unanswered := by
  have hnamed : isNamed "ATTENDEE" ∘ unanswered = isNamed "ATTENDEE" :=
    funext fun _ => isNamed_unanswered
  unfold attendeesOf Component.propertiesNamed
  change (((e.properties.map unanswered).filter _).filterMap _).map _ = _
  rw [List.filter_map, hnamed, List.filterMap_map, List.map_filterMap, List.map_filterMap]
  exact List.filterMap_congr fun p _ => attendeeOf_unanswered

theorem addAttendee_unanswered (out : List Attendee) (a : Attendee) :
    (addAttendee out a).map Attendee.unanswered = addAttendee (out.map Attendee.unanswered) a.unanswered :=
  Lib.map_setFirst (fun _ => rfl) fun _ => rfl

theorem attendees_unanswered : (attendees lower c).map Attendee.unanswered =
    ((c.events.map fun e => (attendeesOf lower e).map Attendee.unanswered).flatten).foldl addAttendee [] := by
  have hfold (l out : List Attendee) : (l.foldl addAttendee out).map Attendee.unanswered =
      (l.map Attendee.unanswered).foldl addAttendee (out.map Attendee.unanswered) := by
    induction l generalizing out with
    | nil => rfl
    | cons a l ih => rw [List.foldl_cons, ih, addAttendee_unanswered, List.map_cons, List.foldl_cons]
  unfold attendees
  rw [hfold, List.map_flatMap, List.map_nil, ← List.flatMap_def]
  rfl

theorem recipients_eq (own : List Text) (h : c'.components.map bareEvent = c.components.map bareEvent) :
    (recipients lower c' own).map Attendee.unanswered = (recipients lower c own).map Attendee.unanswered := by
  have hfilter (l : List Attendee) : (l.filter fun a => a.byServer && !own.contains a.address).map Attendee.unanswered =
      (l.map Attendee.unanswered).filter fun a => a.byServer && !own.contains a.address := by
    rw [List.filter_map]
    rfl
  unfold recipients
  rw [hfilter, hfilter, attendees_unanswered, attendees_unanswered,
    map_events h (fun _ _ => attendeesOf_bareEvent) fun _ _ => attendeesOf_bareEvent]

theorem essenceLine_unanswered (h : p.IsUpper) : essenceLine lower (unanswered p) = essenceLine lower p := by
  by_cases hname : p.name = "ATTENDEE".toList
  · have hparams : (p.params.filter isOther).filter (fun param => !answerParams.any fun name =>
      param.1 == name.toList) =
        p.params.filter fun param => !answerParams.any fun name => param.1 == name.toList := by
      rw [List.filter_filter]
      refine List.filter_congr fun param hparam => ?_
      cases hother : isOther param with
      | true => rw [Bool.and_true]
      | false =>
        -- in upper case, one of the three is named exactly so
        have hexact {n : String} (hn : isParam n param = true) (hupper : upper n.toList =
          n.toList) : param.1 = n.toList := by
          rw [← h param hparam, ← hupper]
          exact eqIgnoreAsciiCase_iff.1 hn
        have hany : (answerParams.any fun name => param.1 == name.toList) = true := by
          rw [isOther, Bool.not_eq_false', Bool.or_eq_true, Bool.or_eq_true] at hother
          obtain (hn | hn) | hn := hother
          · rw [hexact hn (by decide)]
            decide
          · rw [hexact hn (by decide)]
            decide
          · rw [hexact hn (by decide)]
            decide
        rw [hany]
        rfl
    unfold essenceLine unanswered Property.address
    rw [if_pos hname]
    rw [if_pos (Or.inl hname), if_pos (Or.inl hname), hparams]
  · rw [unanswered, if_neg hname]

/-- Whether a line counts for attendees. -/
def counts (p : Property) : Bool :=
  !(ignored.any fun name => p.name == name.toList) && !"X-".toList.isPrefixOf p.name

theorem essenceLines_bareEvent (hupper : ∀ p ∈ e.properties, p.IsUpper) :
    (((bareEvent e).properties.filter counts).map (essenceLine lower)) =
      (e.properties.filter counts).map (essenceLine lower) := by
  have hcounts : counts ∘ unanswered = counts := by
    funext p
    rw [Function.comp, counts, name_unanswered]
    rfl
  change ((e.properties.map unanswered).filter counts).map _ = _
  rw [List.filter_map, hcounts, List.map_map]
  exact List.map_congr_left fun p hp => essenceLine_unanswered (hupper p (List.mem_of_mem_filter hp))

theorem essence_eq (h : c'.components.map bareEvent = c.components.map bareEvent)
    (hupper : ∀ e ∈ c.components, ∀ p ∈ e.properties, p.IsUpper)
    (hupper' : ∀ e ∈ c'.components, ∀ p ∈ e.properties, p.IsUpper) : essence lower c' = essence lower c := by
  have hview {d e : Component} (hd : ∀ e ∈ d.components, ∀ p ∈ e.properties, p.IsUpper) (he : e ∈ d.events) :
      ((bareEvent e).recurrenceId, (((bareEvent e).properties.filter counts).map (essenceLine lower)).mergeSort
        fun a b => decide (a ≤ b)) =
      (e.recurrenceId, ((e.properties.filter counts).map (essenceLine lower)).mergeSort fun a b =>
          decide (a ≤ b)) := by
    rw [recurrenceId_bareEvent, essenceLines_bareEvent (hd e (List.mem_of_mem_filter he))]
  exact congrArg (List.mergeSort · essenceLe) (map_events h (fun _ he => hview hupper he) fun _ he => hview hupper' he)

/-- **The plan after an answer**: nobody is cancelled, nobody answers, and a message goes only to
whom the client asked for one. -/
theorem plan_eq {own : List Text} {o : Text} (h : c'.components.map bareEvent = c.components.map bareEvent)
    (hupper : ∀ e ∈ c.components, ∀ p ∈ e.properties, p.IsUpper)
    (hupper' : ∀ e ∈ c'.components, ∀ p ∈ e.properties, p.IsUpper) (hrole : role lower c own = .organizer o) :
    (plan lower (some c) (some c') own).cancels = [] ∧ (plan lower (some c) (some c') own).replyAs = none ∧
      ∀ address ∈ (plan lower (some c) (some c') own).requests,
        ∃ a ∈ recipients lower c own, a.address = address ∧ a.forceRequest = true := by
  have hrole' : role lower c' own = .organizer o := by
    unfold role at hrole ⊢
    rw [organizer_eq h]
    cases horganizer : organizer lower c with
    | none =>
      rw [horganizer] at hrole
      cases hrole
    | some organizer =>
      rw [horganizer] at hrole
      dsimp only at hrole ⊢
      split at hrole
      next hown => rw [if_pos hown, hrole]
      next => split at hrole <;> cases hrole
  -- whoever is told in one of the two objects is told in the other
  have hsame : ∀ {d d' : Component}, d'.components.map bareEvent = d.components.map bareEvent →
      ∀ a ∈ recipients lower d own, ∃ b ∈ recipients lower d' own, b.address = a.address ∧
        b.forceRequest = a.forceRequest := by
    intro d d' hd a ha
    have hmem : a.unanswered ∈ (recipients lower d' own).map Attendee.unanswered := by
      rw [recipients_eq own hd]
      exact List.mem_map_of_mem ha
    obtain ⟨b, hb, hba⟩ := List.mem_map.1 hmem
    have haddress : b.unanswered.address = a.unanswered.address := by rw [hba]
    have hforce : b.unanswered.forceRequest = a.unanswered.forceRequest := by rw [hba]
    exact ⟨b, hb, haddress, hforce⟩
  have hany : ∀ {d d' : Component}, d'.components.map bareEvent = d.components.map bareEvent →
      ∀ a ∈ recipients lower d own, ((recipients lower d' own).any fun b => decide (b.address = a.address)) = true := by
    intro d d' hd a ha
    obtain ⟨b, hb, haddress, -⟩ := hsame hd a ha
    exact List.any_eq_true.2 ⟨b, hb, decide_eq_true haddress⟩
  have hchanged : decide (essence lower c ≠ essence lower c') = false := by
    rw [essence_eq h hupper hupper']
    exact decide_eq_false fun hne => hne rfl
  unfold plan
  change (if organizerSchedulesItself c' then _ else _ : Plan).cancels = [] ∧
    (if organizerSchedulesItself c' then _ else _ : Plan).replyAs = none ∧
    ∀ address ∈ (if organizerSchedulesItself c' then _ else _ : Plan).requests, _
  split
  · exact ⟨rfl, rfl, fun _ h => absurd h List.not_mem_nil⟩
  · rw [hrole']
    dsimp only [Option.map_some, Option.getD_some]
    refine ⟨?_, rfl, fun address haddress => ?_⟩
    · rw [List.map_eq_nil_iff, List.filter_eq_nil_iff]
      intro a ha
      rw [hany h a ha]
      exact Bool.false_ne_true
    · obtain ⟨b, hb, rfl⟩ := List.mem_map.1 haddress
      obtain ⟨hb, htold⟩ := List.mem_filter.1 hb
      obtain ⟨a, ha, hsameAddress, hforce⟩ := hsame h.symm b hb
      rw [hchanged, Bool.false_or, hany h.symm b hb, Bool.not_true, Bool.or_false] at htold
      exact ⟨a, ha, hsameAddress, hforce.trans htold⟩

/-- Whom the client asks a message for gets one, whatever changed. -/
theorem mem_requests {old : Option Component} {own : List Text} {o : Text} {a : Attendee}
    (hself : organizerSchedulesItself c = false) (hrole : role lower c own = .organizer o)
    (ha : a ∈ recipients lower c own) (hforce : a.forceRequest = true) :
    a.address ∈ (plan lower old (some c) own).requests := by
  unfold plan
  change _ ∈ (if organizerSchedulesItself c then _ else _ : Plan).requests
  rw [hself, if_neg Bool.false_ne_true, hrole]
  refine List.mem_map_of_mem (List.mem_filter.2 ⟨ha, ?_⟩)
  rw [hforce, Bool.or_true, Bool.true_or]

end

/-! ## 5. The answer flow -/

theorem isUpper_of_params {rest : Text} {params : List (Text × Text)} (h : Params rest params) :
    ∀ param ∈ params, upper param.1 = param.1 := by
  induction h with
  | nil => exact fun _ h => absurd h List.not_mem_nil
  | last =>
    rw [List.forall_mem_singleton]
    exact upper_upper _
  | more _ _ _ _ ih =>
    rw [List.forall_mem_cons]
    exact ⟨upper_upper _, ih⟩

theorem isUpper_of_read {p : Property} (h : Read p) : p.IsUpper := by
  obtain ⟨line, -, hline⟩ := h.line
  obtain ⟨head, name, -, -, -, hhead, -, -⟩ := parseLine_eq_some.1 hline
  unfold Property.IsUpper
  generalize p.params = params at hhead ⊢
  cases hhead with
  | bare => exact fun _ h => absurd h List.not_mem_nil
  | full _ _ hparams => exact isUpper_of_params hparams

theorem isUpper_of_parse {text : Text} {c : Component} (h : parse text = some c) :
    ∀ e ∈ c.components, ∀ p ∈ e.properties, p.IsUpper := by
  obtain ⟨⟨-, hfilled⟩, -, -⟩ := read_of_parse h
  intro e he p hp
  obtain ⟨-, hevent⟩ := hfilled.components e he
  exact isUpper_of_read (hevent.properties p hp)

/-- **The answer flow.**  The organizer's object takes the answer of `me`, in the first event of
each recurrence id and there in the first line of `me`, and nothing else of it changes; what is no
answer changes nothing.  After it, a message is due only to attendees whose line in the object has
`SCHEDULE-FORCE-SEND=REQUEST`. -/
theorem answer_flow {lower : Text → Text} {text me p : Text} {c : Component} {current : Option Component}
    {mine own : List Text} {sent now : Int} (hparse : parse text = some c) :
    let answered := applyReply lower c (reply lower (attendeeCopy lower (request c sent)
      current mine) me (some p) now) me
    (answer? p = none → answered = (c, false)) ∧
    (∀ P, answer? p = some P → answered.1.name = c.name ∧ answered.1.properties = c.properties ∧
      Answered lower me P [] c.components answered.1.components) ∧
    ∀ o, role lower c own = .organizer o →
      (plan lower (some c) (some answered.1) own).cancels = [] ∧
      (plan lower (some c) (some answered.1) own).replyAs = none ∧
      ∀ address ∈ (plan lower (some c) (some answered.1) own).requests,
        ∃ a ∈ recipients lower c own, a.address = address ∧ a.forceRequest = true := by
  intro answered
  obtain ⟨hnone, hsome⟩ : (answer? p = none → answered = (c, false)) ∧ _ :=
    applyReply_spec lower c me p current mine sent now
  refine ⟨hnone, hsome, fun o ho => ?_⟩
  have hupper := isUpper_of_parse hparse
  cases hp : answer? p with
  | none =>
    rw [hnone hp]
    exact plan_eq rfl hupper hupper ho
  | some P =>
    obtain ⟨-, -, h⟩ := hsome P hp
    exact plan_eq h.bareEvent_eq hupper (h.isUpper hupper) ho

/-- An organizer's object: its one event twice, and an attendee in it twice. -/
def meeting : Text :=
  ("BEGIN:VCALENDAR\nBEGIN:VEVENT\nORGANIZER:mailto:m@x\nATTENDEE;SCHEDULE-FORCE-SEND=REQUEST:mailto:n@x\n" ++
    "ATTENDEE:mailto:n@x\nEND:VEVENT\nBEGIN:VEVENT\nATTENDEE:mailto:n@x\nEND:VEVENT\nEND:VCALENDAR").toList

def forced (params : List (Text × Text)) : Property :=
  ⟨"ATTENDEE".toList, ("SCHEDULE-FORCE-SEND".toList, "REQUEST".toList) :: params, "mailto:n@x".toList⟩

def again : Property := ⟨"ATTENDEE".toList, [], "mailto:n@x".toList⟩

def meetingWith (params : List (Text × Text)) : Component :=
  .mk calendar [] [
    .mk "VEVENT".toList [⟨"ORGANIZER".toList, [], "mailto:m@x".toList⟩, forced params, again] [],
    .mk "VEVENT".toList [again] []]

set_option maxRecDepth 10000 in
theorem parse_meeting : parse meeting = some (meetingWith []) := by rfl

def guest : Text := "n@x".toList

/-- The object of the organizer after the guest accepted. -/
def accepted : Component × Bool :=
  applyReply id (meetingWith [])
    (reply id (attendeeCopy id (request (meetingWith []) 0) none [guest]) guest
      (some "accepted".toList) 0) guest

theorem accepted_eq :
    accepted.1 = meetingWith [("PARTSTAT".toList, "ACCEPTED".toList), ("SCHEDULE-STATUS".toList,
      "2.0".toList)] := by rfl

/-- The flow of one answer. -/
theorem answer_flow_meeting : accepted.1.properties = (meetingWith []).properties ∧
    Answered id guest "ACCEPTED".toList [] (meetingWith []).components accepted.1.components := by
  have h := (@answer_flow id meeting guest "accepted".toList _ none [guest]
    ["m@x".toList] 0 0 parse_meeting).2.1
    "ACCEPTED".toList (by decide)
  exact h.2

/-- **The guest's other lines keep their answer, and the guest is told about their own answer.** -/
theorem guest_is_told : ∃ c, parse meeting = some c ∧ role id c ["m@x".toList] = .organizer "m@x".toList ∧
    let answered := applyReply id c (reply id (attendeeCopy id (request c 0) none [guest]) guest
      (some "accepted".toList) 0)
      guest
    (answered.1.events.map fun e => (e.propertiesNamed "ATTENDEE").map fun p => p.param "PARTSTAT") =
      [[some "ACCEPTED".toList, none], [none]] ∧
    guest ∈ (plan id (some c) (some answered.1) ["m@x".toList]).requests := by
  refine ⟨_, parse_meeting, by decide, ?_, ?_⟩
  · change accepted.1.events.map _ = _
    rw [accepted_eq]
    decide
  · change guest ∈ (plan id _ (some accepted.1) _).requests
    rw [accepted_eq]
    exact @mem_requests id _ _ _ "m@x".toList ⟨guest, none, "ACCEPTED".toList, true,
      true⟩ (by decide) (by decide)
      (by decide) rfl

end UwuMail.Itip
