/-
# What others see of private entries

Others read a calendar of someone else's over CalDAV with the entries its owner keeps to themselves
reduced to their times (`for_others` in `itip.rs`).

The statement is about two runs: two objects that differ only in what an entry hides look the SAME
to others. `entries_stay_private` says so, and what the one text is that they see.  An entry is a
component directly inside the calendar.  A component further in is shown with the entry that holds
it, whatever CLASS it gives itself (`nested_class_is_shown`).
-/
import UwuMail.Store.Ics

namespace UwuMail.Itip

/-! ## 1. The source -/

/-- Whether a component is kept from others: a CLASS other than PUBLIC (RFC 5545, 3.8.1.3). -/
def keptFromOthers (component : Component) : Bool :=
  (component.value "CLASS").any fun «class» => !eqIgnoreAsciiCase (trim «class») "PUBLIC".toList

/-- What others see of an entry its owner keeps private or confidential. -/
def seenOfPrivate : List String :=
  ["UID", "DTSTAMP", "DTSTART", "DTEND", "DURATION", "DUE", "RRULE", "RDATE", "EXDATE",
    "RECURRENCE-ID", "SEQUENCE",
    "CLASS", "TRANSP", "CREATED", "LAST-MODIFIED"]

def isSeen (p : Property) : Bool := seenOfPrivate.any fun name => p.isNamed name

/-- An empty calendar object: what others get of one that cannot be read to be reduced. -/
def nothing : Text := "BEGIN:VCALENDAR\r\nVERSION:2.0\r\nPRODID:-//UwUMail//Server//EN\r\nEND:VCALENDAR\r\n".toList

/-- `replace("\r\n ", "")`, and with a tab. -/
def joinFolds (blank : Char) : Text → Text
  | '\r' :: '\n' :: c :: text =>
    if c = blank then joinFolds blank text else '\r' :: joinFolds blank ('\n' :: c :: text)
  | c :: text => c :: joinFolds blank text
  | [] => []

/-- Whether a text that cannot be read names a class anywhere. -/
def namesClass (content : Text) : Bool := 
  (upper (joinFolds '\t' (joinFolds ' ' content))).tails.any fun rest => "CLASS".toList.isPrefixOf rest

/-- Whether a calendar object holds an entry its owner keeps from others. -/
def hasPrivate (content : Text) : Bool :=
  match parse content with
  | some calendar => calendar.components.any keptFromOthers
  | none => namesClass content

/-- One turn of the loop of `for_others`. -/
def reduce (component : Component) : Component :=
  if keptFromOthers component then .mk component.name (component.properties.filter isSeen) [] else component

/-- A calendar object as someone other than its owner sees it. -/
def forOthers (content : Text) : Text :=
  if hasPrivate content then
    match parse content with
    | some calendar =>
      (Component.mk calendar.name calendar.properties (calendar.components.map reduce)).toIcs
    | none => nothing
  else content

/-! ## 2. What is hidden -/

/-- Two entries that differ only in what the first of them hides. -/
def OnlyHidden (a b : Component) : Prop :=
  a = b ∨ keptFromOthers a = true ∧ a.name = b.name ∧ a.properties.filter isSeen = b.properties.filter isSeen

/-- Two texts that differ only in what the entries of a calendar hide. -/
inductive SameButHidden : Text → Text → Prop
  | refl (text : Text) : SameButHidden text text
  | hidden {text text' : Text} {c c' : Component} (hparse : parse text = some c)
    (hparse' : parse text' = some c')
      (hproperties : c.properties = c'.properties)
        (hentries : List.Forall₂ OnlyHidden c.components c'.components)
      (hprivate : c.components.any keptFromOthers = true) : SameButHidden text text'

/-- What others see of an entry. -/
structure Reduced (entry seen : Component) : Prop where
  name : seen.name = entry.name
  whole : keptFromOthers entry = false → seen = entry
  properties : keptFromOthers entry = true → seen.properties = entry.properties.filter isSeen
  components : keptFromOthers entry = true → seen.components = []

/-- What others see of a calendar: the text, or one whose content lines are those of the calendar
with every private entry reduced. -/
inductive Shown (text : Text) (c : Component) : Text → Prop
  | whole (hpublic : ∀ e ∈ c.components, keptFromOthers e = false) : Shown text c text
  | reduced {seen : Component} (hprivate : ∃ e ∈ c.components, keptFromOthers e = true)
      (hname : seen.name = c.name) (hproperties : seen.properties = c.properties)
      (hentries : List.Forall₂ Reduced c.components seen.components)
      (hlines : unfold seen.toIcs = some (seen.flat.map Property.line)) : Shown text c seen.toIcs

section
variable {a b c : Component} {text text' : Text}

/-- The CLASS of an entry is one of the properties others see. -/
theorem value_class_seen (a : Component) :
    a.value "CLASS" = ((a.properties.filter isSeen).find? (Property.isNamed "CLASS")).map Property.value := by
  rw [Component.value, Component.property, List.find?_filter]
  congr 2
  funext p
  cases h : p.isNamed "CLASS" with
  | false => simp
  | true =>
    have hseen : isSeen p = true := List.any_eq_true.2 ⟨"CLASS", by decide, h⟩
    simp [hseen]

/-- Whether an entry is private shows. -/
theorem OnlyHidden.kept_eq (h : OnlyHidden a b) : keptFromOthers a = keptFromOthers b := by
  obtain rfl | ⟨-, -, hseen⟩ := h
  · rfl
  · rw [keptFromOthers, keptFromOthers, value_class_seen, value_class_seen, hseen]

theorem OnlyHidden.reduce_eq (h : OnlyHidden a b) : reduce a = reduce b := by
  have hkept' := h.kept_eq
  obtain rfl | ⟨hkept, hname, hseen⟩ := h
  · rfl
  · rw [reduce, reduce, if_pos hkept, if_pos (hkept' ▸ hkept), hname, hseen]

theorem reduced_reduce (entry : Component) : Reduced entry (reduce entry) := by
  unfold reduce
  cases hkept : keptFromOthers entry with
  | false =>
    have hne (h : keptFromOthers entry = true) : False := absurd (hkept.symm.trans h) Bool.false_ne_true
    exact ⟨rfl, fun _ => rfl, fun h => (hne h).elim, fun h => (hne h).elim⟩
  | true => exact ⟨rfl, fun h => absurd (h.symm.trans hkept) Bool.false_ne_true, fun _ => rfl, fun _ => rfl⟩

theorem map_reduce_eq {entries entries' : List Component} (h : List.Forall₂ OnlyHidden entries entries') :
    entries.map reduce = entries'.map reduce ∧ entries.any keptFromOthers = entries'.any keptFromOthers := by
  induction h with
  | nil => exact ⟨rfl, rfl⟩
  | cons hfirst _ ih =>
    rw [List.map_cons, List.map_cons, hfirst.reduce_eq, ih.1, List.any_cons, List.any_cons,
      hfirst.kept_eq, ih.2]
    exact ⟨rfl, rfl⟩

theorem forOthers_private (hparse : parse text = some c) (hprivate : c.components.any keptFromOthers = true) :
    forOthers text = (Component.mk c.name c.properties (c.components.map reduce)).toIcs := by
  unfold forOthers hasPrivate
  simp only [hparse, hprivate, if_true]

theorem forOthers_public (hparse : parse text = some c) (hpublic : c.components.any keptFromOthers = false) :
    forOthers text = text := by
  unfold forOthers hasPrivate
  simp only [hparse, hpublic, Bool.false_eq_true, if_false]

theorem fits_reduce {n : Nat} (hfits : Fits Read n c) : Fits Read n (reduce c) := by
  unfold reduce
  split
  next =>
    cases n with
    | zero => exact hfits
    | succ n =>
      obtain ⟨htrim, huppercase, hnewline, hproperties, -⟩ := hfits
      exact ⟨htrim, huppercase, hnewline, fun p hp => hproperties p (List.mem_of_mem_filter hp),
        fun _ h => absurd h List.not_mem_nil⟩
  next => exact hfits

theorem length_flat_reduce (c : Component) : (reduce c).flat.length ≤ c.flat.length := by
  unfold reduce
  split
  next =>
    obtain ⟨name, properties, components⟩ := c
    have hlen : (properties.filter isSeen).length ≤ properties.length := List.length_filter_le _ _
    simp only [Component.flat, flatAll, Component.name, Component.properties, List.length_cons,
      List.length_append,
      List.length_nil]
    omega
  next => exact le_rfl

/-- What is left of a calendar is still one that can be written. -/
theorem reduced_fits {n : Nat} (hfits : Fits Read n c) :
    Fits Read n (.mk c.name c.properties (c.components.map reduce)) ∧
      (Component.mk c.name c.properties (c.components.map reduce)).flat.length ≤ c.flat.length := by
  constructor
  · cases n with
    | zero => exact hfits
    | succ n =>
      obtain ⟨htrim, huppercase, hnewline, hproperties, hcomponents⟩ := hfits
      refine ⟨htrim, huppercase, hnewline, hproperties, fun d hd => ?_⟩
      obtain ⟨e, he, rfl⟩ := List.mem_map.1 hd
      exact fits_reduce (hcomponents e he)
  · obtain ⟨name, properties, components⟩ := c
    have hlen : (flatAll (components.map reduce)).length ≤ (flatAll components).length := by
      clear hfits
      induction components with
      | nil => exact le_rfl
      | cons e components ih =>
        rw [List.map_cons, flatAll, flatAll, List.length_append, List.length_append]
        exact Nat.add_le_add (length_flat_reduce e) ih
    simp only [Component.flat, Component.name, Component.properties, Component.components, List.length_cons,
      List.length_append, List.length_nil]
    omega

theorem shown_forOthers (hparse : parse text = some c) : Shown text c (forOthers text) := by
  cases hprivate : c.components.any keptFromOthers with
  | false =>
    rw [forOthers_public hparse hprivate]
    refine .whole fun e he => ?_
    rw [List.any_eq_false] at hprivate
    exact Bool.eq_false_iff.2 (hprivate e he)
  | true =>
    rw [forOthers_private hparse hprivate]
    obtain ⟨hfits, hlen, -⟩ := read_of_parse hparse
    obtain ⟨hfits', hlen'⟩ := reduced_fits hfits
    refine .reduced (List.any_eq_true.1 hprivate) rfl rfl ?_ (toIcs_lines hfits' (hlen'.trans hlen)).1
    exact List.forall₂_map_right_iff.2 (List.forall₂_same.2 fun e _ => reduced_reduce e)

/-- **Private entries stay private.**  Texts that differ only in what is hidden look the same to
others, and what they see of a calendar is the calendar with every private entry reduced to its
times.  A text that cannot be read and names a class shows nothing. -/
theorem entries_stay_private (h : SameButHidden text text') :
    forOthers text = forOthers text' ∧ (∀ c, parse text = some c → Shown text c (forOthers text)) ∧
      (parse text = none → namesClass text = true → forOthers text = nothing) := by
  refine ⟨?_, fun c => shown_forOthers, fun hnone hclass => ?_⟩
  · cases h with
    | refl => rfl
    | hidden hparse hparse' hproperties hentries hprivate =>
      obtain ⟨hmap, hany⟩ := map_reduce_eq hentries
      rw [forOthers_private hparse hprivate, forOthers_private hparse' (hany ▸ hprivate), hmap, hproperties,
        (read_of_parse hparse).2.2, (read_of_parse hparse').2.2]
  · unfold forOthers hasPrivate
    simp only [hnone, hclass, if_true]

end

def visit (summary : String) : Text :=
  "BEGIN:VCALENDAR\nBEGIN:VEVENT\nCLASS:Private\nSUMMARY:".toList ++ summary.toList ++
    "\nEND:VEVENT\nEND:VCALENDAR".toList

def visitEntry (summary : String) : Component :=
  .mk "VEVENT".toList [⟨"CLASS".toList, [], "Private".toList⟩, ⟨"SUMMARY".toList, [], summary.toList⟩] []

/-- Visits to two doctors. -/
theorem entries_stay_private_visit : forOthers (visit "Dentist") = forOthers (visit "Vet") := by
  have hparse : parse (visit "Dentist") = some (.mk calendar [] [visitEntry "Dentist"]) := by rfl
  have hparse' : parse (visit "Vet") = some (.mk calendar [] [visitEntry "Vet"]) := by rfl
  have hentries : List.Forall₂ OnlyHidden [visitEntry "Dentist"] [visitEntry "Vet"] :=
    .cons (.inr ⟨by decide, rfl, by decide⟩) .nil
  exact (entries_stay_private (.hidden hparse hparse' rfl hentries (by decide))).1

/-- Two components that differ only in what private components hide, however deep. -/
inductive OnlyHiddenInside : Component → Component → Prop
  | hidden {a b : Component} (hprivate : keptFromOthers a = true) (hname : a.name = b.name)
      (hseen : a.properties.filter isSeen = b.properties.filter isSeen) : OnlyHiddenInside a b
  | inside {name : Text} {properties : List Property} {components components' : List Component}
      (h : List.Forall₂ OnlyHiddenInside components components') :
      OnlyHiddenInside (.mk name properties components) (.mk name properties components')

def alarm (description : String) : Text :=
  "BEGIN:VCALENDAR\nBEGIN:VEVENT\nBEGIN:VALARM\nCLASS:PRIVATE\nDESCRIPTION:".toList ++ description.toList ++
    "\nEND:VALARM\nEND:VEVENT\nEND:VCALENDAR".toList

def alarmEntry (description : String) : Component :=
  .mk "VEVENT".toList [] [.mk "VALARM".toList
    [⟨"CLASS".toList, [], "PRIVATE".toList⟩, ⟨"DESCRIPTION".toList, [], description.toList⟩] []]

/-- What a component further in hides is seen. -/
theorem nested_class_is_shown : ∃ c c', parse (alarm "Pills") = some c ∧ parse (alarm "Gym") = some c' ∧
    OnlyHiddenInside c c' ∧ forOthers (alarm "Pills") ≠ forOthers (alarm "Gym") := by
  have hparse : parse (alarm "Pills") = some (.mk calendar [] [alarmEntry "Pills"]) := by rfl
  have hparse' : parse (alarm "Gym") = some (.mk calendar [] [alarmEntry "Gym"]) := by rfl
  refine ⟨_, _, hparse, hparse', .inside (.cons (.inside (.cons (.hidden ?_ rfl ?_) .nil)) .nil), ?_⟩
  · decide
  · decide
  · rw [forOthers_public hparse (by decide), forOthers_public hparse' (by decide)]
    decide

end UwuMail.Itip
