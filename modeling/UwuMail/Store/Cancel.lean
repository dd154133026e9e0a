/-
# Cancellations

`itip.rs`, `apply_cancel`: what an organizer cancelled is marked in an attendee's copy.  The same
mail comes more than once, so the second time nothing is to change.

An event that is marked is LEFT ALONE the second time.  An instance the copy has no event for is
different: it comes out of the series by an EXDATE, and nobody looks whether the EXDATE is there.
-/
import UwuMail.Store.Itip

namespace UwuMail.Itip

/-! ## 1. The source -/

def cancelledText : Text := "CANCELLED".toList

def isCancelled (event : Component) : Bool := decide (event.value "STATUS" = some cancelledText)

def cancelEvent (event : Component) : Component :=
  if isCancelled event then event else event.set (.of "STATUS" cancelledText)

/-- The recurrence id of what is cancelled, as an exception of the series. -/
def exdate (cancelled : Component) : Property :=
  let exdate := (cancelled.property "RECURRENCE-ID").getD (.of "" [])
  ({ exdate with name := "EXDATE".toList } : Property).removeParam "RANGE"

def exclude (cancelled series : Component) : Component := series.addProperty (exdate cancelled)

/-- One turn of the loop of `apply_cancel`: the copy, and whether anything changed. -/
def applyCancelled (s : Component × Bool) (cancelled : Component) : Component × Bool :=
  match cancelled.recurrenceId with
  | none => (s.1.modifyEvents cancelEvent, s.2 || s.1.events.any (!isCancelled ·))
  | some rid =>
    match s.1.eventFor (some rid) with
    | some event => (s.1.modifyEvent (some rid) cancelEvent, s.2 || !isCancelled event)
    | none =>
      match s.1.eventFor none with
      | none => s
      | some _ => (s.1.modifyEvent none (exclude cancelled), true)

/-- Marks what an organizer cancelled in an attendee's copy: the whole event, or single instances,
which come out of the series when it has no changed copy of them. -/
def applyCancel (copy cancel : Component) : Component × Bool :=
    cancel.events.foldl applyCancelled (copy, false)

/-! ## 2. What one cancelled event does -/

/-- The names of the lines are in upper case, as they are read. -/
def Component.IsUpper (e : Component) : Prop := ∀ p ∈ e.properties, upper p.name = p.name

/-- A component before and after a cancellation. -/
structure Kept (e e' : Component) : Prop where
  key : e'.eventKey = e.eventKey
  uppercase : e.IsUpper → e'.IsUpper
  cancelled : isCancelled e = true → isCancelled e' = true

section
variable {e e' : Component} {c c' m : Component} {s : Component × Bool} {rid : Option Text}

theorem Kept.refl (e : Component) : Kept e e := ⟨rfl, id, id⟩

theorem Kept.trans {d : Component} (h : Kept d e) (h' : Kept e e') : Kept d e' :=
  ⟨h'.key.trans h.key, h'.uppercase ∘ h.uppercase, h'.cancelled ∘ h.cancelled⟩

theorem isCancelled_set (h : e.IsUpper) : isCancelled (e.set (.of "STATUS" cancelledText)) = true := by
  obtain ⟨p, hp⟩ : ∃ p, p = Property.of "STATUS" cancelledText := ⟨_, rfl⟩
  have hname : p.name = "STATUS".toList := by rw [hp]; rfl
  obtain ⟨exactly, hexactly⟩ : ∃ exactly : Property → Bool, exactly = fun q =>
    decide (q.name = p.name) := ⟨_, rfl⟩
  have hself : exactly p = true := by rw [hexactly]; exact decide_eq_true rfl
  have hfind : (e.set p).properties.find? exactly = some p := by
    have h := @Lib.find?_setFirst _ exactly (fun _ => p) p e.properties (fun _ _ => hself) hself
    rw [hexactly] at h ⊢
    refine h.trans (congrArg some ?_)
    cases e.properties.find? (fun q => decide (q.name = p.name)) <;> rfl
  -- in upper case, a name that is the same in any case is the same
  have hsame : ∀ q ∈ (e.set p).properties, q.isNamed "STATUS" = exactly q := by
    intro q hq
    have hupper : upper q.name = q.name := by
      obtain hq | rfl | ⟨-, -, -, rfl⟩ := Lib.mem_setFirst hq
      · exact h q hq
      · rw [hname]
        decide
      · rw [hname]
        decide
    rw [hexactly, Property.isNamed, eqIgnoreAsciiCase, hupper, hname]
    exact Bool.beq_eq_decide_eq _ _
  have hfound : (e.set p).property "STATUS" = some p := by
    rw [Component.property, List.find?_congr hsame, hfind]
  rw [← hp, isCancelled, Component.value, hfound, hp]
  rfl

theorem kept_cancelEvent (e : Component) : Kept e (cancelEvent e) := by
  unfold cancelEvent
  split
  · exact .refl e
  · refine ⟨?_, fun h p hp => ?_, fun h => absurd h ‹_›⟩
    · have hname : isRelevant (.of "STATUS" cancelledText) = false := by
        rw [isRelevant, isNamed_of, isNamed_of]
        decide
      rw [Component.eventKey, Component.eventKey, recurrenceId_of_shape, shape_set hname,
        ← recurrenceId_of_shape]
      rfl
    · obtain hp | rfl | ⟨-, -, -, rfl⟩ := Lib.mem_setFirst hp
      · exact h p hp
      · exact upper_upper _
      · exact upper_upper _

theorem isCancelled_cancelEvent (h : e.IsUpper) : isCancelled (cancelEvent e) = true := by
  unfold cancelEvent
  split
  · assumption
  · exact isCancelled_set h

/-- An exception is no status and no recurrence id. -/
theorem property_exclude {n : String} (h : upper "EXDATE".toList ≠ upper n.toList) (m e : Component) :
    (exclude m e).property n = e.property n := by
  have hother : ¬ (exdate m).isNamed n = true := by
    have hnamed : (exdate m).isNamed "EXDATE" = true := beq_self_eq_true _
    rw [isNamed_ne h hnamed]
    exact Bool.false_ne_true
  unfold exclude Component.property
  obtain ⟨name, properties, components⟩ := e
  change (properties ++ [exdate m]).find? _ = properties.find? _
  rw [List.find?_append, List.find?_cons_of_neg hother, List.find?_nil, Option.or_none]

theorem kept_exclude (m e : Component) : Kept e (exclude m e) := by
  refine ⟨?_, fun h p hp => ?_, fun h => ?_⟩
  · have hname : (exclude m e).isEvent = e.isEvent := by cases e; rfl
    rw [Component.eventKey, Component.eventKey, hname, Component.recurrenceId, Component.value,
      property_exclude (by decide)]
    rfl
  · obtain ⟨name, properties, components⟩ := e
    obtain hp | hp := List.mem_append.1 hp
    · exact h p hp
    · rw [List.mem_singleton.1 hp]
      change upper "EXDATE".toList = "EXDATE".toList
      decide
  · rw [isCancelled, Component.value, property_exclude (by decide)]
    exact h

/-- The components of a copy before and after. -/
def KeptAll (c c' : Component) : Prop := List.Forall₂ Kept c.components c'.components

theorem KeptAll.refl (c : Component) : KeptAll c c := List.forall₂_same.2 fun e _ => .refl e

theorem KeptAll.trans {d : Component} (h : KeptAll d c) (h' : KeptAll c c') : KeptAll d c' := by
  unfold KeptAll at *
  generalize d.components = ds, c.components = es, c'.components = es' at h h'
  induction h generalizing es' with
  | nil => exact h'
  | cons hab _ ih =>
    cases h' with
    | cons hbc h' => exact .cons (hab.trans hbc) (ih _ h')

variable {f : Component → Component}

theorem keptAll_modifyEvent (hf : ∀ e, Kept e (f e)) : KeptAll c (c.modifyEvent rid f) :=
  Lib.forall₂_modifyFirst Kept.refl hf

theorem keptAll_modifyEvents (hf : ∀ e, Kept e (f e)) : KeptAll c (c.modifyEvents f) := by
  unfold KeptAll Component.modifyEvents
  change List.Forall₂ Kept c.components (c.components.map _)
  rw [List.forall₂_map_right_iff, List.forall₂_same]
  intro e _
  split
  · exact hf e
  · exact .refl e

/-- **One cancelled event** keeps what there is. -/
theorem keptAll_applyCancelled (s : Component × Bool) (m : Component) :
    KeptAll s.1 (applyCancelled s m).1 := by
  unfold applyCancelled
  split
  · exact keptAll_modifyEvents kept_cancelEvent
  · split
    · exact keptAll_modifyEvent kept_cancelEvent
    · split
      · exact .refl _
      · exact keptAll_modifyEvent (kept_exclude m)

theorem KeptAll.eventFor (h : KeptAll c c') (he : c'.eventFor rid = some e') :
    ∃ e, c.eventFor rid = some e ∧ Kept e e' := by
  rw [eventFor_eq] at he
  obtain ⟨e, hfind, hkept⟩ := Lib.exists_find?_of_forall₂ h (fun a b hab => by rw [hab.key]) he
  exact ⟨e, by rw [eventFor_eq]; exact hfind, hkept⟩

theorem KeptAll.eventFor_none (h : KeptAll c c') : c'.eventFor rid = none ↔ c.eventFor rid = none := by
  rw [eventFor_eq, eventFor_eq, List.find?_eq_none, List.find?_eq_none]
  unfold KeptAll at h
  generalize c.components = es, c'.components = es' at h
  induction h with
  | nil => rfl
  | cons hab _ ih => rw [List.forall_mem_cons, List.forall_mem_cons, hab.key, ih]

theorem KeptAll.component (h : KeptAll c c') (he : e' ∈ c'.components) : ∃ e ∈ c.components, Kept e e' := by
  unfold KeptAll at h
  generalize c.components = es, c'.components = es' at h he
  induction h with
  | nil => cases he
  | @cons a b es es' hab _ ih =>
    obtain rfl | he := List.mem_cons.1 he
    · exact ⟨a, List.mem_cons_self, hab⟩
    · obtain ⟨e, hin, hkept⟩ := ih he
      exact ⟨e, List.mem_cons_of_mem _ hin, hkept⟩

theorem KeptAll.events (h : KeptAll c c') (he : e' ∈ c'.events) : ∃ e ∈ c.events, Kept e e' := by
  obtain ⟨hmem, hevent⟩ := List.mem_filter.1 he
  obtain ⟨e, hin, hkept⟩ := h.component hmem
  have hkey := hkept.key
  rw [Component.eventKey, Component.eventKey, hevent, if_pos rfl] at hkey
  have hsame : e.isEvent = true := by
    by_contra hne
    rw [if_neg hne] at hkey
    cases hkey
  exact ⟨e, List.mem_filter.2 ⟨hin, hsame⟩, hkept⟩

/-- What is cancelled is an instance the copy has no event for, while it has the series. -/
def TakesOut (c m : Component) : Prop :=
  ∃ rid, m.recurrenceId = some rid ∧ c.eventFor (some rid) = none ∧ c.eventFor none ≠ none

/-- What is cancelled is marked. -/
structure Done (c m : Component) : Prop where
  series : m.recurrenceId = none → ∀ e ∈ c.events, isCancelled e = true
  event : ∀ rid e, m.recurrenceId = some rid → c.eventFor (some rid) = some e → isCancelled e = true
  kept : ¬ TakesOut c m

theorem KeptAll.takesOut (h : KeptAll c c') : TakesOut c' m ↔ TakesOut c m := by
  unfold TakesOut
  simp only [h.eventFor_none, ne_eq]

theorem Done.mono (h : KeptAll c c') (hdone : Done c m) : Done c' m := by
  refine ⟨fun hrid e' he' => ?_, fun rid e' hrid he' => ?_, fun htakes => hdone.kept (h.takesOut.1 htakes)⟩
  · obtain ⟨e, he, hkept⟩ := h.events he'
    exact hkept.cancelled (hdone.series hrid e he)
  · obtain ⟨e, he, hkept⟩ := h.eventFor he'
    exact hkept.cancelled (hdone.event rid e hrid he)

theorem upper_of_eventFor (hc : ∀ e ∈ c.components, e.IsUpper) (he : c.eventFor rid = some e) : e.IsUpper := by
  rw [eventFor_eq] at he
  exact hc e (List.mem_of_find?_eq_some he)

theorem eventFor_modifyEvent (hf : ∀ e, Kept e (f e)) (he : c.eventFor rid = some e) :
    (c.modifyEvent rid f).eventFor rid = some (f e) := by
  rw [eventFor_eq] at he ⊢
  have hkey : decide (e.eventKey = some rid) = true := @List.find?_some _ (fun e : Component =>
    decide (e.eventKey = some rid)) _ _ he
  refine Lib.find?_modifyFirst he (decide_eq_true ?_)
  rw [(hf e).key, of_decide_eq_true hkey]

theorem mem_modifyEvents (he : e' ∈ (c.modifyEvents f).events) :
    ∃ e ∈ c.components, e' = f e := by
  obtain ⟨hmem, hevent⟩ := List.mem_filter.1 he
  obtain ⟨e, hin, rfl⟩ := List.mem_map.1 hmem
  refine ⟨e, hin, ?_⟩
  split
  · rfl
  · next hno => exact absurd hevent (by rw [if_neg hno]; exact hno)

/-- **One cancelled event** is marked, unless it is taken out of the series. -/
theorem done_applyCancelled (hupper : ∀ e ∈ s.1.components, e.IsUpper) (hkept : ¬ TakesOut s.1 m) :
    Done (applyCancelled s m).1 m := by
  have hall := keptAll_applyCancelled s m
  refine ⟨fun hrid e' he' => ?_, fun rid e' hrid he' => ?_, fun htakes => hkept (hall.takesOut.1 htakes)⟩
  · unfold applyCancelled at he'
    rw [hrid] at he'
    obtain ⟨e, he, rfl⟩ := mem_modifyEvents he'
    exact isCancelled_cancelEvent (hupper e he)
  · obtain ⟨e, he, -⟩ := hall.eventFor he'
    unfold applyCancelled at he'
    rw [hrid] at he'
    dsimp only at he'
    rw [he] at he'
    dsimp only at he'
    rw [eventFor_modifyEvent kept_cancelEvent he, Option.some.injEq] at he'
    rw [← he']
    exact isCancelled_cancelEvent (upper_of_eventFor hupper he)

theorem cancelEvent_eq (h : isCancelled e = true) : cancelEvent e = e := if_pos h

theorem modifyEvents_eq (h : ∀ e ∈ c.events, f e = e) : c.modifyEvents f = c := by
  obtain ⟨name, properties, components⟩ := c
  refine congrArg (Component.mk name properties) ?_
  change components.map _ = components
  conv_rhs => rw [← List.map_id components]
  refine List.map_congr_left fun e he => ?_
  split
  · next hevent => exact h e (List.mem_filter.2 ⟨he, hevent⟩)
  · rfl

/-- What is marked is not marked again. -/
theorem applyCancelled_done {changed : Bool} (h : Done c m) :
    applyCancelled (c, changed) m = (c, changed) := by
  unfold applyCancelled
  cases hrid : m.recurrenceId with
  | none =>
    have hall := h.series hrid
    have hany : c.events.any (!isCancelled ·) = false := by
      rw [List.any_eq_false]
      intro e he
      rw [hall e he]
      exact Bool.false_ne_true
    dsimp only
    rw [modifyEvents_eq fun e he => cancelEvent_eq (hall e he), hany, Bool.or_false]
  | some rid =>
    dsimp only
    cases hevent : c.eventFor (some rid) with
    | some event =>
      have hcancelled := h.event rid event hrid hevent
      dsimp only
      rw [hcancelled, Bool.not_true, Bool.or_false, modifyEvent_of_same]
      intro e he
      obtain rfl : event = e := Option.some.inj (hevent.symm.trans he)
      exact cancelEvent_eq hcancelled
    | none =>
      dsimp only
      cases hseries : c.eventFor none with
      | none => rfl
      | some series => exact absurd ⟨rid, hrid, hevent, by rw [hseries]; exact Option.some_ne_none _⟩ h.kept

theorem applyCancelled_changed (h : s.2 = true ∨ TakesOut s.1 m) : (applyCancelled s m).2 = true := by
  unfold applyCancelled
  obtain h | ⟨rid, hrid, hevent, hseries⟩ := h
  · split
    · rw [h, Bool.true_or]
    · split
      · rw [h, Bool.true_or]
      · split
        · exact h
        · rfl
  · rw [hrid]
    dsimp only
    rw [hevent]
    dsimp only
    split
    · next hnone => exact absurd hnone hseries
    · rfl

end

/-! ## 3. Twice -/

section
variable {c : Component} {s : Component × Bool} {events : List Component}

theorem keptAll_foldl (s : Component × Bool) (events : List Component) :
    KeptAll s.1 (events.foldl applyCancelled s).1 := by
  induction events generalizing s with
  | nil => exact .refl _
  | cons m events ih => exact (keptAll_applyCancelled s m).trans (ih _)

theorem done_foldl (hupper : ∀ e ∈ s.1.components, e.IsUpper) (hkept : ∀ m ∈ events, ¬ TakesOut s.1 m) :
    ∀ m ∈ events, Done (events.foldl applyCancelled s).1 m := by
  induction events generalizing s with
  | nil => exact fun _ h => absurd h List.not_mem_nil
  | cons m events ih =>
    have hstep := keptAll_applyCancelled s m
    have hupper' : ∀ e ∈ (applyCancelled s m).1.components, e.IsUpper := by
      intro e' he'
      obtain ⟨e, he, hkept⟩ := hstep.component he'
      exact hkept.uppercase (hupper e he)
    rw [List.forall_mem_cons] at hkept ⊢
    exact ⟨(done_applyCancelled hupper hkept.1).mono (keptAll_foldl _ events),
      ih hupper' fun d hd htakes => hkept.2 d hd (hstep.takesOut.1 htakes)⟩

theorem foldl_done (h : ∀ m ∈ events, Done c m) : events.foldl applyCancelled (c, false) = (c, false) := by
  induction events with
  | nil => rfl
  | cons m events ih =>
    rw [List.forall_mem_cons] at h
    rw [List.foldl_cons, applyCancelled_done h.1, ih h.2]

theorem foldl_changed (h : s.2 = true ∨ ∃ m ∈ events, TakesOut s.1 m) :
    (events.foldl applyCancelled s).2 = true := by
  induction events generalizing s with
  | nil => exact h.resolve_right fun ⟨_, hm, _⟩ => absurd hm List.not_mem_nil
  | cons m events ih =>
    refine ih ?_
    obtain h | ⟨d, hd, htakes⟩ := h
    · exact .inl (applyCancelled_changed (.inl h))
    · obtain rfl | hd := List.mem_cons.1 hd
      · exact .inl (applyCancelled_changed (.inr htakes))
      · exact .inr ⟨d, hd, (keptAll_applyCancelled s m).takesOut.2 htakes⟩

theorem isUpper_component {text : Text} (h : parse text = some c) : ∀ e ∈ c.components, e.IsUpper := by
  obtain ⟨⟨-, hfilled⟩, -, -⟩ := read_of_parse h
  intro e he p hp
  obtain ⟨-, hevent⟩ := hfilled.components e he
  obtain ⟨line, -, hline⟩ := (hevent.properties p hp).line
  exact (isNamed_of_parse hline).uppercase

/-- **A cancellation twice**: the second time changes nothing, unless it takes an instance out of
the series. -/
theorem cancel_again {text : Text} {cancel : Component} (hparse : parse text = some c) :
    applyCancel (applyCancel c cancel).1 cancel = ((applyCancel c cancel).1, false) ↔
      ∀ cancelled ∈ cancel.events, ∀ rid, cancelled.recurrenceId = some rid →
        c.eventFor (some rid) ≠ none ∨ c.eventFor none = none := by
  have hcondition : (∀ cancelled ∈ cancel.events, ∀ rid, cancelled.recurrenceId = some rid →
      c.eventFor (some rid) ≠ none ∨ c.eventFor none = none) ↔ ∀ cancelled ∈ cancel.events,
          ¬ TakesOut c cancelled := by
    refine forall₂_congr fun cancelled _ => ?_
    unfold TakesOut
    rw [not_exists]
    refine forall_congr' fun rid => ?_
    tauto
  rw [hcondition]
  constructor
  · intro h cancelled hmem htakes
    have hchanged := foldl_changed (s := ((applyCancel c cancel).1, false)) (Or.inr ⟨cancelled, hmem,
      (keptAll_foldl (c, false) cancel.events).takesOut.2 htakes⟩)
    unfold applyCancel at h
    rw [applyCancel, h] at hchanged
    cases hchanged
  · exact fun h => foldl_done (done_foldl (isUpper_component hparse) h)

end

/-- An attendee's copy of a series. -/
def series : Text := "BEGIN:VCALENDAR\nBEGIN:VEVENT\nRRULE:FREQ=DAILY\nEND:VEVENT\nEND:VCALENDAR".toList

def seriesObject : Component :=
  .mk calendar [] [.mk "VEVENT".toList [⟨"RRULE".toList, [], "FREQ=DAILY".toList⟩] []]

set_option maxRecDepth 10000 in
theorem parse_series : parse series = some seriesObject := by rfl

/-- The message that cancels all of it. -/
def cancelAll : Component := .mk calendar [] [.mk "VEVENT".toList [] []]

/-- The message that cancels one instance. -/
def cancelOne : Component :=
  .mk calendar [] [.mk "VEVENT".toList [⟨"RECURRENCE-ID".toList, [], "20260920".toList⟩] []]

theorem cancel_again_all :
    applyCancel (applyCancel seriesObject cancelAll).1 cancelAll =
        ((applyCancel seriesObject cancelAll).1, false) :=
  (@cancel_again _ series cancelAll parse_series).2 fun cancelled hmem rid hrid => by
    rw [List.mem_singleton.1 hmem] at hrid
    cases hrid

/-- **Each mail about the instance adds its EXDATE to the series.** -/
theorem exdate_again : ∃ c, parse series = some c ∧
    (applyCancel (applyCancel c cancelOne).1 cancelOne).2 = true ∧
    (applyCancel (applyCancel c cancelOne).1 cancelOne).1.events.map (fun e =>
      (e.propertiesNamed "EXDATE").map Property.value) =
      [["20260920".toList, "20260920".toList]] :=
  ⟨_, parse_series, by decide, by decide⟩

end UwuMail.Itip
