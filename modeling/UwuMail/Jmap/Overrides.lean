/-
# Overrides in storage

JSCalendar keeps of an instance WHAT DIFFERS from the series, iCalendar keeps the instance WHOLE.
An event that is stored has every override written out (`materialize_overrides`), and on the way
back what an override repeats is dropped again (`trim_overrides`).  In between lies the conversion
to iCalendar and back, taken here as the identity.

* §2 looks at the patches of an override through ONE property: what they make of it depends on that
  property alone, and `effect` is that function.
* §4 is the result.  A value that differs comes back, unless its name is read as something else or
  iCalendar leaves the property out; a property that an override TAKES AWAY comes back from the
  series.
-/
import UwuMail.Jmap.Patches

namespace UwuMail.Jscal

open Json

/-! ## 1. Writing overrides out, and back -/

def excluded (patch : Map) : Prop := patch.get "excluded" = some (.scalar (.bool true))

instance (patch : Map) : Decidable (excluded patch) := inferInstanceAs (Decidable (_ = _))

/-- The whole instance, from the series and its changes. -/
def wholeInstance (base : Map) (rid : String) (changes : Map) : Map :=
  let whole : Map := base.filter fun e => e.1 ∉ notInOverrides
  let whole := whole.insert "start" (.string rid)
  let whole := match changes.get "iCalendar" with
    | some converted => whole.insert "iCalendar" converted
    | none => whole
  -- a path that does not fit what the series has is left out
  (changes.filter fun e => e.1 != "iCalendar").foldl applyLoosely whole

def materializePatch (base : Map) (rid : String) : Value → Value
  | .object changes =>
    if excluded changes then .object [("excluded", .scalar (.bool true))]
      else .object (wholeInstance base rid changes)
  | patch => patch

/-- What an override has that the series does not. -/
def differs (base : Map) (rid : String) (e : String × Value) : Bool :=
  if e.1 = "iCalendar" then true
  else if e.1 = "start" then e.2 ≠ .string rid
  else base.get e.1 ≠ some e.2

def trimPatch (base : Map) (rid : String) : Value → Value
  | .object patch => if excluded patch then .object patch else .object (patch.filter (differs base rid))
  | patch => patch

/-- Every override of an event, rewritten. -/
def overrides (f : Map → String → Value → Value) (event : Map) : Map :=
  match event.get "recurrenceOverrides" with
  | some (.object patches) =>
    event.insert "recurrenceOverrides" (.object (patches.map fun e => (e.1, f event e.1 e.2)))
  | _ => event

/-- `materialize_overrides`: each override becomes the whole instance. -/
def materializeOverrides (event : Map) : Map := overrides materializePatch event

/-- `trim_overrides`: drops what an override repeats. -/
def trimOverrides (event : Map) : Map := overrides trimPatch event

/-! ## 2. Patches seen from one property -/

/-- What patches make of a property. -/
def effect (patches : List (String × Value)) (key : String) (held : Option Value) : Option Value :=
  Map.get (patches.foldl applyLoosely (put [] key held)) key

/-- What a row of patches does to one property: it is a function of that property, it puts no scalar
there but one that a patch sets, and patches that only lead inside need something to be there. -/
structure Acts (patches : List (String × Value)) (key : String) (f : Option Value → Option Value) : Prop where
  get : ∀ m, Map.get (patches.foldl applyLoosely m) key = f (Map.get m key)
  scalar : ∀ o s, f o = some (.scalar s) → o = some (.scalar s) ∨
    ∃ e ∈ patches, pointerTokens e.1 = some [key] ∧ e.2 = .scalar s ∧ e.2.isNull = false
  whole : (∀ o, f o = f none) ∨ f none = none
  inside : (∀ e ∈ patches, pointerTokens e.1 ≠ some [key]) → f none = none

section
variable {patches : List (String × Value)} {entry : String × Value} {key rid : String}
  {f g : Option Value → Option Value}

theorem Acts.nil : Acts [] key id where
  get _ := rfl
  scalar _ _ h := .inl h
  whole := .inr rfl
  inside _ := rfl

/-- One patch, and the rest. -/
theorem Acts.cons (h : Acts [entry] key f) (h' : Acts patches key g) :
    Acts (entry :: patches) key (g ∘ f) where
  get m := by
    rw [List.foldl_cons, h'.get]
    exact congrArg g (h.get m)
  scalar o s hs := by
    rcases h'.scalar _ _ hs with hf | ⟨e, he, hset⟩
    · rcases h.scalar _ _ hf with ho | ⟨e, he, hset⟩
      · exact .inl ho
      · exact .inr ⟨e, List.mem_cons.2 (.inl (List.mem_singleton.1 he)), hset⟩
    · exact .inr ⟨e, List.mem_cons_of_mem _ he, hset⟩
  whole := by
    rcases h'.whole with hconst | hnone
    · exact .inl fun o => (hconst (f o)).trans (hconst (f none)).symm
    · rcases h.whole with hconst | hnone'
      · exact .inl fun o => congrArg g (hconst o)
      · exact .inr (by rw [Function.comp_apply, hnone', hnone])
  inside hin := by
    rw [Function.comp_apply, h.inside fun e he => hin e (List.mem_cons.2 (.inl (List.mem_singleton.1 he))),
      h'.inside fun e he => hin e (List.mem_cons_of_mem _ he)]

/-- A patch that does nothing to the property. -/
theorem Acts.of_get (h : ∀ m, Map.get (applyLoosely m entry) key = Map.get m key) : Acts [entry] key id where
  get := h
  scalar _ _ h := .inl h
  whole := .inr rfl
  inside _ := rfl

theorem applyLoosely_error {m : Map} {why : String} (h : applyPatch m entry.1 entry.2 = .error why) :
    applyLoosely m entry = m := by
  rw [applyLoosely, h]

theorem exists_acts_one (entry : String × Value) (key : String) : ∃ f, Acts [entry] key f := by
  obtain ⟨why, hfails | ⟨parents, last, htokens, hwalk⟩⟩ := applyPatch_eq entry.1 entry.2
  · exact ⟨id, .of_get fun m => by rw [applyLoosely_error (hfails m)]⟩
  · obtain ⟨head, change, hhead, hchange, hends⟩ := patchAt_eq entry.2 last parents
    have hone : ∀ m, applyLoosely m entry = ((change (Map.get m head)).map (put m head)).getD m := fun m => by
      rw [applyLoosely, hwalk, hchange]
      cases change (Map.get m head) <;> rfl
    by_cases hkey : head = key
    · subst hkey
      refine ⟨fun o => (change o).getD o, fun m => ?_, fun o s hs => ?_, ?_, fun hin => ?_⟩
      · rw [List.foldl_cons, List.foldl_nil, hone]
        cases change (Map.get m head) with
        | none => rfl
        | some held => exact get_put.trans (if_pos rfl)
      · cases hput : change o with
        | none => exact .inl (by simpa [hput] using hs)
        | some held =>
          obtain rfl : held = some (.scalar s) := by simpa [hput] using hs
          rcases hends with ⟨rfl, hall⟩ | ⟨-, -, hobject⟩
          · -- the patch ends here and sets its value
            rw [hall, Option.some.injEq] at hput
            cases hnull : entry.2.isNull with
            | true => simp [hnull] at hput
            | false =>
              refine .inr ⟨entry, List.mem_singleton_self _, ?_, by simpa [hnull] using hput, hnull⟩
              rw [htokens, List.nil_append, ← Option.some.inj hhead]
          · obtain ⟨inner, hinner⟩ := hobject o _ hput
            cases hinner
      · rcases hends with ⟨-, hall⟩ | ⟨-, hnone, -⟩
        · exact .inl fun o => by rw [hall, hall, Option.getD_some, Option.getD_some]
        · exact .inr (by rw [hnone, Option.getD_none])
      · rcases hends with ⟨rfl, -⟩ | ⟨-, hnone, -⟩
        · refine absurd ?_ (hin entry (List.mem_singleton_self _))
          rw [htokens, List.nil_append, ← Option.some.inj hhead]
        · rw [hnone, Option.getD_none]
    · refine ⟨id, .of_get fun m => ?_⟩
      rw [hone]
      cases change (Map.get m head) with
      | none => rfl
      | some held => exact get_put.trans (if_neg hkey)

theorem exists_acts (patches : List (String × Value)) (key : String) : ∃ f, Acts patches key f := by
  induction patches with
  | nil => exact ⟨id, .nil⟩
  | cons entry patches ih =>
    obtain ⟨f, hf⟩ := exists_acts_one entry key
    obtain ⟨g, hg⟩ := ih
    exact ⟨_, hf.cons hg⟩

/-- **What patches make of a property** is `effect`. -/
theorem acts_effect (patches : List (String × Value)) (key : String) :
    Acts patches key (effect patches key) := by
  obtain ⟨f, hf⟩ := exists_acts patches key
  have heq : effect patches key = f := by
    funext o
    rw [effect, hf.get, get_put, if_pos rfl]
  rw [heq]
  exact hf

/-- What patches make of a property that is not there, they make of it whatever is there. -/
theorem effect_of_none {v : Value} {o : Option Value} (h : effect patches key none = some v) :
    effect patches key o = some v := by
  rcases (acts_effect patches key).whole with hconst | hnone
  · rw [hconst, h]
  · rw [hnone] at h
    cases h

/-- A plain name is the only pointer to its property. -/
theorem eq_of_pointer {path : String} (hkey : PlainName key) (h : pointerTokens path = some [key]) :
    path = key := by
  have hself := pointerTokens_plain hkey
  have hsegments : segments path = segments key :=
    (prefix_segments h hself (List.prefix_refl _)).eq_of_length_le
      (prefix_segments hself h (List.prefix_refl _)).length_le
  exact segments_injective hsegments

end

/-! ## 3. What the passes leave -/

/-- The override of an instance. -/
def overrideOf (event : Map) (rid : String) : Option Value :=
  (event.get "recurrenceOverrides").bind fun patches => member patches rid

/-- The changes of an override, without what only iCalendar needs. -/
def changesOf (patch : Map) : Map := patch.filter fun e => e.1 != "iCalendar"

section
variable {event base changes m : Map} {key rid : String} {patch : Value}
  {f : Map → String → Value → Value}

theorem instanceOf_object (h : overrideOf event rid = some (.object changes)) :
    instanceOf event rid = if excluded changes then none
      else some ((changesOf changes).foldl applyLoosely (seriesObject event rid)) := by
  unfold overrideOf at h
  rw [instanceOf, h]
  by_cases hexcluded : excluded changes
  · rw [if_pos hexcluded]
    exact if_pos (decide_eq_true hexcluded)
  · rw [if_neg hexcluded]
    exact if_neg fun h => hexcluded (of_decide_eq_true h)

theorem instanceOf_other (h : ∀ changes, overrideOf event rid ≠ some (.object changes)) :
    instanceOf event rid = some (seriesObject event rid) := by
  rw [instanceOf]
  unfold overrideOf at h
  cases hpatch : (Map.get event "recurrenceOverrides").bind fun patches => member patches rid with
  | none => rfl
  | some patch =>
    cases patch with
    | scalar s => rfl
    | array values => rfl
    | object changes => exact absurd hpatch (h changes)

theorem get_overrides (hkey : key ≠ "recurrenceOverrides") :
    Map.get (overrides f event) key = Map.get event key := by
  unfold overrides
  split
  · rw [Map.get_insert, if_neg hkey.symm]
  · rfl

theorem seriesObject_overrides : seriesObject (overrides f event) rid = seriesObject event rid := by
  unfold overrides
  split
  · exact timeZone_insert
  · rfl

/-- Each override is rewritten in its place. -/
theorem overrideOf_overrides : overrideOf (overrides f event) rid =
    (overrideOf event rid).map (f event rid) := by
  unfold overrides overrideOf
  split
  next patches hpatches =>
    rw [Map.get_insert, if_pos rfl, hpatches]
    exact Map.get_map_value (f event)
  next hnone =>
    cases hget : Map.get event "recurrenceOverrides" with
    | none => rfl
    | some patches =>
      cases patches with
      | scalar s => rfl
      | array values => rfl
      | object patches => exact absurd hget (hnone patches)

theorem get_seriesObject_other (hname : ∀ name ∈ ["recurrenceRule", "recurrenceOverrides", "recurrenceId",
      "recurrenceIdTimeZone"], name ≠ key) : Map.get (seriesObject event rid) key =
    if "start" = key then some (.string rid)
    else if key = "iCalendar" then none else Map.get event key := by
  have hseries : Map.get (event.filter fun e => e.1 != "iCalendar" && e.1 != "recurrenceOverrides") key =
      if key = "iCalendar" then none else Map.get event key := by
    rw [@Map.get_filter_key event key fun name => name != "iCalendar" && name != "recurrenceOverrides"]
    have hne := hname "recurrenceOverrides" (by decide)
    by_cases hkey : key = "iCalendar"
    · simp [hkey]
    · simp [hkey, hne.symm]
  unfold seriesObject
  rw [Map.get_insert]
  split
  · rfl
  · split
    · rw [Map.get_insert, if_neg (hname _ (by decide)), Map.get_insert, if_neg (hname _ (by decide)),
        Map.get_insert, if_neg (hname _ (by decide)), Map.get_insert, if_neg (hname _ (by decide)), hseries]
    · rw [Map.get_insert, if_neg (hname _ (by decide)), Map.get_insert, if_neg (hname _ (by decide)),
        Map.get_insert, if_neg (hname _ (by decide)), hseries]

/-- What an instance has of the series, name by name. -/
theorem get_seriesObject (hkey : key ∉ notInOverrides) : Map.get (seriesObject event rid) key =
    if key = "start" then some (.string rid) else Map.get event key := by
  have hne : ∀ name ∈ notInOverrides, name ≠ key := fun name hname heq => hkey (heq ▸ hname)
  have hsub : ∀ name ∈ ["recurrenceRule", "recurrenceOverrides", "recurrenceId", "recurrenceIdTimeZone"],
      name ∈ notInOverrides := by decide
  rw [get_seriesObject_other fun name hname => hne name (hsub name hname),
    if_neg (hne "iCalendar" (by decide)).symm]
  by_cases hstart : key = "start"
  · rw [if_pos hstart.symm, if_pos hstart]
  · rw [if_neg (Ne.symm hstart), if_neg hstart]

theorem get_seriesObject_iCalendar : Map.get (seriesObject event rid) "iCalendar" = none := by
  rw [get_seriesObject_other (by decide), if_neg (by decide), if_pos rfl]

/-- **A whole instance, name by name**: what the changes make of the series, or of nothing where the
series is not taken over. -/
theorem get_wholeInstance (hkey : key ≠ "iCalendar") : Map.get (wholeInstance base rid changes) key =
    effect (changesOf changes) key
      (if key ∈ notInOverrides then none else Map.get (seriesObject base rid) key) := by
  have hconverted : ∀ whole : Map, Map.get (match changes.get "iCalendar" with
      | some converted => whole.insert "iCalendar" converted
      | none => whole) key = Map.get whole key := fun whole => by
    split
    · rw [Map.get_insert, if_neg hkey.symm]
    · rfl
  rw [wholeInstance]
  refine ((acts_effect (changesOf changes) key).get _).trans ?_
  rw [hconverted, Map.get_insert]
  by_cases hin : key ∈ notInOverrides
  · have hstart : "start" ≠ key := fun heq => absurd (heq ▸ hin) (by decide)
    rw [if_neg hstart, if_pos hin, @Map.get_filter_key base key fun name => decide (name ∉ notInOverrides)]
    simp [hin]
  · rw [if_neg hin, get_seriesObject hin]
    by_cases hstart : key = "start"
    · rw [if_pos hstart.symm, if_pos hstart]
    · rw [if_neg (Ne.symm hstart), if_neg hstart,
        @Map.get_filter_key base key fun name => decide (name ∉ notInOverrides)]
      simp [hin]

/-- Patches keep the members of an object in order. -/
theorem ordered_foldl_applyLoosely {patches : List (String × Value)} (hm : Json.Ordered (.object m))
    (h : ∀ e ∈ patches, Json.Ordered e.2) : Json.Ordered (.object (patches.foldl applyLoosely m)) := by
  induction patches generalizing m with
  | nil => exact hm
  | cons e patches ih =>
    refine ih ?_ fun e' he' => h e' (List.mem_cons_of_mem _ he')
    unfold applyLoosely
    split
    next m' hok => exact applyPatch_ordered hm (h e List.mem_cons_self) hok
    next => exact hm

theorem ordered_filter {p : String × Value → Bool} (h : Json.Ordered (.object m)) :
    Json.Ordered (.object (m.filter p)) := by
  cases h with
  | object hkeys hvalues => exact .object (hkeys.filter p) fun e he => hvalues e (List.mem_of_mem_filter he)

theorem ordered_values (h : Json.Ordered (.object m)) : ∀ e ∈ m, Json.Ordered e.2 := by
  cases h with
  | object _ hvalues => exact hvalues

theorem ordered_wholeInstance (hbase : Json.Ordered (.object base))
    (hchanges : Json.Ordered (.object changes)) :
    Json.Ordered (.object (wholeInstance base rid changes)) := by
  refine ordered_foldl_applyLoosely ?_ (ordered_values (ordered_filter hchanges))
  have hstart := @Ordered.insert _ "start" _ (@ordered_filter base (fun e => decide (e.1 ∉ notInOverrides)) hbase)
    (.scalar (.string rid))
  split
  next converted hconverted => exact hstart.insert (hchanges.of_get hconverted)
  next => exact hstart

end

/-! ## 4. What survives -/

/-- The same properties, `null` being none. -/
def SameProperties : Option Map → Option Map → Prop
  | some object, some object' => ∀ key, present object key = present object' key
  | none, none => True
  | _, _ => False

/-- A value that is not `null`. -/
def nonNull (held : Option Value) : Option Value := held.filter fun value => !value.isNull

/-- What the stored form can hold of an override.  Every property it changes is there afterwards,
has a name that is a pointer to itself, and, where iCalendar's overrides leave the property to the
series, is set as a whole to what the event itself does not have. -/
def Storable (event : Map) (rid : String) : Prop :=
  ∀ changes, overrideOf event rid = some (.object changes) → ¬ excluded changes → ∀ key,
    let before := Map.get (seriesObject event rid) key
    let after := effect (changesOf changes) key before
    nonNull after ≠ nonNull before → PlainName key ∧ after ≠ none ∧
      (key ∈ notInOverrides → effect (changesOf changes) key none = after ∧
        (key ≠ "recurrenceOverrides" → Map.get event key ≠ after))

/-- What is kept of a whole instance, read as patches. -/
def kept (base : Map) (rid : String) (whole : Map) : Map := changesOf (whole.filter (differs base rid))

section
variable {event base changes whole series : Map} {key rid : String}

theorem sizeOf_lt_of_get {m : Map} {value : Value} (h : Map.get m key = some value) :
    sizeOf value < sizeOf (Value.object m) := by
  have hmem := List.sizeOf_lt_of_mem (Map.mem_of_get h)
  simp only [Prod.mk.sizeOf_spec, Value.object.sizeOf_spec] at hmem ⊢
  omega

theorem get_kept (hwhole : whole.Increasing) : Map.get (kept base rid whole) key =
    if key = "iCalendar" then none
    else (Map.get whole key).filter fun value => differs base rid (key, value) := by
  rw [kept, changesOf, @Map.get_filter_key _ key fun name => name != "iCalendar", hwhole.get_filter]
  by_cases hkey : key = "iCalendar" <;> simp [hkey]

/-- **Where all names are plain**, a property is what was kept of it, else what the series has. -/
theorem get_kept_applied (hwhole : whole.Increasing) (hplain : ∀ e ∈ kept base rid whole, PlainName e.1) :
    Map.get ((kept base rid whole).foldl applyLoosely series) key =
      match Map.get (kept base rid whole) key with
      | some value => if value.isNull then none else some value
      | none => Map.get series key := by
  have hkeys : (kept base rid whole).Increasing := (hwhole.filter _).filter _
  cases hget : Map.get (kept base rid whole) key with
  | some value =>
    refine @get_foldl_plain _ _ hplain (key, value) (Map.mem_of_get hget) fun e he hkey => ?_
    have hthere := @Map.Increasing.get_of_mem _ e.1 e.2 hkeys he
    rw [hkey, hget, Option.some.injEq] at hthere
    exact hthere.symm
  | none =>
    refine get_foldl_applyLoosely fun e he tokens htokens hhead => ?_
    rw [pointerTokens_plain (hplain e he)] at htokens
    cases htokens
    have hkey : e.1 = key := by simpa using hhead
    have hthere := @Map.Increasing.get_of_mem _ e.1 e.2 hkeys he
    rw [hkey, hget] at hthere
    cases hthere

/-- **The longest name that is not plain** is not reached: a pointer into it is longer still. -/
theorem get_kept_longest (hkey : ¬ PlainName key)
    (hlongest : ∀ e ∈ kept base rid whole, ¬ PlainName e.1 → e.1.length ≤ key.length) :
    Map.get ((kept base rid whole).foldl applyLoosely series) key = Map.get series key := by
  refine get_foldl_applyLoosely fun e he tokens htokens hhead => ?_
  by_cases hplain : PlainName e.1
  · rw [pointerTokens_plain hplain] at htokens
    cases htokens
    have hname : e.1 = key := by simpa using hhead
    exact hkey (hname ▸ hplain)
  · have hlt := length_lt_of_pointer htokens hhead hkey
    have hle := hlongest e he hplain
    omega

theorem exists_longest {patches : Map} (h : ∃ e ∈ patches, ¬ PlainName e.1) :
    ∃ e ∈ patches, ¬ PlainName e.1 ∧ ∀ e' ∈ patches, ¬ PlainName e'.1 → e'.1.length ≤ e.1.length := by
  classical
  obtain ⟨e, he, hplain⟩ := h
  have hsome : (patches.filter fun e => ¬ PlainName e.1) ≠ [] :=
    List.ne_nil_of_mem (List.mem_filter.2 ⟨he, by simpa using hplain⟩)
  obtain ⟨longest, hlongest⟩ : ∃ longest, longest ∈ (patches.filter fun e =>
    ¬ PlainName e.1).argmax fun e => e.1.length :=
    Option.ne_none_iff_exists'.1 fun hnone => hsome (List.argmax_eq_none.1 hnone)
  have hmem := List.mem_filter.1 (List.argmax_mem hlongest)
  refine ⟨longest, hmem.1, by simpa using hmem.2, fun e' he' hplain' => ?_⟩
  have hin : e' ∈ patches.filter fun e => ¬ PlainName e.1 := List.mem_filter.2 ⟨he', by simpa using hplain'⟩
  exact @List.le_of_mem_argmax _ _ _ (fun e : String × Value => e.1.length) _ _ _ hin hlongest

/-! ### The override of one instance -/

theorem ordered_override {patch : Value} (h : Json.Ordered (.object event))
    (hpatch : overrideOf event rid = some patch) :
    Json.Ordered patch := by
  obtain ⟨patches, hpatches, hmember⟩ := Option.bind_eq_some_iff.1 hpatch
  cases patches with
  | scalar s => cases hmember
  | array values => cases hmember
  | object patches => exact (h.of_get hpatches).of_get hmember

/-- What an override writes out is not marked as left out, if the override is not. -/
theorem not_excluded_whole (hchanges : Json.Ordered (.object changes)) (h : ¬ excluded changes) :
    ¬ excluded (wholeInstance base rid changes) := by
  intro hwhole
  unfold excluded at hwhole
  rw [get_wholeInstance (by decide), if_pos (by decide)] at hwhole
  rcases (acts_effect (changesOf changes) "excluded").scalar _ _ hwhole with hnone | ⟨e, he,
    hpointer, hvalue, -⟩
  · cases hnone
  · have hname : e.1 = "excluded" := eq_of_pointer ⟨by decide, by decide⟩ hpointer
    refine h ?_
    have hthere := @Map.Increasing.get_of_mem _ e.1 e.2 hchanges.increasing (List.mem_of_mem_filter he)
    rw [hname, hvalue] at hthere
    exact hthere

/-- **The instance that is read back**: the series, and what was kept of the whole instance. -/
theorem instanceOf_trimmed (h : Json.Ordered (.object event))
    (hpatch : overrideOf event rid = some (.object changes))
    (hexcluded : ¬ excluded changes) : instanceOf (trimOverrides (materializeOverrides event)) rid =
      some ((kept (materializeOverrides event) rid (wholeInstance event rid changes)).foldl applyLoosely
        (seriesObject event rid)) := by
  have hchanges := ordered_override h hpatch
  have hwhole := @not_excluded_whole event changes rid hchanges hexcluded
  have hordered := @ordered_wholeInstance event changes rid h hchanges
  have hstored : overrideOf (trimOverrides (materializeOverrides event)) rid = some (.object
      ((wholeInstance event rid changes).filter (differs (materializeOverrides event) rid))) := by
    unfold trimOverrides
    rw [overrideOf_overrides]
    unfold materializeOverrides
    rw [overrideOf_overrides, hpatch, Option.map_some, Option.map_some, materializePatch,
      if_neg hexcluded, trimPatch,
      if_neg hwhole]
  rw [instanceOf_object hstored, if_neg]
  · unfold trimOverrides
    rw [seriesObject_overrides]
    unfold materializeOverrides
    rw [seriesObject_overrides]
    rfl
  · intro htrimmed
    refine hwhole ?_
    unfold excluded at htrimmed ⊢
    rw [hordered.increasing.get_filter] at htrimmed
    exact (Option.filter_eq_some_iff.1 htrimmed).1

/-- What was kept of a property is what the override made of it. -/
theorem after_of_kept {value : Value} (hwhole : (wholeInstance event rid changes).Increasing)
    (h : Map.get (kept base rid (wholeInstance event rid changes)) key = some value) :
    key ≠ "iCalendar" ∧ differs base rid (key, value) = true ∧
      Map.get (wholeInstance event rid changes) key = some value ∧
        effect (changesOf changes) key (Map.get (seriesObject event rid) key) = some value := by
  rw [get_kept hwhole] at h
  by_cases hkey : key = "iCalendar"
  · rw [if_pos hkey] at h
    cases h
  · rw [if_neg hkey] at h
    obtain ⟨hget, hdiffers⟩ := Option.filter_eq_some_iff.1 h
    refine ⟨hkey, hdiffers, hget, ?_⟩
    rw [get_wholeInstance hkey] at hget
    split at hget
    next => exact effect_of_none hget
    next => exact hget

/-- Patches put no `null` into a property. -/
theorem isNull_of_effect {value : Value} {held : Option Value}
    (h : effect (changesOf changes) key held = some value) (hnull : value.isNull = true) :
        held = some value := by
  obtain rfl : value = .scalar .null := of_decide_eq_true hnull
  rcases (acts_effect (changesOf changes) key).scalar _ _ h with hheld | ⟨e, -, -, hvalue, hnot⟩
  · exact hheld
  · rw [hvalue] at hnot
    exact absurd hnot (by decide)

/-- A property with a name that is not plain is kept only if the override changes it. -/
theorem changed_of_kept {value : Value} (hwhole : (wholeInstance event rid changes).Increasing)
    (h : Map.get (kept (materializeOverrides event) rid (wholeInstance event rid changes)) key = some value)
    (hkey : ¬ PlainName key) :
    nonNull (effect (changesOf changes) key (Map.get (seriesObject event rid) key)) ≠
      nonNull (Map.get (seriesObject event rid) key) := by
  obtain ⟨hical, hdiffers, -, hafter⟩ := after_of_kept hwhole h
  have hplain : ∀ name ∈ "start" :: notInOverrides, PlainName name := by
    unfold PlainName
    decide
  have hin : key ∉ notInOverrides := fun hin => hkey (hplain key (List.mem_cons_of_mem _ hin))
  have hstart : key ≠ "start" := fun heq => hkey (heq ▸ hplain "start" List.mem_cons_self)
  have hover : key ≠ "recurrenceOverrides" := fun heq => hin (heq ▸ by decide)
  have hseries : Map.get (seriesObject event rid) key = Map.get event key := by
    rw [get_seriesObject hin, if_neg hstart]
  have hother : Map.get (seriesObject event rid) key ≠ some value := by
    unfold differs at hdiffers
    simp only [hical, hstart, if_false] at hdiffers
    rw [hseries, ← @get_overrides event key materializePatch hover]
    exact of_decide_eq_true hdiffers
  intro hsame
  cases hnull : value.isNull with
  | true => exact hother (isNull_of_effect hafter hnull)
  | false =>
    rw [hafter, nonNull, Option.filter_some, hnull] at hsame
    exact hother (Option.filter_eq_some_iff.1 hsame.symm).1

/-- The overrides of an event are not a part of one of them. -/
theorem overrides_outside {value : Value} (hpatch : overrideOf event rid = some (.object changes))
    (hexcluded : ¬ excluded changes)
    (h : Map.get (wholeInstance event rid changes) "recurrenceOverrides" = some value) :
    Map.get (materializeOverrides event) "recurrenceOverrides" ≠ some value := by
  obtain ⟨patches, hpatches, hmember⟩ := Option.bind_eq_some_iff.1 hpatch
  cases patches with
  | scalar s => cases hmember
  | array values => cases hmember
  | object patches =>
    have hstored : Map.get (materializeOverrides event) "recurrenceOverrides" =
        some (.object (patches.map fun e => (e.1, materializePatch event e.1 e.2))) := by
      rw [materializeOverrides, overrides, hpatches, Map.get_insert, if_pos rfl]
    have hwritten : Map.get (patches.map fun e => (e.1, materializePatch event e.1 e.2)) rid =
        some (.object (wholeInstance event rid changes)) := by
      have hmember' : Map.get patches rid = some (.object changes) := hmember
      rw [Map.get_map_value, hmember', Option.map_some, materializePatch, if_neg hexcluded]
    intro hsame
    rw [hstored, Option.some.injEq] at hsame
    have hsmall := (sizeOf_lt_of_get h).trans (sizeOf_lt_of_get hwritten)
    rw [hsame] at hsmall
    exact lt_irrefl _ hsmall

/-- What the override changes is kept, and has a plain name: that is what it takes. -/
theorem storable_iff (h : Json.Ordered (.object event))
    (hpatch : overrideOf event rid = some (.object changes))
    (hexcluded : ¬ excluded changes) :
    Storable event rid ↔
      (∀ e ∈ kept (materializeOverrides event) rid (wholeInstance event rid changes), PlainName e.1) ∧
        ∀ key, Map.get (kept (materializeOverrides event) rid (wholeInstance event rid changes)) key = none →
          nonNull (effect (changesOf changes) key (Map.get (seriesObject event rid) key)) =
            nonNull (Map.get (seriesObject event rid) key) := by
  have hwhole := (@ordered_wholeInstance event changes rid h (ordered_override h hpatch)).increasing
  have hkept := fun (e : String × Value) he => @Map.Increasing.get_of_mem
    (kept (materializeOverrides event) rid (wholeInstance event rid changes)) e.1 e.2
      ((hwhole.filter _).filter _) he
  constructor
  · intro hstorable
    refine ⟨fun e he => ?_, fun key hnone => ?_⟩
    · by_contra hplain
      exact hplain (hstorable changes hpatch hexcluded e.1 (changed_of_kept hwhole (hkept e he) hplain)).1
    · by_contra hchanged
      obtain ⟨hplain, hthere, hseries⟩ := hstorable changes hpatch hexcluded key hchanged
      obtain ⟨value, hvalue⟩ := Option.ne_none_iff_exists'.1 hthere
      by_cases hical : key = "iCalendar"
      · -- nothing but the property itself is left out of the changes
        subst hical
        rw [get_seriesObject_iCalendar, (acts_effect (changesOf changes) "iCalendar").inside] at hvalue
        · cases hvalue
        · intro e he hpointer
          have hname := eq_of_pointer hplain hpointer
          have hin := (List.mem_filter.1 he).2
          rw [hname] at hin
          exact absurd hin (by decide)
      · have hget : Map.get (wholeInstance event rid changes) key = some value := by
          rw [get_wholeInstance hical]
          split
          next hin => rw [(hseries hin).1, hvalue]
          next => exact hvalue
        rw [get_kept hwhole, if_neg hical, hget, Option.filter_some] at hnone
        have hrepeats : ¬ differs (materializeOverrides event) rid (key, value) = true := fun heq => by
          rw [heq] at hnone
          cases hnone
        simp only [differs, if_neg hical] at hrepeats
        by_cases hstart : key = "start"
        · rw [if_pos hstart, decide_eq_true_eq, not_not] at hrepeats
          refine hchanged ?_
          rw [hvalue, hrepeats, hstart, get_seriesObject (by decide), if_pos rfl]
        · rw [if_neg hstart, decide_eq_true_eq, not_not] at hrepeats
          by_cases hover : key = "recurrenceOverrides"
          · subst hover
            exact overrides_outside hpatch hexcluded hget hrepeats
          · rw [materializeOverrides, get_overrides hover] at hrepeats
            by_cases hin : key ∈ notInOverrides
            · exact (hseries hin).2 hover (hrepeats.trans hvalue.symm)
            · refine hchanged ?_
              rw [hvalue, get_seriesObject hin, if_neg hstart, hrepeats]
  · rintro ⟨hplain, hsame⟩ changes' hpatch' - key before after hchanged
    obtain rfl : changes = changes' := by
      rw [hpatch] at hpatch'
      cases hpatch'
      rfl
    obtain ⟨value, hvalue⟩ := Option.ne_none_iff_exists'.1 fun hnone => hchanged (hsame key hnone)
    obtain ⟨hical, hdiffers, hget, hafter⟩ := after_of_kept hwhole hvalue
    have hafter : after = some value := hafter
    refine ⟨hplain _ (Map.mem_of_get hvalue), by rw [hafter]; simp, fun hin => ⟨?_, fun hover => ?_⟩⟩
    · rw [get_wholeInstance hical, if_pos hin] at hget
      rw [hafter, hget]
    · have hstart : key ≠ "start" := fun heq => absurd (heq ▸ hin) (by decide)
      simp only [differs, hical, hstart, if_false] at hdiffers
      rw [hafter, ← @get_overrides event key materializePatch hover]
      exact of_decide_eq_true hdiffers

/-- **Overrides in storage.**  The instance that is read back has the properties of the instance
that was stored just when the stored form can hold the override. -/
theorem overrides_survive (h : Json.Ordered (.object event)) (rid : String) :
    SameProperties (instanceOf (trimOverrides (materializeOverrides event)) rid) (instanceOf event rid) ↔
      Storable event rid := by
  by_cases hobject : ∃ changes, overrideOf event rid = some (.object changes)
  · obtain ⟨changes, hpatch⟩ := hobject
    by_cases hexcluded : excluded changes
    · -- an instance that is left out stays left out
      have hstored : overrideOf (trimOverrides (materializeOverrides event)) rid =
          some (.object [("excluded", .scalar (.bool true))]) := by
        unfold trimOverrides
        rw [overrideOf_overrides]
        unfold materializeOverrides
        rw [overrideOf_overrides, hpatch, Option.map_some, Option.map_some, materializePatch,
          if_pos hexcluded,
          trimPatch, if_pos (by decide)]
      rw [instanceOf_object hstored, if_pos (by decide), instanceOf_object hpatch, if_pos hexcluded]
      refine iff_of_true trivial fun changes' hpatch' hnot => ?_
      rw [hpatch] at hpatch'
      cases hpatch'
      exact absurd hexcluded hnot
    · have hwhole := (@ordered_wholeInstance event changes rid h (ordered_override h hpatch)).increasing
      rw [instanceOf_trimmed h hpatch hexcluded, instanceOf_object hpatch, if_neg hexcluded,
        storable_iff h hpatch hexcluded]
      have hthen : ∀ key, present ((changesOf changes).foldl applyLoosely (seriesObject event rid)) key =
          nonNull (effect (changesOf changes) key (Map.get (seriesObject event rid) key)) := fun key => by
        rw [present, (acts_effect (changesOf changes) key).get]
        rfl
      constructor
      · intro hsame
        have hplain : ∀ e ∈ kept (materializeOverrides event) rid (wholeInstance event rid changes),
            PlainName e.1 := by
          by_contra hno
          push Not at hno
          obtain ⟨e, he, hname, hlongest⟩ := exists_longest hno
          have hvalue := @Map.Increasing.get_of_mem _ e.1 e.2 ((hwhole.filter _).filter _) he
          refine changed_of_kept hwhole hvalue hname ?_
          rw [← hthen, ← hsame e.1, present, get_kept_longest hname hlongest]
          rfl
        refine ⟨hplain, fun key hnone => ?_⟩
        rw [← hthen, ← hsame key, present, get_kept_applied hwhole hplain, hnone]
        rfl
      · rintro ⟨hplain, hunchanged⟩ key
        rw [hthen, present, get_kept_applied hwhole hplain]
        cases hvalue : Map.get (kept (materializeOverrides event) rid (wholeInstance event rid changes)) key with
        | none => exact (hunchanged key hvalue).symm
        | some value =>
          rw [(after_of_kept hwhole hvalue).2.2.2]
          cases hnull : value.isNull with
          | true => simp [nonNull, Option.filter_some, hnull]
          | false => simp [nonNull, Option.filter_some, hnull]
  · push Not at hobject
    have hstored : ∀ changes, overrideOf (trimOverrides (materializeOverrides event))
        rid ≠ some (.object changes) := by
      intro changes
      unfold trimOverrides
      rw [overrideOf_overrides]
      unfold materializeOverrides
      rw [overrideOf_overrides]
      cases hpatch : overrideOf event rid with
      | none => simp
      | some patch =>
        cases patch with
        | scalar s => simp [materializePatch, trimPatch]
        | array values => simp [materializePatch, trimPatch]
        | object changes => exact absurd hpatch (hobject changes)
    rw [instanceOf_other hstored, instanceOf_other hobject, trimOverrides, seriesObject_overrides,
      materializeOverrides, seriesObject_overrides]
    refine iff_of_true (fun _ => rfl) fun changes hpatch => absurd hpatch (hobject changes)

end

/-- A series; one instance takes the place away, one changes the title. -/
def yoga : Map :=
  [("location", .string "Hall"),
    ("recurrenceOverrides", .object [("2026-10-27T09:00:00", .object [("location", .null)]),
      ("2026-11-03T09:00:00", .object [("title", .string "Outdoors")])]),
    ("title", .string "Yoga")]

theorem ordered_yoga : Json.Ordered (.object yoga) := by
  have hone : ∀ name s, Json.Ordered (.object [(name, .scalar s)]) := fun name s => by
    refine .object (List.pairwise_singleton _ _) fun e he => ?_
    rw [List.mem_singleton.1 he]
    exact .scalar _
  refine .object (by unfold Map.Increasing yoga; decide) ?_
  simp only [yoga, List.mem_cons, List.not_mem_nil, or_false]
  rintro e (rfl | rfl | rfl)
  · exact .scalar _
  · refine .object (by unfold Map.Increasing; decide) ?_
    simp only [List.mem_cons, List.not_mem_nil, or_false]
    rintro e (rfl | rfl)
    · exact hone _ _
    · exact hone _ _
  · exact .scalar _

theorem storable_yoga : Storable yoga "2026-11-03T09:00:00" := by
  intro changes hpatch _ key before after hchanged
  have hoverride : overrideOf yoga "2026-11-03T09:00:00" =
      some (.object [("title", .string "Outdoors")]) := by
    decide
  obtain rfl : [("title", Value.string "Outdoors")] = changes := by
    rw [hoverride] at hpatch
    cases hpatch
    rfl
  have htitle : PlainName "title" := by
    unfold PlainName
    decide
  have hafter : after = Map.get (applyLoosely (put [] key before) ("title", .string "Outdoors")) key := rfl
  by_cases hkey : key = "title"
  · subst hkey
    rw [get_applyLoosely_plain htitle] at hafter
    exact ⟨htitle, by rw [hafter]; decide, fun hin => absurd hin (by decide)⟩
  · refine absurd (congrArg nonNull ?_) hchanged
    rw [hafter, get_applyLoosely, get_put, if_pos rfl]
    intro tokens htokens hhead
    rw [pointerTokens_plain htitle] at htokens
    cases htokens
    exact hkey (by simpa using hhead.symm)

/-- The title comes back. -/
theorem override_survives_yoga : SameProperties
    (instanceOf (trimOverrides (materializeOverrides yoga)) "2026-11-03T09:00:00")
      (instanceOf yoga "2026-11-03T09:00:00") :=
  (overrides_survive ordered_yoga "2026-11-03T09:00:00").2 storable_yoga

theorem SameProperties.bind_present {object object' : Option Map}
    (h : SameProperties object object') (key : String) :
    (object.bind fun object => present object key) = object'.bind fun object => present object key := by
  cases object with
  | none =>
    cases object' with
    | none => rfl
    | some object' => exact absurd h id
  | some object =>
    cases object' with
    | none => exact absurd h id
    | some object' => exact h key

/-- The place that an instance took away comes back from the series. -/
theorem removal_is_lost : Json.Ordered (.object yoga) ∧
    ¬ SameProperties (instanceOf (trimOverrides (materializeOverrides yoga)) "2026-10-27T09:00:00")
      (instanceOf yoga "2026-10-27T09:00:00") := by
  refine ⟨ordered_yoga, fun h => ?_⟩
  have hplace := h.bind_present "location"
  have hstored : ((instanceOf (trimOverrides (materializeOverrides yoga)) "2026-10-27T09:00:00").bind
      fun object => present object "location") = some (.string "Hall") := by decide
  have hthen : ((instanceOf yoga "2026-10-27T09:00:00").bind fun object => present object "location") = none := by
    decide
  rw [hstored, hthen] at hplace
  cases hplace

end UwuMail.Jscal
