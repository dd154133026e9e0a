/-
# One instance of a series

An event that recurs is stored once.  What differs for one instance is an OVERRIDE: JSON pointers
with the values to set there, stored in the series under the instance's recurrence id (`jscal.rs`).
`instance` puts an instance together from the series and its override, `override_for` finds the
override that makes a changed instance out of the series.

The two do not speak of names in the same way.  `override_for` stores the names of properties AS
THEY ARE; `instance` reads them as pointers, where `/` separates and `~` escapes.

* §3 shows that names without the two characters come back, with every value.
* §4 shows that others do not: of the properties with such a name that differ, the one with the
  longest name is not reached by any patch, since a pointer to it is longer still.
-/
import UwuMail.Lib.Json
import UwuMail.Lib.SortedSet

namespace UwuMail.Jscal

open Json

/-! ## 1. Instances and overrides -/

def jmapProperties : List String :=
  ["id", "baseEventId", "calendarIds", "isDraft", "isOrigin", "utcStart", "utcEnd", "blobId"]

/-- Properties an instance does not take over from its series when an override is written out
whole. -/
def notInOverrides : List String :=
  ["@type", "timeZones", "uid", "method", "prodId", "privacy", "organizerCalendarAddress", "sentBy",
    "recurrenceId", "recurrenceIdTimeZone", "recurrenceRule", "recurrenceOverrides", "excluded", "iCalendar"]

/-- One token of a pointer. -/
def unescape : List Char → Option (List Char)
  | [] => some []
  | '~' :: '0' :: rest => (unescape rest).map ('~' :: ·)
  | '~' :: '1' :: rest => (unescape rest).map ('/' :: ·)
  | '~' :: _ => none
  | c :: rest => (unescape rest).map (c :: ·)

/-- Splits a JSON pointer without leading slash into its tokens. -/
def pointerTokens (path : String) : Option (List String) :=
  (path.toList.splitOn '/').mapM fun token => (unescape token).map String.ofList

/-- The walk through the parents, which have to be objects, and the change at the end of it. -/
def patchAt (value : Value) (last : String) : Map → List String → Option Map
  | current, [] => some (if value.isNull then current.remove last else current.insert last value)
  | current, token :: parents =>
    match current.get token with
    | some (.object inner) =>
      (patchAt value last inner parents).map fun inner => current.insert token (.object inner)
    | _ => none

/-- Sets (or with `null` removes) the value a pointer names. -/
def applyPatch (target : Map) (path : String) (value : Value) : Except String Map :=
  match pointerTokens path with
  | none => .error s!"{path} is not a valid pointer"
  | some tokens =>
    match tokens.getLast? with
    | none => .error "an empty pointer"
    | some last =>
      match patchAt value last target tokens.dropLast with
      | some target => .ok target
      | none => .error s!"{path} points into something that is not an object"

/-- A patch that does not fit is left out. -/
def applyLoosely (target : Map) (entry : String × Value) : Map :=
  match applyPatch target entry.1 entry.2 with
  | .ok target => target
  | .error _ => target

/-- `Value::get` -/
def member (value : Value) (key : String) : Option Value :=
  match value with
  | .object members => Map.get members key
  | _ => none

/-- The series as an instance has it, before its own changes. -/
def seriesObject (event : Map) (rid : String) : Map :=
  let object : Map := event.filter fun e => e.1 != "iCalendar" && e.1 != "recurrenceOverrides"
  let object := object.insert "recurrenceRule" .null
  let object := object.insert "recurrenceOverrides" .null
  let object := object.insert "recurrenceId" (.string rid)
  let object := match Map.get event "timeZone" with
    | some (.scalar (.string zone)) => object.insert "recurrenceIdTimeZone" (.string zone)
    | _ => object
  object.insert "start" (.string rid)

/-- `instance`: the series with the instance's changes applied, no rule of its own. -/
def instanceOf (event : Map) (rid : String) : Option Map :=
  let patch := (Map.get event "recurrenceOverrides").bind fun overrides => member overrides rid
  if patch.any fun patch => member patch "excluded" = some (.scalar (.bool true)) then none
  else
    match patch with
    | some (.object patch) =>
      some ((patch.filter fun e => e.1 != "iCalendar").foldl applyLoosely (seriesObject event rid))
    | _ => some (seriesObject event rid)

def withoutOverride (event : Map) (rid : String) : Map :=
  match Map.get event "recurrenceOverrides" with
  | some (.object overrides) => Map.insert event "recurrenceOverrides" (.object (Map.remove overrides rid))
  | _ => event

/-- The patch of one property, where it differs. -/
def overrideEntry (plain changed : Map) (patch : Map) (key : String) : Map :=
  if key ∈ jmapProperties ∨ key ∈ notInOverrides then patch
  else if plain.get key = changed.get key then patch
  else
    match changed.get key with
    | some value => patch.insert key value
    | none => patch.insert key .null

/-- What an instance changes compared with its series, property by property, as the override to
store for it. -/
def overrideFor (event : Map) (rid : String) (changed : Map) : Map :=
  let plain := (instanceOf (withoutOverride event rid) rid).getD []
  let keys := SortedSet.ofList (plain.map (·.1) ++ changed.map (·.1))
  keys.elems.foldl (overrideEntry plain changed) []

/-- What `change_series` stores. -/
def store (event : Map) (rid : String) (patch : Map) : Map :=
  let overrides := match Map.get event "recurrenceOverrides" with
    | some (.object overrides) => overrides
    | _ => []
  event.insert "recurrenceOverrides" (.object (Map.insert overrides rid (.object patch)))

/-! ## 2. What patches do -/

/-- A name without the two characters pointers have a use for. -/
def PlainName (key : String) : Prop := '/' ∉ key.toList ∧ '~' ∉ key.toList

/-- A property that may differ for one instance. -/
def Overridable (key : String) : Prop := key ∉ jmapProperties ∧ key ∉ notInOverrides

/-- The property of an object, `null` being none. -/
def present (object : Map) (key : String) : Option Value := (Map.get object key).filter fun value =>
    !value.isNull

theorem unescape_plain : ∀ {token : List Char}, '~' ∉ token → unescape token = some token
  | [], _ => rfl
  | c :: token, h => by
    have hc : c ≠ '~' := fun heq => h (heq ▸ List.mem_cons_self)
    have ih := unescape_plain (fun hmem => h (List.mem_cons_of_mem c hmem))
    unfold unescape
    split
    next heq => cases heq
    next heq => cases heq; exact absurd rfl hc
    next heq => cases heq; exact absurd rfl hc
    next heq => cases heq; exact absurd rfl hc
    next heq =>
      cases heq
      rw [ih]
      rfl

/-- A plain name is a pointer to itself. -/
theorem pointerTokens_plain {key : String} (h : PlainName key) : pointerTokens key = some [key] := by
  rw [pointerTokens, List.splitOn_eq_singleton h.1, List.mapM_cons, unescape_plain h.2]
  simp

/-- What a token stands for is not longer, and shorter where it has one of the two characters. -/
theorem length_unescape : ∀ {token out : List Char}, unescape token = some out →
    out.length ≤ token.length ∧ ('/' ∉ token → ('/' ∈ out ∨ '~' ∈ out) → out.length < token.length) := by
  intro token
  induction token using unescape.induct with
  | case1 =>
    intro out h
    cases h
    exact ⟨le_rfl, fun _ h => by simp at h⟩
  | case2 rest ih =>
    intro out h
    obtain ⟨out', h', rfl⟩ := Option.map_eq_some_iff.1 h
    have := (ih h').1
    simp only [List.length_cons]
    omega
  | case3 rest ih =>
    intro out h
    obtain ⟨out', h', rfl⟩ := Option.map_eq_some_iff.1 h
    have := (ih h').1
    simp only [List.length_cons]
    omega
  | case4 rest h0 h1 =>
    intro out h
    rw [unescape] at h
    · cases h
    · exact h0
    · exact h1
  | case5 c rest h0 h1 h2 ih =>
    intro out h
    rw [unescape] at h
    · obtain ⟨out', h', rfl⟩ := Option.map_eq_some_iff.1 h
      obtain ⟨hle, hlt⟩ := ih h'
      refine ⟨by simpa using hle, fun hslash hbad => ?_⟩
      have hc : c ≠ '/' := fun heq => hslash (heq ▸ List.mem_cons_self)
      have hbad' : '/' ∈ out' ∨ '~' ∈ out' := by
        rcases hbad with hbad | hbad
        · exact .inl ((List.mem_cons.1 hbad).resolve_left fun heq => hc heq.symm)
        · exact .inr ((List.mem_cons.1 hbad).resolve_left fun heq => h2 heq.symm)
      have := hlt (fun hmem => hslash (List.mem_cons_of_mem _ hmem)) hbad'
      simp only [List.length_cons]
      omega
    · exact h0
    · exact h1
    · exact h2

theorem head_splitOn (c : Char) : ∀ text : List Char, (text.splitOn c).head? = some (text.takeWhile (· != c))
  | [] => rfl
  | d :: text => by
    have ih := head_splitOn c text
    rw [List.splitOn_eq_splitOnP, List.splitOnP_cons_eq_if_modifyHead]
    rw [List.splitOn_eq_splitOnP] at ih
    by_cases h : d = c
    · simp [h]
    · simp [h, ih]

/-- **A pointer into a property of such a name is longer than the name.** -/
theorem length_lt_of_pointer {path key : String} {tokens : List String} (h : pointerTokens path = some tokens)
    (hhead : tokens.head? = some key) (hkey : ¬ PlainName key) : key.length < path.length := by
  obtain ⟨segments, hsegments⟩ : ∃ segments, segments = path.toList.splitOn '/' := ⟨_, rfl⟩
  have hfirst : segments.head? = some (path.toList.takeWhile (· != '/')) := by
    rw [hsegments]
    exact head_splitOn '/' _
  rw [pointerTokens, ← hsegments] at h
  cases segments with
  | nil => cases hfirst
  | cons segment segments =>
    cases hfirst
    simp only [List.mapM_cons, Option.bind_eq_bind, Option.bind_eq_some_iff, Option.pure_def,
      Option.some.injEq] at h
    obtain ⟨first, hunescape, rest, -, rfl⟩ := h
    obtain ⟨out, hout, rfl⟩ := Option.map_eq_some_iff.1 hunescape
    cases hhead
    have hslash : '/' ∉ path.toList.takeWhile (· != '/') := by
      intro hmem
      simpa using List.mem_takeWhile_imp hmem
    have hbad : '/' ∈ out ∨ '~' ∈ out := by
      by_contra hno
      rw [not_or] at hno
      exact hkey ⟨by simpa using hno.1, by simpa using hno.2⟩
    have hlt := (length_unescape hout).2 hslash hbad
    have hle : (path.toList.takeWhile (· != '/')).length ≤ path.toList.length :=
      (List.takeWhile_prefix _).length_le
    have hpath : path.toList.length = path.length := String.length_toList
    rw [String.length_ofList]
    omega

section
variable {target current : Map} {path key last : String} {value : Value} {patch : Map}

/-- A walk changes the property it begins with and no other. -/
theorem get_patchAt {current' : Map} : ∀ {parents : List String},
    patchAt value last current parents = some current' →
    (parents ++ [last]).head? ≠ some key → Map.get current' key = Map.get current key
  | [], h, hne => by
    have hkey : ¬ last = key := fun heq => hne (by rw [heq]; rfl)
    cases h
    split
    · rw [Map.get_remove, if_neg hkey]
    · rw [Map.get_insert, if_neg hkey]
  | token :: parents, h, hne => by
    have hkey : ¬ token = key := fun heq => hne (by rw [heq]; rfl)
    unfold patchAt at h
    split at h
    next inner hinner =>
      obtain ⟨inner', -, rfl⟩ := Option.map_eq_some_iff.1 h
      rw [Map.get_insert, if_neg hkey]
    next => cases h

/-- **A patch leaves the properties alone that its pointer does not begin with.** -/
theorem get_applyLoosely {entry : String × Value}
    (h : ∀ tokens, pointerTokens entry.1 = some tokens → tokens.head? ≠ some key) :
    Map.get (applyLoosely target entry) key = Map.get target key := by
  unfold applyLoosely
  split
  next target' hok =>
    unfold applyPatch at hok
    split at hok
    next => cases hok
    next tokens htokens =>
      split at hok
      next => cases hok
      next last hlast =>
        split at hok
        next target'' hpatch =>
          cases hok
          refine get_patchAt hpatch ?_
          rw [List.dropLast_append_getLast? last hlast]
          exact h tokens htokens
        next => cases hok
  next => rfl

/-- A plain name sets its property, or takes it away. -/
theorem get_applyLoosely_plain (h : PlainName key) :
    Map.get (applyLoosely target (key, value)) key = if value.isNull then none else some value := by
  simp only [applyLoosely, applyPatch, pointerTokens_plain h, List.getLast?_singleton,
    List.dropLast_singleton, patchAt]
  split
  · rw [Map.get_remove, if_pos rfl]
  · rw [Map.get_insert, if_pos rfl]

theorem get_foldl_applyLoosely {entries : Map}
    (h : ∀ e ∈ entries, ∀ tokens, pointerTokens e.1 = some tokens → tokens.head? ≠ some key) :
    Map.get (entries.foldl applyLoosely target) key = Map.get target key := by
  induction entries generalizing target with
  | nil => rfl
  | cons e entries ih =>
    rw [List.foldl_cons, ih fun e' he' => h e' (List.mem_cons_of_mem _ he')]
    exact get_applyLoosely (h e List.mem_cons_self)

/-- **A row of patches with plain names** leaves a property at what the patches of its name say. -/
theorem get_foldl_plain {entries : Map} (hplain : ∀ e ∈ entries, PlainName e.1) {e : String × Value}
    (he : e ∈ entries) (hsame : ∀ e' ∈ entries, e'.1 = e.1 → e'.2 = e.2) :
    Map.get (entries.foldl applyLoosely target) e.1 = if e.2.isNull then none else some e.2 := by
  induction entries generalizing target with
  | nil => cases he
  | cons e₀ entries ih =>
    rw [List.foldl_cons]
    by_cases hmore : ∃ e' ∈ entries, e'.1 = e.1
    · obtain ⟨e', he', hkey⟩ := hmore
      have heq : e' = e := Prod.ext hkey (hsame e' (List.mem_cons_of_mem _ he') hkey)
      exact ih (fun e' he' => hplain e' (List.mem_cons_of_mem _ he')) (heq ▸ he')
        fun e' he' => hsame e' (List.mem_cons_of_mem _ he')
    · -- it is the last one of its name
      have hfirst : e₀ = e := by
        rcases List.mem_cons.1 he with rfl | he
        · rfl
        · exact absurd ⟨e, he, rfl⟩ hmore
      rw [get_foldl_applyLoosely, hfirst]
      · exact get_applyLoosely_plain (hplain e he)
      · intro e' he' tokens htokens hhead
        rw [pointerTokens_plain (hplain e' (List.mem_cons_of_mem _ he'))] at htokens
        cases htokens
        exact hmore ⟨e', he', by simpa using hhead⟩

end

/-! ### The override and the instance -/

section
variable {event changed : Map} {rid key : String} {patch : Map}

theorem timeZone_insert {value : Value} : seriesObject (Map.insert event "recurrenceOverrides" value) rid =
    seriesObject event rid := by
  have hfilter : (Map.insert event "recurrenceOverrides" value).filter
      (fun e => e.1 != "iCalendar" && e.1 != "recurrenceOverrides") =
        event.filter (fun e => e.1 != "iCalendar" && e.1 != "recurrenceOverrides") :=
    Map.filter_insert (p := fun key => key != "iCalendar" && key != "recurrenceOverrides") (by decide)
  unfold seriesObject
  rw [hfilter, Map.get_insert, if_neg (by decide)]

/-- Without its override, an instance is what it has of the series. -/
theorem instanceOf_withoutOverride : instanceOf (withoutOverride event rid) rid =
    some (seriesObject event rid) := by
  unfold withoutOverride
  split
  next overrides hoverrides =>
    rw [instanceOf, Map.get_insert, if_pos rfl]
    simp [member, Map.get_remove, timeZone_insert]
  next hnone =>
    have hno : (Map.get event "recurrenceOverrides").bind (fun overrides => member overrides rid) = none := by
      cases hget : Map.get event "recurrenceOverrides" with
      | none => rfl
      | some value =>
        cases value with
        | object overrides => exact absurd hget (hnone overrides)
        | scalar s => rfl
        | array values => rfl
    rw [instanceOf, hno]
    rfl

theorem instanceOf_store (h : Map.get patch "excluded" = none) : instanceOf (store event rid patch) rid =
    some ((patch.filter fun e => e.1 != "iCalendar").foldl applyLoosely (seriesObject event rid)) := by
  rw [instanceOf, store, Map.get_insert, if_pos rfl]
  simp only [Option.bind_some, member, Map.get_insert, if_true, timeZone_insert]
  simp [h]

/-- The changed instance has another value there than the series. -/
def Differs (event : Map) (rid : String) (changed : Map) (key : String) : Prop :=
  Overridable key ∧ Map.get (seriesObject event rid) key ≠ Map.get changed key

variable {plain : Map} {e : String × Value} {keys : List String}

/-- One turn of the loop over the names: nothing, or the patch of the name. -/
theorem overrideEntry_cases (plain changed patch : Map) (key : String) :
    (¬ (Overridable key ∧ Map.get plain key ≠ Map.get changed key) ∧
      overrideEntry plain changed patch key = patch) ∨
      (Overridable key ∧ Map.get plain key ≠ Map.get changed key) ∧
        overrideEntry plain changed patch key = Map.insert patch key ((Map.get changed key).getD .null) := by
  unfold overrideEntry Overridable
  split
  next hlist =>
    left
    exact ⟨fun h => hlist.elim h.1.1 h.1.2, rfl⟩
  next hlist =>
    rw [not_or] at hlist
    split
    next hsame =>
      left
      exact ⟨fun h => h.2 hsame, rfl⟩
    next hdiffer =>
      right
      refine ⟨⟨hlist, hdiffer⟩, ?_⟩
      split
      next value hvalue =>
        rw [hvalue]
        rfl
      next hnone =>
        rw [hnone]
        rfl

theorem mem_foldl_overrideEntry (h : e ∈ keys.foldl (overrideEntry plain changed) patch) :
    e ∈ patch ∨ (Overridable e.1 ∧ Map.get plain e.1 ≠ Map.get changed e.1) ∧
      e.2 = (Map.get changed e.1).getD .null := by
  induction keys generalizing patch with
  | nil => exact .inl h
  | cons key keys ih =>
    rcases ih h with h | h
    · rcases overrideEntry_cases plain changed patch key with ⟨-, heq⟩ | ⟨hdiffers, heq⟩
      · rw [heq] at h
        exact .inl h
      · rw [heq] at h
        rcases Map.mem_of_mem_insert h with rfl | h
        · exact .inr ⟨hdiffers, rfl⟩
        · exact .inl h
    · exact .inr h

theorem foldl_overrideEntry_keeps (h : ∃ e ∈ patch, e.1 = key) :
    ∃ e ∈ keys.foldl (overrideEntry plain changed) patch, e.1 = key := by
  induction keys generalizing patch with
  | nil => exact h
  | cons key' keys ih =>
    refine ih ?_
    obtain ⟨e, he, hkey⟩ := h
    rcases overrideEntry_cases plain changed patch key' with ⟨-, heq⟩ | ⟨-, heq⟩
    · rw [heq]
      exact ⟨e, he, hkey⟩
    · rw [heq]
      by_cases hsame : e.1 = key'
      · exact ⟨_, Map.mem_insert_self, hsame.symm.trans hkey⟩
      · exact ⟨e, Map.mem_insert_of_ne he hsame, hkey⟩

theorem exists_mem_foldl_overrideEntry (h : key ∈ keys)
    (hdiffers : Overridable key ∧ Map.get plain key ≠ Map.get changed key) :
    ∃ e ∈ keys.foldl (overrideEntry plain changed) patch, e.1 = key := by
  induction keys generalizing patch with
  | nil => cases h
  | cons key' keys ih =>
    rw [List.foldl_cons]
    rcases List.mem_cons.1 h with rfl | h
    · refine foldl_overrideEntry_keeps ?_
      rcases overrideEntry_cases plain changed patch key with ⟨hno, -⟩ | ⟨-, heq⟩
      · exact absurd hdiffers hno
      · rw [heq]
        exact ⟨_, Map.mem_insert_self, rfl⟩
    · exact ih h

/-- **What an override holds**: for each property that differs the changed value, or `null`. -/
theorem mem_overrideFor (h : e ∈ overrideFor event rid changed) :
    Differs event rid changed e.1 ∧ e.2 = (Map.get changed e.1).getD .null := by
  unfold overrideFor at h
  simp only [instanceOf_withoutOverride, Option.getD_some] at h
  rcases mem_foldl_overrideEntry h with h | h
  · cases h
  · exact h

theorem exists_mem_overrideFor (h : Differs event rid changed key) :
    ∃ e ∈ overrideFor event rid changed, e.1 = key := by
  unfold overrideFor
  simp only [instanceOf_withoutOverride, Option.getD_some]
  refine exists_mem_foldl_overrideEntry ?_ h
  rw [SortedSet.mem_elems, SortedSet.mem_ofList, List.mem_append, List.mem_map, List.mem_map]
  by_cases hplain : ∃ value, Map.get (seriesObject event rid) key = some value
  · obtain ⟨value, hvalue⟩ := hplain
    exact .inl (Map.exists_mem_of_get hvalue)
  · obtain ⟨value, hvalue⟩ : ∃ value, Map.get changed key = some value := by
      cases hchanged : Map.get changed key with
      | some value => exact ⟨value, rfl⟩
      | none =>
        refine absurd ?_ h.2
        rw [hchanged]
        cases hget : Map.get (seriesObject event rid) key with
        | none => rfl
        | some value => exact absurd ⟨value, hget⟩ hplain
    exact .inr (Map.exists_mem_of_get hvalue)

/-- The instance that is read back: its override, pointer by pointer, on what it has of the
series. -/
theorem instanceOf_override : instanceOf (store event rid (overrideFor event rid changed)) rid =
    some ((overrideFor event rid changed).foldl applyLoosely (seriesObject event rid)) := by
  have hname : ∀ e ∈ overrideFor event rid changed, Overridable e.1 := fun e he => (mem_overrideFor he).1.1
  have hexcluded : Map.get (overrideFor event rid changed) "excluded" = none := by
    cases hget : Map.get (overrideFor event rid changed) "excluded" with
    | none => rfl
    | some value =>
      obtain ⟨e, he, hkey⟩ := Map.exists_mem_of_get hget
      have := (hname e he).2
      rw [hkey] at this
      exact absurd (by decide) this
  rw [instanceOf_store hexcluded, List.filter_eq_self.2]
  intro e he
  rw [bne_iff_ne]
  intro hkey
  have := (hname e he).2
  rw [hkey] at this
  exact absurd (by decide) this

end

/-! ## 3. Plain names come back -/

section
variable {event changed : Map} {rid key : String}

/-- Storing the override of a changed instance and reading the instance gives it back. -/
def GivesBack (event : Map) (rid : String) (changed : Map) : Prop :=
  ∃ object, instanceOf (store event rid (overrideFor event rid changed)) rid = some object ∧
    ∀ key, Overridable key → present object key = present changed key

theorem present_filter {value : Option Value} :
    (if (value.getD .null).isNull then none else some (value.getD .null) : Option Value).filter
      (fun value => !value.isNull) = value.filter fun value => !value.isNull := by
  cases value with
  | none => rfl
  | some value =>
    rw [Option.getD_some]
    cases hnull : value.isNull <;> simp [Option.filter, hnull]

/-- **Where the names of all properties that differ are plain, the instance comes back.** -/
theorem givesBack_of_plain (h : ∀ key, Differs event rid changed key → PlainName key) :
    GivesBack event rid changed := by
  refine ⟨_, instanceOf_override, fun key hkey => ?_⟩
  have hplain : ∀ e ∈ overrideFor event rid changed, PlainName e.1 := fun e he => h e.1 (mem_overrideFor he).1
  unfold present
  by_cases hdiffers : Differs event rid changed key
  · obtain ⟨e, he, rfl⟩ := exists_mem_overrideFor hdiffers
    have hvalue : ∀ e' ∈ overrideFor event rid changed, e'.1 = e.1 → e'.2 = e.2 := by
      intro e' he' hsame
      rw [(mem_overrideFor he').2, (mem_overrideFor he).2, hsame]
    rw [get_foldl_plain hplain he hvalue, (mem_overrideFor he).2]
    exact present_filter
  · have hsame : Map.get (seriesObject event rid) key = Map.get changed key := by
      by_contra hne
      exact hdiffers ⟨hkey, hne⟩
    rw [get_foldl_applyLoosely, hsame]
    intro e he tokens htokens hhead
    rw [pointerTokens_plain (hplain e he)] at htokens
    cases htokens
    have hname : e.1 = key := by simpa using hhead
    exact hdiffers (hname ▸ (mem_overrideFor he).1)

/-! ## 4. Other names do not -/

/-- **The property with the longest such name keeps the value of the series**: no pointer of the
override leads into it. -/
theorem get_longest (hkey : ¬ PlainName key)
    (hlongest : ∀ key', Differs event rid changed key' → ¬ PlainName key' → key'.length ≤ key.length) :
    Map.get ((overrideFor event rid changed).foldl applyLoosely (seriesObject event rid)) key =
      Map.get (seriesObject event rid) key := by
  refine get_foldl_applyLoosely fun e he tokens htokens hhead => ?_
  by_cases hplain : PlainName e.1
  · rw [pointerTokens_plain hplain] at htokens
    cases htokens
    have hname : e.1 = key := by simpa using hhead
    exact hkey (hname ▸ hplain)
  · have hlt := length_lt_of_pointer htokens hhead hkey
    have hle := hlongest e.1 (mem_overrideFor he).1 hplain
    omega

/-- **A name with a `/` or a `~` does not come back** where its property differs and no property of
such a name is `null`. -/
theorem plain_of_givesBack (hnull : ∀ key, Overridable key → ¬ PlainName key →
      Map.get (seriesObject event rid) key ≠ some .null ∧ Map.get changed key ≠ some .null)
    (hback : GivesBack event rid changed) (hdiffers : Differs event rid changed key) : PlainName key := by
  by_contra hkey
  obtain ⟨object, hobject, hpresent⟩ := hback
  rw [instanceOf_override] at hobject
  cases hobject
  -- the longest of them, among the names of the override
  classical
  obtain ⟨e, he, hmax⟩ := (((overrideFor event rid changed).filter fun e => ¬ PlainName e.1).toFinset).exists_max_image
    (fun e => e.1.length) (by
      obtain ⟨e, he, rfl⟩ := exists_mem_overrideFor hdiffers
      exact ⟨e, by simp [he, hkey]⟩)
  simp only [List.mem_toFinset, List.mem_filter, decide_eq_true_eq] at he hmax
  obtain ⟨⟨hover, hne⟩, -⟩ := mem_overrideFor he.1
  have hget := get_longest he.2 (fun key' hdiffers' hkey' => by
    obtain ⟨e', he', rfl⟩ := exists_mem_overrideFor hdiffers'
    exact hmax e' ⟨he', hkey'⟩)
  have hsame := hpresent e.1 hover
  unfold present at hsame
  rw [hget] at hsame
  obtain ⟨hseries, hchanged⟩ := hnull e.1 hover he.2
  have hfilter : ∀ value : Option Value, value ≠ some .null →
      value.filter (fun value => !value.isNull) = value := by
    intro value hvalue
    cases value with
    | none => rfl
    | some value =>
      have : value.isNull = false := by
        rw [Value.isNull, decide_eq_false_iff_not]
        rintro rfl
        exact hvalue rfl
      simp [Option.filter, this]
  rw [hfilter _ hseries, hfilter _ hchanged] at hsame
  exact hne hsame

end

/-- **Editing one instance of a series.**  A changed instance comes back from its override, with
`null` for what is absent, if the names of the properties that differ are plain.  Where no property
of another name is `null` in the series or in the changed instance, it comes back only then. -/
theorem override_round_trip (event : Map) (rid : String) (changed : Map) :
    ((∀ key, Differs event rid changed key → PlainName key) → GivesBack event rid changed) ∧
    ((∀ key, Overridable key → ¬ PlainName key →
        Map.get (seriesObject event rid) key ≠ some .null ∧ Map.get changed key ≠ some .null) →
      (GivesBack event rid changed ↔ ∀ key, Differs event rid changed key → PlainName key)) :=
  ⟨givesBack_of_plain, fun hnull =>
    ⟨fun hback _ => plain_of_givesBack hnull hback, givesBack_of_plain⟩⟩

/-- A series with a daily rule, and one instance of it with a property of a maker's own. -/
def daily : Map := [("@type", .string "Event"), ("title", .string "Yoga"), ("uid", .string "a@example.org")]

def withOwn (key : String) : Map :=
  (seriesObject daily "2026-11-10T09:00:00").insert key (.object [("rooms", .scalar (.int 2))])

/-- A property named `example.com/hall` is lost. -/
theorem override_slash_fails :
    ¬ ∀ (event : Map) (rid : String) (changed : Map), GivesBack event rid changed := by
  intro h
  obtain ⟨object, hobject, hpresent⟩ := h daily "2026-11-10T09:00:00" (withOwn "example.com/hall")
  have hread : (instanceOf (store daily "2026-11-10T09:00:00"
      (overrideFor daily "2026-11-10T09:00:00" (withOwn "example.com/hall"))) "2026-11-10T09:00:00").map
        (fun object => present object "example.com/hall") = some none := by
    decide
  rw [hobject, Option.map_some, Option.some.injEq, hpresent _ (by unfold Overridable; decide)] at hread
  exact absurd hread (by decide)

instance (key : String) : Decidable (PlainName key) := by
  unfold PlainName
  infer_instance

/-- A property named `hall` comes back, and so it is one with a plain name. -/
theorem override_hall : GivesBack daily "2026-11-10T09:00:00" (withOwn "hall") ∧
    ∀ key, Differs daily "2026-11-10T09:00:00" (withOwn "hall") key → PlainName key := by
  have hback := (override_round_trip daily "2026-11-10T09:00:00" (withOwn "hall")).1 fun key h => by
    have hkey : key = "hall" := by
      by_contra hne
      refine h.2 ?_
      rw [withOwn, Map.get_insert, if_neg (fun heq => hne heq.symm)]
    rw [hkey]
    decide
  have hnull : ∀ m : Map, (∀ e ∈ m, PlainName e.1) → ∀ key, ¬ PlainName key → Map.get m key ≠ some .null := by
    intro m hm key hkey hget
    obtain ⟨e, he, rfl⟩ := Map.exists_mem_of_get hget
    exact hkey (hm e he)
  refine ⟨hback, ((override_round_trip daily "2026-11-10T09:00:00" (withOwn "hall")).2 fun key _ hkey => ?_).1 hback⟩
  exact ⟨hnull _ (by decide) key hkey, hnull _ (by decide) key hkey⟩

end UwuMail.Jscal
