/-
# Per-user properties

In a calendar shared with others, some properties of an event are each person's own: colour, alerts,
keywords, and whether the time counts as busy (`jscal.rs`).  The owner's are part of the event.
Everyone else's are kept apart, woven into the event for whoever looks at it (`per_user_view`), and
taken out of what comes back (`split_per_user`), where the owner's are put in again.

* §3: looking and sending back what one saw changes nothing of the owner's, and nothing of one's own
  but what has a name that leads INTO a property, like `color/x`: it is kept, but never shown.
* §4: after an edit the owner's properties of the event are as they were.  Those of an instance are
  there only if the edit LEFT AN OVERRIDE for it; the owner's values hang on it, and go with it.
-/
import UwuMail.Jmap.Overrides

namespace UwuMail.Jscal

open Json

/-! ## 1. The source -/

def perUser : List String := ["keywords", "color", "freeBusyStatus", "useDefaultAlerts", "alerts"]

/-- A property of one's own, or a pointer into one. -/
def isPerUser (key : String) : Bool := perUser.contains ((segments key).headD "")

/-- `Value::as_object` -/
def asObject : Value → Option Map
  | .object members => some members
  | _ => none

def stripPatch : Value → Value
  | .object patch => .object (patch.filter fun e => !isPerUser e.1)
  | patch => patch

def stripOverrides : Value → Value
  | .object patches => .object (patches.map fun e => (e.1, stripPatch e.2))
  | patches => patches

def stripPerUser (event : Map) : Map :=
  let event := perUser.foldl Map.remove event
  match Map.get event "recurrenceOverrides" with
  | some patches => event.insert "recurrenceOverrides" (stripOverrides patches)
  | none => event

def perUserOf (object : Map) : Map := object.filter fun e => isPerUser e.1

/-- One's own properties of an instance, added to what there is for it. -/
def addOwn (instances : String → Bool) (patches : Map) (own : String × Value) : Map :=
  match own.2 with
  | .object patch =>
    if instances own.1 then
      match (patches.get own.1).getD (.object []) with
      | .object target => patches.insert own.1 (.object (Map.extend target patch))
      | _ => patches
    else patches
  | _ => patches

/-- The event as someone it is shared with sees it; `instances` are the recurrence ids the series
has. -/
def perUserView (event : Map) (prefs : Option Map) (instances : String → Bool) : Map :=
  let view := stripPerUser event
  match prefs with
  | none => view
  | some prefs =>
    let view := perUser.foldl (fun view key =>
      match prefs.get key with
      | some value => Map.insert view key value
      | none => view) view
    match prefs.get "recurrenceOverrides" with
    | some (.object own) =>
      if own.isEmpty then view
      else
        match (view.get "recurrenceOverrides").getD (.object []) with
        | .object patches => view.insert "recurrenceOverrides"
          (.object (own.foldl (addOwn instances) patches))
        | _ => view
    | _ => view

/-- One's own properties in the override of an instance. -/
def mine : Value → Option Value
  | .object patch => if (perUserOf patch).isEmpty then none else some (.object (perUserOf patch))
  | _ => none

def ownOverrides (view : Map) : Map :=
  match view.get "recurrenceOverrides" with
  | some (.object patches) => patches.filterMap fun e => (mine e.2).map fun patch => (e.1, patch)
  | _ => []

/-- The override of an instance with the owner's properties in it; an override that only had one's
own is not the owner's. -/
def keepPatch (owners : Option Map) (patch : Value) : Option Value :=
  let patch := match patch, owners with
    | .object patch, some owners => .object (Map.extend patch (perUserOf owners))
    | patch, _ => patch
  if owners.isSome || patch ≠ .object [] then some patch else none

/-- Splits what someone an event is shared with made of it into the owner's event and their own
per-user properties. -/
def splitPerUser (view owner : Map) : Map × Map :=
  let event := (stripPerUser view).extend (perUserOf owner)
  let ownerOverrides := (owner.get "recurrenceOverrides").bind asObject
  let event := match event.get "recurrenceOverrides" with
    | some (.object patches) =>
      let patches := patches.filterMap fun e =>
        (keepPatch ((ownerOverrides.bind fun patches => patches.get e.1).bind asObject) e.2).map fun patch =>
          (e.1, patch)
      let event := event.insert "recurrenceOverrides" (.object patches)
      if patches.isEmpty && ownerOverrides.isNone then event.remove "recurrenceOverrides" else event
    | _ => event
  let own := ownOverrides view
  let prefs := perUserOf view
  (event, if own.isEmpty then prefs else prefs.insert "recurrenceOverrides" (.object own))

/-! ## 2. One property, one instance -/

section
variable {event owner view prefs m patches own : Map} {key rid : String} {instances : String → Bool}

theorem isPerUser_of_mem (h : key ∈ perUser) : isPerUser key = true := by
  have hall : perUser.all isPerUser = true := by decide
  exact List.all_eq_true.1 hall key h

theorem not_isPerUser_overrides : isPerUser "recurrenceOverrides" = false := by decide

theorem get_foldl_remove {names : List String} :
    Map.get (names.foldl Map.remove m) key = if key ∈ names then none else Map.get m key := by
  induction names generalizing m with
  | nil => rfl
  | cons name names ih =>
    rw [List.foldl_cons, ih, Map.get_remove]
    by_cases hkey : name = key
    · simp [hkey]
    · simp [hkey, Ne.symm hkey]

theorem get_stripPerUser : Map.get (stripPerUser event) key =
    if key ∈ perUser then none
    else if key = "recurrenceOverrides" then (Map.get event key).map stripOverrides
        else Map.get event key := by
  have hover : Map.get (perUser.foldl Map.remove event) "recurrenceOverrides" =
      Map.get event "recurrenceOverrides" := by
    rw [get_foldl_remove, if_neg (by decide)]
  unfold stripPerUser
  dsimp only
  rw [hover]
  by_cases hkey : key = "recurrenceOverrides"
  · subst hkey
    rw [if_neg (by decide), if_pos rfl]
    cases hget : Map.get event "recurrenceOverrides" with
    | none => exact hover.trans hget
    | some patches => exact Map.get_insert.trans (if_pos rfl)
  · rw [if_neg hkey, ← get_foldl_remove]
    cases Map.get event "recurrenceOverrides" with
    | none => rfl
    | some patches => exact Map.get_insert.trans (if_neg (Ne.symm hkey))

theorem increasing_foldl_remove {names : List String} (h : m.Increasing) :
    (names.foldl Map.remove m).Increasing := by
  induction names generalizing m with
  | nil => exact h
  | cons name names ih => exact ih h.remove

theorem increasing_stripPerUser (h : event.Increasing) : (stripPerUser event).Increasing := by
  unfold stripPerUser
  dsimp only
  split
  · exact (increasing_foldl_remove h).insert
  · exact increasing_foldl_remove h

theorem get_perUserOf : Map.get (perUserOf m) key = if isPerUser key then Map.get m key else none :=
  Map.get_filter_key

/-- What is there for an instance, with one's own patch in it. -/
def placed (there : Option Value) : Option Map → Option Value
  | none => there
  | some patch =>
    match there.getD (.object []) with
    | .object target => some (.object (Map.extend target patch))
    | _ => there

theorem get_addOwn {e : String × Value} : Map.get (addOwn instances patches e) rid =
    if e.1 = rid then placed (Map.get patches rid) (if instances rid then asObject e.2 else none)
    else Map.get patches rid := by
  have hsame : ∀ there : Option Value, (if e.1 = rid then there else there) = there := fun there => ite_self _
  unfold addOwn
  split
  next patch hpatch =>
    by_cases hkey : e.1 = rid
    · subst hkey
      rw [if_pos rfl, hpatch]
      cases instances e.1 with
      | false => rfl
      | true =>
        rw [if_pos rfl, if_pos rfl]
        simp only [asObject, placed]
        split
        next target htarget => rw [Map.get_insert, if_pos rfl]
        next => rfl
    · rw [if_neg hkey]
      split
      · split
        · rw [Map.get_insert, if_neg hkey]
        · rfl
      · rfl
  next hother =>
    have hnone : asObject e.2 = none := by
      unfold asObject
      split
      next members hmembers => exact absurd hmembers (hother members)
      next => rfl
    rw [hnone]
    by_cases hkey : e.1 = rid
    · rw [if_pos hkey]
      cases instances rid <;> rfl
    · rw [if_neg hkey]

/-- One's own properties are put into the override of an instance there is. -/
theorem get_foldl_addOwn (h : own.Increasing) : Map.get (own.foldl (addOwn instances) patches) rid =
    placed (Map.get patches rid) (if instances rid then (Map.get own rid).bind asObject else none) := by
  induction own generalizing patches with
  | nil =>
    cases instances rid <;> rfl
  | cons e own ih =>
    obtain ⟨hfirst, hrest⟩ := List.pairwise_cons.1 h
    rw [List.foldl_cons, ih hrest, get_addOwn, Map.get_cons]
    by_cases hkey : e.1 = rid
    · have hnone : Map.get own rid = none := Map.get_eq_none fun f hf => hkey ▸ (hfirst f hf).ne'
      rw [if_pos hkey, if_pos hkey, hnone, Option.bind_some]
      cases instances rid <;> rfl
    · rw [if_neg hkey, if_neg hkey]

theorem increasing_foldl_addOwn (h : patches.Increasing) :
    (own.foldl (addOwn instances) patches).Increasing := by
  induction own generalizing patches with
  | nil => exact h
  | cons e own ih =>
    refine ih ?_
    unfold addOwn
    split
    · split
      · split
        · exact h.insert
        · exact h
      · exact h
    · exact h

/-- One's own patch for an instance the series has. -/
def ownPatch (prefs : Map) (instances : String → Bool) (rid : String) : Option Map :=
  if instances rid then (overrideOf prefs rid).bind asObject else none

/-- The loop over one's own properties. -/
theorem get_foldl_prefs {names : List String} : Map.get (names.foldl (fun view key =>
      match Map.get prefs key with
      | some value => Map.insert view key value
      | none => view) m) key =
    if key ∈ names then (Map.get prefs key).or (Map.get m key) else Map.get m key := by
  induction names generalizing m with
  | nil => rfl
  | cons name names ih =>
    rw [List.foldl_cons, ih]
    by_cases hkey : name = key
    · subst hkey
      cases hget : Map.get prefs name with
      | none => simp
      | some value => simp [Map.get_insert]
    · have hother : Map.get (match Map.get prefs name with
          | some value => Map.insert m name value
          | none => m) key = Map.get m key := by
        split
        · rw [Map.get_insert, if_neg hkey]
        · rfl
      simp [hother, Ne.symm hkey]

theorem increasing_foldl_prefs {names : List String} (h : m.Increasing) : (names.foldl (fun view key =>
      match Map.get prefs key with
      | some value => Map.insert view key value
      | none => view) m).Increasing := by
  induction names generalizing m with
  | nil => exact h
  | cons name names ih =>
    refine ih ?_
    dsimp only
    split
    · exact h.insert
    · exact h

/-- **The view, property by property.** -/
theorem get_perUserView (hkey : key ≠ "recurrenceOverrides") :
    Map.get (perUserView event (some prefs) instances) key =
      if key ∈ perUser then Map.get prefs key else Map.get event key := by
  have hnames : Map.get (perUser.foldl (fun view key =>
        match Map.get prefs key with
        | some value => Map.insert view key value
        | none => view) (stripPerUser event)) key =
      if key ∈ perUser then Map.get prefs key else Map.get event key := by
    rw [get_foldl_prefs, get_stripPerUser, if_neg hkey]
    by_cases hin : key ∈ perUser
    · simp only [if_pos hin, Option.or_none]
    · simp only [if_neg hin]
  rw [← hnames]
  unfold perUserView
  dsimp only
  split
  · split
    · rfl
    · split
      · exact Map.get_insert.trans (if_neg (Ne.symm hkey))
      · rfl
  · rfl

theorem increasing_perUserView (h : event.Increasing) :
    (perUserView event (some prefs) instances).Increasing := by
  have hview := @increasing_foldl_prefs prefs _ perUser (increasing_stripPerUser h)
  unfold perUserView
  dsimp only
  split
  · split
    · exact hview
    · split
      · exact Map.Increasing.insert hview
      · exact hview
  · exact hview

/-- The overrides in the view. -/
theorem get_perUserView_overrides : Map.get (perUserView event (some prefs) instances) "recurrenceOverrides" =
    match Map.get prefs "recurrenceOverrides" with
    | some (.object own) =>
      if own.isEmpty then (Map.get event "recurrenceOverrides").map stripOverrides
      else
        match ((Map.get event "recurrenceOverrides").map stripOverrides).getD (.object []) with
        | .object patches => some (.object (own.foldl (addOwn instances) patches))
        | _ => (Map.get event "recurrenceOverrides").map stripOverrides
    | _ => (Map.get event "recurrenceOverrides").map stripOverrides := by
  have hnames : Map.get (perUser.foldl (fun view key =>
        match Map.get prefs key with
        | some value => Map.insert view key value
        | none => view) (stripPerUser event)) "recurrenceOverrides" =
      (Map.get event "recurrenceOverrides").map stripOverrides := by
    rw [get_foldl_prefs, if_neg (by decide), get_stripPerUser, if_neg (by decide), if_pos rfl]
  rw [← hnames]
  unfold perUserView
  dsimp only
  split
  · split
    · rfl
    · split
      next heq =>
        rw [heq]
        exact Map.get_insert.trans (if_pos rfl)
      next => rfl
  · rfl

/-- An event's overrides are an object, if it has any. -/
def HasPlaces (event : Map) : Prop :=
  ∀ value, Map.get event "recurrenceOverrides" = some value → ∃ patches, value = .object patches

theorem overrideOf_stripped : ((Map.get event "recurrenceOverrides").map stripOverrides).bind
    (fun patches => member patches rid) = (overrideOf event rid).map stripPatch := by
  unfold overrideOf
  cases Map.get event "recurrenceOverrides" with
  | none => rfl
  | some patches =>
    cases patches with
    | scalar s => rfl
    | array values => rfl
    | object patches => exact Map.get_map_value fun _ => stripPatch

/-- **The view, instance by instance.** -/
theorem overrideOf_perUserView (hprefs : Json.Ordered (.object prefs)) (hplaces : HasPlaces event) :
    overrideOf (perUserView event (some prefs) instances) rid =
      placed ((overrideOf event rid).map stripPatch) (ownPatch prefs instances rid) := by
  have hnone : (∀ own, Map.get prefs "recurrenceOverrides" = some (.object own) → own = []) →
      ownPatch prefs instances rid = none := fun h => by
    have hempty : (overrideOf prefs rid).bind asObject = none := by
      unfold overrideOf
      cases hget : Map.get prefs "recurrenceOverrides" with
      | none => rfl
      | some own =>
        cases own with
        | scalar s => rfl
        | array values => rfl
        | object own =>
          rw [h own hget]
          rfl
    rw [ownPatch, hempty, ite_self]
  rw [overrideOf, get_perUserView_overrides]
  split
  next own hown =>
    split
    next hempty =>
      rw [hnone fun own' hown' => ?_]
      · exact overrideOf_stripped
      · rw [hown] at hown'
        cases hown'
        exact List.isEmpty_iff.1 hempty
    next =>
      have hincreasing := (hprefs.of_get hown).increasing
      have hpatch : ownPatch prefs instances rid =
          if instances rid then (Map.get own rid).bind asObject else none := by
        rw [ownPatch, overrideOf, hown]
        rfl
      cases hget : Map.get event "recurrenceOverrides" with
      | none =>
        have hoverride : overrideOf event rid = none := by rw [overrideOf, hget, Option.bind_none]
        rw [hpatch, hoverride]
        exact get_foldl_addOwn hincreasing
      | some value =>
        obtain ⟨patches, rfl⟩ := hplaces value hget
        have hoverride : overrideOf event rid = Map.get patches rid := by
          rw [overrideOf, hget]
          rfl
        rw [hpatch, hoverride, ← Map.get_map_value fun _ => stripPatch]
        exact get_foldl_addOwn hincreasing
  next hother =>
    rw [hnone fun own hown => absurd hown (hother own)]
    exact overrideOf_stripped

/-- Overrides that are no object stay what they are. -/
theorem get_perUserView_odd {value : Value} (h : Map.get event "recurrenceOverrides" = some value)
    (hodd : ∀ patches, value ≠ .object patches) :
    Map.get (perUserView event (some prefs) instances) "recurrenceOverrides" = some value := by
  have hstripped : stripOverrides value = value := by
    cases value with
    | scalar s => rfl
    | array values => rfl
    | object patches => exact absurd rfl (hodd patches)
  rw [get_perUserView_overrides, h, Option.map_some, hstripped, Option.getD_some]
  split
  · split
    · rfl
    · split
      next patches => exact absurd rfl (hodd patches)
      next => rfl
  · rfl

/-- **The event taken out again, property by property.** -/
theorem get_splitPerUser (howner : owner.Increasing) (hkey : key ≠ "recurrenceOverrides") :
    Map.get (splitPerUser view owner).1 key =
      (if isPerUser key then Map.get owner key else none).or
        (if key ∈ perUser then none else Map.get view key) := by
  have hevent : Map.get ((stripPerUser view).extend (perUserOf owner)) key =
      (if isPerUser key then Map.get owner key else none).or
        (if key ∈ perUser then none else Map.get view key) := by
    have hkeys : (perUserOf owner).Increasing := howner.filter _
    rw [Map.get_extend hkeys, get_perUserOf, get_stripPerUser, if_neg hkey]
  rw [← hevent]
  unfold splitPerUser
  dsimp only
  split
  · split
    · rw [Map.get_remove, if_neg (Ne.symm hkey), Map.get_insert, if_neg (Ne.symm hkey)]
    · rw [Map.get_insert, if_neg (Ne.symm hkey)]
  · rfl

/-- The overrides that go back to the owner. -/
def returned (owner patches : Map) : Map := patches.filterMap fun e =>
  (keepPatch ((overrideOf owner e.1).bind asObject) (stripPatch e.2)).map fun patch => (e.1, patch)

theorem get_splitPerUser_overrides (howner : owner.Increasing) :
    Map.get (splitPerUser view owner).1 "recurrenceOverrides" =
      match Map.get view "recurrenceOverrides" with
      | some (.object patches) =>
        if (returned owner patches).isEmpty && ((Map.get owner "recurrenceOverrides").bind asObject).isNone then none
        else some (.object (returned owner patches))
      | other => other := by
  have hkeys : (perUserOf owner).Increasing := howner.filter _
  have hevent : Map.get ((stripPerUser view).extend (perUserOf owner)) "recurrenceOverrides" =
      (Map.get view "recurrenceOverrides").map stripOverrides := by
    rw [Map.get_extend hkeys, get_perUserOf, not_isPerUser_overrides, get_stripPerUser,
      if_neg (by decide), if_pos rfl]
    rfl
  have hreturned : ∀ patches : Map, (patches.map fun e => (e.1, stripPatch e.2)).filterMap (fun e =>
      (keepPatch ((((Map.get owner "recurrenceOverrides").bind asObject).bind fun patches =>
        Map.get patches e.1).bind asObject) e.2).map fun patch => (e.1, patch)) = returned owner patches := by
    intro patches
    rw [returned, List.filterMap_map]
    congr 1
    funext e
    have hoverride : ((Map.get owner "recurrenceOverrides").bind asObject).bind
      (fun patches => Map.get patches e.1) =
        overrideOf owner e.1 := by
      unfold overrideOf
      cases Map.get owner "recurrenceOverrides" with
      | none => rfl
      | some value => cases value <;> rfl
    rw [← hoverride]
    rfl
  unfold splitPerUser
  dsimp only
  rw [hevent]
  cases hget : Map.get view "recurrenceOverrides" with
  | none => exact hevent.trans (by rw [hget]; rfl)
  | some value =>
    cases value with
    | scalar s => exact hevent.trans (by rw [hget]; rfl)
    | array values => exact hevent.trans (by rw [hget]; rfl)
    | object patches =>
      simp only [Option.map_some, stripOverrides, hreturned]
      split
      · rw [Map.get_remove, if_pos rfl]
      · rw [Map.get_insert, if_pos rfl]

theorem get_returned {patches : Map} (h : patches.Increasing) : Map.get (returned owner patches) rid =
    (Map.get patches rid).bind fun patch => keepPatch ((overrideOf owner rid).bind asObject)
        (stripPatch patch) :=
  @Map.Increasing.get_filterMap patches rid (fun rid patch =>
    keepPatch ((overrideOf owner rid).bind asObject) (stripPatch patch)) h

/-- The overrides of an event are in order. -/
def OverridesIncreasing (event : Map) : Prop :=
  ∀ patches, Map.get event "recurrenceOverrides" = some (.object patches) → Map.Increasing patches

/-- **The event taken out again, instance by instance.** -/
theorem overrideOf_splitPerUser (howner : owner.Increasing)
    (hview : OverridesIncreasing view) :
    overrideOf (splitPerUser view owner).1 rid =
      (overrideOf view rid).bind fun patch => keepPatch ((overrideOf owner rid).bind asObject)
          (stripPatch patch) := by
  rw [overrideOf, get_splitPerUser_overrides howner, overrideOf]
  cases hget : Map.get view "recurrenceOverrides" with
  | none => rfl
  | some value =>
    cases value with
    | scalar s => rfl
    | array values => rfl
    | object patches =>
      have hincreasing := hview patches hget
      have hback := @get_returned owner rid patches hincreasing
      dsimp only
      split
      next hempty =>
        rw [Bool.and_eq_true, List.isEmpty_iff] at hempty
        rw [hempty.1] at hback
        exact hback
      next => exact hback

theorem increasing_splitPerUser (hview : view.Increasing) : (splitPerUser view owner).1.Increasing := by
  have hevent : ((stripPerUser view).extend (perUserOf owner)).Increasing :=
    (increasing_stripPerUser hview).extend
  unfold splitPerUser
  dsimp only
  split
  · split
    · exact Map.Increasing.remove (Map.Increasing.insert hevent)
    · exact Map.Increasing.insert hevent
  · exact hevent

/-- One's own properties of the instances, as they are taken out of the view. -/
theorem get_ownOverrides
    (hview : OverridesIncreasing view) :
    Map.get (ownOverrides view) rid = (overrideOf view rid).bind mine := by
  unfold ownOverrides overrideOf
  cases hget : Map.get view "recurrenceOverrides" with
  | none => rfl
  | some value =>
    cases value with
    | scalar s => rfl
    | array values => rfl
    | object patches => exact @Map.Increasing.get_filterMap patches rid (fun _ => mine) (hview patches hget)

theorem increasing_ownOverrides
    (hview : OverridesIncreasing view) :
    (ownOverrides view).Increasing := by
  unfold ownOverrides
  split
  next patches hget => exact @Map.Increasing.filterMap patches (fun _ => mine) (hview patches hget)
  next => exact .nil

/-- **One's own properties taken out.** -/
theorem get_splitPerUser_prefs : Map.get (splitPerUser view owner).2 key =
    if key = "recurrenceOverrides" then
      if (ownOverrides view).isEmpty then none else some (.object (ownOverrides view))
    else if isPerUser key then Map.get view key else none := by
  have hsecond : (splitPerUser view owner).2 = if (ownOverrides view).isEmpty then perUserOf view
      else (perUserOf view).insert "recurrenceOverrides" (.object (ownOverrides view)) := rfl
  rw [hsecond]
  by_cases hkey : key = "recurrenceOverrides"
  · subst hkey
    rw [if_pos rfl]
    split
    · rw [get_perUserOf, not_isPerUser_overrides]
      rfl
    · rw [Map.get_insert, if_pos rfl]
  · rw [if_neg hkey, ← get_perUserOf]
    split
    · rfl
    · rw [Map.get_insert, if_neg (Ne.symm hkey)]

/-! ### One patch -/

variable {patch target : Map}

theorem get_stripped : Map.get (patch.filter fun e => !isPerUser e.1) key =
    if isPerUser key then none else Map.get patch key := by
  rw [@Map.get_filter_key patch key fun name => !isPerUser name]
  cases isPerUser key <;> rfl

/-- The owner's properties go back where they were, and what was put there is gone, if the rest of
it was there before. -/
theorem back_extend (htarget : target.Increasing) (hpatch : patch.Increasing) :
    Map.extend ((Map.extend (target.filter fun e => !isPerUser e.1) patch).filter fun e => !isPerUser e.1)
        (perUserOf target) = target ↔
      ∀ e ∈ patch, isPerUser e.1 = false → Map.get target e.1 = some e.2 := by
  have hmine : (perUserOf target).Increasing := htarget.filter _
  have hget : ∀ key, Map.get (Map.extend ((Map.extend (target.filter fun e => !isPerUser e.1) patch).filter fun e =>
      !isPerUser e.1) (perUserOf target)) key =
      if isPerUser key then Map.get target key else (Map.get patch key).or (Map.get target key) := by
    intro key
    rw [Map.get_extend hmine, get_perUserOf, get_stripped, Map.get_extend hpatch, get_stripped]
    cases isPerUser key <;> simp
  constructor
  · intro hsame e he hname
    have hboth := hget e.1
    rw [hsame, hname, if_neg Bool.false_ne_true, @Map.Increasing.get_of_mem patch e.1 e.2 hpatch he] at hboth
    exact hboth
  · intro hthere
    have hincreasing : (Map.extend (target.filter fun e => !isPerUser e.1) patch).Increasing :=
      Map.Increasing.extend (htarget.filter _)
    refine (Map.Increasing.extend (hincreasing.filter _)).ext htarget fun key => ?_
    rw [hget]
    cases hname : isPerUser key with
    | true => rfl
    | false =>
      rw [if_neg Bool.false_ne_true]
      cases hpatched : Map.get patch key with
      | none => rfl
      | some value => exact (hthere (key, value) (Map.mem_of_get hpatched) hname).symm

/-- What is one's own in a patch that has been put there. -/
theorem perUserOf_extend (htarget : target.Increasing) (hpatch : patch.Increasing) :
    perUserOf (Map.extend (target.filter fun e => !isPerUser e.1) patch) = perUserOf patch := by
  have hincreasing : (Map.extend (target.filter fun e => !isPerUser e.1) patch).Increasing :=
    Map.Increasing.extend (htarget.filter _)
  refine Map.Increasing.ext (hincreasing.filter _) (hpatch.filter _) fun key => ?_
  rw [get_perUserOf, get_perUserOf, Map.get_extend hpatch, get_stripped]
  cases isPerUser key <;> simp

/-- A patch can be put where there is none yet, or an object. -/
def Takes (theirs : Option Value) : Prop := ∀ value, theirs = some value → ∃ target, value = .object target

/-- **Out and back, for one instance**: one's own patch goes, and the owner's override stays if the
patch had nothing else to say. -/
theorem keep_placed {theirs : Option Value} {own : Option Map}
    (htheirs : ∀ target, theirs = some (.object target) → Map.Increasing target)
    (hown : ∀ patch, own = some patch → patch.Increasing) :
    (placed (theirs.map stripPatch) own).bind (fun patch => keepPatch (theirs.bind asObject) (stripPatch patch)) =
        theirs ↔
      ∀ patch, own = some patch → Takes theirs → ∀ e ∈ patch, isPerUser e.1 = false →
        theirs.bind (fun value => member value e.1) = some e.2 := by
  cases own with
  | none =>
    refine iff_of_true ?_ (by simp)
    cases theirs with
    | none => rfl
    | some value =>
      cases value with
      | scalar s => simp [placed, stripPatch, keepPatch, asObject]
      | array values => simp [placed, stripPatch, keepPatch, asObject]
      | object target =>
        have hback := (@back_extend [] target (htheirs target rfl) .nil).2 (by simp)
        simpa [placed, stripPatch, keepPatch, asObject, Map.extend, List.filter_filter] using hback
  | some patch =>
    have hpatch := hown patch rfl
    have hodd : ∀ value, (∀ target, value ≠ .object target) → ¬ Takes (some value) :=
        fun value hne htakes => by
      obtain ⟨target, heq⟩ := htakes value rfl
      exact hne target heq
    simp only [Option.some.injEq, forall_eq']
    cases theirs with
    | none =>
      have hback := @back_extend patch [] .nil hpatch
      have htakes : Takes none := by simp [Takes]
      rw [forall_prop_of_true htakes]
      refine Iff.trans ?_ hback
      simp [placed, stripPatch, keepPatch, perUserOf, Map.extend]
    | some value =>
      cases value with
      | scalar s =>
        exact iff_of_true (by simp [placed, stripPatch, keepPatch,
          asObject]) fun h => absurd h (hodd _ (by simp))
      | array values =>
        exact iff_of_true (by simp [placed, stripPatch, keepPatch,
          asObject]) fun h => absurd h (hodd _ (by simp))
      | object target =>
        have hback := @back_extend patch target (htheirs target rfl) hpatch
        have htakes : Takes (some (.object target)) := fun value heq => ⟨target, (Option.some.inj heq).symm⟩
        rw [forall_prop_of_true htakes]
        refine Iff.trans ?_ hback
        simp [placed, stripPatch, keepPatch, asObject]

/-- Only what is one's own is found, wherever it is put. -/
theorem mine_placed {theirs : Option Value} {patch : Map}
    (htheirs : ∀ target, theirs = some (.object target) → Map.Increasing target) (hpatch : patch.Increasing)
    (htakes : Takes theirs) :
    (placed (theirs.map stripPatch) (some patch)).bind mine = mine (.object patch) := by
  have hfound : ∀ target : Map, Map.Increasing target →
      mine (.object (Map.extend (target.filter fun e => !isPerUser e.1) patch)) = mine (.object patch) := by
    intro target htarget
    rw [mine, mine, perUserOf_extend htarget hpatch]
  cases theirs with
  | none => exact hfound [] .nil
  | some value =>
    obtain ⟨target, rfl⟩ := htakes value rfl
    exact hfound target (htheirs target rfl)

theorem mine_stripPatch (value : Value) : mine (stripPatch value) = none := by
  cases value with
  | scalar s => rfl
  | array values => rfl
  | object target => simp [stripPatch, mine, perUserOf, List.filter_filter]

theorem mine_eq_some {there value : Value} (h : mine there = some value) :
    ∃ patch, value = .object patch ∧ patch ≠ [] ∧ ∀ e ∈ patch, isPerUser e.1 = true := by
  cases there with
  | scalar s => cases h
  | array values => cases h
  | object members =>
    rw [mine] at h
    split at h
    · cases h
    next hne =>
      cases h
      exact ⟨_, rfl, fun hnil => hne (List.isEmpty_iff.2 hnil), fun e he => (List.mem_filter.1 he).2⟩

/-- What is all one's own is found as it is. -/
theorem mine_of_own (hne : patch ≠ []) (hown : ∀ e ∈ patch, isPerUser e.1 = true) :
    mine (.object patch) = some (.object patch) := by
  have hall : perUserOf patch = patch := List.filter_eq_self.2 hown
  rw [mine, hall, if_neg (by simpa using hne)]

end

/-! ## 3. Looking and sending back -/

/-- One's own overrides of the instances there are. -/
def ownLeft (prefs : Map) (instances : String → Bool) : Map :=
  match prefs.get "recurrenceOverrides" with
  | some (.object own) => own.filter fun e => instances e.1
  | _ => []

/-- The preferences without those of instances that are gone. -/
def restricted (prefs : Map) (instances : String → Bool) : Map :=
  match prefs.get "recurrenceOverrides" with
  | some (.object _) =>
    if (ownLeft prefs instances).isEmpty then prefs.remove "recurrenceOverrides"
    else prefs.insert "recurrenceOverrides" (.object (ownLeft prefs instances))
  | _ => prefs

/-- There is a place for one's own properties of an instance: the overrides of the event are
objects. -/
def Fits (owner : Map) (rid : String) : Prop := HasPlaces owner ∧ Takes (overrideOf owner rid)

/-- One's own properties change nothing of the owner's: what is put into an override is per-user, or
was in it before. -/
def Harmless (owner prefs : Map) (instances : String → Bool) : Prop :=
  ∀ rid patch, ownPatch prefs instances rid = some patch → Fits owner rid →
    ∀ e ∈ patch, isPerUser e.1 = false →
    (overrideOf owner rid).bind (fun value => member value e.1) = some e.2

/-- The owner's event has room for one's own properties.  A name like `color/x`, which leads into
one of them, is looked up in the event, so there the two must have the same; and what one has for an
instance must be properties of one's own, and fit in. -/
structure HasRoom (owner prefs : Map) (instances : String → Bool) : Prop where
  names : ∀ key, key ∉ perUser → key ≠ "recurrenceOverrides" →
    Map.get prefs key = if isPerUser key then Map.get owner key else none
  places : ∀ value, Map.get prefs "recurrenceOverrides" = some value → ∃ own, value = .object own ∧
    ∀ e ∈ own, instances e.1 = true → Fits owner e.1 ∧
      ∃ patch, e.2 = .object patch ∧ patch ≠ [] ∧ ∀ x ∈ patch, isPerUser x.1 = true

section
variable {owner prefs edited : Map} {key rid : String} {instances : String → Bool}

/-- What the overrides of an event are is in order with the event. -/
theorem overridesIncreasing_of_ordered (h : Json.Ordered (.object owner)) : OverridesIncreasing owner :=
  fun _ hget => (h.of_get hget).increasing

theorem overridesIncreasing_view (howner : Json.Ordered (.object owner)) :
    OverridesIncreasing (perUserView owner (some prefs) instances) := by
  have htheirs : ∀ patches, (Map.get owner "recurrenceOverrides").map stripOverrides =
    some (.object patches) →
      Map.Increasing patches := by
    intro patches h
    obtain ⟨value, hget, hvalue⟩ := Option.map_eq_some_iff.1 h
    cases value with
    | scalar s => cases hvalue
    | array values => cases hvalue
    | object stored =>
      cases hvalue
      exact (howner.of_get hget).increasing.map_value _
  intro patches h
  rw [get_perUserView_overrides] at h
  split at h
  · split at h
    · exact htheirs patches h
    · split at h
      next stored hstored =>
        cases h
        refine increasing_foldl_addOwn ?_
        cases hget : (Map.get owner "recurrenceOverrides").map stripOverrides with
        | none =>
          rw [hget] at hstored
          cases hstored
          exact .nil
        | some value =>
          rw [hget, Option.getD_some] at hstored
          exact htheirs stored (hget.trans (congrArg some hstored))
      next => exact htheirs patches h
  · exact htheirs patches h

theorem increasing_ownPatch (hprefs : Json.Ordered (.object prefs)) {patch : Map}
    (h : ownPatch prefs instances rid = some patch) : patch.Increasing := by
  unfold ownPatch at h
  split at h
  · obtain ⟨value, hvalue, hobject⟩ := Option.bind_eq_some_iff.1 h
    cases value with
    | scalar s => cases hobject
    | array values => cases hobject
    | object members =>
      cases hobject
      exact (ordered_override hprefs hvalue).increasing
  · cases h

/-- What comes back for an instance is the owner's if one's own properties are harmless there. -/
theorem kept_iff (howner : Json.Ordered (.object owner)) (hprefs : Json.Ordered (.object prefs))
    (hplaces : HasPlaces owner) :
    (overrideOf (perUserView owner (some prefs) instances) rid).bind (fun patch =>
        keepPatch ((overrideOf owner rid).bind asObject) (stripPatch patch)) = overrideOf owner rid ↔
      ∀ patch, ownPatch prefs instances rid = some patch → Takes (overrideOf owner rid) → ∀ e ∈ patch,
        isPerUser e.1 = false → (overrideOf owner rid).bind (fun value => member value e.1) = some e.2 := by
  rw [overrideOf_perUserView hprefs hplaces]
  exact keep_placed (fun target htarget => (ordered_override howner htarget).increasing)
    fun patch hpatch => increasing_ownPatch hprefs hpatch

/-- **The overrides that come back are the owner's.** -/
theorem get_returned_view (howner : Json.Ordered (.object owner)) (hprefs : Json.Ordered (.object prefs))
    (hplaces : HasPlaces owner) (hharmless : Harmless owner prefs instances) {patches : Map}
    (hview : Map.get (perUserView owner (some prefs) instances) "recurrenceOverrides" =
      some (.object patches)) :
    Map.get (returned owner patches) rid = overrideOf owner rid := by
  have hincreasing := overridesIncreasing_view howner patches hview
  have hthere : overrideOf (perUserView owner (some prefs) instances) rid = Map.get patches rid := by
    rw [overrideOf, hview]
    rfl
  rw [get_returned hincreasing, ← hthere]
  exact (kept_iff howner hprefs hplaces).2 fun patch hpatch htakes =>
    hharmless rid patch hpatch ⟨hplaces, htakes⟩

theorem increasing_returned {patches : Map} (h : patches.Increasing) : (returned owner patches).Increasing :=
  @Map.Increasing.filterMap patches (fun rid patch =>
    keepPatch ((overrideOf owner rid).bind asObject) (stripPatch patch)) h

/-- Overrides are an object in the view if they are one in the event; if there are none, the view
may have its own. -/
theorem view_overrides_cases (hplaces : HasPlaces owner) :
    (Map.get owner "recurrenceOverrides" = none ∧
        Map.get (perUserView owner (some prefs) instances) "recurrenceOverrides" = none) ∨
      ∃ patches, Map.get (perUserView owner (some prefs) instances) "recurrenceOverrides" =
        some (.object patches) := by
  rw [get_perUserView_overrides]
  cases hget : Map.get owner "recurrenceOverrides" with
  | none =>
    rw [Option.map_none, Option.getD_none]
    split
    · split
      · exact .inl ⟨rfl, rfl⟩
      · exact .inr ⟨_, rfl⟩
    · exact .inl ⟨rfl, rfl⟩
  | some value =>
    obtain ⟨patches, rfl⟩ := hplaces value hget
    right
    rw [Option.map_some, Option.getD_some]
    split
    · split
      · exact ⟨_, rfl⟩
      · exact ⟨_, rfl⟩
    · exact ⟨_, rfl⟩

/-- **The owner's event comes back** just when one's own properties are harmless. -/
theorem event_back (howner : Json.Ordered (.object owner)) (hprefs : Json.Ordered (.object prefs)) :
    (splitPerUser (perUserView owner (some prefs) instances) owner).1 = owner ↔
        Harmless owner prefs instances := by
  constructor
  · intro hsame rid patch hpatch hfits
    have hback := @overrideOf_splitPerUser owner (perUserView owner (some prefs) instances)
      rid howner.increasing
      (overridesIncreasing_view howner)
    rw [hsame] at hback
    exact (kept_iff howner hprefs hfits.1).1 hback.symm patch hpatch hfits.2
  intro hharmless
  refine (increasing_splitPerUser (increasing_perUserView howner.increasing)).ext howner.increasing fun key => ?_
  by_cases hkey : key = "recurrenceOverrides"
  · subst hkey
    rw [get_splitPerUser_overrides howner.increasing]
    by_cases hplaces : HasPlaces owner
    · rcases view_overrides_cases hplaces with ⟨hnone, hview⟩ | ⟨patches, hview⟩
      · rw [hview, hnone]
      · rw [hview]
        have hback := fun rid => @get_returned_view owner prefs rid instances howner hprefs hplaces hharmless patches hview
        have hincreasing := @increasing_returned owner patches (overridesIncreasing_view howner patches hview)
        dsimp only
        cases hget : Map.get owner "recurrenceOverrides" with
        | none =>
          have hempty : returned owner patches = [] := hincreasing.ext .nil fun rid => by
            rw [hback, overrideOf, hget]
            rfl
          rw [hempty]
          rfl
        | some value =>
          obtain ⟨stored, rfl⟩ := hplaces value hget
          have hsame : returned owner patches = stored :=
            hincreasing.ext (howner.of_get hget).increasing fun rid => by
              rw [hback, overrideOf, hget]
              rfl
          rw [hsame]
          simp [asObject]
    · -- overrides that are no object have been left alone
      unfold HasPlaces at hplaces
      push Not at hplaces
      obtain ⟨value, hget, hodd⟩ := hplaces
      rw [get_perUserView_odd hget hodd, hget]
      cases value with
      | scalar s => rfl
      | array values => rfl
      | object patches => exact absurd rfl (hodd patches)
  · rw [get_splitPerUser howner.increasing hkey, get_perUserView hkey]
    by_cases hin : key ∈ perUser
    · rw [if_pos (isPerUser_of_mem hin), if_pos hin, Option.or_none]
    · rw [if_neg hin, if_neg hin]
      cases isPerUser key <;> simp

theorem get_restricted (hprefs : HasPlaces prefs) : Map.get (restricted prefs instances) key =
    if key = "recurrenceOverrides" then
      if (ownLeft prefs instances).isEmpty then none else some (.object (ownLeft prefs instances))
    else Map.get prefs key := by
  have hnone : Map.get prefs "recurrenceOverrides" = none → ownLeft prefs instances = [] := fun hget => by
    rw [ownLeft, hget]
  unfold restricted
  by_cases hkey : key = "recurrenceOverrides"
  · subst hkey
    rw [if_pos rfl]
    split
    · split
      · rw [Map.get_remove, if_pos rfl]
      · rw [Map.get_insert, if_pos rfl]
    next hother =>
      cases hget : Map.get prefs "recurrenceOverrides" with
      | none =>
        rw [hnone hget]
        rfl
      | some value =>
        obtain ⟨own, rfl⟩ := hprefs value hget
        exact absurd hget (hother own)
  · rw [if_neg hkey]
    split
    · split
      · rw [Map.get_remove, if_neg (Ne.symm hkey)]
      · rw [Map.get_insert, if_neg (Ne.symm hkey)]
    · rfl

theorem increasing_restricted (hprefs : Json.Ordered (.object prefs)) :
    (restricted prefs instances).Increasing := by
  unfold restricted
  split
  · split
    · exact hprefs.increasing.remove
    · exact hprefs.increasing.insert
  · exact hprefs.increasing

/-- The overrides that are left of one's own are those of the instances there are. -/
theorem get_ownLeft : Map.get (ownLeft prefs instances) rid = if instances rid
    then overrideOf prefs rid else none := by
  unfold ownLeft overrideOf
  cases Map.get prefs "recurrenceOverrides" with
  | none => cases instances rid <;> rfl
  | some value =>
    cases value with
    | scalar s => cases instances rid <;> rfl
    | array values => cases instances rid <;> rfl
    | object own => exact @Map.get_filter_key own rid instances

theorem increasing_ownLeft (hprefs : Json.Ordered (.object prefs)) :
    (ownLeft prefs instances).Increasing := by
  unfold ownLeft
  split
  next own hget => exact List.Pairwise.filter _ (hprefs.of_get hget).increasing
  next => exact .nil

/-- Overrides that are no object have no override of an instance. -/
theorem overrideOf_odd (hplaces : ¬ HasPlaces owner) :
    overrideOf (perUserView owner (some prefs) instances) rid = none := by
  unfold HasPlaces at hplaces
  push Not at hplaces
  obtain ⟨value, hget, hodd⟩ := hplaces
  rw [overrideOf, get_perUserView_odd hget hodd]
  cases value with
  | scalar s => rfl
  | array values => rfl
  | object patches => exact absurd rfl (hodd patches)

/-- Where there is room, one's own overrides are found again. -/
theorem ownOverrides_eq (howner : Json.Ordered (.object owner)) (hprefs : Json.Ordered (.object prefs))
    (hroom : HasRoom owner prefs instances) :
    ownOverrides (perUserView owner (some prefs) instances) = ownLeft prefs instances := by
  have hview := @overridesIncreasing_view owner prefs instances howner
  refine (increasing_ownOverrides hview).ext (increasing_ownLeft hprefs) fun rid => ?_
  rw [get_ownOverrides hview, get_ownLeft]
  -- without one's own patch there is only what the owner has, and none of that is found
  have hnothing : ownPatch prefs instances rid = none →
      (overrideOf (perUserView owner (some prefs) instances) rid).bind mine = none := by
    intro hpatch
    by_cases hplaces : HasPlaces owner
    · rw [overrideOf_perUserView hprefs hplaces, hpatch]
      simp only [placed]
      cases overrideOf owner rid with
      | none => rfl
      | some value => exact mine_stripPatch value
    · rw [overrideOf_odd hplaces, Option.bind_none]
  cases hinstance : instances rid with
  | false => exact hnothing (by rw [ownPatch, hinstance, if_neg Bool.false_ne_true])
  | true =>
    rw [if_pos rfl]
    cases hvalue : overrideOf prefs rid with
    | none => exact hnothing (by rw [ownPatch, hvalue, Option.bind_none, ite_self])
    | some value =>
      obtain ⟨stored, hstored, hmember⟩ := Option.bind_eq_some_iff.1 hvalue
      obtain ⟨own, rfl, hall⟩ := hroom.places stored hstored
      obtain ⟨⟨hplaces, htakes⟩, patch, heq, hne, hown⟩ :=
        hall (rid, value) (Map.mem_of_get hmember) hinstance
      obtain rfl : value = .object patch := heq
      have hpatch : ownPatch prefs instances rid = some patch := by
        rw [ownPatch, hinstance, if_pos rfl, hvalue]
        rfl
      rw [overrideOf_perUserView hprefs hplaces, hpatch, mine_placed
        (fun target htarget => (ordered_override howner htarget).increasing)
          (increasing_ownPatch hprefs hpatch) htakes,
        mine_of_own hne hown]

/-- What is found of one's own for an instance was put where it fits. -/
theorem fits_of_mine (hprefs : Json.Ordered (.object prefs)) {there value : Value}
    (hthere : overrideOf (perUserView owner (some prefs) instances) rid = some there)
      (hmine : mine there = some value) :
    Fits owner rid := by
  have hplaces : HasPlaces owner := by
    by_contra hplaces
    rw [overrideOf_odd hplaces] at hthere
    cases hthere
  refine ⟨hplaces, fun theirs htheirs => ?_⟩
  rw [overrideOf_perUserView hprefs hplaces, htheirs] at hthere
  generalize ownPatch prefs instances rid = own at hthere
  cases theirs with
  | scalar s => cases own <;> cases hthere <;> cases hmine
  | array values => cases own <;> cases hthere <;> cases hmine
  | object target => exact ⟨target, rfl⟩

/-- **One's own preferences come back**, those of the instances there are, just when the owner's
event has room for them. -/
theorem prefs_back (howner : Json.Ordered (.object owner)) (hprefs : Json.Ordered (.object prefs)) :
    (splitPerUser (perUserView owner (some prefs) instances) owner).2 = restricted prefs instances ↔
      HasRoom owner prefs instances := by
  have hview := @overridesIncreasing_view owner prefs instances howner
  constructor
  · intro hsame
    have hget : ∀ key, Map.get (splitPerUser (perUserView owner (some prefs) instances) owner).2 key =
        Map.get (restricted prefs instances) key := fun key => by rw [hsame]
    have hplaces : HasPlaces prefs := by
      intro value hvalue
      have hboth := hget "recurrenceOverrides"
      cases value with
      | object own => exact ⟨own, rfl⟩
      | scalar s =>
        rw [get_splitPerUser_prefs, if_pos rfl, restricted, hvalue] at hboth
        dsimp only at hboth
        rw [hvalue] at hboth
        split at hboth <;> cases hboth
      | array values =>
        rw [get_splitPerUser_prefs, if_pos rfl, restricted, hvalue] at hboth
        dsimp only at hboth
        rw [hvalue] at hboth
        split at hboth <;> cases hboth
    constructor
    · intro key hin hkey
      have hboth := hget key
      rw [get_splitPerUser_prefs, if_neg hkey, get_perUserView hkey, if_neg hin, get_restricted hplaces,
        if_neg hkey] at hboth
      exact hboth.symm
    · intro value hvalue
      obtain ⟨own, rfl⟩ := hplaces value hvalue
      refine ⟨own, rfl, fun e he hinstance => ?_⟩
      have hleft : Map.get (ownLeft prefs instances) e.1 = some e.2 := by
        rw [get_ownLeft, hinstance, if_pos rfl, overrideOf, hvalue]
        exact @Map.Increasing.get_of_mem own e.1 e.2 (hprefs.of_get hvalue).increasing he
      have hsome : (ownLeft prefs instances).isEmpty = false := by
        rw [List.isEmpty_eq_false_iff]
        intro hnil
        rw [hnil] at hleft
        cases hleft
      have hboth := hget "recurrenceOverrides"
      rw [get_splitPerUser_prefs, if_pos rfl, get_restricted hplaces, if_pos rfl, hsome,
        if_neg Bool.false_ne_true] at hboth
      have hown : Map.get (ownOverrides (perUserView owner (some prefs) instances)) e.1 = some e.2 := by
        split at hboth
        · cases hboth
        · rw [Option.some.injEq, Value.object.injEq] at hboth
          rw [hboth, hleft]
      rw [get_ownOverrides hview] at hown
      obtain ⟨there, hthere, hmine⟩ := Option.bind_eq_some_iff.1 hown
      exact ⟨fits_of_mine hprefs hthere hmine, mine_eq_some hmine⟩
  · intro hroom
    have hplaces : HasPlaces prefs := by
      intro value hvalue
      obtain ⟨own, heq, -⟩ := hroom.places value hvalue
      exact ⟨own, heq⟩
    have hfirst : (splitPerUser (perUserView owner (some prefs) instances) owner).2.Increasing := by
      have hmine : (perUserOf (perUserView owner (some prefs) instances)).Increasing :=
        List.Pairwise.filter _ (increasing_perUserView howner.increasing)
      unfold splitPerUser
      dsimp only
      split
      · exact hmine
      · exact hmine.insert
    refine hfirst.ext (increasing_restricted hprefs) fun key => ?_
    rw [get_splitPerUser_prefs, get_restricted hplaces, ownOverrides_eq howner hprefs hroom]
    by_cases hkey : key = "recurrenceOverrides"
    · rw [if_pos hkey, if_pos hkey]
    · rw [if_neg hkey, if_neg hkey, get_perUserView hkey]
      by_cases hin : key ∈ perUser
      · rw [if_pos (isPerUser_of_mem hin), if_pos hin]
      · rw [if_neg hin]
        exact (hroom.names key hin hkey).symm

/-- Preferences that were taken out of a view are harmless to every event. -/
theorem harmless_splitPerUser {view anyone : Map} (hview : OverridesIncreasing view) :
    Harmless owner (splitPerUser view anyone).2 instances := by
  intro rid patch hpatch _ e he hname
  unfold ownPatch at hpatch
  split at hpatch
  · obtain ⟨value, hvalue, hobject⟩ := Option.bind_eq_some_iff.1 hpatch
    rw [overrideOf, get_splitPerUser_prefs, if_pos rfl] at hvalue
    split at hvalue
    · cases hvalue
    · rw [Option.bind_some, member, get_ownOverrides hview] at hvalue
      obtain ⟨there, -, hmine⟩ := Option.bind_eq_some_iff.1 hvalue
      obtain ⟨members, rfl, -, hall⟩ := mine_eq_some hmine
      cases hobject
      rw [hall e he] at hname
      cases hname
  · cases hpatch

/-- Whoever has set nothing of their own sees the event without the owner's. -/
theorem perUserView_none : perUserView owner none instances = perUserView owner (some []) instances := by
  have hloop : ∀ (names : List String) (view : Map), names.foldl (fun view key =>
      match Map.get ([] : Map) key with
      | some value => Map.insert view key value
      | none => view) view = view := by
    intro names
    induction names with
    | nil => exact fun _ => rfl
    | cons name names ih => exact fun view => ih view
  exact (hloop perUser (stripPerUser owner)).symm

/-! ## 4. After an edit -/

/-- The per-user properties in the override of an instance. -/
def perUserAt (event : Map) (rid : String) : Map :=
  match (overrideOf event rid).bind asObject with
  | some patch => perUserOf patch
  | none => []

/-- **What an edit leaves of the owner's.**  Properties of the event stay as they were; those of an
instance stay if the edited event has an override of it. -/
theorem owner_kept (howner : Json.Ordered (.object owner)) (hedited : Json.Ordered (.object edited)) :
    (∀ key ∈ perUser, Map.get (splitPerUser edited owner).1 key = Map.get owner key) ∧
      ∀ rid, perUserAt (splitPerUser edited owner).1 rid = perUserAt owner rid ↔
        (perUserAt owner rid ≠ [] → ∃ patch, overrideOf edited rid = some (.object patch)) := by
  constructor
  · intro key hin
    have hkey : key ≠ "recurrenceOverrides" := fun heq => absurd (heq ▸ hin) (by decide)
    rw [get_splitPerUser howner.increasing hkey, if_pos (isPerUser_of_mem hin), if_pos hin, Option.or_none]
  · intro rid
    have hafter : perUserAt (splitPerUser edited owner).1 rid =
        match ((overrideOf edited rid).bind fun patch =>
            keepPatch ((overrideOf owner rid).bind asObject) (stripPatch patch)).bind asObject with
        | some patch => perUserOf patch
        | none => [] := by
      rw [perUserAt, overrideOf_splitPerUser howner.increasing (overridesIncreasing_of_ordered hedited)]
    have hlost : (∀ patch, overrideOf edited rid ≠ some (.object patch)) →
        perUserAt (splitPerUser edited owner).1 rid = [] := fun hnone => by
      rw [hafter]
      cases hpatch : overrideOf edited rid with
      | none => rfl
      | some value =>
        cases value with
        | scalar s => cases (overrideOf owner rid).bind asObject <;> simp [stripPatch, keepPatch, asObject]
        | array values => cases (overrideOf owner rid).bind asObject <;> simp [stripPatch,
          keepPatch, asObject]
        | object patch => exact absurd hpatch (hnone patch)
    constructor
    · intro hsame hsome
      by_contra hnone
      push Not at hnone
      exact hsome (by rw [← hsame, hlost hnone])
    · intro hkept
      by_cases hthere : ∃ patch, overrideOf edited rid = some (.object patch)
      · obtain ⟨patch, hpatch⟩ := hthere
        have hincreasing := (ordered_override hedited hpatch).increasing
        have hmine : perUserOf (patch.filter fun e => !isPerUser e.1) = [] := by
          rw [perUserOf, List.filter_filter]
          simp
        rw [hafter, hpatch, Option.bind_some, perUserAt]
        cases howners : (overrideOf owner rid).bind asObject with
        | none =>
          by_cases hempty : patch.filter (fun e => !isPerUser e.1) = []
          · simp [stripPatch, keepPatch, hempty]
          · simp only [stripPatch, keepPatch, Option.isSome_none, Bool.false_or, ne_eq,
              Value.object.injEq, hempty,
              not_false_eq_true, decide_true, if_true, Option.bind_some, asObject]
            exact hmine
        | some owners =>
          obtain ⟨value, hvalue, hobject⟩ := Option.bind_eq_some_iff.1 howners
          have hordered : owners.Increasing := by
            cases value with
            | scalar s => cases hobject
            | array values => cases hobject
            | object members =>
              cases hobject
              exact (ordered_override howner hvalue).increasing
          have hback := @perUserOf_extend (perUserOf owners) patch hincreasing (hordered.filter _)
          have htwice : perUserOf (perUserOf owners) = perUserOf owners :=
            List.filter_eq_self.2 fun e he => (List.mem_filter.1 he).2
          rw [htwice] at hback
          simpa [stripPatch, keepPatch, asObject] using hback
      · push Not at hthere
        rw [hlost hthere]
        by_contra hne
        obtain ⟨patch, hpatch⟩ := hkept fun hnil => hne hnil.symm
        exact hthere patch hpatch

/-- **Per-user properties.**  Looking at a shared event and sending it back as it is changes nothing
of the owner's if one's own properties are harmless, as those that were taken out of a view are, and
gives back one's own of the instances there are if the owner's event has room for them.  After any
edit the owner's properties of the event are what they were, and those of the instances just when
every instance that has some is still overridden. -/
theorem per_user_apart (howner : Json.Ordered (.object owner)) (prefs : Option Map)
    (instances : String → Bool)
    (hprefs : Json.Ordered (.object (prefs.getD []))) (hedited : Json.Ordered (.object edited)) :
    ((splitPerUser (perUserView owner prefs instances) owner).1 = owner ↔
      Harmless owner (prefs.getD []) instances) ∧
      ((splitPerUser (perUserView owner prefs instances) owner).2 = restricted (prefs.getD []) instances ↔
        HasRoom owner (prefs.getD []) instances) ∧
      (∀ key ∈ perUser, Map.get (splitPerUser edited owner).1 key = Map.get owner key) ∧
      ((∀ rid, perUserAt (splitPerUser edited owner).1 rid = perUserAt owner rid) ↔
        ∀ rid, perUserAt owner rid ≠ [] → ∃ patch, overrideOf edited rid = some (.object patch)) := by
  have hview : perUserView owner prefs instances = perUserView owner (some (prefs.getD [])) instances := by
    cases prefs with
    | none => exact perUserView_none
    | some prefs => rfl
  obtain ⟨htop, hinstances⟩ := owner_kept howner hedited
  rw [hview]
  exact ⟨event_back howner hprefs, prefs_back howner hprefs, htop, forall_congr' hinstances⟩

end

/-- A series whose owner is reminded of one instance. -/
def reminded : Map :=
  [("recurrenceOverrides", .object [("2026-10-27T09:00:00", .object [("useDefaultAlerts", .scalar (.bool true))])]),
    ("title", .string "Yoga")]

theorem ordered_reminded : Json.Ordered (.object reminded) := by
  refine .object (by unfold Map.Increasing reminded; decide) ?_
  simp only [reminded, List.mem_cons, List.not_mem_nil, or_false]
  rintro e (rfl | rfl)
  · refine .object (List.pairwise_singleton _ _) fun e he => ?_
    rw [List.mem_singleton.1 he]
    refine .object (List.pairwise_singleton _ _) fun e he => ?_
    rw [List.mem_singleton.1 he]
    exact .scalar _
  · exact .scalar _

/-- A sharee with a colour, and one of the instance too. -/
def blue : Map :=
  [("color", .string "blue"),
    ("recurrenceOverrides", .object [("2026-10-27T09:00:00", .object [("color", .string "red")])])]

theorem ordered_blue : Json.Ordered (.object blue) := by
  refine .object (by unfold Map.Increasing blue; decide) ?_
  simp only [blue, List.mem_cons, List.not_mem_nil, or_false]
  rintro e (rfl | rfl)
  · exact .scalar _
  · refine .object (List.pairwise_singleton _ _) fun e he => ?_
    rw [List.mem_singleton.1 he]
    refine .object (List.pairwise_singleton _ _) fun e he => ?_
    rw [List.mem_singleton.1 he]
    exact .scalar _

theorem per_user_apart_reminded :
    Harmless reminded blue (fun _ => true) ∧ HasRoom reminded blue fun _ => true := by
  obtain ⟨hevent, hprefs, -⟩ := per_user_apart ordered_reminded (some blue) (fun _ => true)
    ordered_blue ordered_reminded
  exact ⟨hevent.1 (by decide), hprefs.1 (by decide)⟩

/-- Someone it is shared with sees an empty override, takes it away, and with it goes the owner's
reminder. -/
theorem reminder_is_lost :
    ∃ edited, applyPatch (perUserView reminded none fun _ => true) "recurrenceOverrides/2026-10-27T09:00:00" .null =
        .ok edited ∧
      perUserAt reminded "2026-10-27T09:00:00" = [("useDefaultAlerts", .scalar (.bool true))] ∧
      perUserAt (splitPerUser edited reminded).1 "2026-10-27T09:00:00" = [] := by
  refine ⟨[("recurrenceOverrides", .object []), ("title", .string "Yoga")], ?_, by decide, by decide⟩
  have hview : perUserView reminded none (fun _ => true) =
      [("recurrenceOverrides", .object [("2026-10-27T09:00:00", .object [])]),
          ("title", .string "Yoga")] := by
    decide
  rw [hview]
  rfl

end UwuMail.Jscal
