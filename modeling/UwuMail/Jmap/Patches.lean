/-
# Patches in any order

The patch of an update is a JSON object of pointers and the values to set there (`jscal.rs`).  An
update is refused when one pointer lies inside another (`overlapping_paths`); otherwise its patches
are applied one by one, and the first that does not fit ends it.

* §2 is the check.  It sorts the pointers by their SEGMENTS and looks at neighbours only.
* §3 connects segments to tokens: escapes have one spelling, so pointers that differ as text differ
  as tokens too.
* §4: two walks that part somewhere change different members of one object, and each finds what it
  needs whatever the other did.
* §5: so the order of the patches does not matter.  They give one result, or they fail; the TEXT of
  a failure names the first patch that did not fit, and that is the one thing the order decides.
-/
import UwuMail.Jmap.Jscal
import UwuMail.Lib.Pieces
import UwuMail.Lib.Prefixes

namespace UwuMail.Jscal

open Json Lib

/-! ## 1. The source -/

/-- `path.split('/')` -/
def segments (path : String) : List String := (path.toList.splitOn '/').map String.ofList

/-- `overlapping_paths`: whether one path of a patch is a prefix of another. -/
def overlappingPaths (paths : List String) : Bool :=
  let split := (paths.map segments).insertionSort (· ≤ ·)
  (split.zip split.tail).any fun pair => decide (pair.1.length < pair.2.length) && pair.1.isPrefixOf pair.2

/-- The patches of an update, one after the other; the first that does not fit ends it. -/
def applyPatches (target : Map) (patches : List (String × Value)) : Except String Map :=
  patches.foldlM (fun target e => applyPatch target e.1 e.2) target

/-! ## 2. The check -/

/-- **What `overlapping_paths` finds**: a path of the patch lies inside another one. -/
theorem overlappingPaths_iff {paths : List String} :
    overlappingPaths paths = true ↔ ∃ p ∈ paths, ∃ q ∈ paths, Within (segments p) (segments q) := by
  have hsorted : ((paths.map segments).insertionSort (· ≤ ·)).Pairwise (· ≤ ·) :=
    List.pairwise_insertionSort _ _
  have hmem : ∀ s, s ∈ (paths.map segments).insertionSort (· ≤ ·) ↔ ∃ p ∈ paths, segments p = s := fun s => by
    rw [(List.perm_insertionSort _ _).mem_iff, List.mem_map]
  refine (neighboursNest_iff hsorted).trans ?_
  constructor
  · rintro ⟨s, hs, t, ht, h⟩
    obtain ⟨p, hp, rfl⟩ := (hmem s).1 hs
    obtain ⟨q, hq, rfl⟩ := (hmem t).1 ht
    exact ⟨p, hp, q, hq, h⟩
  · rintro ⟨p, hp, q, hq, h⟩
    exact ⟨_, (hmem _).2 ⟨p, hp, rfl⟩, _, (hmem _).2 ⟨q, hq, rfl⟩, h⟩

/-! ## 3. Segments and tokens -/

/-- Neither of two paths leads into the other. -/
def Apart {α : Type} (p q : List α) : Prop := ¬ p <+: q ∧ ¬ q <+: p

def escapeToken (token : List Char) : List Char :=
  (token.flatMap fun c => if c = '~' then ['~', '0'] else [c]).flatMap fun c => if c = '/'
    then ['~', '1'] else [c]

theorem escapeToken_cons (c : Char) (token : List Char) :
    escapeToken (c :: token) = escapeToken [c] ++ escapeToken token := by
  simp [escapeToken]

/-- A segment is the one spelling of its token. -/
theorem escapeToken_unescape : ∀ {segment token : List Char}, unescape segment = some token → '/' ∉ segment →
    escapeToken token = segment := by
  intro segment
  induction segment using unescape.induct with
  | case1 =>
    intro token h _
    cases h
    rfl
  | case2 rest ih =>
    intro token h hslash
    obtain ⟨token', h', rfl⟩ := Option.map_eq_some_iff.1 h
    rw [escapeToken_cons, ih h' (by simp_all)]
    rfl
  | case3 rest ih =>
    intro token h hslash
    obtain ⟨token', h', rfl⟩ := Option.map_eq_some_iff.1 h
    rw [escapeToken_cons, ih h' (by simp_all)]
    rfl
  | case4 rest h0 h1 =>
    intro token h
    rw [unescape] at h
    · cases h
    · exact h0
    · exact h1
  | case5 c rest h0 h1 h2 ih =>
    intro token h hslash
    rw [unescape] at h
    · obtain ⟨token', h', rfl⟩ := Option.map_eq_some_iff.1 h
      have hc : c ≠ '/' := fun heq => hslash (heq ▸ List.mem_cons_self)
      have htilde : ¬ c = '~' := h2
      have hone : escapeToken [c] = [c] := by simp [escapeToken, hc, htilde]
      rw [escapeToken_cons, ih h' fun hmem => hslash (List.mem_cons_of_mem _ hmem), hone]
      rfl
    · exact h0
    · exact h1
    · exact h2

/-- A prefix of what a row is read as is what a prefix of the row is read as. -/
theorem prefix_of_mapM {α β : Type} {f : α → Option β} (P : α → Prop)
    (hinj : ∀ a b c, P a → P b → f a = some c → f b = some c → a = b) :
    ∀ {l m : List α} {bs cs : List β}, (∀ a ∈ l, P a) → (∀ a ∈ m, P a) → l.mapM f = some bs →
      m.mapM f = some cs →
      bs <+: cs → l <+: m
  | [], _, _, _, _, _, _, _, _ => List.nil_prefix
  | a :: l, m, bs, cs, hl, hm, hbs, hcs, h => by
    simp only [List.mapM_cons, Option.bind_eq_bind, Option.bind_eq_some_iff, Option.pure_def,
      Option.some.injEq] at hbs
    obtain ⟨b, hb, bs, hbs, rfl⟩ := hbs
    obtain ⟨cs', rfl, hrest⟩ := List.cons_prefix_iff.1 h
    cases m with
    | nil => cases hcs
    | cons a' m =>
      simp only [List.mapM_cons, Option.bind_eq_bind, Option.bind_eq_some_iff, Option.pure_def,
        Option.some.injEq, List.cons.injEq] at hcs
      obtain ⟨c, hc, cs, hcs, rfl, rfl⟩ := hcs
      have hsame := hinj a a' c (hl a List.mem_cons_self) (hm a' List.mem_cons_self) hb hc
      exact List.cons_prefix_cons.2 ⟨hsame, prefix_of_mapM P hinj (fun a h => hl a (List.mem_cons_of_mem _ h))
        (fun a h => hm a (List.mem_cons_of_mem _ h)) hbs hcs hrest⟩

theorem prefix_segments {p q : String} {ts us : List String} (hp : pointerTokens p = some ts)
    (hq : pointerTokens q = some us) (h : ts <+: us) : segments p <+: segments q := by
  refine (prefix_of_mapM (fun segment => '/' ∉ segment) (fun a b c ha hb hac hbc => ?_)
    (fun _ => Lib.notMem_of_mem_splitOn) (fun _ => Lib.notMem_of_mem_splitOn) hp hq h).map _
  obtain ⟨token, htoken, rfl⟩ := Option.map_eq_some_iff.1 hac
  obtain ⟨token', htoken', heq⟩ := Option.map_eq_some_iff.1 hbc
  rw [String.ofList_inj] at heq
  rw [← escapeToken_unescape htoken ha, ← escapeToken_unescape htoken' hb, heq]

theorem segments_injective {p q : String} (h : segments p = segments q) : p = q := by
  have hsplit : p.toList.splitOn '/' = q.toList.splitOn '/' :=
    List.map_injective_iff.2 (fun _ _ => String.ofList_inj.1) h
  have hjoined := congrArg (List.intercalate ['/']) hsplit
  rwa [List.intercalate_splitOn, List.intercalate_splitOn, String.toList_inj] at hjoined

/-- **Pointers that are apart as text walk apart.** -/
theorem Apart.tokens {p q : String} {ts us : List String} (h : Apart (segments p) (segments q))
    (hp : pointerTokens p = some ts) (hq : pointerTokens q = some us) : Apart ts us :=
  ⟨fun hpre => h.1 (prefix_segments hp hq hpre), fun hpre => h.2 (prefix_segments hq hp hpre)⟩

/-! ## 4. Two walks -/

/-- The member of an object, set or taken away. -/
def put (m : Map) (key : String) : Option Value → Map
  | some value => m.insert key value
  | none => m.remove key

/-- What a walk makes of a member it goes through: an object has to be there. -/
def within (change : Map → Option Map) : Option Value → Option (Option Value)
  | some (.object inner) => (change inner).map fun inner => some (.object inner)
  | _ => none

section
variable {m current : Map} {key key' : String} {held held' : Option Value} {v w : Value}
  {last last' : String} {parents parents' : List String}

theorem get_put : Map.get (put m key held) key' = if key = key' then held else Map.get m key' := by
  cases held with
  | none => exact Map.get_remove
  | some value => exact Map.get_insert

theorem increasing_put (h : m.Increasing) : (put m key held).Increasing := by
  cases held with
  | none => exact h.remove
  | some value => exact h.insert

/-- Two members of an object are set in any order. -/
theorem put_comm (h : m.Increasing) (hne : key ≠ key') :
    put (put m key held) key' held' = put (put m key' held') key held := by
  refine (increasing_put (increasing_put h)).ext (increasing_put (increasing_put h)) fun k => ?_
  simp only [get_put]
  by_cases hk : key = k
  · have hk' : ¬ key' = k := fun h => hne (hk.trans h.symm)
    simp only [if_pos hk, if_neg hk']
  · simp only [if_neg hk]

/-- **A walk only looks at the member it begins with**, and puts something in its place: the value
itself when it ends there, else an object that has to be there already. -/
theorem patchAt_eq (v : Value) (last : String) (parents : List String) :
    ∃ (head : String) (change : Option Value → Option (Option Value)), (parents ++ [last]).head? = some head ∧
      (∀ m, patchAt v last m parents = (change (Map.get m head)).map (put m head)) ∧
        ((parents = [] ∧ ∀ held, change held = some (if v.isNull then none else some v)) ∨
          (parents ≠ [] ∧ change none = none ∧
            ∀ held held', change held = some held' → ∃ inner, held' = some (.object inner))) := by
  cases parents with
  | nil =>
    refine ⟨last, fun _ => some (if v.isNull then none else some v), rfl, fun m => ?_,
      .inl ⟨rfl, fun _ => rfl⟩⟩
    simp only [patchAt, Option.map_some]
    cases v.isNull <;> rfl
  | cons token parents =>
    refine ⟨token, within fun inner => patchAt v last inner parents, rfl, fun m => ?_,
      .inr ⟨List.cons_ne_nil _ _, rfl, fun held held' h => ?_⟩⟩
    · rw [patchAt]
      split
      next inner hinner =>
        rw [hinner, within, Option.map_map]
        rfl
      next hnone =>
        unfold within
        split
        next inner hinner => exact absurd hinner (hnone inner)
        next => rfl
    · unfold within at h
      split at h
      next inner =>
        obtain ⟨inner', -, rfl⟩ := Option.map_eq_some_iff.1 h
        exact ⟨inner', rfl⟩
      next => cases h

theorem Ordered.patchAt (hv : Json.Ordered v) : ∀ {parents : List String} {current current' : Map},
    Json.Ordered (.object current) → Jscal.patchAt v last current parents = some current' →
      Json.Ordered (.object current')
  | [], current, _, hm, h => by
    cases h
    split
    · exact hm.remove
    · exact hm.insert hv
  | token :: parents, current, _, hm, h => by
    unfold Jscal.patchAt at h
    split at h
    next inner hinner =>
      obtain ⟨inner', hpatch, rfl⟩ := Option.map_eq_some_iff.1 h
      exact hm.insert (Ordered.patchAt hv (hm.of_get hinner) hpatch)
    next => cases h

theorem insert_insert (h : m.Increasing) : (m.insert key v).insert key w = m.insert key w := by
  refine h.insert.insert.ext h.insert fun k => ?_
  simp only [Map.get_insert]
  split <;> rfl

/-- The walk through a member that is an object. -/
theorem patchAt_under {inner : Map} (h : Map.get m key = some (.object inner)) :
    patchAt v last m (key :: parents) =
      (patchAt v last inner parents).map fun inner => m.insert key (.object inner) := by
  simp only [patchAt, h]

theorem patchAt_insert {inner : Map} (h : m.Increasing) :
    patchAt v last (m.insert key (.object inner)) (key :: parents) =
      (patchAt v last inner parents).map fun inner => m.insert key (.object inner) := by
  have hget : Map.get (m.insert key (.object inner)) key = some (.object inner) := by
    rw [Map.get_insert, if_pos rfl]
  simp only [patchAt_under hget, insert_insert h]

/-- **Two walks that part**: whether the second finds what it needs does not depend on the first,
and both orders end with one object.  The induction follows the way the two have in common. -/
theorem patchAt_comm : ∀ {parents parents' : List String} {current : Map}, Json.Ordered (.object current) →
    Apart (parents ++ [last]) (parents' ++ [last']) →
      ((patchAt v last current parents).bind fun m => patchAt w last' m parents') =
          ((patchAt w last' current parents').bind fun m => patchAt v last m parents) ∧
        ∀ m, patchAt v last current parents = some m →
          (patchAt w last' m parents').isSome = (patchAt w last' current parents').isSome := by
  intro parents parents' current hm hapart
  by_cases hheads : (parents ++ [last]).head? = (parents' ++ [last']).head?
  · -- the same member first: it has to be an object for both
    cases parents with
    | nil =>
      refine absurd ?_ hapart.1
      cases parents' <;> simp_all
    | cons token parents =>
      cases parents' with
      | nil => simp_all [Apart]
      | cons token' parents' =>
        obtain rfl : token = token' := by simpa using hheads
        have hapart' : Apart (parents ++ [last]) (parents' ++ [last']) :=
          ⟨fun h => hapart.1 (List.cons_prefix_cons.2 ⟨rfl, h⟩),
            fun h => hapart.2 (List.cons_prefix_cons.2 ⟨rfl, h⟩)⟩
        cases hget : Map.get current token with
        | none => simp [patchAt, hget]
        | some value =>
          cases value with
          | scalar s => simp [patchAt, hget]
          | array values => simp [patchAt, hget]
          | object inner =>
            have hinner := hm.of_get hget
            obtain ⟨hcomm, hstill⟩ := patchAt_comm hinner hapart'
            have hinsert := fun {v last inner parents} =>
              @patchAt_insert current token v last parents inner hm.increasing
            constructor
            · have hboth := congrArg (Option.map fun inner => Map.insert current token (.object inner)) hcomm
              rw [patchAt_under hget, patchAt_under hget, Option.bind_map, Option.bind_map]
              simpa only [Function.comp_def, hinsert, Option.map_bind] using hboth
            · intro m h
              rw [patchAt_under hget] at h
              obtain ⟨inner', hpatch, rfl⟩ := Option.map_eq_some_iff.1 h
              rw [hinsert, patchAt_under hget, Option.isSome_map, Option.isSome_map, hstill inner' hpatch]
  · obtain ⟨head, change, hhead, heq, -⟩ := patchAt_eq v last parents
    obtain ⟨head', change', hhead', heq', -⟩ := patchAt_eq w last' parents'
    have hne : head ≠ head' := fun h => hheads (by rw [hhead, hhead', h])
    have hother : ∀ held, Map.get (put current head held) head' = Map.get current head' := fun held => by
      rw [get_put, if_neg hne]
    have hother' : ∀ held, Map.get (put current head' held) head = Map.get current head := fun held => by
      rw [get_put, if_neg hne.symm]
    constructor
    · simp only [heq, heq', Option.bind_map, Function.comp_def, hother, hother']
      cases change (Map.get current head) with
      | none => cases change' (Map.get current head') <;> rfl
      | some held =>
        cases change' (Map.get current head') with
        | none => rfl
        | some held' =>
          simp only [Option.bind_some, Option.map_some]
          rw [put_comm hm.increasing hne]
    · intro m h
      rw [heq] at h
      obtain ⟨held, -, rfl⟩ := Option.map_eq_some_iff.1 h
      rw [heq', heq', hother, Option.isSome_map, Option.isSome_map]

end

/-! ## 5. The patches of an update -/

section
variable {target target' : Map} {p q : String × Value} {patches patches' : List (String × Value)}
  {why : String}

/-- What the type of JSON objects and the check of the pointers promise of a patch. -/
structure Patching (patches : List (String × Value)) : Prop where
  ordered : ∀ p ∈ patches, Json.Ordered p.2
  apart : patches.Pairwise fun p q => Apart (segments p.1) (segments q.1)

theorem Patching.tail (h : Patching (p :: patches)) : Patching patches :=
  ⟨fun q hq => h.ordered q (List.mem_cons_of_mem _ hq), h.apart.of_cons⟩

theorem Patching.perm (h : Patching patches) (hperm : patches.Perm patches') : Patching patches' :=
  ⟨fun p hp => h.ordered p (hperm.mem_iff.2 hp), h.apart.perm hperm fun hpq => ⟨hpq.2, hpq.1⟩⟩

/-- **The check is what it takes**: pointers that are all different and pass it are apart. -/
theorem Patching.of_check (hordered : ∀ p ∈ patches, Json.Ordered p.2) (hnodup : (patches.map (·.1)).Nodup)
    (hcheck : overlappingPaths (patches.map (·.1)) = false) : Patching patches := by
  have hnone : ¬ ∃ p ∈ patches.map (·.1), ∃ q ∈ patches.map (·.1), Within (segments p) (segments q) := by
    rw [← overlappingPaths_iff, hcheck]
    decide
  refine ⟨hordered, (List.pairwise_map.1 hnodup).imp_of_mem fun {p q} hp hq hne => ?_⟩
  have hp' := List.mem_map_of_mem (f := fun e : String × Value => e.1) hp
  have hq' := List.mem_map_of_mem (f := fun e : String × Value => e.1) hq
  have hsegments : segments p.1 ≠ segments q.1 := fun h => hne (segments_injective h)
  exact ⟨fun h => hnone ⟨_, hp', _, hq', h, hsegments⟩, fun h => hnone ⟨_, hq', _, hp', h, hsegments.symm⟩⟩

/-- A pointer that cannot be read fails everywhere; one that can is a walk. -/
theorem applyPatch_eq (path : String) (value : Value) :
    ∃ why, (∀ m, applyPatch m path value = .error why) ∨
      ∃ parents last, pointerTokens path = some (parents ++ [last]) ∧
        ∀ m, applyPatch m path value = (patchAt value last m parents).elim (.error why) .ok := by
  unfold applyPatch
  cases htokens : pointerTokens path with
  | none => exact ⟨s!"{path} is not a valid pointer", .inl fun _ => rfl⟩
  | some tokens =>
    dsimp only
    cases hlast : tokens.getLast? with
    | none => exact ⟨"an empty pointer", .inl fun _ => rfl⟩
    | some last =>
      refine ⟨s!"{path} points into something that is not an object",
        .inr ⟨tokens.dropLast, last, ?_, fun m => ?_⟩⟩
      · rw [List.dropLast_append_getLast? last hlast]
      · dsimp only
        cases patchAt value last m tokens.dropLast <;> rfl

theorem applyPatch_ordered (htarget : Json.Ordered (.object target)) (hp : Json.Ordered p.2)
    (h : applyPatch target p.1 p.2 = .ok target') : Json.Ordered (.object target') := by
  obtain ⟨why, hall | ⟨parents, last, -, hall⟩⟩ := applyPatch_eq p.1 p.2
  · rw [hall] at h
    cases h
  · rw [hall] at h
    cases hpatch : patchAt p.2 last target parents with
    | none => simp [hpatch] at h
    | some m =>
      obtain rfl : m = target' := by simpa [hpatch] using h
      exact Ordered.patchAt hp htarget hpatch

/-- **Two patches that are apart.**  Whether and how the second fails does not depend on the first,
and both orders end with one object. -/
theorem applyPatch_comm (htarget : Json.Ordered (.object target))
    (hapart : Apart (segments p.1) (segments q.1))
    (h : applyPatch target p.1 p.2 = .ok target') :
    (∀ why, applyPatch target' q.1 q.2 = .error why ↔ applyPatch target q.1 q.2 = .error why) ∧
      ∀ m, applyPatch target q.1 q.2 = .ok m →
        applyPatch target' q.1 q.2 = applyPatch m p.1 p.2 := by
  obtain ⟨whyq, hq | ⟨parents', last', htokens', hq⟩⟩ := applyPatch_eq q.1 q.2
  · simp [hq]
  · obtain ⟨whyp, hp | ⟨parents, last, htokens, hp⟩⟩ := applyPatch_eq p.1 p.2
    · rw [hp] at h
      cases h
    · rw [hp] at h
      cases hpatch : patchAt p.2 last target parents with
      | none => simp [hpatch] at h
      | some m =>
        obtain rfl : m = target' := by simpa [hpatch] using h
        obtain ⟨hcomm, hstill⟩ := @patchAt_comm p.2 q.2 last last' parents parents' target htarget
          (hapart.tokens htokens htokens')
        have hstill := hstill m hpatch
        rw [hpatch, Option.bind_some] at hcomm
        simp only [hq, hp]
        cases hq' : patchAt q.2 last' target parents' with
        | none =>
          rw [hq', Option.isSome_none, Option.isSome_eq_false_iff, Option.isNone_iff_eq_none] at hstill
          simp [hstill]
        | some n =>
          rw [hq', Option.bind_some] at hcomm
          rw [hq', Option.isSome_some] at hstill
          obtain ⟨r, hr⟩ := Option.isSome_iff_exists.1 hstill
          rw [hr] at hcomm
          constructor
          · simp [hr]
          · intro m' hm'
            obtain rfl : n = m' := by simpa using hm'
            rw [hr, ← hcomm]
            rfl

theorem applyPatches_cons : applyPatches target (p :: patches) =
    (applyPatch target p.1 p.2).bind fun m => applyPatches m patches := rfl

/-- **An update fails with one of the patches that fail by themselves**, and it fails if there is
one. -/
theorem applyPatches_error (htarget : Json.Ordered (.object target)) (hpatches : Patching patches) :
    (∀ why, applyPatches target patches = .error why →
      ∃ p ∈ patches, applyPatch target p.1 p.2 = .error why) ∧
      ∀ m, applyPatches target patches = .ok m → ∀ p ∈ patches, ∀ why,
          applyPatch target p.1 p.2 ≠ .error why := by
  induction patches generalizing target with
  | nil =>
    constructor
    · intro why h
      cases h
    · intro m _ p hp
      cases hp
  | cons p patches ih =>
    rw [applyPatches_cons]
    cases hp : applyPatch target p.1 p.2 with
    | error whyp =>
      constructor
      · intro why h
        exact ⟨p, List.mem_cons_self, hp.trans h⟩
      · intro m h
        cases h
    | ok target' =>
      have hordered := applyPatch_ordered htarget (hpatches.ordered p List.mem_cons_self) hp
      have hstill : ∀ q ∈ patches, ∀ why,
          applyPatch target' q.1 q.2 = .error why ↔ applyPatch target q.1 q.2 = .error why := fun q hq =>
        (applyPatch_comm htarget ((List.pairwise_cons.1 hpatches.apart).1 q hq) hp).1
      obtain ⟨herror, hok⟩ := ih hordered hpatches.tail
      constructor
      · intro why h
        obtain ⟨q, hq, hfail⟩ := herror why h
        exact ⟨q, List.mem_cons_of_mem _ hq, (hstill q hq why).1 hfail⟩
      · intro m h q hq why hfail
        rcases List.mem_cons.1 hq with rfl | hq
        · rw [hp] at hfail
          cases hfail
        · exact hok m h q hq why ((hstill q hq why).2 hfail)

/-- **The order of the patches does not matter for what they make of the object.** -/
theorem applyPatches_perm (hperm : patches.Perm patches') {target : Map}
    (htarget : Json.Ordered (.object target))
    (hpatches : Patching patches) {result : Map} (h : applyPatches target patches = .ok result) :
    applyPatches target patches' = .ok result := by
  induction hperm generalizing target with
  | nil => exact h
  | @cons p patches patches' hperm ih =>
    rw [applyPatches_cons] at h ⊢
    cases hp : applyPatch target p.1 p.2 with
    | error why =>
      rw [hp] at h
      cases h
    | ok target' =>
      rw [hp] at h
      exact ih (applyPatch_ordered htarget (hpatches.ordered p List.mem_cons_self) hp) hpatches.tail h
  | swap p q patches =>
    -- `q` is first in the hypothesis, `p` in the goal
    have hapart := (List.pairwise_cons.1 hpatches.apart).1 p List.mem_cons_self
    rw [applyPatches_cons] at h ⊢
    cases hq : applyPatch target q.1 q.2 with
    | error why =>
      rw [hq] at h
      cases h
    | ok target' =>
      obtain ⟨hfails, hsame⟩ := applyPatch_comm htarget hapart hq
      rw [hq] at h
      cases hp : applyPatch target p.1 p.2 with
      | error why =>
        have hp' := (hfails why).2 hp
        simp only [Except.bind, applyPatches_cons, hp'] at h
        cases h
      | ok target'' =>
        simp only [Except.bind, applyPatches_cons, hsame _ hp] at h ⊢
        exact h
  | trans hleft _ ih ih' => exact ih' htarget (hpatches.perm hleft) (ih htarget hpatches h)

/-- **Patches in any order.**  `overlapping_paths` finds an overlap just when one path is a strict
prefix of another, segment by segment.  Without one, a patch gives the same object in whichever
order it is applied, or it fails in every order, each time as one of its members fails on its own. -/
theorem patch_order (htarget : Json.Ordered (.object target)) (hvalues : ∀ p ∈ patches, Json.Ordered p.2)
    (hnodup : (patches.map (·.1)).Nodup) (hcheck : overlappingPaths (patches.map (·.1)) = false)
    (hperm : patches.Perm patches') (paths : List String) :
    (overlappingPaths paths = true ↔ ∃ p ∈ paths, ∃ q ∈ paths, Within (segments p) (segments q)) ∧
      (∀ result, applyPatches target patches = .ok result ↔ applyPatches target patches' = .ok result) ∧
      ∀ why, applyPatches target patches = .error why →
        (∃ p ∈ patches, applyPatch target p.1 p.2 = .error why) ∧
          ∃ why', applyPatches target patches' = .error why' ∧
            ∃ p ∈ patches, applyPatch target p.1 p.2 = .error why' := by
  have hpatches := Patching.of_check hvalues hnodup hcheck
  have hpatches' := hpatches.perm hperm
  have hresult : ∀ result, applyPatches target patches = .ok result ↔
      applyPatches target patches' = .ok result :=
    fun result => ⟨applyPatches_perm hperm htarget hpatches, applyPatches_perm hperm.symm htarget hpatches'⟩
  refine ⟨overlappingPaths_iff, hresult, fun why h => ⟨(applyPatches_error htarget hpatches).1 why h, ?_⟩⟩
  cases hother : applyPatches target patches' with
  | ok result =>
    have hsame := (hresult result).2 hother
    rw [h] at hsame
    cases hsame
  | error why' =>
    obtain ⟨p, hp, hfail⟩ := (applyPatches_error htarget hpatches').1 why' hother
    exact ⟨why', rfl, p, hperm.mem_iff.2 hp, hfail⟩

end

/-- An event, and a patch of it whose paths sort apart by characters. -/
def hall : Map := [("locations", .object [("1", .object [("name", .string "Hall")])]),
    ("title", .string "Yoga")]

def renamed : List (String × Value) :=
  [("title", .null), ("locations/1/name", .string "Room"), ("locations!", .string "none")]

/-- ... and the event with it. -/
def renamedHall : Map :=
  [("locations", .object [("1", .object [("name", .string "Room")])]), ("locations!", .string "none")]

theorem patch_order_hall :
    applyPatches hall renamed = .ok renamedHall ↔ applyPatches hall renamed.reverse = .ok renamedHall := by
  have hhall : Json.Ordered (.object hall) := by
    refine .object (by unfold Map.Increasing hall; decide) ?_
    simp only [hall, List.mem_cons, List.not_mem_nil, or_false]
    rintro e (rfl | rfl)
    · refine .object (List.pairwise_singleton _ _) ?_
      simp only [List.mem_singleton]
      rintro e rfl
      refine .object (List.pairwise_singleton _ _) ?_
      simp only [List.mem_singleton]
      rintro e rfl
      exact .scalar _
    · exact .scalar _
  have hvalues : ∀ p ∈ renamed, Json.Ordered p.2 := by
    simp only [renamed, List.mem_cons, List.not_mem_nil, or_false]
    rintro p (rfl | rfl | rfl) <;> exact .scalar _
  have h := patch_order hhall hvalues (by decide) (by decide) renamed.reverse_perm.symm []
  exact h.2.1 renamedHall

/-- Two patches that do not fit: the failure names the one that came first. -/
theorem patch_failures_differ :
    ∃ patches patches' : List (String × Value), patches.Perm patches' ∧
      overlappingPaths (patches.map (·.1)) = false ∧
      applyPatches [] patches = .error "locations/1 points into something that is not an object" ∧
      applyPatches [] patches' = .error "participants/1 points into something that is not an object" :=
  ⟨[("locations/1", .null), ("participants/1", .null)], [("participants/1", .null), ("locations/1", .null)],
    .swap _ _ _, by decide, by rfl, by rfl⟩

end UwuMail.Jscal
