/-
# Changes in pages

A client that asks for changes with a limit gets them in pages, each up to a state from which the
next page goes on.  A page ends where `aggregate` would pass the limit, and never inside a modseq.

**The pages end at the current state**, each one later than the one before, and no id is created and
destroyed in one page (`paging`).  Whether they tell the client the same as one answer without a
limit is another matter. What became of an id is folded into ONE word, and a destroyed one stays
destroyed, or unmentioned, when it is created again.  In pages it is created, if the page that says
so begins between the two rows.  **So pages and the whole agree exactly when no id comes back
apart** (`ComesBack`): one that is destroyed and created again for good, with a row of another id at
their modseqs or between them (`paging_differs`).
-/
import UwuMail.Store.Clock
import UwuMail.Store.Objects

namespace UwuMail.Store

open Table

/-! ## 1. The log -/

/-- The rows of one account and one kind: `ORDER BY modseq, object_id`, which is a key of them. -/
structure ChangeLog where
  rows : List LogEntry
  current : Int
  sorted : rows.Pairwise fun a b => a.modseq < b.modseq ∨ a.modseq = b.modseq ∧ a.object < b.object
  upto : ∀ r ∈ rows, r.modseq ≤ current

namespace ChangeLog

/-- `WHERE modseq > since`. -/
def after (log : ChangeLog) (since : Int) : List LogEntry :=
  log.rows.filter fun r => decide (r.modseq > since)

/-- `changes`, of one account and one kind. -/
def changes (log : ChangeLog) (since : Int) (maxChanges : Nat) : Except StoreError Changes :=
  if since < 0 ∨ since > log.current then .error (.invalid s!"unknown state {since}")
  else .ok (aggregate (log.after since) log.current maxChanges)

/-- The answers of a client's calls, one page after the other until there is no more. -/
inductive Paging (log : ChangeLog) (maxChanges : Nat) : Int → List Changes → Prop where
  | last {since : Int} {page : Changes} (h : log.changes since maxChanges = .ok page)
      (hlast : page.hasMore = false) : Paging log maxChanges since [page]
  | more {since : Int} {page : Changes} {pages : List Changes} (h : log.changes since maxChanges = .ok page)
      (hmore : page.hasMore = true) (hrest : Paging log maxChanges page.newState pages) :
      Paging log maxChanges since (page :: pages)

end ChangeLog

/-- What a client does with an answer: the created ids come in, the destroyed ones go. -/
def Changes.apply (page : Changes) (ids : Set Int) : Set Int :=
  {o | (o ∈ ids ∨ o ∈ page.created) ∧ o ∉ page.destroyed}

def applyAll (pages : List Changes) (ids : Set Int) : Set Int :=
    pages.foldl (fun ids page => page.apply ids) ids

/-- The changes of an id, in order, tell what happens to something that is there at first or is
not. -/
def Tells : Prop → List ChangeType → Prop
  | _, [] => True
  | there, .created :: changes => ¬ there ∧ Tells True changes
  | there, .updated :: changes => there ∧ Tells there changes
  | there, .destroyed :: changes => there ∧ Tells False changes

/-- Whether it is there in the end. -/
def endsThere : Prop → List ChangeType → Prop
  | there, [] => there
  | _, .created :: changes => endsThere True changes
  | there, .updated :: changes => endsThere there changes
  | _, .destroyed :: changes => endsThere False changes

/-- The changes of one id in some rows. -/
def changesOf (o : Int) (rows : List LogEntry) : List ChangeType :=
  (rows.filter fun r => r.object == o).map (·.change)

/-- The client's ids are what was there at the start: the rows tell their history. -/
def Exact (ids : Set Int) (rows : List LogEntry) : Prop := ∀ o, Tells (o ∈ ids) (changesOf o rows)

/-- An id is destroyed and then created again for good, and another id has a row at the modseq of
one of these two rows or between them. -/
def ComesBack (rows : List LogEntry) : Prop :=
  ∃ d ∈ rows, ∃ c ∈ rows, d.object = c.object ∧ d.change = .destroyed ∧ c.change = .created ∧
    d.modseq < c.modseq ∧
    (∀ r ∈ rows, r.object = c.object → ¬ (d.modseq < r.modseq ∧ r.modseq < c.modseq)) ∧
    (∀ r ∈ rows, r.object = c.object → c.modseq < r.modseq → r.change ≠ .destroyed) ∧
    ∃ r ∈ rows, r.object ≠ c.object ∧ d.modseq ≤ r.modseq ∧ r.modseq ≤ c.modseq

/-! ## 2. What a page says of an id -/

section Answers

/-- What some rows make of an id. -/
def seenOf (changes : List ChangeType) : Option Seen :=
    changes.foldl (fun seen c => some (Seen.next seen c)) none

/-- What the client holds of it afterwards. -/
def told (seen : Option Seen) (held : Prop) : Prop :=
  match seen with
  | some .created => True
  | some .destroyed => False
  | _ => held

variable {objects : SeenMap} {rows : List LogEntry} {o : Int} {changes : List ChangeType}
  {held there : Prop}

theorem get?_see (row : LogEntry) : (see objects row).get? o =
    if o = row.object then some (Seen.next (objects.get? row.object) row.change) else objects.get? o := by
  rw [see, SortedMap.get?_insert]

theorem get?_foldl_see : (rows.foldl see objects).get? o =
    (changesOf o rows).foldl (fun seen c => some (Seen.next seen c)) (objects.get? o) := by
  induction rows generalizing objects with
  | nil => rfl
  | cons row rows ih =>
    rw [List.foldl_cons, ih, get?_see, changesOf, changesOf, List.filter_cons]
    by_cases h : o = row.object
    · subst h
      simp
    · simp [h, Ne.symm h]

theorem mem_keysOf {seen : Seen} : o ∈ SeenMap.keysOf objects seen ↔ objects.get? o = some seen := by
  simp only [SeenMap.keysOf, List.mem_map, List.mem_filter, beq_iff_eq]
  constructor
  · rintro ⟨⟨k, v⟩, ⟨hmem, rfl⟩, rfl⟩
    exact SortedMap.mem_entries.1 hmem
  · exact fun h => ⟨(o, seen), ⟨SortedMap.mem_entries.2 h, rfl⟩, rfl⟩

/-- Once it is seen, only a destruction changes what an id is seen as. -/
theorem foldl_next (seen : Seen) : changes.foldl (fun seen c => some (Seen.next seen c)) (some seen) =
    if .destroyed ∈ changes then some (Seen.next (some seen) .destroyed) else some seen := by
  induction changes generalizing seen with
  | nil => rfl
  | cons c changes ih =>
    rw [List.foldl_cons, ih]
    cases c <;> cases seen <;> simp [Seen.next]

theorem seenOf_cons (c : ChangeType) : seenOf (c :: changes) =
    if .destroyed ∈ changes then some (Seen.next (some (Seen.next none c)) .destroyed)
    else some (Seen.next none c) := foldl_next _

/-- Where nothing is destroyed, what is held stays held. -/
theorem told_of_held (hno : .destroyed ∉ changes) (hheld : held) : told (seenOf changes) held := by
  cases changes with
  | nil => exact hheld
  | cons c changes =>
    rw [seenOf_cons, if_neg fun h => hno (List.mem_cons_of_mem _ h)]
    cases c with
    | created => trivial
    | updated => exact hheld
    | destroyed => exact absurd List.mem_cons_self hno

/-- What is there stays there until it is destroyed. -/
theorem endsThere_of_kept (hno : .destroyed ∉ changes) (hthere : there) : endsThere there changes := by
  induction changes generalizing there with
  | nil => exact hthere
  | cons c changes ih =>
    have hno' : .destroyed ∉ changes := fun h => hno (List.mem_cons_of_mem _ h)
    cases c with
    | created => exact ih hno' trivial
    | updated =>
      show endsThere there changes
      exact ih hno' hthere
    | destroyed => exact absurd List.mem_cons_self hno

/-- And it is not created again. -/
theorem not_created (htells : Tells True changes) (hno : .destroyed ∉ changes) : .created ∉ changes := by
  induction changes with
  | nil => exact List.not_mem_nil
  | cons c changes ih =>
    have hno' : .destroyed ∉ changes := fun h => hno (List.mem_cons_of_mem _ h)
    cases c with
    | created => exact absurd trivial htells.1
    | updated =>
      rw [List.mem_cons, not_or]
      exact ⟨by decide, ih htells.2 hno'⟩
    | destroyed => exact absurd List.mem_cons_self hno

/-- What begins with a creation, and is not destroyed again, is told. -/
theorem told_created (hno : .destroyed ∉ changes) : told (seenOf (.created :: changes)) held := by
  rw [seenOf_cons, if_neg hno]
  trivial

/-- Where nothing is created or destroyed, nothing changes. -/
theorem told_same (hno : .destroyed ∉ changes) (hno' : .created ∉ changes) :
    told (seenOf changes) held ↔ held := by
  cases changes with
  | nil => rfl
  | cons c changes =>
    rw [seenOf_cons, if_neg fun h => hno (List.mem_cons_of_mem _ h)]
    cases c with
    | created => exact absurd List.mem_cons_self hno'
    | updated => rfl
    | destroyed => exact absurd List.mem_cons_self hno

/-- **After a destruction the client does not hold the id**, whatever follows in the page. -/
theorem not_told (htells : Tells there changes) (hheld : ¬ there → ¬ held) (hmem : .destroyed ∈ changes) :
    ¬ told (seenOf changes) held := by
  cases changes with
  | nil => cases hmem
  | cons c changes =>
    rw [seenOf_cons]
    cases c with
    | created =>
      rw [if_pos (List.mem_of_ne_of_mem (by decide) hmem)]
      exact hheld htells.1
    | updated =>
      rw [if_pos (List.mem_of_ne_of_mem (by decide) hmem)]
      exact id
    | destroyed =>
      split <;> exact id

/-- The client holds only what is there. -/
theorem there_of_told (htells : Tells there changes) (hheld : held → there)
    (htold : told (seenOf changes) held) : endsThere there changes := by
  by_cases hmem : .destroyed ∈ changes
  · exact absurd htold (not_told htells (mt hheld) hmem)
  cases changes with
  | nil => exact hheld htold
  | cons c changes =>
    have hno : .destroyed ∉ changes := fun h => hmem (List.mem_cons_of_mem _ h)
    cases c with
    | created =>
      show endsThere True changes
      exact endsThere_of_kept hno trivial
    | updated =>
      show endsThere there changes
      exact endsThere_of_kept hno htells.1
    | destroyed => exact absurd List.mem_cons_self hmem

/-- Without a destruction, it holds all of it. -/
theorem told_of_there (hheld : there → held) (hno : .destroyed ∉ changes) (hends : endsThere there changes)
    (htells : Tells there changes) : told (seenOf changes) held := by
  cases changes with
  | nil => exact hheld hends
  | cons c changes =>
    have hno' : .destroyed ∉ changes := fun h => hno (List.mem_cons_of_mem _ h)
    cases c with
    | created => exact told_created hno'
    | updated => exact told_of_held hno (hheld htells.1)
    | destroyed => exact absurd List.mem_cons_self hno

theorem tells_append {changes' : List ChangeType} : Tells there (changes ++ changes') ↔
    Tells there changes ∧ Tells (endsThere there changes) changes' := by
  induction changes generalizing there with
  | nil => simp [Tells, endsThere]
  | cons c changes ih => cases c <;> simp [Tells, endsThere, ih, and_assoc]

theorem endsThere_append {changes' : List ChangeType} :
    endsThere there (changes ++ changes') = endsThere (endsThere there changes) changes' := by
  induction changes generalizing there with
  | nil => rfl
  | cons c changes ih => cases c <;> exact ih

/-- Something that was destroyed and is there in the end was created right after it was destroyed
the last time. -/
theorem created_again (htells : Tells there changes) (hends : endsThere there changes)
    (hmem : .destroyed ∈ changes) : ∃ front back, changes = front ++ .destroyed :: .created :: back ∧
      .destroyed ∉ back ∧ .created ∉ back := by
  induction changes generalizing there with
  | nil => cases hmem
  | cons c changes ih =>
    by_cases hmore : .destroyed ∈ changes
    · have : ∃ t, Tells t changes ∧ endsThere t changes := by
        cases c with
        | created => exact ⟨True, htells.2, hends⟩
        | updated => exact ⟨there, htells.2, hends⟩
        | destroyed => exact ⟨False, htells.2, hends⟩
      obtain ⟨t, ht, hends⟩ := this
      obtain ⟨front, back, rfl, hback⟩ := ih ht hends hmore
      exact ⟨c :: front, back, rfl, hback⟩
    · obtain rfl : c = .destroyed := by
        rcases List.mem_cons.1 hmem with h | h
        · exact h.symm
        · exact absurd h hmore
      -- after the last destruction: nothing, which is not there, or a creation
      cases changes with
      | nil => exact absurd hends id
      | cons c changes =>
        cases c with
        | created =>
          refine ⟨[], changes, rfl, fun h => hmore (List.mem_cons_of_mem _ h), ?_⟩
          exact not_created htells.2.2 fun h => hmore (List.mem_cons_of_mem _ h)
        | updated => exact absurd htells.2.1 id
        | destroyed => exact absurd List.mem_cons_self hmore

/-! ## 3. Where a page ends -/

/-- The test of `aggregate` before it takes one more modseq. -/
def Cut (maxChanges : Nat) (objects : SeenMap) (group : List LogEntry) : Prop :=
  maxChanges > 0 ∧ ¬ objects.isEmpty ∧
    objects.len + (group.filter fun row => (objects.get? row.object).isNone).length > maxChanges

/-- The groups are taken one after the other. -/
def Taken (maxChanges : Nat) : SeenMap → List (List LogEntry) → Prop
  | _, [] => True
  | objects, group :: groups => ¬ Cut maxChanges objects group ∧
    Taken maxChanges (group.foldl see objects) groups

variable {maxChanges : Nat} {group : List LogEntry} {groups taken rest : List (List LogEntry)}
  {current last : Int}

/-- The modseq of the group that was taken last. -/
def lastModseq (last : Int) (groups : List (List LogEntry)) : Int :=
  groups.foldl (fun last group => (group.head?.map (·.modseq)).getD last) last

theorem aggregateLoop_spec (current : Int) (maxChanges : Nat) (groups : List (List LogEntry)) (last : Int)
    (objects : SeenMap) : ∃ taken rest, groups = taken ++ rest ∧ Taken maxChanges objects taken ∧
      (∀ group more, rest = group :: more → Cut maxChanges (taken.flatten.foldl see objects) group) ∧
      aggregateLoop current maxChanges groups last objects =
        (taken.flatten.foldl see objects, if rest.isEmpty then current else lastModseq last taken,
          !rest.isEmpty) := by
  induction groups generalizing last objects with
  | nil => exact ⟨[], [], rfl, trivial, by simp, rfl⟩
  | cons group groups ih =>
    rw [aggregateLoop]
    split
    · rename_i hcut
      refine ⟨[], group :: groups, rfl, trivial, ?_, rfl⟩
      rintro _ _ ⟨⟩
      exact hcut
    · rename_i hcut
      obtain ⟨taken, rest, rfl, htaken, hrest, hloop⟩ :=
        ih ((group.head?.map (·.modseq)).getD last) (group.foldl see objects)
      refine ⟨group :: taken, rest, rfl, ⟨hcut, htaken⟩, ?_, ?_⟩
      · simpa [List.foldl_append] using hrest
      · rw [hloop]
        simp [List.foldl_append, lastModseq]

theorem len_see (row : LogEntry) :
    (see objects row).len = if (objects.get? row.object).isNone then objects.len + 1 else objects.len :=
  SortedMap.len_insert _ _ _

/-- A group brings no more ids than it has rows with new ones. -/
theorem len_foldl_see : (group.foldl see objects).len ≤
    objects.len + (group.filter fun row => (objects.get? row.object).isNone).length := by
  induction group generalizing objects with
  | nil => exact Nat.le_refl _
  | cons row group ih =>
    have hless : (group.filter fun r => ((see objects row).get? r.object).isNone).length ≤
        (group.filter fun r => (objects.get? r.object).isNone).length := by
      rw [← List.countP_eq_length_filter, ← List.countP_eq_length_filter]
      refine List.countP_mono_left fun r _ hr => ?_
      rw [get?_see] at hr
      split at hr
      · cases hr
      · exact hr
    have hnext : (group.foldl see (see objects row)).len ≤ (see objects row).len +
        (group.filter fun r => ((see objects row).get? r.object).isNone).length := ih
    rw [List.foldl_cons, List.filter_cons]
    rw [len_see] at hnext
    split
    · rename_i hnew
      rw [if_pos hnew] at hnext
      rw [List.length_cons]
      omega
    · rename_i hold
      rw [if_neg hold] at hnext
      omega

/-- The ids that a map holds are those of the rows and those that were held. -/
theorem isSome_foldl_see : ((group.foldl see objects).get? o).isSome ↔
    (objects.get? o).isSome ∨ ∃ r ∈ group, r.object = o := by
  induction group generalizing objects with
  | nil => simp
  | cons row group ih =>
    rw [List.foldl_cons, ih, get?_see]
    by_cases h : o = row.object
    · simp [h]
    · simp [h, Ne.symm h]

theorem isEmpty_foldl_see (h : group ≠ []) : ¬ (group.foldl see objects).isEmpty = true := by
  obtain ⟨row, hrow⟩ := List.exists_mem_of_ne_nil group h
  have hsome := isSome_foldl_see.2 (.inr ⟨row, hrow, rfl⟩ : (objects.get? row.object).isSome ∨ _)
  obtain ⟨v, hv⟩ := Option.isSome_iff_exists.1 hsome
  intro hempty
  have := SortedMap.mem_entries.2 hv
  rw [List.isEmpty_iff.1 hempty] at this
  cases this

/-- With a limit of one, what follows the first group is about the same id as it is. -/
theorem taken_one (hne : ¬ objects.isEmpty = true) (h : Taken 1 objects taken) :
    taken.flatten = [] ∨ ∃ o, (∀ k, (objects.get? k).isSome → k = o) ∧ ∀ r ∈ taken.flatten, r.object = o := by
  induction taken generalizing objects with
  | nil => exact .inl rfl
  | cons group taken ih =>
    by_cases hgroup : group = []
    · subst hgroup
      simpa using ih hne h.2
    obtain ⟨hcut, htaken⟩ := h
    have hpos : objects.len ≠ 0 := fun h => hne ((SortedMap.isEmpty_eq _).2 h)
    have hsmall : objects.len + (group.filter fun row => (objects.get? row.object).isNone).length ≤ 1 := by
      by_contra hlarge
      exact hcut ⟨Nat.one_pos, hne, Nat.lt_of_not_le hlarge⟩
    have hone : objects.len ≤ 1 := by omega
    have hold : ∀ r ∈ group, (objects.get? r.object).isSome := by
      intro r hr
      have hnone : (group.filter fun row => (objects.get? row.object).isNone) = [] :=
        List.eq_nil_of_length_eq_zero (by omega)
      have := List.filter_eq_nil_iff.1 hnone r hr
      simpa [Option.isSome_iff_ne_none] using this
    obtain ⟨first, hfirst⟩ := List.exists_mem_of_ne_nil group hgroup
    have hsame : ∀ k, (objects.get? k).isSome → k = first.object := fun k hk =>
      SortedMap.key_unique hone hk (hold first hfirst)
    have hgroupsame : ∀ r ∈ group, r.object = first.object := fun r hr => hsame _ (hold r hr)
    refine .inr ⟨first.object, hsame, ?_⟩
    rcases ih (isEmpty_foldl_see hgroup) htaken with hnil | ⟨o, ho, hall⟩
    · intro r hr
      rw [List.flatten_cons, hnil, List.append_nil] at hr
      exact hgroupsame r hr
    · have : first.object = o := ho _ (isSome_foldl_see.2 (.inr ⟨first, hfirst, rfl⟩))
      intro r hr
      rw [List.flatten_cons, List.mem_append] at hr
      rcases hr with hr | hr
      · exact hgroupsame r hr
      · rw [hall r hr, this]

theorem taken_append {front back : List (List LogEntry)} : Taken maxChanges objects (front ++ back) ↔
    Taken maxChanges objects front ∧ Taken maxChanges (front.flatten.foldl see objects) back := by
  induction front generalizing objects with
  | nil => simp [Taken]
  | cons group front ih => simp [Taken, ih, List.foldl_append, and_assoc]

theorem len_foldl_same (h : ∀ r ∈ group, r.object = o) : (group.foldl see objects).len ≤
    if (objects.get? o).isNone then objects.len + 1 else objects.len := by
  induction group generalizing objects with
  | nil =>
    rw [List.foldl_nil]
    split <;> omega
  | cons row group ih =>
    have hrow : row.object = o := h row List.mem_cons_self
    have hnext : (group.foldl see (see objects row)).len ≤
        if ((see objects row).get? o).isNone then (see objects row).len + 1 else (see objects row).len :=
      ih fun r hr => h r (List.mem_cons_of_mem _ hr)
    have hseen : ((see objects row).get? o).isNone = false := by
      rw [get?_see, if_pos hrow.symm]
      rfl
    rw [hseen, len_see, hrow] at hnext
    rw [List.foldl_cons]
    simpa using hnext

/-- Where the last group that is taken and the next one are about one id, the next one is taken
too. -/
theorem not_cut (hmax : 0 < maxChanges) {front : List (List LogEntry)} {next : List LogEntry}
    (htaken : Taken maxChanges SortedMap.empty (front ++ [group])) (hfront : [] ∉ front) (hgroup : group ≠ [])
    (hsame : ∀ r ∈ group, r.object = o) (hnext : ∀ r ∈ next, r.object = o) :
    ¬ Cut maxChanges ((front ++ [group]).flatten.foldl see SortedMap.empty) next := by
  have hflat : (front ++ [group]).flatten.foldl see SortedMap.empty =
      group.foldl see (front.flatten.foldl see SortedMap.empty) := by
    simp [List.foldl_append]
  obtain ⟨first, hfirst⟩ := List.exists_mem_of_ne_nil group hgroup
  have hseen : ((group.foldl see (front.flatten.foldl see SortedMap.empty)).get? o).isSome :=
    isSome_foldl_see.2 (.inr ⟨first, hfirst, hsame first hfirst⟩)
  have hnew : next.filter (fun row =>
      ((group.foldl see (front.flatten.foldl see SortedMap.empty)).get? row.object).isNone) = [] := by
    refine List.filter_eq_nil_iff.2 fun r hr => ?_
    rw [hnext r hr]
    simpa [Option.isSome_iff_ne_none] using hseen
  rw [hflat]
  rintro ⟨-, -, hcut⟩
  rw [hnew, List.length_nil, Nat.add_zero] at hcut
  rcases List.eq_nil_or_concat front with rfl | ⟨before, group', rfl⟩
  · have : (group.foldl see SortedMap.empty).len ≤ if ((SortedMap.empty : SeenMap).get? o).isNone then
        (SortedMap.empty : SeenMap).len + 1 else (SortedMap.empty : SeenMap).len := len_foldl_same hsame
    rw [List.flatten_nil, List.foldl_nil] at hcut
    have hempty : (SortedMap.empty : SeenMap).len = 0 := rfl
    rw [hempty] at this
    simp at this
    omega
  · have hne : ¬ ((before.concat group').flatten.foldl see SortedMap.empty).isEmpty = true := by
      refine isEmpty_foldl_see fun h => hfront ?_
      have hnil : group' = [] := List.flatten_eq_nil_iff.1 h group' (by simp)
      rw [List.concat_eq_append, hnil]
      simp
    have hnocut := (taken_append.1 htaken).2.1
    have hle : (group.foldl see ((before.concat group').flatten.foldl see SortedMap.empty)).len ≤
        ((before.concat group').flatten.foldl see SortedMap.empty).len + (group.filter fun row =>
          (((before.concat group').flatten.foldl see SortedMap.empty).get? row.object).isNone).length := len_foldl_see
    exact hnocut ⟨hmax, hne, by omega⟩

/-! ### The groups of a sorted log -/

/-- One modseq a group, in order. -/
structure Grouped (groups : List (List LogEntry)) : Prop where
  ne : [] ∉ groups
  same : ∀ g ∈ groups, ∀ r ∈ g, ∀ r' ∈ g, r.modseq = r'.modseq
  increasing : groups.Pairwise fun g g' => ∀ r ∈ g, ∀ r' ∈ g', r.modseq < r'.modseq

def SameModseq (a b : LogEntry) : Prop := a.modseq = b.modseq

instance : Trans SameModseq SameModseq SameModseq := ⟨fun h h' => Eq.trans h h'⟩

instance : Std.Symm SameModseq := ⟨fun _ _ h => Eq.symm h⟩

theorem increasing_of_chain {groups : List (List LogEntry)}
    (hle : groups.Pairwise fun g g' => ∀ r ∈ g, ∀ r' ∈ g', r.modseq ≤ r'.modseq)
    (hsame : ∀ g ∈ groups, ∀ r ∈ g, ∀ r' ∈ g, r.modseq = r'.modseq)
    (hchain : groups.IsChain fun a b => ∃ ha hb, ((a.getLast ha).modseq == (b.head hb).modseq) = false) :
    groups.Pairwise fun g g' => ∀ r ∈ g, ∀ r' ∈ g', r.modseq < r'.modseq := by
  induction groups with
  | nil => exact .nil
  | cons g groups ih =>
    obtain ⟨hg, hle⟩ := List.pairwise_cons.1 hle
    refine List.pairwise_cons.2 ⟨fun g' hg' r hr r' hr' => ?_,
      ih hle (fun g hg => hsame g (List.mem_cons_of_mem _ hg)) hchain.tail⟩
    cases groups with
    | nil => cases hg'
    | cons next groups =>
      -- the group after `g` begins later, and everything else comes after that
      obtain ⟨ha, hb, hne⟩ := (List.isChain_cons_cons.1 hchain).1
      have hlast := List.getLast_mem ha
      have hhead := List.head_mem hb
      have hstep := hg next List.mem_cons_self _ hlast _ hhead
      have hne : (g.getLast ha).modseq ≠ (next.head hb).modseq := by simpa using hne
      have hr : r.modseq = (g.getLast ha).modseq := hsame g List.mem_cons_self r hr _ hlast
      have hr' : (next.head hb).modseq ≤ r'.modseq := by
        rcases List.mem_cons.1 hg' with rfl | hg'
        · exact le_of_eq (hsame g' (by simp) _ hhead r' hr')
        · exact (List.pairwise_cons.1 hle).1 g' hg' _ hhead r' hr'
      omega

theorem grouped_splitBy (h : rows.Pairwise fun a b => a.modseq ≤ b.modseq) :
    Grouped (rows.splitBy fun a b : LogEntry => a.modseq == b.modseq) := by
  have hflat := List.flatten_splitBy (fun a b : LogEntry => a.modseq == b.modseq) rows
  have hsame : ∀ g ∈ rows.splitBy fun a b : LogEntry => a.modseq == b.modseq, ∀ r ∈ g, ∀ r' ∈ g,
      r.modseq = r'.modseq := by
    intro g hg
    have hchain := List.isChain_of_mem_splitBy hg
    have hpairs : g.Pairwise SameModseq :=
      (hchain.imp (S := SameModseq) fun a b hab => by simpa [SameModseq] using hab).pairwise
    intro r hr r' hr'
    exact List.Pairwise.forall_of_forall (R := SameModseq) (fun _ _ => rfl) hpairs hr hr'
  refine ⟨List.nil_notMem_splitBy _ _, hsame, increasing_of_chain ?_ hsame
    (List.isChain_getLast_head_splitBy (fun a b : LogEntry => a.modseq == b.modseq) rows)⟩
  rw [← hflat] at h
  exact (List.pairwise_flatten.1 h).2

/-- Where the groups are cut in two, the modseq of the last one tells the rows apart. -/
theorem Grouped.cut {front next : List (List LogEntry)} {group first : List LogEntry}
    (h : Grouped (front ++ [group] ++ first :: next)) (m : Int) (hm : ∀ r ∈ group, r.modseq = m) :
    (front ++ [group]).flatten = (front ++ [group] ++ first :: next).flatten.filter
      (fun r => decide (r.modseq ≤ m)) ∧
      (first :: next).flatten =
        (front ++ [group] ++ first :: next).flatten.filter (fun r => decide (r.modseq > m)) := by
  have hgroup : group ≠ [] := fun hnil => h.ne (by simp [hnil])
  obtain ⟨r₀, hr₀⟩ := List.exists_mem_of_ne_nil group hgroup
  obtain ⟨hleft, -, hcross⟩ := List.pairwise_append.1 h.increasing
  have hbefore : ∀ r ∈ (front ++ [group]).flatten, r.modseq ≤ m := by
    intro r hr
    obtain ⟨g, hg, hr⟩ := List.mem_flatten.1 hr
    rcases List.mem_append.1 hg with hg | hg
    · have := (List.pairwise_append.1 hleft).2.2 g hg group (by simp) r hr r₀ hr₀
      rw [hm r₀ hr₀] at this
      exact le_of_lt this
    · rw [List.mem_singleton.1 hg] at hr
      exact le_of_eq (hm r hr)
  have hafter : ∀ r ∈ (first :: next).flatten, m < r.modseq := by
    intro r hr
    obtain ⟨g, hg, hr⟩ := List.mem_flatten.1 hr
    have := hcross group (by simp) g hg r₀ hr₀ r hr
    rwa [hm r₀ hr₀] at this
  have hall : (front ++ [group] ++ first :: next).flatten = (front ++ [group]).flatten ++
      (first :: next).flatten :=
    List.flatten_append
  rw [hall, List.filter_append, List.filter_append]
  constructor
  · rw [List.filter_eq_self.2 fun r hr => decide_eq_true (hbefore r hr),
      List.filter_eq_nil_iff.2 fun r hr => by simpa using hafter r hr, List.append_nil]
  · rw [List.filter_eq_self.2 fun r hr => decide_eq_true (hafter r hr),
      List.filter_eq_nil_iff.2 fun r hr => by simpa using hbefore r hr, List.nil_append]

theorem lastModseq_concat {front : List (List LogEntry)} (hgroup : group ≠ []) {m : Int}
    (hm : ∀ r ∈ group, r.modseq = m) : lastModseq last (front ++ [group]) = m := by
  rw [lastModseq, List.foldl_append, List.foldl_cons, List.foldl_nil]
  cases group with
  | nil => exact absurd rfl hgroup
  | cons r group => exact hm r List.mem_cons_self

/-! ### Pages of a log -/

namespace ChangeLog

variable {log : ChangeLog} {since : Int} {page : Changes}

/-- The rows that a page covers. -/
def between (log : ChangeLog) (lo hi : Int) : List LogEntry :=
  log.rows.filter fun r => decide (lo < r.modseq) && decide (r.modseq ≤ hi)

/-- What is known of a page. -/
structure Ends (log : ChangeLog) (maxChanges : Nat) (since : Int) (page : Changes) : Prop where
  tells : ∀ o ids, o ∈ page.apply ids ↔
    told (seenOf (changesOf o (log.between since page.newState))) (o ∈ ids)
  named : ∀ o, (o ∈ page.created ↔ seenOf (changesOf o (log.between since page.newState)) = some .created) ∧
    (o ∈ page.updated ↔ seenOf (changesOf o (log.between since page.newState)) = some .updated)
  once : ∀ o ∈ page.created, o ∉ page.destroyed
  all : maxChanges = 0 → page.hasMore = false
  last : page.hasMore = false → page.newState = log.current
  more : page.hasMore = true → since < page.newState ∧ page.newState < log.current
  /-- With a limit of one: one modseq, or one id. -/
  one : maxChanges = 1 → (∃ m, ∀ r ∈ log.between since page.newState, r.modseq = m) ∨
    ∃ o, ∀ r ∈ log.between since page.newState, r.object = o
  /-- A page does not end between two modseqs that are about one id. -/
  whole : 0 < maxChanges → page.hasMore = true → ∀ o, ∀ c ∈ log.rows, page.newState < c.modseq →
    ∃ r ∈ log.rows, r.object ≠ o ∧ page.newState ≤ r.modseq ∧ r.modseq ≤ c.modseq

theorem mem_apply {page : Changes} {objects : SeenMap} {ids : Set Int} {o : Int}
    (hcreated : page.created = SeenMap.keysOf objects .created)
    (hdestroyed : page.destroyed = SeenMap.keysOf objects .destroyed) :
    o ∈ page.apply ids ↔ told (objects.get? o) (o ∈ ids) := by
  change (o ∈ ids ∨ o ∈ page.created) ∧ o ∉ page.destroyed ↔ _
  rw [hcreated, hdestroyed]
  rw [mem_keysOf, mem_keysOf]
  cases objects.get? o with
  | none => simp [told]
  | some seen => cases seen <;> simp [told]

theorem changes_ends (hlo : 0 ≤ since) (hhi : since ≤ log.current) (maxChanges : Nat) :
    ∃ page, log.changes since maxChanges = .ok page ∧ log.Ends maxChanges since page := by
  have hsorted : (log.after since).Pairwise fun a b => a.modseq ≤ b.modseq :=
    (log.sorted.sublist List.filter_sublist).imp fun h => h.elim le_of_lt fun h => le_of_eq h.1
  have hgroups := grouped_splitBy hsorted
  have hflat := List.flatten_splitBy (fun a b : LogEntry => a.modseq == b.modseq) (log.after since)
  obtain ⟨taken, rest, hsplit, htaken, hrest, hloop⟩ := aggregateLoop_spec log.current maxChanges
    ((log.after since).splitBy fun a b => a.modseq == b.modseq) 0 SortedMap.empty
  have hchanges : log.changes since maxChanges = .ok (aggregate (log.after since) log.current maxChanges) :=
    if_neg (by omega)
  refine ⟨_, hchanges, ?_⟩
  have hpage : aggregate (log.after since) log.current maxChanges =
      { created := SeenMap.keysOf (taken.flatten.foldl see SortedMap.empty) .created
        updated := SeenMap.keysOf (taken.flatten.foldl see SortedMap.empty) .updated
        destroyed := SeenMap.keysOf (taken.flatten.foldl see SortedMap.empty) .destroyed
        newState := if rest.isEmpty then log.current else lastModseq 0 taken
        hasMore := !rest.isEmpty } := by
    unfold aggregate
    dsimp only
    rw [hloop]
  rw [hpage]
  have hafter : ∀ {r}, r ∈ log.after since ↔ r ∈ log.rows ∧ since < r.modseq := by
    intro r
    simp [after]
  -- what was taken are the rows up to the new state
  have hcut : (rest = [] ∧ taken.flatten = log.between since log.current) ∨
      ∃ front group next more m, taken = front ++ [group] ∧ rest = next :: more ∧ (∀ r ∈ group, r.modseq = m) ∧
        group ≠ [] ∧ lastModseq 0 taken = m ∧ taken.flatten = log.between since m ∧ since < m ∧
          m < log.current ∧
        ∀ r ∈ next, m < r.modseq ∧ r ∈ log.rows ∧ ∀ c ∈ log.rows, m < c.modseq → r.modseq ≤ c.modseq := by
    rw [hsplit] at hgroups hflat
    cases rest with
    | nil =>
      rw [List.append_nil] at hflat
      refine .inl ⟨rfl, hflat.trans (List.filter_congr fun r hr => ?_)⟩
      simp [log.upto r hr]
    | cons next more =>
      rcases List.eq_nil_or_concat taken with rfl | ⟨front, group, rfl⟩
      · exact absurd rfl (hrest next more rfl).2.1
      rw [List.concat_eq_append] at hgroups hflat ⊢
      have hgroup : group ≠ [] := fun hnil => hgroups.ne (by simp [hnil])
      obtain ⟨r₀, hr₀⟩ := List.exists_mem_of_ne_nil group hgroup
      have hm : ∀ r ∈ group, r.modseq = r₀.modseq := fun r hr => hgroups.same group (by simp) r hr r₀ hr₀
      obtain ⟨hfront, hback⟩ := hgroups.cut r₀.modseq hm
      rw [hflat] at hfront hback
      have hnext : next ≠ [] := fun hnil => hgroups.ne (by simp [hnil])
      obtain ⟨r₁, hr₁⟩ := List.exists_mem_of_ne_nil next hnext
      have hmem : ∀ {r}, r ∈ (next :: more).flatten ↔ r ∈ log.rows ∧ since < r.modseq ∧
          r₀.modseq < r.modseq := by
        intro r
        rw [hback, List.mem_filter, hafter, decide_eq_true_eq, and_assoc]
      have hfirst : since < r₀.modseq := by
        have : r₀ ∈ (front ++ [group]).flatten := List.mem_flatten.2 ⟨group, by simp, hr₀⟩
        rw [hfront] at this
        exact (hafter.1 (List.mem_filter.1 this).1).2
      have hlater := hmem.1 (List.mem_flatten.2 ⟨next, by simp, hr₁⟩)
      refine .inr ⟨front, group, next, more, r₀.modseq, rfl, rfl, hm, hgroup,
        lastModseq_concat hgroup hm, ?_, hfirst,
        lt_of_lt_of_le hlater.2.2 (log.upto r₁ hlater.1), fun r hr => ?_⟩
      · rw [hfront, after, List.filter_filter, between]
        exact List.filter_congr fun r _ => Bool.and_comm _ _
      · have hrow := hmem.1 (List.mem_flatten.2 ⟨next, by simp, hr⟩)
        refine ⟨hrow.2.2, hrow.1, fun c hc hmc => ?_⟩
        obtain ⟨g, hg, hcg⟩ := List.mem_flatten.1 (hmem.2 ⟨hc, hfirst.trans hmc, hmc⟩)
        rcases List.mem_cons.1 hg with rfl | hg
        · exact le_of_eq (hgroups.same g (by simp) r hr c hcg)
        · have := (List.pairwise_append.1 hgroups.increasing).2.1
          exact le_of_lt ((List.pairwise_cons.1 this).1 g hg r hr c hcg)
  have hbetween : taken.flatten = log.between since
      (if rest.isEmpty then log.current else lastModseq 0 taken) := by
    rcases hcut with ⟨rfl, h⟩ | ⟨front, group, next, more, m, -, rfl, -, -, hlast, h, -⟩
    · exact h
    · rw [hlast]
      exact h
  refine ⟨fun o ids => ?_, fun o => ?_, fun o ho ho' => ?_, fun hzero => ?_, fun hlast => ?_, fun hmore => ?_,
    fun hone => ?_, ?_⟩
  · rw [mem_apply rfl rfl, get?_foldl_see, ← hbetween]
    rfl
  · rw [mem_keysOf, mem_keysOf, get?_foldl_see, ← hbetween]
    exact ⟨Iff.rfl, Iff.rfl⟩
  · have := (mem_keysOf.1 ho).symm.trans (mem_keysOf.1 ho')
    cases this
  · cases rest with
    | nil => rfl
    | cons next more =>
      obtain ⟨hpos, -⟩ := hrest next more rfl
      omega
  · exact if_pos (by simpa using hlast)
  · rcases hcut with ⟨rfl, -⟩ | ⟨front, group, next, more, m, -, rfl, -, -, hlast, -, hlo, hhi, -⟩
    · cases hmore
    · dsimp only
      rw [hlast]
      exact ⟨hlo, hhi⟩
  · dsimp only
    rw [← hbetween]
    rw [hone] at htaken
    cases taken with
    | nil => exact .inl ⟨0, fun r hr => nomatch hr⟩
    | cons group taken =>
      have hgroup : group ∈ (log.after since).splitBy fun a b => a.modseq == b.modseq := by
        rw [hsplit]
        simp
      have hsame := hgroups.same group hgroup
      have hne : group ≠ [] := fun hnil => hgroups.ne (hnil ▸ hgroup)
      obtain ⟨first, hfirst⟩ := List.exists_mem_of_ne_nil group hne
      rcases taken_one (isEmpty_foldl_see hne) htaken.2 with hnil | ⟨o, ho, hall⟩
      · refine .inl ⟨first.modseq, fun r hr => ?_⟩
        rw [List.flatten_cons, hnil, List.append_nil] at hr
        exact hsame r hr first hfirst
      · refine .inr ⟨o, fun r hr => ?_⟩
        rw [List.flatten_cons, List.mem_append] at hr
        rcases hr with hr | hr
        · exact ho _ (isSome_foldl_see.2 (.inr ⟨r, hr, rfl⟩))
        · exact hall r hr
  · intro hmax hmore o c hc hlt
    rcases hcut with ⟨rfl, -⟩ | ⟨front, group, next, more, m, rfl, rfl, hm, hne, hlast, h, hlo, -, hnext⟩
    · cases hmore
    dsimp only at hlt ⊢
    have hstate : (if (next :: more).isEmpty then log.current else lastModseq 0
      (front ++ [group])) = m := hlast
    rw [hstate] at hlt ⊢
    by_contra hnone
    have hall : ∀ r ∈ log.rows, m ≤ r.modseq → r.modseq ≤ c.modseq → r.object = o := by
      intro r hr hge hle
      by_contra hne
      exact hnone ⟨r, hr, hne, hge, hle⟩
    refine not_cut (o := o) hmax htaken (fun hmem => hgroups.ne ?_) hne (fun r hr => ?_) (fun r hr => ?_)
      (hrest next more rfl)
    · rw [hsplit]
      simp [hmem]
    · have hrow : r ∈ (front ++ [group]).flatten := List.mem_flatten.2 ⟨group, by simp, hr⟩
      rw [h] at hrow
      refine hall r (List.mem_filter.1 hrow).1 (le_of_eq (hm r hr).symm) ?_
      rw [hm r hr]
      exact le_of_lt hlt
    · obtain ⟨hlater, hrow, hfirst⟩ := hnext r hr
      exact hall r hrow (le_of_lt hlater) (hfirst c hc hlt)

theorem ends_of_ok (h : log.changes since maxChanges = .ok page) :
    log.Ends maxChanges since page ∧ 0 ≤ since ∧ since ≤ log.current := by
  by_cases hrange : since < 0 ∨ since > log.current
  · rw [changes, if_pos hrange] at h
    cases h
  · rw [not_or, not_lt, not_lt] at hrange
    obtain ⟨page', hpage', hends⟩ := changes_ends hrange.1 hrange.2 maxChanges
    obtain rfl : page' = page := by simpa using hpage'.symm.trans h
    exact ⟨hends, hrange⟩

theorem Ends.le (h : log.Ends maxChanges since page) (hhi : since ≤ log.current) : since ≤ page.newState := by
  cases hmore : page.hasMore with
  | false =>
    rw [h.last hmore]
    exact hhi
  | true => exact le_of_lt (h.more hmore).1

/-! ## 4. One id over all pages -/

theorem mem_after {r : LogEntry} : r ∈ log.after since ↔ r ∈ log.rows ∧ since < r.modseq := by simp [after]

theorem mem_between {lo hi : Int} {r : LogEntry} :
    r ∈ log.between lo hi ↔ r ∈ log.rows ∧ lo < r.modseq ∧ r.modseq ≤ hi := by simp [between]

/-- What is after a state is what a page covers, and what is after the page. -/
theorem after_eq {lo hi : Int} (h : lo ≤ hi) : log.after lo = log.between lo hi ++ log.after hi := by
  have hsorted := log.sorted
  unfold after between
  generalize log.rows = rows at hsorted
  induction rows with
  | nil => rfl
  | cons r rows ih =>
    obtain ⟨hr, hsorted⟩ := List.pairwise_cons.1 hsorted
    rw [List.filter_cons, List.filter_cons, List.filter_cons, ih hsorted]
    by_cases hhi : r.modseq ≤ hi
    · by_cases hlo : lo < r.modseq <;> simp [hlo, hhi]
    · -- everything from here on is after the page
      have hnone : (rows.filter fun r => decide (lo < r.modseq) && decide (r.modseq ≤ hi)) = [] := by
        refine List.filter_eq_nil_iff.2 fun r' hr' => ?_
        have hle : r.modseq ≤ r'.modseq := (hr r' hr').elim le_of_lt fun h => le_of_eq h.1
        have : ¬ r'.modseq ≤ hi := by omega
        simp [this]
      have hlo : lo < r.modseq := by omega
      have hlater : hi < r.modseq := by omega
      simp [hnone, hlo, hlater, hhi]

theorem changesOf_append (rows rows' : List LogEntry) :
    changesOf o (rows ++ rows') = changesOf o rows ++ changesOf o rows' := by simp [changesOf]

theorem mem_changesOf {rows : List LogEntry} {change : ChangeType} :
    change ∈ changesOf o rows ↔ ∃ r ∈ rows, r.object = o ∧ r.change = change := by
  simp [changesOf, and_assoc]

/-- Pages up to the current state. -/
inductive Covered (log : ChangeLog) (maxChanges : Nat) : Int → List Changes → Prop where
  | done {since : Int} : log.after since = [] → Covered log maxChanges since []
  | page {since : Int} {page : Changes} {pages : List Changes} (hends : log.Ends maxChanges since page)
      (hle : since ≤ page.newState) (hrest : Covered log maxChanges page.newState pages) :
      Covered log maxChanges since (page :: pages)

theorem after_current : log.after log.current = [] := by
  refine List.filter_eq_nil_iff.2 fun r hr => ?_
  simpa using log.upto r hr

theorem Paging.covered {pages : List Changes} (h : log.Paging maxChanges since pages) :
    log.Covered maxChanges since pages := by
  induction h with
  | last h hlast =>
    obtain ⟨hends, -, hhi⟩ := ends_of_ok h
    refine .page hends (hends.le hhi) (.done ?_)
    rw [hends.last hlast, after_current]
  | more h hmore hrest ih =>
    obtain ⟨hends, -, hhi⟩ := ends_of_ok h
    exact .page hends (hends.le hhi) ih

variable {pages : List Changes} {ids : Set Int}

theorem changesOf_after (hle : since ≤ page.newState) : changesOf o (log.after since) =
    changesOf o (log.between since page.newState) ++ changesOf o (log.after page.newState) := by
  rw [after_eq hle, changesOf_append]

/-- What is held, and not destroyed, stays held. -/
theorem Covered.stays (h : log.Covered maxChanges since pages)
    (hno : .destroyed ∉ changesOf o (log.after since))
    (hheld : o ∈ ids) : o ∈ applyAll pages ids := by
  induction h generalizing ids with
  | done => exact hheld
  | page hends hle hrest ih =>
    rw [changesOf_after hle, List.mem_append, not_or] at hno
    exact ih hno.2 ((hends.tells o ids).2 (told_of_held hno.1 hheld))

theorem Covered.same (h : log.Covered maxChanges since pages)
    (hno : .destroyed ∉ changesOf o (log.after since))
    (hno' : .created ∉ changesOf o (log.after since)) : o ∈ applyAll pages ids ↔ o ∈ ids := by
  induction h generalizing ids with
  | done => rfl
  | page hends hle hrest ih =>
    rw [changesOf_after hle, List.mem_append, not_or] at hno hno'
    exact (ih hno.2 hno'.2).trans ((hends.tells o ids).trans (told_same hno.1 hno'.1))

/-- Without a destruction the client ends with what is there. -/
theorem Covered.exact (h : log.Covered maxChanges since pages)
    (hno : .destroyed ∉ changesOf o (log.after since))
    (htells : Tells there (changesOf o (log.after since))) (hheld : o ∈ ids ↔ there) :
    o ∈ applyAll pages ids ↔ endsThere there (changesOf o (log.after since)) := by
  induction h generalizing ids there with
  | done h =>
    rw [h]
    exact hheld
  | page hends hle hrest ih =>
    rw [changesOf_after hle] at hno htells ⊢
    rw [List.mem_append, not_or] at hno
    rw [tells_append] at htells
    rw [endsThere_append]
    refine ih hno.2 htells.2 ((hends.tells o ids).trans ⟨fun htold => ?_, fun hthere => ?_⟩)
    · exact there_of_told htells.1 hheld.1 htold
    · exact told_of_there hheld.2 hno.1 hthere htells.1

theorem sorted_after : (log.after since).Pairwise
    fun a b => a.modseq < b.modseq ∨ a.modseq = b.modseq ∧ a.object < b.object :=
  log.sorted.sublist List.filter_sublist

theorem sorted_between {lo hi : Int} : (log.between lo hi).Pairwise
    fun a b => a.modseq < b.modseq ∨ a.modseq = b.modseq ∧ a.object < b.object :=
  log.sorted.sublist List.filter_sublist

/-- The rows of one id come at modseqs of their own. -/
theorem sorted_rowsOf {rows : List LogEntry} (h : rows.Pairwise
    fun a b => a.modseq < b.modseq ∨ a.modseq = b.modseq ∧ a.object < b.object) :
    (rows.filter fun r => r.object == o).Pairwise fun a b => a.modseq < b.modseq := by
  refine (List.pairwise_filter.2 (h.imp fun hab ha hb => ?_))
  rw [beq_iff_eq] at ha hb
  rcases hab with hab | ⟨-, hab⟩
  · exact hab
  · omega

/-- The rows behind a destruction and the creation that follows it. -/
theorem rows_of_again {rows : List LogEntry} {front back : List ChangeType} (hsorted : rows.Pairwise
    fun a b => a.modseq < b.modseq ∨ a.modseq = b.modseq ∧ a.object < b.object)
    (h : changesOf o rows = front ++ .destroyed :: .created :: back) :
    ∃ d ∈ rows, ∃ c ∈ rows, d.object = c.object ∧ c.object = o ∧ d.change = .destroyed ∧ c.change = .created ∧
      d.modseq < c.modseq ∧ (∀ r ∈ rows, r.object = c.object → ¬ (d.modseq < r.modseq ∧ r.modseq < c.modseq)) ∧
      ∀ r ∈ rows, r.object = c.object → c.modseq < r.modseq → r.change ∈ back := by
  have hrows := sorted_rowsOf (o := o) hsorted
  have hmem : ∀ {r}, r ∈ (rows.filter fun r => r.object == o) ↔ r ∈ rows ∧ r.object = o := by simp
  obtain ⟨first, tail, hfilter, -, htail⟩ := List.map_eq_append_iff.1 h
  obtain ⟨d, tail, rfl, hd, htail⟩ := List.map_eq_cons_iff.1 htail
  obtain ⟨c, last, rfl, hc, rfl⟩ := List.map_eq_cons_iff.1 htail
  rw [hfilter] at hrows hmem
  obtain ⟨-, hrows, hfirst⟩ := List.pairwise_append.1 hrows
  obtain ⟨hdlt, hrows⟩ := List.pairwise_cons.1 hrows
  obtain ⟨hclt, -⟩ := List.pairwise_cons.1 hrows
  obtain ⟨hdrow, hdo⟩ := hmem.1 (show d ∈ first ++ d :: c :: last by simp)
  obtain ⟨hcrow, hco⟩ := hmem.1 (show c ∈ first ++ d :: c :: last by simp)
  have hdc := hdlt c List.mem_cons_self
  refine ⟨d, hdrow, c, hcrow, hdo.trans hco.symm, hco, hd, hc, hdc, fun r hr hro => ?_, fun r hr hro hlt => ?_⟩
  all_goals
    have hr := hmem.2 ⟨hr, hro.trans hco⟩
    rw [List.mem_append, List.mem_cons, List.mem_cons] at hr
  · rintro ⟨hlo, hhi⟩
    rcases hr with hr | rfl | rfl | hr
    · have := hfirst r hr d List.mem_cons_self
      omega
    · omega
    · omega
    · have := hclt r hr
      omega
  · rcases hr with hr | rfl | rfl | hr
    · have := hfirst r hr d List.mem_cons_self
      omega
    · omega
    · omega
    · exact List.mem_map.2 ⟨r, hr, rfl⟩

theorem endsThere_of_created (hno : .destroyed ∉ changes) (hmem : .created ∈ changes) :
    endsThere there changes := by
  induction changes generalizing there with
  | nil => cases hmem
  | cons c changes ih =>
    have hno' : .destroyed ∉ changes := fun h => hno (List.mem_cons_of_mem _ h)
    cases c with
    | created =>
      show endsThere True changes
      exact endsThere_of_kept hno' trivial
    | updated =>
      show endsThere there changes
      exact ih hno' (List.mem_of_ne_of_mem (by decide) hmem)
    | destroyed => exact absurd List.mem_cons_self hno

theorem comesBack_mono {lo hi : Int} (h : lo ≤ hi) (hback : ComesBack (log.after hi)) :
    ComesBack (log.after lo) := by
  have hsub : ∀ {r}, r ∈ log.after hi → r ∈ log.after lo := fun hr =>
    mem_after.2 ⟨(mem_after.1 hr).1, lt_of_le_of_lt h (mem_after.1 hr).2⟩
  obtain ⟨d, hd, c, hc, hsame, hdestroyed, hcreated, hlt, hno, hlast, r, hr, hother, hdr, hrc⟩ := hback
  have hlater : ∀ {r}, r ∈ log.after lo → d.modseq < r.modseq → r ∈ log.after hi := fun hr hlt =>
    mem_after.2 ⟨(mem_after.1 hr).1, (mem_after.1 hd).2.trans hlt⟩
  refine ⟨d, hsub hd, c, hsub hc, hsame, hdestroyed, hcreated, hlt, fun r hr hro hbetween => ?_,
    fun r hr hro hafter => ?_, r, hsub hr, hother, hdr, hrc⟩
  · exact hno r (hlater hr hbetween.1) hro hbetween
  · exact hlast r (hlater hr (hlt.trans hafter)) hro hafter

/-- **What was destroyed is gone for the client**, unless it comes back apart: the page that says
that it is destroyed is then the one that would say that it is created. -/
theorem Covered.gone (h : log.Covered maxChanges since pages) (hmax : 0 < maxChanges)
    (htells : Tells there (changesOf o (log.after since))) (hheld : o ∈ ids → there)
    (hback : ¬ ComesBack (log.after since)) (hmem : .destroyed ∈ changesOf o (log.after since)) :
    o ∉ applyAll pages ids := by
  induction h generalizing ids there with
  | done h =>
    rw [h] at hmem
    cases hmem
  | @page since page pages hends hle hrest ih =>
    have hsplit : changesOf o (log.after since) =
        changesOf o (log.between since page.newState) ++ changesOf o (log.after page.newState) :=
          changesOf_after hle
    rw [hsplit] at hmem htells
    rw [tells_append] at htells
    have hnext : o ∈ page.apply ids → endsThere there (changesOf o (log.between since page.newState)) :=
      fun ho => there_of_told htells.1 hheld ((hends.tells o ids).1 ho)
    by_cases hlater : .destroyed ∈ changesOf o (log.after page.newState)
    · exact ih htells.2 hnext (mt (comesBack_mono hle) hback) hlater
    have hhere := (List.mem_append.1 hmem).resolve_right hlater
    have hgone : o ∉ page.apply ids := fun ho => not_told htells.1 (mt hheld) hhere ((hends.tells o ids).1 ho)
    by_cases hcreated : .created ∈ changesOf o (log.after page.newState)
    · -- destroyed in this page and created after it: then the page ends between the two
      exfalso
      have hends' : endsThere (endsThere there (changesOf o (log.between since page.newState)))
          (changesOf o (log.after page.newState)) := endsThere_of_created hlater hcreated
      rw [← endsThere_append] at hends'
      obtain ⟨front, back, hagain, hno, hno'⟩ := created_again (tells_append.2 htells) hends' hmem
      obtain ⟨d, hd, c, hc, hsame, hco, hdestroyed, hc', hlt, hbetween, hafter⟩ :=
        rows_of_again sorted_after (hsplit.trans hagain)
      have hdle : d.modseq ≤ page.newState := by
        by_contra hgt
        exact hlater (mem_changesOf.2 ⟨d, mem_after.2 ⟨(mem_after.1 hd).1, not_le.1 hgt⟩,
          hsame.trans hco, hdestroyed⟩)
      obtain ⟨c', hrow, hco', hchange⟩ := mem_changesOf.1 hcreated
      have hcgt : page.newState < c.modseq := by
        have hle' : c'.modseq ≤ c.modseq := by
          by_contra hgt
          have := hafter c' (mem_after.2 ⟨(mem_after.1 hrow).1, lt_of_le_of_lt hle (mem_after.1 hrow).2⟩)
            (hco'.trans hco.symm) (not_le.1 hgt)
          rw [hchange] at this
          exact hno' this
        exact lt_of_lt_of_le (mem_after.1 hrow).2 hle'
      have hmore : page.hasMore = true := by
        cases hlast : page.hasMore with
        | true => rfl
        | false =>
          have := log.upto c (mem_after.1 hc).1
          have := hends.last hlast
          omega
      obtain ⟨r, hr, hother, hlo, hhi⟩ := hends.whole hmax hmore o c (mem_after.1 hc).1 hcgt
      have hsince := (hends.more hmore).1
      refine hback ⟨d, hd, c, hc, hsame, hdestroyed, hc', hlt, hbetween, fun r hr hro hgt hr' => ?_, r,
        mem_after.2 ⟨hr, lt_of_lt_of_le hsince hlo⟩, fun h => hother (h.trans hco), hdle.trans hlo, hhi⟩
      have := hafter r hr hro hgt
      rw [hr'] at this
      exact hno this
    · intro ho
      exact hgone ((hrest.same hlater hcreated).1 ho)

/-- Where the first row of an id is `c`, what follows comes later. -/
theorem changesOf_head {rows : List LogEntry} {c : LogEntry} (hsorted : rows.Pairwise
    fun a b => a.modseq < b.modseq ∨ a.modseq = b.modseq ∧ a.object < b.object) (hc :
      c ∈ rows) (hco : c.object = o)
    (hfirst : ∀ r ∈ rows, r.object = o → c.modseq ≤ r.modseq) :
    ∃ back, changesOf o rows = c.change :: back ∧
      ∀ change ∈ back, ∃ r ∈ rows, r.object = o ∧ c.modseq < r.modseq ∧ r.change = change := by
  have hrows := sorted_rowsOf (o := o) hsorted
  have hmem : ∀ {r}, r ∈ (rows.filter fun r => r.object == o) ↔ r ∈ rows ∧ r.object = o := by simp
  have hc := hmem.2 ⟨hc, hco⟩
  unfold changesOf
  cases hfilter : rows.filter fun r => r.object == o with
  | nil =>
    rw [hfilter] at hc
    cases hc
  | cons first back =>
    rw [hfilter] at hrows hmem hc
    obtain ⟨hlater, -⟩ := List.pairwise_cons.1 hrows
    have hrow := hmem.1 (List.mem_cons_self (a := first) (l := back))
    obtain rfl : c = first := by
      rcases List.mem_cons.1 hc with h | h
      · exact h
      · have := hlater c h
        have := hfirst first hrow.1 hrow.2
        omega
    refine ⟨back.map (·.change), rfl, fun change hchange => ?_⟩
    obtain ⟨r, hr, rfl⟩ := List.mem_map.1 hchange
    obtain ⟨hr', hro⟩ := hmem.1 (List.mem_cons_of_mem _ hr)
    exact ⟨r, hr', hro, hlater r hr, rfl⟩

/-- What is created first of all, and not destroyed, ends up with the client. -/
theorem Covered.comes (h : log.Covered maxChanges since pages) {c : LogEntry} (hc : c ∈ log.after since)
    (hco : c.object = o) (hcreated : c.change = .created)
    (hfirst : ∀ r ∈ log.after since, r.object = o → c.modseq ≤ r.modseq)
    (hlast : ∀ r ∈ log.after since, r.object = o → c.modseq < r.modseq → r.change ≠ .destroyed) :
    o ∈ applyAll pages ids := by
  induction h generalizing ids with
  | done h =>
    rw [h] at hc
    cases hc
  | @page since page pages hends hle hrest ih =>
    have hsub : ∀ {r}, r ∈ log.after page.newState → r ∈ log.after since := fun hr =>
      mem_after.2 ⟨(mem_after.1 hr).1, lt_of_le_of_lt hle (mem_after.1 hr).2⟩
    have hsub' : ∀ {r}, r ∈ log.between since page.newState → r ∈ log.after since := fun hr =>
      mem_after.2 ⟨(mem_between.1 hr).1, (mem_between.1 hr).2.1⟩
    by_cases hhere : c.modseq ≤ page.newState
    · have hno : .destroyed ∉ changesOf o (log.after page.newState) := by
        intro hmem
        obtain ⟨r, hr, hro, hchange⟩ := mem_changesOf.1 hmem
        exact hlast r (hsub hr) hro (lt_of_le_of_lt hhere (mem_after.1 hr).2) hchange
      have hc' : c ∈ log.between since page.newState :=
        mem_between.2 ⟨(mem_after.1 hc).1, (mem_after.1 hc).2, hhere⟩
      obtain ⟨back, hchanges, hback⟩ := changesOf_head sorted_between hc' hco
        fun r hr hro => hfirst r (hsub' hr) hro
      refine hrest.stays hno ((hends.tells o ids).2 ?_)
      rw [hchanges, hcreated]
      refine told_created fun hmem => ?_
      obtain ⟨r, hr, hro, hlt, hchange⟩ := hback _ hmem
      exact hlast r (hsub' hr) hro hlt hchange
    · exact ih (mem_after.2 ⟨(mem_after.1 hc).1, not_le.1 hhere⟩) (fun r hr => hfirst r (hsub hr))
        fun r hr => hlast r (hsub hr)

/-- **What comes back apart comes back in pages of one**: no page holds both rows. -/
theorem Covered.again (h : log.Covered 1 since pages) {d c r : LogEntry} (hd : d ∈ log.after since)
    (hc : c ∈ log.after since) (hcreated : c.change = .created) (hlt : d.modseq < c.modseq)
    (hno : ∀ r ∈ log.after since, r.object = c.object → ¬ (d.modseq < r.modseq ∧ r.modseq < c.modseq))
    (hlast : ∀ r ∈ log.after since, r.object = c.object → c.modseq < r.modseq → r.change ≠ .destroyed)
    (hr : r ∈ log.after since) (hother : r.object ≠ c.object) (hlo : d.modseq ≤ r.modseq)
    (hhi : r.modseq ≤ c.modseq) : c.object ∈ applyAll pages ids := by
  induction h generalizing ids with
  | done h =>
    rw [h] at hc
    cases hc
  | @page since page pages hends hle hrest ih =>
    have hsub : ∀ {r}, r ∈ log.after page.newState → r ∈ log.after since := fun hr =>
      mem_after.2 ⟨(mem_after.1 hr).1, lt_of_le_of_lt hle (mem_after.1 hr).2⟩
    have hlater : ∀ {r}, r ∈ log.after since → page.newState < r.modseq → r ∈ log.after page.newState :=
      fun hr hgt => mem_after.2 ⟨(mem_after.1 hr).1, hgt⟩
    have hhere : ∀ {r}, r ∈ log.after since → r.modseq ≤ page.newState → r ∈ log.between since page.newState :=
      fun hr hle => mem_between.2 ⟨(mem_after.1 hr).1, (mem_after.1 hr).2, hle⟩
    by_cases hd' : d.modseq ≤ page.newState
    · by_cases hc' : c.modseq ≤ page.newState
      · exfalso
        rcases hends.one rfl with ⟨m, hm⟩ | ⟨o, ho⟩
        · have := hm d (hhere hd hd')
          have := hm c (hhere hc hc')
          omega
        · exact hother ((ho r (hhere hr (hhi.trans hc'))).trans (ho c (hhere hc hc')).symm)
      · rw [not_le] at hc'
        refine hrest.comes (hlater hc hc') rfl hcreated (fun r hr hro => ?_) fun r hr => hlast r (hsub hr)
        by_contra hbefore
        exact hno r (hsub hr) hro ⟨lt_of_le_of_lt hd' (mem_after.1 hr).2, not_le.1 hbefore⟩
    · rw [not_le] at hd'
      exact ih (hlater hd hd') (hlater hc (hd'.trans hlt)) (fun r hr => hno r (hsub hr))
        (fun r hr => hlast r (hsub hr)) (hlater hr (lt_of_lt_of_le hd' hlo))

/-- The answer without a limit. -/
theorem mem_all {all : Changes} (h : log.changes since 0 = .ok all) :
    o ∈ all.apply ids ↔ told (seenOf (changesOf o (log.after since))) (o ∈ ids) := by
  obtain ⟨hends, -, hhi⟩ := ends_of_ok h
  have hstate := hends.last (hends.all rfl)
  have hsplit : log.after since = log.between since all.newState ++ log.after all.newState :=
    after_eq (hends.le hhi)
  rw [hstate, after_current, List.append_nil] at hsplit
  rw [hends.tells, hstate, ← hsplit]

/-- Asking on and on comes to an end. -/
theorem paging_exists (hlo : 0 ≤ since) (hhi : since ≤ log.current) (maxChanges : Nat) :
    ∃ pages, log.Paging maxChanges since pages := by
  obtain ⟨n, hn⟩ : ∃ n : Nat, (log.current - since).toNat = n := ⟨_, rfl⟩
  induction n using Nat.strong_induction_on generalizing since with
  | _ n ih =>
    obtain ⟨page, hpage, hends⟩ := changes_ends hlo hhi maxChanges
    cases hmore : page.hasMore with
    | false => exact ⟨[page], .last hpage hmore⟩
    | true =>
      obtain ⟨hlt, hlt'⟩ := hends.more hmore
      obtain ⟨pages, hpages⟩ := ih (log.current - page.newState).toNat (by omega) (by omega) (le_of_lt hlt') rfl
      exact ⟨page :: pages, .more hpage hmore hpages⟩

/-- Each page is later than the one before, and the last one is at the current state. -/
structure Ascending (log : ChangeLog) (since : Int) (pages : List Changes) : Prop where
  later : ∀ page ∈ pages, page.hasMore = true → since < page.newState
  ascending : pages.Pairwise fun page next => page.newState < next.newState
  stops : ∀ page ∈ pages, page.hasMore = false → page.newState = log.current
  current : pages.getLast?.map (·.newState) = some log.current

theorem Paging.ascending (h : log.Paging maxChanges since pages) :
    log.Ascending since pages ∧ ∀ page ∈ pages, ∀ o ∈ page.created, o ∉ page.destroyed := by
  induction h with
  | last h hlast =>
    obtain ⟨hends, -⟩ := ends_of_ok h
    refine ⟨⟨?_, List.pairwise_singleton _ _, ?_, congrArg some (hends.last hlast)⟩, ?_⟩
    · simp [hlast]
    · simpa using hends.last
    · simpa using hends.once
  | @more since page pages h hmore hrest ih =>
    obtain ⟨hends, -⟩ := ends_of_ok h
    obtain ⟨⟨hlater, hascending, hstops, hcurrent⟩, honce⟩ := ih
    obtain ⟨hlt, hlt'⟩ := hends.more hmore
    have hnext : ∀ next ∈ pages, page.newState < next.newState := by
      intro next hnext
      cases hmore : next.hasMore with
      | true => exact hlater next hnext hmore
      | false =>
        rw [hstops next hnext hmore]
        exact hlt'
    refine ⟨⟨?_, List.pairwise_cons.2 ⟨hnext, hascending⟩, ?_, ?_⟩, ?_⟩
    · intro next hmem _
      rcases List.mem_cons.1 hmem with rfl | hmem
      · exact hlt
      · exact hlt.trans (hnext next hmem)
    · intro next hmem
      rcases List.mem_cons.1 hmem with rfl | hmem
      · exact hends.last
      · exact hstops next hmem
    · rw [List.getLast?_cons]
      cases hpages : pages.getLast? with
      | none =>
        rw [hpages] at hcurrent
        cases hcurrent
      | some last =>
        rw [hpages] at hcurrent
        exact hcurrent
    · intro next hmem
      rcases List.mem_cons.1 hmem with rfl | hmem
      · exact hends.once
      · exact honce next hmem

/-- **Pages of changes end at the current state, and tell what the answer without a limit tells
exactly when no id comes back apart.** -/
theorem paging (log : ChangeLog) (since : Int) (hlo : 0 ≤ since) (hhi : since ≤ log.current) :
    (∀ maxChanges, 0 < maxChanges → ∃ pages, log.Paging maxChanges since pages) ∧
      (∀ maxChanges pages, 0 < maxChanges → log.Paging maxChanges since pages →
        log.Ascending since pages ∧ ∀ page ∈ pages, ∀ o ∈ page.created, o ∉ page.destroyed) ∧
      ∀ ids, Exact ids (log.after since) →
        ((∀ maxChanges pages all, 0 < maxChanges → log.Paging maxChanges since pages →
            log.changes since 0 = .ok all → applyAll pages ids = all.apply ids) ↔
          ¬ ComesBack (log.after since)) := by
  refine ⟨fun maxChanges _ => paging_exists hlo hhi maxChanges, fun _ _ _ h => h.ascending,
    fun ids hexact => ?_⟩
  constructor
  · rintro hsame ⟨d, hd, c, hc, hdc, hdestroyed, hcreated, hlt, hno, hlast, r, hr, hother, hdr, hrc⟩
    obtain ⟨pages, hpages⟩ := paging_exists hlo hhi 1
    obtain ⟨all, hall, -⟩ := changes_ends hlo hhi 0
    have hin : c.object ∈ applyAll pages ids :=
      hpages.covered.again hd hc hcreated hlt hno hlast hr hother hdr hrc
    rw [hsame 1 pages all Nat.one_pos hpages hall, mem_all hall] at hin
    exact not_told (hexact c.object) id (mem_changesOf.2 ⟨d, hd, hdc, hdestroyed⟩) hin
  · intro hback maxChanges pages all hmax hpages hall
    refine Set.ext fun o => ?_
    rw [mem_all hall]
    by_cases hmem : .destroyed ∈ changesOf o (log.after since)
    · have hgone := hpages.covered.gone hmax (hexact o) id hback hmem
      have hgone' := not_told (hexact o) id hmem
      exact ⟨fun h => absurd h hgone, fun h => absurd h hgone'⟩
    · rw [hpages.covered.exact hmem (hexact o) Iff.rfl]
      exact ⟨fun h => told_of_there id hmem h (hexact o), there_of_told (hexact o) id⟩

/-- Id 7 is destroyed and created again, and id 9 is created in between. -/
def sevenAndNine : ChangeLog where
  rows := [⟨1, 7, .destroyed⟩, ⟨2, 9, .created⟩, ⟨3, 7, .created⟩]
  current := 3
  sorted := by decide
  upto := by decide

theorem paging_seven : ∃ pages, sevenAndNine.Paging 1 0 pages :=
  (paging sevenAndNine 0 (by decide) (by decide)).1 1 Nat.one_pos

/-- A client that holds 7 and asks for one change at a time ends with 7 and 9.  Told all at once it
ends with 9. -/
theorem paging_differs : Exact {7} (sevenAndNine.after 0) ∧ ∃ pages all, sevenAndNine.Paging 1 0 pages ∧
    sevenAndNine.changes 0 0 = .ok all ∧ applyAll pages {7} ≠ all.apply {7} := by
  have hfirst : sevenAndNine.changes 0 1 = .ok ⟨[], [], [7], 1, true⟩ := rfl
  have hsecond : sevenAndNine.changes 1 1 = .ok ⟨[9], [], [], 2, true⟩ := rfl
  have hthird : sevenAndNine.changes 2 1 = .ok ⟨[7], [], [], 3, false⟩ := rfl
  refine ⟨?_, _, ⟨[9], [], [7], 3, false⟩, .more hfirst rfl (.more hsecond rfl (.last hthird rfl)),
    rfl, fun h => ?_⟩
  · intro o
    by_cases h : o = 7
    · subst h
      exact ⟨rfl, id, trivial⟩
    · by_cases h' : o = 9
      · subst h'
        exact ⟨by decide, trivial⟩
      · have hnone : changesOf o (sevenAndNine.after 0) = [] := by
          simp [changesOf, ChangeLog.after, sevenAndNine, Ne.symm h, Ne.symm h']
        rw [hnone]
        trivial
  · have hpages : (7 : Int) ∉ Changes.apply ⟨[9], [], [7], 3, false⟩ {7} := by simp [Changes.apply]
    rw [← h] at hpages
    exact hpages (by simp [applyAll, Changes.apply])

end ChangeLog

end Answers

/-! ## 5. The log of a store -/

/-- `ORDER BY modseq, object_id`. -/
def LogEntry.before (a b : LogEntry) : Prop := a.modseq < b.modseq ∨ a.modseq = b.modseq ∧ a.object ≤ b.object

instance : DecidableRel LogEntry.before := fun a b =>
  inferInstanceAs (Decidable (a.modseq < b.modseq ∨ a.modseq = b.modseq ∧ a.object ≤ b.object))

instance : Std.Total LogEntry.before where
  total a b := by
    unfold LogEntry.before
    omega

instance : IsTrans LogEntry LogEntry.before where
  trans a b c := by
    unfold LogEntry.before
    omega

def ChangeRow.entry (r : ChangeRow) : LogEntry :=
    { modseq := r.modseq, object := r.objectId, change := r.change }

/-- The rows of an account and a kind, in order. -/
def Db.logOf (db : Db) (account : Int) (kind : ObjectKind) : List LogEntry :=
  ((db.changes.filter fun r => r.accountId == account && r.kind == kind).map ChangeRow.entry).insertionSort
    LogEntry.before

variable {db : Db} {account m : Int} {kind : ObjectKind} {dying : Option Int}

theorem mem_logOf {e : LogEntry} :
    e ∈ db.logOf account kind ↔ ⟨account, e.modseq, kind, e.object, e.change⟩ ∈ db.changes := by
  simp only [Db.logOf, List.mem_insertionSort, List.mem_map, List.mem_filter, Bool.and_eq_true, beq_iff_eq]
  constructor
  · rintro ⟨r, ⟨hr, rfl, rfl⟩, rfl⟩
    exact hr
  · exact fun h => ⟨_, ⟨h, rfl, rfl⟩, rfl⟩

/-- Modseq and object are a key of one account's rows of one kind. -/
theorem pairwise_logOf (hkey : UniqueKey ChangeRow.key db.changes) : (db.logOf account kind).Pairwise
    fun a b => a.modseq < b.modseq ∨ a.modseq = b.modseq ∧ a.object < b.object := by
  have hle : (db.logOf account kind).Pairwise LogEntry.before := List.pairwise_insertionSort _ _
  have hne : (db.logOf account kind).Pairwise fun a b => (a.modseq, a.object) ≠ (b.modseq, b.object) := by
    refine (List.perm_insertionSort _ _).symm.pairwise ?_ fun h h' => h h'.symm
    refine List.pairwise_map.2 (List.pairwise_filter.2 ((List.pairwise_map.1 hkey).imp fun {r r'} hne hr hr' heq => ?_))
    simp only [Bool.and_eq_true, beq_iff_eq] at hr hr'
    refine hne ?_
    obtain ⟨hmodseq, hobject⟩ := Prod.ext_iff.1 heq
    change r.modseq = r'.modseq at hmodseq
    change r.objectId = r'.objectId at hobject
    rw [ChangeRow.key, ChangeRow.key, hr.1, hr'.1, hr.2, hr'.2, hmodseq, hobject]
  refine (hle.and hne).imp fun {a b} h => ?_
  obtain ⟨hlt | ⟨heq, hle⟩, hne⟩ := h
  · exact .inl hlt
  · refine .inr ⟨heq, lt_of_le_of_ne hle fun hobject => hne ?_⟩
    rw [heq, hobject]

/-- The log of an account whose store is sound. -/
def Sound.changeLog (hs : Sound account m dying db) (haccount : ∃ x ∈ db.accounts, x.id = account)
    (kind : ObjectKind) : ChangeLog where
  rows := db.logOf account kind
  current := m
  sorted := pairwise_logOf hs.keyed.change
  upto := fun r hr => by
    obtain ⟨x, hx, hid⟩ := haccount
    rw [← hs.at_m x hx hid]
    exact hs.clocked.change _ (mem_logOf.1 hr) x hx hid

/-- What the store answers is what its log does. -/
theorem changes_eq (hs : Sound account m dying db) (hm : db.modseqOf account = some m)
    (haccount : ∃ x ∈ db.accounts, x.id = account) (since : Int) (maxChanges : Nat) :
    changes db account kind since maxChanges = (hs.changeLog haccount kind).changes since maxChanges := by
  have hrows : db.logSince account kind since = (hs.changeLog haccount kind).after since := by
    change _ = (db.logOf account kind).filter _
    rw [Db.logOf, Table.filter_insertionSort, List.filter_map, List.filter_filter]
    change List.insertionSort LogEntry.before (List.map ChangeRow.entry _) = _
    congr 2
    refine List.filter_congr fun r _ => ?_
    rw [Bool.and_comm]
    rfl
  unfold changes ChangeLog.changes
  rw [hm, hrows]
  rfl

end UwuMail.Store
