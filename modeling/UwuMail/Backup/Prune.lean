/-
# Which snapshots stay, and taking the rest away

`keep` picks the newest snapshot of each of the last days, weeks and months that have one.  `prune`
reads every manifest, removes the snapshots `keep` lets go, and THEN the objects that no kept
snapshot needs.  Each removal is a storage operation of its own and the first error ends the run, so
what a snapshot that is still listed needs is there after every prefix of the run: a manifest is
gone before any of its objects, and what kept snapshots need is collected from all of them first.
-/
import UwuMail.Backup.Repository

namespace UwuMail.Backup

open Tx

/-! ## 1. Retention -/

structure Retention where
  daily : Nat := 7
  weekly : Nat := 4
  monthly : Nat := 6

/-- Days since 1970-01-01 as (year, month). -/
def yearMonth (days : Int) : Int × Int :=
  let z := days + 719468
  let era := z / 146097
  let doe := z - era * 146097
  let yoe := (doe - doe / 1460 + doe / 36524 - doe / 146096) / 365
  let doy := doe - (365 * yoe + yoe / 4 - yoe / 100)
  let mp := (5 * doy + 2) / 153
  let month := if mp < 10 then mp + 3 else mp - 9
  let year := yoe + era * 400 + (if month ≤ 2 then 1 else 0)
  (year, month)

/-- The day, the week (from Monday; 1970-01-01 was a Thursday) and the month a time falls into. -/
def dayOf (time : Int) : Int := time / 86400

def weekOf (time : Int) : Int := (time / 86400 + 3) / 7

def monthOf (time : Int) : Int :=
  let (year, month) := yearMonth (time / 86400)
  year * 12 + month

/-- The newest snapshot of each of the first `count` buckets. -/
def newestOf (bucketOf : Nat → Int) (count : Nat) : List Nat → List Int → List Nat
  | [], _ => []
  | index :: order, seen =>
    if count ≤ seen.length then []
    else if bucketOf index ∈ seen then newestOf bucketOf count order seen
    else index :: newestOf bucketOf count order (bucketOf index :: seen)

/-- The indexes of the snapshots to keep, given their creation times.  The newest snapshot always
stays. -/
def keep (times : List Int) (retention : Retention) : List Nat :=
  let time (index : Nat) : Int := times.getD index 0
  let order := (List.range times.length).insertionSort fun i j => time j ≤ time i
  order.take 1 ++ newestOf (fun i => dayOf (time i)) retention.daily order [] ++
    newestOf (fun i => weekOf (time i)) retention.weekly order [] ++
    newestOf (fun i => monthOf (time i)) retention.monthly order []

-- The newest snapshot stays, whatever the rules say, and so does the newest of each day.
example : keep [5, 9, 7] ⟨0, 0, 0⟩ = [1] ∧ keep [5, 90000, 7, 90001] ⟨2, 0, 0⟩ = [3, 3, 2] := by
  decide

example : yearMonth 0 = (1970, 1) ∧ yearMonth 20454 = (2026, 1) := by decide

/-! ## 2. Prune -/

/-- The loop over the snapshots: how many are removed, and what the others need. -/
def Repository.pruneSnapshots (repo : Repository) (kept : List Nat) :
    Nat → List (String × Manifest) → Tx Error Storage (Nat × List String)
  | _, [] => pure (0, [])
  | index, (name, m) :: rest =>
    if index ∈ kept then do
      let (removed, needed) ← repo.pruneSnapshots kept (index + 1) rest
      pure (removed, repo.wanted m ++ needed)
    else do
      Storage.remove (.snapshot name)
      let (removed, needed) ← repo.pruneSnapshots kept (index + 1) rest
      pure (removed + 1, needed)

/-- The loop over the objects. -/
def pruneObjects (needed : List String) : List String → Tx Error Storage Nat
  | [] => pure 0
  | id :: ids =>
    if id ∈ needed then pruneObjects needed ids
    else do
      let path ← Tx.ofExcept (objectPath id)
      Storage.remove path
      let removed ← pruneObjects needed ids
      pure (removed + 1)

/-- Removes snapshots the retention rules let go, then objects no snapshot needs. -/
def Repository.prune (repo : Repository) (retention : Retention) : Tx Error Storage (Nat × Nat) := do
  let names ← snapshots
  let manifests ← names.mapM fun name => do
    let m ← manifest name
    pure (name, m)
  let kept := keep (manifests.map (·.2.createdAt)) retention
  let (removedSnapshots, needed) ← repo.pruneSnapshots kept 0 manifests
  if manifests.isEmpty then pure (removedSnapshots, 0)
  else do
    let ids ← objectIds
    let removedObjects ← pruneObjects needed (repo.iterate ids)
    pure (removedSnapshots, removedObjects)

/-! ## 3. What the loops remove -/

section Loops

variable {repo : Repository} {kept : List Nat}

/-- The files of the snapshots that are let go. -/
def LetGo (kept : List Nat) (index : Nat) (manifests : List (String × Manifest)) (path : Path) : Prop :=
  ∃ i e, manifests[i]? = some e ∧ index + i ∉ kept ∧ path = .snapshot e.1

theorem LetGo.tail {index : Nat} {e : String × Manifest} {manifests : List (String × Manifest)}
    {path : Path} (h : LetGo kept (index + 1) manifests path) : LetGo kept index (e :: manifests) path := by
  obtain ⟨i, e', he, hi, hpath⟩ := h
  exact ⟨i + 1, e', by simpa using he, by rwa [show index + (i + 1) = index + 1 + i by omega], hpath⟩

theorem LetGo.head {index : Nat} {e : String × Manifest} {manifests : List (String × Manifest)}
    (h : index ∉ kept) : LetGo kept index (e :: manifests) (.snapshot e.1) :=
  ⟨0, e, rfl, h, rfl⟩

/-- The first loop removes snapshots that are let go, all of them when it ends well, and then it has
what each of the others needs. -/
theorem ends_pruneSnapshots : ∀ (manifests : List (String × Manifest)) (index : Nat) {s : Storage},
    Ends (repo.pruneSnapshots kept index manifests) s
      (fun r s' => Thinned (LetGo kept index manifests) s.files s'.files ∧
        (∀ path, LetGo kept index manifests path → path ∉ s'.files) ∧
        ∀ id, id ∈ r.2 ↔
          ∃ i e, manifests[i]? = some e ∧ index + i ∈ kept ∧ id ∈ repo.wanted e.2)
      (fun s' => Thinned (LetGo kept index manifests) s.files s'.files)
  | [], index, s => by
    refine .pure ⟨.refl, ?_, by simp⟩
    rintro _ ⟨i, e, he, -⟩
    cases he
  | (name, m) :: rest, index, s => by
    -- What the rest of the list needs, seen from the whole list.
    have hneeded : ∀ id, (∃ i e, ((name, m) :: rest)[i]? = some e ∧ index + i ∈ kept ∧
        id ∈ repo.wanted e.2) ↔ (index ∈ kept ∧ id ∈ repo.wanted m) ∨
          ∃ i e, rest[i]? = some e ∧ index + 1 + i ∈ kept ∧ id ∈ repo.wanted e.2 := by
      intro id
      constructor
      · rintro ⟨_ | i, e, he, hi, hid⟩
        · cases he
          exact .inl ⟨hi, hid⟩
        · exact .inr ⟨i, e, by simpa using he, by rwa [show index + 1 + i = index + (i + 1) by omega], hid⟩
      · rintro (⟨hi, hid⟩ | ⟨i, e, he, hi, hid⟩)
        · exact ⟨0, _, rfl, hi, hid⟩
        · exact ⟨i + 1, e, by simpa using he, by rwa [show index + (i + 1) = index + 1 + i by omega], hid⟩
    unfold Repository.pruneSnapshots
    split
    next hkept =>
      refine ((ends_pruneSnapshots rest (index + 1)).mono (fun _ _ h => h)
        (fun _ h => h.mono fun _ => .tail)).bind ?_
      rintro ⟨removed, needed⟩ s' ⟨hthin, hgone, hids⟩
      refine .pure ⟨hthin.mono fun _ => .tail, ?_, fun id => ?_⟩
      · rintro path ⟨_ | i, e, he, hi, rfl⟩
        · exact absurd hkept hi
        · exact hgone _ ⟨i, e, by simpa using he, by rwa [show index + 1 + i = index + (i + 1) by omega], rfl⟩
      · rw [hneeded, List.mem_append, hids]
        simp only [hkept, true_and]
    next hkept =>
      refine (ends_remove.mono (fun _ _ h => h) (fun _ h => ?_)).bind ?_
      · exact h.mono fun path hpath => hpath ▸ .head hkept
      rintro - s₁ hs₁
      have hfirst : Thinned (LetGo kept index ((name, m) :: rest)) s.files s₁.files := by
        rw [hs₁]
        exact thinned_erase.mono fun path hpath => hpath ▸ .head hkept
      refine ((ends_pruneSnapshots rest (index + 1)).mono (fun _ _ h => h)
        (fun _ h => hfirst.trans (h.mono fun _ => .tail))).bind ?_
      rintro ⟨removed, needed⟩ s' ⟨hthin, hgone, hids⟩
      refine .pure ⟨hfirst.trans (hthin.mono fun _ => .tail), ?_, fun id => ?_⟩
      · rintro path ⟨_ | i, e, he, hi, rfl⟩
        · cases he
          refine AList.lookup_eq_none.1 (hthin.none ?_)
          rw [hs₁, AList.lookup_erase]
        · exact hgone _ ⟨i, e, by simpa using he, by rwa [show index + 1 + i = index + (i + 1) by omega], rfl⟩
      · rw [hneeded, hids]
        simp only [hkept, false_and, false_or]

/-- The paths of the objects nobody needs. -/
def Unneeded (needed ids : List String) (path : Path) : Prop :=
  ∃ id ∈ ids, id ∉ needed ∧ path = .object (idPrefix id) id

theorem Unneeded.tail {needed ids : List String} {id : String} {path : Path}
    (h : Unneeded needed ids path) : Unneeded needed (id :: ids) path := by
  obtain ⟨id', hid', h⟩ := h
  exact ⟨id', List.mem_cons_of_mem _ hid', h⟩

/-- The second loop removes objects nobody needs, all of them when it ends well. -/
theorem ends_pruneObjects {needed : List String} : ∀ (ids : List String) {s : Storage},
    Ends (pruneObjects needed ids) s
      (fun _ s' => Thinned (Unneeded needed ids) s.files s'.files ∧
        ∀ path, Unneeded needed ids path → path ∉ s'.files)
      (fun s' => Thinned (Unneeded needed ids) s.files s'.files)
  | [], s => by
    refine .pure ⟨.refl, ?_⟩
    rintro _ ⟨id, hid, -⟩
    cases hid
  | id :: ids, s => by
    unfold pruneObjects
    split
    next hid =>
      refine (ends_pruneObjects ids).mono ?_ fun _ h => h.mono fun _ => .tail
      rintro _ s' ⟨hthin, hgone⟩
      refine ⟨hthin.mono fun _ => .tail, ?_⟩
      rintro path ⟨id', hid', hneeded, hpath⟩
      rcases List.mem_cons.1 hid' with rfl | hid'
      · exact absurd hid hneeded
      · exact hgone path ⟨id', hid', hneeded, hpath⟩
    next hid =>
      have hunneeded : ∀ path, path = Path.object (idPrefix id) id → Unneeded needed (id :: ids) path :=
        fun path hpath => ⟨id, List.mem_cons_self, hid, hpath⟩
      refine Ends.bind (Q := fun path s' => path = .object (idPrefix id) id ∧ s = s')
        (.ofExcept (fun path h => ⟨objectPath_eq_ok h, rfl⟩) .refl) ?_
      rintro _ _ ⟨rfl, rfl⟩
      refine (ends_remove.mono (fun _ _ h => h) (fun _ h => h.mono hunneeded)).bind ?_
      rintro - s₁ hs₁
      have hfirst : Thinned (Unneeded needed (id :: ids)) s.files s₁.files := by
        rw [hs₁]
        exact thinned_erase.mono hunneeded
      refine ((ends_pruneObjects ids).mono (fun _ _ h => h)
        (fun _ h => hfirst.trans (h.mono fun _ => .tail))).bind ?_
      rintro removed s' ⟨hthin, hgone⟩
      refine .pure ⟨hfirst.trans (hthin.mono fun _ => .tail), ?_⟩
      rintro path ⟨id', hid', hneeded, rfl⟩
      rcases List.mem_cons.1 hid' with rfl | hid'
      · refine AList.lookup_eq_none.1 (hthin.none ?_)
        rw [hs₁, AList.lookup_erase]
      · exact hgone _ ⟨id', hid', hneeded, rfl⟩

end Loops

/-! ## 4. The whole run -/

section Run

variable {repo : Repository} {files files' : Files}

theorem nodup_snapshotsIn : (snapshotsIn files).Nodup := by
  refine ((List.perm_insertionSort _ _).nodup_iff).2 (List.Nodup.filter _ ?_)
  refine List.Nodup.filterMap ?_ files.nodupKeys
  intro p p' name h h'
  cases p with
  | object pre n => cases h
  | snapshot n =>
    cases p' with
    | object pre n' => cases h'
    | snapshot n' =>
      simp only [Option.mem_def, Option.ite_none_right_eq_some, Option.some.injEq] at h h'
      rw [h.2, h'.2]

/-- The manifests that `prune` works with: one for each snapshot, as it is stored. -/
structure ReadAs (files : Files) (manifests : List (String × Manifest)) : Prop where
  names : manifests.map (·.1) = snapshotsIn files
  read : ∀ e ∈ manifests, manifestOf e.1 (files.lookup (.snapshot e.1)) = .ok e.2

theorem ends_manifests {s : Storage} :
    Ends ((snapshotsIn s.files).mapM fun name => do
        let m ← manifest name
        pure (name, m)) s
      (fun manifests s' => ReadAs s.files manifests ∧ s'.files = s.files)
      (fun s' => s'.files = s.files) := by
  have hloop := Ends.mapM (s := s) (E := fun s' : Storage => s'.files = s.files)
    (P := fun done ms s' => (ms.map (·.1) = done ∧
      ∀ e ∈ ms, manifestOf e.1 (s.files.lookup (.snapshot e.1)) = .ok e.2) ∧ s'.files = s.files)
    (f := fun name => do
      let m ← manifest name
      pure (name, m))
    (fun done ms name s₁ h => by
      obtain ⟨⟨hnames, hread⟩, hs₁⟩ := h
      refine ((ends_manifest name).mono (fun _ _ h => h) (fun _ h => h.trans hs₁)).bind ?_
      rintro m s₂ ⟨hm, hs₂⟩
      refine .pure ⟨⟨by simp [hnames], fun e he => ?_⟩, hs₂.trans hs₁⟩
      rcases List.mem_append.1 he with he | he
      · exact hread e he
      · rw [List.mem_singleton.1 he, ← hs₁]
        exact hm)
    (snapshotsIn s.files) [] [] ⟨⟨rfl, by simp⟩, rfl⟩
  exact hloop.mono (fun ms s' h => ⟨⟨h.1.1, h.1.2⟩, h.2⟩) fun _ h => h

/-- What every run leaves behind, also one that failed: files are only removed, and a snapshot that
is still listed has every object that it needs and had. -/
structure Pruned (repo : Repository) (files files' : Files) : Prop where
  thin : Thinned (fun _ => True) files files'
  objects : ∀ name ∈ snapshotsIn files', ∀ m,
    manifestOf name (files.lookup (.snapshot name)) = .ok m →
      ∀ id ∈ repo.wanted m, HasObject files id → HasObject files' id

theorem Pruned.of_letGo {kept : List Nat} {index : Nat} {manifests : List (String × Manifest)}
    (h : Thinned (LetGo kept index manifests) files files') : Pruned repo files files' where
  thin := h.mono fun _ _ => trivial
  objects := by
    rintro name - m - id - ⟨path, hpath, hmem⟩
    refine ⟨path, hpath, h.mem hmem ?_⟩
    rintro ⟨i, e, -, -, rfl⟩
    cases objectPath_eq_ok hpath

theorem Pruned.of_eq (h : files' = files) : Pruned repo files files' :=
  @Pruned.of_letGo _ _ _ [] 0 [] (.of_eq h)

/-- A snapshot that is listed after the run was listed before it. -/
theorem mem_snapshotsIn_of_thinned {gone : Path → Prop} (h : Thinned gone files files') {name : String}
    (hname : name ∈ snapshotsIn files') : name ∈ snapshotsIn files := by
  rw [mem_snapshotsIn] at hname ⊢
  exact ⟨⟨h.mem_of_mem hname.1.1, hname.1.2⟩, hname.2⟩

theorem Pruned.complete (h : Pruned repo files files') {name : String}
    (hname : name ∈ snapshotsIn files') (hcomplete : Complete repo files name) :
    Complete repo files' name := by
  obtain ⟨m, hm, hobjects⟩ := hcomplete
  refine ⟨m, ?_, fun id hid => h.objects name hname m hm id hid (hobjects id hid)⟩
  rw [h.thin.lookup_of_mem (mem_snapshotsIn.1 hname).1.1]
  exact hm

section Second

variable {kept : List Nat} {manifests : List (String × Manifest)} {files₁ : Files}
  {needed ids : List String}

/-- What the second loop finds: the snapshots that are let go are gone, and the rest is needed. -/
structure Loops (repo : Repository) (kept : List Nat) (manifests : List (String × Manifest))
    (needed : List String) (files files₁ : Files) : Prop where
  read : ReadAs files manifests
  thin : Thinned (LetGo kept 0 manifests) files files₁
  gone : ∀ path, LetGo kept 0 manifests path → path ∉ files₁
  needed : ∀ id, id ∈ needed ↔ ∃ i e, manifests[i]? = some e ∧ i ∈ kept ∧ id ∈ repo.wanted e.2

/-- A snapshot that is not kept is gone. -/
theorem Loops.goes (h : Loops repo kept manifests needed files files₁)
    (hthin : Thinned (Unneeded needed ids) files₁ files') {i : Nat} {e : String × Manifest}
    (he : manifests[i]? = some e) (hi : i ∉ kept) : e.1 ∉ snapshotsIn files' := by
  intro hname
  refine h.gone _ ⟨i, e, he, by simpa using hi, rfl⟩ ?_
  exact hthin.mem_of_mem (mem_snapshotsIn.1 hname).1.1

theorem Loops.objects (h : Loops repo kept manifests needed files files₁)
    (hthin : Thinned (Unneeded needed ids) files₁ files') : Pruned repo files files' where
  thin := (h.thin.mono fun _ _ => trivial).trans (hthin.mono fun _ _ => trivial)
  objects := by
    rintro name hname m hm id hid ⟨path, hpath, hmem⟩
    obtain ⟨i, hi⟩ : ∃ i, (manifests.map (·.1))[i]? = some name := by
      rw [h.read.names]
      exact List.mem_iff_getElem?.1
        (mem_snapshotsIn_of_thinned h.thin (mem_snapshotsIn_of_thinned hthin hname))
    rw [List.getElem?_map, Option.map_eq_some_iff] at hi
    obtain ⟨e, he, rfl⟩ := hi
    -- The snapshot is still there, so it was not let go, and what it needs is in `needed`.
    have hkept : i ∈ kept := by
      by_contra hi
      exact h.goes hthin he hi hname
    have hread := h.read.read e (List.mem_of_getElem? he)
    rw [hm] at hread
    have hneeded : id ∈ needed := (h.needed id).2 ⟨i, e, he, hkept, by cases hread; exact hid⟩
    refine ⟨path, hpath, hthin.mem (h.thin.mem hmem ?_) ?_⟩
    · rintro ⟨j, e', -, -, rfl⟩
      cases objectPath_eq_ok hpath
    · rintro ⟨id', -, hid', rfl⟩
      obtain ⟨-, rfl⟩ := Path.object.inj (objectPath_eq_ok hpath)
      exact hid' hneeded

/-- A snapshot that is kept stays. -/
theorem Loops.stays (h : Loops repo kept manifests needed files files₁)
    (hthin : Thinned (Unneeded needed ids) files₁ files') {i : Nat} {e : String × Manifest}
    (he : manifests[i]? = some e) (hi : i ∈ kept) : e.1 ∈ snapshotsIn files' := by
  have hname : e.1 ∈ snapshotsIn files := by
    rw [← h.read.names]
    exact List.mem_map.2 ⟨e, List.mem_of_getElem? he, rfl⟩
  rw [mem_snapshotsIn] at hname ⊢
  refine ⟨⟨hthin.mem (h.thin.mem hname.1.1 ?_) ?_, hname.1.2⟩, hname.2⟩
  · rintro ⟨j, e', he', hj, heq⟩
    -- No two snapshots have one name.
    have hnodup : (manifests.map (·.1)).Nodup := by
      rw [h.read.names]
      exact nodup_snapshotsIn
    have hlt : i < (manifests.map (·.1)).length := by
      rw [List.length_map]
      exact (List.getElem?_eq_some_iff.1 he).1
    have hij : i = j := by
      refine (List.getElem?_inj hlt hnodup).1 ?_
      rw [List.getElem?_map, List.getElem?_map, he, he', Option.map_some, Option.map_some,
        Path.snapshot.inj heq]
    rw [zero_add, ← hij] at hj
    exact hj hi
  · rintro ⟨id', -, -, heq⟩
    cases heq

/-- An object that is needed is needed by a snapshot that stays. -/
theorem Loops.referred (h : Loops repo kept manifests needed files files₁)
    (hthin : Thinned (Unneeded needed ids) files₁ files') {id : String} (hid : id ∈ needed) :
    ∃ name ∈ snapshotsIn files', ∃ m,
      manifestOf name (files'.lookup (.snapshot name)) = .ok m ∧ id ∈ repo.wanted m := by
  obtain ⟨i, e, he, hi, hid⟩ := (h.needed id).1 hid
  have hstays := h.stays hthin he hi
  refine ⟨e.1, hstays, e.2, ?_, hid⟩
  have hthin' : Thinned (fun _ => True) files files' :=
    (h.thin.mono fun _ _ => trivial).trans (hthin.mono fun _ _ => trivial)
  rw [hthin'.lookup_of_mem (mem_snapshotsIn.1 hstays).1.1]
  exact h.read.read e (List.mem_of_getElem? he)

end Second

/-- `prune`, however it ends; and when it ends well, what its two loops did: the second one went
through the objects that were still there, and those that are not needed are gone. -/
theorem ends_prune_loops {retention : Retention} {s : Storage} :
    Ends (repo.prune retention) s
      (fun _ s' => ∃ manifests needed ids files₁,
        Loops repo (keep (manifests.map (·.2.createdAt)) retention) manifests needed s.files files₁ ∧
          Thinned (Unneeded needed ids) files₁ s'.files ∧
          (snapshotsIn s.files ≠ [] → (∀ id ∈ objectIdsIn files₁, id ∈ ids) ∧
            ∀ path, Unneeded needed ids path → path ∉ s'.files))
      (fun s' => Pruned repo s.files s'.files) := by
  refine (ends_snapshots.mono (fun _ _ h => h) fun _ h => .of_eq h).bind ?_
  rintro names s₁ ⟨rfl, hs₁⟩
  rw [← hs₁]
  refine (ends_manifests.mono (fun _ _ h => h) fun _ h => .of_eq h).bind ?_
  rintro manifests s₂ ⟨hread, hs₂⟩
  refine ((ends_pruneSnapshots manifests 0).mono (fun _ _ h => h) fun _ h => ?_).bind ?_
  · rw [hs₂] at h
    exact .of_letGo h
  rintro ⟨removed, needed⟩ s₃ ⟨hthin, hgone, hneeded⟩
  rw [hs₂] at hthin
  have hloops : Loops repo (keep (manifests.map (·.2.createdAt)) retention) manifests needed s₁.files
      s₃.files := ⟨hread, hthin, hgone, by simpa using hneeded⟩
  dsimp only
  split
  next hempty =>
    refine .pure ⟨manifests, needed, [], _, hloops, .refl, fun hne => absurd ?_ hne⟩
    rw [← hread.names, List.isEmpty_iff.1 hempty, List.map_nil]
  next =>
    refine (ends_objectIds.mono (fun _ _ h => h) fun s₄ h => ?_).bind ?_
    · rw [h]
      exact .of_letGo hthin
    rintro ids s₄ ⟨rfl, hs₄⟩
    refine ((ends_pruneObjects _).mono (fun _ _ h => h) fun _ h => ?_).bind ?_
    · rw [hs₄] at h
      exact hloops.objects h
    rintro removed' s₅ ⟨hthin', hgone'⟩
    rw [hs₄] at hthin'
    exact .pure ⟨manifests, needed, _, _, hloops, hthin', fun _ =>
      ⟨fun id hid => (repo.iterate_perm _).mem_iff.2 hid, hgone'⟩⟩

/-- What is left of the objects `prune` listed is needed by a snapshot that is left. -/
theorem ends_prune {retention : Retention} {s : Storage} :
    Ends (repo.prune retention) s
      (fun _ s' => Pruned repo s.files s'.files ∧
        (snapshotsIn s.files ≠ [] → ∀ id ∈ objectIdsIn s.files, HasObject s'.files id →
          ∃ name ∈ snapshotsIn s'.files, ∃ m,
            manifestOf name (s'.files.lookup (.snapshot name)) = .ok m ∧ id ∈ repo.wanted m))
      (fun s' => Pruned repo s.files s'.files) := by
  refine ends_prune_loops.mono ?_ fun _ h => h
  rintro - s' ⟨manifests, needed, ids, files₁, hloops, hthin, hgone⟩
  refine ⟨hloops.objects hthin, fun hne id hid hhas => hloops.referred hthin ?_⟩
  -- An object that was listed and is not needed would be gone.
  by_contra hid'
  obtain ⟨hlisted, hgone⟩ := hgone hne
  obtain ⟨path, hpath, hmem⟩ := hhas
  refine hgone path ⟨id, hlisted id ?_, hid', objectPath_eq_ok hpath⟩ hmem
  rw [mem_objectIdsIn_iff] at hid ⊢
  refine ⟨hloops.thin.mem hid.1 ?_, hid.2⟩
  rintro ⟨i, e, -, -, heq⟩
  cases heq

/-- **Prune is safe.**  Let every listed snapshot be complete, and let the operations of the storage
fail as they like.  Then every snapshot that is still listed after the run is complete; and when the
run ends well, every object it listed (it lists none in a repository without snapshots) that is
still there is one that a remaining snapshot refers to. -/
theorem prune_keeps_snapshots_complete (repo : Repository) (retention : Retention) (s : Storage)
    (hcomplete : ∀ name ∈ snapshotsIn s.files, Complete repo s.files name) :
    let end_ := (repo.prune retention).exec s
    (∀ name ∈ snapshotsIn end_.2.files, Complete repo end_.2.files name) ∧
      ∀ counts, end_.1 = .ok counts → snapshotsIn s.files ≠ [] →
        ∀ id ∈ objectIdsIn s.files, HasObject end_.2.files id →
          ∃ name ∈ snapshotsIn end_.2.files, ∃ m,
            manifestOf name (end_.2.files.lookup (.snapshot name)) = .ok m ∧ id ∈ repo.wanted m := by
  intro end_
  refine ⟨fun name hname => ?_, fun counts hok => ?_⟩
  · have hpruned : Pruned repo s.files end_.2.files :=
      (ends_prune.mono (fun _ _ h => h.1) fun _ h => h).always
    exact hpruned.complete hname (hcomplete name (mem_snapshotsIn_of_thinned hpruned.thin hname))
  · exact (ends_prune.ok (Prod.ext hok rfl)).2

/-- A plain repository. -/
def plain : Repository := ⟨id, id, fun _ => .refl _⟩

/-- An id, and a snapshot that needs the object and the one of the blob with this hash. -/
def sampleId (digit : Char) : String := String.ofList (List.replicate 64 digit)

def sampleManifest (time : Int) (name : String) (blobs : List String) : Manifest :=
  ⟨1, time, "mail.example.org", "0.17.0", [sampleId 'd'], 4096, blobs, 100, [], 0, some name⟩

/-- Two snapshots of one day that share the database's object and one blob. -/
def twoSnapshots : Files :=
  [(Path.snapshot "000000000005-0a1b2c",
      File.manifest (sampleManifest 5 "000000000005-0a1b2c" [sampleId 'a', sampleId 'b'])),
    (Path.snapshot "000000000009-0a1b2c",
      File.manifest (sampleManifest 9 "000000000009-0a1b2c" [sampleId 'b'])),
    (Path.object "dd" (sampleId 'd'), File.content (sampleId 'd')),
    (Path.object "aa" (sampleId 'a'), File.content (sampleId 'a')),
    (Path.object "bb" (sampleId 'b'), File.content (sampleId 'b'))].foldl
      (fun files e => files.insert e.1 e.2) ∅

/-- With one day to keep, the older snapshot goes, and of its objects the one it alone needed;
should the answer to the first removal be lost, that is all that happened. -/
theorem prune_two_snapshots :
    (((plain.prune ⟨1, 0, 0⟩).exec ⟨twoSnapshots, []⟩).1 = .ok (1, 1) ∧
      ∀ name ∈ snapshotsIn ((plain.prune ⟨1, 0, 0⟩).exec ⟨twoSnapshots, []⟩).2.files,
        Complete plain ((plain.prune ⟨1, 0, 0⟩).exec ⟨twoSnapshots, []⟩).2.files name) ∧
      ∀ name ∈ snapshotsIn ((plain.prune ⟨1, 0, 0⟩).exec
          ⟨twoSnapshots, [.done, .done, .done, .unheard]⟩).2.files,
        Complete plain ((plain.prune ⟨1, 0, 0⟩).exec
          ⟨twoSnapshots, [.done, .done, .done, .unheard]⟩).2.files name :=
  ⟨⟨by decide,
    (prune_keeps_snapshots_complete plain ⟨1, 0, 0⟩ ⟨twoSnapshots, []⟩ (by decide)).1⟩,
    (prune_keeps_snapshots_complete plain ⟨1, 0, 0⟩ ⟨twoSnapshots, [.done, .done, .done, .unheard]⟩
      (by decide)).1⟩

end Run

end UwuMail.Backup
