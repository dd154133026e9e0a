/-
# Thinning the snapshots day after day

`prune` runs after every backup and asks `keep` about the snapshots that are still there.  It never
sees the ones it removed before, and it need not: what it leaves is what `keep` would choose from
all snapshots there ever were.

* §1 shows that later times lie in no earlier day, week or month.  For months that is the calendar's
  arithmetic: `year_month` counts March years.
* §2 reads `keep` in the order of the names: `order` begins with the newest snapshot (of those of
  one second the one whose name comes first), so its loops choose what `Buckets.Rule.Picks` says.
* §3 is the result, with the run from an empty repository, and what `prune` leaves of the names.
-/
import UwuMail.Lib.Buckets
import UwuMail.Lib.Calendar
import UwuMail.Backup.Prune

namespace UwuMail.Backup

open Buckets Calendar

/-! ## 1. Days, weeks and months -/

theorem dayOf_mono : Monotone dayOf := by
  intro s t h
  unfold dayOf
  omega

theorem weekOf_mono : Monotone weekOf := by
  intro s t h
  unfold weekOf
  omega

/-- The months are counted from March on. -/
theorem monthOf_eq {n days time : Int} (hdays : days = time / 86400 + 719468) (h : marchStart n ≤ days)
    (h' : days < marchStart (n + 1)) : monthOf time = n * 12 + (5 * (days - marchStart n) + 2) / 153 + 3 := by
  obtain ⟨hle, hlt⟩ := march_year days
  have hn := march_unique h h' hle hlt
  obtain ⟨era, hera⟩ : ∃ era, era = days / 146097 := ⟨_, rfl⟩
  obtain ⟨yoe, hyoe⟩ : ∃ yoe, yoe = yearOfEra (days - days / 146097 * 146097) := ⟨_, rfl⟩
  rw [← hyoe, ← hera] at hn
  have hdoy : days - era * 146097 - (365 * yoe + yoe / 4 - yoe / 100) = days - marchStart n := by
    have hyoe' := (yearOfEra_spec (by omega : 0 ≤ days - days / 146097 * 146097) (by omega)).1
    rw [← hyoe] at hyoe'
    unfold marchStart
    omega
  rw [← hera] at hyoe
  unfold yearOfEra at hyoe
  unfold monthOf yearMonth
  simp only [← hdays, ← hera]
  simp only [← hyoe, hdoy]
  split <;> split <;> omega

theorem monthOf_mono : Monotone monthOf := by
  intro s t h
  obtain ⟨hs, hs'⟩ := march_year (s / 86400 + 719468)
  obtain ⟨ht, ht'⟩ := march_year (t / 86400 + 719468)
  rw [monthOf_eq rfl hs hs', monthOf_eq rfl ht ht']
  generalize yearOfEra _ + (s / 86400 + 719468) / 146097 * 400 = n at hs hs' ⊢
  generalize yearOfEra _ + (t / 86400 + 719468) / 146097 * 400 = n' at ht ht' ⊢
  have hn : n ≤ n' := march_mono (by omega) hs ht'
  rcases hn.lt_or_eq with hn | rfl
  · -- twelve months are in a March year
    have hlen : marchStart (n + 1) ≤ marchStart n + 366 := by
      rw [marchStart_succ]
      unfold yearLength
      split <;> omega
    omega
  · omega

/-! ## 2. `keep` by the names -/

section
variable {ν : Type} [LinearOrder ν]

/-- The snapshots of a repository in the order `prune` reads them, which is that of their names. -/
def listed (snapshots : Finset ν) : List ν := snapshots.sort

/-- The snapshots that `prune` leaves. -/
def pruned (createdAt : ν → Int) (retention : Retention) (snapshots : Finset ν) : Finset ν :=
  ((keep ((listed snapshots).map createdAt) retention).filterMap fun index => (listed snapshots)[index]?).toFinset

/-- Which of two snapshots is the newer one: the later, or the first name of one second. -/
def newness (createdAt : ν → Int) (name : ν) : Int ×ₗ νᵒᵈ := toLex (createdAt name, OrderDual.toDual name)

def rules (createdAt : ν → Int) (retention : Retention) : List (Rule ν Int) :=
  [⟨retention.daily, fun name => dayOf (createdAt name)⟩,
    ⟨retention.weekly, fun name => weekOf (createdAt name)⟩,
    ⟨retention.monthly, fun name => monthOf (createdAt name)⟩]

/-- `order`, by the names. -/
def newestFirst (createdAt : ν → Int) (snapshots : Finset ν) : List ν :=
  (listed snapshots).insertionSort fun x y => createdAt y ≤ createdAt x

variable {createdAt : ν → Int} {retention : Retention} {snapshots : Finset ν} {x y : ν}

theorem newness_lt : newness createdAt y < newness createdAt x ↔
    createdAt y < createdAt x ∨ createdAt y = createdAt x ∧ x < y := by
  simp [newness, Prod.Lex.toLex_lt_toLex]

theorem newness_le : newness createdAt y ≤ newness createdAt x ↔
    createdAt y < createdAt x ∨ createdAt y = createdAt x ∧ x ≤ y := by
  simp [newness, Prod.Lex.toLex_le_toLex]

theorem mem_newestFirst : x ∈ newestFirst createdAt snapshots ↔ x ∈ snapshots := by
  simp [newestFirst, listed]

theorem newestFirst_toFinset : (newestFirst createdAt snapshots).toFinset = snapshots := by
  ext x
  rw [List.mem_toFinset, mem_newestFirst]

/-- In a list without repetition two things stand one way round. -/
theorem not_sublist_swap {α : Type} {x y : α} : ∀ {l : List α}, l.Nodup →
    List.Sublist [x, y] l → ¬ List.Sublist [y, x] l
  | z :: l, hnodup, h, h' => by
    obtain ⟨hz, hl⟩ := List.nodup_cons.1 hnodup
    cases h with
    | cons _ h =>
      cases h' with
      | cons _ h' => exact not_sublist_swap hl h h'
      | cons_cons _ h' => exact hz (h.subset (by simp))
    | cons_cons _ h =>
      cases h' with
      | cons _ h' => exact hz (h'.subset (by simp))
      | cons_cons _ h' => exact hz (h'.subset (by simp))

/-- **The sort is stable**, so of one second the first name stays in front. -/
theorem newestFirst_pairwise :
    (newestFirst createdAt snapshots).Pairwise fun x y => newness createdAt y < newness createdAt x := by
  have hsorted : (newestFirst createdAt snapshots).Pairwise fun x y => createdAt y ≤ createdAt x := by
    have : Std.Total fun x y : ν => createdAt y ≤ createdAt x := ⟨fun x y => le_total _ _⟩
    have : IsTrans ν fun x y : ν => createdAt y ≤ createdAt x := ⟨fun x y z h h' => h'.trans h⟩
    exact List.pairwise_insertionSort _ _
  have hnodup : (newestFirst createdAt snapshots).Nodup :=
    (List.perm_insertionSort _ _).nodup_iff.2 (Finset.sort_nodup _ _)
  rw [List.pairwise_iff_forall_sublist] at hsorted ⊢
  intro x y hxy
  rw [newness_lt]
  rcases (hsorted hxy).lt_or_eq with hlt | heq
  · exact .inl hlt
  · refine .inr ⟨heq, ?_⟩
    have hne : x ≠ y := by
      rintro rfl
      simpa using hnodup.sublist hxy
    by_contra hle
    -- the names would stand the other way round in the list, and still do
    have hyx : List.Sublist [y, x] (listed snapshots) := by
      have hx : x ∈ listed snapshots := by
        simpa [listed] using mem_newestFirst.1 (hxy.subset (by simp))
      have hy : y ∈ listed snapshots := by
        simpa [listed] using mem_newestFirst.1 (hxy.subset (by simp))
      have hperm : List.Subperm [y, x] (listed snapshots) := by
        refine List.subperm_of_subset (by simpa using hne.symm) ?_
        intro z hz
        rcases List.mem_pair.1 hz with rfl | rfl
        · exact hy
        · exact hx
      have hle' : [y, x].Pairwise (· ≤ ·) := by simpa using (not_lt.1 hle)
      exact List.sublist_of_subperm_of_pairwise hperm hle' (Finset.pairwise_sort _ _)
    have hback := List.pair_sublist_insertionSort (r := fun x y => createdAt y ≤ createdAt x) heq.ge hyx
    exact not_sublist_swap hnodup hxy hback

theorem newestOf_eq {bucketOf : Nat → Int} {count : Nat} : ∀ {order : List Nat} {seen : List Int},
    newestOf bucketOf count order seen = firsts bucketOf count order seen
  | [], _ => rfl
  | index :: order, seen => by
    simp only [newestOf, firsts, newestOf_eq]

/-- The names of the snapshots `keep` chooses. -/
theorem keep_names : ((keep ((listed snapshots).map createdAt) retention).filterMap
      fun index => (listed snapshots)[index]?) =
    (newestFirst createdAt snapshots).take 1 ++
      firsts (fun name => dayOf (createdAt name)) retention.daily (newestFirst createdAt snapshots) [] ++
      firsts (fun name => weekOf (createdAt name)) retention.weekly (newestFirst createdAt snapshots) [] ++
      firsts (fun name => monthOf (createdAt name)) retention.monthly (newestFirst createdAt snapshots) [] := by
  obtain ⟨names, hnames⟩ : ∃ names, names = listed snapshots := ⟨_, rfl⟩
  unfold newestFirst keep
  rw [← hnames]
  cases names with
  | nil => simp [firsts, newestOf]
  | cons first names =>
    obtain ⟨all, hall⟩ : ∃ all, all = first :: names := ⟨_, rfl⟩
    rw [← hall]
    obtain ⟨nameOf, hnameOf⟩ : ∃ nameOf : Nat → ν, ∀ index, nameOf index = all.getD index first :=
      ⟨_, fun _ => rfl⟩
    have htime : ∀ index < all.length, (all.map createdAt).getD index 0 = createdAt (nameOf index) := by
      intro index h
      simp [hnameOf, List.getD, List.getElem?_eq_getElem h]
    obtain ⟨order, horder⟩ : ∃ order, order = (List.range (all.map createdAt).length).insertionSort
      fun i j => (all.map createdAt).getD j 0 ≤ (all.map createdAt).getD i 0 := ⟨_, rfl⟩
    have hmem : ∀ index ∈ order, index < all.length := by
      intro index h
      rw [horder, List.mem_insertionSort, List.mem_range, List.length_map] at h
      exact h
    have hmap : order.map nameOf = all.insertionSort fun x y => createdAt y ≤ createdAt x := by
      have hrange : (List.range (all.map createdAt).length).map nameOf = all := by
        refine List.ext_getElem (by simp) fun index h h' => ?_
        simp [hnameOf, List.getD, List.getElem?_eq_getElem h']
      rw [horder]
      conv_rhs => rw [← hrange]
      refine List.map_insertionSort _ _ _ _ fun i hi j hj => ?_
      rw [List.mem_range, List.length_map] at hi hj
      rw [htime i hi, htime j hj]
    have hfirsts : ∀ (bucket : Int → Int) (count : Nat),
        (firsts (fun index => bucket ((all.map createdAt).getD index 0)) count order []).map nameOf =
          firsts (fun name => bucket (createdAt name)) count (order.map nameOf) [] := by
      intro bucket count
      refine map_firsts fun index h => ?_
      rw [htime index (hmem index h)]
    have hname : ∀ l : List Nat, (∀ index ∈ l, index ∈ order) →
        l.filterMap (fun index => all[index]?) = l.map nameOf := by
      intro l hl
      rw [← List.filterMap_eq_map]
      refine List.filterMap_congr fun index h => ?_
      simp [hnameOf, List.getD, List.getElem?_eq_getElem (hmem index (hl index h))]
    dsimp only
    rw [← horder, newestOf_eq, newestOf_eq, newestOf_eq, hname]
    · rw [List.map_append, List.map_append, List.map_append, List.map_take, hfirsts, hfirsts,
        hfirsts, hmap]
    · intro index h
      simp only [List.mem_append] at h
      rcases h with ((h | h) | h) | h
      · exact List.mem_of_mem_take h
      · exact firsts_subset h
      · exact firsts_subset h
      · exact firsts_subset h

/-- **What `prune` leaves** is what the rules let stay. -/
theorem mem_pruned : x ∈ pruned createdAt retention snapshots ↔
    x ∈ snapshots ∧ Stays (rules createdAt retention) (newness createdAt) snapshots x := by
  have hmono : ∀ {bucket : Int → Int}, Monotone bucket → ∀ x y,
      newness createdAt x ≤ newness createdAt y → bucket (createdAt x) ≤ bucket (createdAt y) := by
    intro bucket hbucket x y hxy
    refine hbucket ?_
    rcases newness_le.1 hxy with hlt | ⟨heq, -⟩
    · exact hlt.le
    · exact heq.le
  have hpicks : ∀ {bucket : Int → Int} {count : Nat}, Monotone bucket →
      (x ∈ firsts (fun name => bucket (createdAt name)) count (newestFirst createdAt snapshots) [] ↔
        x ∈ snapshots ∧
          (⟨count, fun name => bucket (createdAt name)⟩ : Rule ν Int).Picks
              (newness createdAt) snapshots x) := by
    intro bucket count hbucket
    have h := @mem_firsts _ _ _ _ _ _ ⟨count, fun name => bucket (createdAt name)⟩ _ x _ (hmono hbucket)
      (@newestFirst_pairwise _ _ _ snapshots)
    rwa [mem_newestFirst, newestFirst_toFinset] at h
  have hfirst := mem_take_one (x := x) (@newestFirst_pairwise _ _ createdAt snapshots)
  simp only [mem_newestFirst] at hfirst
  rw [pruned, List.mem_toFinset, keep_names, List.mem_append, List.mem_append, List.mem_append, hfirst,
    hpicks dayOf_mono, hpicks weekOf_mono, hpicks monthOf_mono]
  simp only [Stays, rules, List.mem_cons, List.not_mem_nil, or_false, exists_eq_or_imp, exists_eq_left,
    ← and_or_left, or_assoc]

theorem pruned_eq : pruned createdAt retention snapshots =
    kept (rules createdAt retention) (newness createdAt) snapshots := by
  ext x
  rw [mem_pruned, mem_kept]

end

/-! ## 3. Pruning after every backup -/

/-- The snapshot stands for its bucket: no snapshot of the bucket is newer, and fewer than `count`
later buckets have one. -/
def NewestOfLast {ν : Type} [LinearOrder ν] (createdAt : ν → Int) (bucketOf : Int → Int) (count : Nat)
    (snapshots : Finset ν) (name : ν) : Prop :=
  name ∈ snapshots ∧
    (∀ other ∈ snapshots, bucketOf (createdAt other) = bucketOf (createdAt name) →
      createdAt other < createdAt name ∨ createdAt other = createdAt name ∧ name ≤ other) ∧
    ((snapshots.image fun other => bucketOf (createdAt other)).filter
      (bucketOf (createdAt name) < ·)).card < count

theorem pruned_of_newest {ν : Type} [LinearOrder ν] {createdAt : ν → Int} {retention : Retention}
    {bucketOf : Int → Int} {count : Nat} {snapshots : Finset ν} {name : ν}
    (hrule : ⟨count, fun name => bucketOf (createdAt name)⟩ ∈ rules createdAt retention)
    (h : NewestOfLast createdAt bucketOf count snapshots name) :
    name ∈ pruned createdAt retention snapshots := by
  obtain ⟨hname, hnewest, hlast⟩ := h
  refine mem_pruned.2 ⟨hname, .inr ⟨_, hrule, ?_, hlast⟩⟩
  exact fun other hother hb => newness_le.2 (hnewest other hother hb)

/-- By the numbers of the times in a list, `prune` leaves what `keep` gives. -/
theorem pruned_range (times : List Int) (retention : Retention) :
    pruned (fun index => times.getD index 0) retention (List.range times.length).toFinset =
      (keep times retention).toFinset := by
  have hlisted : listed (List.range times.length).toFinset = List.range times.length :=
    (List.toFinset_sort _ List.nodup_range).2 (List.pairwise_le_range)
  have htimes : (List.range times.length).map (fun index => times.getD index 0) = times := by
    refine List.ext_getElem (by simp) fun index h h' => ?_
    simp [List.getD, List.getElem?_eq_getElem h']
  have hlt : ∀ index ∈ keep times retention, index < times.length := by
    have horder : ∀ index ∈ (List.range times.length).insertionSort
        (fun i j => times.getD j 0 ≤ times.getD i 0), index < times.length := by
      simp
    intro index h
    unfold keep at h
    simp only [newestOf_eq, List.mem_append] at h
    rcases h with ((h | h) | h) | h
    · exact horder index (List.mem_of_mem_take h)
    · exact horder index (firsts_subset h)
    · exact horder index (firsts_subset h)
    · exact horder index (firsts_subset h)
  ext index
  simp only [pruned, hlisted, htimes, List.mem_toFinset, List.mem_filterMap]
  constructor
  · rintro ⟨i, hi, h⟩
    rw [List.getElem?_range (hlt i hi)] at h
    cases h
    exact hi
  · intro h
    exact ⟨index, h, List.getElem?_range (hlt index h)⟩

/-- When a snapshot was made, as its manifest says. -/
def createdIn (files : Files) (name : String) : Int :=
  match manifestOf name (files.lookup (.snapshot name)) with
  | .ok m => m.createdAt
  | .error _ => 0

theorem Loops.names {repo : Repository} {retention : Retention} {manifests : List (String × Manifest)}
    {needed ids : List String} {files files₁ files' : Files}
    (h : Loops repo (keep (manifests.map (·.2.createdAt)) retention) manifests needed files files₁)
    (hthin : Thinned (Unneeded needed ids) files₁ files') :
    (snapshotsIn files').toFinset = pruned (createdIn files) retention (snapshotsIn files).toFinset := by
  have hlisted : listed (snapshotsIn files).toFinset = snapshotsIn files :=
    (List.toFinset_sort _ nodup_snapshotsIn).2 (List.pairwise_insertionSort _ _)
  have htimes : (snapshotsIn files).map (createdIn files) = manifests.map (·.2.createdAt) := by
    rw [← h.read.names, List.map_map]
    refine List.map_congr_left fun e he => ?_
    simp [createdIn, h.read.read e he]
  ext name
  simp only [pruned, hlisted, htimes, List.mem_toFinset, List.mem_filterMap]
  rw [← h.read.names]
  constructor
  · intro hname
    obtain ⟨i, hi⟩ : ∃ i, (manifests.map (·.1))[i]? = some name := by
      rw [h.read.names]
      exact List.mem_iff_getElem?.1
        (mem_snapshotsIn_of_thinned h.thin (mem_snapshotsIn_of_thinned hthin hname))
    obtain ⟨e, he, rfl⟩ := Option.map_eq_some_iff.1 (List.getElem?_map .. ▸ hi)
    refine ⟨i, ?_, hi⟩
    by_contra hkept
    exact h.goes hthin he hkept hname
  · rintro ⟨i, hkept, hi⟩
    obtain ⟨e, he, rfl⟩ := Option.map_eq_some_iff.1 (List.getElem?_map .. ▸ hi)
    exact h.stays hthin he hkept

/-- **`prune` leaves these names**, when it ends well. -/
theorem ends_prune_names {repo : Repository} {retention : Retention} {s : Storage} :
    Tx.Ends (repo.prune retention) s
      (fun _ s' => (snapshotsIn s'.files).toFinset =
        pruned (createdIn s.files) retention (snapshotsIn s.files).toFinset)
      (fun _ => True) := by
  refine ends_prune_loops.mono ?_ fun _ _ => trivial
  rintro - s' ⟨manifests, needed, ids, files₁, hloops, hthin, -⟩
  exact hloops.names hthin

/-- **Retention.**  Whatever order the snapshots were taken in, pruning after each one leaves what
pruning all of them at once does; for a list of times that is what `keep` gives.  Pruning again
changes nothing, and of each of the last days, weeks and months the newest snapshot stays. -/
theorem prunes (retention : Retention) :
    (∀ times : List Int, (List.range times.length).foldl (fun snapshots index =>
        pruned (fun index => times.getD index 0) retention (insert index snapshots)) ∅ =
      (keep times retention).toFinset) ∧
    ∀ {ν : Type} [LinearOrder ν] (createdAt : ν → Int),
      (∀ names : List ν, names.foldl (fun snapshots name =>
          pruned createdAt retention (insert name snapshots)) ∅ = pruned createdAt retention names.toFinset) ∧
      (∀ snapshots, pruned createdAt retention (pruned createdAt retention snapshots) =
        pruned createdAt retention snapshots) ∧
      ∀ snapshots name, NewestOfLast createdAt dayOf retention.daily snapshots name ∨
          NewestOfLast createdAt weekOf retention.weekly snapshots name ∨
          NewestOfLast createdAt monthOf retention.monthly snapshots name →
        name ∈ pruned createdAt retention snapshots := by
  have hrun : ∀ {ν : Type} [LinearOrder ν] (createdAt : ν → Int) (names : List ν),
      names.foldl (fun snapshots name => pruned createdAt retention (insert name snapshots)) ∅ =
        pruned createdAt retention names.toFinset := by
    intro ν _ createdAt names
    simp only [pruned_eq]
    exact foldl_kept names
  refine ⟨fun times => ?_, fun createdAt => ⟨hrun createdAt, fun snapshots => ?_, ?_⟩⟩
  · rw [hrun, pruned_range]
  · simp only [pruned_eq]
    exact kept_kept
  · rintro snapshots name (h | h | h)
    · exact pruned_of_newest (by simp [rules]) h
    · exact pruned_of_newest (by simp [rules]) h
    · exact pruned_of_newest (by simp [rules]) h

/-- Two snapshots of one day and one of the next, with one day to keep: the last one stays. -/
theorem prunes_two_days :
    2 ∈ pruned (fun index : Nat => [5, 9, 90000].getD index 0) ⟨1, 0, 0⟩ {0, 1, 2} :=
  (((prunes ⟨1, 0, 0⟩).2 fun index : Nat => [5, 9, 90000].getD index 0).2.2 {0, 1, 2} 2)
    (.inl (by
      refine ⟨by decide, ?_, by decide⟩
      decide))

end UwuMail.Backup
