/-
# What a calendar client hears

A client that synchronises a collection holds the ETag of every name and the change number of the
collection.  It asks for what changed since, removes the names that were deleted and overwrites
those that changed.  Whatever happened meanwhile, it then holds what the collection holds.

The proof reads the three tables as one FEED for each collection (`Db.Shows`): the cell of a name is
its entry, or its tombstone.  `Db.Wf` says that a name never has both.  One event is at most one
step of every feed, so the rest is `Feed.Later.patch`.
-/
import UwuMail.Dav.Entries
import UwuMail.Lib.Feed
import UwuMail.Lib.Trace

namespace UwuMail.Dav

open Table Store

/-! ## 1. Well-formed tables -/

structure Db.Wf (db : Db) : Prop where
  collections : UniqueKey DavCollection.id db.collections
  ids : UniqueKey DavResource.id db.resources
  names : UniqueKey DavResource.key db.resources
  tombs : UniqueKey DavTombstone.key db.tombstones
  /-- No name is both an entry and a tombstone. -/
  apart : ∀ r ∈ db.resources, ∀ t ∈ db.tombstones, r.key ≠ t.key
  known : ∀ c ∈ db.collections, c.id ≤ db.collectionSeq
  numbered : ∀ r ∈ db.resources, r.id ≤ db.resourceSeq
  /-- The foreign keys, and no number above that of the collection. -/
  live : ∀ r ∈ db.resources, ∃ c ∈ db.collections, c.id = r.collectionId ∧ r.change ≤ c.change
  dead : ∀ t ∈ db.tombstones, ∃ c ∈ db.collections, c.id = t.collectionId ∧ t.change ≤ c.change

theorem wf_empty : ({} : Db).Wf := by
  constructor <;> simp [UniqueKey]

variable {row : DavResource} {f : DavCollection → DavCollection}

namespace Db

/-- What the tables know of a name. -/
def cell (db : Db) (key : Int × String) : Cell String :=
  match db.resource key with
  | some r => .live r.etag r.change
  | none =>
    match db.tombstone key with
    | some t => .dead t.change
    | none => .absent

/-- The collection is there and counts so many changes. -/
def Stands (db : Db) (id : Int) (change : Nat) : Prop :=
  ∃ c ∈ db.collections, c.id = id ∧ c.change = change

/-- A collection, read as a feed of ETags. -/
structure Shows (db : Db) (id : Int) (f : Feed String String) : Prop where
  change : db.Stands id f.change
  cell : ∀ name, db.cell (id, name) = f.cell name

variable {db db' : Db} {key : Int × String} {r : DavResource} {t : DavTombstone} {c : DavCollection}
  {id : Int}

theorem Wf.collection_eq_some (h : db.Wf) : db.collection id = some c ↔ c ∈ db.collections ∧ c.id = id :=
  h.collections.find?_eq_some_iff

theorem Wf.resource_eq_some (h : db.Wf) : db.resource key = some r ↔ r ∈ db.resources ∧ r.key = key :=
  h.names.find?_eq_some_iff

theorem resource_eq_none : db.resource key = none ↔ ∀ r ∈ db.resources, r.key ≠ key :=
  find?_key_eq_none

theorem Wf.cell_live (h : db.Wf) (hr : r ∈ db.resources) : db.cell r.key = .live r.etag r.change := by
  unfold cell
  rw [h.resource_eq_some.2 ⟨hr, rfl⟩]

theorem Wf.cell_dead (h : db.Wf) (ht : t ∈ db.tombstones) : db.cell t.key = .dead t.change := by
  have hnone : db.resource t.key = none := resource_eq_none.2 fun r hr => h.apart r hr t ht
  have hsome : db.tombstone t.key = some t := h.tombs.find?_eq ht
  unfold cell
  rw [hnone, hsome]

theorem cell_absent (hr : ∀ r ∈ db.resources, r.key ≠ key) (ht : ∀ t ∈ db.tombstones, t.key ≠ key) :
    db.cell key = .absent := by
  have hnone : db.tombstone key = none := find?_key_eq_none.2 ht
  unfold cell
  rw [resource_eq_none.2 hr, hnone]

/-- A name that is not written to keeps its cell. -/
theorem Wf.cell_eq (h : db.Wf) (h' : db'.Wf)
    (hlive : ∀ r ∈ db.resources, r.key = key →
      ∃ r' ∈ db'.resources, r'.key = key ∧ r'.etag = r.etag ∧ r'.change = r.change)
    (hback : ∀ r' ∈ db'.resources, r'.key = key → ∃ r ∈ db.resources, r.key = key)
    (hdead : ∀ t, t.key = key → (t ∈ db'.tombstones ↔ t ∈ db.tombstones)) :
    db'.cell key = db.cell key := by
  by_cases hr : ∃ r ∈ db.resources, r.key = key
  · obtain ⟨r, hr, rfl⟩ := hr
    obtain ⟨r', hr', hk, he, hc⟩ := hlive r hr rfl
    rw [h.cell_live hr, ← hk, h'.cell_live hr', he, hc]
  · have hr' : ¬ ∃ r' ∈ db'.resources, r'.key = key := fun ⟨r', hr', hk⟩ => hr (hback r' hr' hk)
    push Not at hr hr'
    by_cases ht : ∃ t ∈ db.tombstones, t.key = key
    · obtain ⟨t, ht, rfl⟩ := ht
      rw [h.cell_dead ht, h'.cell_dead ((hdead t rfl).2 ht)]
    · have ht' : ¬ ∃ t ∈ db'.tombstones, t.key = key :=
        fun ⟨t, ht', hk⟩ => ht ⟨t, (hdead t hk).1 ht', hk⟩
      push Not at ht ht'
      rw [cell_absent hr ht, cell_absent hr' ht']

/-- Every collection of well-formed tables is a feed. -/
theorem Wf.shows (h : db.Wf) (hc : c ∈ db.collections) : ∃ f, db.Shows c.id f ∧ f.change = c.change := by
  have hstamp : ∀ name, (db.cell (c.id, name)).stamp ≤ c.change := by
    intro name
    unfold cell
    cases hr : db.resource (c.id, name) with
    | some r =>
      obtain ⟨hr, hk⟩ := h.resource_eq_some.1 hr
      obtain ⟨c', hc', hid, hle⟩ := h.live r hr
      rw [h.collections.eq hc hc' (by rw [hid]; exact (congrArg Prod.fst hk).symm)]
      exact hle
    | none =>
      cases ht : db.tombstone (c.id, name) with
      | some t =>
        obtain ⟨ht, hk⟩ := h.tombs.find?_eq_some_iff.1 ht
        obtain ⟨c', hc', hid, hle⟩ := h.dead t ht
        rw [h.collections.eq hc hc' (by rw [hid]; exact (congrArg Prod.fst hk).symm)]
        exact hle
      | none => exact Nat.zero_le _
  exact ⟨⟨c.change, fun name => db.cell (c.id, name), hstamp⟩, ⟨⟨c, hc, rfl, rfl⟩, fun _ => rfl⟩, rfl⟩

/-! ## 2. How cells change -/

@[simp] theorem bump_resources : (db.bump id).resources = db.resources := rfl
@[simp] theorem bump_tombstones : (db.bump id).tombstones = db.tombstones := rfl
@[simp] theorem bump_collectionSeq : (db.bump id).collectionSeq = db.collectionSeq := rfl
@[simp] theorem bump_cell : (db.bump id).cell key = db.cell key := rfl

theorem mem_updateCollection :
    c ∈ (db.updateCollection id f).collections ↔
      ∃ c₀ ∈ db.collections, (if c₀.id == id then f c₀ else c₀) = c := mem_updateWhere

/-- Properties of collections may change, and their numbers may grow. -/
theorem Wf.mapCollections (h : db.Wf)
    (hid : ∀ c, (f c).id = c.id) (hchange : ∀ c, c.change ≤ (f c).change) :
    ({ db with collections := db.collections.map f } : Db).Wf := by
  have hup : ∀ {i n}, (∃ c ∈ db.collections, c.id = i ∧ n ≤ c.change) →
      ∃ c ∈ db.collections.map f, c.id = i ∧ n ≤ c.change := by
    rintro i n ⟨c, hc, rfl, hle⟩
    exact ⟨f c, List.mem_map_of_mem hc, hid c, hle.trans (hchange c)⟩
  exact {
    collections := h.collections.map hid
    ids := h.ids
    names := h.names
    tombs := h.tombs
    apart := h.apart
    known := by
      intro c' hc'
      obtain ⟨c, hc, rfl⟩ := List.mem_map.1 hc'
      rw [hid]
      exact h.known c hc
    numbered := h.numbered
    live := fun r hr => hup (h.live r hr)
    dead := fun t ht => hup (h.dead t ht) }

theorem Wf.updateCollection (h : db.Wf)
    (hid : ∀ c, (f c).id = c.id) (hchange : ∀ c, c.change ≤ (f c).change) :
    (db.updateCollection id f).Wf := by
  refine h.mapCollections (f := fun c => if c.id == id then f c else c) ?_ ?_
  · intro c
    split
    · exact hid c
    · rfl
  · intro c
    split
    · exact hchange c
    · exact le_rfl

theorem Wf.bump (h : db.Wf) (id : Int) : (db.bump id).Wf :=
  h.updateCollection (fun _ => rfl) fun _ => Nat.le_succ _

/-- What `upsert` leaves behind: one row under the key of the new one, and the others. -/
structure Upserted (db : Db) (row : DavResource) (db' : Db) : Prop where
  new : ∃ id draft, ∀ r, r ∈ db'.resources ↔
    r = { row with id, draft } ∨ r ∈ db.resources ∧ r.key ≠ row.key
  ids : UniqueKey DavResource.id db'.resources
  names : UniqueKey DavResource.key db'.resources
  numbered : ∀ r ∈ db'.resources, r.id ≤ db'.resourceSeq
  collections : db'.collections = db.collections
  tombstones : db'.tombstones = db.tombstones
  collectionSeq : db'.collectionSeq = db.collectionSeq

theorem Wf.upserted (h : db.Wf) (row : DavResource) : Upserted db row (db.upsert row).2 := by
  unfold Db.upsert
  cases hold : db.resource row.key with
  | some old =>
    obtain ⟨hmem, hkey⟩ := h.resource_eq_some.1 hold
    -- the update keeps the key: it runs on the rows that have it
    have hput : ∀ r : DavResource, r.key = row.key →
        ({ row with id := r.id, draft := r.draft } : DavResource).key = r.key := fun r hr => hr.symm
    refine ⟨⟨old.id, old.draft, ?_⟩, ?_, ?_, ?_, rfl, rfl, rfl⟩
    · intro r
      rw [mem_updateWhere]
      constructor
      · rintro ⟨r₀, hr₀, rfl⟩
        split
        · rename_i hk
          rw [h.names.eq hr₀ hmem (by rw [hkey]; exact beq_iff_eq.1 hk)]
          exact .inl rfl
        · rename_i hk
          exact .inr ⟨hr₀, fun heq => hk (beq_iff_eq.2 heq)⟩
      · rintro (rfl | ⟨hr, hk⟩)
        · exact ⟨old, hmem, by simp [hkey]⟩
        · exact ⟨r, hr, by simp [hk]⟩
    · have hkept : ∀ r : DavResource, ({ row with id := r.id, draft := r.draft } : DavResource).id = r.id :=
        fun _ => rfl
      exact h.ids.updateWhere hkept _
    · refine h.names.map fun r => ?_
      split
      · rename_i hk
        exact hput r (beq_iff_eq.1 hk)
      · rfl
    · intro r hr
      obtain ⟨r₀, hr₀, rfl⟩ := mem_updateWhere.1 hr
      have := h.numbered r₀ hr₀
      split <;> exact this
  | none =>
    have hfree := resource_eq_none.1 hold
    have hid : ∀ r ∈ db.resources, r.id ≠ db.resourceSeq + 1 := by
      intro r hr heq
      have := h.numbered r hr
      omega
    refine ⟨⟨db.resourceSeq + 1, row.draft, ?_⟩, ?_, ?_, ?_, rfl, rfl, rfl⟩
    · intro r
      simp only [List.mem_append, List.mem_singleton]
      constructor
      · rintro (hr | rfl)
        · exact .inr ⟨hr, hfree r hr⟩
        · exact .inl rfl
      · rintro (rfl | ⟨hr, -⟩)
        · exact .inr rfl
        · exact .inl hr
    · exact h.ids.append hid
    · exact h.names.append hfree
    · intro r hr
      rcases List.mem_append.1 hr with hr | hr
      · exact (h.numbered r hr).trans (by simp)
      · rw [List.mem_singleton.1 hr]

/-- Writing an entry: the row, and no tombstone of its name. -/
def place (row : DavResource) (db : Db) : Db := (db.upsert row).2.deleteTombstone row.key

theorem mem_deleteTombstone : t ∈ (db.deleteTombstone key).tombstones ↔ t ∈ db.tombstones ∧ t.key ≠ key := by
  simp [deleteTombstone]

theorem Wf.place (h : db.Wf)
    (hc : ∃ c ∈ db.collections, c.id = row.collectionId ∧ row.change ≤ c.change) :
    (db.place row).Wf := by
  obtain ⟨⟨id, draft, hmem⟩, hids, hnames, hnum, hcoll, htomb, hseq⟩ := h.upserted row
  have htombs : ∀ {t}, t ∈ (db.place row).tombstones ↔ t ∈ db.tombstones ∧ t.key ≠ row.key := by
    intro t
    rw [← htomb]
    exact mem_deleteTombstone
  have hcollections : (db.place row).collections = db.collections := hcoll
  exact {
    collections := by
      rw [hcollections]
      exact h.collections
    ids := hids
    names := hnames
    tombs := by
      have : UniqueKey DavTombstone.key (db.upsert row).2.tombstones := by
        rw [htomb]
        exact h.tombs
      exact this.deleteWhere _
    apart := by
      intro r hr t ht
      obtain ⟨ht, hne⟩ := htombs.1 ht
      rcases (hmem r).1 hr with rfl | ⟨hr, -⟩
      · exact hne.symm
      · exact h.apart r hr t ht
    known := by
      intro c hc
      rw [hcollections] at hc
      have hle := h.known c hc
      rwa [← hseq] at hle
    numbered := hnum
    live := by
      intro r hr
      rw [hcollections]
      rcases (hmem r).1 hr with rfl | ⟨hr, -⟩
      · exact hc
      · exact h.live r hr
    dead := by
      intro t ht
      rw [hcollections]
      exact h.dead t (htombs.1 ht).1 }

theorem Wf.cell_place (h : db.Wf)
    (hc : ∃ c ∈ db.collections, c.id = row.collectionId ∧ row.change ≤ c.change) (key : Int × String) :
    (db.place row).cell key = if key = row.key then .live row.etag row.change else db.cell key := by
  have h' := h.place hc
  obtain ⟨⟨id, draft, hmem⟩, -, -, -, -, htomb, -⟩ := h.upserted row
  split
  · rename_i heq
    rw [heq]
    exact h'.cell_live (r := { row with id, draft }) ((hmem _).2 (.inl rfl))
  · rename_i hne
    refine h.cell_eq h' ?_ ?_ ?_
    · rintro r hr rfl
      exact ⟨r, (hmem r).2 (.inr ⟨hr, hne⟩), rfl, rfl, rfl⟩
    · rintro r hr rfl
      rcases (hmem r).1 hr with rfl | ⟨hr, -⟩
      · exact absurd rfl hne
      · exact ⟨r, hr, rfl⟩
    · rintro t rfl
      have : t ∈ (db.place row).tombstones ↔ t ∈ db.tombstones ∧ t.key ≠ row.key := by
        rw [← htomb]
        exact mem_deleteTombstone
      rw [this]
      exact and_iff_left hne

/-- An entry goes, and a tombstone stays under its name. -/
def bury (r : DavResource) (change : Nat) (db : Db) : Db :=
  (db.deleteResource r.id).putTombstone ⟨r.collectionId, r.name, change⟩

theorem Wf.mem_bury (h : db.Wf) (hr : r ∈ db.resources) {change : Nat} {r' : DavResource} :
    r' ∈ (db.bury r change).resources ↔ r' ∈ db.resources ∧ r'.key ≠ r.key := by
  have : r' ∈ (db.bury r change).resources ↔ r' ∈ db.resources ∧ r'.id ≠ r.id := by
    simp [bury, deleteResource, putTombstone]
  rw [this]
  refine and_congr_right fun hr' => not_congr ⟨fun hid => ?_, fun hk => ?_⟩
  · rw [h.ids.eq hr' hr hid]
  · rw [h.names.eq hr' hr hk]

theorem mem_bury_tombstones {change : Nat} : t ∈ (db.bury r change).tombstones ↔
    t ∈ db.tombstones ∧ t.key ≠ r.key ∨ t = ⟨r.collectionId, r.name, change⟩ := mem_insertOrReplace

theorem Wf.bury (h : db.Wf) (hr : r ∈ db.resources) {change : Nat}
    (hc : ∃ c ∈ db.collections, c.id = r.collectionId ∧ change ≤ c.change) : (db.bury r change).Wf where
  collections := h.collections
  ids := h.ids.deleteWhere _
  names := h.names.deleteWhere _
  tombs := h.tombs.insertOrReplace _
  apart := by
    intro r' hr' t ht
    obtain ⟨hr', hne⟩ := (h.mem_bury hr).1 hr'
    rcases mem_bury_tombstones.1 ht with ⟨ht, -⟩ | rfl
    · exact h.apart r' hr' t ht
    · exact hne
  known := h.known
  numbered := fun r' hr' => h.numbered r' ((h.mem_bury hr).1 hr').1
  live := fun r' hr' => h.live r' ((h.mem_bury hr).1 hr').1
  dead := by
    intro t ht
    rcases mem_bury_tombstones.1 ht with ⟨ht, -⟩ | rfl
    · exact h.dead t ht
    · exact hc

theorem Wf.cell_bury (h : db.Wf) (hr : r ∈ db.resources) {change : Nat}
    (hc : ∃ c ∈ db.collections, c.id = r.collectionId ∧ change ≤ c.change) (key : Int × String) :
    (db.bury r change).cell key = if key = r.key then .dead change else db.cell key := by
  have h' := h.bury hr hc
  split
  · rename_i heq
    subst heq
    exact h'.cell_dead (mem_bury_tombstones.2 (.inr rfl))
  · rename_i hne
    refine h.cell_eq h' ?_ ?_ ?_
    · rintro r' hr' rfl
      exact ⟨r', (h.mem_bury hr).2 ⟨hr', hne⟩, rfl, rfl, rfl⟩
    · rintro r' hr' rfl
      exact ⟨r', ((h.mem_bury hr).1 hr').1, rfl⟩
    · rintro t rfl
      rw [mem_bury_tombstones]
      constructor
      · rintro (⟨ht, -⟩ | rfl)
        · exact ht
        · exact absurd rfl hne
      · exact fun ht => .inl ⟨ht, hne⟩

/-- An entry goes to another place: the tombstone it leaves, the row under its new name, and no
tombstone of that name. -/
def relocate (r : DavResource) (change : Nat) (f : DavResource → DavResource) (db : Db) : Db :=
  ((db.putTombstone ⟨r.collectionId, r.name, change⟩).updateResource r.id f).deleteTombstone (f r).key

section Relocate

variable {change : Nat} {f : DavResource → DavResource}

theorem Wf.mem_relocate (h : db.Wf) (hr : r ∈ db.resources) {r' : DavResource} :
    r' ∈ (db.relocate r change f).resources ↔ r' = f r ∨ r' ∈ db.resources ∧ r'.key ≠ r.key := by
  have : r' ∈ (db.relocate r change f).resources ↔
      ∃ r₀ ∈ db.resources, (if r₀.id == r.id then f r₀ else r₀) = r' := mem_updateWhere
  rw [this]
  constructor
  · rintro ⟨r₀, hr₀, rfl⟩
    by_cases hid : r₀.id = r.id
    · rw [h.ids.eq hr₀ hr hid]
      simp
    · rw [if_neg (by simpa using hid)]
      exact .inr ⟨hr₀, fun hk => hid (by rw [h.names.eq hr₀ hr hk])⟩
  · rintro (rfl | ⟨hr', hk⟩)
    · exact ⟨r, hr, by simp⟩
    · refine ⟨r', hr', if_neg ?_⟩
      simpa using fun hid : r'.id = r.id => hk (by rw [h.ids.eq hr' hr hid])

theorem mem_relocate_tombstones : t ∈ (db.relocate r change f).tombstones ↔
    (t ∈ db.tombstones ∧ t.key ≠ r.key ∨ t = ⟨r.collectionId, r.name, change⟩) ∧ t.key ≠ (f r).key :=
  mem_deleteTombstone.trans (and_congr_left fun _ => mem_insertOrReplace)

variable (h : db.Wf) (hr : r ∈ db.resources) (hid : ∀ r, (f r).id = r.id)
  (hfree : ∀ r' ∈ db.resources, r'.key ≠ (f r).key)
  (hc : ∃ c ∈ db.collections, c.id = r.collectionId ∧ change ≤ c.change)
  (hc' : ∃ c ∈ db.collections, c.id = (f r).collectionId ∧ (f r).change ≤ c.change)

include h hr hid hfree hc hc'

theorem Wf.relocate : (db.relocate r change f).Wf where
  collections := h.collections
  ids := h.ids.updateWhere hid _
  names := by
    -- without the row that moves, the keys are those of before; the new key was free
    have hperm := h.ids.perm_cons_deleteWhere hr
    have hrest : updateWhere (fun r' => r'.id == r.id) f (deleteWhere (fun r' => r'.id == r.id) db.resources) =
        deleteWhere (fun r' => r'.id == r.id) db.resources := by
      refine (List.map_congr_left fun r' hr' => ?_).trans (List.map_id _)
      rw [if_neg (by simpa using (mem_deleteWhere.1 hr').2)]
      rfl
    have hmap : (updateWhere (fun r' => r'.id == r.id) f db.resources).Perm
        (f r :: deleteWhere (fun r' => r'.id == r.id) db.resources) := by
      refine (hperm.map _).trans ?_
      rw [List.map_cons, if_pos (by simp)]
      exact (List.Perm.of_eq hrest).cons _
    refine (hmap.map DavResource.key).nodup_iff.2 ?_
    rw [List.map_cons, List.nodup_cons]
    refine ⟨?_, h.names.deleteWhere _⟩
    rintro hmem
    obtain ⟨r', hr', hk⟩ := List.mem_map.1 hmem
    exact hfree r' (mem_deleteWhere.1 hr').1 hk
  tombs := (h.tombs.insertOrReplace _).deleteWhere _
  apart := by
    intro r' hr' t ht
    obtain ⟨ht, hnew⟩ := mem_relocate_tombstones.1 ht
    rcases (h.mem_relocate hr).1 hr' with rfl | ⟨hr', hne⟩
    · exact hnew.symm
    · rcases ht with ⟨ht, -⟩ | rfl
      · exact h.apart r' hr' t ht
      · exact hne
  known := h.known
  numbered := by
    intro r' hr'
    rcases (h.mem_relocate hr).1 hr' with rfl | ⟨hr', -⟩
    · rw [hid]
      exact h.numbered r hr
    · exact h.numbered r' hr'
  live := by
    intro r' hr'
    rcases (h.mem_relocate hr).1 hr' with rfl | ⟨hr', -⟩
    · exact hc'
    · exact h.live r' hr'
  dead := by
    intro t ht
    rcases (mem_relocate_tombstones.1 ht).1 with ⟨ht, -⟩ | rfl
    · exact h.dead t ht
    · exact hc

theorem Wf.cell_relocate (key : Int × String) : (db.relocate r change f).cell key =
    if key = (f r).key then .live (f r).etag (f r).change
    else if key = r.key then .dead change else db.cell key := by
  have h' := h.relocate hr hid hfree hc hc'
  split
  · rename_i heq
    subst heq
    exact h'.cell_live ((h.mem_relocate hr).2 (.inl rfl))
  rename_i hnew
  split
  · rename_i heq
    subst heq
    exact h'.cell_dead (mem_relocate_tombstones.2 ⟨.inr rfl, hnew⟩)
  · rename_i hne
    refine h.cell_eq h' ?_ ?_ ?_
    · rintro r' hr' rfl
      exact ⟨r', (h.mem_relocate hr).2 (.inr ⟨hr', hne⟩), rfl, rfl, rfl⟩
    · rintro r' hr' rfl
      rcases (h.mem_relocate hr).1 hr' with rfl | ⟨hr', -⟩
      · exact absurd rfl hnew
      · exact ⟨r', hr', rfl⟩
    · rintro t rfl
      rw [mem_relocate_tombstones]
      constructor
      · rintro ⟨⟨ht, -⟩ | rfl, -⟩
        · exact ht
        · exact absurd rfl hne
      · exact fun ht => ⟨.inl ⟨ht, hne⟩, hnew⟩

end Relocate

/-! ## 3. What the functions write -/

theorem Wf.stands_eq (h : db.Wf) {n m : Nat} (hn : db.Stands id n) (hm : db.Stands id m) : n = m := by
  obtain ⟨c, hc, hid, rfl⟩ := hn
  obtain ⟨c', hc', hid', rfl⟩ := hm
  rw [h.collections.eq hc hc' (hid.trans hid'.symm)]

theorem Stands.bump {n : Nat} (h : db.Stands id n) : (db.bump id).Stands id (n + 1) := by
  obtain ⟨c, hc, rfl, rfl⟩ := h
  exact ⟨_, mem_updateCollection.2 ⟨c, hc, rfl⟩, by simp⟩

theorem Stands.bump_ne {n : Nat} {id' : Int} (h : db.Stands id n) (hne : id ≠ id') :
    (db.bump id').Stands id n := by
  obtain ⟨c, hc, rfl, rfl⟩ := h
  exact ⟨c, mem_updateCollection.2 ⟨c, hc, if_neg (by simpa using hne)⟩, rfl, rfl⟩

theorem Stands.le {n : Nat} (h : db.Stands id n) : ∃ c ∈ db.collections, c.id = id ∧ n ≤ c.change := by
  obtain ⟨c, hc, hid, rfl⟩ := h
  exact ⟨c, hc, hid, le_rfl⟩

@[simp] theorem place_collections : (db.place row).collections = db.collections := by
  unfold place upsert
  split <;> rfl

@[simp] theorem place_collectionSeq :
    (db.place row).collectionSeq = db.collectionSeq := by
  unfold place upsert
  split <;> rfl

end Db

/-- What one event does to the tables. -/
inductive Did (db : Db) : Db → Prop
  | same : Did db db
  | write {row : DavResource} {n : Nat} (hn : db.Stands row.collectionId n) (hrow : row.change = n + 1) :
    Did db ((db.bump row.collectionId).place row)
  | bury {r : DavResource} {n : Nat} (hr : r ∈ db.resources) (hn : db.Stands r.collectionId n) :
    Did db ((db.bump r.collectionId).bury r (n + 1))
  | move {r : DavResource} {f : DavResource → DavResource} {n m : Nat} (hr : r ∈ db.resources)
    (hne : (f r).collectionId ≠ r.collectionId) (hn : db.Stands r.collectionId n)
    (hm : db.Stands (f r).collectionId m) (hrow : (f r).change = m + 1) (hid : ∀ r, (f r).id = r.id)
    (hfree : ∀ r' ∈ db.resources, r'.key ≠ (f r).key) :
    Did db (((db.bump r.collectionId).bump (f r).collectionId).relocate r (n + 1) f)
  /-- Properties of a collection change. -/
  | adjust (id : Int) {f : DavCollection → DavCollection} (hid : ∀ c, (f c).id = c.id)
    (hchange : ∀ c, (f c).change = c.change) : Did db (db.updateCollection id f)
  | update (id : Int) {f : DavCollection → DavCollection} (hid : ∀ c, (f c).id = c.id)
    (hchange : ∀ c, (f c).change = c.change) : Did db ((db.updateCollection id f).bump id)
  /-- Columns of an entry that no client hears of change. -/
  | mark (id : Int) {f : DavResource → DavResource} (hid : ∀ r, (f r).id = r.id)
    (hkey : ∀ r, (f r).key = r.key) (hetag : ∀ r, (f r).etag = r.etag)
    (hchange : ∀ r, (f r).change = r.change) : Did db (db.updateResource id f)
  | create {c : DavCollection} (hid : c.id = db.collectionSeq + 1) :
    Did db { db with collections := db.collections ++ [c], collectionSeq := c.id }
  | drop (p : DavCollection → Bool) : Did db (db.deleteCollections p)

section Writes

variable {digest : String → String} {db db' : Db} {collection target : DavCollection}
  {write : DavWrite} {condition : DavPrecondition} {now : Int} {α : Type}

theorem nextChange_ok {id : Int} {n : Nat} (h : nextChange id db = .ok (n, db')) :
    ∃ m, db.Stands id m ∧ n = m + 1 ∧ db' = db.bump id := by
  unfold nextChange at h
  cases hc : db.collection id with
  | none =>
    rw [hc] at h
    cases h
  | some c =>
    rw [hc] at h
    cases h
    refine ⟨c.change, ⟨c, List.mem_of_find?_eq_some hc, ?_, rfl⟩, rfl, rfl⟩
    simpa using List.find?_some hc

theorem did_putEntryUnchecked {a : DavWriteOutcome × Option Int}
    (h : putEntryUnchecked digest collection write condition now db = .ok (a, db')) : Did db db' := by
  unfold putEntryUnchecked at h
  simp only at h
  split at h
  · cases h
    exact .same
  split at h
  · cases h
    exact .same
  split at h
  · cases h
  · obtain ⟨⟨n, db₁⟩, hnext, h⟩ := Tx.except_bind_ok h
    obtain ⟨m, hm, rfl, rfl⟩ := nextChange_ok hnext
    cases h
    exact @Did.write _ (entryRow digest collection.id write (withoutControls write.content) now (m + 1)) _
      hm rfl

theorem did_putEntry {a : DavWriteOutcome × Option Int}
    (h : putEntry digest collection write condition now db = .ok (a, db')) : Did db db' := by
  obtain ⟨-, -, h⟩ := Tx.except_bind_ok h
  exact did_putEntryUnchecked h

theorem did_deleteEntryUnchecked (hwf : db.Wf) {name : String} {ifMatch : Option String} {a : Bool}
    (h : deleteEntryUnchecked collection name ifMatch db = .ok (a, db')) : Did db db' := by
  unfold deleteEntryUnchecked at h
  split at h
  · cases h
    exact .same
  rename_i r hr
  split at h
  · cases h
    exact .same
  obtain ⟨hmem, hkey⟩ := hwf.resource_eq_some.1 hr
  obtain ⟨hid, rfl⟩ := Prod.ext_iff.1 hkey
  obtain ⟨⟨n, db₁⟩, hnext, h⟩ := Tx.except_bind_ok h
  obtain ⟨m, hm, rfl, rfl⟩ := nextChange_ok hnext
  cases h
  have hid : collection.id = r.collectionId := hid.symm
  rw [hid] at hm ⊢
  exact .bury hmem hm

theorem did_deleteEntry (hwf : db.Wf) {name : String} {ifMatch : Option String} {a : Bool}
    (h : deleteEntry collection name ifMatch db = .ok (a, db')) : Did db db' := by
  obtain ⟨-, -, h⟩ := Tx.except_bind_ok h
  exact did_deleteEntryUnchecked hwf h

/-- A new name is not the name of an entry of the collection. -/
theorem newEntryName_free {id : Int} {uid extension name : String} {draws : List String}
    (h : newEntryName id uid extension draws db = some name) : db.resource (id, name) = none := by
  have hfree : taken db (id, name) = false := by
    unfold newEntryName at h
    simp only at h
    split at h
    · rename_i hok
      cases h
      simpa using (Bool.and_eq_true_iff.1 hok).2
    · simpa using List.find?_some h
  unfold taken at hfree
  simpa using (Bool.or_eq_false_iff.1 hfree).1

theorem moveEntry_ok {id sourceId : Int} {extension : String} {draws : List String} {a : String}
    (h : moveEntry digest id sourceId target write extension draws now db = some (.ok (a, db'))) :
    ∃ newName, db.resource (target.id, newName) = none ∧
      moveWrites digest id sourceId target write newName now db = .ok (a, db') := by
  unfold moveEntry at h
  split at h
  · cases h
  rename_i free hchecks
  simp only [Option.map_eq_some_iff] at h
  obtain ⟨newName, hname, h⟩ := h
  refine ⟨newName, ?_, h⟩
  split at hname
  · rename_i hfree
    cases hname
    -- the last of the checks looked the name up in the target
    obtain ⟨_, _, hlast⟩ := Tx.except_bind_ok hchecks
    obtain ⟨_, _, hlast⟩ := Tx.except_bind_ok hlast
    obtain ⟨_, _, hlast⟩ := Tx.except_bind_ok hlast
    split at hlast
    · cases hlast
    · cases hlast
      simpa using hfree
  · exact newEntryName_free hname

theorem did_moveWrites {r : DavResource} {newName : String} {a : String}
    (hr : r ∈ db.resources) (hname : write.name = r.name) (hne : target.id ≠ r.collectionId)
    (hfree : db.resource (target.id, newName) = none)
    (h : moveWrites digest r.id r.collectionId target write newName now db = .ok (a, db')) :
    Did db db' := by
  unfold moveWrites at h
  simp only at h
  split at h
  · cases h
  obtain ⟨⟨n, db₁⟩, hnext, h⟩ := Tx.except_bind_ok h
  obtain ⟨m, hm, rfl, rfl⟩ := nextChange_ok hnext
  obtain ⟨⟨n', db₂⟩, hnext', h⟩ := Tx.except_bind_ok h
  obtain ⟨m', hm', rfl, rfl⟩ := nextChange_ok hnext'
  cases h
  rw [hname]
  -- the first bump is of the other collection
  have hm'' : db.Stands target.id m' := by
    obtain ⟨c, hc, hid, rfl⟩ := hm'
    obtain ⟨c₀, hc₀, hif⟩ := Db.mem_updateCollection.1 hc
    split at hif
    · rename_i hsame
      subst hif
      exact absurd (hid.symm.trans (beq_iff_eq.1 hsame)) hne
    · subst hif
      exact ⟨c₀, hc₀, hid, rfl⟩
  exact Did.move (f := fun r => { r with
      collectionId := target.id, name := newName, uid := write.uid
      etag := davEtag digest (withoutControls write.content), content := withoutControls write.content
      startsAt := write.startsAt, endsAt := write.endsAt
      size := (withoutControls write.content).utf8ByteSize, modifiedAt := now, change := m' + 1
      scheduleTag := some (davEtag digest (withoutControls write.content)) })
    hr hne hm hm'' rfl (fun _ => rfl) (Db.resource_eq_none.1 hfree)

theorem did_storeEntry (hwf : db.Wf) {id targetId : Int} {extension : String} {draws : List String}
    {a : String}
    (h : storeEntry digest id targetId write extension draws now db = some (.ok (a, db'))) :
    Did db db' := by
  unfold storeEntry at h
  split at h
  · rename_i target r htarget hfound
    obtain ⟨hr, rfl⟩ := hwf.ids.find?_eq_some_iff.1 hfound
    simp only at h
    split at h
    · split at h
      · rename_i hput
        cases h
        exact did_putEntry hput
      · cases h
      · cases h
    · rename_i hne
      obtain ⟨newName, hfree, h⟩ := moveEntry_ok h
      exact did_moveWrites hr rfl (fun heq => hne (by simp [heq])) hfree h
  · cases h

theorem did_commit {x : Except StoreError (α × Db)} (h : ∀ a db', x = .ok (a, db') → Did db db') :
    Did db (commit db x) := by
  cases x with
  | error e => exact .same
  | ok v => exact h v.1 v.2 rfl

theorem did_within {id : Int} {f : DavCollection → Except StoreError (α × Db)}
    (h : ∀ c a db', f c = .ok (a, db') → Did db db') : Did db (within id db f) := by
  refine did_commit fun a db' hok => ?_
  obtain ⟨c, -, hok⟩ := Tx.except_bind_ok hok
  exact h c a db' hok

/-- **The tables after one event.** -/
theorem step_did (hwf : db.Wf) {e : Event} (h : step digest db e = some db') : Did db db' := by
  cases e with
  | create account kind new now =>
    cases h
    refine did_commit fun a db' hok => ?_
    unfold insertCollection at hok
    split at hok
    · cases hok
    split at hok
    · cases hok
    split at hok
    · cases hok
    · cases hok
      exact .create rfl
  | drop p =>
    cases h
    exact .drop p
  | update id update =>
    cases h
    refine did_within fun c a db' hok => ?_
    obtain ⟨db₁, hok₁, hok⟩ := Tx.except_bind_ok hok
    cases hok
    obtain ⟨⟨n, db₂⟩, hnext, hok₁⟩ := Tx.except_bind_ok hok₁
    obtain ⟨m, -, -, rfl⟩ := nextChange_ok hnext
    cases hok₁
    exact .update c.id (fun _ => rfl) fun _ => rfl
  | fill id subscribed birthdays =>
    cases h
    exact .adjust id (fun _ => rfl) fun _ => rfl
  | put id write condition now =>
    cases h
    exact did_within fun _ _ _ hok => did_putEntry hok
  | putUnchecked id write condition now =>
    cases h
    exact did_within fun _ _ _ hok => did_putEntryUnchecked hok
  | delete id name ifMatch =>
    cases h
    exact did_within fun _ _ _ hok => did_deleteEntry hwf hok
  | deleteUnchecked id name ifMatch =>
    cases h
    exact did_within fun _ _ _ hok => did_deleteEntryUnchecked hwf hok
  | store id targetId write extension draws now =>
    obtain ⟨x, hx, rfl⟩ := Option.map_eq_some_iff.1 h
    exact did_commit fun a db' hok => did_storeEntry hwf (hx.trans (congrArg some hok))
  | mark id scheduleTag draft =>
    cases h
    exact .mark id (fun _ => rfl) (fun _ => rfl) (fun _ => rfl) fun _ => rfl

end Writes

/-! ## 4. One event -/

section Follows

variable {db db' : Db}

/-- The tables after an event, as every client sees them: a collection that is still there was there
before, and its feed took at most one step. -/
structure Follows (db db' : Db) : Prop where
  wf : db'.Wf
  seq : db.collectionSeq ≤ db'.collectionSeq
  old : ∀ c' ∈ db'.collections, c'.id ≤ db.collectionSeq → ∃ c ∈ db.collections, c.id = c'.id
  step : ∀ c' ∈ db'.collections, ∀ f, db.Shows c'.id f → ∃ f', Feed.Step f f' ∧ db'.Shows c'.id f'

theorem old_of_ids (h : ∀ c' ∈ db'.collections, ∃ c ∈ db.collections, c.id = c'.id) :
    ∀ c' ∈ db'.collections, c'.id ≤ db.collectionSeq → ∃ c ∈ db.collections, c.id = c'.id :=
  fun c' hc' _ => h c' hc'

theorem exists_id_of_update {id : Int} (hid : ∀ c, (f c).id = c.id) :
    ∀ c' ∈ (db.updateCollection id f).collections, ∃ c ∈ db.collections, c.id = c'.id := by
  intro c' hc'
  obtain ⟨c, hc, rfl⟩ := Db.mem_updateCollection.1 hc'
  refine ⟨c, hc, ?_⟩
  split
  · exact (hid c).symm
  · rfl

theorem exists_id_of_bump {id : Int} :
    ∀ c' ∈ (db.bump id).collections, ∃ c ∈ db.collections, c.id = c'.id :=
  exists_id_of_update fun _ => rfl

/-- Properties change: the number and the cells are those of before. -/
theorem Db.Shows.adjust {id i : Int} {g : Feed String String}
    (h : db.Shows i g) (hid : ∀ c, (f c).id = c.id) (hchange : ∀ c, (f c).change = c.change) :
    (db.updateCollection id f).Shows i g := by
  obtain ⟨c, hc, hi, hn⟩ := h.change
  refine ⟨⟨_, Db.mem_updateCollection.2 ⟨c, hc, rfl⟩, ?_, ?_⟩, h.cell⟩
  · split
    · exact (hid c).trans hi
    · exact hi
  · split
    · exact (hchange c).trans hn
    · exact hn

/-- The number of a collection moves, and the cell of one name with it. -/
theorem Db.Shows.put {i : Int} {g : Feed String String} {name v : String}
    (hstands : db'.Stands i (g.change + 1))
    (hcell : ∀ n, db'.cell (i, n) = if n = name then .live v (g.change + 1) else g.cell n) :
    db'.Shows i (g.put name v) where
  change := hstands
  cell n := by simp [hcell, Feed.put, Feed.set, Function.update_apply]

theorem Db.Shows.remove {i : Int} {g : Feed String String} {name : String}
    (hstands : db'.Stands i (g.change + 1))
    (hcell : ∀ n, db'.cell (i, n) = if n = name then .dead (g.change + 1) else g.cell n) :
    db'.Shows i (g.remove name) where
  change := hstands
  cell n := by simp [hcell, Feed.remove, Feed.set, Function.update_apply]

theorem follows_write (h : db.Wf) {n : Nat} (hn : db.Stands row.collectionId n)
    (hrow : row.change = n + 1) : Follows db ((db.bump row.collectionId).place row) := by
  have hc : ∃ c ∈ (db.bump row.collectionId).collections,
      c.id = row.collectionId ∧ row.change ≤ c.change := by
    rw [hrow]
    exact hn.bump.le
  have hcell := (h.bump row.collectionId).cell_place hc
  refine ⟨(h.bump _).place hc, by simp, ?_, ?_⟩
  · refine old_of_ids ?_
    rw [Db.place_collections]
    exact exists_id_of_bump
  · intro c' hc' f hf
    generalize c'.id = i at hf
    by_cases hi : i = row.collectionId
    · subst hi
      have hnf := h.stands_eq hn hf.change
      subst hnf
      refine ⟨f.put row.name row.etag, .put f _ _, .put ?_ fun name => ?_⟩
      · unfold Db.Stands
        rw [Db.place_collections]
        exact hf.change.bump
      · rw [hcell, hrow, Db.bump_cell, hf.cell]
        simp [DavResource.key]
    · refine ⟨f, .same f, ?_, fun name => ?_⟩
      · unfold Db.Stands
        rw [Db.place_collections]
        exact hf.change.bump_ne hi
      · rw [hcell, Db.bump_cell, hf.cell, if_neg (by simp [DavResource.key, hi])]

theorem follows_bury (h : db.Wf) {r : DavResource} {n : Nat} (hr : r ∈ db.resources)
    (hn : db.Stands r.collectionId n) : Follows db ((db.bump r.collectionId).bury r (n + 1)) := by
  have hcell := (h.bump r.collectionId).cell_bury hr hn.bump.le
  refine ⟨(h.bump _).bury hr hn.bump.le, le_rfl, old_of_ids exists_id_of_bump, ?_⟩
  intro c' hc' f hf
  generalize c'.id = i at hf
  by_cases hi : i = r.collectionId
  · subst hi
    have hnf := h.stands_eq hn hf.change
    subst hnf
    refine ⟨f.remove r.name, .remove f _, .remove ?_ fun name => ?_⟩
    · exact hf.change.bump
    · rw [hcell, Db.bump_cell, hf.cell]
      simp [DavResource.key]
  · refine ⟨f, .same f, hf.change.bump_ne hi, fun name => ?_⟩
    rw [hcell, Db.bump_cell, hf.cell, if_neg (by simp [DavResource.key, hi])]

theorem follows_move (h : db.Wf) {r : DavResource} {f : DavResource → DavResource} {n m : Nat}
    (hr : r ∈ db.resources) (hne : (f r).collectionId ≠ r.collectionId)
    (hn : db.Stands r.collectionId n) (hm : db.Stands (f r).collectionId m)
    (hrow : (f r).change = m + 1) (hid : ∀ r, (f r).id = r.id)
    (hfree : ∀ r' ∈ db.resources, r'.key ≠ (f r).key) :
    Follows db (((db.bump r.collectionId).bump (f r).collectionId).relocate r (n + 1) f) := by
  have hwf := (h.bump r.collectionId).bump (f r).collectionId
  have hold := (hn.bump.bump_ne hne.symm).le
  have hnew : ∃ c ∈ ((db.bump r.collectionId).bump (f r).collectionId).collections,
      c.id = (f r).collectionId ∧ (f r).change ≤ c.change := by
    rw [hrow]
    exact (hm.bump_ne hne).bump.le
  have hcell := hwf.cell_relocate hr hid hfree hold hnew
  refine ⟨hwf.relocate hr hid hfree hold hnew, le_rfl, ?_, ?_⟩
  · refine old_of_ids fun c' hc' => ?_
    obtain ⟨c₁, hc₁, heq⟩ := exists_id_of_bump c' hc'
    obtain ⟨c, hc, heq'⟩ := exists_id_of_bump c₁ hc₁
    exact ⟨c, hc, heq'.trans heq⟩
  · intro c' hc' g hg
    generalize c'.id = i at hg
    by_cases hi : i = (f r).collectionId
    · -- the target: the entry appears
      subst hi
      have hmg := h.stands_eq hm hg.change
      subst hmg
      refine ⟨g.put (f r).name (f r).etag, .put g _ _, .put ?_ fun name => ?_⟩
      · exact (hg.change.bump_ne hne).bump
      · rw [hcell, hrow, Db.bump_cell, Db.bump_cell, hg.cell]
        simp [DavResource.key, hne]
    by_cases hi' : i = r.collectionId
    · -- the source: it goes
      subst hi'
      have hng := h.stands_eq hn hg.change
      subst hng
      refine ⟨g.remove r.name, .remove g _, .remove ?_ fun name => ?_⟩
      · exact hg.change.bump.bump_ne hi
      · rw [hcell, Db.bump_cell, Db.bump_cell, hg.cell]
        simp [DavResource.key, hi]
    · refine ⟨g, .same g, (hg.change.bump_ne hi').bump_ne hi, fun name => ?_⟩
      rw [hcell, Db.bump_cell, Db.bump_cell, hg.cell, if_neg (by simp [DavResource.key, hi]),
        if_neg (by simp [DavResource.key, hi'])]

theorem wf_mark (h : db.Wf) (id : Int) {f : DavResource → DavResource} (hid : ∀ r, (f r).id = r.id)
    (hkey : ∀ r, (f r).key = r.key) (hchange : ∀ r, (f r).change = r.change) :
    (db.updateResource id f).Wf where
  collections := h.collections
  ids := h.ids.updateWhere hid _
  names := h.names.updateWhere hkey _
  tombs := h.tombs
  apart := by
    intro r hr t ht
    obtain ⟨r₀, hr₀, rfl⟩ := mem_updateWhere.1 hr
    have := h.apart r₀ hr₀ t ht
    split
    · rwa [hkey]
    · exact this
  known := h.known
  numbered := by
    intro r hr
    obtain ⟨r₀, hr₀, rfl⟩ := mem_updateWhere.1 hr
    have := h.numbered r₀ hr₀
    split
    · rwa [hid]
    · exact this
  live := by
    intro r hr
    obtain ⟨r₀, hr₀, rfl⟩ := mem_updateWhere.1 hr
    obtain ⟨c, hc, heq, hle⟩ := h.live r₀ hr₀
    split
    · exact ⟨c, hc, heq.trans (congrArg Prod.fst (hkey r₀)).symm, (hchange r₀).le.trans hle⟩
    · exact ⟨c, hc, heq, hle⟩
  dead := h.dead

theorem follows_mark (h : db.Wf) (id : Int) {f : DavResource → DavResource} (hid : ∀ r, (f r).id = r.id)
    (hkey : ∀ r, (f r).key = r.key) (hetag : ∀ r, (f r).etag = r.etag)
    (hchange : ∀ r, (f r).change = r.change) : Follows db (db.updateResource id f) := by
  have hwf := wf_mark h id hid hkey hchange
  refine ⟨hwf, le_rfl, old_of_ids fun c hc => ⟨c, hc, rfl⟩, fun c hc g hg => ?_⟩
  refine ⟨g, .same g, hg.change, fun name => ?_⟩
  rw [← hg.cell name]
  refine h.cell_eq hwf ?_ ?_ fun _ _ => Iff.rfl
  · intro r hr hk
    refine ⟨_, mem_updateWhere.2 ⟨r, hr, rfl⟩, ?_⟩
    split
    · exact ⟨(hkey r).trans hk, hetag r, hchange r⟩
    · exact ⟨hk, rfl, rfl⟩
  · intro r' hr' hk
    obtain ⟨r, hr, rfl⟩ := mem_updateWhere.1 hr'
    refine ⟨r, hr, ?_⟩
    split at hk
    · exact (hkey r).symm.trans hk
    · exact hk

theorem follows_create (h : db.Wf) {c : DavCollection} (hid : c.id = db.collectionSeq + 1) :
    Follows db { db with collections := db.collections ++ [c], collectionSeq := c.id } where
  wf := {
    collections := h.collections.append fun c' hc' heq => by
      have := h.known c' hc'
      omega
    ids := h.ids
    names := h.names
    tombs := h.tombs
    apart := h.apart
    known := by
      intro c' hc'
      rcases List.mem_append.1 hc' with hc' | hc'
      · exact (h.known c' hc').trans (by simp [hid])
      · rw [List.mem_singleton.1 hc']
    numbered := h.numbered
    live := fun r hr => by
      obtain ⟨c', hc', hle⟩ := h.live r hr
      exact ⟨c', List.mem_append_left _ hc', hle⟩
    dead := fun t ht => by
      obtain ⟨c', hc', hle⟩ := h.dead t ht
      exact ⟨c', List.mem_append_left _ hc', hle⟩ }
  seq := by simp [hid]
  old c' hc' hle := by
    rcases List.mem_append.1 hc' with hc' | hc'
    · exact ⟨c', hc', rfl⟩
    · rw [List.mem_singleton.1 hc', hid] at hle
      omega
  step c' _ f hf := by
    obtain ⟨c₀, hc₀, heq⟩ := hf.change
    exact ⟨f, .same f, ⟨c₀, List.mem_append_left _ hc₀, heq⟩, hf.cell⟩

theorem follows_drop (h : db.Wf) (p : DavCollection → Bool) : Follows db (db.deleteCollections p) := by
  have hgone : ∀ {i : Int}, (∃ c ∈ (db.deleteCollections p).collections, c.id = i) →
      (db.collections.any fun c => p c && c.id == i) = false := by
    rintro i ⟨c, hc, rfl⟩
    obtain ⟨hc, hp⟩ := mem_deleteWhere.1 hc
    refine List.any_eq_false.2 fun c' hc' hand => ?_
    simp only [Bool.and_eq_true, beq_iff_eq] at hand
    rw [h.collections.eq hc' hc hand.2] at hand
    simp [hp] at hand
  have hstays : ∀ {i : Int} {n : Nat}, (∃ c ∈ db.collections, c.id = i ∧ n ≤ c.change) →
      (db.collections.any fun c => p c && c.id == i) = false →
      ∃ c ∈ (db.deleteCollections p).collections, c.id = i ∧ n ≤ c.change := by
    rintro i n ⟨c, hc, rfl, hle⟩ hno
    have := List.any_eq_false.1 hno c hc
    exact ⟨c, mem_deleteWhere.2 ⟨hc, by simpa using this⟩, rfl, hle⟩
  have hwf : (db.deleteCollections p).Wf := {
    collections := h.collections.deleteWhere p
    ids := h.ids.deleteWhere _
    names := h.names.deleteWhere _
    tombs := h.tombs.deleteWhere _
    apart := fun r hr t ht => h.apart r (mem_deleteWhere.1 hr).1 t (mem_deleteWhere.1 ht).1
    known := fun c hc => h.known c (mem_deleteWhere.1 hc).1
    numbered := fun r hr => h.numbered r (mem_deleteWhere.1 hr).1
    live := fun r hr => hstays (h.live r (mem_deleteWhere.1 hr).1) (mem_deleteWhere.1 hr).2
    dead := fun t ht => hstays (h.dead t (mem_deleteWhere.1 ht).1) (mem_deleteWhere.1 ht).2 }
  refine ⟨hwf, le_rfl, old_of_ids fun c hc => ⟨c, (mem_deleteWhere.1 hc).1, rfl⟩, ?_⟩
  intro c' hc' f hf
  have hno := hgone ⟨c', hc', rfl⟩
  refine ⟨f, .same f, ?_, fun name => ?_⟩
  · obtain ⟨c, hc, hid, hn⟩ := hf.change
    have heq := h.collections.eq hc (mem_deleteWhere.1 hc').1 hid
    exact ⟨c, heq ▸ hc', hid, hn⟩
  · rw [← hf.cell name]
    refine h.cell_eq hwf ?_ ?_ ?_
    · intro r hr hk
      refine ⟨r, mem_deleteWhere.2 ⟨hr, ?_⟩, hk, rfl, rfl⟩
      rw [show r.collectionId = c'.id from congrArg Prod.fst hk]
      exact hno
    · exact fun r hr hk => ⟨r, (mem_deleteWhere.1 hr).1, hk⟩
    · intro t hk
      refine ⟨fun ht => (mem_deleteWhere.1 ht).1, fun ht => mem_deleteWhere.2 ⟨ht, ?_⟩⟩
      rw [show t.collectionId = c'.id from congrArg Prod.fst hk]
      exact hno

/-- **One event is at most one step of every feed.** -/
theorem Did.follows (h : db.Wf) (hdid : Did db db') : Follows db db' := by
  cases hdid with
  | same => exact ⟨h, le_rfl, old_of_ids fun c hc => ⟨c, hc, rfl⟩, fun c _ f hf => ⟨f, .same f, hf⟩⟩
  | write hn hrow => exact follows_write h hn hrow
  | bury hr hn => exact follows_bury h hr hn
  | move hr hne hn hm hrow hid hfree => exact follows_move h hr hne hn hm hrow hid hfree
  | adjust id hid hchange =>
    exact ⟨h.updateCollection hid fun c => (hchange c).ge, le_rfl, old_of_ids (exists_id_of_update hid),
      fun c _ f hf => ⟨f, .same f, hf.adjust hid hchange⟩⟩
  | update id hid hchange =>
    have hwf := @Db.Wf.updateCollection _ _ id h hid fun c => (hchange c).ge
    refine ⟨hwf.bump id, le_rfl, old_of_ids fun c' hc' => ?_, fun c' hc' f hf => ?_⟩
    · obtain ⟨c₁, hc₁, heq⟩ := exists_id_of_bump c' hc'
      obtain ⟨c, hc, heq'⟩ := exists_id_of_update hid c₁ hc₁
      exact ⟨c, hc, heq'.trans heq⟩
    · have hf := @Db.Shows.adjust _ _ id _ _ hf hid hchange
      generalize c'.id = i at hf
      by_cases hi : i = id
      · subst hi
        exact ⟨f.touch, .touch f, hf.change.bump, hf.cell⟩
      · exact ⟨f, .same f, hf.change.bump_ne hi, hf.cell⟩
  | mark id hid hkey hetag hchange => exact follows_mark h id hid hkey hetag hchange
  | create hid => exact follows_create h hid
  | drop p => exact follows_drop h p

end Follows

/-! ## 5. The client -/

/-- What the client holds of a collection it reads: the ETag of every name. -/
def etags (db : Db) (id : Int) (name : String) : Option String := (db.resource (id, name)).map (·.etag)

/-- The client removes the names that were deleted and overwrites those that changed. -/
def DavChanges.apply (news : DavChanges) (held : String → Option String) (name : String) :
    Option String :=
  let kept := if news.deleted.contains name then none else held name
  match news.changed.find? fun r => r.name == name with
  | some r => some r.etag
  | none => kept

section Client

variable {db db' : Db} {c : DavCollection} {since : Nat}

theorem Db.Shows.etags_eq {id : Int} {f : Feed String String} (h : db.Shows id f) :
    etags db id = f.values := by
  funext name
  unfold etags Feed.values
  rw [← h.cell name]
  unfold Db.cell
  cases db.resource (id, name) with
  | some r => rfl
  | none => cases db.tombstone (id, name) <;> rfl

/-- What a client is told about a collection of its account. -/
structure Tells (db : Db) (c : DavCollection) (since : Nat) (news : DavChanges) : Prop where
  change : news.change = c.change
  changed : ∀ r, r ∈ news.changed ↔ r ∈ db.resources ∧ r.collectionId = c.id ∧ since < r.change
  deleted : ∀ name, name ∈ news.deleted ↔
    ∃ t ∈ db.tombstones, t.key = (c.id, name) ∧ since < t.change

theorem davChanges_ok (h : db.Wf) (hc : c ∈ db.collections) (since : Nat) :
    ∃ news, davChanges c.accountId c.id since db = .ok news ∧ Tells db c since news := by
  have hown : ownCollection db (some c.accountId) c.id = .ok c := by
    unfold ownCollection
    cases hf : db.collections.find? (fun c' => c'.id == c.id && (some c.accountId).all (c'.accountId == ·)) with
    | none => exact absurd (List.find?_eq_none.1 hf c hc) (by simp)
    | some c' =>
      have hand := List.find?_some hf
      simp only [Bool.and_eq_true, beq_iff_eq] at hand
      rw [h.collections.eq (List.mem_of_find?_eq_some hf) hc hand.1]
  unfold davChanges
  rw [hown]
  refine ⟨_, rfl, rfl, ?_, ?_⟩
  · intro r
    simp [List.mem_insertionSort]
  · intro name
    simp only [List.mem_insertionSort, List.mem_map, List.mem_filter, Bool.and_eq_true, beq_iff_eq,
      decide_eq_true_eq]
    constructor
    · rintro ⟨t, ⟨ht, hid, hlt⟩, rfl⟩
      exact ⟨t, ht, by rw [← hid]; rfl, hlt⟩
    · rintro ⟨t, ht, hk, hlt⟩
      obtain ⟨hid, rfl⟩ := Prod.ext_iff.1 hk
      exact ⟨t, ⟨ht, hid, hlt⟩, rfl⟩

/-- The news are those of the feed. -/
theorem Tells.apply_eq {news : DavChanges} {f : Feed String String} (h : db.Wf) (hf : db.Shows c.id f)
    (ht : Tells db c since news) (held : String → Option String) :
    news.apply held = f.patch since held := by
  funext name
  have hfind : ∀ r, news.changed.find? (fun r => r.name == name) = some r →
      r ∈ db.resources ∧ r.key = (c.id, name) ∧ since < r.change := by
    intro r hr
    obtain ⟨hmem, hid, hlt⟩ := (ht.changed r).1 (List.mem_of_find?_eq_some hr)
    have hname : r.name = name := by simpa using List.find?_some hr
    exact ⟨hmem, by rw [← hid, ← hname]; rfl, hlt⟩
  have hnone : (∀ r ∈ db.resources, r.key = (c.id, name) → ¬ since < r.change) →
      news.changed.find? (fun r => r.name == name) = none := by
    intro hno
    cases hr : news.changed.find? (fun r => r.name == name) with
    | none => rfl
    | some r =>
      obtain ⟨hmem, hk, hlt⟩ := hfind r hr
      exact absurd hlt (hno r hmem hk)
  have hdeleted := ht.deleted name
  unfold DavChanges.apply Feed.patch Feed.changed Feed.deleted
  rw [← hf.cell name]
  by_cases hr : ∃ r ∈ db.resources, r.key = (c.id, name)
  · -- an entry: in the news when its number is
    obtain ⟨r, hr, hk⟩ := hr
    rw [← hk, h.cell_live hr]
    have hkept : name ∉ news.deleted := by
      intro hmem
      obtain ⟨t, hmem, hk', -⟩ := hdeleted.1 hmem
      exact h.apart r hr t hmem (hk.trans hk'.symm)
    by_cases hlt : since < r.change
    · cases hfound : news.changed.find? (fun r => r.name == name) with
      | none =>
        have := List.find?_eq_none.1 hfound r
          ((ht.changed r).2 ⟨hr, congrArg Prod.fst hk, hlt⟩)
        have hname : r.name = name := congrArg Prod.snd hk
        exact absurd hname (by simpa using this)
      | some r' =>
        obtain ⟨hr', hk', -⟩ := hfind r' hfound
        rw [h.names.eq hr' hr (hk'.trans hk.symm)]
        simp [hlt]
    · rw [hnone fun r' hr' hk' => by rwa [h.names.eq hr' hr (hk'.trans hk.symm)]]
      simp [hlt, hkept]
  · push Not at hr
    rw [hnone fun r hmem hk => absurd hk (hr r hmem)]
    by_cases htomb : ∃ t ∈ db.tombstones, t.key = (c.id, name)
    · -- a tombstone
      obtain ⟨t, htomb, hk⟩ := htomb
      have hiff : name ∈ news.deleted ↔ since < t.change := by
        rw [hdeleted]
        constructor
        · rintro ⟨t', ht', hk', hlt⟩
          rwa [← h.tombs.eq ht' htomb (hk'.trans hk.symm)]
        · exact fun hlt => ⟨t, htomb, hk, hlt⟩
      rw [← hk, h.cell_dead htomb]
      simp [hiff]
    · push Not at htomb
      have hkept : name ∉ news.deleted := by
        intro hmem
        obtain ⟨t, hmem, hk, -⟩ := hdeleted.1 hmem
        exact htomb t hmem hk
      rw [Db.cell_absent hr htomb]
      simp [hkept]

/-! ### Histories -/

open Trace (run)

variable {digest : String → String} {es es' : List Event}

theorem wf_run (h : db.Wf) (hrun : run (step digest) db es = some db') : db'.Wf :=
  Trace.run_invariant' (fun _ _ _ hwf hs => ((step_did hwf hs).follows hwf).wf) h hrun

/-- A feed goes on from what it was, as long as its collection is there. -/
theorem later_run {f : Feed String String} (h : db.Wf) (hf : db.Shows c.id f)
    (hknown : c.id ≤ db.collectionSeq) (hrun : run (step digest) db es = some db') :
    ∀ c' ∈ db'.collections, c'.id = c.id → ∃ g, Feed.Later f g ∧ db'.Shows c.id g := by
  -- going on from a collection that is there needs that it was there all along: an id is not used again
  have := @Trace.run_invariant' _ _ (step digest) _ _ _
    (fun db => db.Wf ∧ c.id ≤ db.collectionSeq ∧
      ∀ c' ∈ db.collections, c'.id = c.id → ∃ g, Feed.Later f g ∧ db.Shows c.id g)
    (by
      rintro db e db' ⟨hwf, hle, hlater⟩ hs
      have hfol := (step_did hwf hs).follows hwf
      refine ⟨hfol.wf, hle.trans hfol.seq, fun c' hc' hid => ?_⟩
      obtain ⟨c₀, hc₀, hid₀⟩ := hfol.old c' hc' (by rwa [hid])
      obtain ⟨g, hg, hshows⟩ := hlater c₀ hc₀ (hid₀.trans hid)
      rw [← hid] at hshows ⊢
      obtain ⟨g', hstep, hshows'⟩ := hfol.step c' hc' g hshows
      exact ⟨g', hg.trans hstep.later, hshows'⟩)
    ⟨h, hknown, fun _ _ _ => ⟨f, .refl f, hf⟩⟩ hrun
  exact this.2.2

/-- **A client that synchronises holds what the collection holds.**  Whatever the history up to the
change number it was at and whatever the history since: its ETags of then with the news are those of
now, no name is in both lists, and the number it goes on with is above everything it was told. -/
theorem sync_is_complete (digest : String → String) (c c' : DavCollection)
    (hthen : run (step digest) {} es = some db) (hnow : run (step digest) db es' = some db')
    (hc : c ∈ db.collections) (hc' : c' ∈ db'.collections) (hid : c'.id = c.id) :
    ∃ news, davChanges c'.accountId c.id c.change db' = .ok news ∧
      news.apply (etags db c.id) = etags db' c.id ∧
      (∀ r ∈ news.changed, r.name ∉ news.deleted) ∧
      (∀ r ∈ db'.resources, r.collectionId = c.id → r.change ≤ news.change) ∧
      ∀ t ∈ db'.tombstones, t.collectionId = c.id → t.change ≤ news.change := by
  have hwf := wf_run wf_empty hthen
  have hwf' := wf_run hwf hnow
  obtain ⟨f, hf, hchange⟩ := hwf.shows hc
  obtain ⟨g, hlater, hg⟩ := later_run hwf hf (hwf.known c hc) hnow c' hc' hid
  obtain ⟨news, hnews, htells⟩ := davChanges_ok hwf' hc' c.change
  rw [← hid] at hg hf ⊢
  refine ⟨news, hnews, ?_, ?_, ?_, ?_⟩
  · rw [htells.apply_eq hwf' hg, hf.etags_eq, hg.etags_eq, ← hchange]
    exact hlater.patch
  · intro r hr hdel
    obtain ⟨hr, hrc, -⟩ := (htells.changed r).1 hr
    obtain ⟨t, ht, hk, -⟩ := (htells.deleted r.name).1 hdel
    exact hwf'.apart r hr t ht (by rw [hk, ← hrc]; rfl)
  · intro r hr hrc
    obtain ⟨c₀, hc₀, heq, hle⟩ := hwf'.live r hr
    rw [hwf'.collections.eq hc₀ hc' (heq.trans hrc)] at hle
    rwa [htells.change]
  · intro t ht htc
    obtain ⟨c₀, hc₀, heq, hle⟩ := hwf'.dead t ht
    rw [hwf'.collections.eq hc₀ hc' (heq.trans htc)] at hle
    rwa [htells.change]

/-- Two calendars with an entry `a.ics` each. -/
def inTwoCalendars : List Event :=
  let entry (uid : String) : DavWrite := ⟨"a.ics", "", uid, "VEVENT", none, none⟩
  [.create 1 .calendar { slug := "home" } 0, .create 1 .calendar { slug := "work" } 0,
    .put 1 (entry "x") {} 0, .put 2 (entry "y") {} 0]

/-- The entry of the first moves into the second, where its name is taken, and back. -/
def thereAndBack : List Event :=
  [.store 1 2 ⟨"", "there", "x", "VEVENT", none, none⟩ "ics" [] 1,
    .store 1 1 ⟨"", "back", "x", "VEVENT", none, none⟩ "ics" [] 2]

/-- The state after a history of which every event can happen. -/
def after (es : List Event) : Db := (run (step id) {} es).getD {}

theorem sync_after_there_and_back :
    ∃ news, davChanges 1 1 1 (after (inTwoCalendars ++ thereAndBack)) = .ok news ∧
      news.apply (etags (after inTwoCalendars) 1) = etags (after (inTwoCalendars ++ thereAndBack)) 1 := by
  obtain ⟨news, hnews, happly, -⟩ := sync_is_complete id
    { id := 1, accountId := 1, kind := .calendar, slug := "home", change := 1, isDefault := true }
    { id := 1, accountId := 1, kind := .calendar, slug := "home", change := 3, isDefault := true }
    (by decide : run (step id) {} inTwoCalendars = some (after inTwoCalendars))
    (by decide :
      run (step id) (after inTwoCalendars) thereAndBack = some (after (inTwoCalendars ++ thereAndBack)))
    (by decide) (by decide) rfl
  exact ⟨news, hnews, happly⟩

end Client

end UwuMail.Dav
