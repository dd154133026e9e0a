/-
# The backup repository

Objects lie under `data/<2 hex>/<id>`, one manifest a snapshot under `snapshots/`.  An object's id
comes from the SHA-256 of its content, keyed in an encrypted repository.  The codec (compression and
encryption) and the JSON of manifests read back what they wrote, so a file is kept here as what the
codec READS in it.

Every operation on the storage can fail.  A write or a removal whose answer is lost has happened and
is reported as an error all the same: `Fault` is what becomes of the next operation, and the list of
faults of a `Storage` is any list.
-/
import UwuMail.Lib.Tx
import UwuMail.Lib.Dict

namespace UwuMail.Backup

open Tx

/-! ## 1. Names, paths and manifests -/

def chunkMax : Nat := 256 * 1024
def fileMax : Nat := 64 * 1024 * 1024
def manifestMax : Nat := 256 * 1024 * 1024
def blobMax : Nat := 1024 * 1024 * 1024
def objectOverhead : Nat := 64

/-- `is_ascii_hexdigit` -/
def isHexDigit (c : Char) : Bool :=
  c.isDigit || (decide ('a' ≤ c) && decide (c ≤ 'f')) || (decide ('A' ≤ c) && decide (c ≤ 'F'))

/-- Whether `checked_id` takes a text for an id. -/
def isId (id : String) : Bool := id.toList.length == 64 && id.toList.all isHexDigit

/-- Whether a name under `snapshots/` is one this server gives: the time, a dash and six hex
digits. -/
def isSnapshotName (name : String) : Bool :=
  match name.toList.span (· != '-') with
  | (time, _ :: suffix) =>
    time.length == 12 && time.all Char.isDigit && suffix.length == 6 && suffix.all isHexDigit
  | (_, []) => false

inductive Path where
  | snapshot (name : String)
  | object (pre name : String)
  deriving DecidableEq

/-- What goes wrong, with what its message names. -/
inductive Error where
  /-- "the backup names something that is not an id: …" -/
  | notAnId (id : String)
  /-- "there is no snapshot …" -/
  | noSnapshot (name : String)
  /-- "the snapshot … cannot be read", or what the codec says -/
  | unreadable (name : String)
  /-- "the snapshot … holds another snapshot" -/
  | otherSnapshot (name : String)
  /-- "the object … is missing" -/
  | missing (id : String)
  /-- "the object … does not match its content" -/
  | mismatch (id : String)
  /-- "… is bigger than the … bytes it may have", or "an object is longer than the … bytes it may
  have" -/
  | tooBig (id : String) (limit : Nat)
  /-- "the blob … does not match its content", or "… on disk does not match its name" -/
  | wrongBlob (hash : String)
  /-- "the file name … leaves the data directory" -/
  | leaves (path : String)
  /-- "this snapshot comes from UwUMail …", or is in a newer format -/
  | newer (version : String)
  /-- The storage reported an error. -/
  | storage
  /-- The store of the mail server did. -/
  | store
  deriving DecidableEq

/-- The first two digits of an id. -/
def idPrefix (id : String) : String := String.ofList (id.toList.take 2)

/-- The path of an object in the repository. -/
def objectPath (id : String) : Except Error Path :=
  if isId id then .ok (.object (idPrefix id) id) else .error (.notAnId id)

/-- A file from the data directory besides the database and the mail blobs. -/
structure FileEntry where
  path : String
  id : String
  size : Nat
  deriving DecidableEq

/-- What one snapshot holds. -/
structure Manifest where
  format : Nat := 1
  createdAt : Int
  hostname : String
  version : String
  database : List String
  databaseSize : Nat
  blobs : List String
  blobsSize : Nat
  files : List FileEntry
  uploaded : Nat
  name : Option String
  deriving DecidableEq

/-- A stored file, as the codec reads it: content with this SHA-256, a manifest that is not longer
than what is read of one, or neither. -/
inductive File where
  | content (sha256 : String)
  | manifest (m : Manifest)
  | damaged

abbrev Files := Dict Path File

/-- An opened repository: how ids come from hashes, and the order in which the server goes through a
hash set. -/
structure Repository where
  idForHash : String → String
  iterate : List String → List String
  iterate_perm : ∀ l, (iterate l).Perm l

/-- The ids of the objects a snapshot needs. -/
def Repository.wanted (repo : Repository) (m : Manifest) : List String :=
  m.database ++ m.blobs.map repo.idForHash ++ m.files.map (·.id)

/-! ## 2. The storage -/

/-- What becomes of an operation: it is done, it is refused, or it is done and its answer is
lost. -/
inductive Fault where
  | done
  | refused
  | unheard

/-- The files, and what becomes of the operations to come. -/
structure Storage where
  files : Files
  faults : List Fault := []

namespace Storage

/-- One operation. -/
def operate {α : Type} (effect : Files → α × Files) : Tx Error Storage α :=
  ExceptT.mk fun s =>
    let (answer, files) := effect s.files
    match s.faults with
    | [] => (.ok answer, { s with files := files })
    | .done :: faults => (.ok answer, ⟨files, faults⟩)
    | .refused :: faults => (.error .storage, ⟨s.files, faults⟩)
    | .unheard :: faults => (.error .storage, ⟨files, faults⟩)

def read (path : Path) : Tx Error Storage (Option File) :=
  operate fun files => (files.lookup path, files)

def write (path : Path) (file : File) : Tx Error Storage Unit :=
  operate fun files => ((), files.insert path file)

/-- Removing what is not there is no error. -/
def remove (path : Path) : Tx Error Storage Unit :=
  operate fun files => ((), files.erase path)

/-- Unfinished uploads are left out of a listing. -/
def isListed (name : String) : Bool :=
  !".part".toList.isSuffixOf name.toList && name != "." && name != ".."

/-- The names in `snapshots`. -/
def snapshotNames (files : Files) : List String :=
  files.keys.filterMap fun
    | .snapshot name => if isListed name then some name else none
    | .object _ _ => none

/-- The names in `data`. -/
def dataNames (files : Files) : List String :=
  (files.keys.filterMap fun
    | .snapshot _ => none
    | .object pre _ => if isListed pre then some pre else none).dedup

/-- The names in one directory of `data`. -/
def objectNames (pre : String) (files : Files) : List String :=
  files.keys.filterMap fun
    | .snapshot _ => none
    | .object pre' name => if pre' = pre && isListed name then some name else none

def list (names : Files → List String) : Tx Error Storage (List String) :=
  operate fun files => (names files, files)

end Storage

/-! ## 3. What the repository reads -/

/-- Snapshot names, oldest first. -/
def snapshotsIn (files : Files) : List String :=
  ((Storage.snapshotNames files).filter isSnapshotName).insertionSort (· ≤ ·)

def snapshots : Tx Error Storage (List String) := do
  let names ← Storage.list Storage.snapshotNames
  pure ((names.filter isSnapshotName).insertionSort (· ≤ ·))

/-- What a file under `snapshots/` reads as. -/
def manifestOf (name : String) : Option File → Except Error Manifest
  | none => .error (.noSnapshot name)
  | some (.manifest m) =>
    if m.name.any (· != name) then .error (.otherSnapshot name) else .ok m
  | some _ => .error (.unreadable name)

def manifest (name : String) : Tx Error Storage Manifest :=
  if isSnapshotName name then do
    let file ← Storage.read (.snapshot name)
    Tx.ofExcept (manifestOf name file)
  else throw (.noSnapshot name)

/-- Whether a name in `data` is one of its directories. -/
def isIdPrefix (pre : String) : Bool := pre.toList.length == 2 && pre.toList.all isHexDigit

/-- The names in a directory of `data` that are ids. -/
def objectsIn (pre : String) (files : Files) : List String :=
  (Storage.objectNames pre files).filter fun id => isId id && pre.toList.isPrefixOf id.toList

/-- Ids of every object in the repository. -/
def objectIds : Tx Error Storage (List String) := do
  let prefixes ← Storage.list Storage.dataNames
  let ids ← (prefixes.filter isIdPrefix).mapM fun pre => do
    let names ← Storage.list (Storage.objectNames pre)
    pure (names.filter fun id => isId id && pre.toList.isPrefixOf id.toList)
  pure ids.flatten

/-- The objects that are listed, when every listing succeeds. -/
def objectIdsIn (files : Files) : List String :=
  (((Storage.dataNames files).filter isIdPrefix).map fun pre => objectsIn pre files).flatten

/-- Whether the object is in the repository. -/
def HasObject (files : Files) (id : String) : Prop :=
  ∃ path, objectPath id = .ok path ∧ path ∈ files

/-- The snapshot can be read and every object it needs is there. -/
def Complete (repo : Repository) (files : Files) (name : String) : Prop :=
  ∃ m, manifestOf name (files.lookup (.snapshot name)) = .ok m ∧
    ∀ id ∈ repo.wanted m, HasObject files id

instance (files : Files) (id : String) : Decidable (HasObject files id) :=
  match h : objectPath id with
  | .ok path => decidable_of_iff (path ∈ files) (by simp [HasObject, h])
  | .error e => .isFalse (by simp [HasObject, h])

instance (repo : Repository) (files : Files) (name : String) : Decidable (Complete repo files name) :=
  match h : manifestOf name (files.lookup (.snapshot name)) with
  | .ok m => decidable_of_iff (∀ id ∈ repo.wanted m, HasObject files id) (by simp [Complete, h])
  | .error e => .isFalse (by simp [Complete, h])

/-! ## 4. What an operation leaves behind -/

section Operations

variable {s : Storage} {path : Path}

/-- An operation that only looks: the files stay, and the answer is what the files say. -/
theorem ends_look {α : Type} (look : Files → α) :
    Ends (Storage.operate fun files => (look files, files)) s
      (fun a s' => a = look s.files ∧ s'.files = s.files) (fun s' => s'.files = s.files) := by
  obtain ⟨files, faults⟩ := s
  rcases faults with _ | ⟨fault, faults⟩
  · exact ⟨rfl, rfl⟩
  · cases fault with
    | done => exact ⟨rfl, rfl⟩
    | refused => exact rfl
    | unheard => exact rfl

theorem ends_list (names : Files → List String) :
    Ends (Storage.list names) s (fun l s' => l = names s.files ∧ s'.files = s.files)
      (fun s' => s'.files = s.files) := ends_look names

theorem ends_snapshots :
    Ends snapshots s (fun l s' => l = snapshotsIn s.files ∧ s'.files = s.files)
      (fun s' => s'.files = s.files) := by
  refine (ends_list Storage.snapshotNames).bind ?_
  rintro l s' ⟨rfl, hs'⟩
  exact .pure ⟨rfl, hs'⟩

theorem ends_manifest (name : String) :
    Ends (manifest name) s
      (fun m s' => manifestOf name (s.files.lookup (.snapshot name)) = .ok m ∧ s'.files = s.files)
      (fun s' => s'.files = s.files) := by
  unfold manifest
  split
  · refine (ends_look fun files => files.lookup (.snapshot name)).bind ?_
    rintro file s' ⟨rfl, hs'⟩
    exact .ofExcept (fun m hm => ⟨hm, hs'⟩) hs'
  · exact (rfl : s.files = s.files)

theorem ends_objectIds :
    Ends objectIds s (fun ids s' => ids = objectIdsIn s.files ∧ s'.files = s.files)
      (fun s' => s'.files = s.files) := by
  refine (ends_list Storage.dataNames).bind ?_
  rintro prefixes s₁ ⟨rfl, hs₁⟩
  have hloop := Ends.mapM (s := s₁) (E := fun s' : Storage => s'.files = s.files)
    (P := fun done ids s' => ids = done.map (fun pre => objectsIn pre s.files) ∧ s'.files = s.files)
    (f := fun pre => do
      let names ← Storage.list (Storage.objectNames pre)
      pure (names.filter fun id => isId id && pre.toList.isPrefixOf id.toList))
    (fun done ids pre s' h => by
      obtain ⟨hids, hs'⟩ := h
      refine ((ends_list (Storage.objectNames pre)).mono (fun _ _ h => h)
        (fun _ h => h.trans hs')).bind ?_
      rintro names s₂ ⟨rfl, hs₂⟩
      refine .pure ⟨?_, hs₂.trans hs'⟩
      rw [hids, hs', List.map_append]
      rfl)
    ((Storage.dataNames s.files).filter isIdPrefix) [] [] ⟨rfl, hs₁⟩
  refine hloop.bind ?_
  rintro ids s₂ ⟨hids, hs₂⟩
  refine .pure ⟨?_, hs₂⟩
  rw [List.nil_append, List.nil_append] at hids
  rw [hids]
  rfl

/-- Files that went, all of them among `gone`, and nothing else happened. -/
def Thinned (gone : Path → Prop) (files files' : Files) : Prop :=
  ∀ path, files'.lookup path = files.lookup path ∨ gone path ∧ files'.lookup path = none

variable {gone gone' : Path → Prop} {files files' files'' : Files}

theorem Thinned.refl : Thinned gone files files := fun _ => .inl rfl

theorem Thinned.of_eq (h : files' = files) : Thinned gone files files' := h ▸ .refl

theorem Thinned.mono (h : Thinned gone files files') (hgone : ∀ path, gone path → gone' path) :
    Thinned gone' files files' :=
  fun path => (h path).imp_right fun h => ⟨hgone path h.1, h.2⟩

theorem Thinned.trans (h : Thinned gone files files') (h' : Thinned gone files' files'') :
    Thinned gone files files'' := by
  intro path
  rcases h' path with h' | h'
  · rw [h']
    exact h path
  · exact .inr h'

theorem Thinned.none (h : Thinned gone files files') (hnone : files.lookup path = none) :
    files'.lookup path = none := by
  rcases h path with h | h
  · rw [h, hnone]
  · exact h.2

/-- A file that is still there is as it was. -/
theorem Thinned.lookup_of_mem (h : Thinned gone files files') (hmem : path ∈ files') :
    files'.lookup path = files.lookup path := by
  rcases h path with h | ⟨-, h⟩
  · exact h
  · exact absurd hmem (AList.lookup_eq_none.1 h)

theorem Thinned.mem_of_mem (h : Thinned gone files files') (hmem : path ∈ files') : path ∈ files := by
  rw [← AList.lookup_isSome, ← h.lookup_of_mem hmem, AList.lookup_isSome]
  exact hmem

/-- A file that is not among those that went is still there. -/
theorem Thinned.mem (h : Thinned gone files files') (hmem : path ∈ files) (hgone : ¬ gone path) :
    path ∈ files' := by
  rcases h path with h | h
  · rw [← AList.lookup_isSome, h, AList.lookup_isSome]
    exact hmem
  · exact absurd h.1 hgone

theorem thinned_erase : Thinned (· = path) files (files.erase path) := by
  intro p
  by_cases hp : p = path
  · exact .inr ⟨hp, by rw [hp, AList.lookup_erase]⟩
  · exact .inl (AList.lookup_erase_ne hp)

/-- A removal that reports an error may have happened. -/
theorem ends_remove :
    Ends (Storage.remove path) s (fun _ s' => s'.files = s.files.erase path)
      (fun s' => Thinned (· = path) s.files s'.files) := by
  obtain ⟨files, faults⟩ := s
  rcases faults with _ | ⟨fault, faults⟩
  · exact (rfl : files.erase path = files.erase path)
  · cases fault with
    | done => exact (rfl : files.erase path = files.erase path)
    | refused => exact Thinned.refl
    | unheard => exact thinned_erase

end Operations

section Names

variable {files : Files}

theorem mem_snapshotNames {name : String} : name ∈ Storage.snapshotNames files ↔
    Path.snapshot name ∈ files ∧ Storage.isListed name = true := by
  simp only [Storage.snapshotNames, List.mem_filterMap, ← AList.mem_keys]
  constructor
  · rintro ⟨p, hp, h⟩
    cases p with
    | snapshot n =>
      simp only [Option.ite_none_right_eq_some, Option.some.injEq] at h
      obtain ⟨hl, rfl⟩ := h
      exact ⟨hp, hl⟩
    | object pre n => cases h
  · rintro ⟨hp, hl⟩
    exact ⟨_, hp, by simp [hl]⟩

theorem mem_snapshotsIn {name : String} : name ∈ snapshotsIn files ↔
    (Path.snapshot name ∈ files ∧ Storage.isListed name = true) ∧ isSnapshotName name = true := by
  rw [snapshotsIn, List.mem_insertionSort, List.mem_filter, mem_snapshotNames]

theorem mem_dataNames {pre : String} : pre ∈ Storage.dataNames files ↔
    (∃ name, Path.object pre name ∈ files) ∧ Storage.isListed pre = true := by
  simp only [Storage.dataNames, List.mem_dedup, List.mem_filterMap, ← AList.mem_keys]
  constructor
  · rintro ⟨p, hp, h⟩
    cases p with
    | snapshot n => cases h
    | object pre' n =>
      simp only [Option.ite_none_right_eq_some, Option.some.injEq] at h
      obtain ⟨hl, rfl⟩ := h
      exact ⟨⟨n, hp⟩, hl⟩
  · rintro ⟨⟨name, hp⟩, hl⟩
    exact ⟨_, hp, by simp [hl]⟩

theorem mem_objectNames {pre name : String} : name ∈ Storage.objectNames pre files ↔
    Path.object pre name ∈ files ∧ Storage.isListed name = true := by
  simp only [Storage.objectNames, List.mem_filterMap, ← AList.mem_keys]
  constructor
  · rintro ⟨p, hp, h⟩
    cases p with
    | snapshot n => cases h
    | object pre' n =>
      simp only [Bool.and_eq_true, decide_eq_true_eq, Option.ite_none_right_eq_some,
        Option.some.injEq] at h
      obtain ⟨⟨rfl, hl⟩, rfl⟩ := h
      exact ⟨hp, hl⟩
  · rintro ⟨hp, hl⟩
    exact ⟨_, hp, by simp [hl]⟩

theorem eq_idPrefix {pre id : String} (hpre : isIdPrefix pre = true)
    (h : pre.toList.isPrefixOf id.toList = true) : pre = idPrefix id := by
  simp only [isIdPrefix, Bool.and_eq_true, beq_iff_eq] at hpre
  rw [List.isPrefixOf_iff_prefix, List.prefix_iff_eq_take, hpre.1] at h
  rw [idPrefix, ← h, String.ofList_toList]

/-- Whether an object is listed depends on its own file alone. -/
theorem mem_objectIdsIn_iff {id : String} : id ∈ objectIdsIn files ↔
    Path.object (idPrefix id) id ∈ files ∧
      (isId id = true ∧ isIdPrefix (idPrefix id) = true ∧
        (idPrefix id).toList.isPrefixOf id.toList = true ∧ Storage.isListed (idPrefix id) = true ∧
        Storage.isListed id = true) := by
  simp only [objectIdsIn, objectsIn, List.mem_flatten, List.mem_map, List.mem_filter]
  constructor
  · rintro ⟨_, ⟨pre, ⟨hlisted, hpre⟩, rfl⟩, h⟩
    simp only [List.mem_filter, Bool.and_eq_true, mem_objectNames] at h
    obtain ⟨⟨hmem, hid'⟩, hid, hprefix⟩ := h
    obtain rfl := eq_idPrefix hpre hprefix
    exact ⟨hmem, hid, hpre, hprefix, (mem_dataNames.1 hlisted).2, hid'⟩
  · rintro ⟨hmem, hid, hpre, hprefix, hlisted, hid'⟩
    refine ⟨_, ⟨_, ⟨mem_dataNames.2 ⟨⟨id, hmem⟩, hlisted⟩, hpre⟩, rfl⟩, ?_⟩
    simp only [List.mem_filter, Bool.and_eq_true, mem_objectNames]
    exact ⟨⟨hmem, hid'⟩, hid, hprefix⟩

theorem objectPath_eq_ok {id : String} {path : Path} (h : objectPath id = .ok path) :
    path = .object (idPrefix id) id := by
  unfold objectPath at h
  split at h
  · exact (Except.ok.inj h).symm
  · cases h

end Names

end UwuMail.Backup
