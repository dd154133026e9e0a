/-
# A backup comes back byte for byte

`lib.rs` of the backup, over the bytes of `Backup.Codec`.  The storage is honest: what is written is
there.  A repository goes through any sequence of uploads, each of a data directory of its own, and
prunes; whichever of its snapshots is restored then, the database, the blobs and the other files are
those that were backed up.

`Honest` is the invariant.  What is stored under an id encodes content with that id, so an object
that an EARLIER backup brought serves a later one; and a snapshot's manifest describes the directory
it was made of, with every object it names still there.

What a restore reads is bounded: a blob, a file and a manifest each have a size from which on they
are refused.  `big_blob_is_refused` is a blob beyond that.
-/
import UwuMail.Backup.Codec
import UwuMail.Backup.Snapshot

namespace UwuMail.Backup.Bytewise

open Tx

/-! ## 1. The repository -/

/-- A server, with the functions of other libraries that a backup is made with: how the database is
cut into chunks, and how a manifest is written as text. -/
structure Server where
  p : Primitives
  codec : Codec
  hostname : String
  version : String
  /-- `StreamCDC` -/
  chunksOf : Bytes → List Bytes
  toJson : Manifest → Bytes
  fromJson : Bytes → Option Manifest
  flatten_chunksOf : ∀ content, (chunksOf content).flatten = content
  chunksOf_length : ∀ content, ∀ chunk ∈ chunksOf content, chunk.length ≤ chunkMax
  fromJson_toJson : ∀ m, fromJson (toJson m) = some m

namespace Server

def idFor (srv : Server) (content : Bytes) : String := srv.p.idFor srv.codec content

/-- The ids of the objects a snapshot needs. -/
def wanted (srv : Server) (m : Manifest) : List String :=
  m.database ++ m.blobs.map (srv.p.idForHash srv.codec) ++ m.files.map (·.id)

end Server

/-- What a storage answers. -/
abbrev Reads := Path → Option Bytes

/-- `Storage::read`. -/
def read (storage : Reads) (path : Path) (limit : Nat) : Except Error (Option Bytes) :=
  match storage path with
  | none => .ok none
  | some bytes =>
    if bytes.length > limit then .error (.damaged s!"a file is bigger than the {limit} bytes it may have")
    else .ok (some bytes)

/-- `object_path`. -/
def pathOf (id : String) : Except Error Path :=
  if isId id then .ok (.object (idPrefix id) id)
  else .error (.damaged s!"the backup names something that is not an id: {id}")

/-- An object's content, which may be at most `limit` bytes long. -/
def get (srv : Server) (storage : Reads) (id : String) (limit : Nat) : Except Error Bytes := do
  let path ← pathOf id
  match ← read storage path (limit + objectOverhead) with
  | none => .error (.damaged s!"the object {id} is missing")
  | some object =>
    let content ← srv.p.decode srv.codec object limit
    if srv.idFor content ≠ id then
      .error (.damaged s!"the object {id} does not match its content")
    else .ok content

def manifest (srv : Server) (storage : Reads) (name : String) : Except Error Manifest :=
  if !isSnapshotName name then .error (.config s!"there is no snapshot {name}")
  else do
    match ← read storage (.snapshot name) manifestMax with
    | none => .error (.config s!"there is no snapshot {name}")
    | some object =>
      let json ← srv.p.decode srv.codec object manifestMax
      match srv.fromJson json with
      | none => .error (.damaged s!"the snapshot {name} cannot be read")
      | some m =>
        if m.name.any (· != name) then
          .error (.damaged s!"the snapshot {name} holds another snapshot")
        else .ok m

abbrev Files := Dict Path Bytes

/-- Snapshot names, oldest first. -/
def snapshots (files : Files) : List String :=
  ((files.keys.filterMap fun
    | .snapshot name => if Storage.isListed name then some name else none
    | .object _ _ => none).filter isSnapshotName).insertionSort (· ≤ ·)

/-- Ids of every object in the repository. -/
def objectIds (files : Files) : List String :=
  files.keys.filterMap fun
    | .snapshot _ => none
    | .object pre id =>
      if isIdPrefix pre && isId id && pre.toList.isPrefixOf id.toList then some id else none

/-! ## 2. Uploading, pruning and restoring -/

/-- Whether `other_files` takes a file up: not what has a place of its own in a backup, and no
cache. -/
def isOther (path : String) : Bool :=
  let top := path.toList.takeWhile (· != '/')
  top != "blobs".toList && top != "cache".toList && top != "backup-tmp".toList &&
    !"uwumail.db".toList.isPrefixOf path.toList

/-- A server's data directory: the database, the blobs that are referred to, and the files
`other_files` finds, each path once. -/
structure DataDir where
  database : Bytes
  blobs : List Bytes
  files : List (String × Bytes)
  nodup : (files.map (·.1)).Nodup
  inside : ∀ file ∈ files, Snapshot.staysInside file.1 = true
  other : ∀ file ∈ files, isOther file.1 = true

/-- The files that are not too big. -/
def DataDir.others (data : DataDir) : List (String × Bytes) :=
  data.files.filter fun file => decide (file.2.length ≤ fileMax)

/-- What `backup` is called with, and the nonces it draws. -/
structure Job where
  data : DataDir
  now : Int
  suffix : String
  nonces : Nat → Nonce

/-- The variables of an upload. -/
structure Run where
  files : Files
  known : List String
  drawn : Nat := 0
  uploaded : Nat := 0

section Upload

variable (srv : Server) (job : Job)

/-- Stores content unless the repository has it already. -/
def put (content : Bytes) : Tx Error Run String := do
  let run ← MonadState.get
  let id := srv.idFor content
  if id ∈ run.known then pure id
  else do
    let object := srv.p.encode srv.codec (job.nonces run.drawn) content
    let path ← Tx.ofExcept (pathOf id)
    set ({ files := run.files.insert path object, known := id :: run.known, drawn := run.drawn + 1,
           uploaded := run.uploaded + object.length } : Run)
    pure id

/-- One blob, which is looked for by its name on disk before it is read. -/
def putBlob (content : Bytes) : Tx Error Run String := do
  let run ← MonadState.get
  let hash := srv.p.hashOf content
  let id := srv.p.idForHash srv.codec hash
  if id ∈ run.known then pure hash
  else do
    let stored ← put srv job content
    if stored ≠ id then throw (.damaged s!"the blob {hash} on disk does not match its name")
    else pure hash

def putFile (file : String × Bytes) : Tx Error Run FileEntry := do
  let id ← put srv job file.2
  pure ⟨file.1, id, file.2.length⟩

/-- The name of a snapshot: the time and a random suffix. -/
def Job.name : String := Snapshot.zeroPadded job.now ++ "-" ++ job.suffix

/-- `backup` up to its prune: the snapshot and its manifest. -/
def upload : Tx Error Run Manifest := do
  let database ← (srv.chunksOf job.data.database).mapM (put srv job)
  let blobs ← job.data.blobs.mapM (putBlob srv job)
  let files ← job.data.others.mapM (putFile srv job)
  let run ← MonadState.get
  let m : Manifest :=
    { createdAt := job.now, hostname := srv.hostname, version := srv.version, database
      databaseSize := job.data.database.length, blobs
      blobsSize := (job.data.blobs.map List.length).sum, files, uploaded := run.uploaded
      name := some job.name }
  set { run with
    files := run.files.insert (.snapshot job.name)
      (srv.p.encode srv.codec (job.nonces run.drawn) (srv.toJson m))
    drawn := run.drawn + 1 }
  pure m

end Upload

/-- The snapshots that are let go are removed. -/
def dropSnapshots (kept : List Nat) (manifests : List (String × Manifest)) (files : Files) : Files :=
  (manifests.zipIdx.filter fun e => decide (e.2 ∉ kept)).foldl
    (fun files e => files.erase (.snapshot e.1.1)) files

/-- What the snapshots that stay need. -/
def neededBy (srv : Server) (kept : List Nat) (manifests : List (String × Manifest)) : List String :=
  (manifests.zipIdx.filter fun e => decide (e.2 ∈ kept)).flatMap fun e => srv.wanted e.1.2

/-- The objects nobody needs are removed. -/
def dropObjects (needed : List String) (files : Files) : Files :=
  ((objectIds files).filter fun id => decide (id ∉ needed)).foldl
    (fun files id => files.erase (.object (idPrefix id) id)) files

/-- Removes snapshots the retention rules let go, then objects no snapshot needs. -/
def prune (srv : Server) (retention : Retention) (files : Files) : Except Error Files := do
  let manifests ← (snapshots files).mapM fun name => do
    return (name, ← manifest srv (fun path => files.lookup path) name)
  let kept := keep (manifests.map (·.2.createdAt)) retention
  let files := dropSnapshots kept manifests files
  if manifests.isEmpty then pure files
  else pure (dropObjects (neededBy srv kept manifests) files)

/-- A directory that is written to, by relative path. -/
abbrev Dir := Dict String Bytes

/-- Where a blob lies. -/
def blobPath (hash : String) : String :=
  let digits := hash.toList
  String.ofList ("blobs/".toList ++ digits.take 2 ++ ['/'] ++ (digits.drop 2).take 2 ++ ['/'] ++ digits)

def databasePath : String := "uwumail.db"
def partialPath : String := "uwumail.db.restoring"

/-- `already_restored`: a mail that is in place from an earlier attempt, content and all. -/
def alreadyRestored (srv : Server) (dir : Dir) (hash : String) : Bool :=
  (dir.lookup (blobPath hash)).any fun content => srv.p.hashOf content == hash

def restoreBlob (srv : Server) (storage : Reads) (dir : Dir) (hash : String) : Except Error Dir :=
  if !isId hash then .error (.damaged s!"the backup names something that is not an id: {hash}")
  else if alreadyRestored srv dir hash then .ok dir
  else do
    let content ← get srv storage (srv.p.idForHash srv.codec hash) blobMax
    if srv.p.hashOf content ≠ hash then
      .error (.damaged s!"the blob {hash} does not match its content")
    else .ok (dir.insert (blobPath hash) content)

def restoreFile (srv : Server) (storage : Reads) (dir : Dir) (file : FileEntry) : Except Error Dir :=
  if !Snapshot.staysInside file.path then
    .error (.damaged s!"the file name {file.path} leaves the data directory")
  else do
    let content ← get srv storage file.id (min file.size fileMax)
    .ok (dir.insert file.path content)

/-- Whether this build can put a snapshot back. -/
def fitsThisServer (srv : Server) (m : Manifest) : Except Error PUnit :=
  if m.format > 1 then
    .error (.config
      s!"this snapshot is written in backup format {m.format}, and this server knows 1")
  else if Snapshot.releaseOrder srv.version < Snapshot.releaseOrder m.version then
    .error (.config <| s!"this snapshot comes from UwUMail {m.version}, and this server is {srv.version}; " ++
      s!"restore it with {m.version} or newer")
  else .ok ⟨⟩

/-- Writes a snapshot into a data directory: the database, the blobs and the other files. -/
def restore (srv : Server) (storage : Reads) (snapshot : String) (dir : Dir) : Except Error Dir :=
  if databasePath ∈ dir then
    .error (.config "the directory already holds a server; restore into an empty directory")
  else do
    let m ← manifest srv storage snapshot
    fitsThisServer srv m
    let chunks ← m.database.mapM fun id => get srv storage id chunkMax
    let dir := dir.insert partialPath chunks.flatten
    let dir ← m.blobs.foldlM (restoreBlob srv storage) dir
    let dir ← m.files.foldlM (restoreFile srv storage) dir
    match dir.lookup partialPath with
    | some database => .ok ((dir.erase partialPath).insert databasePath database)
    | none => .error .io

/-! ## 3. The invariant -/

/-- What an upload of a directory stores. -/
def DataDir.contents (srv : Server) (data : DataDir) : List Bytes :=
  srv.chunksOf data.database ++ data.blobs ++ data.others.map (·.2)

/-- A snapshot that was taken: its name, its manifest and what it was made of. -/
structure Taken where
  name : String
  manifest : Manifest
  data : DataDir

structure Repo where
  files : Files := ∅
  taken : List Taken := []

inductive Event where
  | upload (job : Job)
  | prune (retention : Retention)

/-- An upload that fails leaves the objects it stored; a prune fails before it removes anything. -/
def step (srv : Server) (repo : Repo) : Event → Repo
  | .upload job =>
    match exec (upload srv job) { files := repo.files, known := objectIds repo.files } with
    | (.ok m, run) => ⟨run.files, ⟨job.name, m, job.data⟩ :: repo.taken⟩
    | (.error _, run) => { repo with files := run.files }
  | .prune retention =>
    match prune srv retention repo.files with
    | .ok files => { repo with files }
    | .error _ => repo

/-- A repository after uploads and prunes, from an empty one. -/
def backups (srv : Server) (es : List Event) : Repo := es.foldl (step srv) {}

/-- The snapshot of a name: the last that was written under it. -/
def Repo.takenAs (repo : Repo) (name : String) : Option Taken :=
  repo.taken.find? fun t => t.name == name

/-- The object is in its place. -/
def Stored (files : Files) (id : String) : Prop := (Path.object (idPrefix id) id) ∈ files

/-- What is stored under an id encodes content of that id. -/
def Objects (srv : Server) (C : Bytes → Prop) (files : Files) : Prop :=
  ∀ pre id object, files.lookup (.object pre id) = some object →
    ∃ nonce content, C content ∧ srv.idFor content = id ∧
      object = srv.p.encode srv.codec nonce content

/-- The manifest says what the snapshot was made of. -/
structure Taken.Describes (srv : Server) (t : Taken) : Prop where
  format : t.manifest.format = 1
  version : t.manifest.version = srv.version
  name : t.manifest.name = some t.name
  database : t.manifest.database = (srv.chunksOf t.data.database).map srv.idFor
  blobs : t.manifest.blobs = t.data.blobs.map srv.p.hashOf
  files : t.manifest.files = t.data.others.map fun f => ⟨f.1, srv.idFor f.2, f.2.length⟩

/-- **The invariant**, for contents `C`. -/
structure Honest (srv : Server) (C : Bytes → Prop) (repo : Repo) : Prop where
  objects : Objects srv C repo.files
  /-- A snapshot that is there describes what was taken under its name, and what it needs is there. -/
  snapshots : ∀ name ∈ Bytewise.snapshots repo.files, ∃ t nonce, repo.takenAs name = some t ∧
    repo.files.lookup (.snapshot name) = some (srv.p.encode srv.codec nonce (srv.toJson t.manifest)) ∧
    t.Describes srv ∧
    ∀ content ∈ t.data.contents srv, C content ∧ Stored repo.files (srv.idFor content)

variable {srv : Server} {C : Bytes → Prop}

theorem honest_empty : Honest srv C {} where
  objects := by
    intro pre id object h
    simp at h
  snapshots := by
    intro name h
    simp [Bytewise.snapshots] at h

/-- The ids of what a directory stores are the ids its manifest wants. -/
theorem Taken.Describes.wanted {t : Taken} (h : t.Describes srv) :
    srv.wanted t.manifest = (t.data.contents srv).map srv.idFor := by
  unfold Server.wanted DataDir.contents
  rw [h.database, h.blobs, h.files]
  simp [List.map_map, Function.comp_def, Server.idFor, Primitives.idFor]

/-! ## 4. Uploads and prunes -/

section Upload

variable {job : Job} {run : Run} {content : Bytes}

/-- More objects, and the same snapshots. -/
structure Grown (files files' : Files) : Prop where
  stored : ∀ id, Stored files id → Stored files' id
  snapshots : ∀ name, files'.lookup (.snapshot name) = files.lookup (.snapshot name)

theorem Grown.refl (files : Files) : Grown files files := ⟨fun _ h => h, fun _ => rfl⟩

theorem Grown.trans {a b c : Files} (h : Grown a b) (h' : Grown b c) : Grown a c :=
  ⟨fun id hid => h'.stored id (h.stored id hid), fun name => (h'.snapshots name).trans (h.snapshots name)⟩

/-- An upload under way: what is stored is right, and what is known is stored. -/
structure Good (srv : Server) (C : Bytes → Prop) (run : Run) : Prop where
  objects : Objects srv C run.files
  known : ∀ id ∈ run.known, Stored run.files id

theorem idPrefix_eq {pre id : String} (hpre : isIdPrefix pre = true)
    (h : pre.toList.isPrefixOf id.toList = true) : pre = idPrefix id := by
  have hlen : pre.toList.length = 2 := by
    simpa using (Bool.and_eq_true_iff.1 hpre).1
  have htake := List.prefix_iff_eq_take.1 (List.isPrefixOf_iff_prefix.1 h)
  rw [hlen] at htake
  unfold idPrefix
  rw [← htake, String.ofList_toList]

theorem stored_of_mem_objectIds {files : Files} {id : String} (h : id ∈ objectIds files) :
    Stored files id := by
  obtain ⟨path, hpath, hid⟩ := List.mem_filterMap.1 h
  cases path with
  | snapshot name => simp at hid
  | object pre name =>
    simp only [Option.ite_none_right_eq_some, Bool.and_eq_true, Option.some.injEq] at hid
    obtain ⟨⟨⟨hpre, -⟩, hprefix⟩, rfl⟩ := hid
    rw [idPrefix_eq hpre hprefix] at hpath
    exact AList.mem_keys.1 hpath

theorem pathOf_ok {id : String} (h : isId id = true) : pathOf id = .ok (.object (idPrefix id) id) := by
  unfold pathOf
  rw [if_pos h]

theorem isId_idFor (content : Bytes) : isId (srv.idFor content) = true := srv.p.isId_idFor _ _

/-- Storing an object of an id encodes content of that id. -/
theorem Good.insert (h : Good srv C run) (hC : C content) (nonce : Nonce) {drawn uploaded : Nat} :
    Good srv C
      { files := run.files.insert (.object (idPrefix (srv.idFor content)) (srv.idFor content))
          (srv.p.encode srv.codec nonce content)
        known := srv.idFor content :: run.known, drawn, uploaded } where
  objects := by
    intro pre id object hlook
    by_cases hpath : Path.object pre id = .object (idPrefix (srv.idFor content)) (srv.idFor content)
    · rw [hpath, AList.lookup_insert] at hlook
      cases hlook
      cases hpath
      exact ⟨nonce, content, hC, rfl, rfl⟩
    · rw [AList.lookup_insert_ne hpath] at hlook
      exact h.objects pre id object hlook
  known := by
    intro id hid
    refine (AList.mem_insert _).2 ?_
    rcases List.mem_cons.1 hid with rfl | hid
    · exact .inl rfl
    · exact .inr (h.known id hid)

theorem ends_put (h : Good srv C run) (hC : C content) :
    Ends (put srv job content) run (fun id run' => id = srv.idFor content ∧ Good srv C run' ∧
      Grown run.files run'.files ∧ Stored run'.files (srv.idFor content)) fun _ => False := by
  unfold put
  refine Ends.bind (Q := fun a s => run = a ∧ run = s) ⟨rfl, rfl⟩ ?_
  rintro _ _ ⟨rfl, rfl⟩
  simp only
  split
  · rename_i hknown
    exact .pure ⟨rfl, h, .refl _, h.known _ hknown⟩
  · rw [pathOf_ok (isId_idFor content)]
    have hgrown : Grown run.files
        (run.files.insert (.object (idPrefix (srv.idFor content)) (srv.idFor content))
          (srv.p.encode srv.codec (job.nonces run.drawn) content)) :=
      ⟨fun id hid => (AList.mem_insert _).2 (.inr hid),
        fun name => AList.lookup_insert_ne Path.noConfusion⟩
    exact ⟨rfl, h.insert hC _, hgrown, (AList.mem_insert _).2 (.inl rfl)⟩

theorem ends_putBlob (h : Good srv C run) (hC : C content) :
    Ends (putBlob srv job content) run (fun hash run' => hash = srv.p.hashOf content ∧ Good srv C run' ∧
      Grown run.files run'.files ∧ Stored run'.files (srv.idFor content)) fun _ => False := by
  unfold putBlob
  refine Ends.bind (Q := fun a s => run = a ∧ run = s) ⟨rfl, rfl⟩ ?_
  rintro _ _ ⟨rfl, rfl⟩
  simp only
  split
  · rename_i hknown
    exact .pure ⟨rfl, h, .refl _, h.known _ hknown⟩
  · refine (ends_put h hC).bind ?_
    rintro id run' ⟨rfl, hgood, hgrown, hstored⟩
    rw [if_neg (by simp [Server.idFor, Primitives.idFor])]
    exact .pure ⟨rfl, hgood, hgrown, hstored⟩

theorem ends_putFile {file : String × Bytes} (h : Good srv C run) (hC : C file.2) :
    Ends (putFile srv job file) run (fun entry run' => entry = ⟨file.1, srv.idFor file.2, file.2.length⟩ ∧
      Good srv C run' ∧ Grown run.files run'.files ∧ Stored run'.files (srv.idFor file.2))
      fun _ => False := by
  refine (ends_put h hC).bind ?_
  rintro id run' ⟨rfl, hrest⟩
  exact .pure ⟨rfl, hrest⟩

/-- A loop that stores one content after the other. -/
theorem ends_loop {α β : Type} {f : α → Tx Error Run β} {g : α → β} {contentOf : α → Bytes}
    (hf : ∀ a run, Good srv C run → C (contentOf a) →
      Ends (f a) run (fun b run' => b = g a ∧ Good srv C run' ∧ Grown run.files run'.files ∧
        Stored run'.files (srv.idFor (contentOf a))) fun _ => False)
    (l : List α) (hC : ∀ a ∈ l, C (contentOf a)) (h : Good srv C run) :
    Ends (l.mapM f) run (fun bs run' => bs = l.map g ∧ Good srv C run' ∧ Grown run.files run'.files ∧
      ∀ a ∈ l, Stored run'.files (srv.idFor (contentOf a))) fun _ => False := by
  induction l generalizing run with
  | nil =>
    rw [List.mapM_nil]
    exact .pure ⟨rfl, h, .refl _, fun a ha => absurd ha (by simp)⟩
  | cons a l ih =>
    rw [List.mapM_cons]
    refine (hf a run h (hC a List.mem_cons_self)).bind ?_
    rintro b run₁ ⟨rfl, hgood, hgrown, hstored⟩
    refine (ih (fun a' ha' => hC a' (List.mem_cons_of_mem _ ha')) hgood).bind ?_
    rintro bs run₂ ⟨rfl, hgood', hgrown', hstored'⟩
    refine .pure ⟨rfl, hgood', hgrown.trans hgrown', fun a' ha' => ?_⟩
    rcases List.mem_cons.1 ha' with rfl | ha'
    · exact hgrown'.stored _ hstored
    · exact hstored' a' ha'

/-- What an upload leaves behind. -/
structure Uploaded (srv : Server) (C : Bytes → Prop) (job : Job) (files : Files) (m : Manifest)
    (files' : Files) : Prop where
  objects : Objects srv C files'
  stored : ∀ id, Stored files id → Stored files' id
  describes : (⟨job.name, m, job.data⟩ : Taken).Describes srv
  new : ∀ content ∈ job.data.contents srv, Stored files' (srv.idFor content)
  snapshot : ∃ nonce, files'.lookup (.snapshot job.name) =
    some (srv.p.encode srv.codec nonce (srv.toJson m))
  snapshots : ∀ name, name ≠ job.name → files'.lookup (.snapshot name) = files.lookup (.snapshot name)

theorem ends_upload (h : Good srv C run) (hC : ∀ content ∈ job.data.contents srv, C content) :
    Ends (upload srv job) run (fun m run' => Uploaded srv C job run.files m run'.files)
      fun _ => False := by
  have hcontents : ∀ content, content ∈ srv.chunksOf job.data.database ∨ content ∈ job.data.blobs ∨
      content ∈ job.data.others.map (·.2) → C content := by
    intro content hmem
    refine hC content ?_
    simpa [DataDir.contents, or_assoc] using hmem
  unfold upload
  refine (@ends_loop _ _ _ _ _ _ _ id (fun _ _ => ends_put) _ (fun c hc => hcontents c (.inl hc)) h).bind ?_
  rintro database run₁ ⟨rfl, hgood₁, hgrown₁, hstored₁⟩
  refine (@ends_loop _ _ _ _ _ _ _ id (fun _ _ => ends_putBlob) _
    (fun c hc => hcontents c (.inr (.inl hc))) hgood₁).bind ?_
  rintro blobs run₂ ⟨rfl, hgood₂, hgrown₂, hstored₂⟩
  refine (@ends_loop _ _ _ _ _ _ _ Prod.snd (fun _ _ => ends_putFile) _
    (fun f hf => hcontents f.2 (.inr (.inr (List.mem_map_of_mem hf)))) hgood₂).bind ?_
  rintro files run₃ ⟨rfl, hgood₃, hgrown₃, hstored₃⟩
  refine Ends.bind (Q := fun a s => run₃ = a ∧ run₃ = s) ⟨rfl, rfl⟩ ?_
  rintro _ _ ⟨rfl, rfl⟩
  have hup := (hgrown₁.trans hgrown₂).trans hgrown₃
  have hins : ∀ {id : String} {object : Bytes}, Stored run₃.files id →
      Stored (run₃.files.insert (.snapshot job.name) object) id :=
    fun hid => (AList.mem_insert _).2 (.inr hid)
  refine (?_ : Uploaded srv C job run.files _ _)
  refine ⟨?_, fun id hid => hins (hup.stored id hid), ⟨rfl, rfl, rfl, rfl, rfl, rfl⟩, ?_,
    ⟨_, AList.lookup_insert _⟩, ?_⟩
  · intro pre id object hlook
    rw [AList.lookup_insert_ne (by simp)] at hlook
    exact hgood₃.objects pre id object hlook
  · intro content hmem
    refine hins ?_
    simp only [DataDir.contents, List.mem_append, List.mem_map] at hmem
    rcases hmem with (hmem | hmem) | ⟨f, hmem, rfl⟩
    · exact hgrown₃.stored _ (hgrown₂.stored _ (hstored₁ content hmem))
    · exact hgrown₃.stored _ (hstored₂ content hmem)
    · exact hstored₃ f hmem
  · intro name hname
    rw [AList.lookup_insert_ne (by simpa using hname)]
    exact hup.snapshots name

end Upload

theorem mem_snapshots {files : Files} {name : String} : name ∈ snapshots files ↔
    (Path.snapshot name ∈ files ∧ Storage.isListed name = true) ∧ isSnapshotName name = true := by
  unfold snapshots
  rw [List.mem_insertionSort, List.mem_filter, List.mem_filterMap]
  refine and_congr_left fun _ => ?_
  constructor
  · rintro ⟨path, hpath, heq⟩
    cases path with
    | snapshot n =>
      simp only [Option.ite_none_right_eq_some, Option.some.injEq] at heq
      obtain ⟨hlisted, rfl⟩ := heq
      exact ⟨AList.mem_keys.1 hpath, hlisted⟩
    | object pre id => cases heq
  · rintro ⟨hmem, hlisted⟩
    exact ⟨.snapshot name, AList.mem_keys.2 hmem, by simp [hlisted]⟩

section Prune

variable {retention : Retention} {files files' : Files}

/-- What a prune leaves: nothing new, and of a snapshot that stays everything it wants. -/
structure Pruned (srv : Server) (files files' : Files) : Prop where
  old : ∀ path object, files'.lookup path = some object → files.lookup path = some object
  stays : ∀ name ∈ snapshots files', ∀ m, manifest srv (fun path => files.lookup path) name = .ok m →
    ∀ id ∈ srv.wanted m, Stored files id → Stored files' id

theorem mem_of_lookup {path : Path} {object : Bytes} (h : files.lookup path = some object) : path ∈ files :=
  AList.lookup_isSome.1 (by rw [h]; rfl)

theorem lookup_dropSnapshots (kept : List Nat) (manifests : List (String × Manifest)) (path : Path) :
    (dropSnapshots kept manifests files).lookup path =
      if ∃ e ∈ manifests.zipIdx.filter (fun e : (String × Manifest) × Nat => decide (e.2 ∉ kept)),
        Path.snapshot e.1.1 = path then none
      else files.lookup path :=
  Dict.lookup_foldl_erase _ _ _ _

theorem lookup_dropObjects (needed : List String) (path : Path) :
    (dropObjects needed files).lookup path =
      if ∃ id ∈ (objectIds files).filter (fun id => decide (id ∉ needed)),
        Path.object (idPrefix id) id = path then none
      else files.lookup path :=
  Dict.lookup_foldl_erase _ _ _ _

/-- A snapshot that is left after its turn stands at a kept place, and what it wants is needed. -/
theorem wanted_of_left {kept : List Nat} {manifests : List (String × Manifest)}
    (hread : List.Forall₂ (fun name e => (do
      return (name, ← manifest srv (fun path => files.lookup path) name) : Except Error _) = .ok e)
      (snapshots files) manifests) {name : String} (hold : name ∈ snapshots files)
    (hleft : Path.snapshot name ∈ dropSnapshots kept manifests files) {m : Manifest}
    (hm : manifest srv (fun path => files.lookup path) name = .ok m) :
    ∀ id ∈ srv.wanted m, id ∈ neededBy srv kept manifests := by
  obtain ⟨i, hi, hget⟩ := List.getElem_of_mem hold
  have hi' : i < manifests.length := hread.length_eq ▸ hi
  have hat := List.Forall₂.get hread hi hi'
  simp only [List.get_eq_getElem, hget] at hat
  obtain ⟨m', hm', hpair⟩ := Tx.except_bind_ok hat
  cases hm'.symm.trans hm
  have hpair : manifests[i] = (name, m) := (Except.ok.inj hpair).symm
  have hzip : (manifests[i], i) ∈ manifests.zipIdx := by
    rw [List.mem_zipIdx_iff_getElem?]
    exact List.getElem?_eq_getElem hi'
  rw [hpair] at hzip
  by_cases hkept : i ∈ kept
  · exact fun id hid => List.mem_flatMap.2 ⟨_, List.mem_filter.2 ⟨hzip, by simpa using hkept⟩, hid⟩
  · have hnone := @lookup_dropSnapshots files kept manifests (.snapshot name)
    rw [if_pos ⟨_, List.mem_filter.2 ⟨hzip, by simpa using hkept⟩, rfl⟩] at hnone
    have := AList.lookup_isSome.2 hleft
    rw [hnone] at this
    cases this

theorem pruned_of_prune (h : prune srv retention files = .ok files') : Pruned srv files files' := by
  unfold prune at h
  obtain ⟨manifests, hloop, h⟩ := Tx.except_bind_ok h
  have hread := Tx.except_mapM_ok hloop
  generalize keep (manifests.map (·.2.createdAt)) retention = kept at h
  have hfirst : ∀ path object, (dropSnapshots kept manifests files).lookup path = some object →
      files.lookup path = some object := by
    intro path object hlook
    rw [lookup_dropSnapshots] at hlook
    split at hlook
    · cases hlook
    · exact hlook
  have hobject : ∀ pre id, (dropSnapshots kept manifests files).lookup (.object pre id) =
      files.lookup (.object pre id) := by
    intro pre id
    rw [lookup_dropSnapshots, if_neg]
    rintro ⟨e, -, heq⟩
    cases heq
  have hstored : ∀ {id}, Stored files id → Stored (dropSnapshots kept manifests files) id := by
    intro id hid
    refine AList.lookup_isSome.1 ?_
    rw [hobject]
    exact AList.lookup_isSome.2 hid
  simp only at h
  split at h
  · cases h
    exact ⟨hfirst, fun name hname m hm id hid => hstored⟩
  · cases h
    refine ⟨?_, ?_⟩
    · intro path object hlook
      rw [lookup_dropObjects] at hlook
      split at hlook
      · cases hlook
      · exact hfirst path object hlook
    · intro name hname m hm id hid hid'
      obtain ⟨⟨hmem, hlisted⟩, hsnap⟩ := mem_snapshots.1 hname
      have hleft : Path.snapshot name ∈ dropSnapshots kept manifests files := by
        have := AList.lookup_isSome.2 hmem
        rw [lookup_dropObjects, if_neg] at this
        · exact AList.lookup_isSome.1 this
        · rintro ⟨_, -, heq⟩
          cases heq
      obtain ⟨object, hlook⟩ := Option.isSome_iff_exists.1 (AList.lookup_isSome.2 hleft)
      have hold : name ∈ snapshots files :=
        mem_snapshots.2 ⟨⟨mem_of_lookup (hfirst _ _ hlook), hlisted⟩, hsnap⟩
      have hneeded := wanted_of_left hread hold hleft hm id hid
      refine AList.lookup_isSome.1 ?_
      rw [lookup_dropObjects, if_neg]
      · exact AList.lookup_isSome.2 (hstored hid')
      · rintro ⟨id', hunneeded, heq⟩
        obtain ⟨-, rfl⟩ := Path.object.inj heq
        have := (List.mem_filter.1 hunneeded).2
        simp only [decide_eq_true_eq] at this
        exact this hneeded

end Prune

/-- A manifest that is read is the one that was written. -/
theorem manifest_eq {storage : Reads} {name : String} {nonce : Nonce} {m m' : Manifest}
    (hstored : storage (.snapshot name) = some (srv.p.encode srv.codec nonce (srv.toJson m)))
    (h : manifest srv storage name = .ok m') : m' = m := by
  unfold manifest at h
  split at h
  · cases h
  obtain ⟨found, hread, h⟩ := Tx.except_bind_ok h
  unfold read at hread
  rw [hstored] at hread
  simp only at hread
  split at hread
  · cases hread
  cases hread
  obtain ⟨json, hjson, h⟩ := Tx.except_bind_ok h
  rw [srv.p.decode_encode] at hjson
  split at hjson
  · cases hjson
  cases hjson
  rw [srv.fromJson_toJson] at h
  simp only at h
  split at h
  · cases h
  · cases h
    rfl

/-- What events bring into the repository. -/
def stored (srv : Server) (es : List Event) : List Bytes :=
  es.flatMap fun
    | .upload job => job.data.contents srv
    | .prune _ => []

theorem step_upload {repo : Repo} {job : Job} {m : Manifest} {run : Run}
    (h : exec (upload srv job) { files := repo.files, known := objectIds repo.files } = (.ok m, run)) :
    step srv repo (.upload job) = ⟨run.files, ⟨job.name, m, job.data⟩ :: repo.taken⟩ := by
  unfold step
  simp only [h]

/-- An upload to an honest storage ends well. -/
theorem Honest.upload {repo : Repo} (h : Honest srv C repo) {job : Job}
    (hC : ∀ content ∈ job.data.contents srv, C content) :
    ∃ m files, Uploaded srv C job repo.files m files ∧
      step srv repo (.upload job) = ⟨files, ⟨job.name, m, job.data⟩ :: repo.taken⟩ := by
  have hgood : Good srv C { files := repo.files, known := objectIds repo.files } :=
    ⟨h.objects, fun id hid => stored_of_mem_objectIds hid⟩
  have hends := @ends_upload _ _ job _ hgood hC
  unfold Ends at hends
  rcases hexec : exec (Bytewise.upload srv job)
    { files := repo.files, known := objectIds repo.files } with ⟨r, run⟩
  rw [hexec] at hends
  cases r with
  | error e => exact absurd hends id
  | ok m => exact ⟨m, run.files, hends, step_upload hexec⟩

theorem Honest.step {repo : Repo} (h : Honest srv C repo) {e : Event}
    (hC : ∀ content ∈ stored srv [e], C content) : Honest srv C (step srv repo e) := by
  cases e with
  | upload job =>
    have hjob : ∀ content ∈ job.data.contents srv, C content := fun content hmem =>
      hC content (List.mem_flatMap.2 ⟨_, List.mem_singleton_self _, hmem⟩)
    obtain ⟨m, files, hup, heq⟩ := h.upload hjob
    rw [heq]
    refine ⟨hup.objects, fun name hname => ?_⟩
    by_cases heq : name = job.name
    · subst heq
      obtain ⟨nonce, hsnapshot⟩ := hup.snapshot
      exact ⟨⟨job.name, m, job.data⟩, nonce, by simp [Repo.takenAs], hsnapshot, hup.describes,
        fun content hmem => ⟨hjob content hmem, hup.new content hmem⟩⟩
    · have hold : name ∈ Bytewise.snapshots repo.files := by
        obtain ⟨⟨hmem, hlisted⟩, hsnap⟩ := mem_snapshots.1 hname
        have := AList.lookup_isSome.2 hmem
        rw [hup.snapshots name heq] at this
        exact mem_snapshots.2 ⟨⟨AList.lookup_isSome.1 this, hlisted⟩, hsnap⟩
      obtain ⟨t, nonce, ht, hlook, hdesc, hstored⟩ := h.snapshots name hold
      refine ⟨t, nonce, ?_, (hup.snapshots name heq).trans hlook, hdesc,
        fun content hmem => ⟨(hstored content hmem).1, hup.stored _ (hstored content hmem).2⟩⟩
      rw [← ht]
      simp [Repo.takenAs, Ne.symm heq]
  | prune retention =>
    unfold Bytewise.step
    simp only
    cases hprune : prune srv retention repo.files with
    | error e => exact h
    | ok files =>
      have hp := pruned_of_prune hprune
      refine ⟨fun pre id object hlook => h.objects pre id object (hp.old _ _ hlook), fun name hname => ?_⟩
      obtain ⟨⟨hmem, hlisted⟩, hsnap⟩ := mem_snapshots.1 hname
      obtain ⟨object, hlook⟩ := Option.isSome_iff_exists.1 (AList.lookup_isSome.2 hmem)
      have hold := hp.old _ _ hlook
      obtain ⟨t, nonce, ht, hlook', hdesc, hstored⟩ :=
        h.snapshots name (mem_snapshots.2 ⟨⟨mem_of_lookup hold, hlisted⟩, hsnap⟩)
      cases hlook'.symm.trans hold
      refine ⟨t, nonce, ht, hlook, hdesc, fun content hcontent => ?_⟩
      obtain ⟨m, hm⟩ : ∃ m, manifest srv (fun path => repo.files.lookup path) name = .ok m := by
        obtain ⟨manifests, hloop, -⟩ := Tx.except_bind_ok hprune
        have hread := Tx.except_mapM_ok hloop
        obtain ⟨i, hi, hget⟩ :=
          List.getElem_of_mem (mem_snapshots.2 ⟨⟨mem_of_lookup hold, hlisted⟩, hsnap⟩)
        have hat := List.Forall₂.get hread hi (by rw [← hread.length_eq]; exact hi)
        simp only [List.get_eq_getElem, hget] at hat
        obtain ⟨m, hm, -⟩ := Tx.except_bind_ok hat
        exact ⟨m, hm⟩
      refine ⟨(hstored content hcontent).1, hp.stays name hname m hm _ ?_ (hstored content hcontent).2⟩
      rw [manifest_eq hold hm, hdesc.wanted]
      exact List.mem_map_of_mem hcontent

theorem honest_backups {es : List Event} (hC : ∀ content ∈ stored srv es, C content) :
    Honest srv C (backups srv es) := by
  have hfold : ∀ (es : List Event) (repo : Repo), Honest srv C repo →
      (∀ content ∈ stored srv es, C content) → Honest srv C (es.foldl (Bytewise.step srv) repo) := by
    intro es
    induction es with
    | nil => exact fun repo h _ => h
    | cons e es ih =>
      intro repo h hC
      refine ih _ (h.step fun content hmem => hC content ?_) fun content hmem => hC content ?_
      · simp only [stored, List.flatMap_cons, List.flatMap_nil, List.append_nil] at hmem ⊢
        exact List.mem_append_left _ hmem
      · exact List.mem_append_right _ hmem
  exact hfold es {} honest_empty hC

/-! ## 5. The restore -/

/-- No two of the contents share an id. -/
def Distinct (srv : Server) (C : Bytes → Prop) : Prop :=
  ∀ content content', C content → C content' → srv.idFor content = srv.idFor content' → content = content'

variable {content : Bytes}

/-- **An object that is there is read back**, up to the limit. -/
theorem get_eq {files : Files} (hobjects : Objects srv C files) (hd : Distinct srv C)
    (hC : C content) (hstored : Stored files (srv.idFor content)) (limit : Nat) :
    content.length ≤ limit ∧ get srv (fun path => files.lookup path) (srv.idFor content) limit = .ok content ∨
      content.length > limit ∧
        ∀ answer, get srv (fun path => files.lookup path) (srv.idFor content) limit ≠ .ok answer := by
  obtain ⟨object, hlook⟩ := Option.isSome_iff_exists.1 (AList.lookup_isSome.2 hstored)
  obtain ⟨nonce, content', hC', hid, rfl⟩ := hobjects _ _ _ hlook
  obtain rfl := hd content' content hC' hC hid
  have hlen := srv.p.encode_length srv.codec nonce content'
  unfold get read
  rw [pathOf_ok (isId_idFor content')]
  simp only [bind, Except.bind, hlook]
  by_cases hlimit : content'.length ≤ limit
  · left
    refine ⟨hlimit, ?_⟩
    rw [if_neg (by unfold objectOverhead; omega)]
    simp only [srv.p.decode_encode]
    rw [if_neg (by omega)]
    simp
  · right
    refine ⟨by omega, fun answer hanswer => ?_⟩
    by_cases hbig : (srv.p.encode srv.codec nonce content').length > limit + objectOverhead
    · rw [if_pos hbig] at hanswer
      cases hanswer
    · rw [if_neg hbig] at hanswer
      simp only [srv.p.decode_encode] at hanswer
      rw [if_pos (by omega)] at hanswer
      cases hanswer

theorem get_ok {files : Files} (hobjects : Objects srv C files) (hd : Distinct srv C)
    (hC : C content) (hstored : Stored files (srv.idFor content)) {limit : Nat}
    (hlimit : content.length ≤ limit) :
    get srv (fun path => files.lookup path) (srv.idFor content) limit = .ok content := by
  rcases get_eq hobjects hd hC hstored limit with ⟨-, h⟩ | ⟨h, -⟩
  · exact h
  · omega

section Dirs

/-- The files of a directory. -/
def Holds (dir : Dir) (es : List (String × Bytes)) : Prop :=
  ∀ path content, dir.lookup path = some content ↔ (path, content) ∈ es

/-- No path stands for two contents. -/
def Functional (es : List (String × Bytes)) : Prop := ∀ e ∈ es, ∀ e' ∈ es, e.1 = e'.1 → e = e'

theorem Functional.sublist {es es' : List (String × Bytes)} (h : Functional es) (hsub : es' ⊆ es) :
    Functional es' := fun e he e' he' => h e (hsub he) e' (hsub he')

theorem Holds.insert {dir : Dir} {es : List (String × Bytes)} {path : String}
    (h : Holds dir es) (hf : Functional (es ++ [(path, content)])) :
    Holds (dir.insert path content) (es ++ [(path, content)]) := by
  intro path' content'
  by_cases heq : path' = path
  · subst heq
    rw [AList.lookup_insert]
    constructor
    · intro h
      cases h
      simp
    · intro hmem
      have := hf _ hmem _ (List.mem_append_right _ (List.mem_singleton_self _)) rfl
      cases this
      rfl
  · rw [AList.lookup_insert_ne heq, h path' content']
    simp [heq]

/-- A loop that writes one file after the other. -/
theorem holds_foldlM {α : Type} {f : Dir → α → Except Error Dir} {entry : α → String × Bytes} :
    ∀ (l : List α) (es : List (String × Bytes)) (dir : Dir),
    (∀ a ∈ l, ∀ es dir, Holds dir es → Functional (es ++ [entry a]) →
      ∃ dir', f dir a = .ok dir' ∧ Holds dir' (es ++ [entry a])) →
    Holds dir es → Functional (es ++ l.map entry) →
    ∃ dir', l.foldlM f dir = .ok dir' ∧ Holds dir' (es ++ l.map entry)
  | [], es, dir, _, h, _ => ⟨dir, rfl, by simpa using h⟩
  | a :: l, es, dir, hf, h, hfun => by
    obtain ⟨dir₁, hok, h₁⟩ := hf a List.mem_cons_self es dir h
      (hfun.sublist (by simp [List.subset_def]; tauto))
    obtain ⟨dir₂, hok₂, h₂⟩ := holds_foldlM l (es ++ [entry a]) dir₁
      (fun a' ha' => hf a' (List.mem_cons_of_mem _ ha')) h₁ (by simpa using hfun)
    refine ⟨dir₂, ?_, by simpa using h₂⟩
    rw [List.foldlM_cons, hok]
    exact hok₂

end Dirs

/-- The files of a directory that is written from the backup of another. -/
def DataDir.entries (srv : Server) (data : DataDir) : List (String × Bytes) :=
  (databasePath, data.database) ::
    (data.blobs.map fun content => (blobPath (srv.p.hashOf content), content)) ++ data.others

theorem toList_blobPath (hash : String) : (blobPath hash).toList =
    "blobs/".toList ++ hash.toList.take 2 ++ ['/'] ++ (hash.toList.drop 2).take 2 ++ ['/'] ++
        hash.toList := by
  unfold blobPath
  rw [String.toList_ofList]

theorem isOther_blobPath (hash : String) : isOther (blobPath hash) = false := by
  unfold isOther
  rw [toList_blobPath]
  rfl

theorem blobPath_inj {hash hash' : String} (h : isId hash = true) (h' : isId hash' = true)
    (heq : blobPath hash = blobPath hash') : hash = hash' := by
  have hlen : ∀ {hash : String}, isId hash = true → hash.toList.length = 64 := by
    intro hash h
    simpa using (Bool.and_eq_true_iff.1 h).1
  have hlist := congrArg String.toList heq
  rw [toList_blobPath, toList_blobPath] at hlist
  have := List.append_inj_right' hlist (by rw [hlen h, hlen h'])
  exact String.toList_injective this

theorem blobPath_ne {hash : String} : blobPath hash ≠ partialPath ∧ blobPath hash ≠ databasePath := by
  constructor
  all_goals
    intro h
    have := congrArg (fun s : String => s.toList.head?) h
    simp only [toList_blobPath] at this
    revert this
    simp [partialPath, databasePath]

section Restore

variable {repo : Repo} {t : Taken}

/-- The snapshot of the name is there, with everything its manifest wants. -/
structure Intact (srv : Server) (C : Bytes → Prop) (files : Files) (name : String) (t : Taken) :
    Prop where
  named : isSnapshotName name = true
  same : t.name = name
  describes : t.Describes srv
  stored : ∀ content ∈ t.data.contents srv, C content ∧ Stored files (srv.idFor content)
  manifest : manifest srv (fun path => files.lookup path) name = .ok t.manifest

theorem Honest.intact (h : Honest srv C repo) {name : String} {object : Bytes}
    (hname : name ∈ Bytewise.snapshots repo.files) (ht : repo.takenAs name = some t)
    (hlook : repo.files.lookup (.snapshot name) = some object) (hobject : object.length ≤ manifestMax)
    (hjson : (srv.toJson t.manifest).length ≤ manifestMax) : Intact srv C repo.files name t := by
  obtain ⟨t', nonce, ht', hlook', hdesc, hstored⟩ := h.snapshots name hname
  cases ht'.symm.trans ht
  cases hlook'.symm.trans hlook
  have hsame : t.name = name := by simpa using List.find?_some ht
  have hsnap := (mem_snapshots.1 hname).2
  refine ⟨hsnap, hsame, hdesc, hstored, ?_⟩
  unfold Bytewise.manifest read
  simp only [hsnap, Bool.not_true, Bool.false_eq_true, if_false, hlook, bind, Except.bind]
  rw [if_neg (by omega)]
  simp only [srv.p.decode_encode]
  rw [if_neg (by omega)]
  simp only [srv.fromJson_toJson, hdesc.name, hsame, Option.any_some, bne_self_eq_false,
    Bool.false_eq_true, if_false]

variable {files : Files} {name : String}

theorem functional_entries (h : Intact srv C files name t) (hd : Distinct srv C) :
    Functional ((partialPath, t.data.database) ::
      (t.data.blobs.map fun content => (blobPath (srv.p.hashOf content), content)) ++ t.data.others) := by
  have hother : ∀ f ∈ t.data.others, isOther f.1 = true := fun f hf =>
    t.data.other f (List.mem_filter.1 hf).1
  have hblob : ∀ content ∈ t.data.blobs, C content := fun content hc =>
    (h.stored content (by simp [DataDir.contents, hc])).1
  have hnodup : (t.data.others.map (·.1)).Nodup := t.data.nodup.sublist (List.filter_sublist.map _)
  have hunfinished : isOther partialPath = false := by decide
  intro e he e' he' heq
  simp only [List.cons_append, List.mem_cons, List.mem_append, List.mem_map] at he he'
  rcases he with rfl | ⟨c, hc, rfl⟩ | he <;> rcases he' with rfl | ⟨c', hc', rfl⟩ | he'
  · rfl
  · exact absurd heq.symm blobPath_ne.1
  · have := hother e' he'
    rw [← heq, hunfinished] at this
    cases this
  · exact absurd heq blobPath_ne.1
  · have hhash := blobPath_inj (srv.p.isId_hashOf c) (srv.p.isId_hashOf c') heq
    have : srv.idFor c = srv.idFor c' := by
      unfold Server.idFor Primitives.idFor
      rw [hhash]
    rw [hd c c' (hblob c hc) (hblob c' hc') this]
  · have := hother e' he'
    rw [← heq, isOther_blobPath] at this
    cases this
  · have := hother e he
    rw [heq, hunfinished] at this
    cases this
  · have := hother e he
    rw [heq, isOther_blobPath] at this
    cases this
  · exact List.inj_on_of_nodup_map hnodup he he' heq

/-- The loop over the blobs, one of them. -/
theorem restoreBlob_ok (hobjects : Objects srv C files) (hd : Distinct srv C)
    (hC : C content) (hstored : Stored files (srv.idFor content)) (hlimit : content.length ≤ blobMax)
    {es : List (String × Bytes)} {dir : Dir} (hdir : Holds dir es)
    (hblobs : ∀ content', (blobPath (srv.p.hashOf content), content') ∈ es → content' = content)
    (hf : Functional (es ++ [(blobPath (srv.p.hashOf content), content)])) :
    ∃ dir', restoreBlob srv (fun path => files.lookup path) dir (srv.p.hashOf content) = .ok dir' ∧
      Holds dir' (es ++ [(blobPath (srv.p.hashOf content), content)]) := by
  unfold restoreBlob
  rw [srv.p.isId_hashOf content]
  simp only [Bool.not_true, Bool.false_eq_true, if_false]
  split
  · -- it is in place already
    rename_i halready
    refine ⟨dir, rfl, fun path c => ?_⟩
    obtain ⟨c', hc', -⟩ := (Option.any_eq_true _ _).1 halready
    have hmem := (hdir _ _).1 hc'
    obtain rfl := hblobs _ hmem
    rw [hdir path c, List.mem_append, List.mem_singleton]
    exact ⟨Or.inl, fun h => h.elim id fun heq => heq ▸ hmem⟩
  · have hget : get srv (fun path => files.lookup path)
        (srv.p.idForHash srv.codec (srv.p.hashOf content)) blobMax = .ok content :=
      get_ok hobjects hd hC hstored hlimit
    rw [hget]
    simp only [bind, Except.bind, ne_eq, not_true_eq_false, if_false]
    exact ⟨_, rfl, hdir.insert hf⟩

/-- **An intact snapshot is restored**, when none of its blobs is beyond the limit. -/
theorem restore_ok (hobjects : Objects srv C files) (hd : Distinct srv C) (h : Intact srv C files name t)
    (hlimit : ∀ content ∈ t.data.blobs, content.length ≤ blobMax) :
    ∃ dir, restore srv (fun path => files.lookup path) name ∅ = .ok dir ∧
      Holds dir (t.data.entries srv) := by
  have hfits : fitsThisServer srv t.manifest = .ok ⟨⟩ := by
    unfold fitsThisServer
    rw [h.describes.format, h.describes.version, if_neg (by decide), if_neg (lt_irrefl _)]
  have hchunks : t.manifest.database.mapM (fun id => get srv (fun path => files.lookup path) id chunkMax) =
      .ok (srv.chunksOf t.data.database) := by
    rw [h.describes.database]
    have hall : ∀ chunk ∈ srv.chunksOf t.data.database,
        get srv (fun path => files.lookup path) (srv.idFor chunk) chunkMax = .ok chunk := by
      intro chunk hchunk
      obtain ⟨hC, hstored⟩ := h.stored chunk (by simp [DataDir.contents, hchunk])
      exact get_ok hobjects hd hC hstored (srv.chunksOf_length _ chunk hchunk)
    generalize srv.chunksOf t.data.database = chunks at hall
    induction chunks with
    | nil => rfl
    | cons chunk chunks ih =>
      rw [List.map_cons, List.mapM_cons, hall chunk List.mem_cons_self,
        ih fun c hc => hall c (List.mem_cons_of_mem _ hc)]
      rfl
  have hfun := functional_entries h hd
  have hstart : Holds ((∅ : Dir).insert partialPath t.data.database) [(partialPath, t.data.database)] := by
    have hempty : Holds (∅ : Dir) [] := fun path content => by simp
    exact hempty.insert (by simp [Functional])
  obtain ⟨dir₁, hok₁, hdir₁⟩ := @holds_foldlM _
    (fun dir content => restoreBlob srv (fun path => files.lookup path) dir (srv.p.hashOf content))
    (fun content => (blobPath (srv.p.hashOf content), content))
    t.data.blobs _ _ (fun content hc es dir hes hf => by
      obtain ⟨hC, hstored⟩ := h.stored content (by simp [DataDir.contents, hc])
      refine restoreBlob_ok hobjects hd hC hstored (hlimit content hc) hes (fun content' hmem => ?_) hf
      have := hf _ (List.mem_append_left _ hmem) _ (List.mem_append_right _ (List.mem_singleton_self _)) rfl
      exact congrArg Prod.snd this) hstart
    (hfun.sublist (by simp))
  obtain ⟨dir₂, hok₂, hdir₂⟩ := @holds_foldlM _
    (fun dir file => restoreFile srv (fun path => files.lookup path) dir
      ⟨file.1, srv.idFor file.2, file.2.length⟩)
    (fun file => file)
    t.data.others _ dir₁ (fun file hfile es dir hes hf => by
      obtain ⟨hC, hstored⟩ := h.stored file.2 (by
        simp only [DataDir.contents, List.mem_append]
        exact .inr (List.mem_map_of_mem hfile))
      have hsize : file.2.length ≤ fileMax := by simpa using (List.mem_filter.1 hfile).2
      have hget := get_ok hobjects hd hC hstored (le_min le_rfl hsize)
      unfold restoreFile
      rw [t.data.inside file (List.mem_filter.1 hfile).1]
      simp only [Bool.not_true, Bool.false_eq_true, if_false, hget, bind, Except.bind]
      exact ⟨_, rfl, hes.insert hf⟩) hdir₁ (by simpa using hfun)
  have hunfinished : dir₂.lookup partialPath = some t.data.database := (hdir₂ _ _).2 (by simp)
  refine ⟨(dir₂.erase partialPath).insert databasePath t.data.database, ?_, ?_⟩
  · unfold restore
    simp only [AList.notMem_empty, if_false, h.manifest, hchunks, srv.flatten_chunksOf, bind, Except.bind]
    rw [hfits]
    simp only
    rw [h.describes.blobs, List.foldlM_map, hok₁]
    simp only
    rw [h.describes.files, List.foldlM_map, hok₂]
    simp only [hunfinished]
  · intro path content
    by_cases hdb : path = databasePath
    · subst hdb
      have hno : ∀ c, (databasePath, c) ∉ t.data.others := by
        intro c hc
        have hother : isOther databasePath = true := t.data.other _ (List.mem_filter.1 hc).1
        exact absurd hother (by decide)
      rw [AList.lookup_insert]
      simp only [DataDir.entries, List.cons_append, List.mem_cons, List.mem_append, List.mem_map,
        Prod.mk.injEq, Option.some.injEq, hno, or_false]
      constructor
      · exact fun heq => .inl ⟨trivial, heq.symm⟩
      · rintro (⟨-, rfl⟩ | ⟨c, -, heq, -⟩)
        · rfl
        · exact absurd heq blobPath_ne.2
    · rw [AList.lookup_insert_ne hdb]
      by_cases hpart : path = partialPath
      · subst hpart
        have hno : ∀ c, (partialPath, c) ∉ t.data.others := by
          intro c hc
          have hother : isOther partialPath = true := t.data.other _ (List.mem_filter.1 hc).1
          exact absurd hother (by decide)
        rw [AList.lookup_erase]
        simp only [DataDir.entries, List.cons_append, List.mem_cons, List.mem_append, List.mem_map,
          Prod.mk.injEq, hno, or_false, reduceCtorEq, false_iff, not_or, not_exists, not_and]
        exact ⟨fun heq => absurd heq (by decide), fun c _ heq => absurd heq blobPath_ne.1⟩
      · rw [AList.lookup_erase_ne hpart, hdir₂ path content]
        simp [DataDir.entries, hdb, hpart]

/-- A blob beyond the limit is not restored. -/
theorem restore_refused (hobjects : Objects srv C files) (hd : Distinct srv C) {nonce : Nonce} {m : Manifest}
    {rest : List String}
    (hlook : files.lookup (.snapshot name) = some (srv.p.encode srv.codec nonce (srv.toJson m)))
    (hblobs : m.blobs = srv.p.hashOf content :: rest) (hC : C content)
    (hstored : Stored files (srv.idFor content)) (hbig : content.length > blobMax) (dir : Dir) :
    restore srv (fun path => files.lookup path) name ∅ ≠ .ok dir := by
  intro h
  unfold restore at h
  simp only [AList.notMem_empty, if_false] at h
  obtain ⟨m', hm', h⟩ := Tx.except_bind_ok h
  obtain rfl := manifest_eq hlook hm'
  obtain ⟨-, -, h⟩ := Tx.except_bind_ok h
  obtain ⟨chunks, -, h⟩ := Tx.except_bind_ok h
  obtain ⟨dir₁, hloop, -⟩ := Tx.except_bind_ok h
  rw [hblobs, List.foldlM_cons] at hloop
  obtain ⟨dir₂, hblob, -⟩ := Tx.except_bind_ok hloop
  unfold restoreBlob at hblob
  have hnew : alreadyRestored srv ((∅ : Dir).insert partialPath chunks.flatten)
      (srv.p.hashOf content) = false := by
    unfold alreadyRestored
    rw [AList.lookup_insert_ne blobPath_ne.1]
    simp
  rw [srv.p.isId_hashOf content, hnew] at hblob
  simp only [Bool.not_true, Bool.false_eq_true, if_false] at hblob
  obtain ⟨answer, hget, -⟩ := Tx.except_bind_ok hblob
  rcases get_eq hobjects hd hC hstored blobMax with ⟨hle, -⟩ | ⟨-, hno⟩
  · omega
  · exact hno answer hget

end Restore

/-! ## 6. Round trips -/

/-- Everything the server encoded: what it stored, and the manifests. -/
def written (srv : Server) (es : List Event) : List Bytes :=
  stored srv es ++ (backups srv es).taken.map fun t => srv.toJson t.manifest

/-- What the server makes of the contents. -/
def Made (srv : Server) (C : Bytes → Prop) (object : Bytes) : Prop :=
  ∃ nonce content, C content ∧ object = srv.p.encode srv.codec nonce content

theorem distinct_stored {es : List Event} (hd : Distinct srv (· ∈ written srv es)) :
    Distinct srv (· ∈ stored srv es) :=
  fun content content' hc hc' => hd content content' (List.mem_append_left _ hc) (List.mem_append_left _ hc')

/-- What is read of a storage that answers anything is something the server encoded, of that id. -/
theorem get_made {storage : Reads} {key : Bytes} (hkey : srv.codec.key = some key)
    (hstorage : ∀ path object, storage path = some object → srv.p.Unforged key (Made srv C) object)
    {id : String} {limit : Nat} {answer : Bytes} (h : get srv storage id limit = .ok answer) :
    C answer ∧ srv.idFor answer = id := by
  unfold get at h
  obtain ⟨path, -, h⟩ := Tx.except_bind_ok h
  obtain ⟨found, hread, h⟩ := Tx.except_bind_ok h
  cases found with
  | none => cases h
  | some object =>
    obtain ⟨answer', hdecode, h⟩ := Tx.except_bind_ok h
    split at h
    · cases h
    rename_i hid
    cases h
    refine ⟨?_, not_not.1 hid⟩
    have hstored : storage path = some object := by
      unfold read at hread
      split at hread
      · cases hread
      · rename_i bytes hbytes
        split at hread
        · cases hread
        · cases hread
          exact hbytes
    have hcodec : srv.codec = ⟨some key⟩ := by
      cases hc : srv.codec
      rw [hc] at hkey
      exact congrArg Codec.mk hkey
    rw [hcodec] at hdecode
    obtain ⟨nonce, content, hC, rfl⟩ := srv.p.made_of_decode (hstorage path object hstored) hdecode
    rw [hcodec, srv.p.decode_encode] at hdecode
    split at hdecode
    · cases hdecode
    · cases hdecode
      exact hC

/-- **A backup comes back byte for byte.**  After any uploads and prunes, every snapshot that is
listed restores the database, the blobs and the other files it was made of, when its manifest and
its blobs are within what a restore reads.  And where the repository is encrypted and its storage
answers anything that nobody without the key could make, an object that is accepted under an id is
what was stored under it. -/
theorem backup_round_trip (srv : Server) (es : List Event) (hd : Distinct srv (· ∈ written srv es)) :
    (∀ name ∈ snapshots (backups srv es).files, ∃ t object,
      (backups srv es).takenAs name = some t ∧
      (backups srv es).files.lookup (.snapshot name) = some object ∧
      (object.length ≤ manifestMax → (srv.toJson t.manifest).length ≤ manifestMax →
        (∀ content ∈ t.data.blobs, content.length ≤ blobMax) →
        ∃ dir, restore srv (fun path => (backups srv es).files.lookup path) name ∅ = .ok dir ∧
          ∀ path content, dir.lookup path = some content ↔ (path, content) ∈ t.data.entries srv)) ∧
    ∀ key, srv.codec.key = some key → ∀ storage : Reads,
      (∀ path object, storage path = some object →
        srv.p.Unforged key (Made srv (· ∈ written srv es)) object) →
      ∀ id limit answer, get srv storage id limit = .ok answer →
        (answer ∈ written srv es ∧ srv.idFor answer = id) ∧
          ∀ content ∈ stored srv es, srv.idFor content = id → answer = content := by
  have hhonest : Honest srv (· ∈ stored srv es) (backups srv es) := honest_backups fun _ h => h
  constructor
  · intro name hname
    obtain ⟨t, nonce, ht, hlook, -⟩ := hhonest.snapshots name hname
    refine ⟨t, _, ht, hlook, fun hobject hjson hblobs => ?_⟩
    exact restore_ok hhonest.objects (distinct_stored hd) (hhonest.intact hname ht hlook hobject hjson) hblobs
  · intro key hkey storage hstorage id limit answer h
    obtain ⟨hmade, hid⟩ := get_made hkey hstorage h
    refine ⟨⟨hmade, hid⟩, fun content hcontent hid' => ?_⟩
    exact hd answer content hmade (List.mem_append_left _ hcontent) (hid.trans hid'.symm)

/-! ## 7. Examples -/

/-- Two short contents, and their hashes. -/
def dbBytes : Bytes := utf8 "db"
def hiBytes : Bytes := utf8 "Hi"

/-- SHA-256 of the two, and something for the rest. -/
def someHash (content : Bytes) : Bytes :=
  if content = dbBytes then
    [123, 220, 37, 209, 105, 78, 249, 132, 120, 42, 22, 246, 241, 113, 12, 28, 107, 200, 59, 167, 161, 49,
      181, 21, 186, 245, 50, 190, 160, 33, 208, 17]
  else if content = hiBytes then
    [54, 57, 239, 205, 8, 171, 178, 115, 177, 97, 158, 130, 231, 140, 41, 167, 223, 2, 193, 5, 27, 24, 32,
      233, 159, 195, 149, 220, 170, 51, 38, 184]
  else List.replicate 32 (if content.length = blobMax + 1 then 1 else 0)

/-- Deflate with stored blocks only, and no AEAD. -/
def somePrimitives : Primitives where
  sha256 := someHash
  hmac _ content := someHash content
  deflate content :=
    let len := UInt8.ofNat content.length
    [1, len, 0, 255 - len, 255] ++ content
  inflate stream n := some ((stream.drop 5).take n)
  sealing _ _ _ plain := plain ++ List.replicate 16 0
  opening _ _ _ sealed := some (sealed.take (sealed.length - 16))
  sha256_length content := by
    unfold someHash
    split
    · rfl
    · split
      · rfl
      · exact List.length_replicate
  hmac_length _ content := by
    unfold someHash
    split
    · rfl
    · split
      · rfl
      · exact List.length_replicate
  inflate_deflate content n := by simp
  opening_sealing _ _ _ plain := by simp
  sealing_length _ _ _ plain := by simp

/-- A data directory with one mail in it. -/
def smallDir : DataDir where
  database := dbBytes
  blobs := [hiBytes]
  files := []
  nodup := List.nodup_nil
  inside := by simp
  other := by simp

def smallManifest : Manifest where
  createdAt := 5
  hostname := "mail.example"
  version := "0.16.0"
  database := [hex (someHash dbBytes)]
  databaseSize := 2
  blobs := [hex (someHash hiBytes)]
  blobsSize := 2
  files := []
  uploaded := 8
  name := some "000000000005-abcdef"

/-- The text of the manifest. -/
def smallJson : Bytes := utf8 (
  "\x7b\"format\":1,\"createdAt\":5,\"hostname\":\"mail.example\",\"version\":\"0.16.0\"," ++
  "\"database\":[\"" ++ hex (someHash dbBytes) ++ "\"],\"databaseSize\":2," ++
  "\"blobs\":[\"" ++ hex (someHash hiBytes) ++ "\"],\"blobsSize\":2,\"files\":[],\"uploaded\":8," ++
  "\"name\":\"000000000005-abcdef\"\x7d")

instance encodableChar : Encodable Char := .ofLeftInjection Char.toNat (fun n => some (Char.ofNat n)) (by simp)

instance encodableString : Encodable String := .ofLeftInverse String.toList String.ofList fun s => by simp

instance encodableFileEntry : Encodable FileEntry :=
  .ofLeftInverse (fun f => (f.path, f.id, f.size)) (fun f => ⟨f.1, f.2.1, f.2.2⟩) fun _ => rfl

instance encodableManifest : Encodable Manifest :=
  .ofLeftInverse
    (fun m => (m.format, m.createdAt, m.hostname, m.version, m.database, m.databaseSize, m.blobs,
      m.blobsSize, m.files, m.uploaded, m.name))
    (fun (format, createdAt, hostname, version, database, databaseSize, blobs, blobsSize, files, uploaded,
        name) =>
      ⟨format, createdAt, hostname, version, database, databaseSize, blobs, blobsSize, files, uploaded, name⟩)
    fun _ => rfl

/-- A server without a key. -/
def plainServer : Server where
  p := somePrimitives
  codec := ⟨none⟩
  hostname := "mail.example"
  version := "0.16.0"
  chunksOf content :=
    if content.length ≤ chunkMax then (if content = [] then [] else [content])
    else content.map fun b => [b]
  toJson m := if m = smallManifest then smallJson else 0 :: List.replicate (Encodable.encode m) 0
  fromJson
    | 0 :: rest => Encodable.decode rest.length
    | text => if text = smallJson then some smallManifest else none
  flatten_chunksOf content := by
    split
    · split
      · rename_i h
        rw [h]
        rfl
      · simp
    · rw [← List.flatMap_def]
      exact List.flatMap_singleton' content
  chunksOf_length content chunk h := by
    split at h
    · split at h
      · cases h
      · rw [List.mem_singleton.1 h]
        assumption
    · obtain ⟨b, -, rfl⟩ := List.mem_map.1 h
      simp [chunkMax]
  fromJson_toJson m := by
    by_cases h : m = smallManifest
    · subst h
      decide +kernel
    · simp [h]

/-- The small directory is backed up, and what nobody needs is removed. -/
def smallBackup : List Event :=
  [.upload ⟨smallDir, 5, "abcdef", fun _ => ⟨List.replicate 12 0, rfl⟩⟩, .prune {}]

theorem small_backup_comes_back :
    ∃ dir, restore plainServer (fun path => (backups plainServer smallBackup).files.lookup path)
      "000000000005-abcdef" ∅ = .ok dir ∧ dir.lookup databasePath = some dbBytes ∧
        dir.lookup (blobPath (hex (someHash hiBytes))) = some hiBytes := by
  have hd : ∀ content ∈ written plainServer smallBackup, ∀ content' ∈ written plainServer smallBackup,
      plainServer.idFor content = plainServer.idFor content' → content = content' := by decide +kernel
  obtain ⟨hrestore, -⟩ := backup_round_trip plainServer smallBackup
    fun content content' h h' => hd content h content' h'
  obtain ⟨t, object, ht, hlook, hback⟩ := hrestore "000000000005-abcdef" (by decide +kernel)
  have htaken : ((backups plainServer smallBackup).takenAs "000000000005-abcdef").map
      (fun t => (t.manifest, t.data.database, t.data.blobs)) =
        some (smallManifest, dbBytes, [hiBytes]) := by decide +kernel
  have hsize : ((backups plainServer smallBackup).files.lookup
      (.snapshot "000000000005-abcdef")).all (fun object => object.length ≤ manifestMax) = true := by
    decide +kernel
  rw [hlook] at hsize
  rw [ht] at htaken
  simp only [Option.map_some, Option.some.injEq, Prod.mk.injEq] at htaken
  obtain ⟨hmanifest, hdatabase, hblobs⟩ := htaken
  obtain ⟨dir, hok, hdir⟩ := hback (by simpa using hsize) (by rw [hmanifest]; decide +kernel)
    (by rw [hblobs]; decide)
  refine ⟨dir, hok, (hdir _ _).2 ?_, (hdir _ _).2 ?_⟩
  · simp [DataDir.entries, hdatabase]
  · simp only [DataDir.entries, hblobs]
    exact List.mem_append_left _ (List.mem_cons_of_mem _ (List.mem_singleton_self _))

/-- A mail of one byte more than a restore reads, of zeros. -/
@[irreducible] def bigMail : Bytes := List.replicate (blobMax + 1) 0

theorem length_bigMail : bigMail.length = blobMax + 1 := by
  unfold bigMail
  exact List.length_replicate

def bigDir : DataDir where
  database := []
  blobs := [bigMail]
  files := []
  nodup := List.nodup_nil
  inside := by simp
  other := by simp

def bigJob : Job := ⟨bigDir, 5, "abcdef", fun _ => ⟨List.replicate 12 0, rfl⟩⟩

theorem someHash_bigMail : someHash bigMail = List.replicate 32 1 := by
  have hlen := length_bigMail
  have hshort : ∀ content : Bytes, content.length ≤ 2 → bigMail ≠ content := by
    intro content hle heq
    have hbig : 2 < blobMax := by decide
    rw [heq] at hlen
    omega
  unfold someHash
  rw [if_neg (hshort _ (by decide)), if_neg (hshort _ (by decide)), if_pos hlen]

/-- No manifest has the hash of the big mail without being its zeros. -/
theorem toJson_eq_bigMail {m : Manifest}
    (h : plainServer.p.hashOf (plainServer.toJson m) = plainServer.p.hashOf bigMail) :
    plainServer.toJson m = bigMail := by
  have hhash : hex (someHash (plainServer.toJson m)) = hex (List.replicate 32 1) := by
    rw [← someHash_bigMail]
    exact h
  have hother : ∀ bytes ∈ [someHash dbBytes, someHash hiBytes, List.replicate 32 0, someHash smallJson],
      hex bytes ≠ hex (List.replicate 32 1) := by decide +kernel
  by_cases hm : m = smallManifest
  · have hjson : plainServer.toJson m = smallJson := if_pos hm
    rw [hjson] at hhash
    exact absurd hhash (hother _ (by simp))
  · have hjson : plainServer.toJson m = List.replicate (Encodable.encode m + 1) 0 := if_neg hm
    rw [hjson] at hhash ⊢
    have hzero : ∀ content ∈ [dbBytes, hiBytes], content.head? ≠ some 0 := by decide
    have hne : ∀ content ∈ [dbBytes, hiBytes], List.replicate (Encodable.encode m + 1) 0 ≠ content := by
      intro content hmem heq
      exact hzero content hmem (by rw [← heq]; rfl)
    unfold someHash at hhash
    rw [if_neg (hne _ (by simp)), if_neg (hne _ (by simp))] at hhash
    split at hhash
    · rename_i hlen
      rw [List.length_replicate] at hlen
      unfold bigMail
      rw [hlen]
    · exact absurd hhash (hother _ (by simp))

/-- An upload whose first blob is beyond the limit. -/
theorem upload_refused {job : Job} {rest : List Bytes}
    (hblobs : job.data.blobs = content :: rest) (hbig : content.length > blobMax)
    (hd : Distinct srv (· ∈ job.data.contents srv)) :
    ∃ m files, backups srv [.upload job] = ⟨files, [⟨job.name, m, job.data⟩]⟩ ∧
      Path.snapshot job.name ∈ files ∧
        ∀ dir, restore srv (fun path => files.lookup path) job.name ∅ ≠ .ok dir := by
  have hempty : Honest srv (· ∈ job.data.contents srv) {} := honest_empty
  obtain ⟨m, files, hup, heq⟩ := hempty.upload fun content h => h
  have hmem : content ∈ job.data.contents srv := by simp [DataDir.contents, hblobs]
  obtain ⟨nonce, hsnapshot⟩ := hup.snapshot
  have hhashes : m.blobs = srv.p.hashOf content :: rest.map srv.p.hashOf := by
    have := hup.describes.blobs
    rwa [hblobs] at this
  exact ⟨m, files, heq, mem_of_lookup hsnapshot,
    restore_refused hup.objects hd hsnapshot hhashes hmem (hup.new content hmem) hbig⟩

/-- **A blob beyond what a restore reads does not come back**, though it was backed up. -/
theorem big_blob_is_refused :
    Distinct plainServer (· ∈ written plainServer [.upload bigJob]) ∧
      "000000000005-abcdef" ∈ snapshots (backups plainServer [.upload bigJob]).files ∧
        ∀ dir, restore plainServer (fun path => (backups plainServer [.upload bigJob]).files.lookup path)
          "000000000005-abcdef" ∅ ≠ .ok dir := by
  have hcontents : bigJob.data.contents plainServer = [bigMail] := by
    simp [DataDir.contents, DataDir.others, bigJob, bigDir, plainServer]
  have hwritten : stored plainServer [.upload bigJob] = [bigMail] := by
    simp [stored, hcontents]
  have hname : bigJob.name = "000000000005-abcdef" := by decide
  have hsame : Distinct plainServer (· ∈ bigJob.data.contents plainServer) := by
    rw [hcontents]
    intro content content' h h' _
    rw [List.mem_singleton.1 h, List.mem_singleton.1 h']
  obtain ⟨m, files, heq, hmem, hrefused⟩ :=
    @upload_refused _ _ _ [] rfl (by rw [length_bigMail]; exact Nat.lt_succ_self _) hsame
  rw [hname] at hmem hrefused
  rw [written, heq, hwritten]
  refine ⟨?_, mem_snapshots.2 ⟨⟨hmem, by decide⟩, by decide⟩, hrefused⟩
  intro content content' h h' hid
  simp only [List.map_cons, List.map_nil, List.cons_append, List.nil_append, List.mem_cons,
    List.not_mem_nil, or_false] at h h'
  rcases h with rfl | rfl <;> rcases h' with rfl | rfl
  · rfl
  · exact (toJson_eq_bigMail hid.symm).symm
  · exact toJson_eq_bigMail hid
  · rfl

end UwuMail.Backup.Bytewise
