/-
# A backup beside the running server

`backup` takes a guard that pauses the cleanup of blobs, lists the objects the repository has,
copies the database, uploads the copy in chunks, reads the table of blobs, uploads the blobs the
repository lacks, then the other files, and writes the manifest; `prune` comes last.  The server
goes on in between: every step of `Store.Blobs` can come between any two steps of the backup.

The copy and the table of blobs are read at two DIFFERENT moments.  A blob whose last reference goes
between the two is one the copy refers to and the manifest does not name: `copy_without_blob`.  The
guard does not help, since `blob_hashes` asks for `refs > 0` and not for what is on disk.

The snapshot is closed in every run in which every blob the copy refers to still has a reference
when the table of blobs is read (§4); §3 is the invariant of a run.
-/
import UwuMail.Backup.Prune
import UwuMail.Store.Blobs

namespace UwuMail.Backup.Snapshot

open Tx Trace Blob

/-! ## 1. Restoring a snapshot -/

/-- A copy of the database: the table of blobs, and the rows that refer to blobs. -/
structure Copy where
  rows : List BlobRow
  refs : List RefRow

/-- The server that backs up: its repository, how a copy is cut into chunks (the SHA-256 of each),
and how many bytes content and a manifest have, each as it is and as the object it is stored as.
`StreamCDC` makes no chunk longer than the maximum, and an object is its content, deflated where
that is shorter, with a header, a nonce and a tag. -/
structure Server where
  repo : Repository
  hostname : String
  version : String
  retention : Retention
  chunksOf : Copy → List String
  contentSize : String → Nat
  encodedSize : String → Nat
  jsonSize : Manifest → Nat
  manifestSize : Manifest → Nat
  chunksOf_le : ∀ copy, ∀ sha256 ∈ chunksOf copy, contentSize sha256 ≤ chunkMax
  encodedSize_le : ∀ sha256, encodedSize sha256 ≤ contentSize sha256 + objectOverhead

/-- An object's content, which may be at most `limit` bytes long. -/
def get (srv : Server) (id : String) (limit : Nat) : Tx Error Storage String := do
  let path ← Tx.ofExcept (objectPath id)
  match ← Storage.read path with
  | none => throw (.missing id)
  | some (.content sha256) =>
    if srv.encodedSize sha256 > limit + objectOverhead then throw (.tooBig id (limit + objectOverhead))
    else if srv.contentSize sha256 > limit then throw (.tooBig id limit)
    else if srv.repo.idForHash sha256 = id then pure sha256
    else throw (.mismatch id)
  | some _ => throw (.mismatch id)

/-- A number of a version; what is none counts as 0. -/
def versionNumber (part : List Char) : Nat :=
  let digits := if part.head? = some '+' then part.tail else part
  if digits ≠ [] && digits.all Char.isDigit then
    let value := digits.foldl (fun n c => 10 * n + (c.toNat - '0'.toNat)) 0
    if value < 2 ^ 64 then value else 0
  else 0

/-- The leading `major.minor.patch` of a version. -/
def releaseOrder (version : String) : List Nat :=
  let numbers := ((version.toList.takeWhile (· != '-')).splitOn '.').map versionNumber
  (numbers ++ [0, 0, 0]).take 3

/-- Whether this build can put a snapshot back. -/
def fitsThisServer (ours : String) (m : Manifest) : Bool :=
  decide (m.format ≤ 1) && !decide (releaseOrder ours < releaseOrder m.version)

/-- Whether a file's path has only ordinary names in it. -/
def staysInside (path : String) : Bool :=
  let parts := path.toList.splitOn '/'
  path.toList.head? != some '/' && parts.head? != some ['.'] && parts.all (· != ['.', '.'])

/-- A data directory that was written: the database, chunk by chunk, and the blobs that have their
file. -/
structure Restored where
  database : List String
  blobs : List String

/-- The loop over the blobs: the content is fetched and checked against the hash. -/
def restoreBlob (srv : Server) (hash : String) : Tx Error Storage String :=
  if isId hash then do
    let content ← get srv (srv.repo.idForHash hash) blobMax
    if content = hash then pure hash else throw (.wrongBlob hash)
  else throw (.notAnId hash)

/-- The loop over the other files, none of which may leave the data directory. -/
def restoreFile (srv : Server) (file : FileEntry) : Tx Error Storage String :=
  if staysInside file.path then get srv file.id (min file.size fileMax) else throw (.leaves file.path)

/-- Writes a snapshot into an empty data directory: the database, the blobs and the other files. -/
def restore (srv : Server) (snapshot : String) : Tx Error Storage Restored := do
  let m ← manifest snapshot
  if fitsThisServer srv.version m then do
    let chunks ← m.database.mapM fun id => get srv id chunkMax
    let blobs ← m.blobs.mapM (restoreBlob srv)
    let _ ← m.files.mapM (restoreFile srv)
    pure ⟨chunks, blobs⟩
  else throw (.newer m.version)

/-! ## 2. The steps of a backup -/

/-- Where a run of `backup` is, with what is left of the loop it is in. -/
inductive Phase where
  | start
  | paused
  | listed
  | chunks (left : List String)
  | copied
  | blobs (left : List (BlobHash × Nat))
  | files
  | written
  | finished
  | failed
  deriving DecidableEq

/-- The variables of `backup`. -/
structure Run where
  phase : Phase := .start
  guard : Option Nat := none
  known : List String := []
  copy : Copy := ⟨[], []⟩
  uploaded : Nat := 0
  database : List String := []
  databaseSize : Nat := 0
  blobs : List String := []
  blobsSize : Nat := 0
  files : List FileEntry := []
  snapshot : Option (String × Manifest) := none

/-- The server's store, the repository and the backup. -/
structure System where
  live : Blobs
  storage : Storage
  run : Run := {}

/-- Stores content unless the repository has it already: its id, the bytes uploaded, what is known
then. -/
def put (srv : Server) (known : List String) (sha256 : String) :
    Tx Error Storage (String × Nat × List String) :=
  let id := srv.repo.idForHash sha256
  if id ∈ known then pure (id, 0, known)
  else do
    let path ← Tx.ofExcept (objectPath id)
    Storage.write path (.content sha256)
    pure (id, srv.encodedSize sha256, id :: known)

/-- Every blob something refers to, with its size. -/
def blobHashes (rows : List BlobRow) : List (BlobHash × Nat) :=
  ((rows.filter fun row => decide (0 < row.refs)).map fun row => (row.hash, row.size)).insertionSort
    fun a b => a.1.hex ≤ b.1.hex

/-- `{now:012}` -/
def zeroPadded (now : Int) : String :=
  let digits := Nat.toDigits 10 now.natAbs
  let sign := if now < 0 then ['-'] else []
  String.ofList (sign ++ List.replicate (12 - sign.length - digits.length) '0' ++ digits)

def Run.manifest (srv : Server) (run : Run) (now : Int) (name : String) : Manifest where
  format := 1
  createdAt := now
  hostname := srv.hostname
  version := srv.version
  database := run.database
  databaseSize := run.databaseSize
  blobs := run.blobs
  blobsSize := run.blobsSize
  files := run.files
  uploaded := run.uploaded
  name := some name

/-- What a manifest is read as: one that is too long is not read at all. -/
def Server.readAs (srv : Server) (m : Manifest) : File :=
  if srv.manifestSize m ≤ manifestMax ∧ srv.jsonSize m ≤ manifestMax then .manifest m else .damaged

inductive Event where
  | live (e : Blob.Event)
  | pause
  | list
  | copy
  | chunk
  | blobHashes
  | blob
  | file (path : String) (sha256 : String)
  | write (now : Int) (suffix : String)
  | prune
  | release
  deriving DecidableEq

/-- Goes on with the answer of storage operations; the first error ends the run. -/
def System.continue_ {α : Type} (s : System) (x : Tx Error Storage α) (next : α → Run) : System :=
  match x.exec s.storage with
  | (.ok a, storage) => { s with storage := storage, run := next a }
  | (.error _, storage) => { s with storage := storage, run := { s.run with phase := .failed } }

/-- What the server does by itself.  The guard of the backup is the backup's to drop, and a blob's
hash is a SHA-256. -/
def System.allows (s : System) : Blob.Event → Bool
  | .unpause i => decide (s.run.guard ≠ some i)
  | .putBegin hash _ => isId hash.hex
  | _ => true

/-- One step, of the server or of the backup. -/
def step (srv : Server) (minAge : Int) (s : System) : Event → Option System
  | .live e =>
    if s.allows e then (Blob.step minAge s.live e).map fun live => { s with live := live } else none
  | .pause =>
    match s.run.phase with
    | .start => (Blob.step minAge s.live .pause).map fun live => { s with
        live := live, run := { s.run with phase := .paused, guard := some s.live.guards.length } }
    | _ => none
  | .list =>
    match s.run.phase with
    | .paused => some (s.continue_ objectIds fun ids => { s.run with phase := .listed, known := ids })
    | _ => none
  | .copy =>
    match s.run.phase with
    | .listed =>
      let copy : Copy := ⟨s.live.rows, s.live.refs⟩
      some { s with run := { s.run with phase := .chunks (srv.chunksOf copy), copy := copy } }
    | _ => none
  | .chunk =>
    match s.run.phase with
    | .chunks [] => some { s with run := { s.run with phase := .copied } }
    | .chunks (sha256 :: left) =>
      some (s.continue_ (put srv s.run.known sha256) fun (id, bytes, known) => { s.run with
        phase := .chunks left
        known := known
        uploaded := s.run.uploaded + bytes
        database := s.run.database ++ [id]
        databaseSize := s.run.databaseSize + srv.contentSize sha256 })
    | _ => none
  | .blobHashes =>
    match s.run.phase with
    | .copied => some { s with run := { s.run with phase := .blobs (blobHashes s.live.rows) } }
    | _ => none
  | .blob =>
    match s.run.phase with
    | .blobs [] => some { s with run := { s.run with phase := .files } }
    | .blobs ((hash, size) :: left) =>
      let next (bytes : Nat) (known : List String) : Run := { s.run with
        phase := .blobs left
        known := known
        uploaded := s.run.uploaded + bytes
        blobs := s.run.blobs ++ [hash.hex]
        blobsSize := s.run.blobsSize + size }
      if srv.repo.idForHash hash.hex ∈ s.run.known then some { s with run := next 0 s.run.known }
      -- The blob is read from disk; its file holds the content its name says.
      else if hash ∈ s.live.files then
        some (s.continue_ (put srv s.run.known hash.hex) fun (_, bytes, known) => next bytes known)
      else some { s with run := { s.run with phase := .failed } }
    | _ => none
  | .file path sha256 =>
    match s.run.phase with
    | .files =>
      if staysInside path then
        some (s.continue_ (put srv s.run.known sha256) fun (id, bytes, known) => { s.run with
          known := known
          uploaded := s.run.uploaded + bytes
          files := s.run.files ++ [⟨path, id, srv.contentSize sha256⟩] })
      else none
    | _ => none
  | .write now suffix =>
    match s.run.phase with
    | .files =>
      let name := zeroPadded now ++ "-" ++ suffix
      let m := s.run.manifest srv now name
      let run := { s.run with snapshot := some (name, m) }
      some ({ s with run := run }.continue_ (Storage.write (.snapshot name) (srv.readAs m)) fun _ =>
        { run with phase := .written })
    | _ => none
  | .prune =>
    match s.run.phase with
    | .written => some (s.continue_ (srv.repo.prune srv.retention) fun _ =>
        { s.run with phase := .finished })
    | _ => none
  | .release =>
    match s.run.phase, s.run.guard with
    | .finished, some i => (Blob.step minAge s.live (.unpause i)).map fun live =>
        { s with live := live, run := { s.run with guard := none } }
    | .failed, some i => (Blob.step minAge s.live (.unpause i)).map fun live =>
        { s with live := live, run := { s.run with guard := none } }
    | _, _ => none

/-- A server without mail, and a repository. -/
def System.start (clock : Int) (storage : Storage) : System := ⟨.empty clock, storage, {}⟩

/-! ## 3. What holds in every run -/

/-- Every object holds content with its id, of the contents `C` there are. -/
def Authentic (repo : Repository) (C : String → Prop) (files : Files) : Prop :=
  ∀ pre id file, files.lookup (.object pre id) = some file →
    ∃ sha256, file = .content sha256 ∧ repo.idForHash sha256 = id ∧ C sha256

/-- What an upload leaves behind: nothing, or the content under its id. -/
def Uploaded (repo : Repository) (sha256 : String) (files files' : Files) : Prop :=
  files' = files ∨ ∃ pre, files' = files.insert (.object pre (repo.idForHash sha256)) (.content sha256)

section Storage

variable {srv : Server} {repo : Repository} {files files' files'' : Files} {st : Storage}
  {C : String → Prop}

theorem Uploaded.hasObject {sha256 id : String} (h : Uploaded repo sha256 files files')
    (hid : HasObject files id) :
    HasObject files' id := by
  obtain ⟨path, hpath, hmem⟩ := hid
  refine ⟨path, hpath, ?_⟩
  rcases h with rfl | ⟨pre, rfl⟩
  · exact hmem
  · exact (AList.mem_insert _).2 (.inr hmem)

theorem Uploaded.authentic {sha256 : String} (h : Uploaded repo sha256 files files') (hC : C sha256)
    (ha : Authentic repo C files) : Authentic repo C files' := by
  rcases h with rfl | ⟨pre, rfl⟩
  · exact ha
  · intro pre' id file hfile
    by_cases hid : Path.object pre' id = .object pre (repo.idForHash sha256)
    · rw [hid, AList.lookup_insert] at hfile
      cases hfile
      exact ⟨sha256, rfl, (Path.object.inj hid).2.symm, hC⟩
    · rw [AList.lookup_insert_ne hid] at hfile
      exact ha pre' id file hfile

/-- A write that reports an error may have happened. -/
theorem ends_write {path : Path} {file : File} :
    Ends (Storage.write path file) st (fun _ st' => st'.files = st.files.insert path file)
      (fun st' => st'.files = st.files ∨ st'.files = st.files.insert path file) := by
  obtain ⟨files, faults⟩ := st
  rcases faults with _ | ⟨fault, faults⟩
  · exact (rfl : files.insert path file = files.insert path file)
  · cases fault with
    | done => exact (rfl : files.insert path file = files.insert path file)
    | refused => exact .inl rfl
    | unheard => exact .inr rfl

/-- After `put` the content's object is known, and what is known then is there if it was before. -/
theorem ends_put {known : List String} {sha256 : String}
    (hknown : ∀ id ∈ known, HasObject st.files id) :
    Ends (put srv known sha256) st
      (fun r st' => r.1 = srv.repo.idForHash sha256 ∧ r.1 ∈ r.2.2 ∧ known ⊆ r.2.2 ∧
        (∀ id ∈ r.2.2, HasObject st'.files id) ∧ Uploaded srv.repo sha256 st.files st'.files)
      (fun st' => Uploaded srv.repo sha256 st.files st'.files) := by
  unfold put
  dsimp only
  split
  next h => exact .pure ⟨rfl, h, fun _ hid => hid, hknown, .inl rfl⟩
  next h =>
    refine Ends.bind (Q := fun path st' => objectPath (srv.repo.idForHash sha256) = .ok path ∧ st = st')
      (.ofExcept (fun path h => ⟨h, rfl⟩) (.inl rfl)) ?_
    rintro path _ ⟨hpath, rfl⟩
    obtain rfl := objectPath_eq_ok hpath
    refine (ends_write.mono (fun _ _ h => h) fun st' h => h.imp_right fun h => ⟨_, h⟩).bind ?_
    rintro - st' hst'
    have huploaded : Uploaded srv.repo sha256 st.files st'.files := .inr ⟨_, hst'⟩
    refine .pure ⟨rfl, List.mem_cons_self, fun _ => List.mem_cons_of_mem _, ?_, huploaded⟩
    intro id hid
    rcases List.mem_cons.1 hid with rfl | hid
    · exact ⟨_, hpath, by rw [hst']; exact (AList.mem_insert _).2 (.inl rfl)⟩
    · exact huploaded.hasObject (hknown id hid)

theorem Authentic.thinned {gone : Path → Prop} (h : Authentic repo C files)
    (hthin : Thinned gone files files') : Authentic repo C files' := by
  intro pre id file hfile
  refine h pre id file ?_
  rwa [← hthin.lookup_of_mem (AList.lookup_isSome.1 (by rw [hfile]; rfl))]

end Storage

/-- The hashes of blobs are those of SHA-256. -/
structure Hexed (b : Blobs) : Prop where
  rows : ∀ row ∈ b.rows, isId row.hash.hex = true
  puts : ∀ p ∈ b.puts, isId p.hash.hex = true

section Live

variable {b b' : Blobs}

theorem Hexed.setPut (h : Hexed b) {i : Nat} {hash : BlobHash} {size : Nat} {phase : PutPhase}
    (hp : b.puts[i]? = some ⟨hash, size, phase⟩) (phase' : PutPhase) :
    ∀ p ∈ b.puts.set i ⟨hash, size, phase'⟩, isId p.hash.hex = true := by
  intro p hp'
  rcases mem_of_mem_set hp hp' with rfl | hp'
  · exact h.puts ⟨hash, size, phase⟩ (List.mem_of_getElem? hp)
  · exact h.puts p hp'

theorem Hexed.putRow (h : Hexed b) {hash : BlobHash} (hhash : isId hash.hex = true) (size : Nat) :
    ∀ row ∈ b.putRow hash size, isId row.hash.hex = true := by
  intro row hrow
  rcases mem_putRow hrow with ⟨row₀, hrow₀, hh, -⟩ | ⟨rfl, -⟩
  · rw [← hh]
    exact h.rows row₀ hrow₀
  · exact hhash

theorem Hexed.remove (h : Hexed b) (p : RefRow → Bool) : Hexed (b.remove p) where
  rows := by
    intro row hrow
    obtain ⟨row₀, hrow₀, rfl⟩ := List.mem_map.1 hrow
    exact h.rows row₀ hrow₀
  puts := h.puts

theorem Hexed.insert (h : Hexed b) (minAge : Int) (table : Referrer) (account : Int) (hash : BlobHash) :
    Hexed (b.insert minAge table account hash) where
  rows := by
    unfold Blobs.insert
    split
    · split
      · exact h.rows
      · intro row hrow
        obtain ⟨row₀, hrow₀, rfl⟩ := Table.mem_updateWhere.1 hrow
        have := h.rows row₀ hrow₀
        split <;> exact this
    · exact h.rows
  puts := by
    rw [(insert_eq minAge b table account hash).2.1]
    exact h.puts

theorem Hexed.step {minAge : Int} {e : Blob.Event} (h : Hexed b)
    (hput : ∀ hash size, e = .putBegin hash size → isId hash.hex = true)
    (hs : Blob.step minAge b e = some b') : Hexed b' := by
  cases e with
  | insert table account hash => cases hs; exact h.insert minAge table account hash
  | remove ids => cases hs; exact h.remove _
  | putBegin hash size =>
    simp only [Blob.step] at hs
    split at hs
    · cases hs
    · cases hs
      refine ⟨h.rows, fun p hp => ?_⟩
      rcases List.mem_append.1 hp with hp | hp
      · exact h.puts p hp
      · rw [List.mem_singleton.1 hp]
        exact hput hash size rfl
  | putLook i =>
    simp only [Blob.step] at hs
    split at hs
    · next hp => cases hs; exact ⟨h.rows, h.setPut hp _⟩
    · cases hs
  | putRename i =>
    simp only [Blob.step] at hs
    split at hs
    · next hp => cases hs; exact ⟨h.rows, h.setPut hp _⟩
    · cases hs
  | putRow i =>
    simp only [Blob.step] at hs
    split at hs
    · next hp =>
      cases hs
      exact ⟨h.putRow (h.puts _ (List.mem_of_getElem? hp)) _, h.setPut hp _⟩
    · next hp =>
      cases hs
      exact ⟨h.putRow (h.puts _ (List.mem_of_getElem? hp)) _, h.setPut hp _⟩
    · cases hs
  | putCancel i =>
    simp only [Blob.step] at hs
    split at hs
    · next hp => cases hs; exact ⟨h.rows, h.setPut hp _⟩
    · next hp => cases hs; exact ⟨h.rows, h.setPut hp _⟩
    · next hp => cases hs; exact ⟨h.rows, h.setPut hp _⟩
    · cases hs
  | gcRows i =>
    simp only [Blob.step] at hs
    split at hs
    · cases hs
      exact ⟨fun row hrow => (h.remove _).rows row (Table.mem_deleteWhere.1 hrow).1, h.puts⟩
    · cases hs
  | _ =>
    simp only [Blob.step] at hs
    repeat' split at hs
    all_goals cases hs
    all_goals exact ⟨h.rows, h.puts⟩

end Live

/-- Which contents a backup stores as chunks, as blobs and as other files. -/
structure Contents where
  chunk : String → Prop
  blob : String → Prop
  file : String → Prop

/-- What a restore can read, of the contents `C` there are: the blobs and the other files have a
maximum. -/
def Server.readable (srv : Server) (C : String → Prop) : Contents where
  chunk := C
  blob sha256 := C sha256 ∧ srv.contentSize sha256 ≤ blobMax
  file sha256 := C sha256 ∧ srv.contentSize sha256 ≤ fileMax

/-- A step that stores only such contents. -/
def Stores (srv : Server) (w : Contents) (s : System) : Event → Prop
  | .copy => ∀ sha256 ∈ srv.chunksOf ⟨s.live.rows, s.live.refs⟩, w.chunk sha256
  | .blobHashes => ∀ row ∈ s.live.rows, 0 < row.refs → w.blob row.hash.hex
  | .file _ sha256 => w.file sha256
  | _ => True

/-- Another file of the data directory, as a manifest has it. -/
def FileEntry.Holds (srv : Server) (w : Contents) (file : FileEntry) : Prop :=
  staysInside file.path = true ∧
    ∃ sha256, file.id = srv.repo.idForHash sha256 ∧ file.size = srv.contentSize sha256 ∧ w.file sha256

/-- A manifest that is closed for a copy of the database, and that this server can restore. -/
structure Closed (srv : Server) (w : Contents) (copy : Copy) (name : String) (m : Manifest) : Prop where
  name : m.name = some name
  format : m.format = 1
  version : m.version = srv.version
  database : m.database = (srv.chunksOf copy).map srv.repo.idForHash
  chunks : ∀ sha256 ∈ srv.chunksOf copy, w.chunk sha256
  blobs : ∀ r ∈ copy.refs, r.hash.hex ∈ m.blobs
  hashes : ∀ hash ∈ m.blobs, isId hash = true ∧ w.blob hash
  files : ∀ file ∈ m.files, FileEntry.Holds srv w file

/-- The chunks of the copy are stored, but those that are left. -/
def Run.Chunked (srv : Server) (w : Contents) (run : Run) (left : List String) : Prop :=
  run.database ++ left.map srv.repo.idForHash = (srv.chunksOf run.copy).map srv.repo.idForHash ∧
    left ⊆ srv.chunksOf run.copy ∧ ∀ sha256 ∈ srv.chunksOf run.copy, w.chunk sha256

/-- What the lists of a run hold, phase by phase, until the manifest is written. -/
def Run.Holds (srv : Server) (w : Contents) (run : Run) : Phase → Prop
  | .start | .paused | .listed => run.database = [] ∧ run.blobs = [] ∧ run.files = []
  | .chunks left => run.Chunked srv w left ∧ run.blobs = [] ∧ run.files = []
  | .copied => run.Chunked srv w [] ∧ run.blobs = [] ∧ run.files = []
  | .blobs left =>
    run.Chunked srv w [] ∧ (∀ r ∈ run.copy.refs, r.hash.hex ∈ run.blobs ++ left.map (·.1.hex)) ∧
      (∀ hash ∈ run.blobs ++ left.map (·.1.hex), isId hash = true ∧ w.blob hash) ∧ run.files = []
  | .files =>
    run.Chunked srv w [] ∧ (∀ r ∈ run.copy.refs, r.hash.hex ∈ run.blobs) ∧
      (∀ hash ∈ run.blobs, isId hash = true ∧ w.blob hash) ∧ ∀ file ∈ run.files, FileEntry.Holds srv w file
  | .written | .finished | .failed => True

/-- The ids of what a run has stored. -/
def Run.stored (srv : Server) (run : Run) : List String :=
  run.database ++ run.blobs.map srv.repo.idForHash ++ run.files.map (·.id)

/-- Whether the manifest is still to be written. -/
def Phase.before : Phase → Bool
  | .written | .finished | .failed => false
  | _ => true

/-- **The invariant of a backup.**  Until the manifest is written, what is known is in the
repository and what was stored is known; from then on the manifest, if it is there, has what it
needs. -/
structure Backed (srv : Server) (w : Contents) (s : System) : Prop where
  hexed : Hexed s.live
  holds : s.run.Holds srv w s.run.phase
  unset : s.run.phase.before = true → s.run.snapshot = none
  known : s.run.phase.before = true → ∀ id ∈ s.run.known, HasObject s.storage.files id
  stored : s.run.phase.before = true → s.run.stored srv ⊆ s.run.known
  snapshot : ∀ name m, s.run.snapshot = some (name, m) → Closed srv w s.run.copy name m ∧
    (name ∈ snapshotsIn s.storage.files →
      manifestOf name (s.storage.files.lookup (.snapshot name)) = .ok m →
        ∀ id ∈ srv.repo.wanted m, HasObject s.storage.files id)

/-- Every blob the copy refers to still has a reference when the table of blobs is read. -/
def StillReferred (s : System) (e : Event) : Prop :=
  e = .blobHashes → ∀ r ∈ s.run.copy.refs, ∃ row ∈ s.live.rows, row.hash = r.hash ∧ 0 < row.refs

instance (s : System) (e : Event) : Decidable (StillReferred s e) :=
  inferInstanceAs (Decidable (_ → _))

section Step

variable {srv : Server} {w : Contents} {minAge : Int} {s s' : System} {e : Event}

/-- The two ends of a step that uses the storage. -/
theorem continue_cases {α : Type} {x : Tx Error Storage α} {next : α → Run} {Q : α → Storage → Prop}
    {E : Storage → Prop} {P : System → Prop} (hx : Ends x s.storage Q E)
    (hok : ∀ a st, Q a st → P { s with storage := st, run := next a })
    (herr : ∀ st, E st → P { s with storage := st, run := { s.run with phase := .failed } }) :
    P (s.continue_ x next) := by
  unfold Ends at hx
  unfold System.continue_
  rcases h : x.exec s.storage with ⟨_ | a, st⟩
  · rw [h] at hx
    exact herr st hx
  · rw [h] at hx
    exact hok a st hx

/-- A step of the server leaves the backup as it is. -/
theorem Backed.live (h : Backed srv w s) {b : Blobs} (hb : Hexed b) (guard : Option Nat) :
    Backed srv w { s with live := b, run := { s.run with guard := guard } } :=
  ⟨hb, by have := h.holds; revert this; cases s.run.phase <;> exact fun h => h, h.unset, h.known,
    h.stored, h.snapshot⟩

/-- A run that failed before it came to the manifest. -/
theorem Backed.fail (h : Backed srv w s) (hbefore : s.run.phase.before = true) (st : Storage) :
    Backed srv w { s with storage := st, run := { s.run with phase := .failed } } where
  hexed := h.hexed
  holds := trivial
  unset := by simp [Phase.before]
  known := by simp [Phase.before]
  stored := by simp [Phase.before]
  snapshot := by
    intro name m hm
    have : s.run.snapshot = none := h.unset hbefore
    simp [this] at hm

/-- A run that goes on to `run`, with files added to the repository. -/
theorem Backed.next (h : Backed srv w s) (hbefore : s.run.phase.before = true) {st : Storage} {run : Run}
    (hholds : run.Holds srv w run.phase) (hsnap : run.snapshot = s.run.snapshot)
    (hknown : ∀ id ∈ run.known, HasObject st.files id) (hstored : run.stored srv ⊆ run.known) :
    Backed srv w { s with storage := st, run := run } where
  hexed := h.hexed
  holds := hholds
  unset := fun _ => hsnap.trans (h.unset hbefore)
  known := fun _ => hknown
  stored := fun _ => hstored
  snapshot := by
    intro name m hm
    have : run.snapshot = none := hsnap.trans (h.unset hbefore)
    simp [this] at hm

theorem before_of {run : Run} {phase : Phase} (hphase : run.phase = phase) (h : phase.before = true) :
    run.phase.before = true :=
  hphase ▸ h

/-- A run that stores an object and goes on with it known. -/
theorem Backed.put (h : Backed srv w s) (hbefore : s.run.phase.before = true) {sha256 : String}
    {next : String × Nat × List String → Run}
    (hnext : ∀ (bytes : Nat) (known : List String) (st : Storage), srv.repo.idForHash sha256 ∈ known →
      s.run.known ⊆ known → (∀ id ∈ known, HasObject st.files id) →
        Backed srv w { s with
          storage := st, run := next (srv.repo.idForHash sha256, bytes, known) }) :
    Backed srv w (s.continue_ (put srv s.run.known sha256) next) := by
  refine continue_cases (ends_put (h.known hbefore)) ?_ fun st _ => h.fail hbefore st
  rintro ⟨id, bytes, known⟩ st ⟨hid, hmem, hsub, hknown, -⟩
  obtain rfl : id = srv.repo.idForHash sha256 := hid
  exact hnext bytes known st hmem hsub hknown

theorem mem_blobHashes {rows : List BlobRow} {hash : BlobHash} :
    hash.hex ∈ (blobHashes rows).map (·.1.hex) ↔ ∃ row ∈ rows, row.hash = hash ∧ 0 < row.refs := by
  simp only [blobHashes, List.mem_map, List.mem_insertionSort, List.mem_filter, decide_eq_true_eq]
  constructor
  · rintro ⟨_, ⟨row, ⟨hrow, hrefs⟩, rfl⟩, hhex⟩
    refine ⟨row, hrow, ?_, hrefs⟩
    cases hash
    cases hr : row.hash
    rw [hr] at hhex
    exact congrArg BlobHash.mk hhex
  · rintro ⟨row, hrow, rfl, hrefs⟩
    exact ⟨_, ⟨row, ⟨hrow, hrefs⟩, rfl⟩, rfl⟩

theorem Backed.chunk (h : Backed srv w s) (hs : step srv minAge s .chunk = some s') : Backed srv w s' := by
  have hholds := h.holds
  simp only [step] at hs
  split at hs
  next hphase =>
    cases hs
    rw [hphase] at hholds
    have hbefore := before_of hphase rfl
    exact h.next hbefore hholds rfl (h.known hbefore) (h.stored hbefore)
  next sha256 left hphase =>
    cases hs
    rw [hphase] at hholds
    have hbefore := before_of hphase rfl
    refine h.put hbefore fun bytes known st hmem hsub hknown => h.next hbefore ?_ rfl hknown ?_
    · exact ⟨⟨by simpa using hholds.1.1, fun x hx => hholds.1.2.1 (List.mem_cons_of_mem _ hx), hholds.1.2.2⟩, hholds.2⟩
    · have hstored := h.stored hbefore
      simp only [Run.stored, hholds.2.1, hholds.2.2, List.map_nil, List.append_nil] at hstored ⊢
      intro x hx
      rcases List.mem_append.1 hx with hx | hx
      · exact hsub (hstored hx)
      · rw [List.mem_singleton.1 hx]
        exact hmem
  next => cases hs

theorem Backed.blob (h : Backed srv w s) (hs : step srv minAge s .blob = some s') : Backed srv w s' := by
  have hholds := h.holds
  simp only [step] at hs
  split at hs
  next hphase =>
    cases hs
    rw [hphase] at hholds
    have hbefore := before_of hphase rfl
    refine h.next hbefore ?_ rfl (h.known hbefore) (h.stored hbefore)
    simp only [Run.Holds, List.map_nil, List.append_nil] at hholds
    refine ⟨hholds.1, hholds.2.1, hholds.2.2.1, fun file hfile => ?_⟩
    rw [hholds.2.2.2] at hfile
    cases hfile
  next hash size left hphase =>
    rw [hphase] at hholds
    have hbefore := before_of hphase rfl
    have hstored := h.stored hbefore
    simp only [Run.Holds, List.map_cons] at hholds
    -- Whichever way the blob's object came to be known, it is, and the run goes on with it.
    have hnext : ∀ (bytes : Nat) (known : List String) (st : Storage),
        srv.repo.idForHash hash.hex ∈ known → s.run.known ⊆ known →
        (∀ id ∈ known, HasObject st.files id) →
        Backed srv w { s with storage := st, run := { s.run with
          phase := .blobs left, known := known, uploaded := s.run.uploaded + bytes
          blobs := s.run.blobs ++ [hash.hex], blobsSize := s.run.blobsSize + size } } := by
      intro bytes known st hmem hsub hknown
      refine h.next hbefore ?_ rfl hknown ?_
      · simp only [Run.Holds, List.append_assoc, List.singleton_append]
        exact hholds
      · intro x hx
        simp only [Run.stored, hholds.2.2.2, List.map_nil, List.append_nil, List.map_append,
          List.map_cons, List.mem_append, List.mem_singleton] at hstored hx
        rcases hx with hx | hx | rfl
        · exact hsub (hstored (List.mem_append_left _ hx))
        · exact hsub (hstored (List.mem_append_right _ hx))
        · exact hmem
    split at hs
    next hmem =>
      cases hs
      exact hnext 0 _ s.storage hmem (fun _ h => h) (h.known hbefore)
    next =>
      split at hs
      next =>
        cases hs
        exact h.put hbefore hnext
      next =>
        cases hs
        exact h.fail hbefore s.storage
  next => cases hs

theorem Backed.file (h : Backed srv w s) {path sha256 : String} (hstores : Stores srv w s (.file path sha256))
    (hs : step srv minAge s (.file path sha256) = some s') : Backed srv w s' := by
  have hholds := h.holds
  simp only [step] at hs
  split at hs
  next hphase =>
    split at hs
    next hinside =>
      cases hs
      rw [hphase] at hholds
      have hbefore := before_of hphase rfl
      refine h.put hbefore fun bytes known st hmem hsub hknown => h.next hbefore ?_ rfl hknown ?_
      · rw [hphase]
        refine ⟨hholds.1, hholds.2.1, hholds.2.2.1, fun file hfile => ?_⟩
        rcases List.mem_append.1 hfile with hfile | hfile
        · exact hholds.2.2.2 file hfile
        · rw [List.mem_singleton.1 hfile]
          exact ⟨hinside, sha256, rfl, rfl, hstores⟩
      · intro x hx
        simp only [Run.stored, List.map_append, ← List.append_assoc] at hx
        rcases List.mem_append.1 hx with hx | hx
        · exact hsub (h.stored hbefore hx)
        · rw [List.mem_singleton.1 hx]
          exact hmem
    next => cases hs
  next => cases hs

theorem Backed.write (h : Backed srv w s) {now : Int} {suffix : String}
    (hs : step srv minAge s (.write now suffix) = some s') : Backed srv w s' := by
  have hholds := h.holds
  simp only [step] at hs
  split at hs
  next hphase =>
    cases hs
    rw [hphase] at hholds
    have hbefore := before_of hphase rfl
    obtain ⟨hdatabase, hblobs, hhashes, hfiles⟩ := hholds
    obtain ⟨hdatabase, -, hchunks⟩ := hdatabase
    rw [List.map_nil, List.append_nil] at hdatabase
    have hclosed : ∀ name, Closed srv w s.run.copy name (s.run.manifest srv now name) :=
      fun name => ⟨rfl, rfl, rfl, hdatabase, hchunks, hblobs, hhashes, hfiles⟩
    have hwanted : ∀ name, ∀ id ∈ srv.repo.wanted (s.run.manifest srv now name),
        HasObject s.storage.files id :=
      fun name id hid => h.known hbefore id (h.stored hbefore hid)
    -- The objects are there, whether or not the manifest is.
    have hadded : ∀ (name : String) (file : File) (files : Files),
        files = s.storage.files ∨ files = s.storage.files.insert (.snapshot name) file →
          ∀ id ∈ srv.repo.wanted (s.run.manifest srv now name), HasObject files id := by
      intro name file files hadd id hid
      obtain ⟨path, hpath, hmem⟩ := hwanted name id hid
      refine ⟨path, hpath, ?_⟩
      rcases hadd with rfl | rfl
      · exact hmem
      · exact (AList.mem_insert _).2 (.inr hmem)
    refine continue_cases ends_write ?_ ?_
    · rintro - st hst
      refine ⟨h.hexed, trivial, by simp [Phase.before], by simp [Phase.before], by simp [Phase.before],
        ?_⟩
      rintro name m hm
      cases hm
      exact ⟨hclosed _, fun _ _ => hadded _ _ _ (.inr hst)⟩
    · rintro st hst
      refine ⟨h.hexed, trivial, by simp [Phase.before], by simp [Phase.before], by simp [Phase.before],
        ?_⟩
      rintro name m hm
      cases hm
      exact ⟨hclosed _, fun _ _ => hadded _ _ _ hst⟩
  next => cases hs

theorem Backed.prune (h : Backed srv w s) (hs : step srv minAge s .prune = some s') : Backed srv w s' := by
  simp only [step] at hs
  split at hs
  next hphase =>
    cases hs
    have hpruned : ∀ st : Storage, Pruned srv.repo s.storage.files st.files → ∀ name m,
        s.run.snapshot = some (name, m) → Closed srv w s.run.copy name m ∧
          (name ∈ snapshotsIn st.files → manifestOf name (st.files.lookup (.snapshot name)) = .ok m →
            ∀ id ∈ srv.repo.wanted m, HasObject st.files id) := by
      intro st hst name m hm
      obtain ⟨hclosed, hobjects⟩ := h.snapshot name m hm
      refine ⟨hclosed, fun hname hread id hid => ?_⟩
      rw [hst.thin.lookup_of_mem (mem_snapshotsIn.1 hname).1.1] at hread
      refine hst.objects name hname m hread id hid ?_
      exact hobjects (mem_snapshotsIn_of_thinned hst.thin hname) hread id hid
    refine continue_cases (ends_prune.mono (fun _ _ h => h.1) fun _ h => h) ?_ ?_
    · rintro - st hst
      exact ⟨h.hexed, trivial, by simp [Phase.before], by simp [Phase.before], by simp [Phase.before],
        hpruned st hst⟩
    · rintro st hst
      exact ⟨h.hexed, trivial, by simp [Phase.before], by simp [Phase.before], by simp [Phase.before],
        hpruned st hst⟩
  next => cases hs

theorem Backed.step (h : Backed srv w s) (hok : StillReferred s e) (hstores : Stores srv w s e)
    (hs : step srv minAge s e = some s') : Backed srv w s' := by
  have hholds := h.holds
  cases e with
  | chunk => exact h.chunk hs
  | blob => exact h.blob hs
  | file path sha256 => exact h.file hstores hs
  | write now suffix => exact h.write hs
  | prune => exact h.prune hs
  | live e =>
    simp only [Snapshot.step] at hs
    split at hs
    next hallows =>
      obtain ⟨b, hb, rfl⟩ := Option.map_eq_some_iff.1 hs
      refine h.live (h.hexed.step ?_ hb) s.run.guard
      rintro hash size rfl
      exact hallows
    next => cases hs
  | pause =>
    simp only [Snapshot.step] at hs
    split at hs
    next hphase =>
      rw [hphase] at hholds
      have hbefore := before_of hphase rfl
      obtain ⟨b, hb, rfl⟩ := Option.map_eq_some_iff.1 hs
      refine ⟨h.hexed.step (by simp) hb, hholds, fun _ => h.unset hbefore, fun _ => h.known hbefore,
        fun _ => h.stored hbefore, h.snapshot⟩
    next => cases hs
  | list =>
    simp only [Snapshot.step] at hs
    split at hs
    next hphase =>
      cases hs
      rw [hphase] at hholds
      have hbefore := before_of hphase rfl
      refine continue_cases ends_objectIds ?_ fun st _ => h.fail hbefore st
      rintro ids st ⟨rfl, hst⟩
      refine h.next hbefore hholds rfl (fun id hid => ?_) ?_
      · obtain ⟨hmem, hid, -⟩ := mem_objectIdsIn_iff.1 hid
        exact ⟨_, if_pos hid, by rw [hst]; exact hmem⟩
      · simp [Run.stored, hholds.1, hholds.2.1, hholds.2.2]
    next => cases hs
  | copy =>
    simp only [Snapshot.step] at hs
    split at hs
    next hphase =>
      cases hs
      rw [hphase] at hholds
      have hbefore := before_of hphase rfl
      refine h.next hbefore ?_ rfl (h.known hbefore) (h.stored hbefore)
      exact ⟨⟨by simp [hholds.1], fun _ hx => hx, hstores⟩, hholds.2⟩
    next => cases hs
  | blobHashes =>
    simp only [Snapshot.step] at hs
    split at hs
    next hphase =>
      cases hs
      rw [hphase] at hholds
      have hbefore := before_of hphase rfl
      refine h.next hbefore ?_ rfl (h.known hbefore) (h.stored hbefore)
      refine ⟨hholds.1, fun r hr => ?_, fun hash hhash => ?_, hholds.2.2⟩
      · exact List.mem_append_right _ (mem_blobHashes.2 (hok rfl r hr))
      · rw [hholds.2.1, List.nil_append] at hhash
        obtain ⟨e, he, rfl⟩ := List.mem_map.1 hhash
        obtain ⟨row, hrow, heq, hrefs⟩ := mem_blobHashes.1 (List.mem_map.2 ⟨e, he, rfl⟩)
        rw [← heq]
        exact ⟨h.hexed.rows row hrow, hstores row hrow hrefs⟩
    next => cases hs
  | release =>
    simp only [Snapshot.step] at hs
    split at hs
    · obtain ⟨b, hb, rfl⟩ := Option.map_eq_some_iff.1 hs
      exact h.live (h.hexed.step (by simp) hb) none
    · obtain ⟨b, hb, rfl⟩ := Option.map_eq_some_iff.1 hs
      exact h.live (h.hexed.step (by simp) hb) none
    · cases hs

/-- A backup writes no object that does not hold what its id says. -/
theorem authentic_step {C : String → Prop} (h : Backed srv (srv.readable C) s)
    (hstores : Stores srv (srv.readable C) s e) (ha : Authentic srv.repo C s.storage.files)
    (hs : step srv minAge s e = some s') : Authentic srv.repo C s'.storage.files := by
  have hput : ∀ (sha256 : String) (next : String × Nat × List String → Run), C sha256 →
      s.run.phase.before = true → Authentic srv.repo C
        (s.continue_ (put srv s.run.known sha256) next).storage.files := by
    intro sha256 next hC hbefore
    refine continue_cases (P := fun u : System => Authentic srv.repo C u.storage.files)
      (ends_put (h.known hbefore)) ?_ ?_
    · exact fun _ st hst => hst.2.2.2.2.authentic hC ha
    · exact fun st hst => hst.authentic hC ha
  have hholds := h.holds
  cases e with
  | chunk =>
    simp only [step] at hs
    split at hs
    next => cases hs; exact ha
    next hphase =>
      cases hs
      rw [hphase] at hholds
      exact hput _ _ (hholds.1.2.2 _ (hholds.1.2.1 List.mem_cons_self)) (by rw [hphase]; rfl)
    next => cases hs
  | blob =>
    simp only [step] at hs
    split at hs
    next => cases hs; exact ha
    next hphase =>
      rw [hphase] at hholds
      split at hs
      next => cases hs; exact ha
      next =>
        split at hs
        next =>
          cases hs
          refine hput _ _ (hholds.2.2.1 _ ?_).2.1 (by rw [hphase]; rfl)
          exact List.mem_append_right _ List.mem_cons_self
        next => cases hs; exact ha
    next => cases hs
  | file path sha256 =>
    simp only [step] at hs
    split at hs
    next hphase =>
      split at hs
      next => cases hs; exact hput _ _ hstores.1 (by rw [hphase]; rfl)
      next => cases hs
    next => cases hs
  | list =>
    simp only [step] at hs
    split at hs
    next =>
      cases hs
      refine continue_cases (P := fun u : System => Authentic srv.repo C u.storage.files)
        ends_objectIds ?_ ?_
      · rintro ids st ⟨-, hst⟩
        exact hst ▸ ha
      · exact fun st hst => hst ▸ ha
    next => cases hs
  | write now suffix =>
    simp only [step] at hs
    split at hs
    next =>
      have hinsert : ∀ name stored, Authentic srv.repo C
          (s.storage.files.insert (.snapshot name) stored) := by
        intro name stored pre id file hfile
        rw [AList.lookup_insert_ne (by simp)] at hfile
        exact ha pre id file hfile
      cases hs
      refine continue_cases (P := fun u : System => Authentic srv.repo C u.storage.files)
        ends_write ?_ ?_
      · rintro - st hst
        rw [hst]
        exact hinsert _ _
      · rintro st (hst | hst)
        · exact hst ▸ ha
        · rw [hst]
          exact hinsert _ _
    next => cases hs
  | prune =>
    simp only [step] at hs
    split at hs
    next =>
      cases hs
      refine continue_cases (P := fun u : System => Authentic srv.repo C u.storage.files)
        (ends_prune.mono (fun _ _ h => h.1) fun _ h => h) ?_ ?_
      · exact fun _ st hst => ha.thinned hst.thin
      · exact fun st hst => ha.thinned hst.thin
    next => cases hs
  | live e =>
    simp only [step] at hs
    split at hs
    next =>
      obtain ⟨b, -, rfl⟩ := Option.map_eq_some_iff.1 hs
      exact ha
    next => cases hs
  | pause =>
    simp only [step] at hs
    split at hs
    next =>
      obtain ⟨b, -, rfl⟩ := Option.map_eq_some_iff.1 hs
      exact ha
    next => cases hs
  | copy =>
    simp only [step] at hs
    split at hs
    next => cases hs; exact ha
    next => cases hs
  | blobHashes =>
    simp only [step] at hs
    split at hs
    next => cases hs; exact ha
    next => cases hs
  | release =>
    simp only [step] at hs
    split at hs
    · obtain ⟨b, -, rfl⟩ := Option.map_eq_some_iff.1 hs
      exact ha
    · obtain ⟨b, -, rfl⟩ := Option.map_eq_some_iff.1 hs
      exact ha
    · cases hs

theorem Backed.start (clock : Int) (storage : Storage) : Backed srv w (.start clock storage) where
  hexed := ⟨by simp [System.start, Blobs.empty], by simp [System.start, Blobs.empty]⟩
  holds := ⟨rfl, rfl, rfl⟩
  unset := fun _ => rfl
  known := by simp [System.start]
  stored := by simp [System.start, Run.stored]
  snapshot := by
    intro name m hm
    cases hm

end Step

/-! ## 4. Restoring what was backed up -/

section Restore

variable {srv : Server} {files : Files} {C : String → Prop}

/-- An object that is there is read, if its content is not too long. -/
theorem exec_get (hinj : Set.InjOn srv.repo.idForHash {sha256 | C sha256}) (ha : Authentic srv.repo C files)
    {sha256 : String} (hC : C sha256) (hid : HasObject files (srv.repo.idForHash sha256)) {limit : Nat}
    (hlimit : srv.contentSize sha256 ≤ limit) :
    (get srv (srv.repo.idForHash sha256) limit).exec ⟨files, []⟩ = (.ok sha256, ⟨files, []⟩) := by
  obtain ⟨path, hpath, hmem⟩ := hid
  obtain ⟨file, hfile⟩ := Option.isSome_iff_exists.1 (AList.lookup_isSome.2 hmem)
  obtain rfl := objectPath_eq_ok hpath
  obtain ⟨stored, rfl, heq, hstored⟩ := ha _ _ _ hfile
  obtain rfl : stored = sha256 := hinj hstored hC heq
  have hread : (Storage.read (.object (idPrefix (srv.repo.idForHash stored)) (srv.repo.idForHash stored))).exec
      ⟨files, []⟩ = (.ok (some (.content stored)), ⟨files, []⟩) := by
    rw [← hfile]
    rfl
  have hencoded := srv.encodedSize_le stored
  have hobject : ¬ srv.encodedSize stored > limit + objectOverhead := by omega
  have hcontent : ¬ srv.contentSize stored > limit := by omega
  simp only [get, exec_bind, hpath, exec_ofExcept, hread, if_neg hobject, if_neg hcontent, if_true, exec_pure]

/-- A loop in which every turn answers and leaves the storage alone. -/
theorem exec_mapM_eq {α β : Type} {f : α → Tx Error Storage β} {g : α → β} {st : Storage} :
    ∀ l : List α, (∀ a ∈ l, (f a).exec st = (.ok (g a), st)) → (l.mapM f).exec st = (.ok (l.map g), st)
  | [], _ => by simp
  | a :: l, h => by
    have ha := h a List.mem_cons_self
    have hl := exec_mapM_eq l fun a' ha' => h a' (List.mem_cons_of_mem _ ha')
    simp only [List.mapM_cons, exec_bind, ha, hl, exec_pure, List.map_cons]

/-- A snapshot that is closed and complete is restored: the copy of the database, chunk for chunk,
and every blob the manifest names. -/
theorem restore_eq (hinj : Set.InjOn srv.repo.idForHash {sha256 | C sha256}) (ha : Authentic srv.repo C files)
    {copy : Copy} {name : String} {m : Manifest} (hclosed : Closed srv (srv.readable C) copy name m)
    (hname : isSnapshotName name = true) (hread : manifestOf name (files.lookup (.snapshot name)) = .ok m)
    (hobjects : ∀ id ∈ srv.repo.wanted m, HasObject files id) :
    (restore srv name).exec ⟨files, []⟩ = (.ok ⟨srv.chunksOf copy, m.blobs⟩, ⟨files, []⟩) := by
  have hmanifest : (manifest name).exec ⟨files, []⟩ = (.ok m, ⟨files, []⟩) := by
    have hlook : (Storage.read (.snapshot name)).exec ⟨files, []⟩ =
        (.ok (files.lookup (.snapshot name)), ⟨files, []⟩) := rfl
    simp only [manifest, hname, if_true, exec_bind, hlook, exec_ofExcept, hread]
  have hfits : fitsThisServer srv.version m = true := by
    simp [fitsThisServer, hclosed.format, hclosed.version]
  simp only [Repository.wanted, List.mem_append, or_imp, forall_and] at hobjects
  obtain ⟨⟨hchunkObjects, hblobObjects⟩, hfileObjects⟩ := hobjects
  have hdatabase : (m.database.mapM fun id => get srv id chunkMax).exec ⟨files, []⟩ =
      (.ok (srv.chunksOf copy), ⟨files, []⟩) := by
    have hturn : ∀ sha256 ∈ srv.chunksOf copy,
      (((fun id => get srv id chunkMax) ∘ srv.repo.idForHash) sha256).exec
        ⟨files, []⟩ = (.ok (id sha256), ⟨files, []⟩) := fun sha256 hmem =>
      exec_get hinj ha (hclosed.chunks sha256 hmem)
        (hchunkObjects _ (by rw [hclosed.database]; exact List.mem_map_of_mem hmem)) (srv.chunksOf_le copy sha256 hmem)
    rw [hclosed.database, List.mapM_map, exec_mapM_eq _ hturn, List.map_id]
  have hblobs : (m.blobs.mapM (restoreBlob srv)).exec ⟨files, []⟩ = (.ok m.blobs, ⟨files, []⟩) := by
    have hturn : ∀ hash ∈ m.blobs, (restoreBlob srv hash).exec ⟨files, []⟩ =
        (.ok (id hash), ⟨files, []⟩) := by
      intro hash hmem
      obtain ⟨hisId, hC, hsize⟩ := hclosed.hashes hash hmem
      have hcontent := exec_get hinj ha hC (hblobObjects _ (List.mem_map_of_mem hmem)) hsize
      simp only [restoreBlob, hisId, if_true, exec_bind, hcontent, exec_pure, id]
    rw [exec_mapM_eq m.blobs hturn, List.map_id]
  have hfile : ∀ file ∈ m.files, ∃ sha256, (restoreFile srv file).exec ⟨files, []⟩ =
      (.ok sha256, ⟨files, []⟩) := by
    intro file hmem
    obtain ⟨hinside, sha256, hid, hsize, hC, hmax⟩ := hclosed.files file hmem
    refine ⟨sha256, ?_⟩
    simp only [restoreFile, hinside, if_true, hid, hsize]
    exact exec_get hinj ha hC (hid ▸ hfileObjects _ (List.mem_map_of_mem hmem))
      (Nat.le_min.2 ⟨Nat.le_refl _, hmax⟩)
  choose! content hcontent using hfile
  have hfiles := exec_mapM_eq m.files hcontent
  simp only [restore, exec_bind, hmanifest, hfits, if_true, hdatabase, hblobs, hfiles, exec_pure]

end Restore

/-- **A snapshot is closed** in every run of a backup beside the server, with any answers of the
storage, in which every blob the database copy refers to still has a reference when the table of
blobs is read.  Where the manifest is in the repository and its snapshot listed, it names every blob
the copy refers to and the blob's object is there.

Where besides no two of the contents at hand have the same id, the objects the repository had held
what their ids say, and no blob and no other file that is stored is too long to be read again, the
snapshot can be restored, and then every blob that a row of the restored database refers to has its
file. -/
theorem snapshot_is_closed (srv : Server) (minAge clock : Int) (storage : Storage) (es : List Event)
    (s : System) (hrun : run (step srv minAge) (.start clock storage) es = some s)
    (hok : Along (step srv minAge) StillReferred (.start clock storage) es) (name : String)
    (m : Manifest) (hsnapshot : s.run.snapshot = some (name, m))
    (hlisted : name ∈ snapshotsIn s.storage.files)
    (hread : manifestOf name (s.storage.files.lookup (.snapshot name)) = .ok m) :
    (∀ r ∈ s.run.copy.refs, r.hash.hex ∈ m.blobs ∧
      HasObject s.storage.files (srv.repo.idForHash r.hash.hex)) ∧
    ∀ C : String → Prop, Set.InjOn srv.repo.idForHash {sha256 | C sha256} →
      Authentic srv.repo C storage.files →
      Along (step srv minAge) (Stores srv (srv.readable C)) (.start clock storage) es →
      ∃ restored : Restored,
        (restore srv name).exec ⟨s.storage.files, []⟩ = (.ok restored, ⟨s.storage.files, []⟩) ∧
          restored.database = srv.chunksOf s.run.copy ∧ ∀ r ∈ s.run.copy.refs,
              r.hash.hex ∈ restored.blobs := by
  have hclosed : ∀ w, Along (step srv minAge) (Stores srv w) (.start clock storage) es →
      Closed srv w s.run.copy name m ∧ ∀ id ∈ srv.repo.wanted m, HasObject s.storage.files id := by
    intro w hstores
    have hbacked : Backed srv w s :=
      run_invariant (fun _ _ _ h hok hs => h.step hok.1 hok.2 hs) (.start clock storage)
        (hok.and hstores) hrun
    obtain ⟨hclosed, hobjects⟩ := hbacked.snapshot name m hsnapshot
    exact ⟨hclosed, hobjects hlisted hread⟩
  constructor
  · obtain ⟨hclosed, hobjects⟩ := hclosed ⟨fun _ => True, fun _ => True, fun _ => True⟩ <|
      .of_forall fun s e => by cases e <;> simp [Stores]
    refine fun r hr => ⟨hclosed.blobs r hr, hobjects _ ?_⟩
    simp only [Repository.wanted, List.mem_append]
    exact .inl (.inr (List.mem_map_of_mem (hclosed.blobs r hr)))
  · intro C hinj ha hstores
    obtain ⟨hclosed, hobjects⟩ := hclosed _ hstores
    have hauthentic : Backed srv (srv.readable C) s ∧ Authentic srv.repo C s.storage.files :=
      run_invariant (P := fun u => Backed srv (srv.readable C) u ∧ Authentic srv.repo C u.storage.files)
        (fun _ _ _ h hok hs => ⟨h.1.step hok.1 hok.2 hs, authentic_step h.1 hok.2 h.2 hs⟩)
        ⟨.start clock storage, ha⟩ (hok.and hstores) hrun
    exact ⟨_, restore_eq hinj hauthentic.2 hclosed (mem_snapshotsIn.1 hlisted).2 hread hobjects, rfl,
      hclosed.blobs⟩

/-- A server whose database is one chunk. -/
def smallServer : Server where
  repo := plain
  hostname := "mail.example.org"
  version := "0.17.0"
  retention := {}
  chunksOf := fun _ => [sampleId 'd']
  contentSize := fun _ => 4096
  encodedSize := fun _ => 100
  jsonSize := fun _ => 500
  manifestSize := fun _ => 300
  chunksOf_le := fun _ _ _ => by decide
  encodedSize_le := fun _ => by decide

/-- A mail comes in, and the backup takes its copy of the database. -/
def upToTheCopy : List Event :=
  (putMail 0 ++ [Blob.Event.insert .emails 1 mail]).map .live ++ [.pause, .list, .copy, .chunk, .chunk]

/-- From reading the table of blobs to the end, with so many blobs to store. -/
def fromTheBlobs (blobs : Nat) : List Event :=
  .blobHashes :: List.replicate (blobs + 1) .blob ++ [.write 9 "0a1b2c", .prune]

/-- The system after a run from an empty server and an empty repository. -/
def after (es : List Event) : System :=
  (run (step smallServer 3600) (.start 0 ⟨∅, []⟩) es).getD (.start 0 ⟨∅, []⟩)

theorem run_eq_after {es : List Event}
    (h : (run (step smallServer 3600) (.start 0 ⟨∅, []⟩) es).isSome = true) :
    run (step smallServer 3600) (.start 0 ⟨∅, []⟩) es = some (after es) := by
  obtain ⟨s, hs⟩ := Option.isSome_iff_exists.1 h
  rw [after, hs, Option.getD_some]

/-- What the manifest of such a run holds. -/
def smallManifest (blobs : List String) (blobsSize uploaded : Nat) : Manifest :=
  ⟨1, 9, "mail.example.org", "0.17.0", [sampleId 'd'], 4096, blobs, blobsSize, [], uploaded,
    some "000000000009-0a1b2c"⟩

/-- The mail stays: its blob is in the snapshot, and restored with it. -/
theorem snapshot_is_closed_mail :
    let s := after (upToTheCopy ++ fromTheBlobs 1)
    s.run.phase = .finished ∧ s.run.copy.refs.map (·.hash) = [mail] ∧
      (∀ r ∈ s.run.copy.refs, r.hash.hex ∈ (smallManifest [mail.hex] 4 200).blobs ∧
        HasObject s.storage.files (smallServer.repo.idForHash r.hash.hex)) ∧
      ∃ restored : Restored, (restore smallServer "000000000009-0a1b2c").exec ⟨s.storage.files, []⟩ =
          (.ok restored, ⟨s.storage.files, []⟩) ∧
        restored.database = smallServer.chunksOf s.run.copy ∧
        ∀ r ∈ s.run.copy.refs, r.hash.hex ∈ restored.blobs := by
  intro s
  obtain ⟨hclosed, hrestore⟩ := snapshot_is_closed smallServer 3600 0 ⟨∅, []⟩ _ s
    (run_eq_after (by decide +kernel)) (by decide +kernel) "000000000009-0a1b2c"
    (smallManifest [mail.hex] 4 200) (by decide +kernel) (by decide +kernel) (by decide +kernel)
  refine ⟨by decide +kernel, by decide +kernel, hclosed, hrestore (fun _ => True) Function.injective_id.injOn ?_ ?_⟩
  · intro pre id file hfile
    cases hfile
  · exact .of_forall fun s e => by cases e <;> simp [Stores, Server.readable, smallServer, blobMax, fileMax]

/-- **The defect.**  The mail is deleted between the copy and the look at the table of blobs: the
backup finishes, the copy refers to the mail's blob, and neither does the manifest name it nor is
its object in the repository. -/
theorem copy_without_blob :
    let s := after (upToTheCopy ++ [.live (.remove [0])] ++ fromTheBlobs 0)
    run (step smallServer 3600) (.start 0 ⟨∅, []⟩)
        (upToTheCopy ++ [.live (.remove [0])] ++ fromTheBlobs 0) = some s ∧
      s.run.phase = .finished ∧ s.run.copy.refs.map (·.hash) = [mail] ∧
      "000000000009-0a1b2c" ∈ snapshotsIn s.storage.files ∧
      manifestOf "000000000009-0a1b2c" (s.storage.files.lookup (.snapshot "000000000009-0a1b2c")) =
        .ok (smallManifest [] 0 100) ∧
      mail.hex ∉ (smallManifest [] 0 100).blobs ∧
      ¬ HasObject s.storage.files (smallServer.repo.idForHash mail.hex) := by
  refine ⟨run_eq_after (by decide +kernel), ?_⟩
  decide +kernel

end UwuMail.Backup.Snapshot
