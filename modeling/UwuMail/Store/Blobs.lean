/-
# Blobs and their garbage collection

One process is modelled, with one `Store`: the lock and the counter are its own.  Content is a file
named by its hash and a row of `blobs` that counts the rows that refer to it (by triggers).
`put_blob` writes the file and then the row with the READ side of `blob_lock`; `collect_garbage`
deletes rows nothing refers to and then their files with the WRITE side.  The row that refers to the
content comes later and without the lock: until then only the blob's age protects it.

* §1 is the tables, the triggers and the statements; §2 the calls, cut where another task can come
  between, and the steps of the system.
* §3 is what holds in every run: the counts are right, a reference has its row, and the two sides of
  the lock exclude each other.
* §4 is the blob in flight.  `put_blob` of referenced content leaves `created_at` as it was, so when
  the last reference goes a collector finds an OLD blob; where none does, the blob stays for
  `min_age`.
* §5 is the pause.  The counter is looked at ONCE, before the collector waits for the lock; where no
  guard is taken between that look and the collector's end, nothing goes while a guard lives.
-/
import UwuMail.Lib.Trace
import UwuMail.Lib.Table

namespace UwuMail.Blob

open Trace Table

/-! ## 1. Tables, triggers and statements -/

/-- SHA-256 of a blob's content, hex encoded. -/
structure BlobHash where
  hex : String
  deriving DecidableEq

/-- A row of `blobs`. -/
structure BlobRow where
  hash : BlobHash
  size : Nat
  refs : Int
  createdAt : Int
  deriving DecidableEq

/-- The tables whose rows refer to blobs. -/
inductive Referrer where
  | emails
  | queueMessages
  | uploads
  | refusedDeliveries
  | greylistHold
  | emailSubmissions
  deriving DecidableEq

/-- A row that refers to a blob.  `at_` is the `created_at` of an upload and the `at` of a refused
delivery.  `inTime` is not in the tables: whether the row was inserted less than `min_age` after a
`put_blob` had returned its hash. -/
structure RefRow where
  id : Nat
  table : Referrer
  account : Int
  hash : BlobHash
  at_ : Int
  inTime : Bool
  deriving DecidableEq

def uploadLifetimeSecs : Int := 24 * 3600

def refusedKeptSecs : Int := 30 * 24 * 3600

/-- A call of `put_blob`: it has the read side of the lock; the file is not there yet; it is; the
caller went away and the transaction is still to come, without the lock; the call is over. -/
inductive PutPhase where
  | locked
  | writing
  | stored
  | detached
  | over

structure Put where
  hash : BlobHash
  size : Nat
  phase : PutPhase := .locked

/-- A call of `collect_garbage`: past the look at the counter; with the write side of the lock and
its cutoff; with the hashes whose files are to go; over. -/
inductive Gc where
  | waiting
  | locked (cutoff : Int)
  | deleting (hashes : List BlobHash)
  | over
  deriving DecidableEq

/-- A blob that `put_blob` returned, when it wrote the row, and whether it set `created_at`. -/
structure Returned where
  hash : BlobHash
  at_ : Int
  fresh : Bool
  deriving DecidableEq

/-- The tables, the files, the pause counter with the guards there ever were, and the calls. -/
structure Blobs where
  clock : Int
  rows : List BlobRow := []
  refs : List RefRow := []
  files : List BlobHash := []
  paused : Nat := 0
  guards : List Bool := []
  puts : List Put := []
  gcs : List Gc := []
  made : Nat := 0
  returned : List Returned := []

namespace Blobs

/-- The triggers on insertion. -/
def addRef (h : BlobHash) (rows : List BlobRow) : List BlobRow :=
  updateWhere (fun row => row.hash = h) (fun row => { row with refs := row.refs + 1 }) rows

/-- Whether a `put_blob` returned the hash less than `minAge` ago. -/
def inFlight (minAge : Int) (b : Blobs) (hash : BlobHash) : Bool :=
  b.returned.any fun p => decide (p.hash = hash) && decide (b.clock < p.at_ + minAge)

/-- An upload of the content by the account. -/
def isUpload (account : Int) (hash : BlobHash) (r : RefRow) : Bool :=
  decide (r.table = .uploads) && decide (r.account = account) && decide (r.hash = hash)

/-- Inserts a row that refers to a blob.  Without the blob's row the foreign key refuses it; a
second upload of the same content by the same account renews the first. -/
def insert (minAge : Int) (b : Blobs) (table : Referrer) (account : Int) (hash : BlobHash) : Blobs :=
  if b.rows.any fun row => row.hash = hash then
    if decide (table = .uploads) && b.refs.any (isUpload account hash) then
      let renew (r : RefRow) : RefRow :=
        { r with at_ := b.clock, inTime := r.inTime || inFlight minAge b hash }
      { b with refs := updateWhere (isUpload account hash) renew b.refs }
    else { b with
      refs := b.refs ++ [⟨b.made, table, account, hash, b.clock, inFlight minAge b hash⟩]
      rows := addRef hash b.rows
      made := b.made + 1 }
  else b

/-- Deletes rows that refer to blobs, with the triggers on deletion. -/
def remove (b : Blobs) (p : RefRow → Bool) : Blobs :=
  { b with
    refs := deleteWhere p b.refs
    rows := b.rows.map fun row => { row with
      refs := row.refs - (b.refs.countP fun r => p r && decide (r.hash = row.hash)) } }

/-- The row of a blob that was put: new, or with a new `created_at` unless something refers to
it. -/
def putRow (b : Blobs) (hash : BlobHash) (size : Nat) : List BlobRow :=
  if b.rows.any fun row => row.hash = hash then
    updateWhere (fun row => row.hash = hash && decide (row.refs ≤ 0))
      (fun row => { row with createdAt := b.clock }) b.rows
  else b.rows ++ [⟨hash, size, 0, b.clock⟩]

/-- Whether putting the hash sets `created_at`. -/
def putSets (b : Blobs) (hash : BlobHash) : Bool :=
  b.rows.all fun row => decide (row.hash = hash → row.refs ≤ 0)

/-- Uploads and refused deliveries whose time is over. -/
def expired (now : Int) (r : RefRow) : Bool :=
  (r.table = .uploads && decide (r.at_ ≤ now - uploadLifetimeSecs)) ||
    (r.table = .refusedDeliveries && decide (r.at_ < now - refusedKeptSecs))

/-- A blob that nothing refers to and that is old enough to go. -/
def garbage (cutoff : Int) (row : BlobRow) : Bool :=
  decide (row.refs ≤ 0) && decide (row.createdAt ≤ cutoff)

/-- The files that stay when a blob's file is deleted. -/
def deleteFile (hash : BlobHash) (files : List BlobHash) : List BlobHash :=
  files.filter fun h => decide (h ≠ hash)

end Blobs

/-! ## 2. Calls and steps -/

/-- Whether the call has the read side of `blob_lock`. -/
def Put.holds (p : Put) : Bool :=
  match p.phase with
  | .locked | .writing | .stored => true
  | .detached | .over => false

/-- Whether the call has the write side. -/
def Gc.holds : Gc → Bool
  | .locked _ | .deleting _ => true
  | _ => false

inductive Event where
  | tick (d : Nat)
  | insert (table : Referrer) (account : Int) (hash : BlobHash)
  | remove (ids : List Nat)
  | putBegin (hash : BlobHash) (size : Nat)
  | putLook (i : Nat)
  | putRename (i : Nat)
  | putRow (i : Nat)
  | putCancel (i : Nat)
  | pause
  | unpause (i : Nat)
  | gcCheck
  | gcLock (i : Nat)
  | gcRows (i : Nat)
  | gcFile (i : Nat)
  | gcEnd (i : Nat)
  deriving DecidableEq

/-- One step of one party.  `minAge` is the age `collect_garbage` is called with. -/
def step (minAge : Int) (b : Blobs) : Event → Option Blobs
  | .tick d => some { b with clock := b.clock + d }
  | .insert table account hash => some (b.insert minAge table account hash)
  | .remove ids => some (b.remove fun r => ids.contains r.id)
  | .putBegin hash size =>
    if b.gcs.any Gc.holds then none
    else some { b with puts := b.puts ++ [⟨hash, size, .locked⟩] }
  | .putLook i =>
    match b.puts[i]? with
    | some ⟨hash, size, .locked⟩ => some { b with
        puts := b.puts.set i ⟨hash, size, if b.files.contains hash then .stored else .writing⟩ }
    | _ => none
  | .putRename i =>
    match b.puts[i]? with
    | some ⟨hash, size, .writing⟩ => some { b with
        files := if b.files.contains hash then b.files else b.files ++ [hash]
        puts := b.puts.set i ⟨hash, size, .stored⟩ }
    | _ => none
  | .putRow i =>
    match b.puts[i]? with
    | some ⟨hash, size, .stored⟩ => some { b with
        rows := b.putRow hash size
        puts := b.puts.set i ⟨hash, size, .over⟩
        returned := b.returned ++ [⟨hash, b.clock, b.putSets hash⟩] }
    | some ⟨hash, size, .detached⟩ => some { b with
        rows := b.putRow hash size, puts := b.puts.set i ⟨hash, size, .over⟩ }
    | _ => none
  | .putCancel i =>
    match b.puts[i]? with
    | some ⟨hash, size, .stored⟩ => some { b with puts := b.puts.set i ⟨hash, size, .detached⟩ }
    | some ⟨hash, size, .locked⟩ => some { b with puts := b.puts.set i ⟨hash, size, .over⟩ }
    | some ⟨hash, size, .writing⟩ => some { b with puts := b.puts.set i ⟨hash, size, .over⟩ }
    | _ => none
  | .pause => some { b with paused := b.paused + 1, guards := b.guards ++ [true] }
  | .unpause i =>
    match b.guards[i]? with
    | some true => some { b with paused := b.paused - 1, guards := b.guards.set i false }
    | _ => none
  | .gcCheck => some (if 0 < b.paused then b else { b with gcs := b.gcs ++ [.waiting] })
  | .gcLock i =>
    match b.gcs[i]? with
    | some .waiting =>
      if b.gcs.any Gc.holds || b.puts.any Put.holds then none
      else some { b with gcs := b.gcs.set i (.locked (b.clock - minAge)) }
    | _ => none
  | .gcRows i =>
    match b.gcs[i]? with
    | some (.locked cutoff) =>
      let b' := b.remove (Blobs.expired b.clock)
      some { b' with
        rows := deleteWhere (Blobs.garbage cutoff) b'.rows
        gcs := b.gcs.set i (.deleting ((b'.rows.filter (Blobs.garbage cutoff)).map (·.hash))) }
    | _ => none
  | .gcFile i =>
    match b.gcs[i]? with
    | some (.deleting (hash :: hashes)) => some { b with
        files := Blobs.deleteFile hash b.files, gcs := b.gcs.set i (.deleting hashes) }
    | _ => none
  | .gcEnd i =>
    match b.gcs[i]? with
    | some .over => none
    | some _ => some { b with gcs := b.gcs.set i .over }
    | none => none

/-! ## 3. Counts, references and the lock -/

/-- The hashes whose files a collector is about to delete. -/
def Gc.doomed : Gc → List BlobHash
  | .deleting hashes => hashes
  | _ => []

variable {hash : BlobHash}

theorem Gc.holds_of_doomed {g : Gc} (h : hash ∈ g.doomed) : g.holds = true := by
  cases g with
  | deleting hashes => rfl
  | _ => cases h

/-- The tables agree: one row a hash, with the number of rows that refer to it, and no reference
without a row. -/
structure Counted (b : Blobs) : Prop where
  key : UniqueKey BlobRow.hash b.rows
  refs : ∀ row ∈ b.rows, row.refs = b.refs.countP fun r => decide (r.hash = row.hash)
  fk : ∀ r ∈ b.refs, ∃ row ∈ b.rows, row.hash = r.hash

/-- The lock: while a collector has its write side, no call of `put_blob` has its read side; and
such a call that has found or written the file has the file. -/
structure Locked (b : Blobs) : Prop where
  apart : ∀ g ∈ b.gcs, g.holds = true → ∀ p ∈ b.puts, p.holds = false
  stored : ∀ p ∈ b.puts, p.phase = .stored → p.hash ∈ b.files

section Tables

variable {b : Blobs} {hash : BlobHash}

theorem Counted.addRef (h : Counted b) (hrow : ∃ row ∈ b.rows, row.hash = hash) (r : RefRow)
    (hr : r.hash = hash) (made : Nat) :
    Counted { b with refs := b.refs ++ [r], rows := Blobs.addRef hash b.rows, made := made } where
  key := h.key.updateWhere (f := fun row : BlobRow => { row with refs := row.refs + 1 })
    (fun _ => rfl) _
  refs := by
    intro row hrow
    obtain ⟨row₀, hrow₀, rfl⟩ := mem_updateWhere.1 hrow
    have := h.refs row₀ hrow₀
    by_cases hh : row₀.hash = hash
    · simp [hh, hr, this]
    · simp [hh, hr, this, Ne.symm hh]
  fk := by
    intro r' hr'
    have : ∃ row ∈ b.rows, row.hash = r'.hash := by
      rcases List.mem_append.1 hr' with hr' | hr'
      · exact h.fk r' hr'
      · rw [List.mem_singleton.1 hr', hr]
        exact hrow
    obtain ⟨row, hrow, hh⟩ := this
    refine ⟨_, mem_updateWhere.2 ⟨row, hrow, rfl⟩, ?_⟩
    split <;> exact hh

/-- A change of the referring rows that keeps their hashes. -/
theorem Counted.mapRefs (h : Counted b) {f : RefRow → RefRow} (hf : ∀ r, (f r).hash = r.hash)
    (p : RefRow → Bool) : Counted { b with refs := updateWhere p f b.refs } where
  key := h.key
  refs := by
    intro row hrow
    rw [h.refs row hrow]
    simp only [updateWhere, List.countP_map]
    congr 1
    refine List.countP_congr fun r _ => ?_
    simp only [Function.comp_apply]
    split <;> simp [hf]
  fk := by
    intro r hr
    obtain ⟨r₀, hr₀, rfl⟩ := mem_updateWhere.1 hr
    have := h.fk r₀ hr₀
    split
    · rw [hf]
      exact this
    · exact this

theorem countP_deleteWhere (p q : RefRow → Bool) (t : List RefRow) :
    ((deleteWhere p t).countP q : Int) = t.countP q - t.countP fun r => p r && q r := by
  induction t with
  | nil => simp
  | cons r t ih =>
    unfold deleteWhere at ih ⊢
    by_cases hp : p r <;> by_cases hq : q r <;> simp [hp, hq] <;> omega

theorem Counted.remove (h : Counted b) (p : RefRow → Bool) : Counted (b.remove p) where
  key := h.key.map fun _ => rfl
  refs := by
    intro row hrow
    obtain ⟨row₀, hrow₀, rfl⟩ := List.mem_map.1 hrow
    show row₀.refs - _ = _
    rw [h.refs row₀ hrow₀]
    exact (countP_deleteWhere p (fun r => decide (r.hash = row₀.hash)) b.refs).symm
  fk := by
    intro r hr
    obtain ⟨row, hrow, hh⟩ := h.fk r (mem_deleteWhere.1 hr).1
    exact ⟨_, List.mem_map_of_mem hrow, hh⟩

/-- Deleting garbage takes nothing that is referred to. -/
theorem Counted.sweep (h : Counted b) (cutoff : Int) (gcs : List Gc) :
    Counted { b with rows := deleteWhere (Blobs.garbage cutoff) b.rows, gcs := gcs } where
  key := h.key.deleteWhere _
  refs := fun row hrow => h.refs row (mem_deleteWhere.1 hrow).1
  fk := by
    intro r hr
    obtain ⟨row, hrow, hh⟩ := h.fk r hr
    refine ⟨row, mem_deleteWhere.2 ⟨hrow, ?_⟩, hh⟩
    have hpos : 0 < b.refs.countP fun r => decide (r.hash = row.hash) :=
      List.countP_pos_iff.2 ⟨r, hr, by simp [hh]⟩
    have : ¬ row.refs ≤ 0 := by
      rw [h.refs row hrow]
      omega
    simp [Blobs.garbage, this]

theorem mem_putRow {size : Nat} {row : BlobRow} (hrow : row ∈ b.putRow hash size) :
    (∃ row₀ ∈ b.rows, row₀.hash = row.hash ∧ row₀.refs = row.refs) ∨
      (row = ⟨hash, size, 0, b.clock⟩ ∧ ∀ row₀ ∈ b.rows, row₀.hash ≠ hash) := by
  unfold Blobs.putRow at hrow
  split at hrow
  · obtain ⟨row₀, hrow₀, rfl⟩ := mem_updateWhere.1 hrow
    refine .inl ⟨row₀, hrow₀, ?_⟩
    split <;> exact ⟨rfl, rfl⟩
  · next hnone =>
    rcases List.mem_append.1 hrow with hrow | hrow
    · exact .inl ⟨row, hrow, rfl, rfl⟩
    · exact .inr ⟨List.mem_singleton.1 hrow, by simpa using hnone⟩

theorem Counted.putRow (h : Counted b) (hash : BlobHash) (size : Nat) (puts : List Put)
    (returned : List Returned) :
    Counted { b with rows := b.putRow hash size, puts := puts, returned := returned } where
  key := by
    show UniqueKey BlobRow.hash (b.putRow hash size)
    unfold Blobs.putRow
    split
    · exact h.key.updateWhere (f := fun row => { row with createdAt := b.clock }) (fun _ => rfl) _
    · next hnone => exact h.key.append (by simpa using hnone)
  refs := by
    intro row hrow
    rcases mem_putRow hrow with ⟨row₀, hrow₀, hh, hrefs⟩ | ⟨rfl, hnone⟩
    · rw [← hrefs, h.refs row₀ hrow₀]
      simp only [hh]
    · have : b.refs.countP (fun r => decide (r.hash = hash)) = 0 := by
        refine List.countP_eq_zero.2 fun r hr hh => ?_
        obtain ⟨row, hrow, hrh⟩ := h.fk r hr
        exact hnone row hrow (hrh.trans (by simpa using hh))
      show (0 : Int) = _
      rw [this]
      rfl
  fk := by
    intro r hr
    obtain ⟨row, hrow, hh⟩ := h.fk r hr
    show ∃ row ∈ b.putRow hash size, row.hash = r.hash
    unfold Blobs.putRow
    split
    · refine ⟨_, mem_updateWhere.2 ⟨row, hrow, rfl⟩, ?_⟩
      split <;> exact hh
    · exact ⟨row, List.mem_append_left _ hrow, hh⟩

theorem Counted.insert (h : Counted b) (minAge : Int) (table : Referrer) (account : Int)
    (hash : BlobHash) : Counted (b.insert minAge table account hash) := by
  unfold Blobs.insert
  split
  · next hany =>
    have hrow : ∃ row ∈ b.rows, row.hash = hash := by
      obtain ⟨row, hrow, hh⟩ := List.any_eq_true.1 hany
      exact ⟨row, hrow, by simpa using hh⟩
    split
    · exact h.mapRefs (f := fun r =>
        { r with at_ := b.clock, inTime := r.inTime || Blobs.inFlight minAge b hash }) (fun _ => rfl) _
    · exact h.addRef hrow _ rfl _
  · exact h

end Tables

theorem Counted.of_eq {b b' : Blobs} (h : Counted b) (hrows : b'.rows = b.rows)
    (hrefs : b'.refs = b.refs) : Counted b' :=
  ⟨by rw [hrows]; exact h.key, by rw [hrows, hrefs]; exact h.refs, by rw [hrows, hrefs]; exact h.fk⟩

theorem Counted.step {minAge : Int} {b b' : Blobs} {e : Event} (h : Counted b)
    (hs : step minAge b e = some b') : Counted b' := by
  cases e with
  | insert table account hash => cases hs; exact h.insert minAge table account hash
  | remove ids => cases hs; exact h.remove _
  | putRow i =>
    simp only [Blob.step] at hs
    split at hs
    · cases hs; exact h.putRow _ _ _ _
    · cases hs; exact h.putRow _ _ _ _
    · cases hs
  | gcRows i =>
    simp only [Blob.step] at hs
    split at hs
    · cases hs; exact (h.remove _).sweep _ _
    · cases hs
  | _ =>
    simp only [Blob.step] at hs
    repeat' split at hs
    all_goals cases hs
    all_goals exact h.of_eq rfl rfl

/-- A call of `put_blob` that moves on and keeps the lock, or lets it go. -/
theorem Locked.setPut {b : Blobs} (h : Locked b) {i : Nat} {p : Put} (hp : b.puts[i]? = some p)
    (p' : Put) (hholds : p'.holds = true → p.holds = true) {files : List BlobHash}
    (hfiles : ∀ f ∈ b.files, f ∈ files) (hstored : p'.phase = .stored → p'.hash ∈ files)
    (rows : List BlobRow) (returned : List Returned) :
    Locked { b with rows := rows, files := files, puts := b.puts.set i p', returned := returned } where
  apart := by
    intro g hg hgh q hq
    rcases mem_of_mem_set hp hq with rfl | hq
    · have := h.apart g hg hgh p (List.mem_of_getElem? hp)
      by_contra hne
      rw [Bool.not_eq_false] at hne
      simp [hholds hne] at this
    · exact h.apart g hg hgh q hq
  stored := by
    intro q hq hphase
    rcases mem_of_mem_set hp hq with rfl | hq
    · exact hstored hphase
    · exact hfiles _ (h.stored q hq hphase)

/-- A collector that moves on. -/
theorem Locked.setGc {b : Blobs} (h : Locked b) {i : Nat} {g : Gc} (hg : b.gcs[i]? = some g)
    (g' : Gc) (hholds : g'.holds = true → g.holds = true ∨ ∀ p ∈ b.puts, p.holds = false)
    {files : List BlobHash} (hfiles : ∀ p ∈ b.puts, p.phase = .stored → p.hash ∈ files)
    (rows : List BlobRow) (refs : List RefRow) :
    Locked { b with rows := rows, refs := refs, files := files, gcs := b.gcs.set i g' } where
  apart := by
    intro g₁ hg₁ hgh p hp
    rcases mem_of_mem_set hg hg₁ with rfl | hg₁
    · rcases hholds hgh with hgg | hall
      · exact h.apart g (List.mem_of_getElem? hg) hgg p hp
      · exact hall p hp
    · exact h.apart g₁ hg₁ hgh p hp
  stored := hfiles

theorem Locked.of_eq {b b' : Blobs} (h : Locked b) (hgcs : b'.gcs = b.gcs) (hputs : b'.puts = b.puts)
    (hfiles : b'.files = b.files) : Locked b' :=
  ⟨by rw [hgcs, hputs]; exact h.apart, by rw [hputs, hfiles]; exact h.stored⟩

theorem insert_eq (minAge : Int) (b : Blobs) (table : Referrer) (account : Int) (hash : BlobHash) :
    (b.insert minAge table account hash).gcs = b.gcs ∧
      (b.insert minAge table account hash).puts = b.puts ∧
      (b.insert minAge table account hash).files = b.files ∧
      (b.insert minAge table account hash).clock = b.clock ∧
      (b.insert minAge table account hash).returned = b.returned := by
  unfold Blobs.insert
  split
  · split <;> exact ⟨rfl, rfl, rfl, rfl, rfl⟩
  · exact ⟨rfl, rfl, rfl, rfl, rfl⟩

theorem Locked.step {minAge : Int} {b b' : Blobs} {e : Event} (h : Locked b)
    (hs : step minAge b e = some b') : Locked b' := by
  cases e with
  | tick d => cases hs; exact h.of_eq rfl rfl rfl
  | insert table account hash =>
    cases hs
    obtain ⟨hg, hp, hf, -, -⟩ := insert_eq minAge b table account hash
    exact h.of_eq hg hp hf
  | remove ids => cases hs; exact h.of_eq rfl rfl rfl
  | putBegin hash size =>
    simp only [Blob.step] at hs
    split at hs
    · cases hs
    · next hfree =>
      cases hs
      refine ⟨?_, ?_⟩
      · intro g hg hgh
        exact absurd (List.any_eq_true.2 ⟨g, hg, hgh⟩) hfree
      · intro p hp hphase
        rcases List.mem_append.1 hp with hp | hp
        · exact h.stored p hp hphase
        · rw [List.mem_singleton.1 hp] at hphase
          cases hphase
  | putLook i =>
    simp only [Blob.step] at hs
    split at hs
    · next hash size hp =>
      cases hs
      refine h.setPut hp _ (fun _ => rfl) (fun _ hf => hf) ?_ b.rows b.returned
      intro hphase
      by_contra hno
      simp [hno] at hphase
    · cases hs
  | putRename i =>
    simp only [Blob.step] at hs
    split at hs
    · next hash size hp =>
      cases hs
      refine h.setPut hp ⟨hash, size, .stored⟩ (fun _ => rfl) ?_ ?_ b.rows b.returned
      · intro f hf
        split
        · exact hf
        · exact List.mem_append_left _ hf
      · intro _
        split
        · next hin => simpa using hin
        · simp
    · cases hs
  | putRow i =>
    simp only [Blob.step] at hs
    split at hs
    · next hash size hp =>
      cases hs
      exact h.setPut hp ⟨hash, size, .over⟩ (fun h => by cases h) (fun _ hf => hf)
        (fun h => by cases h) _ _
    · next hash size hp =>
      cases hs
      exact h.setPut hp ⟨hash, size, .over⟩ (fun h => by cases h) (fun _ hf => hf)
        (fun h => by cases h) _ _
    · cases hs
  | putCancel i =>
    simp only [Blob.step] at hs
    split at hs
    · next hash size hp =>
      cases hs
      exact h.setPut hp ⟨hash, size, .detached⟩ (fun h => by cases h) (fun _ hf => hf)
        (fun h => by cases h) _ _
    · next hash size hp =>
      cases hs
      exact h.setPut hp ⟨hash, size, .over⟩ (fun h => by cases h) (fun _ hf => hf)
        (fun h => by cases h) _ _
    · next hash size hp =>
      cases hs
      exact h.setPut hp ⟨hash, size, .over⟩ (fun h => by cases h) (fun _ hf => hf)
        (fun h => by cases h) _ _
    · cases hs
  | pause => cases hs; exact h.of_eq rfl rfl rfl
  | unpause i =>
    simp only [Blob.step] at hs
    split at hs
    · cases hs; exact h.of_eq rfl rfl rfl
    · cases hs
  | gcCheck =>
    cases hs
    split
    · exact h
    · refine ⟨?_, h.stored⟩
      intro g hg hgh
      rcases List.mem_append.1 hg with hg | hg
      · exact h.apart g hg hgh
      · rw [List.mem_singleton.1 hg] at hgh
        cases hgh
  | gcLock i =>
    simp only [Blob.step] at hs
    split at hs
    · next hg =>
      split at hs
      · cases hs
      · next hfree =>
        cases hs
        refine h.setGc hg _ (fun _ => .inr ?_) h.stored _ _
        simp only [Bool.or_eq_true, not_or, Bool.not_eq_true, List.any_eq_false] at hfree
        intro p hp
        simpa using hfree.2 p hp
    · cases hs
  | gcRows i =>
    simp only [Blob.step] at hs
    split at hs
    · next cutoff hg =>
      cases hs
      exact h.setGc hg _ (fun _ => .inl rfl) h.stored _ _
    · cases hs
  | gcFile i =>
    simp only [Blob.step] at hs
    split at hs
    · next hash hashes hg =>
      cases hs
      refine h.setGc hg (.deleting hashes) (fun _ => .inl rfl) ?_ _ _
      intro p hp hphase
      have := h.apart _ (List.mem_of_getElem? hg) rfl p hp
      simp [Put.holds, hphase] at this
    · cases hs
  | gcEnd i =>
    simp only [Blob.step] at hs
    split at hs
    · cases hs
    · next g hne hg =>
      cases hs
      exact h.setGc hg .over (fun h => by cases h) h.stored _ _
    · cases hs

/-! ## 4. Blobs in flight -/

/-- The blob has its row and its file, and no collector is about to delete the file. -/
structure Kept (b : Blobs) (hash : BlobHash) : Prop where
  row : ∃ row ∈ b.rows, row.hash = hash
  file : hash ∈ b.files
  spared : ∀ g ∈ b.gcs, hash ∉ g.doomed

/-- **No collector finds old what was put again while something referred to it**: of the blobs it is
about to delete, none was returned less than `minAge` ago by a `put_blob` that left `created_at`. -/
def Renewed (minAge : Int) (b : Blobs) : Event → Prop
  | .gcRows i =>
    match b.gcs[i]? with
    | some (.locked cutoff) => ∀ row ∈ (b.remove (Blobs.expired b.clock)).rows,
        Blobs.garbage cutoff row = true → ∀ p ∈ b.returned, p.hash = row.hash → p.fresh = false →
          p.at_ + minAge ≤ b.clock
    | _ => True
  | _ => True

instance (minAge : Int) (b : Blobs) : (e : Event) → Decidable (Renewed minAge b e)
  | .gcRows i =>
    match h : b.gcs[i]? with
    | some (.locked cutoff) => decidable_of_iff (∀ row ∈ (b.remove (Blobs.expired b.clock)).rows,
        Blobs.garbage cutoff row = true → ∀ p ∈ b.returned, p.hash = row.hash → p.fresh = false →
          p.at_ + minAge ≤ b.clock) (by simp [Renewed, h])
    | some .waiting => isTrue (by simp [Renewed, h])
    | some (.deleting _) => isTrue (by simp [Renewed, h])
    | some .over => isTrue (by simp [Renewed, h])
    | none => isTrue (by simp [Renewed, h])
  | .tick _ | .insert _ _ _ | .remove _ | .putBegin _ _ | .putLook _ | .putRename _ | .putRow _
  | .putCancel _ | .pause | .unpause _ | .gcCheck | .gcLock _ | .gcFile _ | .gcEnd _ => isTrue trivial

/-- What was returned less than `minAge` ago is kept, with a `created_at` from then if the call set
it; and so is what was inserted in that time. -/
structure Safe (minAge : Int) (b : Blobs) : Prop where
  times : ∀ p ∈ b.returned, p.at_ ≤ b.clock
  cutoffs : ∀ g ∈ b.gcs, ∀ cutoff, g = .locked cutoff → cutoff ≤ b.clock - minAge
  flight : ∀ p ∈ b.returned, b.clock < p.at_ + minAge → Kept b p.hash
  young : ∀ p ∈ b.returned, b.clock < p.at_ + minAge → p.fresh = true →
    ∀ row ∈ b.rows, row.hash = p.hash → p.at_ ≤ row.createdAt
  held : ∀ r ∈ b.refs, r.inTime = true → Kept b r.hash

section InFlight

variable {minAge : Int} {b b' : Blobs}

theorem Kept.mono (h : Kept b hash)
    (hrows : ∀ row ∈ b.rows, ∃ row' ∈ b'.rows, row'.hash = row.hash)
    (hfiles : ∀ f ∈ b.files, f ∈ b'.files)
    (hgcs : ∀ g' ∈ b'.gcs, ∀ x ∈ g'.doomed, ∃ g ∈ b.gcs, x ∈ g.doomed) : Kept b' hash where
  row := by
    obtain ⟨row, hrow, hh⟩ := h.row
    obtain ⟨row', hrow', hh'⟩ := hrows row hrow
    exact ⟨row', hrow', hh'.trans hh⟩
  file := hfiles _ h.file
  spared := by
    intro g' hg' hin
    obtain ⟨g, hg, hin⟩ := hgcs g' hg' hash hin
    exact h.spared g hg hin

/-- A step that deletes nothing and returns nothing: rows stay with a `created_at` that is no
older, and a new reference is to a blob that is kept. -/
theorem Safe.of_kept (h : Safe minAge b) (hclock : b.clock ≤ b'.clock)
    (hreturned : b'.returned = b.returned)
    (hrows : ∀ row ∈ b.rows, ∃ row' ∈ b'.rows, row'.hash = row.hash)
    (hcreated : ∀ row' ∈ b'.rows, (∃ row ∈ b.rows, row.hash = row'.hash ∧
      row.createdAt ≤ row'.createdAt) ∨ b.clock ≤ row'.createdAt)
    (hfiles : ∀ f ∈ b.files, f ∈ b'.files)
    (hgcs : ∀ g' ∈ b'.gcs, ∀ x ∈ g'.doomed, ∃ g ∈ b.gcs, x ∈ g.doomed)
    (hcutoffs : ∀ g' ∈ b'.gcs, ∀ cutoff, g' = .locked cutoff → cutoff ≤ b'.clock - minAge)
    (hrefs : ∀ r ∈ b'.refs, r.inTime = true → Kept b r.hash) : Safe minAge b' where
  times := by
    rw [hreturned]
    exact fun p hp => le_trans (h.times p hp) hclock
  cutoffs := hcutoffs
  flight := by
    rw [hreturned]
    exact fun p hp hlt => (h.flight p hp (lt_of_le_of_lt hclock hlt)).mono hrows hfiles hgcs
  young := by
    rw [hreturned]
    intro p hp hlt hfresh row' hrow' hh
    rcases hcreated row' hrow' with ⟨row, hrow, hh', hle⟩ | hle
    · exact le_trans (h.young p hp (lt_of_le_of_lt hclock hlt) hfresh row hrow (hh'.trans hh)) hle
    · exact le_trans (h.times p hp) hle
  held := fun r hr ht => (hrefs r hr ht).mono hrows hfiles hgcs

/-- The cutoffs of the collectors after the clock went on. -/
theorem Safe.cutoffs_le (h : Safe minAge b) (hclock : b.clock ≤ b'.clock) (hgcs : b'.gcs = b.gcs) :
    ∀ g' ∈ b'.gcs, ∀ cutoff, g' = .locked cutoff → cutoff ≤ b'.clock - minAge := by
  rw [hgcs]
  intro g hg cutoff hcut
  have := h.cutoffs g hg cutoff hcut
  omega

/-- A collector that moves on without a new list of files to delete. -/
theorem doomed_of_set {i : Nat} {g g' : Gc} (hg : b.gcs[i]? = some g)
    (hdoomed : ∀ x ∈ g'.doomed, x ∈ g.doomed) :
    ∀ g₁ ∈ b.gcs.set i g', ∀ x ∈ g₁.doomed, ∃ g ∈ b.gcs, x ∈ g.doomed := by
  intro g₁ hg₁ x hx
  rcases mem_of_mem_set hg hg₁ with rfl | hg₁
  · exact ⟨g, List.mem_of_getElem? hg, hdoomed x hx⟩
  · exact ⟨g₁, hg₁, hx⟩

theorem Safe.insert (h : Safe minAge b) (table : Referrer) (account : Int) (hash : BlobHash) :
    Safe minAge (b.insert minAge table account hash) := by
  have hin : Blobs.inFlight minAge b hash = true → Kept b hash := by
    intro hfl
    obtain ⟨p, hp, hh⟩ := List.any_eq_true.1 hfl
    simp only [Bool.and_eq_true, decide_eq_true_eq] at hh
    exact hh.1 ▸ h.flight p hp hh.2
  unfold Blobs.insert
  split
  · split
    · refine h.of_kept le_rfl rfl (fun row hrow => ⟨row, hrow, rfl⟩)
        (fun row hrow => .inl ⟨row, hrow, rfl, le_rfl⟩) (fun _ hf => hf) (fun g hg x hx => ⟨g, hg, hx⟩)
        (h.cutoffs_le le_rfl rfl) ?_
      intro r hr ht
      obtain ⟨r₀, hr₀, rfl⟩ := mem_updateWhere.1 hr
      by_cases hup : Blobs.isUpload account hash r₀ = true
      · rw [if_pos hup] at ht ⊢
        simp only [Bool.or_eq_true] at ht
        rcases ht with ht | ht
        · exact h.held r₀ hr₀ ht
        · simp only [Blobs.isUpload, Bool.and_eq_true, decide_eq_true_eq] at hup
          show Kept b r₀.hash
          rw [hup.2]
          exact hin ht
      · rw [if_neg hup] at ht ⊢
        exact h.held r₀ hr₀ ht
    · refine h.of_kept le_rfl rfl ?_ ?_ (fun _ hf => hf) (fun g hg x hx => ⟨g, hg, hx⟩)
        (h.cutoffs_le le_rfl rfl) ?_
      · intro row hrow
        refine ⟨_, mem_updateWhere.2 ⟨row, hrow, rfl⟩, ?_⟩
        split <;> rfl
      · intro row hrow
        obtain ⟨row₀, hrow₀, rfl⟩ := mem_updateWhere.1 hrow
        refine .inl ⟨row₀, hrow₀, ?_⟩
        split <;> exact ⟨rfl, le_rfl⟩
      · intro r hr ht
        rcases List.mem_append.1 hr with hr | hr
        · exact h.held r hr ht
        · rw [List.mem_singleton.1 hr] at ht ⊢
          exact hin ht
  · exact h

theorem Safe.remove (h : Safe minAge b) (p : RefRow → Bool) : Safe minAge (b.remove p) := by
  refine h.of_kept le_rfl rfl ?_ ?_ (fun _ hf => hf) (fun g hg x hx => ⟨g, hg, hx⟩)
    (h.cutoffs_le le_rfl rfl) ?_
  · exact fun row hrow => ⟨_, List.mem_map_of_mem hrow, rfl⟩
  · intro row hrow
    obtain ⟨row₀, hrow₀, rfl⟩ := List.mem_map.1 hrow
    exact .inl ⟨row₀, hrow₀, rfl, le_rfl⟩
  · exact fun r hr ht => h.held r (mem_deleteWhere.1 hr).1 ht

/-- The rows after one of them was put. -/
theorem rows_putRow (hash : BlobHash) (size : Nat) :
    (∀ row ∈ b.rows, ∃ row' ∈ b.putRow hash size, row'.hash = row.hash) ∧
      (∃ row' ∈ b.putRow hash size, row'.hash = hash) := by
  unfold Blobs.putRow
  split
  · next hany =>
    have hold : ∀ row ∈ b.rows, ∃ row' ∈ updateWhere
        (fun row : BlobRow => row.hash = hash && decide (row.refs ≤ 0))
        (fun row => { row with createdAt := b.clock }) b.rows, row'.hash = row.hash := by
      intro row hrow
      refine ⟨_, mem_updateWhere.2 ⟨row, hrow, rfl⟩, ?_⟩
      split <;> rfl
    obtain ⟨row, hrow, hh⟩ := List.any_eq_true.1 hany
    obtain ⟨row', hrow', hh'⟩ := hold row hrow
    exact ⟨hold, row', hrow', hh'.trans (by simpa using hh)⟩
  · exact ⟨fun row hrow => ⟨row, List.mem_append_left _ hrow, rfl⟩, _,
      List.mem_append_right _ (List.mem_singleton_self _), rfl⟩

/-- No `created_at` gets older, and where the call sets it, it is now. -/
theorem createdAt_putRow {size : Nat} {row' : BlobRow}
    (hrow' : row' ∈ b.putRow hash size) :
    ((∃ row ∈ b.rows, row.hash = row'.hash ∧ row.createdAt ≤ row'.createdAt) ∨
        b.clock ≤ row'.createdAt) ∧
      (b.putSets hash = true → row'.hash = hash → b.clock ≤ row'.createdAt) := by
  unfold Blobs.putRow at hrow'
  split at hrow'
  · obtain ⟨row, hrow, rfl⟩ := mem_updateWhere.1 hrow'
    split
    · exact ⟨.inr le_rfl, fun _ _ => le_rfl⟩
    · next hnot =>
      refine ⟨.inl ⟨row, hrow, rfl, le_rfl⟩, fun hsets hh => ?_⟩
      have : row.refs ≤ 0 := by simpa [hh] using List.all_eq_true.1 hsets row hrow
      simp [hh, this] at hnot
  · rcases List.mem_append.1 hrow' with hrow | hrow
    · next hnone =>
      refine ⟨.inl ⟨row', hrow, rfl, le_rfl⟩, fun _ hh => ?_⟩
      exact absurd (List.any_eq_true.2 ⟨row', hrow, by simpa using hh⟩) hnone
    · rw [List.mem_singleton.1 hrow]
      exact ⟨.inr le_rfl, fun _ _ => le_rfl⟩

theorem Safe.putRow (h : Safe minAge b) (hash : BlobHash) (size : Nat) (puts : List Put) :
    Safe minAge { b with rows := b.putRow hash size, puts := puts } :=
  h.of_kept le_rfl rfl (rows_putRow hash size).1 (fun _ hrow' => (createdAt_putRow hrow').1)
    (fun _ hf => hf) (fun g hg _ hx => ⟨g, hg, hx⟩) (h.cutoffs_le le_rfl rfl) h.held

/-- A call that returns: its blob is kept, and as young as the call if it set `created_at`. -/
theorem Safe.return (h : Safe minAge b) (hkept : Kept b hash)
    {fresh : Bool} (hfresh : fresh = true → ∀ row ∈ b.rows, row.hash = hash → b.clock ≤ row.createdAt) :
    Safe minAge { b with returned := b.returned ++ [⟨hash, b.clock, fresh⟩] } where
  times := by
    intro p hp
    rcases List.mem_append.1 hp with hp | hp
    · exact h.times p hp
    · rw [List.mem_singleton.1 hp]
  cutoffs := h.cutoffs
  flight := by
    intro p hp hlt
    have : Kept b p.hash := by
      rcases List.mem_append.1 hp with hp | hp
      · exact h.flight p hp hlt
      · rw [List.mem_singleton.1 hp]
        exact hkept
    exact ⟨this.row, this.file, this.spared⟩
  young := by
    intro p hp hlt hf
    rcases List.mem_append.1 hp with hp | hp
    · exact h.young p hp hlt hf
    · rw [List.mem_singleton.1 hp] at hf ⊢
      exact hfresh hf
  held := fun r hr ht => ⟨(h.held r hr ht).row, (h.held r hr ht).file, (h.held r hr ht).spared⟩

/-- **The collector's transaction spares what is in flight.** -/
theorem Safe.gcRows (h : Safe minAge b) (hc : Counted b) {i : Nat} {cutoff : Int}
    (hg : b.gcs[i]? = some (.locked cutoff)) (hok : Renewed minAge b (.gcRows i)) :
    Safe minAge { b.remove (Blobs.expired b.clock) with
      rows := deleteWhere (Blobs.garbage cutoff) (b.remove (Blobs.expired b.clock)).rows
      gcs := b.gcs.set i (.deleting (((b.remove (Blobs.expired b.clock)).rows.filter
        (Blobs.garbage cutoff)).map (·.hash))) } := by
  have hc := hc.remove (Blobs.expired b.clock)
  have h' := h.remove (Blobs.expired b.clock)
  have hcut : cutoff ≤ b.clock - minAge := h.cutoffs _ (List.mem_of_getElem? hg) cutoff rfl
  simp only [Renewed, hg] at hok
  generalize hb' : b.remove (Blobs.expired b.clock) = b₁ at hc h' hok
  have hclock : b₁.clock = b.clock := by rw [← hb']; rfl
  have hgcs : b₁.gcs = b.gcs := by rw [← hb']; rfl
  have hreturned : b₁.returned = b.returned := by rw [← hb']; rfl
  -- A blob whose row is no garbage is kept.
  have hspared : ∀ hash, Kept b₁ hash →
      (∀ row ∈ b₁.rows, row.hash = hash → Blobs.garbage cutoff row = false) →
      Kept { b₁ with
        rows := deleteWhere (Blobs.garbage cutoff) b₁.rows
        gcs := b.gcs.set i (.deleting ((b₁.rows.filter (Blobs.garbage cutoff)).map (·.hash))) }
        hash := by
    intro hash hk hno
    obtain ⟨row, hrow, hh⟩ := hk.row
    refine ⟨⟨row, mem_deleteWhere.2 ⟨hrow, hno row hrow hh⟩, hh⟩, hk.file, ?_⟩
    intro g hg' hin
    rcases mem_of_mem_set hg hg' with rfl | hg'
    · obtain ⟨row', hrow', hh'⟩ := List.mem_map.1 hin
      obtain ⟨hrow', hgarb⟩ := List.mem_filter.1 hrow'
      simp [hno row' hrow' hh'] at hgarb
    · exact hk.spared g (by rw [hgcs]; exact hg') hin
  have hflight : ∀ p ∈ b₁.returned, b₁.clock < p.at_ + minAge →
      ∀ row ∈ b₁.rows, row.hash = p.hash → Blobs.garbage cutoff row = false := by
    intro p hp hlt row hrow hh
    by_contra hgarb
    rw [Bool.not_eq_false] at hgarb
    have hold : row.createdAt ≤ cutoff := by
      simp only [Blobs.garbage, Bool.and_eq_true, decide_eq_true_eq] at hgarb
      exact hgarb.2
    cases hfresh : p.fresh with
    | true =>
      have := h'.young p hp hlt hfresh row hrow hh
      omega
    | false =>
      have := hok row hrow hgarb p (by rw [← hreturned]; exact hp) hh.symm hfresh
      omega
  refine ⟨h'.times, ?_, ?_, ?_, ?_⟩
  · intro g hg' c hcc
    rcases mem_of_mem_set hg hg' with rfl | hg'
    · cases hcc
    · exact h'.cutoffs g (by rw [hgcs]; exact hg') c hcc
  · exact fun p hp hlt => hspared _ (h'.flight p hp hlt) (hflight p hp hlt)
  · exact fun p hp hlt hf row hrow => h'.young p hp hlt hf row (mem_deleteWhere.1 hrow).1
  · intro r hr ht
    refine hspared _ (h'.held r hr ht) fun row hrow hh => ?_
    have hpos : 0 < b₁.refs.countP fun r => decide (r.hash = row.hash) :=
      List.countP_pos_iff.2 ⟨r, hr, by simp [hh]⟩
    have : ¬ row.refs ≤ 0 := by
      rw [hc.refs row hrow]
      omega
    simp [Blobs.garbage, this]

/-- Deleting the file of a doomed blob takes no file that is kept. -/
theorem Safe.gcFile (h : Safe minAge b) {i : Nat} {hashes : List BlobHash}
    (hg : b.gcs[i]? = some (.deleting (hash :: hashes))) :
    Safe minAge { b with
      files := Blobs.deleteFile hash b.files, gcs := b.gcs.set i (.deleting hashes) } := by
  have hspared : ∀ x, Kept b x → Kept { b with
      files := Blobs.deleteFile hash b.files, gcs := b.gcs.set i (.deleting hashes) } x := by
    intro x hk
    refine ⟨hk.row, ?_, ?_⟩
    · have hne : x ≠ hash := by
        rintro rfl
        exact hk.spared _ (List.mem_of_getElem? hg) List.mem_cons_self
      exact List.mem_filter.2 ⟨hk.file, by simpa using hne⟩
    · intro g hg' hin
      obtain ⟨g₀, hg₀, hin₀⟩ := doomed_of_set hg (fun _ => List.mem_cons_of_mem _) g hg' x hin
      exact hk.spared g₀ hg₀ hin₀
  refine ⟨h.times, ?_, fun p hp hlt => hspared _ (h.flight p hp hlt), h.young,
    fun r hr ht => hspared _ (h.held r hr ht)⟩
  intro g hg' c hcc
  rcases mem_of_mem_set hg hg' with rfl | hg'
  · cases hcc
  · exact h.cutoffs g hg' c hcc

end InFlight

theorem Safe.step {minAge : Int} {b b' : Blobs} {e : Event} (h : Safe minAge b) (hc : Counted b)
    (hl : Locked b) (hok : Renewed minAge b e) (hs : step minAge b e = some b') : Safe minAge b' := by
  -- Steps that leave the rows, the references and the collectors as they are.
  have idle : ∀ b' : Blobs, b.clock ≤ b'.clock → b'.returned = b.returned → b'.rows = b.rows →
      b'.refs = b.refs → (∀ f ∈ b.files, f ∈ b'.files) → b'.gcs = b.gcs → Safe minAge b' := by
    intro b' hclock hret hrows hrefs hfiles hgcs
    refine h.of_kept hclock hret (by rw [hrows]; exact fun row hrow => ⟨row, hrow, rfl⟩)
      (by rw [hrows]; exact fun row hrow => Or.inl ⟨row, hrow, rfl, le_rfl⟩) hfiles
      (by rw [hgcs]; exact fun g hg x hx => ⟨g, hg, hx⟩) (h.cutoffs_le hclock hgcs)
      (by rw [hrefs]; exact h.held)
  cases e with
  | tick d => cases hs; exact idle _ (by show b.clock ≤ b.clock + d; omega) rfl rfl rfl (fun _ hf => hf) rfl
  | insert table account hash => cases hs; exact h.insert table account hash
  | remove ids => cases hs; exact h.remove _
  | putBegin hash size =>
    simp only [Blob.step] at hs
    split at hs
    · cases hs
    · cases hs; exact idle _ le_rfl rfl rfl rfl (fun _ hf => hf) rfl
  | putLook i =>
    simp only [Blob.step] at hs
    split at hs
    · cases hs; exact idle _ le_rfl rfl rfl rfl (fun _ hf => hf) rfl
    · cases hs
  | putRename i =>
    simp only [Blob.step] at hs
    split at hs
    · cases hs
      refine idle _ le_rfl rfl rfl rfl (fun f hf => ?_) rfl
      split
      · exact hf
      · exact List.mem_append_left _ hf
    · cases hs
  | putRow i =>
    simp only [Blob.step] at hs
    split at hs
    · next hash size hp =>
      cases hs
      -- The lock is held, so no collector has files to delete.
      have hspared : ∀ g ∈ b.gcs, hash ∉ g.doomed := by
        intro g hg hin
        have := hl.apart g hg (Gc.holds_of_doomed hin) _ (List.mem_of_getElem? hp)
        cases this
      exact (h.putRow hash size (b.puts.set i ⟨hash, size, .over⟩)).return
        ⟨(rows_putRow hash size).2, hl.stored _ (List.mem_of_getElem? hp) rfl, hspared⟩
        (fun hsets row hrow hh => (createdAt_putRow hrow).2 hsets hh)
    · next hash size hp => cases hs; exact h.putRow hash size _
    · cases hs
  | putCancel i =>
    simp only [Blob.step] at hs
    split at hs
    · cases hs; exact idle _ le_rfl rfl rfl rfl (fun _ hf => hf) rfl
    · cases hs; exact idle _ le_rfl rfl rfl rfl (fun _ hf => hf) rfl
    · cases hs; exact idle _ le_rfl rfl rfl rfl (fun _ hf => hf) rfl
    · cases hs
  | pause => cases hs; exact idle _ le_rfl rfl rfl rfl (fun _ hf => hf) rfl
  | unpause i =>
    simp only [Blob.step] at hs
    split at hs
    · cases hs; exact idle _ le_rfl rfl rfl rfl (fun _ hf => hf) rfl
    · cases hs
  | gcCheck =>
    cases hs
    split
    · exact h
    · refine h.of_kept le_rfl rfl (fun row hrow => ⟨row, hrow, rfl⟩)
        (fun row hrow => .inl ⟨row, hrow, rfl, le_rfl⟩) (fun _ hf => hf) ?_ ?_ h.held
      · intro g hg x hx
        rcases List.mem_append.1 hg with hg | hg
        · exact ⟨g, hg, hx⟩
        · rw [List.mem_singleton.1 hg] at hx
          cases hx
      · intro g hg c hcc
        rcases List.mem_append.1 hg with hg | hg
        · exact h.cutoffs g hg c hcc
        · rw [List.mem_singleton.1 hg] at hcc
          cases hcc
  | gcLock i =>
    simp only [Blob.step] at hs
    split at hs
    · next hg =>
      split at hs
      · cases hs
      · cases hs
        refine h.of_kept le_rfl rfl (fun row hrow => ⟨row, hrow, rfl⟩)
          (fun row hrow => .inl ⟨row, hrow, rfl, le_rfl⟩) (fun _ hf => hf)
          (doomed_of_set hg fun x hx => by cases hx) ?_ h.held
        intro g hg' c hcc
        rcases mem_of_mem_set hg hg' with rfl | hg'
        · cases hcc
          exact le_rfl
        · exact h.cutoffs g hg' c hcc
    · cases hs
  | gcRows i =>
    simp only [Blob.step] at hs
    split at hs
    · next cutoff hg =>
      cases hs
      exact h.gcRows hc hg hok
    · cases hs
  | gcFile i =>
    simp only [Blob.step] at hs
    split at hs
    · next hash hashes hg =>
      cases hs
      exact h.gcFile hg
    · cases hs
  | gcEnd i =>
    simp only [Blob.step] at hs
    split at hs
    · cases hs
    · next g hne hg =>
      cases hs
      refine h.of_kept le_rfl rfl (fun row hrow => ⟨row, hrow, rfl⟩)
        (fun row hrow => .inl ⟨row, hrow, rfl, le_rfl⟩) (fun _ hf => hf)
        (doomed_of_set hg fun x hx => by cases hx) ?_ h.held
      intro g' hg' c hcc
      rcases mem_of_mem_set hg hg' with rfl | hg'
      · cases hcc
      · exact h.cutoffs g' hg' c hcc
    · cases hs

/-- A store without blobs. -/
def Blobs.empty (clock : Int) : Blobs := { clock := clock }

theorem counted_locked_empty (clock : Int) : Counted (.empty clock) ∧ Locked (.empty clock) := by
  refine ⟨⟨?_, ?_, ?_⟩, ?_, ?_⟩ <;> simp [Blobs.empty, UniqueKey]

/-- **Blobs in flight are safe where what is put is new to the collector.**  In every run in which
no collector deletes a blob that was put again, while something referred to it, less than `minAge`
ago: a row inserted less than `minAge` after a `put_blob` returned its hash finds the blob's row and
its file and is inserted; and while such a row exists, so do the blob's row and its file. -/
theorem blob_in_flight_safe (minAge clock : Int) (es : List Event) (b : Blobs)
    (hrun : run (step minAge) (.empty clock) es = some b)
    (hok : Along (step minAge) (Renewed minAge) (.empty clock) es) :
    (∀ table account, ∀ p ∈ b.returned, b.clock < p.at_ + minAge →
      (∃ row ∈ b.rows, row.hash = p.hash) ∧ p.hash ∈ b.files ∧
        ∀ b', step minAge b (.insert table account p.hash) = some b' →
          ∃ r ∈ b'.refs, r.table = table ∧ r.hash = p.hash ∧ r.inTime = true) ∧
    (∀ r ∈ b.refs, r.inTime = true → (∃ row ∈ b.rows, row.hash = r.hash) ∧ r.hash ∈ b.files) := by
  have hsafe := run_invariant (P := fun b => Safe minAge b ∧ Counted b ∧ Locked b)
    (fun b e b' h hok hs => ⟨h.1.step h.2.1 h.2.2 hok hs, h.2.1.step hs, h.2.2.step hs⟩)
    ⟨⟨by simp [Blobs.empty], by simp [Blobs.empty], by simp [Blobs.empty], by simp [Blobs.empty],
      by simp [Blobs.empty]⟩, counted_locked_empty clock⟩ hok hrun
  refine ⟨?_, fun r hr ht => ⟨(hsafe.1.held r hr ht).row, (hsafe.1.held r hr ht).file⟩⟩
  intro table account p hp hlt
  have hk := hsafe.1.flight p hp hlt
  refine ⟨hk.row, hk.file, ?_⟩
  intro b' hs
  cases hs
  obtain ⟨row, hrow, hh⟩ := hk.row
  have hfl : Blobs.inFlight minAge b p.hash = true :=
    List.any_eq_true.2 ⟨p, hp, by simp [hlt]⟩
  unfold Blobs.insert
  rw [if_pos (List.any_eq_true.2 ⟨row, hrow, by simpa using hh⟩)]
  split
  · next hup =>
    simp only [Bool.and_eq_true, decide_eq_true_eq] at hup
    obtain ⟨r, hr, hr'⟩ := List.any_eq_true.1 hup.2
    refine ⟨_, mem_updateWhere.2 ⟨r, hr, rfl⟩, ?_⟩
    rw [if_pos hr']
    simp only [Blobs.isUpload, Bool.and_eq_true, decide_eq_true_eq] at hr'
    exact ⟨hr'.1.1.trans hup.1.symm, hr'.2, by simp [hfl]⟩
  · exact ⟨_, List.mem_append_right _ (List.mem_singleton_self _), rfl, rfl, hfl⟩

/-- Content, and a whole call of `put_blob` for it. -/
def mail : BlobHash := ⟨"9f86d081884c7d659a2feaa0c55ad015a3bf4f1b2b0b822cd15d6c15b0f00a08"⟩

def putMail (i : Nat) : List Event := [.putBegin mail 4, .putLook i, .putRename i, .putRow i]

/-- A mail that is put, and stored before its blob is an hour old. -/
theorem blob_in_flight_safe_mail :
    (run (step 3600) (.empty 0) (putMail 0 ++ [.gcCheck, .gcLock 0, .gcRows 0, .gcEnd 0])).map
      (fun b => (b.rows.map (·.hash), b.files)) = some ([mail], [mail]) ∧
    ∀ b, run (step 3600) (.empty 0) (putMail 0 ++ [.gcCheck, .gcLock 0, .gcRows 0, .gcEnd 0]) = some b →
      ∀ r ∈ b.refs, r.inTime = true → (∃ row ∈ b.rows, row.hash = r.hash) ∧ r.hash ∈ b.files :=
  ⟨by decide, fun b hb => (blob_in_flight_safe 3600 0 _ b hb (by decide)).2⟩

/-- The same mail comes a second time, the first copy of it is deleted, a collector runs, and then
the second copy is to be stored. -/
def putTwice : List Event :=
  putMail 0 ++ [.insert .emails 1 mail, .tick 4000, .putBegin mail 4, .putLook 1, .putRow 1,
    .remove [0], .gcCheck, .gcLock 0, .gcRows 0, .gcFile 0, .gcEnd 0]

/-- **A blob goes while it is in flight**: `put_blob` has just returned it, and the row that is to
refer to it finds neither row nor file and is refused. -/
theorem put_again_is_collected :
    (run (step 3600) (.empty 0) putTwice).map (fun b => (b.clock, b.returned.getLast?)) =
        some (4000, some ⟨mail, 4000, false⟩) ∧
      (run (step 3600) (.empty 0) putTwice).map (fun b => (b.rows, b.files)) = some ([], []) ∧
      (run (step 3600) (.empty 0) (putTwice ++ [.insert .emails 2 mail])).map (·.refs) = some [] := by
  decide

/-! ## 5. The pause -/

/-- **No guard is taken under a collector**: whoever takes one finds no call of `collect_garbage`
that has looked at the counter and is not over. -/
def NoneCollecting (b : Blobs) : Event → Prop
  | .pause => ∀ g ∈ b.gcs, g = .over
  | _ => True

instance (b : Blobs) : (e : Event) → Decidable (NoneCollecting b e)
  | .pause => inferInstanceAs (Decidable (∀ g ∈ b.gcs, g = .over))
  | .tick _ | .insert _ _ _ | .remove _ | .putBegin _ _ | .putLook _ | .putRename _ | .putRow _
  | .putCancel _ | .unpause _ | .gcCheck | .gcLock _ | .gcRows _ | .gcFile _ | .gcEnd _ =>
    isTrue trivial

/-- Guards that live. -/
def Blobs.alive (b : Blobs) : Nat := b.guards.countP (· = true)

/-- The counter is the number of guards that live, and while one does no collector is under way. -/
structure Paused (b : Blobs) : Prop where
  counter : b.paused = b.alive
  quiet : 0 < b.alive → ∀ g ∈ b.gcs, g = .over

section Pause

variable {minAge : Int} {b b' : Blobs} {e : Event}

theorem Paused.of_eq (h : Paused b) (hpaused : b'.paused = b.paused) (hguards : b'.guards = b.guards)
    (hgcs : b'.gcs = b.gcs) : Paused b' := by
  have halive : b'.alive = b.alive := by unfold Blobs.alive; rw [hguards]
  exact ⟨by rw [hpaused, halive]; exact h.counter, by rw [halive, hgcs]; exact h.quiet⟩

/-- A collector that is under way moves on: then no guard lives. -/
theorem Paused.setGc (h : Paused b) {i : Nat} {g : Gc} (hg : b.gcs[i]? = some g) (hne : g ≠ .over)
    (hpaused : b'.paused = b.paused) (hguards : b'.guards = b.guards) : Paused b' := by
  have halive : b'.alive = b.alive := by unfold Blobs.alive; rw [hguards]
  refine ⟨by rw [hpaused, halive]; exact h.counter, ?_⟩
  rw [halive]
  exact fun hpos => absurd (h.quiet hpos g (List.mem_of_getElem? hg)) hne

theorem Paused.step (h : Paused b) (hok : NoneCollecting b e) (hs : step minAge b e = some b') :
    Paused b' := by
  cases e with
  | insert table account hash =>
    cases hs
    unfold Blobs.insert
    split
    · split <;> exact h.of_eq rfl rfl rfl
    · exact h
  | pause =>
    cases hs
    refine ⟨?_, fun _ => hok⟩
    show b.paused + 1 = List.countP _ _
    simp [h.counter, Blobs.alive]
  | unpause i =>
    simp only [Blob.step] at hs
    split at hs
    · next hi =>
      cases hs
      have hset := countP_set_add (b := false) (fun g => decide (g = true)) hi
      have hcount := h.counter
      simp only [decide_true, Bool.false_eq_true, decide_false, Bool.toNat_true, Bool.toNat_false]
        at hset
      unfold Blobs.alive at hcount
      refine ⟨?_, fun hpos => h.quiet ?_⟩
      · show b.paused - 1 = (b.guards.set i false).countP fun g => decide (g = true)
        omega
      · unfold Blobs.alive at hpos ⊢
        omega
    · cases hs
  | gcCheck =>
    cases hs
    split
    · exact h
    · next hpaused =>
      refine ⟨h.counter, fun hpos => ?_⟩
      have hcount := h.counter
      have : 0 < b.alive := hpos
      omega
  | gcLock i =>
    simp only [Blob.step] at hs
    split at hs
    · next hg =>
      split at hs
      · cases hs
      · cases hs
        exact h.setGc hg (by simp) rfl rfl
    · cases hs
  | gcRows i =>
    simp only [Blob.step] at hs
    split at hs
    · next hg =>
      cases hs
      exact h.setGc hg (by simp) rfl rfl
    · cases hs
  | gcFile i =>
    simp only [Blob.step] at hs
    split at hs
    · next hg =>
      cases hs
      exact h.setGc hg (by simp) rfl rfl
    · cases hs
  | gcEnd i =>
    simp only [Blob.step] at hs
    split at hs
    · cases hs
    · next g hne hg =>
      cases hs
      exact h.setGc hg hne rfl rfl
    · cases hs
  | _ =>
    simp only [Blob.step] at hs
    repeat' split at hs
    all_goals cases hs
    all_goals exact h.of_eq rfl rfl rfl

/-- Only a collector's transaction takes rows away, and only its loop takes files. -/
theorem deleted_step (hs : step minAge b e = some b') (hquiet : ∀ g ∈ b.gcs, g = .over) :
    (∀ row ∈ b.rows, ∃ row' ∈ b'.rows, row'.hash = row.hash) ∧ ∀ f ∈ b.files, f ∈ b'.files := by
  have same : (∀ row ∈ b.rows, ∃ row' ∈ b.rows, row'.hash = row.hash) ∧ ∀ f ∈ b.files, f ∈ b.files :=
    ⟨fun row hrow => ⟨row, hrow, rfl⟩, fun _ hf => hf⟩
  cases e with
  | insert table account hash =>
    cases hs
    unfold Blobs.insert
    split
    · split
      · exact same
      · refine ⟨fun row hrow => ⟨_, mem_updateWhere.2 ⟨row, hrow, rfl⟩, ?_⟩, fun _ hf => hf⟩
        split <;> rfl
    · exact same
  | remove ids =>
    cases hs
    exact ⟨fun row hrow => ⟨_, List.mem_map_of_mem hrow, rfl⟩, fun _ hf => hf⟩
  | putRename i =>
    simp only [Blob.step] at hs
    split at hs
    · cases hs
      refine ⟨same.1, fun f hf => ?_⟩
      split
      · exact hf
      · exact List.mem_append_left _ hf
    · cases hs
  | putRow i =>
    simp only [Blob.step] at hs
    split at hs
    · cases hs; exact ⟨(rows_putRow _ _).1, fun _ hf => hf⟩
    · cases hs; exact ⟨(rows_putRow _ _).1, fun _ hf => hf⟩
    · cases hs
  | gcCheck =>
    cases hs
    split <;> exact same
  | gcRows i =>
    simp only [Blob.step] at hs
    split at hs
    · next hg => cases hquiet _ (List.mem_of_getElem? hg)
    · cases hs
  | gcFile i =>
    simp only [Blob.step] at hs
    split at hs
    · next hg => cases hquiet _ (List.mem_of_getElem? hg)
    · cases hs
  | _ =>
    simp only [Blob.step] at hs
    repeat' split at hs
    all_goals cases hs
    all_goals exact same

end Pause

/-- **Nothing is deleted while a guard lives**, in every run in which no guard is taken between a
collector's look at the counter and its end. -/
theorem pause_keeps_blobs (minAge clock : Int) (es : List Event) (b : Blobs)
    (hrun : run (step minAge) (.empty clock) es = some b)
    (hok : Along (step minAge) NoneCollecting (.empty clock) es) (halive : 0 < b.alive) (e : Event)
    (b' : Blobs) (hs : step minAge b e = some b') :
    (∀ row ∈ b.rows, ∃ row' ∈ b'.rows, row'.hash = row.hash) ∧ ∀ f ∈ b.files, f ∈ b'.files := by
  have h : Paused b := run_invariant (fun _ _ _ h hok hs => h.step hok hs)
    ⟨rfl, by simp [Blobs.empty]⟩ hok hrun
  exact deleted_step hs (h.quiet halive)

/-- A guard before the collector: the collector goes away. -/
theorem pause_keeps_blobs_mail :
    let es := putMail 0 ++ [.tick 4000, .pause, .gcCheck]
    (run (step 3600) (.empty 0) es).map (fun b => (b.alive, b.gcs)) = some (1, []) ∧
    ∀ b, run (step 3600) (.empty 0) es = some b → 0 < b.alive → ∀ e b', step 3600 b e = some b' →
      ∀ f ∈ b.files, f ∈ b'.files :=
  ⟨by decide, fun b hb ha e b' hs =>
    (pause_keeps_blobs 3600 0 _ b hb (by decide) ha e b' hs).2⟩

/-- **A guard does not stop a collector that waits for the lock**: it has looked at the counter, the
guard is taken, and then the row and the file go. -/
theorem guard_taken_too_late :
    (run (step 3600) (.empty 0) (putMail 0 ++ [.tick 4000, .gcCheck, .pause])).map
        (fun b => (b.alive, b.rows.map (·.hash), b.files)) = some (1, [mail], [mail]) ∧
      (run (step 3600) (.empty 0) (putMail 0 ++ [.tick 4000, .gcCheck, .pause, .gcLock 0, .gcRows 0,
        .gcFile 0])).map (fun b => (b.alive, b.rows.map (·.hash), b.files)) = some (1, [], []) := by
  decide

end UwuMail.Blob
