/-
# Calendars and address books

`dav.rs`: the collections of an account, the entries in them and the tombstones of the entries that
went, with every statement that writes one of the three tables.  All changes of a collection take
the next value of its `change`, a number that CTags and sync tokens are made from; an entry carries
the number it was last written under, and a tombstone the number its entry was deleted under.

A deletion and a move LEAVE a tombstone under the old name, and whoever writes an entry takes the
tombstone of its name away.  `moveEntry` does both, in two collections.

The digest of an ETag, SHA-256 in hexadecimal, is a parameter; the clock and the names a loop draws
at random are arguments.  The JMAP change log, alerts, photos, birthdays and versions are other
tables that the three here never read back.
-/
import UwuMail.Lib.Table
import UwuMail.Store.Mutate

namespace UwuMail.Dav

open Table Store

/-! ## 1. The tables -/

inductive DavKind where
  | calendar
  | addressbook
  deriving DecidableEq

/-- A row of `dav_collections`.  `subscribed` and `birthdays` say whether another table, of feeds or
of birthday calendars, names the collection. -/
structure DavCollection where
  id : Int
  accountId : Int
  kind : DavKind
  slug : String
  displayName : String := ""
  description : String := ""
  color : Option String := none
  sortOrder : Int := 0
  components : List String := []
  timezone : Option String := none
  change : Nat := 0
  isVisible : Bool := true
  isDefault : Bool := false
  subscribed : Bool := false
  birthdays : Bool := false
  createdAt : Int := 0
  deriving DecidableEq

/-- A row of `dav_resources`. -/
structure DavResource where
  id : Int
  collectionId : Int
  name : String
  uid : String
  etag : String
  content : String
  component : String
  startsAt : Option Int
  endsAt : Option Int
  size : Nat
  modifiedAt : Int
  change : Nat
  scheduleTag : Option String
  draft : Bool := false
  deriving DecidableEq

/-- A row of `dav_tombstones`. -/
structure DavTombstone where
  collectionId : Int
  name : String
  change : Nat
  deriving DecidableEq

/-- `UNIQUE (collection_id, name)`. -/
def DavResource.key (r : DavResource) : Int × String := (r.collectionId, r.name)

/-- `PRIMARY KEY (collection_id, name)`. -/
def DavTombstone.key (t : DavTombstone) : Int × String := (t.collectionId, t.name)

structure Db where
  collections : List DavCollection := []
  resources : List DavResource := []
  tombstones : List DavTombstone := []
  collectionSeq : Int := 0
  resourceSeq : Int := 0
  deriving DecidableEq

structure NewDavCollection where
  slug : String
  displayName : String := ""
  description : String := ""
  color : Option String := none
  components : List String := []

structure DavCollectionUpdate where
  displayName : Option String := none
  description : Option String := none
  color : Option (Option String) := none
  sortOrder : Option Int := none
  timezone : Option (Option String) := none
  isVisible : Option Bool := none

/-- What a client wants to store. -/
structure DavWrite where
  name : String
  content : String
  uid : String
  component : String
  startsAt : Option Int := none
  endsAt : Option Int := none

/-- The conditions of a PUT or DELETE (`If-Match`, `If-None-Match: *`). -/
structure DavPrecondition where
  ifMatch : Option String := none
  ifNoneMatchAny : Bool := false

inductive DavWriteOutcome where
  | created (etag : String)
  | updated (etag : String)
  | preconditionFailed
  | uidTaken (name : String)

/-- What changed in a collection after a change number. -/
structure DavChanges where
  change : Nat
  changed : List DavResource
  deleted : List String

def davResourcesPerCollection : Nat := 50000
def davCollectionsPerAccount : Nat := 100

/-! ## 2. Statements -/

namespace Db

/-- `collection_by_id`. -/
def collection (db : Db) (id : Int) : Option DavCollection := db.collections.find? fun c => c.id == id

/-- The entry of a name. -/
def resource (db : Db) (key : Int × String) : Option DavResource :=
  db.resources.find? fun r => r.key == key

def tombstone (db : Db) (key : Int × String) : Option DavTombstone :=
  db.tombstones.find? fun t => t.key == key

/-- `SELECT count(*) FROM dav_resources WHERE collection_id = ?1`. -/
def count (db : Db) (collection : Int) : Nat := db.resources.countP fun r => r.collectionId == collection

def updateCollection (id : Int) (f : DavCollection → DavCollection) (db : Db) : Db :=
  { db with collections := updateWhere (fun c => c.id == id) f db.collections }

/-- `UPDATE dav_collections SET change = change + 1 WHERE id = ?1`. -/
def bump (id : Int) (db : Db) : Db := db.updateCollection id fun c => { c with change := c.change + 1 }

/-- `INSERT INTO dav_resources .. ON CONFLICT (collection_id, name) DO UPDATE`: an entry of that
name keeps its row id and its draft flag. -/
def upsert (row : DavResource) (db : Db) : Int × Db :=
  match db.resource row.key with
  | some old =>
    (old.id, { db with
      resources := updateWhere (fun r => r.key == row.key)
        (fun r => { row with id := r.id, draft := r.draft }) db.resources })
  | none =>
    (db.resourceSeq + 1, { db with
      resources := db.resources ++ [{ row with id := db.resourceSeq + 1 }]
      resourceSeq := db.resourceSeq + 1 })

/-- `INSERT OR REPLACE INTO dav_tombstones`. -/
def putTombstone (row : DavTombstone) (db : Db) : Db :=
  { db with tombstones := insertOrReplace DavTombstone.key row db.tombstones }

/-- `DELETE FROM dav_tombstones WHERE collection_id = ?1 AND name = ?2`. -/
def deleteTombstone (key : Int × String) (db : Db) : Db :=
  { db with tombstones := deleteWhere (fun t => t.key == key) db.tombstones }

def updateResource (id : Int) (f : DavResource → DavResource) (db : Db) : Db :=
  { db with resources := updateWhere (fun r => r.id == id) f db.resources }

def deleteResource (id : Int) (db : Db) : Db :=
  { db with resources := deleteWhere (fun r => r.id == id) db.resources }

/-- `DELETE FROM dav_collections WHERE ..`: entries and tombstones go with their collection. -/
def deleteCollections (p : DavCollection → Bool) (db : Db) : Db :=
  let gone (id : Int) : Bool := db.collections.any fun c => p c && c.id == id
  { db with
    collections := deleteWhere p db.collections
    resources := deleteWhere (fun r => gone r.collectionId) db.resources
    tombstones := deleteWhere (fun t => gone t.collectionId) db.tombstones }

end Db

/-! ## 3. Names and contents -/

/-- `dav_etag`: the digest between quotation marks. -/
def davEtag (digest : String → String) (content : String) : String := "\"" ++ digest content ++ "\""

/-- `without_controls`: no control characters other than tab, CR and LF. -/
def withoutControls (content : String) : String :=
  String.ofList (content.toList.filter fun c =>
    !((c.toNat ≤ 0x1f || c.toNat == 0x7f) && !(c == '\t' || c == '\r' || c == '\n')))

/-- Path segments stay short and URL-safe. -/
def validSegment (segment : String) : Bool :=
  segment != "" && decide (segment.utf8ByteSize ≤ 200) && segment != "." && segment != ".." &&
    segment.toList.all fun c => c.isAlphanum || "-_.@+~".toList.contains c

/-- Whether an entry or a tombstone has the name. -/
def taken (db : Db) (key : Int × String) : Bool :=
  (db.resource key).isSome || (db.tombstone key).isSome

/-- A resource name for a new entry: the UID when it fits into a URL and is free, else the first of
the names drawn that is free; `none` when the loop still goes on. -/
def newEntryName (collection : Int) (uid extension : String) (draws : List String) (db : Db) :
    Option String :=
  let fromUid := uid ++ "." ++ extension
  if validSegment fromUid && decide (fromUid.utf8ByteSize ≤ 120) && !taken db (collection, fromUid) then
    some fromUid
  else
    (draws.map fun drawn => drawn ++ "." ++ extension).find? fun name => !taken db (collection, name)

/-- Refuses writes into a calendar that something else fills. -/
def checkEntriesWritable (collection : DavCollection) : Except StoreError PUnit :=
  if collection.birthdays then
    .error (.rule "readOnly"
      "the birthdays calendar is made from your contacts; change a birthday in the contact")
  else if collection.subscribed then
    .error (.rule "readOnly"
      "this calendar is filled from a subscription and cannot be changed")
  else .ok ⟨⟩

def noRows : StoreError := .sqlite "Query returned no rows"

/-- `collection_by_id` and `own_collection`. -/
def ownCollection (db : Db) (account : Option Int) (id : Int) : Except StoreError DavCollection :=
  match db.collections.find? (fun c => c.id == id && account.all (c.accountId == ·)) with
  | some c => .ok c
  | none => .error (.notFound s!"collection {id}")

/-- `next_change`: counts a change of the collection and returns its number. -/
def nextChange (id : Int) (db : Db) : Except StoreError (Nat × Db) :=
  match db.collection id with
  | some c => .ok (c.change + 1, db.bump id)
  | none => .error noRows

/-! ## 4. Entries -/

variable (digest : String → String)

/-- The row an entry is written as; a new one gets its id from the table. -/
def entryRow (collection : Int) (write : DavWrite) (content : String) (now : Int) (change : Nat) :
    DavResource where
  id := 0
  collectionId := collection
  name := write.name
  uid := write.uid
  etag := davEtag digest content
  content
  component := write.component
  startsAt := write.startsAt
  endsAt := write.endsAt
  size := content.utf8ByteSize
  modifiedAt := now
  change
  scheduleTag := some (davEtag digest content)

/-- Whether `If-Match` allows the write. -/
def DavPrecondition.matches (condition : DavPrecondition) (current : Option DavResource) : Bool :=
  match condition.ifMatch, current with
  | some wanted, some r => wanted == "*" || wanted == r.etag
  | some _, none => false
  | none, _ => true

/-- `put_entry_unchecked`: stores an entry under a condition; UIDs stay unique in a collection. -/
def putEntryUnchecked (collection : DavCollection) (write : DavWrite) (condition : DavPrecondition)
    (now : Int) (db : Db) : Except StoreError ((DavWriteOutcome × Option Int) × Db) :=
  let content := withoutControls write.content
  let current := db.resource (collection.id, write.name)
  if !condition.matches current || (condition.ifNoneMatchAny && current.isSome) then
    .ok ((.preconditionFailed, none), db)
  else
    match db.resources.find? fun r =>
        r.collectionId == collection.id && r.uid == write.uid && r.name != write.name with
    | some other => .ok ((.uidTaken other.name, none), db)
    | none =>
      if current.isNone && decide (db.count collection.id ≥ davResourcesPerCollection) then
        .error .quotaExceeded
      else do
        let etag := davEtag digest content
        let (change, db) ← nextChange collection.id db
        let (id, db) := db.upsert (entryRow digest collection.id write content now change)
        let outcome := if current.isSome then .updated etag else .created etag
        pure ((outcome, some id), db.deleteTombstone (collection.id, write.name))

def putEntry (collection : DavCollection) (write : DavWrite) (condition : DavPrecondition)
    (now : Int) (db : Db) : Except StoreError ((DavWriteOutcome × Option Int) × Db) := do
  checkEntriesWritable collection
  putEntryUnchecked digest collection write condition now db

/-- `delete_entry_unchecked`: deletes an entry and leaves a tombstone. -/
def deleteEntryUnchecked (collection : DavCollection) (name : String) (ifMatch : Option String)
    (db : Db) : Except StoreError (Bool × Db) :=
  match db.resource (collection.id, name) with
  | none => .ok (false, db)
  | some r =>
    if ifMatch.any fun wanted => wanted != "*" && wanted != r.etag then .ok (false, db)
    else do
      let (change, db) ← nextChange collection.id db
      pure (true, (db.deleteResource r.id).putTombstone ⟨collection.id, name, change⟩)

def deleteEntry (collection : DavCollection) (name : String) (ifMatch : Option String) (db : Db) :
    Except StoreError (Bool × Db) := do
  checkEntriesWritable collection
  deleteEntryUnchecked collection name ifMatch db

/-- The checks of `move_entry`, and whether the target has the name free. -/
def moveChecks (sourceId : Int) (target : DavCollection) (name : String) (db : Db) :
    Except StoreError Bool := do
  checkEntriesWritable target
  checkEntriesWritable (← ownCollection db none sourceId)
  if db.count target.id ≥ davResourcesPerCollection then .error .quotaExceeded
  else .ok (db.resource (target.id, name)).isNone

/-- The writes of `move_entry`. -/
def moveWrites (id sourceId : Int) (target : DavCollection) (write : DavWrite) (newName : String)
    (now : Int) (db : Db) : Except StoreError (String × Db) :=
  let content := withoutControls write.content
  match db.resources.find? fun r => r.id == id with
  | none => .error noRows
  | some _ => do
    let (oldChange, db) ← nextChange sourceId db
    let db := db.putTombstone ⟨sourceId, write.name, oldChange⟩
    let (change, db) ← nextChange target.id db
    let etag := davEtag digest content
    let db := db.updateResource id fun r =>
      { r with
        collectionId := target.id, name := newName, uid := write.uid, etag, content
        startsAt := write.startsAt, endsAt := write.endsAt, size := content.utf8ByteSize
        modifiedAt := now, change, scheduleTag := some etag }
    pure (etag, db.deleteTombstone (target.id, newName))

/-- `move_entry`: an entry goes into another collection and keeps its row id.  It keeps its name too
where the target has that free.  `none` while the loop of `newEntryName` goes on. -/
def moveEntry (id sourceId : Int) (target : DavCollection) (write : DavWrite) (extension : String)
    (draws : List String) (now : Int) (db : Db) : Option (Except StoreError (String × Db)) :=
  match moveChecks sourceId target write.name db with
  | .error e => some (.error e)
  | .ok free =>
    let newName :=
      if free then some write.name else newEntryName target.id write.uid extension draws db
    newName.map fun newName => moveWrites digest id sourceId target write newName now db

/-- What `put_calendar_event` and `put_contact_card` do with an entry they are given the id of: they
read its collection and its name from its row, and it is written there or moved. -/
def storeEntry (id targetId : Int) (write : DavWrite) (extension : String) (draws : List String)
    (now : Int) (db : Db) : Option (Except StoreError (String × Db)) :=
  match db.collection targetId, db.resources.find? fun r => r.id == id with
  | some target, some r =>
    let write := { write with name := r.name }
    if r.collectionId == target.id then
      match putEntry digest target write { ifMatch := some r.etag } now db with
      | .ok ((.updated etag, _), db) => some (.ok (etag, db))
      | .ok _ => some (.error (.internal "an entry could not be updated"))
      | .error e => some (.error e)
    else moveEntry digest id r.collectionId target write extension draws now db
  | _, _ => some (.error (.notFound s!"entry {id}"))

/-! ## 5. Collections -/

def insertCollection (account : Int) (kind : DavKind) (new : NewDavCollection) (now : Int) (db : Db) :
    Except StoreError (Int × Db) :=
  if !validSegment new.slug then .error (.invalid s!"'{new.slug}' cannot be part of a URL")
  else if (db.collections.countP fun c => c.accountId == account) ≥ davCollectionsPerAccount then
    .error (.rule "davCollectionsFull" "too many calendars and address books")
  else if db.collections.any fun c => c.accountId == account && c.kind == kind && c.slug == new.slug then
    .error (.conflict s!"collection {new.slug}")
  else
    let id := db.collectionSeq + 1
    let row : DavCollection :=
      { id, accountId := account, kind, slug := new.slug, displayName := trim new.displayName
        description := trim new.description, color := new.color, components := new.components
        createdAt := now
        -- the first of its kind, or the first after all others were deleted, is the default
        isDefault := !db.collections.any fun c => c.accountId == account && c.kind == kind && c.isDefault }
    .ok (id, { db with collections := db.collections ++ [row], collectionSeq := id })

def applyCollectionUpdate (id : Int) (update : DavCollectionUpdate) (db : Db) :
    Except StoreError Db := do
  let db := db.updateCollection id fun c =>
    { c with
      displayName := (update.displayName.map trim).getD c.displayName
      description := (update.description.map trim).getD c.description
      color := update.color.getD c.color
      sortOrder := update.sortOrder.getD c.sortOrder
      timezone := update.timezone.getD c.timezone
      isVisible := update.isVisible.getD c.isVisible }
  let (_, db) ← nextChange id db
  pure db

/-- `dav_changes`: what changed after `since`, for sync-collection. -/
def davChanges (account collectionId : Int) (since : Nat) (db : Db) : Except StoreError DavChanges := do
  let collection ← ownCollection db (some account) collectionId
  let changed := db.resources.filter fun r => r.collectionId == collectionId && decide (since < r.change)
  let deleted := db.tombstones.filter fun t =>
    t.collectionId == collectionId && decide (since < t.change)
  pure ⟨collection.change, changed.insertionSort (·.name ≤ ·.name),
    (deleted.map (·.name)).insertionSort (· ≤ ·)⟩

/-! ## 6. Histories -/

/-- What happens to the tables.  Each event is a transaction, or a part of one that is committed. -/
inductive Event where
  | create (account : Int) (kind : DavKind) (new : NewDavCollection) (now : Int)
  | drop (p : DavCollection → Bool)
  | update (id : Int) (update : DavCollectionUpdate)
  /-- A feed or a person's address books take a calendar over, or let it go. -/
  | fill (id : Int) (subscribed birthdays : Bool)
  | put (id : Int) (write : DavWrite) (condition : DavPrecondition) (now : Int)
  | putUnchecked (id : Int) (write : DavWrite) (condition : DavPrecondition) (now : Int)
  | delete (id : Int) (name : String) (ifMatch : Option String)
  | deleteUnchecked (id : Int) (name : String) (ifMatch : Option String)
  | store (id targetId : Int) (write : DavWrite) (extension : String) (draws : List String) (now : Int)
  /-- `UPDATE dav_resources SET schedule_tag = ?1` and `SET draft = ?1`. -/
  | mark (id : Int) (scheduleTag : Option (Option String)) (draft : Option Bool)

/-- A transaction that fails leaves everything as it was. -/
def commit {α : Type} (db : Db) : Except StoreError (α × Db) → Db
  | .ok (_, db') => db'
  | .error _ => db

/-- A call for a collection, found by its id. -/
def within {α : Type} (id : Int) (db : Db) (f : DavCollection → Except StoreError (α × Db)) : Db :=
  commit db (ownCollection db none id >>= f)

def step (db : Db) : Event → Option Db
  | .create account kind new now => some (commit db (insertCollection account kind new now db))
  | .drop p => some (db.deleteCollections p)
  | .update id update =>
    some (within id db fun c => return ((), ← applyCollectionUpdate c.id update db))
  | .fill id subscribed birthdays =>
    some (db.updateCollection id fun c => { c with subscribed, birthdays })
  | .put id write condition now =>
    some (within id db fun c => putEntry digest c write condition now db)
  | .putUnchecked id write condition now =>
    some (within id db fun c => putEntryUnchecked digest c write condition now db)
  | .delete id name ifMatch => some (within id db fun c => deleteEntry c name ifMatch db)
  | .deleteUnchecked id name ifMatch =>
    some (within id db fun c => deleteEntryUnchecked c name ifMatch db)
  | .store id targetId write extension draws now =>
    (storeEntry digest id targetId write extension draws now db).map (commit db)
  | .mark id scheduleTag draft =>
    some (db.updateResource id fun r =>
      { r with scheduleTag := scheduleTag.getD r.scheduleTag, draft := draft.getD r.draft })

end UwuMail.Dav
