/-
# Making and deleting collections

Every function of `dav.rs`, `calendar.rs`, `contacts.rs`, `calendar_subscriptions.rs`,
`dav_import.rs` and `birthdays.rs` that makes or deletes a collection or moves the default flag.
`insert_collection` flags a collection that finds no other flagged one; five callers make calendars
with it, and each decides on its own what is made BEFORE and what becomes of the flag.

The tables are those of `Dav.Entries` and the subscriptions.  What listing writes when the language
changed is about entries and a name, and is left out.
-/
import UwuMail.Dav.Entries

namespace UwuMail.Dav.Collections

open Table Store

/-! ## 1. The functions -/

/-- A row of `calendar_subscriptions`. -/
structure CalendarSubscription where
  id : Int
  accountId : Int
  collectionId : Int
  urlDigest : String
  intervalSecs : Int
  keepAlarms : Bool

structure NewCalendarSubscription where
  collection : NewDavCollection
  url : String
  intervalSecs : Int
  keepAlarms : Bool

structure World where
  db : Db := {}
  subscriptions : List CalendarSubscription := []

def maxCalendarSubscriptions : Nat := 20
def minSubscriptionIntervalSecs : Int := 900
def maxSubscriptionIntervalSecs : Int := 7 * 86400
def birthdaysSlug : String := "birthdays"

/-- The collections of an account and a kind. -/
def ofKind (account : Int) (kind : DavKind) (c : DavCollection) : Bool :=
  c.accountId == account && c.kind == kind

/-- `ensure_default`: after the default collection of a kind is gone, the first of the rest takes
over. -/
def ensureDefault (account : Int) (kind : DavKind) (db : Db) : Db :=
  if db.collections.any fun c => ofKind account kind c && c.isDefault then db
  else
    let rest := db.collections.filter fun c => ofKind account kind c && !c.subscribed && !c.birthdays
    match (rest.insertionSort fun c d =>
        c.sortOrder < d.sortOrder ∨ (c.sortOrder = d.sortOrder ∧ c.id ≤ d.id)).head? with
    | some first => db.updateCollection first.id fun c => { c with isDefault := true }
    | none => db

/-- `set_default`: the flag leaves the collection that has it. -/
def setDefault (collection : DavCollection) (db : Db) : Db :=
  if collection.isDefault then db
  else
    let db := { db with
      collections := updateWhere (fun c => ofKind collection.accountId collection.kind c && c.isDefault)
        (fun c => { c with isDefault := false }) db.collections }
    db.updateCollection collection.id fun c => { c with isDefault := true }

/-- `delete_collection`: the subscription that fills it goes with it. -/
def deleteCollection (collection : DavCollection) (w : World) : World :=
  let db := w.db.deleteCollections fun c => c.id == collection.id
  { db := if collection.isDefault then ensureDefault collection.accountId collection.kind db else db
    subscriptions := deleteWhere (fun s => s.collectionId == collection.id) w.subscriptions }

/-- `own_calendar` and `own_address_book`. -/
def ownOfKind (account : Int) (kind : DavKind) (id : Int) (db : Db) : Except StoreError DavCollection := do
  let collection ← ownCollection db (some account) id
  if collection.kind = kind then pure collection
  else match kind with
    | .calendar => .error (.notFound s!"calendar {id}")
    | .addressbook => .error (.notFound s!"address book {id}")

/-- The account's first collection of a kind is made, where there is none of a sort. -/
def makeFirst (account : Int) (kind : DavKind) (sort : DavCollection → Bool) (fresh : NewDavCollection)
    (now : Int) (db : Db) : Except StoreError Db :=
  if db.collections.any fun c => ofKind account kind c && sort c then .ok db
  else (insertCollection account kind fresh now db).map Prod.snd

/-- `dav_collections`.  The birthdays calendar is no calendar of one's own. -/
def davCollections (account : Int) (kind : DavKind) (fresh : NewDavCollection) (now : Int) (w : World) :
    Except StoreError World := do
  let db ← makeFirst account kind (fun c => !c.birthdays) fresh now w.db
  pure { w with db }

def davCreateCollection (account : Int) (kind : DavKind) (new : NewDavCollection) (now : Int) (w : World) :
    Except StoreError World := do
  let (_, db) ← insertCollection account kind new now w.db
  pure { w with db }

/-- `create_calendar` and `create_address_book`. -/
def createWith (account : Int) (kind : DavKind) (new : NewDavCollection) (update : DavCollectionUpdate)
    (now : Int) (w : World) : Except StoreError World := do
  let (id, db) ← insertCollection account kind new now w.db
  let db ← applyCollectionUpdate id update db
  pure { w with db }

def davUpdateCollection (account id : Int) (update : DavCollectionUpdate) (w : World) :
    Except StoreError World := do
  let collection ← ownCollection w.db (some account) id
  let db ← applyCollectionUpdate collection.id update w.db
  pure { w with db }

def setDefaultCalendar (account id : Int) (w : World) : Except StoreError World := do
  let calendar ← ownOfKind account .calendar id w.db
  checkEntriesWritable calendar
  pure { w with db := setDefault calendar w.db }

def setDefaultAddressBook (account id : Int) (w : World) : Except StoreError World := do
  let book ← ownOfKind account .addressbook id w.db
  pure { w with db := setDefault book w.db }

def checkDeletable (collection : DavCollection) : Except StoreError PUnit :=
  if collection.birthdays then
    .error (.rule "forbidden" "the birthdays calendar comes from your contacts; hide it instead")
  else .ok ⟨⟩

/-- `destroy_calendar`: the last calendar stays. -/
def destroyCalendar (account id : Int) (withEvents : Bool) (w : World) : Except StoreError World := do
  let calendar ← ownOfKind account .calendar id w.db
  checkDeletable calendar
  if (w.db.collections.countP fun c => ofKind account .calendar c && !c.birthdays) ≤ 1 then
    .error (.rule "forbidden" "the only calendar cannot be deleted")
  else if decide (w.db.count calendar.id > 0) && !withEvents then
    .error (.rule "calendarHasEvent" "the calendar still has entries")
  else pure (deleteCollection calendar w)

/-- `destroy_address_book`: the last one stays. -/
def destroyAddressBook (account id : Int) (withContents : Bool) (w : World) : Except StoreError World := do
  let book ← ownOfKind account .addressbook id w.db
  if (w.db.collections.countP fun c => ofKind account .addressbook c) ≤ 1 then
    .error (.rule "forbidden" "the only address book cannot be deleted")
  else if decide (w.db.count book.id > 0) && !withContents then
    .error (.rule "addressBookHasContents" "the address book still has cards")
  else pure (deleteCollection book w)

def davDeleteCollection (account id : Int) (w : World) : Except StoreError World := do
  let collection ← ownCollection w.db (some account) id
  checkDeletable collection
  pure (deleteCollection collection w)

/-- The first of `base`, `base-2`, `base-3` and so on that no slug is. -/
def freeSlug (base : String) (slugs : List String) : String :=
  ((base :: (List.range (slugs.length + 1)).map fun n => s!"{base}-{n + 2}").find? fun slug =>
    !slugs.contains slug).getD base

/-- `dav_create_import_collection`, for the URL segment made from its name. -/
def davCreateImportCollection (account : Int) (kind : DavKind) (base : String) (new fresh : NewDavCollection)
    (now : Int) (w : World) : Except StoreError World := do
  let db ← makeFirst account kind (fun _ => true) fresh now w.db
  let slug := freeSlug base ((db.collections.filter (ofKind account kind)).map DavCollection.slug)
  let (_, db) ← insertCollection account kind { new with slug } now db
  pure { w with db }

def createCalendarSubscription (digest : String → String) (account : Int) (new : NewCalendarSubscription)
    (fresh : NewDavCollection) (now : Int) (w : World) : Except StoreError World :=
  if !(decide (minSubscriptionIntervalSecs ≤ new.intervalSecs) &&
      decide (new.intervalSecs ≤ maxSubscriptionIntervalSecs)) then
    .error (.invalid s!"a feed is fetched every {minSubscriptionIntervalSecs} to {maxSubscriptionIntervalSecs} seconds")
  else if (w.subscriptions.countP fun s => s.accountId == account) ≥ maxCalendarSubscriptions then
    .error (.rule "subscriptionLimit" s!"at most {maxCalendarSubscriptions} subscribed calendars")
  else if w.subscriptions.any fun s => s.accountId == account && s.urlDigest == digest (trim new.url) then
    .error (.rule "subscriptionExists" "this calendar is subscribed already")
  else do
    let db ← makeFirst account .calendar (fun _ => true) fresh now w.db
    let (id, db) ← insertCollection account .calendar new.collection now db
    let row : CalendarSubscription :=
      { id := (w.subscriptions.map CalendarSubscription.id).foldr max 0 + 1, accountId := account
        collectionId := id, urlDigest := digest (trim new.url), intervalSecs := new.intervalSecs
        keepAlarms := new.keepAlarms }
    pure { db := db.updateCollection id fun c => { c with subscribed := true }
           subscriptions := w.subscriptions ++ [row] }

def deleteCalendarSubscription (account id : Int) (keepEntries : Bool) (w : World) :
    Except StoreError World :=
  match w.subscriptions.find? fun s => s.id == id && s.accountId == account with
  | none => .error (.notFound s!"subscription {id}")
  | some s => do
    -- `collection_id` is unique, so no other subscription fills the calendar.
    let w : World :=
      { db := w.db.updateCollection s.collectionId fun c => { c with subscribed := false }
        subscriptions := deleteWhere (fun s => s.id == id) w.subscriptions }
    let collection ← ownCollection w.db (some account) s.collectionId
    if keepEntries then
      -- Its rights changed: clients should ask again.
      let (_, db) ← nextChange collection.id w.db
      pure { w with db }
    else pure (deleteCollection collection w)

/-- `create` of `birthdays.rs`, called where the account has no birthdays calendar. -/
def createBirthdayCalendar (account : Int) (name color random : String) (now : Int) (w : World) :
    Except StoreError World :=
  if w.db.collections.any fun c => c.accountId == account && c.birthdays then .ok w
  else do
    let slugs := (w.db.collections.filter (ofKind account .calendar)).map DavCollection.slug
    let slug := if slugs.contains birthdaysSlug then s!"{birthdaysSlug}-{random}" else birthdaysSlug
    let (id, db) ← insertCollection account .calendar
      { slug, displayName := name, color := some color, components := ["VEVENT"] } now w.db
    let db := db.updateCollection id fun c => { c with isDefault := false }
    let default := db.collections.find? fun c => ofKind account .calendar c && c.isDefault
    pure { w with
      db := db.updateCollection id fun c =>
        { c with timezone := default.bind DavCollection.timezone, birthdays := true } }

/-! ## 2. Histories -/

inductive Event where
  | list (account : Int) (kind : DavKind) (fresh : NewDavCollection) (now : Int)
  | create (account : Int) (kind : DavKind) (new : NewDavCollection) (now : Int)
  | createWith (account : Int) (kind : DavKind) (new : NewDavCollection) (update : DavCollectionUpdate)
      (now : Int)
  | update (account id : Int) (update : DavCollectionUpdate)
  | setDefaultCalendar (account id : Int)
  | setDefaultAddressBook (account id : Int)
  | destroyCalendar (account id : Int) (withEvents : Bool)
  | destroyAddressBook (account id : Int) (withContents : Bool)
  | delete (account id : Int)
  | importInto (account : Int) (kind : DavKind) (base : String) (new fresh : NewDavCollection) (now : Int)
  | subscribe (account : Int) (new : NewCalendarSubscription) (fresh : NewDavCollection) (now : Int)
  | unsubscribe (account id : Int) (keepEntries : Bool)
  | birthdays (account : Int) (name color random : String) (now : Int)
  /-- Entries are written, moved or deleted. -/
  | entries (resources : List DavResource) (tombstones : List DavTombstone)

/-- The transaction of an event. -/
def Event.call (digest : String → String) (w : World) : Event → Except StoreError World
  | .list account kind fresh now => davCollections account kind fresh now w
  | .create account kind new now => davCreateCollection account kind new now w
  | .createWith account kind new changes now => Collections.createWith account kind new changes now w
  | .update account id changes => davUpdateCollection account id changes w
  | .setDefaultCalendar account id => Collections.setDefaultCalendar account id w
  | .setDefaultAddressBook account id => Collections.setDefaultAddressBook account id w
  | .destroyCalendar account id withEvents => Collections.destroyCalendar account id withEvents w
  | .destroyAddressBook account id withContents => Collections.destroyAddressBook account id withContents w
  | .delete account id => davDeleteCollection account id w
  | .importInto account kind base new fresh now => davCreateImportCollection account kind base new fresh now w
  | .subscribe account new fresh now => createCalendarSubscription digest account new fresh now w
  | .unsubscribe account id keepEntries => deleteCalendarSubscription account id keepEntries w
  | .birthdays account name color random now => createBirthdayCalendar account name color random now w
  | .entries resources tombstones => .ok { w with db := { w.db with resources, tombstones } }

/-- A transaction that fails leaves everything as it was. -/
def step (digest : String → String) (w : World) (e : Event) : Option World :=
  some (match e.call digest w with | .ok w' => w' | .error _ => w)

end UwuMail.Dav.Collections
