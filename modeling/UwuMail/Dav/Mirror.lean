/-
# A calendar that follows a feed

`dav_mirror` of `dav_import.rs`.  A run READS the calendar in one transaction, compares it with the
feed outside of any, and WRITES in a second one: what the feed no longer has goes, what changed is
written, and an entry that differs only in its `DTSTAMP` is left alone.  Between the two anything
may happen.

`checkCalendar` and `checkContact`, the checks of every stored object, are parameters; so is the
digest of an ETag.  What `World` adds to the collections and their entries is the runs between their
two steps.
-/
import UwuMail.Dav.Collections
import UwuMail.Lib.Trace

namespace UwuMail.Dav.Mirror

open Table Store

/-! ## 1. Contents without their stamp -/

/-- `logical_lines`: lines with their folds, which stay apart.  A byte order mark and empty lines
are dropped. -/
def logicalLines (text : String) : List (List String) :=
  let chars := match text.toList with
    | '\ufeff' :: rest => rest
    | chars => chars
  let raws := (chars.splitOn '\n').map fun raw =>
    String.ofList (if raw.getLast? = some '\r' then raw.dropLast else raw)
  raws.foldl (fun lines raw =>
    if (trim raw).isEmpty then lines
    else match lines.getLast?, raw.toList.head? with
      | some last, some ' ' | some last, some '\t' => lines.dropLast ++ [last ++ [raw]]
      | _, _ => lines ++ [[raw]]) []

/-- The property name, upper case: what comes before the first `;` or `:`. -/
def lineName (line : List String) : String :=
  (trim (String.ofList ((line.headD "").toList.takeWhile fun c => c != ';' && c != ':'))).toUpper

/-- `fingerprint`: an entry without the lines that change on every fetch without anything
changing. -/
def fingerprint (content : String) : String :=
  String.join (((logicalLines content).filter fun line => lineName line != "DTSTAMP").flatten.map
    fun raw => raw ++ "\r\n")

/-! ## 2. A run -/

/-- One entry cut out of a feed. -/
structure SplitObject where
  label : String
  uid : String
  content : String

/-- What the checks say of an object they accept. -/
structure Checked where
  uid : String
  component : String
  startsAt : Option Int := none
  endsAt : Option Int := none

inductive Refused where
  | invalidData (message : String)
  | invalidObject (message : String)
  | unsupportedComponent (component : String)

/-- The checks of what CalDAV and CardDAV store. -/
structure Checks where
  calendar : String → List String → Except Refused Checked
  contact : String → String → Except Refused Checked

structure ImportProblem where
  item : String
  reason : String

structure DavMirrorReport where
  created : Nat := 0
  updated : Nat := 0
  deleted : Nat := 0
  unchanged : Nat := 0
  problems : List ImportProblem := []
  entries : Nat := 0

def importMaxProblems : Nat := 100

def shorten (value : String) (max : Nat) : String :=
  let chars := (trim value).toList
  if chars.length ≤ max then trim value else String.ofList (chars.take max) ++ "…"

def DavMirrorReport.problem (report : DavMirrorReport) (item reason : String) : DavMirrorReport :=
  if report.problems.length < importMaxProblems then
    { report with problems := report.problems ++ [⟨item, reason⟩] }
  else report

/-- `check`: each entry the way CalDAV and CardDAV check what clients store. -/
def check (checks : Checks) (kind : DavKind) (components : List String) (object : SplitObject) :
    Except String Checked :=
  let checked := match kind with
    | .calendar => checks.calendar object.content components
    | .addressbook => checks.contact object.content object.uid
  match checked with
  | .ok c => if c.uid != object.uid && kind == .calendar then .error "invalid" else .ok c
  | .error (.unsupportedComponent _) => .error "unsupportedComponent"
  | .error _ => .error "invalid"

/-- A run between its two transactions. -/
structure MirrorRun where
  accountId : Int
  collectionId : Int
  kind : DavKind
  /-- The names of the entries the feed no longer has. -/
  gone : List String
  writes : List (SplitObject × Checked)
  /-- The name of each UID the calendar had. -/
  names : List (String × String)
  report : DavMirrorReport

/-- The entry of a UID, as the map of them is built: a later row takes the place of an earlier
one. -/
def entryOf (db : Db) (collection : Int) (uid : String) : Option DavResource :=
  (db.resources.filter fun r => r.collectionId == collection).reverse.find? fun r => r.uid == uid

/-- Whether the calendar has the object already. -/
def unchanged (db : Db) (collection : Int) (object : SplitObject) : Bool :=
  (entryOf db collection object.uid).any fun r => fingerprint r.content == fingerprint object.content

/-- Sorts what the checks say into what is written and what is reported. -/
def sortChecked : List (SplitObject × Except String Checked) → DavMirrorReport →
    List (SplitObject × Checked) × DavMirrorReport
  | [], report => ([], report)
  | (object, .ok checked) :: rest, report =>
    let (writes, report) := sortChecked rest report
    ((object, checked) :: writes, report)
  | (object, .error reason) :: rest, report =>
    sortChecked rest (report.problem (shorten object.label 120) reason)

/-- The first half of `dav_mirror`. -/
def mirrorRead (checks : Checks) (account collectionId : Int) (objects : List SplitObject) (db : Db) :
    Except StoreError MirrorRun := do
  let collection ← ownCollection db (some account) collectionId
  if !collection.subscribed then .error (.invalid s!"calendar {collectionId} is not a subscribed one")
  else
    let changed := objects.filter fun object => !unchanged db collectionId object
    let (writes, report) := sortChecked
      (changed.map fun object => (object, check checks collection.kind collection.components object))
      { unchanged := objects.length - changed.length }
    let current := db.resources.filter fun r =>
      r.collectionId == collectionId && decide (entryOf db collectionId r.uid = some r)
    let wanted := objects.map SplitObject.uid
    pure {
      accountId := account, collectionId, kind := collection.kind, writes, report
      gone := (current.filter fun r => !wanted.contains r.uid).map DavResource.name
      names := current.map fun r => (r.uid, r.name) }

def extension : DavKind → String
  | .calendar => "ics"
  | .addressbook => "vcf"

def writeOf (name : String) (object : SplitObject) (checked : Checked) : DavWrite where
  name
  content := object.content
  uid := checked.uid
  component := checked.component
  startsAt := checked.startsAt
  endsAt := checked.endsAt

/-- What the feed no longer has goes. -/
def deleteAll (collection : DavCollection) : List String → DavMirrorReport → Db →
    Except StoreError (DavMirrorReport × Db)
  | [], report, db => .ok (report, db)
  | name :: names, report, db => do
    let (deleted, db) ← deleteEntryUnchecked collection name none db
    deleteAll collection names (if deleted then { report with deleted := report.deleted + 1 } else report) db

/-- The name an entry is written under; `none` while names are still drawn. -/
def MirrorRun.nameOf (run : MirrorRun) (collection : DavCollection) (uid : String) (draws : List String)
    (db : Db) : Option String :=
  match run.names.find? fun n => n.1 == uid with
  | some n => some n.2
  | none => newEntryName collection.id uid (extension collection.kind) draws db

/-- What an outcome adds to the report. -/
def DavMirrorReport.wrote (report : DavMirrorReport) : DavWriteOutcome → DavMirrorReport
  | .created _ => { report with created := report.created + 1 }
  | .updated _ => { report with updated := report.updated + 1 }
  | _ => report

variable (digest : String → String)

/-- What changed is written. -/
def writeAll (run : MirrorRun) (collection : DavCollection) (draws : List String) (now : Int) :
    List (SplitObject × Checked) → DavMirrorReport → Db → Option (Except StoreError (DavMirrorReport × Db))
  | [], report, db => some (.ok (report, db))
  | (object, checked) :: writes, report, db =>
    match run.nameOf collection checked.uid draws db with
    | none => none
    | some name =>
      match putEntryUnchecked digest collection (writeOf name object checked) {} now db with
      | .ok ((outcome, _), db) => writeAll run collection draws now writes (report.wrote outcome) db
      | .error .quotaExceeded =>
        writeAll run collection draws now writes (report.problem object.label "collectionFull") db
      | .error e => some (.error e)

/-- The second half of `dav_mirror`. -/
def mirrorWrite (run : MirrorRun) (draws : List String) (now : Int) (db : Db) :
    Option (Except StoreError (DavMirrorReport × Db)) :=
  match ownCollection db (some run.accountId) run.collectionId with
  | .error e => some (.error e)
  | .ok collection =>
    match deleteAll collection run.gone run.report db with
    | .error e => some (.error e)
    | .ok (report, db) =>
      (writeAll digest run collection draws now run.writes report db).map fun result =>
        result.map fun (report, db) => ({ report with entries := db.count collection.id }, db)

/-! ## 3. Runs among everything else -/

structure World where
  calendars : Collections.World := {}
  runs : List MirrorRun := []

/-- What a person may do to entries: every write that asks whether the calendar may be written. -/
def byUser : Dav.Event → Bool
  | .put .. | .delete .. | .store .. | .mark .. => true
  | _ => false

inductive Event where
  /-- Collections are made, changed and deleted, and subscriptions begin and end. -/
  | collections (e : Collections.Event)
  /-- A person writes, moves, marks or deletes an entry. -/
  | entry (e : Dav.Event)
  | read (account collectionId : Int) (objects : List SplitObject)
  | write (run : Nat) (draws : List String) (now : Int)

variable (checks : Checks)

def step (w : World) : Event → Option World
  | .collections (.entries ..) => none
  | .collections e => (Collections.step digest w.calendars e).map fun calendars => { w with calendars }
  | .entry e =>
    if byUser e then
      (Dav.step digest w.calendars.db e).map fun db => { w with calendars := { w.calendars with db } }
    else none
  | .read account collectionId objects =>
    match mirrorRead checks account collectionId objects w.calendars.db with
    | .ok run => some { w with runs := w.runs ++ [run] }
    | .error _ => some w
  | .write i draws now => do
    let run ← w.runs[i]?
    let result ← mirrorWrite digest run draws now w.calendars.db
    let db := commit w.calendars.db result
    pure { calendars := { w.calendars with db }, runs := w.runs.eraseIdx i }

/-! ## 4. The law -/

/-- **A calendar mirrors a feed**: each UID is there once; what the feed has not is gone; what
differs only in its stamp is left; what the checks refuse keeps what it was; what they accept is
there as the feed has it, or the calendar is full and it was never there; and no other calendar is
touched. -/
structure Mirrors (collection : DavCollection) (objects : List SplitObject) (db db' : Db) : Prop where
  once : ∀ r ∈ db'.resources, ∀ r' ∈ db'.resources, r.collectionId = collection.id →
    r'.collectionId = collection.id → r.uid = r'.uid → r = r'
  gone : ∀ r ∈ db'.resources, r.collectionId = collection.id → ∃ o ∈ objects, o.uid = r.uid
  same : ∀ o ∈ objects, unchanged db collection.id o = true → ∀ r, r.collectionId = collection.id →
    r.uid = o.uid → (r ∈ db'.resources ↔ r ∈ db.resources)
  refused : ∀ o ∈ objects, ∀ e, check checks collection.kind collection.components o = .error e →
    ∀ r, r.collectionId = collection.id → r.uid = o.uid → (r ∈ db'.resources ↔ r ∈ db.resources)
  written : ∀ o ∈ objects, unchanged db collection.id o = false →
    ∀ c, check checks collection.kind collection.components o = .ok c →
    (∃ r ∈ db'.resources, r.collectionId = collection.id ∧ r.uid = o.uid ∧
      r.content = withoutControls o.content ∧ r.component = c.component ∧ r.startsAt = c.startsAt ∧
      r.endsAt = c.endsAt) ∨
    (davResourcesPerCollection ≤ db'.count collection.id ∧
      (∀ r ∈ db.resources, r.collectionId = collection.id → r.uid ≠ o.uid) ∧
      ∀ r ∈ db'.resources, r.collectionId = collection.id → r.uid ≠ o.uid)
  others : ∀ r, r.collectionId ≠ collection.id → (r ∈ db'.resources ↔ r ∈ db.resources)

/-- **The law of mirrored calendars**, for one order of steps: writing changes nothing where the
calendar is not subscribed then; and a run that nothing falls into leaves the calendar mirroring its
feed. -/
structure Lawful (es : List Event) : Prop where
  subscribed : ∀ es₁ i draws now es₂ w w', es = es₁ ++ .write i draws now :: es₂ →
    Trace.run (step digest checks) {} es₁ = some w → step digest checks w (.write i draws now) = some w' →
    ∀ run ∈ w.runs[i]?, ∀ c ∈ w.calendars.db.collections, c.id = run.collectionId → c.subscribed = false →
    w'.calendars = w.calendars
  alone : ∀ es₁ account id objects i draws now es₂ w w₁ w₂,
    es = es₁ ++ .read account id objects :: .write i draws now :: es₂ →
    Trace.run (step digest checks) {} es₁ = some w →
    step digest checks w (.read account id objects) = some w₁ → w₁.runs.length = w.runs.length + 1 →
    i = w.runs.length → step digest checks w₁ (.write i draws now) = some w₂ →
    (objects.map SplitObject.uid).Nodup →
    ∃ c ∈ w.calendars.db.collections, c.id = id ∧ c.accountId = account ∧
      Mirrors checks c objects w.calendars.db w₂.calendars.db

end UwuMail.Dav.Mirror
