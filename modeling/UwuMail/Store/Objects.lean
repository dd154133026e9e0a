/-
# What changed

`objects.rs`: what changed since a state.

`aggregate` folds the rows of the change log, in modseq order, into what became of each object.
It works through the rows one modseq at a time, because a page may not end inside one: `splitBy`
is the loop's `position(|r| r.0 != modseq)`.
-/
import UwuMail.Lib.SortedMap
import UwuMail.Store.Mutate

namespace UwuMail.Store

open Table

/-- What changed for one object type since a state. -/
structure Changes where
  created : List Int := []
  updated : List Int := []
  destroyed : List Int := []
  newState : Int := 0
  hasMore : Bool := false
  deriving DecidableEq

inductive Seen
  | created | updated | destroyed | createdThenDestroyed
  deriving DecidableEq

/-- What an object is after one more row. -/
def Seen.next : Option Seen → ChangeType → Seen
  | none, .created => .created
  | none, .updated => .updated
  | none, .destroyed => .destroyed
  | some .created, .destroyed => .createdThenDestroyed
  | some .created, _ => .created
  | some .updated, .destroyed => .destroyed
  | some seen, _ => seen

/-- One row of the change log as `aggregate` reads it. -/
structure LogEntry where
  modseq : Int
  object : Int
  change : ChangeType
  deriving DecidableEq

abbrev SeenMap := SortedMap Int Seen

def see (objects : SeenMap) (row : LogEntry) : SeenMap :=
  objects.insert row.object (Seen.next (objects.get? row.object) row.change)

/-- The loop of `aggregate`; `last` is the modseq of the group before.  The objects seen, the
state they are seen at, and whether there is more. -/
def aggregateLoop (current : Int) (maxChanges : Nat) :
    List (List LogEntry) → Int → SeenMap → SeenMap × Int × Bool
  | [], _, objects => (objects, current, false)
  | group :: groups, last, objects =>
    let newObjects := (group.filter fun row => (objects.get? row.object).isNone).length
    if maxChanges > 0 ∧ ¬ objects.isEmpty ∧ objects.len + newObjects > maxChanges then
      (objects, last, true)
    else
      aggregateLoop current maxChanges groups ((group.head?.map (·.modseq)).getD last)
        (group.foldl see objects)

/-- The objects of a map that are seen in one way. -/
def SeenMap.keysOf (objects : SeenMap) (seen : Seen) : List Int :=
  (objects.entries.filter fun e => e.2 == seen).map (·.1)

/-- `aggregate`: what changed per object, in modseq order.  With `maxChanges`, it stops before the
modseq that would pass it, and says so. -/
def aggregate (rows : List LogEntry) (current : Int) (maxChanges : Nat) : Changes :=
  let groups := rows.splitBy fun a b => a.modseq == b.modseq
  let (objects, newState, hasMore) := aggregateLoop current maxChanges groups 0 SortedMap.empty
  { created := SeenMap.keysOf objects .created
    updated := SeenMap.keysOf objects .updated
    destroyed := SeenMap.keysOf objects .destroyed
    newState, hasMore }

/-- The rows of one kind after `since`: `ORDER BY modseq, object_id`. -/
def Db.logSince (db : Db) (account : Int) (kind : ObjectKind) (since : Int) : List LogEntry :=
  ((db.changes.filter fun r =>
      r.accountId == account && r.kind == kind && decide (r.modseq > since)).map fun r =>
        { modseq := r.modseq, object := r.objectId, change := r.change : LogEntry }).insertionSort
    fun a b => a.modseq < b.modseq ∨ a.modseq = b.modseq ∧ a.object ≤ b.object

/-- `changes`: what changed of one kind after `since`. -/
def changes (db : Db) (account : Int) (kind : ObjectKind) (since : Int) (maxChanges : Nat) :
    Except StoreError Changes :=
  match db.modseqOf account with
  | none => .error (.notFound s!"account {account}")
  | some current =>
    if since < 0 ∨ since > current then .error (.invalid s!"unknown state {since}")
    else .ok (aggregate (db.logSince account kind since) current maxChanges)

end UwuMail.Store
