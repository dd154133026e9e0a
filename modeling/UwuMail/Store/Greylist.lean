/-
# Greylisted mail that is kept

`greylist_hold.rs`: a message is kept while its sender is asked to come back, and its recipient may
have it delivered or discard it meanwhile.  The row that is SETTLED stays behind: it recognises the
copy the sender brings back.

`hold_greylisted` is three transactions (is it a repeat; how many are waiting; the row) and a blob
in between, so a call is a task of its own here and takes its steps among those of everybody else.
The other calls are one transaction each.
-/
import UwuMail.Lib.Trace
import UwuMail.Lib.Table
import UwuMail.Store.Mutate

namespace UwuMail.Greylist

open Trace Table

/-! ## 1. The table -/

inductive Settled where
  | delivered
  | discarded
  deriving DecidableEq

/-- What a returning message means for a recipient who already decided about it. -/
inductive Returning where
  | fresh
  | delivered
  | discarded
  deriving DecidableEq

def maxHeldPerAccount : Nat := 200

def maxKeepsPerRow : Int := 2

/-- A message to keep.  The score is carried along by the code and left out here. -/
structure NewGreylistHold where
  accountId : Int
  address : String
  envelopeFrom : String
  headerFrom : String
  subject : Option String
  messageId : Option String
  smtpId : String
  clientIp : String
  message : List UInt8
  rawHash : String
  keepSecs : Int

/-- A row of `greylist_hold`; it waits while `settled` is not set. -/
structure HoldRow where
  id : Nat
  at_ : Int
  accountId : Int
  address : String
  envelopeFrom : String
  headerFrom : String
  subject : Option String
  messageId : Option String
  smtpId : String
  clientIp : String
  size : Nat
  blobHash : Option String
  rawHash : String
  expiresAt : Int
  settled : Option Settled := none
  settledAt : Option Int := none
  attempts : Nat := 1
  lastAt : Option Int
  deriving DecidableEq

/-- `COLLATE NOCASE`, which folds ASCII letters only. -/
def nocase (a b : String) : Bool := a.toLower == b.toLower

/-- `i64::saturating_mul`. -/
def saturatingMul (a b : Int) : Int := max (-(2 ^ 63)) (min (2 ^ 63 - 1) (a * b))

/-- What tells one attempt of a message from another. -/
structure RepeatKey where
  accountId : Int
  rawHash : String
  messageId : Option String
  envelopeFrom : String
  headerFrom : String
  keepSecs : Int

/-- `RepeatKey::of`. -/
def RepeatKey.of (hold : NewGreylistHold) : RepeatKey where
  accountId := hold.accountId
  rawHash := hold.rawHash
  messageId := hold.messageId.filter fun id => Store.trim id != ""
  envelopeFrom := hold.envelopeFrom
  headerFrom := hold.headerFrom
  keepSecs := max hold.keepSecs 0

namespace HoldRow

def isWaiting (r : HoldRow) : Bool := r.settled.isNone

/-- The row is a message the key is another attempt of. -/
def repeats (key : RepeatKey) (r : HoldRow) : Bool :=
  r.accountId == key.accountId &&
    (r.rawHash == key.rawHash ||
      (r.isWaiting && key.messageId.isSome && r.messageId == key.messageId &&
        nocase r.envelopeFrom key.envelopeFrom && nocase r.headerFrom key.headerFrom))

/-- The row waits for a message with this Message-ID from this envelope sender. -/
def waitsFor (account : Int) (messageId : Option String) (envelopeFrom : String) (r : HoldRow) : Bool :=
  r.accountId == account && r.isWaiting && messageId.isSome && r.messageId == messageId &&
    nocase r.envelopeFrom envelopeFrom

/-- The row is another copy of the message a decided row was made from. -/
def copies (decided r : HoldRow) : Bool :=
  r.accountId == decided.accountId &&
    (r.rawHash == decided.rawHash ||
      (decided.messageId.isSome && r.messageId == decided.messageId &&
        nocase r.envelopeFrom decided.envelopeFrom && nocase r.headerFrom decided.headerFrom))

end HoldRow

/-- `repeat_of`: the row the key repeats, where the attempt is counted if it is still waiting. -/
def repeatOf (now : Int) (key : RepeatKey) (rows : List HoldRow) : Option Nat × List HoldRow :=
  let found := ((rows.filter (·.repeats key)).insertionSort fun a b =>
    a.isWaiting = true ∧ b.isWaiting = false ∨ a.isWaiting = b.isWaiting ∧ a.id ≤ b.id).head?
  match found with
  | none => (none, rows)
  | some row =>
    if row.isWaiting then
      (some row.id, updateWhere (fun r => r.id == row.id) (fun r =>
        { r with
          attempts := r.attempts + 1
          lastAt := some now
          expiresAt := max r.expiresAt
            (min (now + key.keepSecs) (r.at_ + saturatingMul key.keepSecs maxKeepsPerRow)) }) rows)
    else (some row.id, rows)

/-- `greylist_hold_count`. -/
def waitingOf (account : Int) (rows : List HoldRow) : Nat :=
  rows.countP fun r => r.accountId == account && r.isWaiting

/-- The rowid SQLite gives out next. -/
def nextId (rows : List HoldRow) : Nat := (rows.map (·.id)).foldl max 0 + 1

/-- The row the last transaction of `hold_greylisted` inserts. -/
def NewGreylistHold.row (hold : NewGreylistHold) (id : Nat) (now : Int) (hash : String) (expiresAt : Int) :
    HoldRow where
  id := id
  at_ := now
  accountId := hold.accountId
  address := hold.address
  envelopeFrom := hold.envelopeFrom
  headerFrom := hold.headerFrom
  subject := hold.subject
  messageId := hold.messageId
  smtpId := hold.smtpId
  clientIp := hold.clientIp
  size := hold.message.length
  blobHash := some hash
  rawHash := hold.rawHash
  expiresAt := expiresAt
  lastAt := some now

/-- `settle_greylist_hold`: whether there was anything to settle.  `settle_waiting_copies` is the
second update. -/
def settleGreylistHold (now account : Int) (id : Nat) (how : Settled) (keepMessage : Bool)
    (rows : List HoldRow) : Bool × List HoldRow :=
  let mine : HoldRow → Bool := fun r => r.id == id && r.accountId == account && r.isWaiting
  if rows.any mine then
    let rows := updateWhere mine (fun r =>
      { r with settled := some how, settledAt := some now
               blobHash := if keepMessage then r.blobHash else none }) rows
    (true, updateWhere
      (fun r => r.accountId == account && r.isWaiting && r.id != id &&
        rows.any fun decided => decided.id == id && r.copies decided)
      (fun r => { r with settled := some how, settledAt := some now, blobHash := none }) rows)
  else (false, rows)

def reopenGreylistHold (account : Int) (id : Nat) (rows : List HoldRow) : List HoldRow :=
  updateWhere (fun r => r.id == id && r.accountId == account && r.settled.isSome && r.blobHash.isSome)
    (fun r => { r with settled := none, settledAt := none }) rows

def returningGreylistHold (account : Int) (rawHash : String) (messageId : Option String)
    (envelopeFrom : String) (rows : List HoldRow) : Returning × List HoldRow :=
  let gone : HoldRow → Bool := fun r =>
    (r.accountId == account && r.isWaiting && r.rawHash == rawHash) ||
      r.waitsFor account messageId envelopeFrom
  if rows.any gone then (.fresh, deleteWhere gone rows)
  else
    let settled := ((rows.filter fun r =>
      r.accountId == account && r.rawHash == rawHash && r.settled.isSome).insertionSort
        fun a b => b.id ≤ a.id).head?
    match settled.bind (·.settled) with
    | none => (.fresh, rows)
    | some .delivered => (.delivered, rows)
    | some .discarded => (.discarded, rows)

/-! ## 2. The system -/

/-- Where a call of `hold_greylisted` stands. -/
inductive Phase where
  /-- It is no repeat; the count comes next. -/
  | counting
  /-- There was room; the message goes into the blob store. -/
  | putting
  /-- The blob is there; the row comes next. -/
  | writing (hash : String) (expiresAt : Int)
  | finished (answer : Option Nat)
  | failed

structure Call where
  hold : NewGreylistHold
  phase : Phase

/-- The table, the clock and the calls there ever were. -/
structure Held where
  clock : Int
  rows : List HoldRow := []
  calls : List Call := []

inductive Event where
  | tick (secs : Nat)
  /-- Somebody calls `hold_greylisted`, and its first transaction. -/
  | call (hold : NewGreylistHold)
  | count (i : Nat)
  | put (i : Nat)
  | write (i : Nat)
  /-- The blob or a transaction fails, or the connection is gone. -/
  | fail (i : Nat)
  | settle (account : Int) (id : Nat) (how : Settled) (keepMessage : Bool)
  | reopen (account : Int) (id : Nat)
  | returning (account : Int) (rawHash : String) (messageId : Option String) (envelopeFrom : String)
  /-- `prune_greylist_holds`. -/
  | prune
  /-- `clear_greylist_holds`. -/
  | clear

namespace Held

/-- What `hold_greylisted` does once it knows that the message is no repeat. -/
def countCall (s : Held) (i : Nat) (c : Call) : Held :=
  if maxHeldPerAccount ≤ waitingOf c.hold.accountId s.rows then
    { s with calls := s.calls.set i { c with phase := .finished none } }
  else { s with calls := s.calls.set i { c with phase := .putting } }

/-- The last transaction of `hold_greylisted`. -/
def writeCall (s : Held) (i : Nat) (c : Call) (hash : String) (expiresAt : Int) : Held :=
  match repeatOf s.clock (.of c.hold) s.rows with
  | (some id, rows) => { s with rows, calls := s.calls.set i { c with phase := .finished (some id) } }
  | (none, rows) =>
    let id := nextId rows
    { s with
      rows := rows ++ [c.hold.row id s.clock hash expiresAt]
      calls := s.calls.set i { c with phase := .finished (some id) } }

/-- One step; `hashOf` is SHA-256. -/
def step (hashOf : List UInt8 → String) (s : Held) : Event → Option Held
  | .tick secs => some { s with clock := s.clock + secs }
  | .call hold =>
    match repeatOf s.clock (.of hold) s.rows with
    | (some id, rows) => some { s with rows, calls := s.calls ++ [⟨hold, .finished (some id)⟩] }
    | (none, rows) => some { s with rows, calls := s.calls ++ [⟨hold, .counting⟩] }
  | .count i =>
    match s.calls[i]? with
    | some ⟨hold, .counting⟩ => some (s.countCall i ⟨hold, .counting⟩)
    | _ => none
  | .put i =>
    match s.calls[i]? with
    | some ⟨hold, .putting⟩ =>
      let expiresAt := s.clock + max hold.keepSecs 0
      some { s with calls := s.calls.set i ⟨hold, .writing (hashOf hold.message) expiresAt⟩ }
    | _ => none
  | .write i =>
    match s.calls[i]? with
    | some ⟨hold, .writing hash expiresAt⟩ =>
      some (s.writeCall i ⟨hold, .writing hash expiresAt⟩ hash expiresAt)
    | _ => none
  | .fail i =>
    match s.calls[i]? with
    | some c => some { s with calls := s.calls.set i { c with phase := .failed } }
    | none => none
  | .settle account id how keep =>
    some { s with rows := (settleGreylistHold s.clock account id how keep s.rows).2 }
  | .reopen account id => some { s with rows := reopenGreylistHold account id s.rows }
  | .returning account rawHash messageId envelopeFrom =>
    some { s with rows := (returningGreylistHold account rawHash messageId envelopeFrom s.rows).2 }
  | .prune => some { s with rows := deleteWhere (fun r => decide (r.expiresAt ≤ s.clock)) s.rows }
  | .clear => some { s with rows := [] }

end Held

/-! ## 3. What every step keeps -/

section Steps

variable {hashOf : List UInt8 → String} {s s' : Held} {e : Event} {rows : List HoldRow} {now : Int}
  {key : RepeatKey} {r : HoldRow}

/-- What `repeat_of` can do: there is no repeat, or one of the repeats is counted. -/
theorem repeatOf_cases (now : Int) (key : RepeatKey) (rows : List HoldRow) :
    (repeatOf now key rows = (none, rows) ∧ ∀ r ∈ rows, r.repeats key = false) ∨
      ∃ row ∈ rows, row.repeats key = true ∧
        (repeatOf now key rows = (some row.id, rows) ∨
          row.isWaiting = true ∧ repeatOf now key rows =
              (some row.id, updateWhere (fun r => r.id == row.id) (fun r =>
            { r with
              attempts := r.attempts + 1
              lastAt := some now
              expiresAt := max r.expiresAt
                (min (now + key.keepSecs) (r.at_ + saturatingMul key.keepSecs maxKeepsPerRow)) }) rows)) := by
  unfold repeatOf
  dsimp only
  split
  next hnone =>
    refine .inl ⟨rfl, fun r hr => ?_⟩
    have hnil := List.head?_eq_none_iff.1 hnone
    have hlen := List.length_insertionSort (fun a b : HoldRow =>
      a.isWaiting = true ∧ b.isWaiting = false ∨ a.isWaiting = b.isWaiting ∧ a.id ≤ b.id)
      (rows.filter (·.repeats key))
    rw [hnil, List.length_nil, eq_comm, List.length_eq_zero_iff, List.filter_eq_nil_iff] at hlen
    simpa using hlen r hr
  next row hsome =>
    have hmem := List.mem_of_mem_head? hsome
    rw [List.mem_insertionSort, List.mem_filter] at hmem
    refine .inr ⟨row, hmem.1, hmem.2, ?_⟩
    split
    next hwaiting => exact .inr ⟨hwaiting, rfl⟩
    next => exact .inl rfl

/-- No two rows of an account hold the same bytes. -/
structure Kept (rows : List HoldRow) : Prop where
  ids : UniqueKey HoldRow.id rows
  bytes : UniqueKey (fun r : HoldRow => (r.accountId, r.rawHash)) rows

theorem Kept.sublist {rows' : List HoldRow} (h : Kept rows) (hs : rows'.Sublist rows) : Kept rows' :=
  ⟨h.ids.sublist hs, h.bytes.sublist hs⟩

theorem Kept.updateWhere {f : HoldRow → HoldRow} (h : Kept rows) (p : HoldRow → Bool)
    (hf : ∀ r, (f r).id = r.id ∧ (f r).accountId = r.accountId ∧ (f r).rawHash = r.rawHash) :
    Kept (updateWhere p f rows) :=
  ⟨h.ids.updateWhere (fun r => (hf r).1) p,
    h.bytes.updateWhere (fun r => Prod.ext (hf r).2.1 (hf r).2.2) p⟩

theorem Kept.repeatOf (h : Kept rows) (now : Int) (key : RepeatKey) : Kept (repeatOf now key rows).2 := by
  rcases repeatOf_cases now key rows with ⟨heq, -⟩ | ⟨row, -, -, heq | ⟨-, heq⟩⟩
  · rw [heq]
    exact h
  · rw [heq]
    exact h
  · rw [heq]
    exact h.updateWhere _ (by exact fun _ => ⟨rfl, rfl, rfl⟩)

theorem lt_nextId (hr : r ∈ rows) : r.id < nextId rows := by
  have hle : ∀ (ids : List Nat) (n : Nat), n ≤ ids.foldl max n ∧ ∀ id ∈ ids, id ≤ ids.foldl max n := by
    intro ids
    induction ids with
    | nil => simp
    | cons id ids ih =>
      intro n
      have := ih (max n id)
      refine ⟨by simpa using by omega, ?_⟩
      simp only [List.mem_cons, forall_eq_or_imp, List.foldl_cons]
      exact ⟨by omega, this.2⟩
  have := (hle (rows.map (·.id)) 0).2 r.id (List.mem_map_of_mem hr)
  unfold nextId
  omega

/-- A message that repeats nothing gets a row of its own. -/
theorem Kept.append {hold : NewGreylistHold} (h : Kept rows)
    (hno : ∀ r ∈ rows, r.repeats (.of hold) = false) (now : Int) (hash : String) (expiresAt : Int) :
    Kept (rows ++ [hold.row (nextId rows) now hash expiresAt]) := by
  refine ⟨h.ids.append fun r hr => (lt_nextId hr).ne, h.bytes.append fun r hr hkey => ?_⟩
  have hsame : r.accountId = hold.accountId ∧ r.rawHash = hold.rawHash := Prod.mk.inj hkey
  have := hno r hr
  simp [HoldRow.repeats, RepeatKey.of, hsame.1, hsame.2] at this

theorem Kept.settle (h : Kept rows) (now account : Int) (id : Nat) (how : Settled) (keep : Bool) :
    Kept (settleGreylistHold now account id how keep rows).2 := by
  unfold settleGreylistHold
  dsimp only
  split
  · exact (h.updateWhere _ (by exact fun _ => ⟨rfl, rfl, rfl⟩)).updateWhere _ (by exact fun _ => ⟨rfl, rfl, rfl⟩)
  · exact h

theorem returning_sublist (account : Int) (rawHash : String) (messageId : Option String)
    (envelopeFrom : String)
    (rows : List HoldRow) :
    (returningGreylistHold account rawHash messageId envelopeFrom rows).2.Sublist rows := by
  unfold returningGreylistHold
  dsimp only
  split
  · exact deleteWhere_sublist _ _
  · split <;> exact List.Sublist.refl _

/-- What a step can do.  The calls that move on stand at the phase the step needs. -/
inductive Held.Did (hashOf : List UInt8 → String) (s : Held) : Event → Held → Prop
  | tick {secs : Nat} : Did hashOf s (.tick secs) { s with clock := s.clock + secs }
  | call {hold : NewGreylistHold} {phase : Phase} (hphase : phase = .counting ∨ ∃ id, phase = .finished id) :
      Did hashOf s (.call hold)
        { s with rows := (repeatOf s.clock (.of hold) s.rows).2, calls := s.calls ++ [⟨hold, phase⟩] }
  | full {i : Nat} {hold : NewGreylistHold} (hi : s.calls[i]? = some ⟨hold, .counting⟩) :
      Did hashOf s (.count i) { s with calls := s.calls.set i ⟨hold, .finished none⟩ }
  | room {i : Nat} {hold : NewGreylistHold} (hi : s.calls[i]? = some ⟨hold, .counting⟩)
      (hroom : waitingOf hold.accountId s.rows < maxHeldPerAccount) :
      Did hashOf s (.count i) { s with calls := s.calls.set i ⟨hold, .putting⟩ }
  | put {i : Nat} {hold : NewGreylistHold} (hi : s.calls[i]? = some ⟨hold, .putting⟩) :
      Did hashOf s (.put i) { s with
        calls := s.calls.set i ⟨hold, .writing (hashOf hold.message) (s.clock + max hold.keepSecs 0)⟩ }
  | again {i : Nat} {hold : NewGreylistHold} {hash : String} {expiresAt : Int} {id : Nat}
      (hi : s.calls[i]? = some ⟨hold, .writing hash expiresAt⟩) :
      Did hashOf s (.write i) { s with
        rows := (repeatOf s.clock (.of hold) s.rows).2
        calls := s.calls.set i ⟨hold, .finished (some id)⟩ }
  | insert {i : Nat} {hold : NewGreylistHold} {hash : String} {expiresAt : Int} {id : Nat}
      (hi : s.calls[i]? = some ⟨hold, .writing hash expiresAt⟩)
      (hno : ∀ r ∈ s.rows, r.repeats (.of hold) = false) :
      Did hashOf s (.write i) { s with
        rows := s.rows ++ [hold.row (nextId s.rows) s.clock hash expiresAt]
        calls := s.calls.set i ⟨hold, .finished (some id)⟩ }
  | fail {i : Nat} {c : Call} (hi : s.calls[i]? = some c) :
      Did hashOf s (.fail i) { s with calls := s.calls.set i { c with phase := .failed } }
  | settle {account : Int} {id : Nat} {how : Settled} {keep : Bool} :
      Did hashOf s (.settle account id how keep)
        { s with rows := (settleGreylistHold s.clock account id how keep s.rows).2 }
  | reopen {account : Int} {id : Nat} :
      Did hashOf s (.reopen account id) { s with rows := reopenGreylistHold account id s.rows }
  | returning {account : Int} {rawHash : String} {messageId : Option String} {envelopeFrom : String} :
      Did hashOf s (.returning account rawHash messageId envelopeFrom)
        { s with rows := (returningGreylistHold account rawHash messageId envelopeFrom s.rows).2 }
  | prune : Did hashOf s .prune
      { s with rows := deleteWhere (fun r => decide (r.expiresAt ≤ s.clock)) s.rows }
  | clear : Did hashOf s .clear { s with rows := [] }

/-- **Every step is one of these.** -/
theorem Held.did (h : s.step hashOf e = some s') : s.Did hashOf e s' := by
  cases e with
  | tick secs => cases h; exact .tick
  | call hold =>
    simp only [step] at h
    split at h
    next id rows heq =>
      cases h
      have hdid : s.Did hashOf (.call hold) { s with
          rows := (repeatOf s.clock (.of hold) s.rows).2
          calls := s.calls ++ [⟨hold, .finished (some id)⟩] } := .call (.inr ⟨_, rfl⟩)
      rwa [heq] at hdid
    next rows heq =>
      cases h
      have hdid : s.Did hashOf (.call hold) { s with
          rows := (repeatOf s.clock (.of hold) s.rows).2
          calls := s.calls ++ [⟨hold, .counting⟩] } := .call (.inl rfl)
      rwa [heq] at hdid
  | count i =>
    simp only [step] at h
    split at h
    next hold hi =>
      cases h
      unfold countCall
      split
      next => exact .full hi
      next hroom => exact .room hi (not_le.1 hroom)
    next => cases h
  | put i =>
    simp only [step] at h
    split at h
    next hold hi => cases h; exact .put hi
    next => cases h
  | write i =>
    simp only [step] at h
    split at h
    next hold hash expiresAt hi =>
      cases h
      rcases repeatOf_cases s.clock (.of hold) s.rows with ⟨heq, hno⟩ | ⟨row, -, -, hrepeat⟩
      · simp only [writeCall, heq]
        exact .insert hi hno
      · have hdid : s.Did hashOf (.write i) { s with
            rows := (repeatOf s.clock (.of hold) s.rows).2
            calls := s.calls.set i ⟨hold, .finished (some row.id)⟩ } := .again hi
        unfold writeCall
        rcases hrepeat with heq | ⟨-, heq⟩ <;> rw [heq] at hdid ⊢ <;> exact hdid
    next => cases h
  | fail i =>
    simp only [step] at h
    split at h
    next c hi => cases h; exact .fail hi
    next => cases h
  | settle account id how keep => cases h; exact .settle
  | reopen account id => cases h; exact .reopen
  | returning account rawHash messageId envelopeFrom => cases h; exact .returning
  | prune => cases h; exact .prune
  | clear => cases h; exact .clear

theorem Kept.step (h : Kept s.rows) (hdid : s.Did hashOf e s') : Kept s'.rows := by
  cases hdid with
  | tick | full | room | put | fail => exact h
  | call | again => exact h.repeatOf _ _
  | insert hi hno => exact h.append hno _ _ _
  | settle => exact h.settle _ _ _ _ _
  | reopen => exact h.updateWhere _ (by exact fun _ => ⟨rfl, rfl, rfl⟩)
  | returning => exact h.sublist (returning_sublist _ _ _ _ _)
  | prune => exact h.sublist (deleteWhere_sublist _ _)
  | clear => exact ⟨.nil, .nil⟩

/-- The table is empty at first. -/
def Held.start (clock : Int) : Held := { clock }

theorem kept_run {clock : Int} {es : List Event} (hrun : run (Held.step hashOf) (.start clock) es = some s) :
    Kept s.rows :=
  run_invariant' (P := fun s => Kept s.rows) (fun _ _ _ h hstep => h.step (Held.did hstep)) ⟨.nil, .nil⟩ hrun

/-! ## 4. A settled row -/

/-- The step takes the row away, or puts it back into the waiting list. -/
def Event.Undoes (s : Held) (r : HoldRow) : Event → Prop
  | reopen account id => r.accountId = account ∧ r.id = id ∧ r.blobHash.isSome = true
  | prune => r.expiresAt ≤ s.clock
  | clear => True
  | _ => False

/-- A statement about waiting rows leaves the settled ones. -/
theorem mem_updateWhere_of_settled {p : HoldRow → Bool} {f : HoldRow → HoldRow} (hr : r ∈ rows)
    (hp : p r = false) : r ∈ Table.updateWhere p f rows :=
  mem_updateWhere.2 ⟨r, hr, if_neg (by simp [hp])⟩

/-- **A settled row stays as it is** until it is reopened or expires. -/
theorem settled_stays (hr : r ∈ s.rows) (hsettled : r.settled.isSome = true) (hno : ¬ e.Undoes s r)
    (hkept : Kept s.rows) (hdid : s.Did hashOf e s') : r ∈ s'.rows := by
  have hwaiting : r.isWaiting = false := by simpa [HoldRow.isWaiting] using hsettled
  have hrepeat : ∀ key, r ∈ (repeatOf s.clock key s.rows).2 := by
    intro key
    rcases repeatOf_cases s.clock key s.rows with ⟨heq, -⟩ | ⟨row, hrow, -, heq | ⟨hrw, heq⟩⟩
    · rw [heq]
      exact hr
    · rw [heq]
      exact hr
    · rw [heq]
      refine mem_updateWhere_of_settled hr (beq_eq_false_iff_ne.2 fun hid => ?_)
      rw [hkept.ids.eq hr hrow hid, hrw] at hwaiting
      cases hwaiting
  cases hdid with
  | tick | full | room | put | fail => exact hr
  | call | again => exact hrepeat _
  | insert => exact List.mem_append_left _ hr
  | settle =>
    unfold settleGreylistHold
    dsimp only
    split
    · exact mem_updateWhere_of_settled (mem_updateWhere_of_settled hr (by simp [hwaiting])) (by simp [hwaiting])
    · exact hr
  | @reopen account id =>
    refine mem_updateWhere_of_settled hr ?_
    by_contra hp
    simp only [Bool.not_eq_false, Bool.and_eq_true, beq_iff_eq] at hp
    exact hno ⟨hp.1.1.2, hp.1.1.1, hp.2⟩
  | @returning account rawHash messageId envelopeFrom =>
    unfold returningGreylistHold
    dsimp only
    split
    · exact mem_deleteWhere.2 ⟨hr, by simp [hwaiting, HoldRow.waitsFor]⟩
    · split <;> exact hr
  | prune => exact mem_deleteWhere.2 ⟨hr, by simpa [Event.Undoes] using hno⟩
  | clear => exact absurd trivial hno

/-- The first of rows that are all the same one. -/
theorem head?_insertionSort {le : HoldRow → HoldRow → Prop} [DecidableRel le] (hr : r ∈ rows)
    (honly : ∀ r' ∈ rows, r' = r) : (rows.insertionSort le).head? = some r := by
  cases hhead : (rows.insertionSort le).head? with
  | none =>
    rw [List.head?_eq_none_iff] at hhead
    have := (List.mem_insertionSort le).2 hr
    rw [hhead] at this
    cases this
  | some r' => rw [honly r' ((List.mem_insertionSort le).1 (List.mem_of_mem_head? hhead))]

/-- What a settled row answers. -/
def Settled.answer : Settled → Returning
  | .delivered => .delivered
  | .discarded => .discarded

/-- **What is answered for the bytes of a settled row.** -/
theorem returning_settled (hkept : Kept rows) (hr : r ∈ rows) {how : Settled} (hsettled : r.settled = some how)
    (messageId : Option String) (envelopeFrom : String) :
    (returningGreylistHold r.accountId r.rawHash messageId envelopeFrom rows).1 =
      if rows.any (·.waitsFor r.accountId messageId envelopeFrom) then .fresh else how.answer := by
  -- The row is the only one with these bytes.
  have honly : ∀ r' ∈ rows, r'.accountId = r.accountId → r'.rawHash = r.rawHash → r' = r :=
    fun r' hr' hacc hhash => hkept.bytes.eq hr' hr (Prod.ext hacc hhash)
  have hgone : rows.any (fun r' => (r'.accountId == r.accountId && r'.isWaiting && r'.rawHash == r.rawHash) ||
      r'.waitsFor r.accountId messageId envelopeFrom) =
        rows.any (·.waitsFor r.accountId messageId envelopeFrom) := by
    rw [Bool.eq_iff_iff, List.any_eq_true, List.any_eq_true]
    refine exists_congr fun r' => and_congr_right fun hr' => ?_
    rw [Bool.or_eq_true]
    refine or_iff_right_of_imp fun h => ?_
    simp only [Bool.and_eq_true, beq_iff_eq] at h
    rw [honly r' hr' h.1.1 h.2, HoldRow.isWaiting, hsettled] at h
    simp at h
  unfold returningGreylistHold
  dsimp only
  rw [hgone]
  split
  · rfl
  · have hhead : (((rows.filter fun r' =>
        r'.accountId == r.accountId && r'.rawHash == r.rawHash && r'.settled.isSome).insertionSort
          fun a b => b.id ≤ a.id).head?) = some r := by
      refine head?_insertionSort ?_ fun r' hr' => ?_
      · simp [hr, hsettled]
      · simp only [List.mem_filter, Bool.and_eq_true, beq_iff_eq] at hr'
        exact honly r' hr'.1 hr'.2.1.1 hr'.2.1.2
    rw [hhead, Option.bind_some, hsettled]
    cases how <;> rfl

/-- **A settled message stays settled** exactly as long as no other message with the Message-ID and
the envelope sender of the returning copy is waiting: whatever happened since the decision, but for
reopening and expiring the row. -/
theorem settled_message_stays_settled_iff (hashOf : List UInt8 → String) (clock : Int) (es es' : List Event)
    (s s' : Held) (hrun : run (Held.step hashOf) (.start clock) es = some s)
    (hrun' : run (Held.step hashOf) s es' = some s') (r : HoldRow) (how : Settled) (hr : r ∈ s.rows)
    (hsettled : r.settled = some how)
    (hkept : Along (Held.step hashOf) (fun t e => ¬ e.Undoes t r) s es') (messageId : Option String)
    (envelopeFrom : String) :
    (returningGreylistHold r.accountId r.rawHash messageId envelopeFrom s'.rows).1 ≠ .fresh ↔
      ∀ w ∈ s'.rows, w.waitsFor r.accountId messageId envelopeFrom = false := by
  have hlast : Kept s'.rows ∧ r ∈ s'.rows := by
    refine run_invariant (P := fun t => Kept t.rows ∧ r ∈ t.rows) ?_ ⟨kept_run hrun, hr⟩ hkept hrun'
    rintro t e t' ⟨hk, hmem⟩ hno hstep
    have hdid := Held.did hstep
    exact ⟨hk.step hdid, settled_stays hmem (by simp [hsettled]) hno hk hdid⟩
  rw [returning_settled hlast.1 hlast.2 hsettled]
  cases hany : s'.rows.any (·.waitsFor r.accountId messageId envelopeFrom) with
  | true =>
    obtain ⟨w, hw, hwaits⟩ := List.any_eq_true.1 hany
    simp only [if_true, ne_eq, not_true_eq_false, false_iff, not_forall]
    exact ⟨w, hw, by simp [hwaits]⟩
  | false =>
    rw [List.any_eq_false] at hany
    simp only [Bool.false_eq_true, if_false]
    refine ⟨fun _ w hw => by simpa using hany w hw, fun _ => ?_⟩
    cases how <;> simp [Settled.answer]

end Steps

/-- A message for account 1 with these bytes, from one sender and with one Message-ID. -/
def parcel (rawHash : String) : NewGreylistHold :=
  { accountId := 1, address := "nyu@uwu.test", envelopeFrom := "shop@example.org", headerFrom := "shop@example.org"
    subject := none, messageId := some "<1@example.org>", smtpId := "", clientIp := "", message := []
    rawHash, keepSecs := 100 }

/-- One call of `hold_greylisted` that nobody disturbs, the `i`-th there is. -/
def keepAlone (i : Nat) (hold : NewGreylistHold) : List Event := [.call hold, .count i, .put i, .write i]

def discarded : List Event := keepAlone 0 (parcel "a") ++ [.settle 1 1 .discarded false]

theorem settled_parcel_stays_settled :
    ∃ s, run (Held.step fun _ => "") (.start 0) discarded = some s ∧
      (returningGreylistHold 1 "a" (some "<1@example.org>") "shop@example.org" s.rows).1 ≠ .fresh := by
  obtain ⟨s, hs⟩ : ∃ s, run (Held.step fun _ => "") (.start 0) discarded = some s :=
    Option.isSome_iff_exists.1 (by decide)
  have hrow : ((run (Held.step fun _ => "") (.start 0) discarded).bind fun s => s.rows.head?) =
      some { (parcel "a").row 1 0 "" 100 with settled := some .discarded, settledAt := some 0, blobHash := none } := by
    decide
  have hwaits : ((run (Held.step fun _ => "") (.start 0) discarded).map fun s =>
      s.rows.all fun w => !w.waitsFor 1 (some "<1@example.org>") "shop@example.org") = some true := by
    decide
  rw [hs] at hrow hwaits
  refine ⟨s, hs, ?_⟩
  refine (settled_message_stays_settled_iff _ 0 discarded [] s s hs rfl _ .discarded
    (List.mem_of_mem_head? hrow) rfl trivial (some "<1@example.org>") "shop@example.org").2 fun w hw => ?_
  simp only [Option.map_some, Option.some.injEq, List.all_eq_true, Bool.not_eq_true'] at hwaits
  exact hwaits w hw

/-- **A discarded message is delivered**: the sender's next attempt comes from another of its
machines and waits, and then the first machine comes back with the bytes that were discarded. -/
theorem discarded_parcel_comes_back :
    ((run (Held.step fun _ => "") (.start 0) (discarded ++ keepAlone 1 (parcel "b"))).map fun s =>
        (s.rows.map fun r => (r.rawHash, r.settled),
          (returningGreylistHold 1 "a" (some "<1@example.org>") "shop@example.org" s.rows).1)) =
      some ([("a", some .discarded), ("b", none)], .fresh) := by
  decide +kernel

/-! ## 5. The limits -/

/-- The calls for an account that have counted and have no row yet. -/
def Call.isAhead (account : Int) (c : Call) : Bool :=
  c.hold.accountId == account && match c.phase with
    | .putting | .writing _ _ => true
    | _ => false

/-- The rows that wait, and the ones on their way. -/
def Held.load (s : Held) (account : Int) : Nat :=
  waitingOf account s.rows + s.calls.countP (·.isAhead account)

/-- Whoever makes a message wait looks at those on their way too. -/
def Event.Spaced (s : Held) : Event → Prop
  | count i => ∀ c ∈ s.calls[i]?, waitingOf c.hold.accountId s.rows < maxHeldPerAccount →
      s.load c.hold.accountId < maxHeldPerAccount
  | reopen account _ => s.load account < maxHeldPerAccount
  | _ => True

/-- Every message is kept for the same time. -/
def Event.KeptFor (keep : Int) : Event → Prop
  | call hold => hold.keepSecs = keep
  | _ => True

section Limits

variable {hashOf : List UInt8 → String} {s s' : Held} {e : Event} {rows : List HoldRow}
  {account : Int}

theorem countP_updateWhere_le {p q : HoldRow → Bool} {f : HoldRow → HoldRow}
    (hf : ∀ r, q r = true → p (f r) = true → p r = true) :
    (updateWhere q f rows).countP p ≤ rows.countP p := by
  rw [updateWhere, List.countP_map]
  refine List.countP_mono_left fun r _ h => ?_
  simp only [Function.comp_apply] at h
  split at h
  next hq => exact hf r hq h
  next => exact h

/-- A statement about one row makes at most one more wait. -/
theorem countP_updateWhere_succ {p q : HoldRow → Bool} {f : HoldRow → HoldRow} (hq : rows.countP q ≤ 1) :
    (updateWhere q f rows).countP p ≤ rows.countP p + 1 := by
  rw [updateWhere, List.countP_map]
  refine le_trans ?_ (Nat.add_le_add_left hq _)
  clear hq
  induction rows with
  | nil => simp
  | cons r rows ih =>
    simp only [List.countP_cons, Function.comp_apply] at ih ⊢
    by_cases hqr : q r = true
    · simp only [hqr, if_true]
      split <;> split <;> omega
    · simp only [hqr, if_false, Bool.false_eq_true]
      split <;> omega

theorem waitingOf_repeatOf (key : RepeatKey) : waitingOf account (repeatOf s.clock key s.rows).2 ≤
    waitingOf account s.rows := by
  rcases repeatOf_cases s.clock key s.rows with ⟨heq, -⟩ | ⟨row, -, -, heq | ⟨-, heq⟩⟩ <;> rw [heq]
  exact countP_updateWhere_le (by exact fun _ _ h => h)

theorem waitingOf_settle (now a : Int) (id : Nat) (how : Settled) (keep : Bool) :
    waitingOf account (settleGreylistHold now a id how keep rows).2 ≤ waitingOf account rows := by
  unfold settleGreylistHold
  dsimp only
  split
  · refine (countP_updateWhere_le ?_).trans (countP_updateWhere_le ?_)
    all_goals
      intro r _ h
      simp [HoldRow.isWaiting] at h
  · exact le_refl _

theorem waitingOf_reopen (hkept : Kept rows) (a : Int) (id : Nat) :
    waitingOf account (reopenGreylistHold a id rows) ≤
      waitingOf account rows + if account = a then 1 else 0 := by
  unfold reopenGreylistHold
  split
  next =>
    refine countP_updateWhere_succ ?_
    have hone : rows.countP (fun r => r.id == id) ≤ 1 := by
      have := List.nodup_iff_count_le_one.1 hkept.ids id
      rwa [List.count, List.countP_map] at this
    refine (List.countP_mono_left fun r _ h => ?_).trans hone
    simp only [Bool.and_eq_true] at h
    exact h.1.1.1
  next hne =>
    refine countP_updateWhere_le fun r hq hp => ?_
    simp only [Bool.and_eq_true, beq_iff_eq] at hq hp
    exact absurd (hp.1.symm.trans hq.1.1.2) hne

theorem waitingOf_sublist {rows' : List HoldRow} (h : rows'.Sublist rows) :
    waitingOf account rows' ≤ waitingOf account rows := h.countP_le

@[simp] theorem isAhead_putting (hold : NewGreylistHold) :
    (⟨hold, .putting⟩ : Call).isAhead account = (hold.accountId == account) := by simp [Call.isAhead]

@[simp] theorem isAhead_writing (hold : NewGreylistHold) (hash : String) (expiresAt : Int) :
    (⟨hold, .writing hash expiresAt⟩ : Call).isAhead account = (hold.accountId == account) := by
  simp [Call.isAhead]

@[simp] theorem isAhead_counting (hold : NewGreylistHold) :
    (⟨hold, .counting⟩ : Call).isAhead account = false := by simp [Call.isAhead]

@[simp] theorem isAhead_finished (hold : NewGreylistHold) (answer : Option Nat) :
    (⟨hold, .finished answer⟩ : Call).isAhead account = false := by simp [Call.isAhead]

/-- A call that moves on and is not on its way to a row afterwards. -/
theorem ahead_set_le {i : Nat} {c c' : Call} (hi : s.calls[i]? = some c) (hc : c'.isAhead account = false ∨
    c'.isAhead account = c.isAhead account) :
    (s.calls.set i c').countP (·.isAhead account) ≤ s.calls.countP (·.isAhead account) := by
  have hsum := countP_set_add (b := c') (fun c : Call => c.isAhead account) hi
  rcases hc with hc | hc
  · rw [hc] at hsum
    simp only [Bool.toNat_false] at hsum
    omega
  · rw [hc] at hsum
    omega

/-- **Nobody has more waiting than the limit**, step by step. -/
theorem load_step (hkept : Kept s.rows) (h : ∀ account, s.load account ≤ maxHeldPerAccount)
    (hspaced : e.Spaced s) (hdid : s.Did hashOf e s') (account : Int) :
    s'.load account ≤ maxHeldPerAccount := by
  have hle := h account
  unfold Held.load at hle ⊢
  cases hdid with
  | tick => exact hle
  | @call hold phase hphase =>
    have hrows := @waitingOf_repeatOf s account (.of hold)
    have hcall : ([⟨hold, phase⟩] : List Call).countP (·.isAhead account) = 0 := by
      rcases hphase with rfl | ⟨id, rfl⟩ <;> simp
    rw [List.countP_append, hcall]
    exact (Nat.add_le_add_right hrows _).trans hle
  | full hi => exact (Nat.add_le_add_left (ahead_set_le hi (Or.inl (by simp))) _).trans hle
  | @room i hold hi hroom =>
    have hsum := countP_set_add (b := ⟨hold, .putting⟩) (fun c : Call => c.isAhead account) hi
    simp only [isAhead_putting, isAhead_counting, Bool.toNat_false] at hsum
    dsimp only
    by_cases hacc : hold.accountId = account
    · have hlt := hspaced _ hi hroom
      unfold Held.load at hlt
      simp only [hacc, beq_self_eq_true, Bool.toNat_true] at hsum hlt
      omega
    · simp only [beq_eq_false_iff_ne.2 hacc, Bool.toNat_false] at hsum
      omega
  | put hi => exact (Nat.add_le_add_left (ahead_set_le hi (Or.inr (by simp))) _).trans hle
  | again hi =>
    exact (Nat.add_le_add (waitingOf_repeatOf _) (ahead_set_le hi (Or.inl (by simp)))).trans hle
  | @insert i hold hash expiresAt id hi hno =>
    have hsum := countP_set_add (b := ⟨hold, .finished (some id)⟩) (fun c : Call => c.isAhead account) hi
    simp only [isAhead_finished, isAhead_writing, Bool.toNat_false] at hsum
    have hrow : waitingOf account [hold.row (nextId s.rows) s.clock hash expiresAt] =
        (hold.accountId == account).toNat := by
      cases hacc : hold.accountId == account <;>
        simp [waitingOf, NewGreylistHold.row, HoldRow.isWaiting, hacc]
    have hrows : waitingOf account (s.rows ++ [hold.row (nextId s.rows) s.clock hash expiresAt]) =
        waitingOf account s.rows + (hold.accountId == account).toNat := by
      rw [← hrow]
      exact List.countP_append
    dsimp only
    omega
  | fail hi => exact (Nat.add_le_add_left (ahead_set_le hi (Or.inl (by simp [Call.isAhead]))) _).trans hle
  | settle => exact (Nat.add_le_add_right (waitingOf_settle _ _ _ _ _) _).trans hle
  | @reopen a id =>
    have hrows := @waitingOf_reopen _ account hkept a id
    dsimp only
    split at hrows
    next hacc =>
      have hlt : s.load account < maxHeldPerAccount := hacc ▸ hspaced
      unfold Held.load at hlt
      omega
    next => omega
  | returning => exact (Nat.add_le_add_right (waitingOf_sublist (returning_sublist _ _ _ _ _)) _).trans hle
  | prune => exact (Nat.add_le_add_right (waitingOf_sublist (deleteWhere_sublist _ _)) _).trans hle
  | clear => exact (Nat.add_le_add_right (Nat.zero_le _) _).trans hle

/-- What is kept for `keep` seconds: a row from when it was inserted, a call from when its message
was put. -/
structure KeptFor (keep : Int) (s : Held) : Prop where
  rows : ∀ r ∈ s.rows, r.expiresAt ≤ r.at_ + 2 * max keep 0
  calls : ∀ c ∈ s.calls, c.hold.keepSecs = keep ∧
    ∀ hash expiresAt, c.phase = .writing hash expiresAt → expiresAt ≤ s.clock + max keep 0

theorem saturatingMul_le {a : Int} (ha : 0 ≤ a) : saturatingMul a maxKeepsPerRow ≤ 2 * a := by
  unfold saturatingMul maxKeepsPerRow
  omega

instance (s : Held) (e : Event) : Decidable (e.Spaced s) := by
  unfold Event.Spaced
  split <;> infer_instance

instance (keep : Int) (e : Event) : Decidable (e.KeptFor keep) := by
  unfold Event.KeptFor
  split <;> infer_instance

/-- Only counting an attempt moves the end of a row, and not past twice the time from its start. -/
theorem KeptFor.repeatOf {keep : Int} {key : RepeatKey} (h : ∀ r ∈ s.rows, r.expiresAt ≤ r.at_ + 2 * keep)
    (hkeep : key.keepSecs = keep) (hpos : 0 ≤ keep) :
    ∀ r ∈ (Greylist.repeatOf s.clock key s.rows).2, r.expiresAt ≤ r.at_ + 2 * keep := by
  rcases repeatOf_cases s.clock key s.rows with ⟨heq, -⟩ | ⟨row, -, -, heq | ⟨-, heq⟩⟩ <;> rw [heq]
  · exact h
  · exact h
  · intro r' hr'
    obtain ⟨r, hr, rfl⟩ := mem_updateWhere.1 hr'
    have hle := h r hr
    split
    · refine max_le hle ((min_le_right _ _).trans ?_)
      rw [hkeep]
      exact Int.add_le_add_left (saturatingMul_le hpos) _
    · exact hle

theorem KeptFor.updateWhere {keep : Int} {p : HoldRow → Bool} {f : HoldRow → HoldRow}
    (h : ∀ r ∈ rows, r.expiresAt ≤ r.at_ + 2 * keep)
    (hf : ∀ r, (f r).expiresAt = r.expiresAt ∧ (f r).at_ = r.at_) :
    ∀ r ∈ Table.updateWhere p f rows, r.expiresAt ≤ r.at_ + 2 * keep := by
  intro r' hr'
  obtain ⟨r, hr, rfl⟩ := mem_updateWhere.1 hr'
  split
  · rw [(hf r).1, (hf r).2]
    exact h r hr
  · exact h r hr

theorem KeptFor.calls_set {keep : Int} {i : Nat} {c : Call} {phase : Phase} (h : KeptFor keep s)
    (hi : s.calls[i]? = some c)
    (hphase : ∀ hash expiresAt, phase = .writing hash expiresAt → expiresAt ≤ s.clock + max keep 0) :
    ∀ c' ∈ s.calls.set i { c with phase }, c'.hold.keepSecs = keep ∧
      ∀ hash expiresAt, c'.phase = .writing hash expiresAt → expiresAt ≤ s.clock + max keep 0 := by
  intro c' hc'
  rcases mem_of_mem_set hi hc' with rfl | hc'
  · exact ⟨(h.calls c (List.mem_of_getElem? hi)).1, hphase⟩
  · exact h.calls c' hc'

theorem KeptFor.step {keep : Int} (h : KeptFor keep s) (hkeep : e.KeptFor keep)
    (hdid : s.Did hashOf e s') : KeptFor keep s' := by
  cases hdid with
  | @tick secs =>
    refine ⟨h.rows, fun c hc => ⟨(h.calls c hc).1, fun hash expiresAt hphase => ?_⟩⟩
    have := (h.calls c hc).2 hash expiresAt hphase
    dsimp only
    omega
  | @call hold phase hphase =>
    refine ⟨KeptFor.repeatOf h.rows (hkeep ▸ rfl) (le_max_right _ _), fun c hc => ?_⟩
    rcases List.mem_append.1 hc with hc | hc
    · exact h.calls c hc
    · rw [List.mem_singleton.1 hc]
      refine ⟨hkeep, fun hash expiresAt heq => ?_⟩
      rcases hphase with rfl | ⟨id, rfl⟩ <;> cases heq
  | full hi | room hi => exact ⟨h.rows, h.calls_set hi (by rintro _ _ ⟨⟩)⟩
  | put hi =>
    refine ⟨h.rows, h.calls_set hi ?_⟩
    rintro hash expiresAt ⟨⟩
    rw [(h.calls _ (List.mem_of_getElem? hi)).1]
  | again hi =>
    exact ⟨KeptFor.repeatOf h.rows ((h.calls _ (List.mem_of_getElem? hi)).1 ▸ rfl)
      (le_max_right _ _), h.calls_set hi (by rintro _ _ ⟨⟩)⟩
  | insert hi hno =>
    refine ⟨fun r hr => ?_, h.calls_set hi (by rintro _ _ ⟨⟩)⟩
    rcases List.mem_append.1 hr with hr | hr
    · exact h.rows r hr
    · have := (h.calls _ (List.mem_of_getElem? hi)).2 _ _ rfl
      rw [List.mem_singleton.1 hr]
      simp only [NewGreylistHold.row]
      omega
  | fail hi => exact ⟨h.rows, h.calls_set hi (by rintro _ _ ⟨⟩)⟩
  | settle =>
    refine ⟨?_, h.calls⟩
    unfold settleGreylistHold
    dsimp only
    split
    · exact KeptFor.updateWhere (KeptFor.updateWhere h.rows (by exact fun _ => ⟨rfl, rfl⟩))
        (by exact fun _ => ⟨rfl, rfl⟩)
    · exact h.rows
  | reopen => exact ⟨KeptFor.updateWhere h.rows (by exact fun _ => ⟨rfl, rfl⟩), h.calls⟩
  | returning => exact ⟨fun r hr => h.rows r ((returning_sublist _ _ _ _ _).subset hr), h.calls⟩
  | prune => exact ⟨fun r hr => h.rows r (mem_deleteWhere.1 hr).1, h.calls⟩
  | clear => exact ⟨by simp, h.calls⟩

/-- **The limits on kept mail.**  Whatever the order of the steps, a row expires by twice its
keeping time after it was inserted; and nobody has more rows waiting than the limit, where whoever
counts or reopens also finds room for the rows that are on their way. -/
theorem held_mail_is_limited (hashOf : List UInt8 → String) (clock : Int) (es : List Event) (s : Held)
    (hrun : run (Held.step hashOf) (.start clock) es = some s) :
    (Along (Held.step hashOf) (fun t e => e.Spaced t) (.start clock) es →
      ∀ account, waitingOf account s.rows ≤ maxHeldPerAccount) ∧
    ∀ keep, Along (Held.step hashOf) (fun _ e => e.KeptFor keep) (.start clock) es →
      ∀ r ∈ s.rows, r.expiresAt ≤ r.at_ + 2 * max keep 0 := by
  constructor
  · intro hspaced account
    have hlast : Kept s.rows ∧ ∀ account, s.load account ≤ maxHeldPerAccount := by
      refine run_invariant (P := fun t => Kept t.rows ∧ ∀ account, t.load account ≤ maxHeldPerAccount) ?_
        ⟨⟨.nil, .nil⟩, fun account => Nat.zero_le _⟩ hspaced hrun
      rintro t e t' ⟨hk, hload⟩ hok hstep
      have hdid := Held.did hstep
      exact ⟨hk.step hdid, load_step hk hload hok hdid⟩
    exact (Nat.le_add_right _ _).trans (hlast.2 account)
  · intro keep hkeep
    refine (run_invariant (P := KeptFor keep) ?_ ⟨by simp [Held.start], by simp [Held.start]⟩ hkeep hrun).rows
    exact fun t e t' h hok hstep => h.step hok (Held.did hstep)

end Limits

section Rush

variable {hashOf : List UInt8 → String} {s : Held} {hold hold' : NewGreylistHold} {now : Int}

@[simp] theorem row_accountId {id : Nat} {hash : String} {expiresAt : Int} :
    (hold.row id now hash expiresAt).accountId = hold.accountId := rfl

@[simp] theorem row_isWaiting {id : Nat} {hash : String} {expiresAt : Int} :
    (hold.row id now hash expiresAt).isWaiting = true := rfl

theorem repeatOf_none {rows : List HoldRow} (hno : ∀ r ∈ rows, r.repeats (.of hold) = false) :
    repeatOf now (.of hold) rows = (none, rows) := by
  rcases repeatOf_cases now (.of hold) rows with ⟨heq, -⟩ | ⟨row, hrow, hrepeats, -⟩
  · exact heq
  · rw [hno row hrow] at hrepeats
    cases hrepeats

/-- A message that repeats nothing is kept when there is room. -/
theorem run_keepAlone (hno : ∀ r ∈ s.rows, r.repeats (.of hold) = false)
    (hroom : waitingOf hold.accountId s.rows < maxHeldPerAccount) :
    run (Held.step hashOf) s (keepAlone s.calls.length hold) = some { s with
      rows := s.rows ++ [hold.row (nextId s.rows) s.clock (hashOf hold.message)
        (s.clock + max hold.keepSecs 0)]
      calls := s.calls ++ [⟨hold, .finished (some (nextId s.rows))⟩] } := by
  simp [run, keepAlone, Held.step, Held.countCall, Held.writeCall, repeatOf_none hno, not_le.2 hroom]

/-- Two calls that count before either writes. -/
def keepBoth (i : Nat) (hold hold' : NewGreylistHold) : List Event :=
  [.call hold, .call hold', .count i, .count (i + 1), .put i, .put (i + 1), .write i, .write (i + 1)]

theorem run_keepBoth (hno : ∀ r ∈ s.rows, r.repeats (.of hold) = false)
    (hno' : ∀ r ∈ s.rows, r.repeats (.of hold') = false)
    (hroom : waitingOf hold.accountId s.rows < maxHeldPerAccount)
    (hroom' : waitingOf hold'.accountId s.rows < maxHeldPerAccount)
    (hapart : ∀ id hash expiresAt, (hold.row id s.clock hash expiresAt).repeats (.of hold') = false) :
    ∃ s' row row', run (Held.step hashOf) s (keepBoth s.calls.length hold hold') = some s' ∧
      s'.rows = s.rows ++ [row, row'] ∧ row.accountId = hold.accountId ∧ row'.accountId = hold'.accountId ∧
        row.isWaiting = true ∧ row'.isWaiting = true := by
  have hboth : ∀ row, row.repeats (.of hold') = false →
      repeatOf s.clock (.of hold') (s.rows ++ [row]) = (none, s.rows ++ [row]) := by
    intro row hrow
    refine repeatOf_none fun r hr => ?_
    rcases List.mem_append.1 hr with hr | hr
    · exact hno' r hr
    · rw [List.mem_singleton.1 hr]
      exact hrow
  simp only [run, keepBoth, Held.step, Held.countCall, Held.writeCall]
  simp [repeatOf_none hno, repeatOf_none hno', not_le.2 hroom, not_le.2 hroom', hboth, hapart]

end Rush

/-- A message of its own for account 1, known by the length of its hash. -/
def leaflet (n : Nat) : NewGreylistHold :=
  { parcel (String.ofList (List.replicate n 'x')) with messageId := none }

theorem leaflet_repeats {r : HoldRow} {n k : Nat} (hr : r.rawHash = (leaflet k).rawHash) (h : k ≠ n) :
    r.repeats (.of (leaflet n)) = false := by
  have hne : r.rawHash ≠ (leaflet n).rawHash := by
    rw [hr]
    intro heq
    have := congrArg (fun s : String => s.toList.length) heq
    simp [leaflet, parcel] at this
    exact h this
  have hno : (RepeatKey.of (leaflet n)).messageId.isSome = false := rfl
  simp only [HoldRow.repeats, hno, Bool.and_false, Bool.false_and, Bool.or_false]
  exact Bool.and_eq_false_imp.2 fun _ => beq_eq_false_iff_ne.2 hne

/-- Messages of their own, one after the other. -/
def leaflets (n : Nat) : List Event := (List.range n).flatMap fun i => keepAlone i (leaflet i)

theorem run_leaflets (n : Nat) (hn : n ≤ maxHeldPerAccount) :
    ∃ s, run (Held.step fun _ => "") (.start 0) (leaflets n) = some s ∧ s.calls.length = n ∧
      waitingOf 1 s.rows = n ∧ ∀ r ∈ s.rows, ∃ k < n, r.rawHash = (leaflet k).rawHash := by
  induction n with
  | zero => exact ⟨_, rfl, rfl, rfl, by simp [Held.start]⟩
  | succ n ih =>
    obtain ⟨s, hrun, hlength, hwaiting, hrows⟩ := ih (by omega)
    have hno : ∀ r ∈ s.rows, r.repeats (.of (leaflet n)) = false := fun r hr =>
      have ⟨k, hk, heq⟩ := hrows r hr
      leaflet_repeats heq (by omega)
    have hroom : waitingOf (leaflet n).accountId s.rows < maxHeldPerAccount := by
      rw [show (leaflet n).accountId = 1 from rfl, hwaiting]
      omega
    have hstep := @run_keepAlone (fun _ => "") _ _ hno hroom
    rw [hlength] at hstep
    have hrun' := (run_append hrun).trans hstep
    have hsucc : leaflets (n + 1) = leaflets n ++ keepAlone n (leaflet n) := by
      simp [leaflets, List.range_succ]
    rw [← hsucc] at hrun'
    refine ⟨_, hrun', by simp [hlength], ?_, fun r hr => ?_⟩
    · rw [← hwaiting]
      exact List.countP_append
    · rcases List.mem_append.1 hr with hr | hr
      · obtain ⟨k, hk, heq⟩ := hrows r hr
        exact ⟨k, by omega, heq⟩
      · exact ⟨n, by omega, by rw [List.mem_singleton.1 hr]; rfl⟩

/-- **One message too many is kept** when two calls count before either writes. -/
theorem two_calls_pass_the_limit :
    ∃ s, run (Held.step fun _ => "") (.start 0)
        (leaflets 199 ++ keepBoth 199 (leaflet 199) (leaflet 200)) = some s ∧
      maxHeldPerAccount < waitingOf 1 s.rows := by
  obtain ⟨s, hrun, hlength, hwaiting, hrows⟩ := run_leaflets 199 (by decide)
  have hno : ∀ n, 199 ≤ n → ∀ r ∈ s.rows, r.repeats (.of (leaflet n)) = false := fun n hn r hr =>
    have ⟨k, hk, heq⟩ := hrows r hr
    leaflet_repeats heq (by omega)
  have hroom : waitingOf 1 s.rows < maxHeldPerAccount := by
    rw [hwaiting]
    decide
  obtain ⟨s', row, row', hstep, heq, hacc, hacc', hw, hw'⟩ :=
    @run_keepBoth (fun _ => "") _ (leaflet 199) (leaflet 200) (hno 199 (le_refl _))
      (hno 200 (by omega)) hroom hroom fun _ _ _ => leaflet_repeats rfl (by omega)
  rw [hlength] at hstep
  refine ⟨s', (run_append hrun).trans hstep, ?_⟩
  have hcount : waitingOf 1 s'.rows = waitingOf 1 s.rows + waitingOf 1 [row, row'] := by
    rw [heq]
    exact List.countP_append
  have hone : (leaflet 199).accountId = 1 ∧ (leaflet 200).accountId = 1 := ⟨rfl, rfl⟩
  have htwo : waitingOf 1 [row, row'] = 2 := by
    simp only [waitingOf, List.countP_cons, List.countP_nil, hacc, hacc', hw, hw', hone]
    rfl
  rw [hcount, htwo, hwaiting]
  decide

theorem one_leaflet_is_limited :
    ∃ s, run (Held.step fun _ => "") (.start 0) (leaflets 1) = some s ∧
      (∀ account, waitingOf account s.rows ≤ maxHeldPerAccount) ∧
        ∀ r ∈ s.rows, r.expiresAt ≤ r.at_ + 2 * max 100 0 := by
  obtain ⟨s, hs⟩ : ∃ s, run (Held.step fun _ => "") (.start 0) (leaflets 1) = some s :=
    Option.isSome_iff_exists.1 (by decide)
  have hlimits := held_mail_is_limited _ 0 _ s hs
  refine ⟨s, hs, hlimits.1 ?_, hlimits.2 100 ?_⟩
  · decide
  · decide

end UwuMail.Greylist
