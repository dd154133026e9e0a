/-
# An IMAP session with a selected mailbox

`session.rs`: what a session knows of the mailbox it selected (`Selected`), and the responses that
change what its client knows.  Message sequence numbers are positions in `Selected.messages`, so the
two sides must agree on that list at EVERY moment, and only EXISTS, EXPUNGE and VANISHED change it
on the client's side.

A command awaits the store several times, and other writers come in between.  So a command is a list
of `Task`s, each with one call of the store at most, and everybody else's operations can come
between any two of them.  A store error ends the command and leaves the session as it is by then.

Which mailbox a path names, and what rights the session has in it, come with the event: paths are
resolved elsewhere, and nothing here depends on how.
-/
import UwuMail.Store.Uids
import UwuMail.Lib.Trace

namespace UwuMail.Imap

open Store

/-! ## 1. What a session knows -/

inductive SeqNum where
  | value (n : Nat)
  | largest
  | saved

def SeqNum.resolve (largest : Nat) : SeqNum → Nat
  | .value n => n
  | .largest => largest
  | .saved => 0

/-- Message sequence numbers or UIDs, like `1:4,7,9:*`. -/
abbrev SequenceSet := List (SeqNum × SeqNum)

/-- Whether `number` is in the set, with `*` standing for `largest`. -/
def contains (set : SequenceSet) (number largest : Nat) : Bool :=
  set.any fun (a, b) =>
    let (a, b) := (a.resolve largest, b.resolve largest)
    decide (min a b ≤ number) && decide (number ≤ max a b)

structure Known where
  uid : U32
  modseq : Nat
  keywords : List String
  /-- Gone from the mailbox, but the client was not told yet. -/
  expunged : Bool := false

structure Selected where
  mailboxId : Int
  owner : Int
  rights : String
  readOnly : Bool
  messages : List Known
  highestModseq : Nat
  sharingModseq : Nat

namespace Selected

def largestUid (sel : Selected) : Nat := (sel.messages.getLast?.map fun k => k.uid.val).getD 0

/-- Positions (0-based) of the messages a set names, in order. -/
def resolve (sel : Selected) (set : SequenceSet) (uid : Bool) : List Nat :=
  (List.range sel.messages.length).filter fun index =>
    if uid then sel.messages[index]?.any fun k => contains set k.uid.val sel.largestUid
    else contains set (index + 1) sel.messages.length

/-- The messages a set names that are not known to be gone. -/
def targets (sel : Selected) (set : SequenceSet) (uid : Bool) : List (Nat × U32) :=
  (sel.resolve set uid).filterMap fun index =>
    match sel.messages[index]? with
    | some k => if k.expunged then none else some (index, k.uid)
    | none => none

/-- Where the messages with these UIDs are, last first, and the messages without them. -/
def forget (sel : Selected) (uids : List U32) : List Nat × Selected :=
  let gone (k : Known) : Bool := uids.contains k.uid
  (((sel.messages.zipIdx.filter fun e => gone e.1).map (·.2)).reverse,
    { sel with messages := sel.messages.filter fun k => !gone k })

end Selected

/-- A response that names messages.  The client learns the UIDs of the messages an EXISTS announces
by fetching them; `uids` is what that answers. -/
inductive Response where
  /-- The client sent SELECT: what was selected before is closed. -/
  | closed
  | exists_ (n : Nat) (uids : List U32)
  | expunge (n : Nat)
  | vanished (uids : List U32)
  | vanishedEarlier (uids : List U32)
  | fetch (n : Nat) (uid : U32) (keywords : List String) (modseq : Nat)
  /-- The connection ends. -/
  | bye (text : String)
  deriving DecidableEq

/-- `ImapEmail`, less what only the text of a FETCH response needs. -/
structure ImapEmail where
  uid : U32
  emailId : Int
  modseq : Nat
  keywords : List String
  receivedAt : Int

/-- `imap_emails`: UIDs that are not there are left out; ascending. -/
def imapEmails (db : Db) (account mailbox : Int) (uids : List U32) :
    Except StoreError (List ImapEmail) := do
  let _ ← ownMailbox db account mailbox
  pure ((emailsByUid db mailbox uids).filterMap fun (uid, emailId, modseq) =>
    (db.email emailId).map fun row =>
      ⟨uid, emailId, modseq, (db.keywordsOf emailId).elems, row.receivedAt⟩)

def imapMailboxModseq (db : Db) (account mailbox : Int) : Option (Nat × Nat) := do
  let row ← db.mailboxes.find? fun r => r.id == mailbox && r.accountId == account
  let owner ← db.account account
  pure (row.updatedModseq.toNat, owner.sharingModseq.toNat)

def hasRights (rights needed : String) : Bool := needed.toList.all fun c => rights.toList.contains c

/-- Whether rights allow setting a keyword: `\Seen` needs `s`, `\Deleted` `t`, everything else
`w`. -/
def maySetKeyword (rights keyword : String) : Bool :=
  if keyword = "$seen" then hasRights rights "s"
  else if keyword = deletedKeyword then hasRights rights "t"
  else hasRights rights "w"

/-- A mailbox a path names, and what the session may do in it. -/
structure Target where
  owner : Int
  mailboxId : Int
  rights : String

structure QresyncParams where
  uidValidity : U32
  modseq : Nat
  knownUids : Option SequenceSet

/-! ## 2. Tasks -/

/-- What is left of a command. -/
inductive Task where
  /-- SELECT: the messages are read; what was read is sent. -/
  | opening (target : Target) (readOnly : Bool) (qresync : Option QresyncParams)
  | opened (target : Target) (readOnly : Bool) (qresync : Option QresyncParams) (state : ImapMessages)
  /-- FETCH: what vanished, the messages, marking them seen, and the answers. -/
  | earlier (since : Nat) (set : SequenceSet)
  | load (uids : List U32)
  | markSeen
  | reload (uids : List U32)
  | answer (targets : List (Nat × U32)) (changedSince : Option Nat)
  /-- STORE: the change, and the answers. -/
  | flags (targets : List (Nat × U32)) (change : FlagChange) (unchangedSince : Option Nat) (silent : Bool)
  | stored (targets : List (Nat × U32)) (skipped : List U32) (silent : Bool)
  | expunge (uids : Option (List U32))
  /-- COPY and MOVE: in one account, or message by message into another one. -/
  | copy (uids : List U32) (target : Target) (removeSource uid : Bool)
  | across (left : List ImapEmail) (target : Target) (pairs : List (U32 × U32)) (removeSource uid : Bool)
  | copied (pairs : List (U32 × U32)) (target : Target) (removeSource uid : Bool)
  | remove (moved : List U32)
  /-- `report_removed` -/
  | report (uids : List U32)
  /-- `refresh`: the look at the change numbers, and the rest. -/
  | check (reportExpunges : Bool)
  | read (reportExpunges : Bool)

structure Session where
  me : Int
  condstore : Bool := false
  qresync : Bool := false
  rev2 : Bool := false
  selected : Option Selected := none
  /-- What the store answered to the command. -/
  emails : List ImapEmail := []
  tasks : List Task := []

/-- What comes from outside the store and the session: the rights `shared_mailbox` answers, and for
a copy into another account the content of the message, whether it was delivered, and the clock. -/
structure Input where
  rights : Option String := none
  raw : List UInt8 := []
  delivered : Bool := false
  now : Int := 0

namespace Session

/-- A store error ends the command. -/
def fail (ss : Session) : Session := { ss with tasks := [], emails := [] }

/-- The session with the messages of its mailbox changed. -/
def withMessages (ss : Session) (sel : Selected) (messages : List Known) : Session :=
  { ss with selected := some { sel with messages := messages } }

/-- Someone else's mailbox is read only while it is still shared: its rights, empty when it is
not. -/
def rightsNow (ss : Session) (sel : Selected) (input : Input) : Option String :=
  if sel.owner = ss.me then none else some ((input.rights.filter fun r => hasRights r "r").getD "")

/-- What is said of messages: position, UID, flags and change number. -/
def showOne (k : Known) (index : Nat) : Response := .fetch (index + 1) k.uid k.keywords k.modseq

/-- The answers to FETCH, message by message. -/
def answers (emails : List ImapEmail) (changedSince : Option Nat) :
    List (Nat × U32) → List Known → List Known × List Response
  | [], messages => (messages, [])
  | (index, uid) :: targets, messages =>
    match emails.find? fun e => e.uid = uid with
    | none => answers emails changedSince targets messages
    | some email =>
      if changedSince.any fun since => decide (email.modseq ≤ since) then
        answers emails changedSince targets messages
      else
        let update (k : Known) : Known :=
          if k.uid = email.uid then { k with keywords := email.keywords, modseq := email.modseq } else k
        let (messages', out) := answers emails changedSince targets (messages.modify index update)
        (messages', .fetch (index + 1) email.uid email.keywords email.modseq :: out)

/-- The answers to STORE. -/
def storedAnswers (emails : List ImapEmail) (skipped : List U32) (silent condstore : Bool) :
    List (Nat × U32) → List Known → List Known × List Response
  | [], messages => (messages, [])
  | (index, uid) :: targets, messages =>
    match emails.find? fun e => e.uid = uid with
    | none => storedAnswers emails skipped silent condstore targets messages
    | some email =>
      let changed := messages[index]?.any fun k =>
        decide (k.keywords ≠ email.keywords ∨ k.modseq ≠ email.modseq)
      let update (k : Known) : Known := { k with keywords := email.keywords, modseq := email.modseq }
      let (messages', out) :=
        storedAnswers emails skipped silent condstore targets (messages.modify index update)
      if skipped.contains uid || (silent && !(condstore && changed)) then (messages', out)
      else (messages', .fetch (index + 1) email.uid email.keywords email.modseq :: out)

/-- The loop of `refresh` over the messages to expunge, from the last one down. -/
def expungeLoop : Nat → List Known → List Known × List Response
  | 0, messages => (messages, [])
  | index + 1, messages =>
    if messages[index]?.any (·.expunged) then
      let (messages', out) := expungeLoop index (messages.eraseIdx index)
      (messages', .expunge (index + 1) :: out)
    else expungeLoop index messages

/-- The loop of `refresh` over the messages whose flags changed. -/
def flagLoop (current : List ImapMessage) : Nat → List Known → List Known × List Response
  | _, [] => ([], [])
  | index, k :: messages =>
    let (messages', out) := flagLoop current (index + 1) messages
    match current.find? fun m => m.uid = k.uid with
    | none => (k :: messages', out)
    | some m =>
      if m.keywords ≠ k.keywords ∨ m.modseq ≠ k.modseq then
        let k' := { k with keywords := m.keywords, modseq := m.modseq }
        (k' :: messages', showOne k' index :: out)
      else (k :: messages', out)

def newKnown (m : ImapMessage) : Known := ⟨m.uid, m.modseq, m.keywords, false⟩

/-- The messages of which some are found to be gone. -/
def mark (state : ImapMessages) (messages : List Known) : List Known :=
  messages.map fun k =>
    if state.messages.any fun m => decide (m.uid = k.uid) then k else { k with expunged := true }

/-- The messages without those that are gone, where they are to be reported, and the reports. -/
def tell (qresync reportExpunges : Bool) (messages : List Known) : List Known × List Response :=
  if reportExpunges && messages.any (·.expunged) then
    if qresync then
      (messages.filter fun k => !k.expunged, [.vanished ((messages.filter (·.expunged)).map (·.uid))])
    else expungeLoop messages.length messages
  else (messages, [])

/-- The messages above the largest UID that is known. -/
def newIn (state : ImapMessages) (sel : Selected) : List Known :=
  (state.messages.filter fun m => decide (sel.largestUid < m.uid.val)).map newKnown

/-- The part of `refresh` that compares what is known with what is there. -/
def compare (qresync reportExpunges : Bool) (sel : Selected) (state : ImapMessages) :
    List Known × List Response :=
  let left := tell qresync reportExpunges (mark state sel.messages)
  let flagged := flagLoop state.messages 0 left.1
  let new := newIn state { sel with messages := flagged.1 }
  let messages := flagged.1 ++ new
  (messages, left.2 ++ flagged.2 ++
    if new.isEmpty then [] else [.exists_ messages.length (new.map (·.uid))])

end Session

/-- The database and the session after a task, and what was sent.  The session comes with the tasks
that are left. -/
abbrev Done := Db × Session × List Response

/-- One task. -/
def Task.run (ext : Externals) (input : Input) (db : Db) (ss : Session) : Task → Done
  | .opening target readOnly qresync =>
    match imapMessages db target.owner target.mailboxId with
    | .ok state => (db, { ss with tasks := .opened target readOnly qresync state :: ss.tasks }, [])
    | .error _ => (db, ss.fail, [])
  | .opened target readOnly qresync state =>
    let sel : Selected := {
      mailboxId := target.mailboxId, owner := target.owner, rights := target.rights
      readOnly := readOnly || !("stwe".toList.any fun c => target.rights.toList.contains c)
      messages := state.messages.map Session.newKnown
      highestModseq := state.highestModseq, sharingModseq := state.sharingModseq }
    let opened := [Response.exists_ state.messages.length (state.messages.map (·.uid))]
    match qresync.filter fun q => decide (q.uidValidity = state.uidValidity) with
    | none => (db, { ss with selected := some sel }, opened)
    | some q =>
      match imapVanished db target.owner target.mailboxId q.modseq with
      | .error _ => (db, ss.fail, [])
      | .ok vanished =>
        let vanished := vanished.filter fun uid =>
          q.knownUids.all fun known => contains known uid.val 4294967295
        let changed := (sel.messages.zipIdx.filter fun e => decide (q.modseq < e.1.modseq)).map
          fun e => Session.showOne e.1 e.2
        (db, { ss with selected := some sel },
          opened ++ (if vanished.isEmpty then [] else [.vanishedEarlier vanished]) ++ changed)
  | task =>
    match ss.selected with
    | none => (db, ss.fail, [])
    | some sel =>
      match task with
      | .earlier since set =>
        match imapVanished db sel.owner sel.mailboxId since with
        | .error _ => (db, ss.fail, [])
        | .ok gone =>
          let gone := gone.filter fun uid => contains set uid.val (max sel.largestUid uid.val)
          (db, ss, if gone.isEmpty then [] else [.vanishedEarlier gone])
      | .load uids =>
        match imapEmails db sel.owner sel.mailboxId uids with
        | .error _ => (db, ss.fail, [])
        | .ok emails => (db, { ss with emails := emails }, [])
      | .markSeen =>
        let unseen := (ss.emails.filter fun e => !e.keywords.contains "$seen").map (·.uid)
        if unseen.isEmpty then (db, ss, [])
        else
          match imapStoreFlags ext sel.owner sel.mailboxId unseen (.add ["$seen"]) none db with
          | (.error _, db') => (db', ss.fail, [])
          | (.ok _, db') => (db', { ss with tasks := .reload unseen :: ss.tasks }, [])
      | .reload uids =>
        match imapEmails db sel.owner sel.mailboxId uids with
        | .error _ => (db, ss.fail, [])
        | .ok emails => (db, { ss with emails := emails ++ ss.emails }, [])
      | .answer targets changedSince =>
        let (messages, out) := Session.answers ss.emails changedSince targets sel.messages
        (db, ss.withMessages sel messages, out)
      | .flags targets change unchangedSince silent =>
        match imapStoreFlags ext sel.owner sel.mailboxId (targets.map (·.2)) change unchangedSince db with
        | (.error _, db') => (db', ss.fail, [])
        | (.ok skipped, db') => (db', { ss with
            tasks := .load (targets.map (·.2)) :: .stored targets skipped silent :: ss.tasks }, [])
      | .stored targets skipped silent =>
        let (messages, out) :=
          Session.storedAnswers ss.emails skipped silent ss.condstore targets sel.messages
        (db, ss.withMessages sel messages, out)
      | .expunge uids =>
        match imapExpunge ext sel.owner sel.mailboxId uids db with
        | (.error _, db') => (db', ss.fail, [])
        | (.ok removed, db') => (db', { ss with tasks := .report removed :: ss.tasks }, [])
      | .copy uids target removeSource uid =>
        if target.owner = sel.owner then
          match imapCopy ext sel.owner sel.mailboxId uids target.mailboxId removeSource db with
          | (.error _, db') => (db', ss.fail, [])
          | (.ok pairs, db') =>
            (db', { ss with tasks := .copied pairs target removeSource uid :: ss.tasks }, [])
        else
          match imapEmails db sel.owner sel.mailboxId uids with
          | .error _ => (db, ss.fail, [])
          | .ok emails => (db, { ss with
              tasks := .across emails target [] removeSource uid :: ss.tasks }, [])
      | .across [] target pairs removeSource uid =>
        (db, { ss with tasks := .copied pairs target removeSource uid :: ss.tasks }, [])
      | .across (email :: left) target pairs removeSource uid =>
        let request : IngestRequest := {
          accountId := target.owner
          raw := input.raw
          mailboxes := [.id target.mailboxId]
          keywords := email.keywords.filter (maySetKeyword target.rights)
          receivedAt := some email.receivedAt }
        match ingestMarked ext input.now request input.delivered db with
        | (.error _, db') => (db', ss.fail, [])
        | (.ok ingested, db') =>
          let pairs := pairs ++ [(email.uid, asU32 ingested.uid)]
          (db', { ss with tasks := .across left target pairs removeSource uid :: ss.tasks }, [])
      | .copied pairs target removeSource uid =>
        let moved := pairs.map (·.1)
        let next : List Task :=
          if !removeSource then [.check uid]
          else if target.mailboxId = sel.mailboxId then [.check true]
          -- Across accounts the copies are new emails: the originals leave the source here.
          else if target.owner = sel.owner then [.report moved, .check true]
          else [.remove moved, .check true]
        (db, { ss with tasks := next ++ ss.tasks }, [])
      | .remove moved =>
        match imapRemove ext sel.owner sel.mailboxId moved db with
        | (.error _, db') => (db', ss.fail, [])
        | (.ok _, db') => (db', { ss with tasks := .report moved :: ss.tasks }, [])
      | .report uids =>
        if uids.isEmpty then (db, ss, [])
        else
          let (positions, sel') := sel.forget uids
          (db, { ss with selected := some sel' },
            if ss.qresync then [.vanished uids] else positions.map fun index => .expunge (index + 1))
      | .check reportExpunges =>
        let pending := sel.messages.any (·.expunged)
        if imapMailboxModseq db sel.owner sel.mailboxId = some (sel.highestModseq, sel.sharingModseq) &&
            !(reportExpunges && pending) then (db, ss, [])
        else (db, { ss with tasks := .read reportExpunges :: ss.tasks }, [])
      | .read reportExpunges =>
        let rights := ss.rightsNow sel input
        match imapMessages db sel.owner sel.mailboxId with
        | .ok state =>
          if rights = some "" then (db, { ss.fail with selected := none },
            [.bye "The selected mailbox is no longer shared with you"])
          else
            let (messages, out) := Session.compare ss.qresync reportExpunges sel state
            let sel' : Selected := { sel with
              rights := rights.getD sel.rights
              messages := messages
              highestModseq := state.highestModseq
              sharingModseq := state.sharingModseq }
            (db, { ss with selected := some sel' }, out)
        | .error (.notFound _) => (db, { ss.fail with selected := none },
            [.bye "The selected mailbox was deleted"])
        | .error _ => (db, ss.fail, [])
      | .opening .. | .opened .. => (db, ss, [])

/-! ## 3. Commands and steps -/

/-- The database, the session, and everything it has sent. -/
structure System where
  db : Db
  session : Session
  sent : List Response := []

inductive Event where
  /-- Anybody else. -/
  | other (op : StoreOp)
  | enable (condstore qresync rev2 : Bool)
  | select (target : Option Target) (readOnly condstore : Bool) (qresync : Option QresyncParams)
  /-- `marksSeen` and `modseq`: whether the items read a body without PEEK, and name MODSEQ. -/
  | fetch (uid : Bool) (set : SequenceSet) (marksSeen modseq : Bool) (changedSince : Option Nat)
      (vanished : Bool)
  /-- `change` has the flags that the rights cover. -/
  | store (uid : Bool) (set : SequenceSet) (unchangedSince : Option Nat) (change : FlagChange)
      (silent : Bool)
  | expunge (uids : Option SequenceSet)
  | copy (uid : Bool) (set : SequenceSet) (target : Option Target) (removeSource : Bool)
  /-- NOOP, CHECK, the begin of IDLE and each time it wakes up; the end of SEARCH and APPEND. -/
  | refresh (reportExpunges : Bool)
  /-- The rights in somebody else's mailbox, read again before a command. -/
  | recheck (rights : Option String)
  /-- The next task. -/
  | go (input : Input)
  /-- A call of the store failed. -/
  | abort

/-- The tasks of a command on the selected mailbox. -/
def Selected.tasks (sel : Selected) : Event → List Task
  | .fetch uid set marksSeen _ changedSince vanished =>
    let targets := sel.targets set uid
    let marks := marksSeen && !sel.readOnly && hasRights sel.rights "s"
    (if vanished then (changedSince.toList.map fun since => .earlier since set) else []) ++
      [.load (targets.map (·.2))] ++ (if marks then [.markSeen] else []) ++
      [.answer targets changedSince, .check uid]
  | .store uid set unchangedSince change silent =>
    if sel.readOnly then []
    else [.flags (sel.targets set uid) change unchangedSince silent, .check false]
  | .expunge uids =>
    if sel.readOnly || !hasRights sel.rights "e" then []
    else [.expunge (uids.map fun set =>
      (sel.messages.map (·.uid)).filter fun uid => contains set uid.val sel.largestUid), .check true]
  | .copy uid set (some target) removeSource =>
    if removeSource && (sel.readOnly || !hasRights sel.rights "te") then []
    else if !hasRights target.rights "i" then []
    else [.copy ((sel.targets set uid).map (·.2)) target removeSource uid]
  | .refresh reportExpunges => [.check reportExpunges]
  | _ => []

/-- Whether a command switches CONDSTORE on. -/
def Event.asksModseq : Event → Bool
  | .fetch _ _ _ modseq changedSince _ => modseq || changedSince.isSome
  | .store _ _ unchangedSince _ _ => unchangedSince.isSome
  | _ => false

/-- One step: of another writer, of a command, or a new command once the last one is done. -/
def step (ext : Externals) (s : System) : Event → Option System
  | .other op => some { s with db := op.run ext s.db }
  | .go input =>
    match s.session.tasks with
    | [] => none
    | task :: rest =>
      let (db, ss, out) := task.run ext input s.db { s.session with tasks := rest }
      some ⟨db, ss, s.sent ++ out⟩
  | .abort => if s.session.tasks = [] then none else some { s with session := s.session.fail }
  | .enable condstore qresync rev2 =>
    if s.session.tasks = [] then some { s with session := { s.session with
      condstore := s.session.condstore || condstore || qresync
      qresync := s.session.qresync || qresync
      rev2 := s.session.rev2 || rev2 } }
    else none
  | .select target readOnly condstore qresync =>
    if s.session.tasks = [] then some { s with
      session := { s.session with
        condstore := s.session.condstore || condstore || qresync.isSome
        selected := none
        tasks := match target with
          | some target => if hasRights target.rights "r" then [.opening target readOnly qresync] else []
          | none => [] }
      sent := s.sent ++ [.closed] }
    else none
  | .recheck rights =>
    match s.session.tasks, s.session.selected with
    | [], some sel =>
      if sel.owner = s.session.me then some s
      else
        match rights.filter fun r => hasRights r "r" with
        | some rights => some { s with session := { s.session with selected := some { sel with
            rights := rights
            readOnly := sel.readOnly || !("stwe".toList.any fun c => rights.toList.contains c) } } }
        | none => some { s with
            session := { s.session with selected := none }
            sent := s.sent ++ [.bye "The selected mailbox is no longer shared with you"] }
    | _, _ => none
  | command =>
    match s.session.tasks, s.session.selected with
    | [], some sel => some { s with session := { s.session with
        condstore := s.session.condstore || command.asksModseq
        emails := []
        tasks := sel.tasks command } }
    | [], none => some s
    | _, _ => none

def System.start (me : Int) : System := ⟨{}, { me := me }, []⟩

end UwuMail.Imap
