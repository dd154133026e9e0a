/-
# COPY and MOVE that are refused

`copy` and `copy_across`: what the session asks of the store for COPY, UID COPY, MOVE and UID MOVE,
with nobody else writing in between, and how it answers.  In one account the messages are copied in
ONE transaction, so a refusal leaves everything as it was.  Into another account each message is
ingested in a transaction of its own, and a refusal of one leaves those before it where they came
in.

**When a refused command changed nothing** (`copying`): unless the account it copies into takes the
first message and not all of them.  Whether it takes them is a matter of their keywords, of their
text and of the quota (`Takes`).  The originals leave only after the last copy arrived, and that
cannot be refused.
-/
import UwuMail.Store.Removal
import UwuMail.Imap.Session

namespace UwuMail.Imap

open Store

/-! ## 1. The command -/

/-- How a command ends; `bye` ends the connection. -/
inductive Answer where
  | ok
  | no
  | bye
  deriving DecidableEq

section Command

/- What blobs hold by the email they belong to, the clock, who is logged in, and the rights
`shared_mailbox` answers for the selected mailbox. -/
variable (ext : Externals) (content : Int → Except StoreError (List UInt8)) (now me : Int)
  (rights : Option String)

/-- The message as it comes into the other account, with the flags the target allows. -/
def copyRequest (target : Target) (email : ImapEmail) (raw : List UInt8) : IngestRequest where
  accountId := target.owner
  raw := raw
  mailboxes := [.id target.mailboxId]
  keywords := email.keywords.filter (maySetKeyword target.rights)
  receivedAt := some email.receivedAt

def smtpDelivered (db : Db) (email : Int) : Bool := ((db.email email).map (·.smtpDelivered)).getD false

/-- One turn of `copy_across`. -/
def copyOneAcross (target : Target) (email : ImapEmail) : Tx StoreError Db (U32 × U32) := do
  let raw ← Tx.ofExcept (content email.emailId)
  let delivered := smtpDelivered (← get) email.emailId
  let copied ← Tx.call (ingestMarked ext now (copyRequest target email raw) delivered)
  pure (email.uid, asU32 copied.uid)

def copyAcross (sourceOwner source : Int) (uids : List U32) (target : Target) :
    Tx StoreError Db (List (U32 × U32)) := do
  let emails ← Tx.ofExcept (imapEmails (← get) sourceOwner source uids)
  emails.mapM (copyOneAcross ext content now target)

/-- The copying, in one account or into another one. -/
def copyPairs (sel : Selected) (uids : List U32) (target : Target) (removeSource : Bool) :
    Tx StoreError Db (List (U32 × U32)) :=
  if target.owner = sel.owner then
    Tx.call (imapCopy ext sel.owner sel.mailboxId uids target.mailboxId removeSource)
  else copyAcross ext content now sel.owner sel.mailboxId uids target

/-- What `refresh` reads: a mailbox that is gone or no longer shared ends the selection. -/
def refresh (sel : Selected) (reportExpunges : Bool) : Tx StoreError Db PUnit := do
  let db ← get
  if imapMailboxModseq db sel.owner sel.mailboxId = some (sel.highestModseq, sel.sharingModseq) &&
      !(reportExpunges && sel.messages.any (·.expunged)) then pure ⟨⟩
  else
    let shared := (rights.filter fun r => hasRights r "r").getD ""
    if sel.owner ≠ me ∧ shared = "" then throw (.internal "mailbox no longer shared")
    else
      let _ ← Tx.ofExcept (imapMessages db sel.owner sel.mailboxId)
      pure ⟨⟩

/-- What is left when the copies are there. -/
def copied (sel : Selected) (uid : Bool) (target : Target) (removeSource : Bool) (pairs : List (U32 × U32)) :
    Tx StoreError Db Answer :=
  let moved := pairs.map (·.1)
  if !removeSource then do
    refresh me rights sel uid
    pure .ok
  else if target.mailboxId = sel.mailboxId then do
    refresh me rights sel true
    pure .ok
  else if target.owner = sel.owner then do
    refresh me rights (sel.forget moved).2 true
    pure .ok
  else do
    -- Across accounts the copies are new emails: the originals leave the source here.
    let _ ← Tx.call (imapRemove ext sel.owner sel.mailboxId moved)
    refresh me rights (sel.forget moved).2 true
    pure .ok

/-- `copy`, with the mailbox its path names. -/
def copy (sel : Selected) (uid : Bool) (set : SequenceSet) (target : Option Target) (removeSource : Bool) :
    Tx StoreError Db Answer :=
  if removeSource && sel.readOnly then pure .no
  -- Moving out deletes and expunges in the source.
  else if removeSource && !hasRights sel.rights "te" then pure .no
  else
    match target with
    | none => pure .no
    | some target =>
      if !hasRights target.rights "i" then pure .no
      else do
        let pairs ← copyPairs ext content now sel ((sel.targets set uid).map (·.2)) target removeSource
        copied ext me rights sel uid target removeSource pairs

/-- `recheck_rights`: the rights in somebody else's mailbox count as they are now. -/
def recheckRights (sel : Selected) : Option Selected :=
  if sel.owner = me then some sel
  else (rights.filter fun r => hasRights r "r").map fun rights =>
    { sel with
      rights := rights
      readOnly := sel.readOnly || !("stwe".toList.any fun c => rights.toList.contains c) }

/-- COPY, UID COPY, MOVE or UID MOVE.  An error of the store is answered with NO. -/
def copyCommand (sel : Selected) (uid : Bool) (set : SequenceSet) (target : Option Target)
    (removeSource : Bool)
    (db : Db) : Answer × Db :=
  match recheckRights me rights sel with
  | none => (.bye, db)
  | some sel =>
    match (copy ext content now me rights sel uid set target removeSource).exec db with
    | (.ok answer, db') => (answer, db')
    | (.error _, db') => (.no, db')

end Command

/-! ## 2. One message -/

section Message

variable {ext : Externals} {db db' : Db} {request : IngestRequest} {smtp : Bool} {now b : Int}

/-- What `ingest_marked` asks of a message before it looks for the mailboxes. -/
structure Accepts (ext : Externals) (db : Db) (request : IngestRequest) : Prop where
  keywords : ∀ k ∈ request.keywords, validKeyword (ext.toLowercase k) = true
  room : ∃ account, db.account request.accountId = some account ∧
    (account.quotaBytes = 0 ∨ account.usedBytes + request.raw.length ≤ account.quotaBytes)
  text : ∃ info, ext.read request.raw = .ok info

theorem ingestPrepare_ok {p : Incoming} (h : ingestPrepare ext now request smtp db = .ok p) :
    Accepts ext db request ∧ p.size = request.raw.length ∧ p.accountId = request.accountId := by
  unfold ingestPrepare at h
  dsimp only at h
  split at h
  · cases h
  · rename_i hbad
    have hnone := List.find?_eq_none.1 (Option.eq_none_iff_forall_ne_some.2 fun x => hbad x)
    split at h
    · rename_i account hacc
      split at h
      · rename_i hroom
        split at h
        · cases h
        · rename_i info htext
          cases h
          refine ⟨⟨fun k hk => ?_, ⟨account, hacc, hroom⟩, ⟨info, htext⟩⟩, rfl, rfl⟩
          simpa using hnone _ (List.mem_map_of_mem hk)
      · cases h
    · cases h

theorem Accepts.prepared (h : Accepts ext db request) :
    ∃ p, ingestPrepare ext now request smtp db = .ok p ∧ p.size = request.raw.length ∧
      p.accountId = request.accountId ∧ p.mailboxes = request.mailboxes := by
  obtain ⟨account, hacc, hroom⟩ := h.room
  obtain ⟨info, htext⟩ := h.text
  have hnone : (request.keywords.map ext.toLowercase).find? (fun k => !validKeyword k) = none := by
    refine List.find?_eq_none.2 fun k hk => ?_
    obtain ⟨k', hk', rfl⟩ := List.mem_map.1 hk
    simp [h.keywords k' hk']
  unfold ingestPrepare
  simp only [hnone, hacc, htext, hroom, if_true]
  exact ⟨_, rfl, rfl, rfl, rfl⟩

theorem resolveMailboxes_one (h : db.Has request.accountId b) :
    resolveMailboxes db request.accountId [.id b] = .ok [b] := by
  obtain ⟨r, hr, hrb, hra⟩ := h
  have hone : resolveMailbox db request.accountId (.id b) = .ok b := by
    unfold resolveMailbox
    split
    · rename_i q hq
      have hfor := List.find?_some hq
      simp only [MailboxTarget.isFor, Bool.and_eq_true, beq_iff_eq] at hfor
      rw [hfor.2]
    · rename_i hnone
      have := List.find?_eq_none.1 hnone r hr
      simp [MailboxTarget.isFor, hrb, hra] at this
  unfold resolveMailboxes
  rw [List.mapM_cons, hone, List.mapM_nil]
  rfl

theorem has_of_resolveMailboxes {ids : List Int}
    (h : resolveMailboxes db request.accountId [.id b] = .ok ids) :
        db.Has request.accountId b ∧ ids = [b] := by
  have hhas : db.Has request.accountId b := by
    unfold resolveMailboxes at h
    obtain ⟨found, hfound, -⟩ := Tx.except_bind_ok h
    cases Tx.except_mapM_ok hfound with
    | cons hone hrest =>
      unfold resolveMailbox at hone
      split at hone
      · rename_i r hr
        have hfor := List.find?_some hr
        simp only [MailboxTarget.isFor, Bool.and_eq_true, beq_iff_eq] at hfor
        exact ⟨r, List.mem_of_find?_eq_some hr, hfor.2, hfor.1⟩
      · cases hone
  rw [resolveMailboxes_one hhas] at h
  cases h
  exact ⟨hhas, rfl⟩

/-- A message that is accepted comes in. -/
theorem Accepts.ingested (h : Accepts ext db request) (hmailboxes : request.mailboxes = [.id b])
    (hhas : db.Has request.accountId b) : ∃ r db', ingestMarked ext now request smtp db = (.ok r, db') := by
  obtain ⟨p, hprep, hsize, hacc, hto⟩ := @Accepts.prepared _ _ _ smtp now h
  obtain ⟨account, haccount, hroom⟩ := h.room
  unfold ingestMarked
  rw [hprep]
  dsimp only
  unfold write Tx.atomically ingestWrite
  rw [Tx.exec_bind, Tx.exec_get]
  dsimp only
  rw [hacc, haccount, hto, hmailboxes, hsize]
  dsimp only
  have hfits : ¬ (account.quotaBytes > 0 ∧ account.usedBytes + (request.raw.length : Int) > account.quotaBytes) := by
    omega
  rw [if_neg hfits, Tx.exec_bind, Tx.exec_get]
  dsimp only
  rw [Tx.exec_bind, Tx.exec_ofExcept, resolveMailboxes_one hhas]
  dsimp only
  have hmodseq : (nextModseq request.accountId).exec { db, batch := { accountId := request.accountId } } =
      (.ok (account.modseq + 1), ⟨db.bumpModseq request.accountId, { accountId := request.accountId }⟩) := by
    unfold nextModseq
    rw [Tx.exec_bind, Tx.exec_get]
    simp only [Db.modseqOf, haccount, Option.map_some]
    rfl
  rw [Tx.exec_bind, hmodseq]
  exact ⟨_, _, rfl⟩

/-- An account is found again after its own columns were rewritten. -/
theorem account_updateWhere {f : AccountRow → AccountRow} (hf : ∀ r, (f r).id = r.id) {t : List AccountRow}
    {a : Int} : ((Table.updateWhere (fun r => r.id == a) f t).find? fun r => r.id == a) =
      (t.find? fun r => r.id == a).map f := by
  have hid : ((fun r : AccountRow => r.id == a) ∘ fun r => if (r.id == a) = true then f r else r) =
      fun r => r.id == a := by
    funext r
    rw [Function.comp_apply]
    split
    · rw [hf]
    · rfl
  rw [Table.updateWhere, List.find?_map, hid]
  cases hfind : t.find? fun r => r.id == a with
  | none => rfl
  | some r =>
    have hr : (r.id == a) = true := by simpa using List.find?_some hfind
    rw [Option.map_some, Option.map_some, if_pos hr]

/-- What a message that came in left. -/
structure Came (db : Db) (account size mailbox : Int) (db' : Db) : Prop where
  intact : Intact db'
  lawful : Lawful db'
  members : ∃ uid modseq, db'.emailMailboxes = db.emailMailboxes ++ [⟨db.emailSeq + 1, mailbox, uid, modseq⟩]
  room : ∀ row, db.account account = some row → ∃ row', db'.account account = some row' ∧
    row'.quotaBytes = row.quotaBytes ∧ row'.usedBytes = row.usedBytes + size
  has : ∀ o b, db'.Has o b ↔ db.Has o b

theorem ingestMarked_came (hi : Intact db) (hl : Lawful db) (hmailboxes : request.mailboxes = [.id b])
    {r : IngestedEmail} (h : ingestMarked ext now request smtp db = (.ok r, db')) :
    Accepts ext db request ∧ db.Has request.accountId b ∧
        Came db request.accountId request.raw.length b db' := by
  rcases ingestMarked_cases ext hi.keyed now request smtp with ⟨e, h'⟩ | ⟨r', db₁, m, p, ids, h',
    hprep, -, hids, heff⟩
  · rw [h'] at h
    cases h
  rw [h'] at h
  cases h
  obtain ⟨haccepts, hsize, hacc⟩ := ingestPrepare_ok hprep
  rw [hmailboxes] at hids
  obtain ⟨hhas, rfl⟩ := has_of_resolveMailboxes hids
  refine ⟨haccepts, hhas, heff.intact hi, ?_, ?_, ?_, ?_⟩
  · refine heff.lawful hi (fun q ids hmem => ?_) hl
    cases List.mem_singleton.1 hmem
    exact ingestPrepare_keywords hprep
  all_goals
    obtain ⟨rfl, hfit⟩ := heff.single_inv
    obtain ⟨hs, -⟩ := hi.start heff.modseq none
    rw [Event.apply, Db.storeEmail_eq hfit.2.nodup hfit.2.mailboxes hs.linked.newEmail]
  · exact ⟨_, _, rfl⟩
  · intro row hrow
    have hbumped : (db.bumpModseq request.accountId).account request.accountId =
        some { row with modseq := row.modseq + 1 } := by
      have := account_updateWhere (t := db.accounts) (a := request.accountId)
        (f := fun r => { r with modseq := r.modseq + 1 }) fun _ => rfl
      exact this.trans (congrArg _ hrow)
    refine ⟨{ row with modseq := row.modseq + 1, usedBytes := row.usedBytes + request.raw.length },
      ?_, rfl, rfl⟩
    rw [hacc, hsize]
    have := account_updateWhere (t := (db.bumpModseq request.accountId).accounts) (a := request.accountId)
      (f := fun r => { r with usedBytes := r.usedBytes + (request.raw.length : Int) }) fun _ => rfl
    exact this.trans (congrArg _ hbumped)
  · intro o b'
    constructor
    · rintro ⟨q, hq, hqb, hqo⟩
      obtain ⟨q', hq', rfl⟩ := List.mem_map.1 hq
      exact ⟨q', hq', (enterRow_id _ _ _).symm.trans hqb, (enterRow_accountId _ _ _).symm.trans hqo⟩
    · rintro ⟨q, hq, hqb, hqo⟩
      exact ⟨_, List.mem_map_of_mem hq, (enterRow_id _ _ _).trans hqb, (enterRow_accountId _ _ _).trans hqo⟩

end Message

/-! ## 3. All messages -/

section Messages

variable {ext : Externals} {content : Int → Except StoreError (List UInt8)} {now : Int}
  {target : Target} {db db' : Db} {email : ImapEmail} {left emails : List ImapEmail}

/-- What a message takes of the quota. -/
def messageSize (content : Int → Except StoreError (List UInt8)) (email : ImapEmail) : Int :=
  match content email.emailId with
  | .ok raw => raw.length
  | .error _ => 0

/-- The message can be read, and the flags it comes with may be stored. -/
def Proper (ext : Externals) (content : Int → Except StoreError (List UInt8)) (target : Target)
    (email : ImapEmail) : Prop :=
  (∃ raw info, content email.emailId = .ok raw ∧ ext.read raw = .ok info) ∧
    ∀ k ∈ email.keywords, maySetKeyword target.rights k = true → validKeyword (ext.toLowercase k) = true

/-- The mailbox is one of the account, whose quota covers so many bytes more. -/
def Room (db : Db) (target : Target) (size : Int) : Prop :=
  db.Has target.owner target.mailboxId ∧ ∃ account, db.account target.owner = some account ∧
    (account.quotaBytes = 0 ∨ account.usedBytes + size ≤ account.quotaBytes)

/-- The other account takes the messages. -/
def Takes (ext : Externals) (content : Int → Except StoreError (List UInt8)) (db : Db) (target : Target)
    (emails : List ImapEmail) : Prop :=
  ∀ email ∈ emails, Proper ext content target email ∧ Room db target (emails.map (messageSize content)).sum

theorem messageSize_nonneg (email : ImapEmail) : 0 ≤ messageSize content email := by
  unfold messageSize
  split <;> omega

theorem sum_messageSize_nonneg (emails : List ImapEmail) : 0 ≤ (emails.map (messageSize content)).sum := by
  refine List.sum_nonneg fun n hn => ?_
  obtain ⟨email, -, rfl⟩ := List.mem_map.1 hn
  exact messageSize_nonneg email

theorem Takes.first (h : Takes ext content db target (email :: left)) :
    Takes ext content db target [email] := by
  intro e he
  obtain rfl := List.mem_singleton.1 he
  obtain ⟨hproper, hhas, account, hacc, hroom⟩ := h e List.mem_cons_self
  refine ⟨hproper, hhas, account, hacc, ?_⟩
  have := @sum_messageSize_nonneg content left
  rw [List.map_cons, List.sum_cons] at hroom
  rw [List.map_singleton, List.sum_singleton]
  omega

/-- Once the first message came in, the others have to fit in what is left. -/
theorem takes_cons (h : Takes ext content db target [email])
    (hcame : Came db target.owner (messageSize content email) target.mailboxId db') :
    Takes ext content db target (email :: left) ↔ Takes ext content db' target left := by
  obtain ⟨hproper, hhas, account, hacc, hroom⟩ := h email (List.mem_singleton_self _)
  obtain ⟨account', hacc', hquota, hused⟩ := hcame.room account hacc
  rw [List.map_singleton, List.sum_singleton] at hroom
  constructor
  · intro htakes e he
    obtain ⟨hproper', -, found, hfound, hroom'⟩ := htakes e (List.mem_cons_of_mem _ he)
    rw [hacc] at hfound
    cases hfound
    refine ⟨hproper', (hcame.has _ _).2 hhas, account', hacc', ?_⟩
    rw [List.map_cons, List.sum_cons] at hroom'
    omega
  · intro htakes
    have hall : Room db target ((email :: left).map (messageSize content)).sum := by
      refine ⟨hhas, account, hacc, ?_⟩
      rw [List.map_cons, List.sum_cons]
      cases left with
      | nil =>
        rw [List.map_nil, List.sum_nil]
        omega
      | cons e left =>
        obtain ⟨-, -, found, hfound, hroom'⟩ := htakes e List.mem_cons_self
        rw [hacc'] at hfound
        cases hfound
        omega
    intro e he
    rcases List.mem_cons.1 he with rfl | he
    · exact ⟨hproper, hall⟩
    · exact ⟨(htakes e he).1, hall⟩

/-- **One turn** of the loop comes in, or is refused and writes nothing. -/
theorem copyOneAcross_ends (hi : Intact db) (hl : Lawful db) :
    Tx.Ends (copyOneAcross ext content now target email) db
      (fun _ db' => Takes ext content db target [email] ∧
        Came db target.owner (messageSize content email) target.mailboxId db')
      (fun db' => db' = db ∧ ¬ Takes ext content db target [email]) := by
  unfold Tx.Ends copyOneAcross
  rw [Tx.exec_bind, Tx.exec_ofExcept]
  cases hcontent : content email.emailId with
  | error e =>
    refine ⟨rfl, fun htakes => ?_⟩
    obtain ⟨⟨⟨raw, info, hraw, -⟩, -⟩, -⟩ := htakes email (List.mem_singleton_self _)
    rw [hcontent] at hraw
    cases hraw
  | ok raw =>
    have hsize : messageSize content email = raw.length := by
      unfold messageSize
      rw [hcontent]
    have htakes : Takes ext content db target [email] ↔
        Accepts ext db (copyRequest target email raw) ∧ db.Has target.owner target.mailboxId := by
      constructor
      · intro htakes
        obtain ⟨⟨⟨raw', info, hraw, hread⟩, hkeywords⟩, hhas, account, hacc, hroom⟩ :=
          htakes email (List.mem_singleton_self _)
        rw [hcontent] at hraw
        cases hraw
        rw [List.map_singleton, List.sum_singleton, hsize] at hroom
        refine ⟨⟨fun k hk => ?_, ⟨account, hacc, hroom⟩, ⟨info, hread⟩⟩, hhas⟩
        obtain ⟨hk, hmay⟩ := List.mem_filter.1 hk
        exact hkeywords k hk hmay
      · rintro ⟨⟨hkeywords, ⟨account, hacc, hroom⟩, info, hread⟩, hhas⟩ e he
        obtain rfl := List.mem_singleton.1 he
        refine ⟨⟨⟨raw, info, hcontent, hread⟩,
          fun k hk hmay => hkeywords k (List.mem_filter.2 ⟨hk, hmay⟩)⟩, hhas,
          account, hacc, ?_⟩
        rw [List.map_singleton, List.sum_singleton, hsize]
        exact hroom
    dsimp only
    rw [Tx.exec_bind, Tx.exec_get]
    dsimp only
    rw [Tx.exec_bind, Tx.exec_call]
    rcases ingestMarked_cases ext hi.keyed now (copyRequest target email raw)
      (smtpDelivered db email.emailId) with
      ⟨e, h⟩ | ⟨r, db', -, -, -, h, -⟩
    · rw [h]
      refine ⟨rfl, fun ht => ?_⟩
      obtain ⟨haccepts, hhas⟩ := htakes.1 ht
      obtain ⟨r, db', hok⟩ := @Accepts.ingested _ _ _ (smtpDelivered db email.emailId) now _ haccepts rfl hhas
      rw [h] at hok
      cases hok
    · rw [h]
      obtain ⟨haccepts, hhas, hcame⟩ := ingestMarked_came hi hl rfl h
      refine ⟨htakes.2 ⟨haccepts, hhas⟩, ?_⟩
      rw [hsize]
      exact hcame

/-- What the messages that came in left: whatever was in a mailbox is still there. -/
structure Grew (db db' : Db) : Prop where
  intact : Intact db'
  lawful : Lawful db'
  members : ∃ new, db'.emailMailboxes = db.emailMailboxes ++ new
  has : ∀ o b, db'.Has o b ↔ db.Has o b

theorem Came.grew {account size mailbox : Int} (h : Came db account size mailbox db') : Grew db db' := by
  obtain ⟨uid, modseq, hmembers⟩ := h.members
  exact ⟨h.intact, h.lawful, ⟨_, hmembers⟩, h.has⟩

theorem Grew.trans {db'' : Db} (h : Grew db db') (h' : Grew db' db'') : Grew db db'' := by
  obtain ⟨new, hnew⟩ := h.members
  obtain ⟨new', hnew'⟩ := h'.members
  exact ⟨h'.intact, h'.lawful, ⟨new ++ new', by rw [hnew', hnew, List.append_assoc]⟩,
    fun o b => (h'.has o b).trans (h.has o b)⟩

theorem Grew.holds (h : Grew db db') {e b u : Int} (hold : db.Holds e b u) : db'.Holds e b u := by
  obtain ⟨r, hr, hkey⟩ := hold
  obtain ⟨new, hnew⟩ := h.members
  exact ⟨r, hnew ▸ List.mem_append_left _ hr, hkey⟩

/-- **The loop** ends well exactly where all messages are taken. -/
theorem across_ends (hi : Intact db) (hl : Lawful db) :
    Tx.Ends (emails.mapM (copyOneAcross ext content now target)) db
      (fun _ db' => Takes ext content db target emails ∧ Grew db db')
      (fun db' => ¬ Takes ext content db target emails ∧ Grew db db') := by
  have hself : ∀ {db : Db}, Intact db → Lawful db → Grew db db := fun hi hl =>
    ⟨hi, hl, ⟨[], by simp⟩, fun _ _ => Iff.rfl⟩
  induction emails generalizing db with
  | nil =>
    rw [List.mapM_nil]
    exact .pure ⟨by intro e he; simp at he, hself hi hl⟩
  | cons email left ih =>
    rw [List.mapM_cons]
    refine ((copyOneAcross_ends hi hl).mono (fun _ _ h => h) fun db' h => ?_).bind fun pair db₁ h => ?_
    · obtain ⟨rfl, hno⟩ := h
      exact ⟨fun htakes => hno htakes.first, hself hi hl⟩
    · obtain ⟨htakes, hcame⟩ := h
      have hrest := ih hcame.intact hcame.lawful
      refine (hrest.mono (fun _ _ h => h) fun db' h => ?_).bind fun pairs db' h => .pure ?_
      · exact ⟨fun hall => h.1 ((takes_cons htakes hcame).1 hall), hcame.grew.trans h.2⟩
      · exact ⟨(takes_cons htakes hcame).2 h.1, hcame.grew.trans h.2⟩

/-- Where it ends in an error the first message decides what is left of it. -/
theorem across_refused (hi : Intact db) (hl : Lawful db) :
    Tx.Ends ((email :: left).mapM (copyOneAcross ext content now target)) db (fun _ _ => True) fun db' =>
      (¬ Takes ext content db target [email] ∧ db' = db) ∨
        Takes ext content db target [email] ∧ ∃ uid, db'.Holds (db.emailSeq + 1) target.mailboxId uid := by
  rw [List.mapM_cons]
  refine ((copyOneAcross_ends hi hl).mono (fun _ _ h => h) fun db' h => .inl h.symm).bind fun pair db₁ h => ?_
  obtain ⟨htakes, hcame⟩ := h
  obtain ⟨uid, modseq, hmembers⟩ := hcame.members
  have hheld : db₁.Holds (db.emailSeq + 1) target.mailboxId uid :=
    ⟨_, hmembers ▸ List.mem_append_right _ (List.mem_singleton_self _), rfl, rfl, rfl⟩
  refine ((across_ends hcame.intact hcame.lawful).mono (fun _ _ h => h) fun db' h => ?_).bind fun _ _ _ => .pure trivial
  exact .inr ⟨htakes, uid, h.2.holds hheld⟩

end Messages

/-! ## 4. The whole command -/

section Command

variable {ext : Externals} {content : Int → Except StoreError (List UInt8)} {now me : Int}
  {rights : Option String} {db db' : Db} {sel : Selected} {target : Target}
  {removeSource uid : Bool} {uids : List U32} {pairs : List (U32 × U32)}

/-- The session may read the mailbox it has selected. -/
def Readable (me : Int) (rights : Option String) (sel : Selected) : Prop :=
  sel.owner ≠ me → (rights.filter fun r => hasRights r "r").getD "" ≠ ""

theorem readable_of_recheckRights {sel' : Selected} (h : recheckRights me rights sel = some sel') :
    Readable me rights sel' ∧ sel'.owner = sel.owner ∧ sel'.mailboxId = sel.mailboxId := by
  unfold recheckRights at h
  split at h
  · rename_i hown
    cases h
    exact ⟨fun hother => absurd hown hother, rfl, rfl⟩
  · obtain ⟨r, hr, rfl⟩ := Option.map_eq_some_iff.1 h
    refine ⟨fun _ hempty => ?_, rfl, rfl⟩
    rw [hr, Option.getD_some] at hempty
    subst hempty
    have := (Option.filter_eq_some_iff.1 hr).2
    exact absurd this (by decide)

/-- A mailbox that is there can be read. -/
theorem imapMessages_ok (hi : Intact db) {a b : Int} (hhas : db.Has a b) :
    ∃ state, imapMessages db a b = .ok state := by
  obtain ⟨r, hr, hrb, hra⟩ := hhas
  unfold imapMessages ownMailbox mailboxModseq
  cases hown : db.mailboxes.find? fun r => r.id == b && r.accountId == a with
  | none =>
    have := List.find?_eq_none.1 hown r hr
    simp [hrb, hra] at this
  | some own =>
    cases hrow : db.mailbox b with
    | none =>
      have := List.find?_eq_none.1 hrow r hr
      simp [hrb] at this
    | some row =>
      cases hacc : db.account a with
      | none =>
        obtain ⟨x, hx, hxa⟩ := hi.linked.mailboxAccount r hr
        have := List.find?_eq_none.1 hacc x hx
        simp [hxa, hra] at this
      | some account => exact ⟨_, rfl⟩

theorem refresh_ends {reportExpunges : Bool} (hi : Intact db) (hhas : db.Has sel.owner sel.mailboxId)
    (hread : Readable me rights sel) :
    Tx.Ends (refresh me rights sel reportExpunges) db (fun _ _ => True) fun _ => False := by
  obtain ⟨state, hstate⟩ := imapMessages_ok hi hhas
  unfold refresh
  refine Tx.Ends.get_bind ?_
  split
  · trivial
  · have hshared : ¬ (sel.owner ≠ me ∧ (rights.filter fun r => hasRights r "r").getD "" = "") :=
      fun h => hread h.1 h.2
    rw [if_neg hshared, hstate]
    trivial

/-- Nothing that is left to do once the copies are there is refused. -/
theorem copied_ends (hi : Intact db) (hl : Lawful db) (hhas : db.Has sel.owner sel.mailboxId)
    (hread : Readable me rights sel) :
    Tx.Ends (copied ext me rights sel uid target removeSource pairs) db
        (fun a _ => a = .ok) fun _ => False := by
  have hrefresh : ∀ {sel' : Selected} {db : Db} {reportExpunges : Bool}, Intact db →
    db.Has sel'.owner sel'.mailboxId →
      Readable me rights sel' →
      Tx.Ends (do refresh me rights sel' reportExpunges; pure Answer.ok) db
          (fun a _ => a = .ok) fun _ => False :=
    fun hi hhas hread => (refresh_ends hi hhas hread).bind fun _ _ _ => .pure rfl
  unfold copied
  split
  · exact hrefresh hi hhas hread
  · split
    · exact hrefresh hi hhas hread
    · split
      · exact hrefresh hi hhas hread
      · obtain ⟨removed, db', hremove⟩ := @imapTakeOut_ok ext _ _ _ hi hl hhas (some (pairs.map (·.1))) false
        have hcall : Tx.Ends (Tx.call (imapRemove ext sel.owner sel.mailboxId (pairs.map (·.1)))) db
            (fun _ s => s = db') fun _ => False := by
          unfold Tx.Ends
          rw [Tx.exec_call, imapRemove, hremove]
        refine hcall.bind fun _ s hs => ?_
        rw [hs]
        have hout := (StoreOp.imapRemove sel.owner sel.mailboxId (pairs.map (·.1))).outcome hi ext
        have hdb : (StoreOp.imapRemove sel.owner sel.mailboxId (pairs.map (·.1))).run ext db = db' := by
          change (imapTakeOut ext _ _ _ _ db).2 = db'
          rw [hremove]
        rw [hdb] at hout
        exact hrefresh (hout.intact hi) (hout.has hi (fun _ _ _ h => h.1) hhas) hread

/-- The other account takes the first message and not all of them. -/
def Stops (ext : Externals) (content : Int → Except StoreError (List UInt8)) (db : Db) (sel : Selected)
    (uids : List U32) (target : Target) : Prop :=
  target.owner ≠ sel.owner ∧ ∃ email left, imapEmails db sel.owner sel.mailboxId uids = .ok (email :: left) ∧
    Takes ext content db target [email] ∧ ¬ Takes ext content db target (email :: left)

theorem has_of_ownMailbox {a b : Int} {own : ImapMailbox} (h : ownMailbox db a b = .ok own) : db.Has a b := by
  unfold ownMailbox at h
  split at h
  · rename_i r hr
    have hkey : r.id = b ∧ r.accountId = a := by simpa using List.find?_some hr
    exact ⟨r, List.mem_of_find?_eq_some hr, hkey⟩
  · cases h

/-- The copying: it ends well with the source still there, or it is refused. -/
theorem copyPairs_ends (hi : Intact db) (hl : Lawful db) :
    Tx.Ends (copyPairs ext content now sel uids target removeSource) db
      (fun _ db' => Intact db' ∧ Lawful db' ∧ db'.Has sel.owner sel.mailboxId ∧
        ¬ Stops ext content db sel uids target)
      (fun db' => (¬ Stops ext content db sel uids target ∧ db' = db) ∨
        Stops ext content db sel uids target ∧ ∃ uid, db'.Holds (db.emailSeq + 1) target.mailboxId uid) := by
  unfold copyPairs
  split
  · rename_i hown
    have hno : ¬ Stops ext content db sel uids target := fun h => h.1 hown
    unfold Tx.Ends
    rw [Tx.exec_call]
    have hout := (StoreOp.imapCopy sel.owner sel.mailboxId uids target.mailboxId removeSource).outcome hi ext
    change Outcome ext _ db (imapCopy ext sel.owner sel.mailboxId uids target.mailboxId removeSource db).2 at hout
    rcases write_cases sel.owner _ db with ⟨e, h⟩ | ⟨v, tx, hx, h⟩
    · rw [imapCopy, h]
      exact .inl ⟨hno, rfl⟩
    · rw [imapCopy, h] at hout ⊢
      obtain ⟨tx₀, s₀, hget, hx⟩ := Tx.exec_bind_ok hx
      cases hget
      obtain ⟨own, s₁, hown, -⟩ := Tx.exec_bind_ok hx
      have hhas := has_of_ownMailbox (Prod.mk.inj hown).1
      exact ⟨hout.intact hi, hout.lawful hi hl, hout.has hi (fun _ _ _ h => h.1) hhas, hno⟩
  · rename_i hother
    unfold copyAcross
    refine Tx.Ends.get_bind ?_
    unfold Tx.Ends
    rw [Tx.exec_bind, Tx.exec_ofExcept]
    cases hemails : imapEmails db sel.owner sel.mailboxId uids with
    | error e =>
      refine .inl ⟨?_, rfl⟩
      rintro ⟨-, email, left, h, -⟩
      rw [hemails] at h
      cases h
    | ok emails =>
      dsimp only
      have hhas : db.Has sel.owner sel.mailboxId := by
        obtain ⟨own, hown, -⟩ := Tx.except_bind_ok hemails
        exact has_of_ownMailbox hown
      have hends := @across_ends ext content now target _ emails hi hl
      unfold Tx.Ends at hends
      cases emails with
      | nil =>
        rw [List.mapM_nil]
        refine ⟨hi, hl, hhas, ?_⟩
        rintro ⟨-, email, left, h, -⟩
        rw [hemails] at h
        cases h
      | cons email left =>
        have hstops : Stops ext content db sel uids target ↔
            Takes ext content db target [email] ∧ ¬ Takes ext content db target (email :: left) := by
          constructor
          · rintro ⟨-, email', left', h, htakes⟩
            rw [hemails] at h
            cases h
            exact htakes
          · exact fun h => ⟨hother, email, left, hemails, h⟩
        have hrefused := @across_refused ext content now target _ email left hi hl
        unfold Tx.Ends at hrefused
        rcases hexec : ((email :: left).mapM (copyOneAcross ext content now target)).exec db with ⟨r, db'⟩
        rw [hexec] at hends hrefused
        cases r with
        | ok pairs =>
          obtain ⟨htakes, hgrew⟩ := hends
          exact ⟨hgrew.intact, hgrew.lawful, (hgrew.has _ _).2 hhas, fun h => (hstops.1 h).2 htakes⟩
        | error e =>
          rcases hrefused with ⟨hno, rfl⟩ | ⟨hfirst, hheld⟩
          · exact .inl ⟨fun h => hno (hstops.1 h).1, rfl⟩
          · exact .inr ⟨hstops.2 ⟨hfirst, hends.1⟩, hheld⟩

/-- Nothing before the copying refuses the command. -/
def Permitted (sel : Selected) (target : Target) (removeSource : Bool) : Prop :=
  (removeSource = true → sel.readOnly = false ∧ hasRights sel.rights "te" = true) ∧
    hasRights target.rights "i" = true

/-- The mailbox holds the same emails under the same UIDs. -/
def Stays (db db' : Db) (b : Int) : Prop := ∀ e u, db'.Holds e b u ↔ db.Holds e b u

/-- The command gets to a copying that stops halfway. -/
def Halts (ext : Externals) (content : Int → Except StoreError (List UInt8)) (db : Db)
    (sel : Selected) (uid : Bool)
    (set : SequenceSet) (removeSource : Bool) (target : Target) : Prop :=
  Permitted sel target removeSource ∧ Stops ext content db sel ((sel.targets set uid).map (·.2)) target

/-- What the command leaves where it is refused: the store as it was, or the first copy in the
target. -/
theorem copy_ends {set : SequenceSet} {target : Option Target} (hi : Intact db) (hl : Lawful db)
    (hread : Readable me rights sel) :
    Tx.Ends (copy ext content now me rights sel uid set target removeSource) db
      (fun answer db' => (∀ t, target = some t → ¬ Halts ext content db sel uid set removeSource t) ∧
        (answer = .no → db' = db))
      (fun db' => ((∀ t, target = some t → ¬ Halts ext content db sel uid set removeSource t) ∧ db' = db) ∨
        ∃ t, target = some t ∧ Halts ext content db sel uid set removeSource t ∧
          ∃ uid, db'.Holds (db.emailSeq + 1) t.mailboxId uid) := by
  unfold copy
  split
  · rename_i hrefused
    rw [Bool.and_eq_true] at hrefused
    refine .pure ⟨fun t _ h => ?_, fun _ => rfl⟩
    have := (h.1.1 hrefused.1).1
    rw [hrefused.2] at this
    cases this
  · rename_i hwritable
    split
    · rename_i hrefused
      rw [Bool.and_eq_true, Bool.not_eq_true'] at hrefused
      refine .pure ⟨fun t _ h => ?_, fun _ => rfl⟩
      have := (h.1.1 hrefused.1).2
      rw [hrefused.2] at this
      cases this
    · rename_i hmay
      cases target with
      | none => exact .pure ⟨fun t h => (by cases h), fun _ => rfl⟩
      | some t =>
        dsimp only
        split
        · rename_i hrefused
          rw [Bool.not_eq_true'] at hrefused
          refine .pure ⟨fun t' ht h => ?_, fun _ => rfl⟩
          cases ht
          have := h.1.2
          rw [hrefused] at this
          cases this
        · rename_i hinsert
          have hpermitted : Permitted sel t removeSource := by
            refine ⟨?_, by simpa using hinsert⟩
            rintro rfl
            constructor
            · simpa using hwritable
            · simpa using hmay
          have hhalts : ∀ t', some t = some t' → (Halts ext content db sel uid set removeSource t' ↔
              Stops ext content db sel ((sel.targets set uid).map (·.2)) t) := by
            rintro _ ⟨⟩
            exact ⟨And.right, fun h => ⟨hpermitted, h⟩⟩
          refine ((copyPairs_ends hi hl).mono (fun _ _ h => h) fun db' h => ?_).bind fun pairs db' h => ?_
          · rcases h with ⟨hno, rfl⟩ | ⟨hstops, hheld⟩
            · exact .inl ⟨fun t' ht h => hno ((hhalts t' ht).1 h), rfl⟩
            · exact .inr ⟨t, rfl, ⟨hpermitted, hstops⟩, hheld⟩
          · obtain ⟨hi', hl', hhas, hno⟩ := h
            refine (copied_ends hi' hl' hhas hread).mono (fun answer _ hok => ?_) fun _ h => h.elim
            refine ⟨fun t' ht h => hno ((hhalts t' ht).1 h), fun hanswer => ?_⟩
            rw [hok] at hanswer
            cases hanswer

theorem copyCommand_eq {set : SequenceSet} {target : Option Target} {sel' : Selected}
    {r : Except StoreError Answer}
    (hrecheck : recheckRights me rights sel = some sel')
    (hexec : (copy ext content now me rights sel' uid set target removeSource).exec db = (r, db')) :
    copyCommand ext content now me rights sel uid set target removeSource db = (r.toOption.getD .no,
        db') := by
  unfold copyCommand
  rw [hrecheck]
  dsimp only
  rw [hexec]
  cases r <;> rfl

/-- **When a refused COPY or MOVE changed nothing.**  Unless the command gets to copy into another
account that takes the first message and not all of them, NO means that target and source hold what
they held. -/
theorem copying (ext : Externals) (content : Int → Except StoreError (List UInt8))
    (ops : List StoreOp) (now me : Int)
    (rights : Option String) (sel : Selected) (uid : Bool) (set : SequenceSet) (target : Option Target)
    (removeSource : Bool) :
    let db := runOps ext ops {}
    let done := copyCommand ext content now me rights sel uid set target removeSource db
    (done.1 = .no → ∀ b, (b = sel.mailboxId ∨ ∃ t, target = some t ∧ b = t.mailboxId) → Stays db done.2 b) ↔
      ∀ sel' t, recheckRights me rights sel = some sel' → target = some t →
        ¬ Halts ext content db sel' uid set removeSource t := by
  intro db done
  have hi : Intact db := intact_runOps ops
  have hl : Lawful db := lawful_runOps ops Intact.empty Lawful.empty
  cases hrecheck : recheckRights me rights sel with
  | none =>
    have hdone : done = (.bye, db) := by
      change copyCommand ext content now me rights sel uid set target removeSource db = _
      unfold copyCommand
      rw [hrecheck]
    rw [hdone]
    exact ⟨fun _ _ _ h => (by cases h), fun _ h => (by cases h)⟩
  | some sel' =>
    have hends := @copy_ends ext content now me rights db _ removeSource uid set target hi hl
      (readable_of_recheckRights hrecheck).1
    unfold Tx.Ends at hends
    rcases hexec : (copy ext content now me rights sel' uid set target removeSource).exec db with ⟨r, db'⟩
    rw [hexec] at hends
    have hdone := copyCommand_eq hrecheck hexec
    change done = _ at hdone
    cases r with
    | ok answer =>
      obtain ⟨hno, hsame⟩ := hends
      rw [hdone]
      refine ⟨fun _ sel'' t hsel ht h => ?_, fun _ hanswer b _ e u => ?_⟩
      · cases hsel
        exact hno t ht h
      · have hsame := hsame hanswer
        rw [hsame]
    | error e =>
      rw [hdone]
      rcases hends with ⟨hno, rfl⟩ | ⟨t, ht, hhalts, uid, hheld⟩
      · refine ⟨fun _ sel'' t hsel ht h => ?_, fun _ _ b _ e u => Iff.rfl⟩
        cases hsel
        exact hno t ht h
      · refine ⟨fun hstays => ?_, fun hno => absurd hhalts (hno sel' t rfl ht)⟩
        -- the id of the first copy is one no email had before
        obtain ⟨r, hr, hre, -, -⟩ := (hstays rfl t.mailboxId (.inr ⟨t, ht, rfl⟩) _ _).1 hheld
        exact absurd hre (hi.linked.newEmail r hr)

end Command

/-- `Message-ID: <a>` and no body. -/
def aMessage : List UInt8 :=
  [77, 101, 115, 115, 97, 103, 101, 45, 73, 68, 58, 32, 60, 97, 62, 13, 10, 13, 10]

/-- Ada has two messages of 19 bytes, Bob shares an inbox with room for 20. -/
def sharedInbox : List StoreOp :=
  let message : IngestRequest :=
    { accountId := 1, raw := aMessage, mailboxes := [.id 1], keywords := [], receivedAt := none }
  [.createAccount ⟨"ada", false, 0, true⟩ 0, .createAccount ⟨"bob", false, 20, true⟩ 0,
    .setMailboxAcl 2 7 1 "lrswite", .ingest message false 0, .ingest message false 0]

/-- Only the first message fits: MOVE is refused, and its copy stays in the other inbox. -/
theorem copying_halts :
    let db := runOps plainExternals sharedInbox {}
    let sel : Selected := ⟨1, 1, "lrswipkxtea", false, [⟨1, 2, [], false⟩, ⟨2, 3, [], false⟩], 3, 0⟩
    let done := copyCommand plainExternals (fun _ => .ok aMessage) 0 1 none sel true [(.value 1, .value 2)]
      (some ⟨2, 7, "lrswite"⟩) true db
    done.1 = .no ∧ ¬ Stays db done.2 7 := by
  intro db sel done
  have hmember : (⟨3, 7, 1, 3⟩ : MembershipRow) ∈ done.2.emailMailboxes := by decide +kernel
  refine ⟨by decide +kernel, fun hstays => ?_⟩
  obtain ⟨r, hr, he, -⟩ := (hstays 3 1).1 ⟨_, hmember, rfl, rfl, rfl⟩
  have hold : ∀ r ∈ db.emailMailboxes, r.emailId ≠ 3 := by decide
  exact hold r hr he

end UwuMail.Imap
