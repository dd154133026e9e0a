/-
# Runs

A run is a list of operations, in any order and on any accounts, from the empty database.
`Outcome` puts the lemmas of `Ops` side by side: what an operation made of a database, for all
operations at once.  `runOps_induct` is the rule every invariant is proved by.  It asks for three
small facts (the empty database, a new account, a transaction), and no operation is looked at.
-/
import UwuMail.Store.Ops

namespace UwuMail.Store

open Table

/-! ## 1. Operations -/

/-- The operations of the store that write mail, with their arguments; `now` is the clock. -/
inductive StoreOp
  | createAccount (new : NewAccount) (now : Int)
  | ingest (request : IngestRequest) (smtpDelivered : Bool) (now : Int)
  | updateEmails (account : Int) (updates : List EmailUpdate)
  | destroyEmails (account : Int) (ids : List Int)
  | createMailbox (account : Int) (name : String) (parentId : Option Int)
      (role : Option MailboxRole) (sortOrder : Int) (subscribed : Bool) (now : Int)
  | updateMailbox (account id : Int) (update : MailboxUpdate)
  | destroyMailbox (account id : Int) (removeEmails : Bool)
  | imapStoreFlags (account mailbox : Int) (uids : List U32) (change : FlagChange)
      (unchangedSince : Option Nat)
  | imapCopy (account source : Int) (uids : List U32) (target : Int) (removeSource : Bool)
  | imapExpunge (account mailbox : Int) (uids : Option (List U32))
  | imapRemove (account mailbox : Int) (uids : List U32)
  | setMailboxAcl (owner mailbox grantee : Int) (rights : String)
  | makeShared (account : Int) (members : List String)
  | setSharedMailboxMembers (account : Int) (members : List String)
  | endSharedMailbox (account : Int)

namespace StoreOp

/-- The account an operation writes to; a new account is none of the old ones. -/
def account (db : Db) : StoreOp → Int
  | createAccount _ _ => db.accountSeq + 1
  | ingest request _ _ => request.accountId
  | updateEmails a _ | destroyEmails a _ | createMailbox a _ _ _ _ _ _ | updateMailbox a _ _
  | destroyMailbox a _ _ | imapStoreFlags a _ _ _ _ | imapCopy a _ _ _ _ | imapExpunge a _ _
  | imapRemove a _ _ | setMailboxAcl a _ _ _ | makeShared a _ | setSharedMailboxMembers a _
  | endSharedMailbox a => a

/-- The database after an operation, whatever it answered. -/
def run (ext : Externals) : StoreOp → Db → Db
  | createAccount new now, db => (Store.createAccount new now db).2
  | ingest request smtp now, db => (ingestMarked ext now request smtp db).2
  | updateEmails a updates, db => (Store.updateEmails ext a updates db).2
  | destroyEmails a ids, db => (Store.destroyEmails a ids db).2
  | createMailbox a name parent role order subscribed now, db =>
    (Store.createMailbox a name parent role order subscribed now db).2
  | updateMailbox a id update, db => (Store.updateMailbox a id update db).2
  | destroyMailbox a id remove, db => (Store.destroyMailbox a id remove db).2
  | imapStoreFlags a mailbox uids change since, db =>
    (Store.imapStoreFlags ext a mailbox uids change since db).2
  | imapCopy a source uids target remove, db =>
    (Store.imapCopy ext a source uids target remove db).2
  | imapExpunge a mailbox uids, db => (Store.imapExpunge ext a mailbox uids db).2
  | imapRemove a mailbox uids, db => (Store.imapRemove ext a mailbox uids db).2
  | setMailboxAcl owner mailbox grantee rights, db =>
    (setMailboxAclFor owner mailbox grantee rights db).2
  | makeShared a members, db => (Store.makeShared a members db).2
  | setSharedMailboxMembers a members, db => (Store.setSharedMailboxMembers a members db).2
  | endSharedMailbox a, db => (Store.endSharedMailbox a db).2

/-- The events a transaction of the operation can be made of, and the mailbox it clears out. -/
def Gives (ext : Externals) (db : Db) (m : Int) (es : List Event) (dying : Option Int) :
    StoreOp → Prop
  | createAccount _ _ => False
  | ingest request smtp now => dying = none ∧
    ∃ p ids, ingestPrepare ext now request smtp db = .ok p ∧ es = [.store p ids]
  | updateEmails _ updates => dying = none ∧ UpdatesOf (updates.map (·.id)) es
  | destroyEmails _ ids => dying = none ∧ DestroysOf ids es
  | createMailbox a name parent role order subscribed now => dying = none ∧ ∃ valid,
    validMailboxName name = .ok valid ∧
      es = [.create (newMailbox a valid parent role order subscribed now m (db.mailboxSeq + 1))]
  | updateMailbox _ id update => dying = none ∧ ∃ name, update.name.mapM validMailboxName = .ok name ∧
    es = [.alter id { update with name }]
  | destroyMailbox _ b remove => dying = some b ∧ (remove = false → es = []) ∧
    Clears db b (db.holdings b) es
  | imapStoreFlags _ mailbox uids _ _ => dying = none ∧
    UpdatesOf ((emailsByUid db mailbox uids).map (·.2.1)) es
  | imapCopy _ source uids _ _ => dying = none ∧
    UpdatesOf ((emailsByUid db source uids).map (·.2.1)) es
  | imapExpunge _ mailbox uids => dying = none ∧ TakesOut (wantedOut db mailbox uids true) es
  | imapRemove _ mailbox uids => dying = none ∧ TakesOut (wantedOut db mailbox (some uids) false) es
  | setMailboxAcl _ mailbox _ _ => dying = none ∧ ∃ acl, es = [.share mailbox acl]
  | makeShared _ _ | setSharedMailboxMembers _ _ | endSharedMailbox _ => dying = none ∧ SetsMembers es

/-- Only `ingest_marked` stores a message, only `update_mailbox` alters a mailbox, and four
operations destroy emails. -/
def Source (ext : Externals) (db : Db) (es : List Event) (dying : Option Int) (op : StoreOp) : Event → Prop
  | .store p _ => ∃ request smtp now, ingestPrepare ext now request smtp db = .ok p
  | .alter id u => ∃ a update, op = updateMailbox a id update ∧ u.parentId = update.parentId ∧
    es = [.alter id u] ∧
    dying = none
  | .destroy _ =>
    match op with
    | destroyEmails _ _ | destroyMailbox _ _ _ | imapExpunge _ _ _ | imapRemove _ _ _ => True
    | _ => False
  | _ => True

theorem Gives.source {ext : Externals} {db : Db} {m : Int} {es : List Event} {dying : Option Int}
    {op : StoreOp}
    (h : op.Gives ext db m es dying) {e : Event} (he : e ∈ es) : op.Source ext db es dying e := by
  cases op with
  | createAccount => exact h.elim
  | ingest request smtp now =>
    obtain ⟨-, p, ids, hprep, rfl⟩ := h
    cases List.mem_singleton.1 he
    exact ⟨request, smtp, now, hprep⟩
  | updateMailbox a id update =>
    obtain ⟨hdying, name, -, rfl⟩ := h
    cases List.mem_singleton.1 he
    exact ⟨a, update, rfl, rfl, rfl, hdying⟩
  | createMailbox =>
    obtain ⟨-, valid, -, rfl⟩ := h
    cases List.mem_singleton.1 he
    trivial
  | updateEmails | imapStoreFlags | imapCopy =>
    obtain ⟨plan, rfl, -⟩ := h.2 _ he
    trivial
  | destroyEmails =>
    obtain ⟨row, rfl, -⟩ := h.2 _ he
    trivial
  | destroyMailbox => rcases h.2.2.kinds _ he with ⟨email, rfl⟩ | ⟨row, rfl, -⟩ <;> trivial
  | imapExpunge | imapRemove => rcases h.2.kinds _ he with ⟨plan, rfl⟩ | ⟨row, rfl, -⟩ <;> trivial
  | setMailboxAcl =>
    obtain ⟨-, acl, rfl⟩ := h
    cases List.mem_singleton.1 he
    trivial
  | makeShared | setSharedMailboxMembers | endSharedMailbox =>
    obtain ⟨-, list, shared, rfl⟩ := h
    cases List.mem_singleton.1 he
    trivial

/-- The emails an operation puts into mailboxes; a message that comes in is no email yet. -/
def enters (db : Db) : StoreOp → List (Option Int × Int)
  | ingest request _ _ =>
    match resolveMailboxes db request.accountId request.mailboxes with
    | .ok ids => ids.map fun b => (none, b)
    | .error _ => []
  | updateEmails _ updates => updates.flatMap EmailUpdate.enters
  | imapCopy _ source uids target _ =>
    (emailsByUid db source uids).map fun entry => (some entry.2.1, target)
  | _ => []

end StoreOp

/-! ## 2. What became of a database -/

/-- What an operation made of a database. -/
inductive Outcome (ext : Externals) (op : StoreOp) (db : Db) : Db → Prop
  | same : Outcome ext op db db
  | account {new : NewAccount} {now : Int} (hop : op = .createAccount new now)
      (hno : new.hasMailbox = false) : Outcome ext op db (db.insertAccount new)
  | provision {new : NewAccount} {now m : Int} {db' : Db} (hop : op = .createAccount new now)
      (hyes : new.hasMailbox = true)
      (heff : Effect (db.accountSeq + 1) (db.insertAccount new) db' m
        (provisions (db.accountSeq + 1) now m db.mailboxSeq) none) : Outcome ext op db db'
  | effect {m : Int} {es : List Event} {dying : Option Int} {db' : Db}
      (heff : Effect (op.account db) db db' m es dying) (hgives : op.Gives ext db m es dying)
      (henters : EntersOnly (op.enters db) es) : Outcome ext op db db'

theorem Outcome.of_did {ext : Externals} {op : StoreOp} {db db' : Db} {P : List Event → Prop}
    (h : Did (op.account db) db db' none P)
    (hP : ∀ m es, P es → op.Gives ext db m es none ∧ EntersOnly (op.enters db) es) :
    Outcome ext op db db' := by
  rcases h with rfl | ⟨m, es, heff, hes⟩
  · exact .same
  · exact .effect heff (hP m es hes).1 (hP m es hes).2

/-- **Every operation has one of these outcomes.** -/
theorem StoreOp.outcome {db : Db} (hi : Intact db) (ext : Externals) (op : StoreOp) :
    Outcome ext op db (op.run ext db) := by
  cases op with
  | createAccount new now =>
    rcases createAccount_cases hi.linked new now with ⟨e, h⟩ | ⟨hno, h⟩ | ⟨hyes, db', m, h, heff⟩
    all_goals simp only [run, h]
    · exact .same
    · exact .account rfl hno
    · exact .provision rfl hyes heff
  | ingest request smtp now =>
    rcases ingestMarked_cases ext hi.keyed now request smtp with
      ⟨e, h⟩ | ⟨r, db', m, p, ids, h, hprep, -, hids, heff⟩
    all_goals simp only [run, h]
    · exact .same
    · refine .effect heff ⟨rfl, p, ids, hprep, rfl⟩ ?_
      intro e he b hb
      rw [List.mem_singleton.1 he] at hb
      simpa only [enters, hids, Event.enters] using hb
  | updateEmails a updates =>
    exact .of_did (updateEmails_did updates) fun _ _ h => ⟨⟨rfl, h.1⟩, h.2⟩
  | destroyEmails a ids =>
    refine .of_did (destroyEmails_did ids) fun _ es h => ⟨⟨rfl, h⟩, .none (fun e he => ?_) _⟩
    obtain ⟨row, rfl, -⟩ := h e he
    rfl
  | createMailbox a name parent role order subscribed now =>
    rcases createMailbox_cases hi.keyed name parent role order subscribed now (a := a) with
      ⟨e, h⟩ | ⟨db', m, row, h, hname, hrow, heff⟩
    all_goals simp only [run, h]
    · exact .same
    · refine .effect heff ⟨rfl, row.name, hname, ?_⟩ (.none (by simp [Event.enters]) _)
      rw [← hrow]
  | updateMailbox a id update =>
    rcases updateMailbox_cases hi.keyed hi.named id update (a := a) with
      ⟨e, h⟩ | ⟨db', m, name, h, hname, heff⟩
    all_goals simp only [run, h]
    · exact .same
    · exact .effect heff ⟨rfl, name, hname, rfl⟩ (.none (by simp [Event.enters]) _)
  | destroyMailbox a b remove =>
    rcases destroyMailbox_cases hi b remove (a := a) with ⟨e, h⟩ | ⟨db', m, es, h, hno, hcl, heff⟩
    all_goals simp only [run, h]
    · exact .same
    · refine .effect heff ⟨rfl, hno, hcl⟩ (.none (fun e he => ?_) _)
      rcases hcl.kinds e he with ⟨email, rfl⟩ | ⟨row, rfl, -⟩ <;> rfl
  | imapStoreFlags a mailbox uids change since =>
    exact .of_did (imapStoreFlags_did mailbox uids change since) fun _ _ h => ⟨⟨rfl, h.1⟩, h.2⟩
  | imapCopy a source uids target remove =>
    exact .of_did (imapCopy_did source uids target remove) fun _ _ h => ⟨⟨rfl, h.1⟩, h.2⟩
  | imapExpunge a mailbox uids =>
    exact .of_did (imapTakeOut_did mailbox uids true) fun _ _ h => ⟨⟨rfl, h.1⟩, h.2⟩
  | imapRemove a mailbox uids =>
    exact .of_did (imapTakeOut_did mailbox (some uids) false) fun _ _ h => ⟨⟨rfl, h.1⟩, h.2⟩
  | setMailboxAcl owner mailbox grantee rights =>
    refine .of_did (setMailboxAclFor_did mailbox grantee rights) fun _ es h => ⟨⟨rfl, h⟩, ?_⟩
    obtain ⟨acl, rfl⟩ := h
    exact .none (by simp [Event.enters]) _
  | makeShared a members =>
    exact .of_did (makeShared_did members) fun _ _ h => ⟨⟨rfl, h⟩, h.enters _⟩
  | setSharedMailboxMembers a members =>
    exact .of_did (setSharedMailboxMembers_did members) fun _ _ h => ⟨⟨rfl, h⟩, h.enters _⟩
  | endSharedMailbox a => exact .of_did endSharedMailbox_did fun _ _ h => ⟨⟨rfl, h⟩, h.enters _⟩

/-! ## 3. Runs -/

/-- The database after a list of operations. -/
def runOps (ext : Externals) (ops : List StoreOp) (db : Db) : Db :=
  ops.foldl (fun db op => op.run ext db) db

/-- Every operation of the run meets a condition on it and the database it finds. -/
def Meets (ext : Externals) (ok : Db → StoreOp → Prop) : List StoreOp → Db → Prop
  | [], _ => True
  | op :: ops, db => ok db op ∧ Meets ext ok ops (op.run ext db)

theorem runOps_append (ext : Externals) (ops ops' : List StoreOp) (db : Db) :
    runOps ext (ops ++ ops') db = runOps ext ops' (runOps ext ops db) := List.foldl_append

theorem Intact.empty : Intact {} where
  keyed := ⟨.nil, .nil, .nil, .nil, .nil, .nil, .nil, .nil⟩
  linked := by constructor <;> simp
  named := by intro r hr; simp at hr
  clocked := by constructor <;> simp

/-- A new account has a new id. -/
theorem Intact.insertAccount {db : Db} (h : Intact db) (new : NewAccount) :
    Intact (db.insertAccount new) := by
  have hold : ∀ {x : Int}, (∃ r ∈ db.accounts, r.id = x) →
      ∃ r ∈ (db.insertAccount new).accounts, r.id = x :=
    fun ⟨r, hr, hid⟩ => ⟨r, List.mem_append_left _ hr, hid⟩
  -- Nothing refers to it yet.
  have hfresh : ∀ {x : Int}, (∃ r ∈ db.accounts, r.id = x) → x ≠ db.accountSeq + 1 := by
    rintro x ⟨r, hr, rfl⟩ h'
    have := (h.linked.accountSeq r hr).2
    omega
  have hseq := h.linked.seq
  refine ⟨?_, ?_, h.named.of_eq rfl, ?_⟩
  · refine { h.keyed with account := h.keyed.account.append ?_ }
    exact fun r hr hid => hfresh ⟨r, hr, rfl⟩ hid
  · refine { h.linked with
      accountSeq := ?_
      mailboxAccount := fun r hr => hold (h.linked.mailboxAccount r hr)
      emailAccount := fun r hr => hold (h.linked.emailAccount r hr)
      change := fun c hc => hold (h.linked.change c hc)
      seq := ⟨?_, hseq.2⟩ }
    · intro r hr
      show 0 < r.id ∧ r.id ≤ db.accountSeq + 1
      rcases List.mem_append.1 hr with hr | hr
      · have := h.linked.accountSeq r hr
        omega
      · rw [List.mem_singleton.1 hr]
        exact ⟨by simp only; omega, le_refl _⟩
    · show 0 ≤ db.accountSeq + 1
      omega
  · refine { h.clocked with change := ?_, updated := ?_, positive := ⟨?_, h.clocked.positive.2⟩ }
    · intro c hc x hx hid
      rcases List.mem_append.1 hx with hx | hx
      · exact h.clocked.change c hc x hx hid
      · rw [List.mem_singleton.1 hx] at hid
        exact absurd hid.symm (hfresh (h.linked.change c hc))
    · intro b hb x hx hid
      rcases List.mem_append.1 hx with hx | hx
      · exact h.clocked.updated b hb x hx hid
      · rw [List.mem_singleton.1 hx] at hid
        exact absurd hid.symm (hfresh (h.linked.mailboxAccount b hb))
    · intro x hx
      rcases List.mem_append.1 hx with hx | hx
      · exact h.clocked.positive.1 x hx
      · rw [List.mem_singleton.1 hx]

section Induct

variable {ext : Externals} {db : Db}

theorem Outcome.intact {op : StoreOp} {db' : Db} (h : Outcome ext op db db') (hi : Intact db) :
    Intact db' := by
  cases h with
  | same => exact hi
  | account => exact hi.insertAccount _
  | provision hop hyes heff => exact heff.intact (hi.insertAccount _)
  | effect heff => exact heff.intact hi

/-- **The invariant rule.**  What new accounts and transactions keep holds after every run. -/
theorem runOps_induct {P : Db → Prop}
    (haccount : ∀ db new, Intact db → P db → P (db.insertAccount new))
    (heffect : ∀ {a m db db' es dying}, Intact db → P db → Effect a db db' m es dying → P db')
    (ops : List StoreOp) (hi : Intact db) (h : P db) : P (runOps ext ops db) := by
  induction ops generalizing db with
  | nil => exact h
  | cons op ops ih =>
    have hout := op.outcome hi ext
    refine ih (hout.intact hi) ?_
    show P (op.run ext db)
    generalize op.run ext db = db' at hout
    cases hout with
    | same => exact h
    | account => exact haccount _ _ hi h
    | provision hop hyes heff => exact heffect (hi.insertAccount _) (haccount _ _ hi h) heff
    | effect heff => exact heffect hi h heff

/-- The rule for runs whose operations all meet a condition. -/
theorem meets_induct {P : Db → Prop} {ok : Db → StoreOp → Prop}
    (hstep : ∀ {db db' op}, Intact db → P db → ok db op → Outcome ext op db db' → P db')
    (ops : List StoreOp) (hm : Meets ext ok ops db) (hi : Intact db) (h : P db) :
    P (runOps ext ops db) := by
  induction ops generalizing db with
  | nil => exact h
  | cons op ops ih =>
    have hout := op.outcome hi ext
    exact ih hm.2 (hout.intact hi) (hstep hi h hm.1 hout)

/-- The rule for one transaction: what holds of its writes, and what the last one makes of it. -/
theorem Effect.ends {P Q : Db → Prop} {a m : Int} {db' : Db} {es : List Event} {dying : Option Int}
    (heff : Effect a db db' m es dying) (hi : Intact db) (hbump : P (db.bumpModseq a))
    (hevent : ∀ {d e}, Sound a m dying d → 0 < m → e ∈ es → e.Fits a m dying d → P d → P (e.apply a m d))
    (hstay : dying = none → ∀ d, P d → Q d)
    (hdrop : ∀ {b d}, dying = some b → Sound a m (some b) d → d.Droppable a b → P d →
      Q (d.dropMailbox a m b)) : Q db' := by
  obtain ⟨hs, hm⟩ := hi.start heff.modseq dying
  obtain ⟨db₁, hes, hdroppable, rfl⟩ := heff.run
  -- Along the events, soundness goes with `P`.
  have hall : Sound a m dying db₁ ∧ P db₁ := by
    refine ⟨hes.sound hs hm, ?_⟩
    clear heff hdroppable hstay hdrop
    induction hes with
    | nil => exact hbump
    | snoc hes hfit ih =>
      refine hevent (hes.sound hs hm) hm (by simp) hfit (ih ?_)
      exact fun hs hm he hf hP => hevent hs hm (List.mem_append_left _ he) hf hP
  cases dying with
  | none => exact hstay rfl db₁ hall.2
  | some b => exact hdrop rfl hall.1 (hdroppable b rfl) hall.2

/-- What every write of a transaction keeps, the transaction keeps. -/
theorem Effect.keeps {P : Db → Prop} {a m : Int} {db' : Db} {es : List Event} {dying : Option Int}
    (heff : Effect a db db' m es dying) (hi : Intact db) (hbump : ∀ db a, P db → P (db.bumpModseq a))
    (hevent : ∀ {db e}, Sound a m dying db → 0 < m → e ∈ es → e.Fits a m dying db → P db →
      P (e.apply a m db))
    (hdrop : ∀ {b db}, dying = some b → Sound a m (some b) db → db.Droppable a b → P db →
      P (db.dropMailbox a m b)) (h : P db) : P db' :=
  heff.ends hi (hbump db a h) hevent (fun _ _ hd => hd) hdrop

/-- **The invariant rule, write by write.** -/
theorem runOps_invariant {P : Db → Prop}
    (haccount : ∀ db new, Intact db → P db → P (db.insertAccount new))
    (hbump : ∀ db a, P db → P (db.bumpModseq a))
    (hevent : ∀ {a m dying db e}, Sound a m dying db → 0 < m → Event.Fits a m dying db e → P db →
      P (e.apply a m db))
    (hdrop : ∀ {a m b db}, Sound a m (some b) db → db.Droppable a b → P db →
      P (db.dropMailbox a m b)) (ops : List StoreOp) (hi : Intact db) (h : P db) :
    P (runOps ext ops db) :=
  runOps_induct haccount
    (fun hi h heff => heff.keeps hi hbump (fun hs hm _ hf h => hevent hs hm hf h)
      (fun _ hs hd h => hdrop hs hd h) h) ops hi h

theorem intact_runOps (ops : List StoreOp) : Intact (runOps ext ops {}) :=
  runOps_induct (fun _ new hi _ => hi.insertAccount new) (fun hi _ heff => heff.intact hi) ops
    Intact.empty Intact.empty

end Induct

/-! ## 4. Plain messages -/

/-- The id in a message that starts with a `Message-ID` field. -/
def plainMessageId (raw : List UInt8) : Option String :=
  if raw.take 13 = [77, 101, 115, 115, 97, 103, 101, 45, 73, 68, 58, 32, 60] then
    some (String.ofList (((raw.drop 13).takeWhile (· ≠ 62)).map fun b => Char.ofNat b.toNat))
  else none

/-- What the code outside the store does on ASCII texts, and on messages that are empty or consist
of that one field.  Concrete runs are run with it. -/
def plainExternals : Externals where
  toLowercase := fun s => s.toLower
  debug := fun s => s.quote
  read := fun raw => .ok { messageId := plainMessageId raw }

end UwuMail.Store
