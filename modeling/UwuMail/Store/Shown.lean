/-
# What clients see of an object

`objects.rs` and `mail.rs`: the record of an email, the emails of a thread, and a mailbox with its
counts. Modseqs and UIDs are not part of it, so a statement that only stamps a row shows nothing
new.

**An event shows nothing new of an object it offers no row for** (`Event.Fits.shown`): what can be
seen of an object changes only with a row of the change log about it.  One mailbox is left out:
emails leave the mailbox a `destroy_mailbox` clears out without a row for it.
-/
import UwuMail.Store.Copies
import UwuMail.Store.Life

namespace UwuMail.Store

open Table

/-! ## 1. Records -/

/-- Everything the store knows about an email without reading its blob. -/
structure EmailRecord where
  id : Int
  threadId : Int
  size : Int
  receivedAt : Int
  sentAt : Option Int
  messageId : Option String
  inReplyTo : List String
  references : List String
  subject : String
  fromAddr : List EmailAddress
  senderAddr : List EmailAddress
  toAddr : List EmailAddress
  ccAddr : List EmailAddress
  bccAddr : List EmailAddress
  replyToAddr : List EmailAddress
  preview : String
  hasAttachment : Bool
  keywords : List String
  mailboxIds : List Int
  smtpDelivered : Bool

def emailFromRow (db : Db) (r : EmailRow) : EmailRecord where
  id := r.id
  threadId := r.threadId
  size := r.size
  receivedAt := r.receivedAt
  sentAt := r.sentAt
  messageId := r.messageId
  inReplyTo := r.inReplyTo
  references := r.references
  subject := r.subject
  fromAddr := r.fromAddr
  senderAddr := r.senderAddr
  toAddr := r.toAddr
  ccAddr := r.ccAddr
  bccAddr := r.bccAddr
  replyToAddr := r.replyToAddr
  preview := r.preview
  hasAttachment := r.hasAttachment
  keywords := (db.keywordsOf r.id).elems
  mailboxIds := (db.mailboxesOf r.id).elems
  smtpDelivered := r.smtpDelivered

/-- `emails_by_ids`, of one id. -/
def emailsById (db : Db) (account id : Int) : List EmailRecord :=
  (db.emails.filter fun r => r.accountId == account && r.id == id).map (emailFromRow db)

/-- `thread_emails`, of one thread: the email ids, `ORDER BY received_at, id`. -/
def threadEmails (db : Db) (account thread : Int) : List Int :=
  ((db.emails.filter fun r => r.accountId == account && r.threadId == thread).insertionSort
    fun a b => a.receivedAt < b.receivedAt ∨ a.receivedAt = b.receivedAt ∧ a.id ≤ b.id).map (·.id)

structure Mailbox where
  id : Int
  accountId : Int
  parentId : Option Int
  name : String
  role : Option MailboxRole
  sortOrder : Int
  subscribed : Bool
  totalEmails : Nat
  unreadEmails : Nat
  totalThreads : Nat
  unreadThreads : Nat

namespace Db

def isSeen (db : Db) (email : Int) : Bool := db.hasKeyword email "$seen"

def threadOf (db : Db) (email : Int) : Option Int := (db.email email).map (·.threadId)

/-- One row of `Store::mailboxes`, with its counts. -/
def countMailbox (db : Db) (m : MailboxRow) : Mailbox :=
  let emails := db.emailIdsIn m.id
  let unread := emails.filter fun e => !db.isSeen e
  { id := m.id, accountId := m.accountId, parentId := m.parentId, name := m.name, role := m.role
    sortOrder := m.sortOrder, subscribed := m.subscribed
    totalEmails := emails.length
    unreadEmails := unread.length
    totalThreads := (emails.filterMap db.threadOf).eraseDups.length
    unreadThreads := (unread.filterMap db.threadOf).eraseDups.length }

end Db

/-- What an object looks like. -/
inductive Shown
  | email (record : EmailRecord)
  | thread (emailIds : List Int)
  | mailbox (mailbox : Mailbox)

/-- What an account is shown of an object: nothing if there is none. -/
def Db.shown (db : Db) (a : Int) : ObjectKind → Int → List Shown
  | .email, o => (emailsById db a o).map .email
  | .thread, o => [.thread (threadEmails db a o)]
  | .mailbox, o => ((db.mailboxes.filter fun r => r.accountId == a && r.id == o).map db.countMailbox).map .mailbox

/-! ## 2. What it is made of -/

section Columns

variable {db db' : Db} {x o : Int}

@[simp] theorem EmailRow.columns_id (r : EmailRow) : r.columns.id = r.id := rfl

theorem emailsById_congr
    (h : (db'.emails.filter fun r => r.accountId == x && r.id == o).map EmailRow.columns =
      (db.emails.filter fun r => r.accountId == x && r.id == o).map EmailRow.columns)
    (hk : db'.keywordsOf o = db.keywordsOf o) (hm : db'.mailboxesOf o = db.mailboxesOf o) :
    emailsById db' x o = emailsById db x o := by
  have hcolumns : ∀ d : Db, emailsById d x o = ((d.emails.filter fun r => r.accountId == x && r.id == o).map
      EmailRow.columns).map (emailFromRow d) := fun d => by
    rw [List.map_map]
    rfl
  rw [hcolumns, hcolumns, h]
  refine List.map_congr_left fun c hc => ?_
  obtain ⟨r, hr, rfl⟩ := List.mem_map.1 hc
  obtain ⟨-, hr⟩ := List.mem_filter.1 hr
  have hid : r.id = o := by simp at hr; exact hr.2
  simp only [emailFromRow, EmailRow.columns_id, hid, hk, hm]

theorem threadEmails_congr
    (h : (db'.emails.filter fun r => r.accountId == x && r.threadId == o).map EmailRow.columns =
      (db.emails.filter fun r => r.accountId == x && r.threadId == o).map EmailRow.columns) :
    threadEmails db' x o = threadEmails db x o := by
  have hcolumns : ∀ d : Db, threadEmails d x o =
      ((((d.emails.filter fun r => r.accountId == x && r.threadId == o).map EmailRow.columns).insertionSort
        fun a b => a.receivedAt < b.receivedAt ∨ a.receivedAt = b.receivedAt ∧ a.id ≤ b.id)).map (·.id) := by
    intro d
    rw [← List.map_insertionSort (fun a b : EmailRow =>
      a.receivedAt < b.receivedAt ∨ a.receivedAt = b.receivedAt ∧ a.id ≤ b.id) _ EmailRow.columns _
        (fun _ _ _ _ => Iff.rfl), List.map_map]
    rfl
  rw [hcolumns, hcolumns, h]

theorem threadOf_congr (h : (db'.emails.filter fun r => r.id == o).map EmailRow.columns =
    (db.emails.filter fun r => r.id == o).map EmailRow.columns) : db'.threadOf o = db.threadOf o := by
  have hcolumns : ∀ d : Db, d.threadOf o =
      ((d.emails.filter fun r => r.id == o).map EmailRow.columns).head?.map (·.threadId) := fun d => by
    rw [List.head?_map, List.head?_filter, Option.map_map]
    rfl
  rw [hcolumns, hcolumns, h]

theorem isSeen_congr (h : "$seen" ∈ db'.keywordsOf o ↔ "$seen" ∈ db.keywordsOf o) :
    db'.isSeen o = db.isSeen o := by
  rw [Db.mem_keywordsOf, Db.mem_keywordsOf] at h
  rw [Db.isSeen, Db.isSeen, Db.hasKeyword, Db.hasKeyword, Bool.eq_iff_iff, List.contains_iff_mem,
    List.contains_iff_mem]
  exact h

/-- A mailbox but for its modseq and its next UID. -/
def MailboxRow.face (r : MailboxRow) : MailboxRow := { r with uidNext := 0, updatedModseq := 0 }

@[simp] theorem face_touchRow (m : Int) (ids : List Int) (r : MailboxRow) :
    (touchRow m ids r).face = r.face := by
  unfold touchRow
  split <;> rfl

@[simp] theorem face_setRow (m : Int) (ids : List Int) (r : MailboxRow) : (setRow m ids r).face = r.face := by
  unfold setRow
  split <;> rfl

@[simp] theorem face_enterRow (m : Int) (ids : List Int) (r : MailboxRow) :
    (enterRow m ids r).face = r.face := by
  unfold enterRow
  split <;> rfl

theorem shown_mailbox_congr
    (h : (db'.mailboxes.filter fun r => r.accountId == x && r.id == o).map MailboxRow.face =
      (db.mailboxes.filter fun r => r.accountId == x && r.id == o).map MailboxRow.face)
    (hin : db'.emailIdsIn o = db.emailIdsIn o)
    (hmembers : ∀ e ∈ db.emailIdsIn o, db'.isSeen e = db.isSeen e ∧ db'.threadOf e = db.threadOf e) :
    db'.shown x .mailbox o = db.shown x .mailbox o := by
  have hface : ∀ d : Db, d.shown x .mailbox o =
    (((d.mailboxes.filter fun r => r.accountId == x && r.id == o).map
      MailboxRow.face).map d.countMailbox).map .mailbox := fun d => by
    rw [@List.map_map _ _ _ d.countMailbox]
    rfl
  rw [hface, hface, h]
  refine congrArg (List.map Shown.mailbox) (List.map_congr_left fun c hc => ?_)
  obtain ⟨r, hr, rfl⟩ := List.mem_map.1 hc
  obtain ⟨-, hr⟩ := List.mem_filter.1 hr
  have hid : r.face.id = o := by simp at hr; exact hr.2
  have hunread : (db.emailIdsIn o).filter (fun e => !db'.isSeen e) =
      (db.emailIdsIn o).filter fun e => !db.isSeen e :=
    List.filter_congr fun e he => by rw [(hmembers e he).1]
  have hthreads : (db.emailIdsIn o).filterMap db'.threadOf = (db.emailIdsIn o).filterMap db.threadOf :=
    List.filterMap_congr fun e he => (hmembers e he).2
  have hunreadThreads : ((db.emailIdsIn o).filter fun e => !db.isSeen e).filterMap db'.threadOf =
      ((db.emailIdsIn o).filter fun e => !db.isSeen e).filterMap db.threadOf :=
    List.filterMap_congr fun e he => (hmembers e (List.mem_filter.1 he).1).2
  simp only [Db.countMailbox, hid, hin, hunread, hthreads, hunreadThreads]

end Columns

/-! ## 3. What an event leaves as it was -/

section Events

variable {a m x o : Int} {dying : Option Int} {db : Db} {e : Event}

/-- Emails that are neither the new one nor the one that goes. -/
theorem Event.Fits.filter_emails (hf : e.Fits a m dying db) (hs : Sound a m dying db) {q : EmailRow → Bool}
    (hq : ∀ r, q r.columns = q r)
    (hstore : ∀ p ids, e = .store p ids → q { p.row (db.threadIdFor p) m with id := db.emailSeq + 1 } = false)
    (hdestroy : ∀ row, e = .destroy row → q row = false) :
    ((e.apply a m db).emails.filter q).map EmailRow.columns = (db.emails.filter q).map EmailRow.columns := by
  have hstamp : ∀ id, ((updateWhere (fun r => r.id == id) (fun r => { r with updatedModseq := m }) db.emails).filter
      q).map EmailRow.columns = (db.emails.filter q).map EmailRow.columns := by
    intro id
    rw [filter_updateWhere fun r => by rw [← hq, ← hq r]; rfl]
    exact map_updateWhere (by exact fun _ => rfl) _ _
  cases e with
  | store p ids =>
    rw [Event.apply, Db.storeEmail_eq hf.2.nodup hf.2.mailboxes hs.linked.newEmail]
    simp [List.filter_append, hstore p ids rfl]
  | update plan =>
    obtain ⟨gone, -, heq⟩ := Db.applyUpdate_eq a m hf.2.oldMailboxes hf.2.mailboxes
    rw [Event.apply, heq]
    exact hstamp _
  | destroy row =>
    rw [Event.apply, Db.applyDestroy_eq]
    rw [deleteWhere, List.filter_filter]
    refine congrArg _ (List.filter_congr fun r hr => ?_)
    by_cases hid : r.id = row.id
    · rw [hs.keyed.email.eq hr hf.1 hid, hdestroy row rfl]
      rfl
    · simp [hid]
  | leave email mailbox =>
    rw [Event.apply, Db.leaveMailbox_eq]
    exact hstamp _
  | create row => rw [Event.apply, Db.applyCreate_eq hf.2.id hf.2.updated (hf.2.new hs.linked)]
  | alter id u => rw [Event.apply, Db.mailboxUpdated_eq]; rfl
  | share mailbox acl => rw [Event.apply, Db.applyAcl, Db.recordChange_eq]; rfl
  | members list shared => rfl

/-- The keywords and mailboxes of an email the event offers no row for. -/
theorem Event.Fits.untouched (hf : e.Fits a m dying db) (hs : Sound a m dying db)
    (hnew : o ≤ db.emailSeq) (hno : e.email? ≠ some o) :
    (e.apply a m db).keywordsOf o = db.keywordsOf o ∧ (e.apply a m db).mailboxesOf o = db.mailboxesOf o := by
  have hmailboxes : ∀ {d : Db}, (∀ b, b ∈ d.mailboxIdsOf o ↔ b ∈ db.mailboxIdsOf o) →
      d.mailboxesOf o = db.mailboxesOf o := fun h => by
    ext b
    rw [Db.mem_mailboxesOf, Db.mem_mailboxesOf, ← Db.mem_mailboxIdsOf, ← Db.mem_mailboxIdsOf]
    exact h b
  cases e with
  | store p ids =>
    refine ⟨?_, hmailboxes fun b => ?_⟩
    · rw [Event.apply, Db.storeEmail_eq hf.2.nodup hf.2.mailboxes hs.linked.newEmail]
      ext k
      rw [Db.mem_keywordsOf, Db.mem_keywordsOf]
      rw [mem_insertAll_id]
      refine or_iff_left fun h => ?_
      obtain ⟨k', -, heq⟩ := List.mem_map.1 h
      have : db.emailSeq + 1 = o := congrArg KeywordRow.emailId heq
      omega
    · rw [Event.apply, mailboxIdsOf_store hs hf.2]
      exact or_iff_left fun h => by omega
  | update plan =>
    have hne : o ≠ plan.email := fun h => hno (h ▸ rfl)
    refine ⟨(hf.2.updated.untouched hne).keywords, hmailboxes fun b => ?_⟩
    rw [Event.apply, mailboxIdsOf_update hf.2]
    tauto
  | destroy row =>
    have hne : o ≠ row.id := fun h => hno (h ▸ rfl)
    refine ⟨?_, hmailboxes fun b => ?_⟩
    · rw [Event.apply, Db.applyDestroy_eq]
      ext k
      rw [Db.mem_keywordsOf, Db.mem_keywordsOf]
      rw [mem_deleteWhere]
      simp [hne]
    · rw [Event.apply, mailboxIdsOf_destroy]
      tauto
  | leave email mailbox =>
    have hne : o ≠ email := fun h => hno (h ▸ rfl)
    refine ⟨?_, hmailboxes fun b => ?_⟩
    · rw [Event.apply, Db.leaveMailbox_eq]
      rfl
    · rw [Event.apply, mailboxIdsOf_leave]
      tauto
  | create row =>
    rw [Event.apply, Db.applyCreate_eq hf.2.id hf.2.updated (hf.2.new hs.linked)]
    exact ⟨rfl, rfl⟩
  | alter id u => rw [Event.apply, Db.mailboxUpdated_eq]; exact ⟨rfl, rfl⟩
  | share mailbox acl => rw [Event.apply, Db.applyAcl, Db.recordChange_eq]; exact ⟨rfl, rfl⟩
  | members list shared => exact ⟨rfl, rfl⟩

/-- A mailbox that is neither new nor altered. -/
theorem Event.Fits.filter_mailboxes (hf : e.Fits a m dying db) (hs : Sound a m dying db)
    (hcreate : ∀ row, e = .create row → row.id ≠ o) (halter : ∀ id u, e = .alter id u → id ≠ o) :
    ((e.apply a m db).mailboxes.filter fun r => r.accountId == x && r.id == o).map MailboxRow.face =
      (db.mailboxes.filter fun r => r.accountId == x && r.id == o).map MailboxRow.face := by
  have hrewrite : ∀ f : MailboxRow → MailboxRow, (∀ r, (f r).face = r.face) →
      ((db.mailboxes.map f).filter fun r => r.accountId == x && r.id == o).map MailboxRow.face =
        (db.mailboxes.filter fun r => r.accountId == x && r.id == o).map MailboxRow.face := by
    intro f hface
    have hsame : ∀ r, ((f r).accountId == x && (f r).id == o) = (r.accountId == x && r.id == o) := fun r => by
      have hacc : (f r).face.accountId = r.face.accountId := by rw [hface]
      have hid : (f r).face.id = r.face.id := by rw [hface]
      exact congrArg₂ (fun a b => a == x && b == o) hacc hid
    rw [List.filter_map, List.map_map]
    simp only [Function.comp_def, hsame, hface]
  cases e with
  | store p ids =>
    rw [Event.apply, Db.storeEmail_eq hf.2.nodup hf.2.mailboxes hs.linked.newEmail]
    exact hrewrite _ (by simp)
  | update plan =>
    obtain ⟨gone, -, heq⟩ := Db.applyUpdate_eq a m hf.2.oldMailboxes hf.2.mailboxes
    rw [Event.apply, heq]
    exact hrewrite _ (by simp)
  | destroy row =>
    rw [Event.apply, Db.applyDestroy_eq]
    exact hrewrite _ (by simp)
  | leave email mailbox =>
    rw [Event.apply, Db.leaveMailbox_eq]
    exact hrewrite _ (by simp)
  | create row =>
    rw [Event.apply, Db.applyCreate_eq hf.2.id hf.2.updated (hf.2.new hs.linked)]
    simp [List.filter_append, hcreate row rfl]
  | alter id u =>
    have hid := halter id u rfl
    rw [Event.apply, Db.mailboxUpdated_eq]
    dsimp only [Db.updateMailboxes]
    rw [updateWhere, List.map_map, List.filter_map, List.map_map]
    have hsame : ∀ r : MailboxRow, r.id = o → (if (r.id == id) = true then u.apply r else r) = r :=
        fun r hr => by
      simp [hr, Ne.symm hid]
    have hfilter : (db.mailboxes.filter ((fun r => r.accountId == x && r.id == o) ∘
        (setRow m [id] ∘ fun r => if (r.id == id) = true then u.apply r else r))) =
          db.mailboxes.filter fun r => r.accountId == x && r.id == o := by
      refine List.filter_congr fun r _ => ?_
      simp only [Function.comp_apply, setRow_accountId, setRow_id]
      split <;> simp
    rw [hfilter]
    refine List.map_congr_left fun r hr => ?_
    obtain ⟨-, hr⟩ := List.mem_filter.1 hr
    have hr : r.id = o := by simp at hr; exact hr.2
    rw [Function.comp_apply, Function.comp_apply, hsame r hr, face_setRow]
  | share mailbox acl =>
    rw [Event.apply, Db.applyAcl, Db.recordChange_eq]
    exact hrewrite _ (by simp)
  | members list shared => rfl

/-- A mailbox that nothing comes into or goes out of. -/
theorem Event.Fits.emailIdsIn (hf : e.Fits a m dying db) (hs : Sound a m dying db) (hdying : dying ≠ some o)
    (hno : ∀ c ∈ e.log a m db, c.kind = .mailbox → c.objectId ≠ o) :
    (e.apply a m db).emailIdsIn o = db.emailIdsIn o := by
  have hentries : ∀ (t : List MailboxRow) (email : Int) (ids : List Int), o ∉ ids →
      (Db.entries t email m ids).filter (fun r => r.mailboxId == o) = [] := by
    intro t email ids hids
    refine List.filter_eq_nil_iff.2 fun r hr => ?_
    obtain ⟨id, hid, rfl⟩ := List.mem_map.1 hr
    rw [beq_iff_eq]
    rintro rfl
    exact hids hid
  have hrows : ∀ ids : List Int, (∀ c ∈ Db.mailboxRows a m ids, c.kind = .mailbox →
      c.objectId ≠ o) → o ∉ ids :=
    fun ids h hin => h _ (List.mem_map.2 ⟨o, hin, rfl⟩) rfl rfl
  cases e with
  | store p ids =>
    have hids : o ∉ ids := hrows ids fun c hc => hno c (by
      rw [Event.log, Db.storeLog, hf.2.account]
      exact List.mem_append_left _ hc)
    rw [Event.apply, Db.storeEmail_eq hf.2.nodup hf.2.mailboxes hs.linked.newEmail]
    simp [Db.emailIdsIn, List.filter_append, hentries _ _ _ hids]
  | update plan =>
    have hids : o ∉ plan.recounted := hrows _ fun c hc => hno c (List.mem_cons_of_mem _ hc)
    rw [UpdatePlan.recounted, List.mem_append, not_or, SortedSet.mem_elems,
      SortedSet.mem_symmetricDifference] at hids
    have hleft : o ∉ plan.left := fun h => hids.1
      (Or.inl (by simpa [UpdatePlan.left, SortedSet.mem_difference] using h))
    have hentered : o ∉ plan.entered.elems := fun h => hids.1 (Or.inr (by
      simpa [UpdatePlan.entered, SortedSet.mem_elems, SortedSet.mem_difference] using h))
    obtain ⟨gone, -, heq⟩ := Db.applyUpdate_eq a m hf.2.oldMailboxes hf.2.mailboxes
    rw [Event.apply, heq]
    simp only [Db.emailIdsIn, Db.updatedMembers, List.filter_append, hentries _ _ _ hentered, List.append_nil]
    rw [filter_updateWhere (by exact fun _ => rfl), map_updateWhere (by exact fun _ => rfl), deleteWhere,
      List.filter_filter]
    refine congrArg _ (List.filter_congr fun r _ => ?_)
    by_cases hr : r.mailboxId = o <;> simp [hr, hleft]
  | destroy row =>
    have hids : o ∉ (db.mailboxesOf row.id).elems :=
      hrows _ fun c hc => hno c (List.mem_cons_of_mem _ (List.mem_append_left _ hc))
    rw [SortedSet.mem_elems, Db.mem_mailboxesOf] at hids
    rw [Event.apply, Db.applyDestroy_eq]
    simp only [Db.emailIdsIn, deleteWhere, List.filter_filter]
    refine congrArg _ (List.filter_congr fun r hr => ?_)
    by_cases hro : r.mailboxId = o
    · have hne : r.emailId ≠ row.id := fun h => hids ⟨r, hr, h, hro⟩
      simp [hro, hne]
    · simp [hro]
  | leave email mailbox =>
    have hne : mailbox ≠ o := fun h => hdying (h ▸ hf.1)
    rw [Event.apply, Db.leaveMailbox_eq]
    simp only [Db.emailIdsIn, deleteWhere, List.filter_filter]
    refine congrArg _ (List.filter_congr fun r _ => ?_)
    by_cases hro : r.mailboxId = o
    · simp [hro, Ne.symm hne]
    · simp [hro]
  | create row => rw [Event.apply, Db.applyCreate_eq hf.2.id hf.2.updated (hf.2.new hs.linked)]; rfl
  | alter id u => rw [Event.apply, Db.mailboxUpdated_eq]; rfl
  | share mailbox acl => rw [Event.apply, Db.applyAcl, Db.recordChange_eq]; rfl
  | members list shared => rfl

/-- An email of a mailbox the event offers no row for is as read, and in the same thread, as it
was. -/
theorem Event.Fits.member_same (hf : e.Fits a m dying db) (hs : Sound a m dying db)
    (hno : ∀ c ∈ e.log a m db, c.kind = .mailbox → c.objectId ≠ o) {email : Int}
      (hin : email ∈ db.emailIdsIn o) :
    (e.apply a m db).isSeen email = db.isSeen email ∧ (e.apply a m db).threadOf email = db.threadOf email := by
  obtain ⟨r, hr, rfl⟩ := List.mem_map.1 hin
  obtain ⟨hr, hro⟩ := List.mem_filter.1 hr
  rw [beq_iff_eq] at hro
  obtain ⟨row, hrow, hid, -⟩ := hs.linked.member r hr
  have hle : r.emailId ≤ db.emailSeq := hid ▸ hs.linked.emailSeq row hrow
  -- An email that goes would have had a row for every mailbox it is in.
  have hkept : ∀ row', e = .destroy row' → row'.id ≠ r.emailId := by
    rintro row' rfl heq
    refine hno ⟨a, m, .mailbox, o, .updated⟩ ?_ rfl rfl
    refine List.mem_cons_of_mem _ (List.mem_append_left _ (List.mem_map.2 ⟨o, ?_, rfl⟩))
    rw [SortedSet.mem_elems, Db.mem_mailboxesOf]
    exact ⟨r, hr, heq.symm, hro⟩
  refine ⟨isSeen_congr ?_, threadOf_congr (hf.filter_emails hs (fun _ => rfl) (fun p ids _ => ?_) fun row' h => ?_)⟩
  · by_cases hemail : e.email? = some r.emailId
    · cases e with
      | update plan =>
        have hemail : plan.email = r.emailId := Option.some.inj hemail
        rw [Event.apply, hf.2.updated.keywords, if_pos hemail.symm, ← hemail, ← hf.2.oldKeywords]
        -- Had `$seen` changed, its mailboxes would have been counted again.
        by_contra hseen
        refine hno ⟨a, m, .mailbox, o, .updated⟩ ?_ rfl rfl
        refine List.mem_cons_of_mem _ (List.mem_map.2 ⟨o, ?_, rfl⟩)
        have hold : o ∈ plan.oldMailboxes := by
          rw [hf.2.oldMailboxes, Db.mem_mailboxesOf]
          exact ⟨r, hr, hemail.symm, hro⟩
        have hchanged : plan.seenChanged = true := by
          unfold UpdatePlan.seenChanged
          by_cases h : "$seen" ∈ plan.oldKeywords <;> by_cases h' : "$seen" ∈ plan.newKeywords <;> simp_all
        rw [UpdatePlan.recounted, List.mem_append, SortedSet.mem_elems, SortedSet.mem_symmetricDifference,
          if_pos hchanged, SortedSet.mem_elems]
        tauto
      | destroy row' => exact absurd (Option.some.inj hemail) (hkept row' rfl)
      | leave email mailbox =>
        rw [Event.apply, Db.leaveMailbox_eq]
        rfl
      | _ => cases hemail
    · rw [(hf.untouched hs hle hemail).1]
  · simp only [beq_eq_false_iff_ne]
    omega
  · simpa using hkept row' h

/-- **An event shows nothing new of an object it offers no row for.** -/
theorem Event.Fits.shown (hf : e.Fits a m dying db) (hs : Sound a m dying db) {k : ObjectKind}
    (ho : o ∈ db.objects x k) (hdying : k = .mailbox → dying ≠ some o)
    (hno : ∀ c ∈ e.log a m db, c.kind = k → c.objectId ≠ o) :
        (e.apply a m db).shown x k o = db.shown x k o := by
  have hle := hs.linked.objects_le ho
  cases k with
  | email =>
    refine congrArg (List.map Shown.email) ?_
    have hemail : e.email? ≠ some o := by
      intro hemail
      have hrow : ∃ change, (⟨a, m, .email, o, change⟩ : ChangeRow) ∈ e.log a m db := by
        cases e with
        | update plan =>
          cases hemail
          exact ⟨_, List.mem_cons_self⟩
        | destroy row =>
          cases hemail
          exact ⟨_, List.mem_cons_self⟩
        | leave email mailbox =>
          cases hemail
          exact ⟨_, List.mem_cons_self⟩
        | _ => cases hemail
      obtain ⟨change, hrow⟩ := hrow
      exact hno _ hrow rfl rfl
    obtain ⟨hk, hm⟩ := hf.untouched hs hle hemail
    refine emailsById_congr (hf.filter_emails hs (fun _ => rfl) (fun p ids _ => ?_) fun row h => ?_) hk hm
    · have : db.emailSeq + 1 ≠ o := fun h => by
        change o ≤ db.emailSeq at hle
        omega
      simp [this]
    · subst h
      have : row.id ≠ o := fun h => hemail (h ▸ rfl)
      simp [this]
  | thread =>
    refine congrArg (fun ids => [Shown.thread ids])
      (threadEmails_congr (hf.filter_emails hs (fun _ => rfl) (fun p ids h => ?_) fun row h => ?_))
    · subst h
      have : db.threadIdFor p ≠ o := hno ⟨p.accountId, m, .thread, db.threadIdFor p,
        _⟩ (List.mem_append_right _
        (List.mem_cons_of_mem _ (List.mem_singleton_self _))) rfl
      simp [Incoming.row, this]
    · subst h
      have : row.threadId ≠ o := hno ⟨a, m, .thread, row.threadId, _⟩ (List.mem_cons_of_mem _
        (List.mem_append_right _ (List.mem_singleton_self _))) rfl
      simp [this]
  | mailbox =>
    refine shown_mailbox_congr (hf.filter_mailboxes hs (fun row h => ?_) fun id u h => ?_)
      (hf.emailIdsIn hs (hdying rfl) hno) fun email hin => hf.member_same hs hno hin
    · subst h
      exact hno _ (List.mem_singleton_self _) rfl
    · subst h
      exact hno _ (List.mem_singleton_self _) rfl

theorem shown_insertAccount (new : NewAccount) (k : ObjectKind) :
    (db.insertAccount new).shown x k o = db.shown x k o := by
  cases k <;> rfl

theorem shown_bump (k : ObjectKind) : (db.bumpModseq a).shown x k o = db.shown x k o := by
  cases k <;> rfl

/-- The other objects when a mailbox that holds nothing goes. -/
theorem shown_drop {b : Int} (hd : db.Droppable a b) {k : ObjectKind} (hne : (k, o) ≠ (.mailbox, b)) :
    (db.dropMailbox a m b).shown x k o = db.shown x k o := by
  have hmembers : deleteWhere (fun r : MembershipRow => r.mailboxId == b) db.emailMailboxes =
      db.emailMailboxes :=
    deleteWhere_eq_self fun r hr => by simpa using hd.empty r hr
  rw [Db.dropMailbox_eq, hmembers]
  cases k with
  | mailbox =>
    refine shown_mailbox_congr (congrArg _ ?_) rfl fun e _ => ⟨rfl, rfl⟩
    rw [deleteWhere, List.filter_filter]
    refine List.filter_congr fun r _ => ?_
    by_cases hr : r.id = o
    · have : o ≠ b := fun h => hne (h ▸ rfl)
      simp [hr, this]
    · simp [hr]
  | _ => rfl

end Events

end UwuMail.Store
