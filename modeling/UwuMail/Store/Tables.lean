/-
# The tables after each write

The writes of `mail.rs` and `mutate.rs` are loops of statements.  Here every one of them gets a
CLOSED FORM: one equation that says what each table holds afterwards, without a loop.  Everything
later is proved from these equations; none of the definitions of the model is unfolded again.

Three shapes recur.  The change log is `insertAll` of the rows the write offers, in its order.
The table of mailboxes is mapped by `enterRow` (a message came in: the next UID is used up) and
`touchRow` (the mailbox's own modseq moves).  The memberships that go leave their UIDs behind by
`vanishAll`.
-/
import UwuMail.Store.Imap

namespace UwuMail.Store

open Table

/-! ## 1. Rows of `mailboxes` -/

/-- The mailbox's own modseq moves. -/
def touchRow (modseq : Int) (ids : List Int) (r : MailboxRow) : MailboxRow :=
  if r.id ∈ ids then { r with updatedModseq := max r.updatedModseq modseq } else r

/-- The same where the mailbox is known to be behind. -/
def setRow (modseq : Int) (ids : List Int) (r : MailboxRow) : MailboxRow :=
  if r.id ∈ ids then { r with updatedModseq := modseq } else r

/-- A message came in. -/
def enterRow (modseq : Int) (ids : List Int) (r : MailboxRow) : MailboxRow :=
  if r.id ∈ ids then { r with uidNext := r.uidNext + 1, updatedModseq := modseq } else r

@[simp] theorem touchRow_id (m : Int) (ids : List Int) (r : MailboxRow) :
    (touchRow m ids r).id = r.id := by
  unfold touchRow; split <;> rfl

@[simp] theorem setRow_id (m : Int) (ids : List Int) (r : MailboxRow) :
    (setRow m ids r).id = r.id := by
  unfold setRow; split <;> rfl

@[simp] theorem enterRow_id (m : Int) (ids : List Int) (r : MailboxRow) :
    (enterRow m ids r).id = r.id := by
  unfold enterRow; split <;> rfl

@[simp] theorem touchRow_accountId (m : Int) (ids : List Int) (r : MailboxRow) :
    (touchRow m ids r).accountId = r.accountId := by
  unfold touchRow; split <;> rfl

@[simp] theorem setRow_accountId (m : Int) (ids : List Int) (r : MailboxRow) :
    (setRow m ids r).accountId = r.accountId := by
  unfold setRow; split <;> rfl

@[simp] theorem enterRow_accountId (m : Int) (ids : List Int) (r : MailboxRow) :
    (enterRow m ids r).accountId = r.accountId := by
  unfold enterRow; split <;> rfl

@[simp] theorem touchRow_parentId (m : Int) (ids : List Int) (r : MailboxRow) :
    (touchRow m ids r).parentId = r.parentId := by
  unfold touchRow; split <;> rfl

@[simp] theorem setRow_parentId (m : Int) (ids : List Int) (r : MailboxRow) :
    (setRow m ids r).parentId = r.parentId := by
  unfold setRow; split <;> rfl

@[simp] theorem enterRow_parentId (m : Int) (ids : List Int) (r : MailboxRow) :
    (enterRow m ids r).parentId = r.parentId := by
  unfold enterRow; split <;> rfl

theorem touchRow_nil (m : Int) : touchRow m [] = id := by
  funext r
  simp [touchRow]

theorem enterRow_nil (m : Int) : enterRow m [] = id := by
  funext r
  simp [enterRow]

/-- Only which mailboxes are in the list counts. -/
theorem touchRow_congr {m : Int} {ids ids' : List Int} (h : ∀ id, id ∈ ids ↔ id ∈ ids') :
    touchRow m ids = touchRow m ids' := by
  funext r
  simp [touchRow, h]

theorem touchRow_comp (m : Int) (ids ids' : List Int) :
    touchRow m ids' ∘ touchRow m ids = touchRow m (ids ++ ids') := by
  funext r
  simp only [Function.comp_apply, touchRow, List.mem_append]
  by_cases h : r.id ∈ ids <;> by_cases h' : r.id ∈ ids' <;> simp [h, h']

theorem setRow_comp (m : Int) (ids ids' : List Int) :
    setRow m ids' ∘ setRow m ids = setRow m (ids ++ ids') := by
  funext r
  simp only [Function.comp_apply, setRow, List.mem_append]
  by_cases h : r.id ∈ ids <;> by_cases h' : r.id ∈ ids' <;> simp [h, h']

theorem enterRow_comp (m b : Int) (ids : List Int) (hb : b ∉ ids) :
    enterRow m ids ∘ enterRow m [b] = enterRow m (b :: ids) := by
  funext r
  simp only [Function.comp_apply, enterRow, List.mem_cons, List.not_mem_nil, or_false]
  by_cases h : r.id = b
  · subst h
    simp [hb]
  · simp [h]

/-- Moving the modseq of the mailbox that was just entered changes nothing more. -/
theorem touchRow_enterRow (m b : Int) : touchRow m [b] ∘ enterRow m [b] = enterRow m [b] := by
  funext r
  simp only [Function.comp_apply, touchRow, enterRow_id, List.mem_singleton]
  by_cases h : r.id = b <;> simp [enterRow, h]

/-! ## 2. The change log -/

namespace Db

/-- The mailboxes a change of an object shows in. -/
def shownIn (db : Db) : ObjectKind → Int → List Int
  | .mailbox, id => [id]
  | .email, id => db.mailboxIdsOf id
  | .thread, _ => []

theorem recordChange_eq (db : Db) (account modseq : Int) (kind : ObjectKind) (id : Int)
    (change : ChangeType) :
    db.recordChange account modseq kind id change =
      { db with
        changes := insertOrIgnore ChangeRow.key ⟨account, modseq, kind, id, change⟩ db.changes
        mailboxes := db.mailboxes.map (touchRow modseq (db.shownIn kind id)) } := by
  cases kind with
  | mailbox =>
    simp only [recordChange, moveModseq, touchMailboxes, updateMailboxes, updateWhere, shownIn]
    congr 1
    refine List.map_congr_left fun r _ => ?_
    simp [touchRow]
  | email =>
    simp only [recordChange, moveModseq, touchMailboxes, updateMailboxes, updateWhere, shownIn]
    congr 1
    refine List.map_congr_left fun r _ => ?_
    simp only [touchRow, List.contains_iff_mem]
    rfl
  | thread =>
    simp only [recordChange, moveModseq, shownIn, touchRow_nil, List.map_id]

/-- The rows of the change log for a list of mailboxes. -/
def mailboxRows (account modseq : Int) (ids : List Int) : List ChangeRow :=
  ids.map fun id => ⟨account, modseq, .mailbox, id, .updated⟩

/-- The loop that records a change of every mailbox in a list. -/
theorem foldl_recordChange_eq (account modseq : Int) (ids : List Int) (db : Db) :
    ids.foldl (fun db id => db.recordChange account modseq .mailbox id .updated) db =
      { db with
        changes := insertAll ChangeRow.key (mailboxRows account modseq ids) db.changes
        mailboxes := db.mailboxes.map (touchRow modseq ids) } := by
  induction ids generalizing db with
  | nil => simp [mailboxRows, touchRow_nil]
  | cons id ids ih =>
    rw [List.foldl_cons, ih, recordChange_eq]
    simp only [shownIn, List.map_map, touchRow_comp, List.singleton_append]
    rfl

/-! ## 3. UIDs that leave -/

/-- The modseq a removal from a mailbox is stamped with: the one its account stands at. -/
def stampOf (accounts : List AccountRow) (t : List MailboxRow) (mailbox : Int) : Option Int :=
  (t.find? fun r => r.id == mailbox).bind fun m =>
    (accounts.find? fun r => r.id == m.accountId).map (·.modseq)

/-- The row of `imap_vanished` a removed membership leaves. -/
def vanishedRow (stamp : Int → Option Int) (r : MembershipRow) : Option VanishedRow :=
  (stamp r.mailboxId).map fun modseq => ⟨r.mailboxId, r.uid, modseq⟩

def vanishAll (stamp : Int → Option Int) (rows : List MembershipRow) (t : List VanishedRow) :
    List VanishedRow :=
  replaceAll VanishedRow.key (rows.filterMap (vanishedRow stamp)) t

theorem vanishAll_append (stamp : Int → Option Int) (rows rows' : List MembershipRow)
    (t : List VanishedRow) :
    vanishAll stamp (rows ++ rows') t = vanishAll stamp rows' (vanishAll stamp rows t) := by
  rw [vanishAll, List.filterMap_append, replaceAll_append]
  rfl

/-- What is in `imap_vanished` after memberships left that are all stamped with `m`. -/
theorem mem_vanishAll {stamp : Int → Option Int} {rows : List MembershipRow} {t : List VanishedRow}
    {m : Int} (hm : ∀ r ∈ rows, stamp r.mailboxId = some m) (v : VanishedRow) :
    v ∈ vanishAll stamp rows t ↔
      (v ∈ t ∧ ∀ r ∈ rows, ¬(r.mailboxId = v.mailboxId ∧ r.uid = v.uid)) ∨
        (v.modseq = m ∧ ∃ r ∈ rows, r.mailboxId = v.mailboxId ∧ r.uid = v.uid) := by
  have hmem : ∀ w : VanishedRow, w ∈ rows.filterMap (vanishedRow stamp) ↔
      w.modseq = m ∧ ∃ r ∈ rows, r.mailboxId = w.mailboxId ∧ r.uid = w.uid := by
    intro w
    simp only [List.mem_filterMap, vanishedRow]
    constructor
    · rintro ⟨r, hr, hw⟩
      rw [hm r hr] at hw
      simp only [Option.map_some, Option.some.injEq] at hw
      subst hw
      exact ⟨rfl, r, hr, rfl, rfl⟩
    · rintro ⟨hw, r, hr, hb, hu⟩
      refine ⟨r, hr, ?_⟩
      rw [hm r hr, ← hw, hb, hu]
      rfl
  rw [vanishAll, mem_replaceAll, hmem]
  · refine or_congr (and_congr_right fun _ => ?_) Iff.rfl
    constructor
    · rintro hno r hr ⟨hb, hu⟩
      refine hno ⟨r.mailboxId, r.uid, m⟩ ((hmem _).2 ⟨rfl, r, hr, rfl, rfl⟩) ?_
      simp [VanishedRow.key, hb, hu]
    · intro hno w hw hk
      obtain ⟨-, r, hr, hb, hu⟩ := (hmem w).1 hw
      simp only [VanishedRow.key, Prod.mk.injEq] at hk
      exact hno r hr ⟨hb.trans hk.1, hu.trans hk.2⟩
  · intro w₁ h₁ w₂ h₂ hk
    have hm₁ := ((hmem w₁).1 h₁).1
    have hm₂ := ((hmem w₂).1 h₂).1
    obtain ⟨b₁, u₁, m₁⟩ := w₁
    obtain ⟨b₂, u₂, m₂⟩ := w₂
    simp only [VanishedRow.key, Prod.mk.injEq] at hk
    simp_all

/-- A row of `imap_vanished` was there, or is one that left. -/
theorem mem_vanishAll_imp {stamp : Int → Option Int} {rows : List MembershipRow}
    {t : List VanishedRow} {v : VanishedRow} (h : v ∈ vanishAll stamp rows t) :
    v ∈ t ∨ ∃ r ∈ rows, r.mailboxId = v.mailboxId ∧ r.uid = v.uid := by
  induction rows generalizing t with
  | nil => exact .inl h
  | cons r rows ih =>
    rw [← List.singleton_append, vanishAll_append] at h
    rcases ih h with h | ⟨r', hr', hb⟩
    · simp only [vanishAll, List.filterMap_cons, List.filterMap_nil, vanishedRow] at h
      cases hs : stamp r.mailboxId with
      | none =>
        rw [hs] at h
        exact .inl h
      | some m =>
        rw [hs] at h
        rcases mem_insertOrReplace.1 h with ⟨h, -⟩ | rfl
        · exact .inl h
        · exact .inr ⟨r, List.mem_cons_self, rfl, rfl⟩
    · exact .inr ⟨r', List.mem_cons_of_mem _ hr', hb⟩

theorem foldl_vanish_eq (rows : List MembershipRow) (db : Db) :
    rows.foldl vanish db =
      { db with imapVanished := vanishAll (stampOf db.accounts db.mailboxes) rows db.imapVanished } := by
  induction rows generalizing db with
  | nil => rfl
  | cons r rows ih =>
    rw [List.foldl_cons, ih, ← List.singleton_append, vanishAll_append]
    have hv : db.vanish r =
        { db with imapVanished := vanishAll (stampOf db.accounts db.mailboxes) [r] db.imapVanished } := by
      simp only [vanish, vanishAll, vanishedRow, stampOf, List.filterMap_cons, List.filterMap_nil,
        Db.mailbox, Db.modseqOf, Db.account]
      split
      · rename_i h
        rw [h]
        rfl
      · rename_i h
        rw [h]
        rfl
    rw [hv]

theorem deleteEmailMailboxes_eq (p : MembershipRow → Bool) (db : Db) :
    db.deleteEmailMailboxes p =
      { db with
        emailMailboxes := deleteWhere p db.emailMailboxes
        imapVanished := vanishAll (stampOf db.accounts db.mailboxes) (db.emailMailboxes.filter p)
          db.imapVanished } := by
  rw [deleteEmailMailboxes, foldl_vanish_eq]

/-- Taking one email out of several mailboxes, one after the other. -/
theorem foldl_deleteEmailMailboxes_eq (email : Int) (ids : List Int) (db : Db) :
    ∃ gone, (∀ r, r ∈ gone ↔ r ∈ db.emailMailboxes ∧ r.emailId = email ∧ r.mailboxId ∈ ids) ∧
      ids.foldl
          (fun db id => db.deleteEmailMailboxes fun r => r.emailId == email && r.mailboxId == id) db =
        { db with
          emailMailboxes :=
            deleteWhere (fun r => r.emailId == email && decide (r.mailboxId ∈ ids)) db.emailMailboxes
          imapVanished := vanishAll (stampOf db.accounts db.mailboxes) gone db.imapVanished } := by
  induction ids generalizing db with
  | nil => exact ⟨[], by simp, by simp [deleteWhere, vanishAll]⟩
  | cons id ids ih =>
    rw [List.foldl_cons, deleteEmailMailboxes_eq]
    obtain ⟨gone, hgone, heq⟩ := ih
      { db with
        emailMailboxes := deleteWhere (fun r => r.emailId == email && r.mailboxId == id) db.emailMailboxes
        imapVanished :=
          vanishAll (stampOf db.accounts db.mailboxes)
            (db.emailMailboxes.filter fun r => r.emailId == email && r.mailboxId == id) db.imapVanished }
    refine ⟨db.emailMailboxes.filter (fun r => r.emailId == email && r.mailboxId == id) ++ gone, ?_, ?_⟩
    · intro r
      simp only [List.mem_append, List.mem_filter, hgone, mem_deleteWhere]
      by_cases hid : r.mailboxId = id <;> simp_all
    · rw [heq, vanishAll_append]
      simp only [deleteWhere, List.filter_filter]
      congr 1
      refine List.filter_congr fun r _ => ?_
      by_cases h₁ : r.emailId = email <;> by_cases h₂ : r.mailboxId = id <;> simp [h₁, h₂]

/-! ## 4. Messages that come in -/

/-- The UID a mailbox gives out next. -/
def uidNextIn (t : List MailboxRow) (mailbox : Int) : Int :=
  ((t.find? fun r => r.id == mailbox).map (·.uidNext)).getD 0

/-- The memberships of one email in a list of mailboxes. -/
def entries (t : List MailboxRow) (email modseq : Int) (ids : List Int) : List MembershipRow :=
  ids.map fun id => ⟨email, id, uidNextIn t id, modseq⟩

/-- The same, for the history. -/
def assignments (t : List MailboxRow) (email : Int) (ids : List Int) : List Assignment :=
  ids.map fun id => ⟨id, uidNextIn t id, email⟩

variable {db : Db}

theorem addToMailbox_eq {email mailbox modseq : Int}
    (h : ∃ r ∈ db.mailboxes, r.id = mailbox) :
    db.addToMailbox email mailbox modseq =
      { db with
        emailMailboxes := db.emailMailboxes ++ entries db.mailboxes email modseq [mailbox]
        assigned := db.assigned ++ assignments db.mailboxes email [mailbox]
        mailboxes := db.mailboxes.map (enterRow modseq [mailbox]) } := by
  have hsome : (db.mailbox mailbox).isSome := by
    obtain ⟨r, hr, hid⟩ := h
    exact List.find?_isSome.2 ⟨r, hr, by simpa using hid⟩
  obtain ⟨row, hrow⟩ := Option.isSome_iff_exists.1 hsome
  have hnext : uidNextIn db.mailboxes mailbox = row.uidNext := by
    unfold Db.mailbox at hrow
    rw [uidNextIn, hrow]
    rfl
  simp only [addToMailbox, hrow, updateMailboxes, updateWhere, entries, assignments, hnext,
    List.map_cons, List.map_nil]
  congr 1
  refine List.map_congr_left fun r _ => ?_
  simp [enterRow]

variable {t : List MailboxRow}

/-- Storing in one mailbox does not change the next UID of another. -/
theorem uidNextIn_enterRow {modseq b id : Int} (h : id ≠ b) :
    uidNextIn (t.map (enterRow modseq [b])) id = uidNextIn t id := by
  unfold uidNextIn
  rw [List.find?_map]
  have hp : ((fun r : MailboxRow => r.id == id) ∘ enterRow modseq [b]) = fun r => r.id == id := by
    funext r
    simp
  rw [hp]
  cases hm : t.find? fun r => r.id == id with
  | none => rfl
  | some row =>
    have hid : row.id = id := by simpa using List.find?_some hm
    simp [enterRow, hid, h]

variable {ids : List Int}

theorem entries_cons {email modseq b : Int} (hb : b ∉ ids) :
    entries t email modseq [b] ++ entries (t.map (enterRow modseq [b])) email modseq ids =
      entries t email modseq (b :: ids) := by
  simp only [entries, List.map_cons, List.map_nil, List.singleton_append]
  congr 1
  refine List.map_congr_left fun id hid => ?_
  have hne : id ≠ b := fun e => hb (e ▸ hid)
  rw [uidNextIn_enterRow hne]

theorem assignments_cons {email modseq b : Int}
    (hb : b ∉ ids) :
    assignments t email [b] ++ assignments (t.map (enterRow modseq [b])) email ids =
      assignments t email (b :: ids) := by
  simp only [assignments, List.map_cons, List.map_nil, List.singleton_append]
  congr 1
  refine List.map_congr_left fun id hid => ?_
  have hne : id ≠ b := fun e => hb (e ▸ hid)
  rw [uidNextIn_enterRow hne]

theorem exists_mem_map_enterRow {modseq id : Int}
    (h : ∃ r ∈ t, r.id = id) : ∃ r ∈ t.map (enterRow modseq ids), r.id = id := by
  obtain ⟨r, hr, rfl⟩ := h
  exact ⟨enterRow modseq ids r, List.mem_map_of_mem hr, enterRow_id modseq ids r⟩

/-- The loop of `update_one` over the mailboxes an email comes into. -/
theorem foldl_addToMailbox_eq {email modseq : Int} (hnd : ids.Nodup)
    (h : ∀ id ∈ ids, ∃ r ∈ db.mailboxes, r.id = id) :
    ids.foldl (fun db id => db.addToMailbox email id modseq) db =
      { db with
        emailMailboxes := db.emailMailboxes ++ entries db.mailboxes email modseq ids
        assigned := db.assigned ++ assignments db.mailboxes email ids
        mailboxes := db.mailboxes.map (enterRow modseq ids) } := by
  induction ids generalizing db with
  | nil => simp [entries, assignments, enterRow_nil]
  | cons b ids ih =>
    obtain ⟨hb, hnd⟩ := List.nodup_cons.1 hnd
    rw [List.foldl_cons, addToMailbox_eq (h b (by simp)), ih hnd]
    · simp only [List.append_assoc, entries_cons hb, assignments_cons hb, List.map_map,
        enterRow_comp modseq b ids hb]
    · exact fun id hid => exists_mem_map_enterRow (h id (by simp [hid]))

/-- The loop of `ingest_marked` over the mailboxes of a message. -/
theorem foldl_storeIn_eq {account email modseq : Int} (hnd : ids.Nodup)
    (h : ∀ id ∈ ids, ∃ r ∈ db.mailboxes, r.id = id) :
    ids.foldl (storeIn account modseq email) db =
      { db with
        emailMailboxes := db.emailMailboxes ++ entries db.mailboxes email modseq ids
        assigned := db.assigned ++ assignments db.mailboxes email ids
        mailboxes := db.mailboxes.map (enterRow modseq ids)
        changes := insertAll ChangeRow.key (mailboxRows account modseq ids) db.changes } := by
  induction ids generalizing db with
  | nil => simp [entries, assignments, enterRow_nil, mailboxRows]
  | cons b ids ih =>
    obtain ⟨hb, hnd⟩ := List.nodup_cons.1 hnd
    have hone : storeIn account modseq email db b =
        { db with
          emailMailboxes := db.emailMailboxes ++ entries db.mailboxes email modseq [b]
          assigned := db.assigned ++ assignments db.mailboxes email [b]
          mailboxes := db.mailboxes.map (enterRow modseq [b])
          changes := insertAll ChangeRow.key (mailboxRows account modseq [b]) db.changes } := by
      rw [storeIn, addToMailbox_eq (h b (by simp)), recordChange_eq]
      simp only [shownIn, List.map_map, touchRow_enterRow]
      rfl
    rw [List.foldl_cons, hone, ih hnd]
    · simp only [List.append_assoc, entries_cons hb, assignments_cons hb, List.map_map,
        enterRow_comp modseq b ids hb]
      rfl
    · exact fun id hid => exists_mem_map_enterRow (h id (by simp [hid]))

/-! ## 5. The writes as a whole -/

theorem foldl_insertKeyword_eq (email : Int) (keywords : List String) (db : Db) :
    keywords.foldl (fun db keyword => db.insertKeyword email keyword) db =
      { db with emailKeywords := insertAll id (keywords.map (KeywordRow.mk email)) db.emailKeywords } := by
  induction keywords generalizing db with
  | nil => rfl
  | cons k keywords ih =>
    rw [List.foldl_cons, ih]
    rfl

theorem foldl_deleteKeyword_eq (email : Int) (keywords : List String) (db : Db) :
    keywords.foldl (fun db keyword => db.deleteKeyword email keyword) db =
      { db with
        emailKeywords :=
          deleteWhere (fun r => r.emailId == email && decide (r.keyword ∈ keywords))
            db.emailKeywords } := by
  induction keywords generalizing db with
  | nil => simp [deleteWhere]
  | cons k keywords ih =>
    rw [List.foldl_cons, ih]
    simp only [deleteKeyword, deleteWhere, List.filter_filter]
    congr 1
    refine List.filter_congr fun r _ => ?_
    by_cases h₁ : r.emailId = email <;> by_cases h₂ : r.keyword = k <;> simp [h₁, h₂]

theorem foldl_insertMessageId_eq (account thread : Int) (ids : List String) (db : Db) :
    ids.foldl (fun db id => db.insertMessageId account thread id) db =
      { db with
        threadMessageIds :=
          insertAll MessageIdRow.key (ids.map fun id => ⟨account, id, thread⟩)
            db.threadMessageIds } := by
  induction ids generalizing db with
  | nil => rfl
  | cons id ids ih =>
    rw [List.foldl_cons, ih]
    rfl

/-- The thread a message is stored in. -/
def threadIdFor (db : Db) (p : Incoming) : Int :=
  (db.threadFor p.accountId p.info).getD (db.threadSeq + 1)

/-- Whether a message starts a thread. -/
def startsThread (db : Db) (p : Incoming) : Bool := (db.threadFor p.accountId p.info).isNone

/-- The rows `ingest_marked` offers to the change log. -/
def storeLog (db : Db) (p : Incoming) (ids : List Int) (modseq : Int) : List ChangeRow :=
  mailboxRows p.accountId modseq ids ++
    [⟨p.accountId, modseq, .email, db.emailSeq + 1, .created⟩,
     ⟨p.accountId, modseq, .thread, db.threadIdFor p,
       if db.startsThread p then .created else .updated⟩]

/-- Every mailbox that is entered holds the email already, so the row of the change log for the
email moves no other mailbox. -/
theorem touchRow_comp_enterRow {modseq : Int} {ids ids' : List Int}
    (h : ∀ id, id ∈ ids' ↔ id ∈ ids) : touchRow modseq ids' ∘ enterRow modseq ids = enterRow modseq ids := by
  funext r
  by_cases hr : r.id ∈ ids
  · simp [touchRow, enterRow, h, hr]
  · simp [touchRow, enterRow, h, hr]

/-- What a new message leaves in each table.  `hnew` says that no email has the new id yet. -/
theorem storeEmail_eq {p : Incoming} {modseq : Int} (hnd : ids.Nodup)
    (h : ∀ id ∈ ids, ∃ r ∈ db.mailboxes, r.id = id)
    (hnew : ∀ r ∈ db.emailMailboxes, r.emailId ≠ db.emailSeq + 1) :
    db.storeEmail p ids modseq =
      { db with
        accounts := updateWhere (fun r => r.id == p.accountId)
          (fun r => { r with usedBytes := r.usedBytes + p.size }) db.accounts
        threads := db.threads ++
          if db.startsThread p then [⟨db.threadSeq + 1, p.accountId⟩] else []
        threadSeq := if db.startsThread p then db.threadSeq + 1 else db.threadSeq
        emails := db.emails ++ [{ p.row (db.threadIdFor p) modseq with id := db.emailSeq + 1 }]
        emailSeq := db.emailSeq + 1
        emailMailboxes := db.emailMailboxes ++ entries db.mailboxes (db.emailSeq + 1) modseq ids
        assigned := db.assigned ++ assignments db.mailboxes (db.emailSeq + 1) ids
        mailboxes := db.mailboxes.map (enterRow modseq ids)
        emailKeywords :=
          insertAll id (p.keywords.map (KeywordRow.mk (db.emailSeq + 1))) db.emailKeywords
        threadMessageIds :=
          insertAll MessageIdRow.key
            (p.info.messageIds.map fun m => ⟨p.accountId, m, db.threadIdFor p⟩) db.threadMessageIds
        emailFts := db.emailFts ++
          [⟨db.emailSeq + 1, p.info.subject, p.info.searchAddresses, p.info.searchBody⟩]
        changes := insertAll ChangeRow.key (db.storeLog p ids modseq) db.changes } := by
  have hshown : ∀ id, id ∈ (List.filter (fun r => r.emailId == db.emailSeq + 1)
      (db.emailMailboxes ++ entries db.mailboxes (db.emailSeq + 1) modseq ids)).map (·.mailboxId) ↔
        id ∈ ids := by
    intro id
    have hold : db.emailMailboxes.filter (fun r => r.emailId == db.emailSeq + 1) = [] :=
      List.filter_eq_nil_iff.2 fun r hr => by simpa using hnew r hr
    rw [List.filter_append, hold, List.nil_append]
    simp [entries]
  cases hfound : db.threadFor p.accountId p.info with
  | none =>
    simp only [storeEmail, hfound, Option.isSome_none, Bool.false_eq_true, if_false]
    rw [foldl_storeIn_eq hnd (by exact h), foldl_insertKeyword_eq, foldl_insertMessageId_eq, recordChange_eq,
      recordChange_eq]
    simp only [insertEmail, insertThread, insertFts, addUsed, updateAccount, shownIn, mailboxIdsOf,
      List.map_map, touchRow_nil, touchRow_comp_enterRow hshown, startsThread, threadIdFor, storeLog,
      hfound, Option.isNone_none, if_true, Option.getD_none, insertAll_append]
    rfl
  | some thread =>
    simp only [storeEmail, hfound, Option.isSome_some, if_true]
    rw [foldl_storeIn_eq hnd (by exact h), foldl_insertKeyword_eq, foldl_insertMessageId_eq, recordChange_eq,
      recordChange_eq]
    simp only [insertEmail, insertFts, addUsed, updateAccount, shownIn, mailboxIdsOf,
      List.map_map, touchRow_nil, touchRow_comp_enterRow hshown, startsThread, threadIdFor, storeLog,
      hfound, Option.isNone_some, Bool.false_eq_true, if_false, Option.getD_some, insertAll_append,
      List.append_nil]
    rfl

/-- A mapping that keeps ids and owners keeps the stamps. -/
theorem stampOf_map {accounts : List AccountRow} {f : MailboxRow → MailboxRow}
    (hid : ∀ r, (f r).id = r.id) (hacc : ∀ r, (f r).accountId = r.accountId) :
    stampOf accounts (t.map f) = stampOf accounts t := by
  funext b
  have hp : ((fun r : MailboxRow => r.id == b) ∘ f) = fun r => r.id == b := by
    funext r
    simp [hid]
  simp only [stampOf, List.find?_map, hp]
  cases t.find? fun r => r.id == b with
  | none => rfl
  | some row => simp [hacc]

theorem mem_mailboxIdsOf {email id : Int} :
    id ∈ db.mailboxIdsOf email ↔ ∃ r ∈ db.emailMailboxes, r.emailId = email ∧ r.mailboxId = id := by
  simp only [mailboxIdsOf, List.mem_map, List.mem_filter, beq_iff_eq]
  constructor
  · rintro ⟨r, ⟨hr, he⟩, hb⟩
    exact ⟨r, hr, he, hb⟩
  · rintro ⟨r, hr, he, hb⟩
    exact ⟨r, ⟨hr, he⟩, hb⟩

theorem mem_mailboxesOf {email id : Int} :
    id ∈ db.mailboxesOf email ↔ ∃ r ∈ db.emailMailboxes, r.emailId = email ∧ r.mailboxId = id := by
  rw [mailboxesOf, SortedSet.mem_ofList, mem_mailboxIdsOf]

theorem mem_keywordsOf {email : Int} {keyword : String} :
    keyword ∈ db.keywordsOf email ↔ ⟨email, keyword⟩ ∈ db.emailKeywords := by
  simp only [keywordsOf, SortedSet.mem_ofList, List.mem_map, List.mem_filter, beq_iff_eq]
  constructor
  · rintro ⟨r, ⟨hr, rfl⟩, rfl⟩
    exact hr
  · intro h
    exact ⟨⟨email, keyword⟩, ⟨h, rfl⟩, rfl⟩

/-- The rows `update_one` offers to the change log. -/
def updateLog (account modseq : Int) (p : UpdatePlan) : List ChangeRow :=
  ⟨account, modseq, .email, p.email, .updated⟩ :: mailboxRows account modseq p.recounted

/-- The memberships an update leaves. -/
def updatedMembers (t : List MailboxRow) (modseq : Int) (p : UpdatePlan) (rows : List MembershipRow) :
    List MembershipRow :=
  updateWhere (fun r => r.emailId == p.email) (fun r => { r with modseq })
      (deleteWhere (fun r => r.emailId == p.email && decide (r.mailboxId ∈ p.left)) rows) ++
    entries t p.email modseq p.entered.elems

/-- What an update leaves in each table. -/
theorem applyUpdate_eq (account modseq : Int) {p : UpdatePlan}
    (hold : p.oldMailboxes = db.mailboxesOf p.email)
    (h : ∀ id ∈ p.entered, ∃ r ∈ db.mailboxes, r.id = id) :
    ∃ gone, (∀ r, r ∈ gone ↔ r ∈ db.emailMailboxes ∧ r.emailId = p.email ∧ r.mailboxId ∈ p.left) ∧
      db.applyUpdate account modseq p =
        { db with
          emails :=
            updateWhere (fun r => r.id == p.email) (fun r => { r with updatedModseq := modseq }) db.emails
          emailKeywords :=
            deleteWhere
              (fun r => r.emailId == p.email &&
                decide (r.keyword ∈ (p.oldKeywords.difference p.newKeywords).elems))
              (insertAll id
                ((p.newKeywords.difference p.oldKeywords).elems.map (KeywordRow.mk p.email))
                db.emailKeywords)
          emailMailboxes := updatedMembers db.mailboxes modseq p db.emailMailboxes
          assigned := db.assigned ++ assignments db.mailboxes p.email p.entered.elems
          mailboxes := db.mailboxes.map
            (touchRow modseq (p.oldMailboxes.elems ++ p.newMailboxes.elems) ∘
              enterRow modseq p.entered.elems)
          imapVanished := vanishAll (stampOf db.accounts db.mailboxes) gone db.imapVanished
          changes := insertAll ChangeRow.key (updateLog account modseq p) db.changes } := by
  have hdisj : ∀ r ∈ entries db.mailboxes p.email modseq p.entered.elems, r.mailboxId ∉ p.left := by
    intro r hr
    obtain ⟨b, hb, rfl⟩ := List.mem_map.1 hr
    simp only [UpdatePlan.entered, SortedSet.mem_elems, SortedSet.mem_difference] at hb
    simp [UpdatePlan.left, hb.1]
  have hmembers :
      updateWhere (fun r => r.emailId == p.email) (fun r => { r with modseq })
        (deleteWhere (fun r => r.emailId == p.email && decide (r.mailboxId ∈ p.left.elems))
          (db.emailMailboxes ++ entries db.mailboxes p.email modseq p.entered.elems)) =
        updatedMembers db.mailboxes modseq p db.emailMailboxes := by
    rw [updatedMembers, deleteWhere, deleteWhere, List.filter_append, updateWhere, updateWhere,
      List.map_append]
    congr 1
    have hkeep : (entries db.mailboxes p.email modseq p.entered.elems).filter
        (fun r => !(r.emailId == p.email && decide (r.mailboxId ∈ p.left.elems))) =
          entries db.mailboxes p.email modseq p.entered.elems :=
      List.filter_eq_self.2 fun r hr => by
        have := hdisj r hr
        simp only [SortedSet.mem_elems, this]
        simp
    rw [hkeep, entries, List.map_map]
    exact List.map_congr_left fun b _ => by simp
  have hshown : ∀ id, id ∈ List.map (·.mailboxId)
      ((updatedMembers db.mailboxes modseq p db.emailMailboxes).filter (fun r => r.emailId == p.email)) ↔
        id ∈ p.newMailboxes := by
    intro id
    have hold' : ∀ b, b ∈ p.oldMailboxes ↔ ∃ r ∈ db.emailMailboxes, r.emailId = p.email ∧ r.mailboxId = b :=
      fun b => by rw [hold, mem_mailboxesOf]
    simp only [updatedMembers, List.mem_map, List.mem_filter, List.mem_append, mem_updateWhere,
      mem_deleteWhere, entries, SortedSet.mem_elems, beq_iff_eq]
    constructor
    · rintro ⟨r, ⟨⟨r₀, ⟨hr₀, hleft⟩, rfl⟩ | ⟨b, hb, rfl⟩, he⟩, rfl⟩
      · have he₀ : r₀.emailId = p.email := by
          by_contra hne
          rw [if_neg hne] at he
          exact hne he
        have hin : r₀.mailboxId ∈ p.oldMailboxes := (hold' _).2 ⟨r₀, hr₀, he₀, rfl⟩
        simp only [he₀, beq_self_eq_true, Bool.true_and, decide_eq_false_iff_not, UpdatePlan.left,
          SortedSet.mem_difference, not_and, not_not] at hleft
        simpa [he₀] using hleft hin
      · simp only [UpdatePlan.entered, SortedSet.mem_difference] at hb
        exact hb.1
    · intro hid
      by_cases hin : id ∈ p.oldMailboxes
      · obtain ⟨r, hr, he, hb⟩ := (hold' id).1 hin
        refine ⟨{ r with modseq := modseq }, ⟨Or.inl ⟨r, ⟨hr, ?_⟩, by simp [he]⟩, he⟩, hb⟩
        simp [UpdatePlan.left, hb, hid]
      · exact ⟨⟨p.email, id, uidNextIn db.mailboxes id, modseq⟩,
          ⟨Or.inr ⟨id, by simp [UpdatePlan.entered, hid, hin], rfl⟩, rfl⟩, rfl⟩
  have htouch : ∀ ids : List Int, (∀ id, id ∈ ids ↔ id ∈ p.newMailboxes) →
      touchRow modseq p.recounted ∘ touchRow modseq ids =
        touchRow modseq (p.oldMailboxes.elems ++ p.newMailboxes.elems) := by
    intro ids hids
    rw [touchRow_comp]
    refine touchRow_congr fun id => ?_
    simp only [List.mem_append, hids, UpdatePlan.recounted, SortedSet.mem_elems,
      SortedSet.mem_symmetricDifference]
    split
    · simp only [SortedSet.mem_elems]
      tauto
    · simp only [List.not_mem_nil, or_false]
      tauto
  obtain ⟨gone, hgone, hleft⟩ := foldl_deleteEmailMailboxes_eq p.email p.left.elems
    { db with
      emailKeywords :=
        deleteWhere
          (fun r => r.emailId == p.email &&
            decide (r.keyword ∈ (p.oldKeywords.difference p.newKeywords).elems))
          (insertAll id ((p.newKeywords.difference p.oldKeywords).elems.map (KeywordRow.mk p.email))
            db.emailKeywords)
      emailMailboxes := db.emailMailboxes ++ entries db.mailboxes p.email modseq p.entered.elems
      assigned := db.assigned ++ assignments db.mailboxes p.email p.entered.elems
      mailboxes := db.mailboxes.map (enterRow modseq p.entered.elems) }
  refine ⟨gone, ?_, ?_⟩
  · intro r
    rw [hgone]
    simp only [List.mem_append, SortedSet.mem_elems]
    constructor
    · rintro ⟨hr | hr, he, hb⟩
      · exact ⟨hr, he, hb⟩
      · exact absurd hb (hdisj r hr)
    · rintro ⟨hr, he, hb⟩
      exact ⟨.inl hr, he, hb⟩
  · simp only [applyUpdate]
    rw [foldl_insertKeyword_eq, foldl_deleteKeyword_eq,
      foldl_addToMailbox_eq p.entered.nodup (by exact h), hleft, foldl_recordChange_eq, recordChange_eq]
    simp only [stampEmail, updateEmail, hmembers, shownIn, mailboxIdsOf, List.map_map,
      htouch _ hshown, ← Function.comp_assoc]
    rw [stampOf_map (enterRow_id _ _) (enterRow_accountId _ _)]
    rfl

theorem mailboxUpdated_eq (account modseq id : Int) (db : Db) :
    db.mailboxUpdated account modseq id =
      { db with
        mailboxes := db.mailboxes.map (setRow modseq [id])
        changes :=
          insertOrIgnore ChangeRow.key ⟨account, modseq, .mailbox, id, .updated⟩ db.changes } := by
  rw [mailboxUpdated, recordChange_eq]
  simp only [updateMailboxes, updateWhere, shownIn, List.map_map]
  congr 1
  refine List.map_congr_left fun r _ => ?_
  by_cases h : r.id = id <;> simp [touchRow, setRow, h]

theorem setRow_nil (m : Int) : setRow m [] = id := by
  funext r
  simp [setRow]

/-- The loop of `destroy_one` over the mailboxes an email was in. -/
theorem foldl_mailboxUpdated_eq (account modseq : Int) (ids : List Int) (db : Db) :
    ids.foldl (mailboxUpdated account modseq) db =
      { db with
        mailboxes := db.mailboxes.map (setRow modseq ids)
        changes := insertAll ChangeRow.key (mailboxRows account modseq ids) db.changes } := by
  induction ids generalizing db with
  | nil => simp [mailboxRows, setRow_nil]
  | cons id ids ih =>
    rw [List.foldl_cons, ih, mailboxUpdated_eq]
    simp only [List.map_map, setRow_comp, List.singleton_append]
    rfl

/-- Whether other emails keep a thread alive when an email goes. -/
def threadSurvives (db : Db) (row : EmailRow) : Bool :=
  db.emails.any fun r => r.id != row.id && r.threadId == row.threadId

/-- The rows `destroy_one` offers to the change log. -/
def destroyLog (db : Db) (account modseq : Int) (row : EmailRow) : List ChangeRow :=
  ⟨account, modseq, .email, row.id, .destroyed⟩ ::
    (mailboxRows account modseq (db.mailboxesOf row.id).elems ++
      [⟨account, modseq, .thread, row.threadId,
        if db.threadSurvives row then .updated else .destroyed⟩])

/-- The rows of a table that go with a thread. -/
def withThread {ρ : Type} (db : Db) (row : EmailRow) (thread : ρ → Int) (t : List ρ) : List ρ :=
  if db.threadSurvives row then t else deleteWhere (fun r => thread r == row.threadId) t

/-- What destroying an email leaves in each table. -/
theorem applyDestroy_eq (account modseq : Int) (row : EmailRow) (db : Db) :
    db.applyDestroy account modseq row =
      { db with
        accounts := updateWhere (fun r => r.id == account)
          (fun r => { r with usedBytes := max 0 (r.usedBytes - row.size) }) db.accounts
        emails := deleteWhere (fun r => r.id == row.id) db.emails
        emailKeywords := deleteWhere (fun r => r.emailId == row.id) db.emailKeywords
        emailFts := deleteWhere (fun r => r.rowid == row.id) db.emailFts
        emailMailboxes := deleteWhere (fun r => r.emailId == row.id) db.emailMailboxes
        imapVanished := vanishAll (stampOf db.accounts db.mailboxes)
          (db.emailMailboxes.filter fun r => r.emailId == row.id) db.imapVanished
        mailboxes := db.mailboxes.map (setRow modseq (db.mailboxesOf row.id).elems)
        threads := db.withThread row ThreadRow.id db.threads
        threadMessageIds := db.withThread row MessageIdRow.threadId db.threadMessageIds
        changes := insertAll ChangeRow.key (db.destroyLog account modseq row) db.changes } := by
  have hgone : (deleteWhere (fun r : MembershipRow => r.emailId == row.id) db.emailMailboxes).filter
      (fun r => r.emailId == row.id) = [] := by
    simp [deleteWhere, List.filter_filter]
  have hsurv : (deleteWhere (fun r : EmailRow => r.id == row.id) db.emails).any
      (fun r => r.threadId == row.threadId) = db.threadSurvives row := by
    rw [deleteWhere, List.any_filter, threadSurvives]
    rfl
  simp only [applyDestroy, deleteEmail, deleteEmailMailboxes_eq, subUsed, updateAccount]
  rw [recordChange_eq, foldl_mailboxUpdated_eq]
  simp only [shownIn, mailboxIdsOf, hgone, List.map_nil, touchRow_nil, List.map_id, shrinkThread, hsurv]
  cases hs : db.threadSurvives row
  · simp only [Bool.false_eq_true, if_false, recordChange_eq, deleteThread, shownIn, touchRow_nil,
      List.map_id, withThread, destroyLog, hs, insertAll_cons, insertAll_append]
    rfl
  · simp only [if_true, recordChange_eq, shownIn, touchRow_nil, List.map_id, withThread, destroyLog,
      hs, insertAll_cons, insertAll_append]
    rfl

/-- What leaving a mailbox that is being destroyed leaves in each table. -/
theorem leaveMailbox_eq (account modseq email mailbox : Int) (db : Db) :
    db.leaveMailbox account modseq email mailbox =
      { db with
        emails :=
          updateWhere (fun r => r.id == email) (fun r => { r with updatedModseq := modseq }) db.emails
        emailMailboxes :=
          deleteWhere (fun r => r.emailId == email && r.mailboxId == mailbox) db.emailMailboxes
        imapVanished := vanishAll (stampOf db.accounts db.mailboxes)
          (db.emailMailboxes.filter fun r => r.emailId == email && r.mailboxId == mailbox)
          db.imapVanished
        mailboxes := db.mailboxes.map
          (touchRow modseq ((db.mailboxIdsOf email).filter fun id => id != mailbox))
        changes :=
          insertOrIgnore ChangeRow.key ⟨account, modseq, .email, email, .updated⟩ db.changes } := by
  rw [leaveMailbox, deleteEmailMailboxes_eq, recordChange_eq]
  simp only [updateEmail, shownIn, mailboxIdsOf, deleteWhere, List.filter_filter, List.filter_map]
  congr 2
  refine congrArg (touchRow modseq) (congrArg (List.map _) (List.filter_congr fun r _ => ?_))
  simp only [Function.comp_apply, bne]
  cases r.emailId == email <;> cases r.mailboxId == mailbox <;> rfl

/-- What destroying an empty mailbox leaves in each table. -/
theorem dropMailbox_eq (account modseq mailbox : Int) (db : Db) :
    db.dropMailbox account modseq mailbox =
      { db with
        accounts := updateWhere (fun r => r.id == account && db.isShared account mailbox)
          (fun r => { r with sharingModseq := max r.sharingModseq modseq }) db.accounts
        mailboxes := deleteWhere (fun r => r.id == mailbox) db.mailboxes
        emailMailboxes := deleteWhere (fun r => r.mailboxId == mailbox) db.emailMailboxes
        mailboxAcl := deleteWhere (fun r => r.mailboxId == mailbox) db.mailboxAcl
        imapVanished := deleteWhere (fun r => r.mailboxId == mailbox) db.imapVanished
        changes :=
          insertOrIgnore ChangeRow.key ⟨account, modseq, .mailbox, mailbox, .destroyed⟩
            db.changes } := by
  have htouch : (deleteWhere (fun r : MailboxRow => r.id == mailbox) db.mailboxes).map
      (touchRow modseq [mailbox]) = deleteWhere (fun r => r.id == mailbox) db.mailboxes := by
    conv_rhs => rw [← List.map_id (deleteWhere (fun r : MailboxRow => r.id == mailbox) db.mailboxes)]
    refine List.map_congr_left fun r hr => ?_
    have hne : r.id ≠ mailbox := by simpa using (mem_deleteWhere.1 hr).2
    simp [touchRow, hne]
  cases hs : db.isShared account mailbox
  · have hacc : updateWhere (fun r : AccountRow => r.id == account && false)
        (fun r => { r with sharingModseq := max r.sharingModseq modseq }) db.accounts = db.accounts := by
      simp [updateWhere]
    simp only [dropMailbox, hs, Bool.false_eq_true, if_false, recordChange_eq, deleteMailbox, shownIn,
      htouch, hacc]
  · simp only [dropMailbox, hs, if_true, recordChange_eq, deleteMailbox, shownIn, htouch,
      sharingChanged, updateAccount, Bool.and_true]

/-- The shares a folder inherits. -/
def inherited (acl : List AclRow) (id : Int) (parent : Option Int) : List AclRow :=
  match parent with
  | none => []
  | some parent => (acl.filter fun r => r.mailboxId == parent).map fun r => { r with mailboxId := id }

/-- What creating a mailbox leaves in each table. -/
theorem applyCreate_eq {account modseq : Int} {row : MailboxRow}
    (hid : row.id = db.mailboxSeq + 1) (hm : row.updatedModseq = modseq)
    (hnew : ∀ r ∈ db.mailboxes, r.id ≠ row.id) :
    db.applyCreate account modseq row =
      { db with
        mailboxes := db.mailboxes ++ [row]
        mailboxSeq := row.id
        mailboxAcl := db.mailboxAcl ++ inherited db.mailboxAcl row.id row.parentId
        changes :=
          insertOrIgnore ChangeRow.key ⟨account, modseq, .mailbox, row.id, .created⟩
            db.changes } := by
  have htouch : (db.mailboxes ++ [row]).map (touchRow modseq [row.id]) = db.mailboxes ++ [row] := by
    conv_rhs => rw [← List.map_id (db.mailboxes ++ [row])]
    refine List.map_congr_left fun r hr => ?_
    rcases List.mem_append.1 hr with hr | hr
    · simp [touchRow, hnew r hr]
    · rw [List.mem_singleton.1 hr]
      subst hm
      simp [touchRow]
  have hins : db.insertMailbox row =
      { db with mailboxes := db.mailboxes ++ [row], mailboxSeq := row.id } := by
    rw [insertMailbox, ← hid]
  rw [applyCreate, hins, ← hid]
  cases row.parentId with
  | none => simp only [inheritAcl, inherited, recordChange_eq, shownIn, htouch, List.append_nil]
  | some parent => simp only [inheritAcl, inherited, recordChange_eq, shownIn, htouch]

end Db

end UwuMail.Store
