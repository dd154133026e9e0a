/-
# Threading

`thread_message_ids` maps every message id an account has seen to a thread: ids of messages and
ids they only refer to.  It is filled by `INSERT OR IGNORE`, a message that links two threads does
not merge them, and it is cleaned only when a thread empties.  What keeps it right is the ORDER in
which `thread_for` looks ids up: a message's own id comes first, so a message whose id is known
goes where the id points, and one whose id is not known claims it.
-/
import UwuMail.Store.Run

namespace UwuMail.Store

open Table

/-- The id of every live email points to its thread. -/
def Threaded (db : Db) : Prop :=
  ∀ e ∈ db.emails, ∀ i, e.messageId = some i → ⟨e.accountId, i, e.threadId⟩ ∈ db.threadMessageIds

/-- `thread_message_ids[i]`, as `thread_for` looks it up. -/
def Db.threadOfMessageId (db : Db) (account : Int) (i : String) : Option Int :=
  (db.threadMessageIds.find? fun r => r.key == (account, i)).map (·.threadId)

section Events

variable {a m : Int} {dying : Option Int} {db : Db}

theorem Keyed.threadOfMessageId_eq (hk : Keyed db) {account thread : Int} {i : String}
    (h : ⟨account, i, thread⟩ ∈ db.threadMessageIds) :
    db.threadOfMessageId account i = some thread := by
  have hfind : (db.threadMessageIds.find? fun r => r.key == (account, i)) =
      some ⟨account, i, thread⟩ := hk.messageId.find?_eq h
  rw [Db.threadOfMessageId, hfind]
  rfl

/-- A message whose id is known goes where the id points. -/
theorem threadIdFor_of_known (hk : Keyed db) {p : Incoming} {i : String} {r : MessageIdRow}
    (hi : p.info.messageId = some i) (hr : r ∈ db.threadMessageIds) (hkey : r.key = (p.accountId, i)) :
    db.threadIdFor p = r.threadId := by
  have hids : p.info.messageIds = i :: (p.info.inReplyTo ++ p.info.references) := by
    simp [EmailMeta.messageIds, hi]
  have hfind : (db.threadMessageIds.find? fun q => q.key == (p.accountId, i)) = some r := by
    rw [← hkey]
    exact hk.messageId.find?_eq hr
  have hfound : db.threadFor p.accountId p.info = some r.threadId := by
    rw [Db.threadFor, hids, List.findSome?_cons, hfind]
    rfl
  rw [Db.threadIdFor, hfound]
  rfl

/-- Whether its id was known or not, afterwards it points to the thread of the message. -/
theorem mem_insertAll_messageId (hk : Keyed db) {p : Incoming} {i : String}
    (hi : p.info.messageId = some i) :
    ⟨p.accountId, i, db.threadIdFor p⟩ ∈ insertAll MessageIdRow.key
      (p.info.messageIds.map fun i => ⟨p.accountId, i, db.threadIdFor p⟩) db.threadMessageIds := by
  by_cases hknown : ∃ r ∈ db.threadMessageIds, r.key = (p.accountId, i)
  · obtain ⟨r, hr, hkey⟩ := hknown
    have hrow : r = ⟨p.accountId, i, db.threadIdFor p⟩ := by
      rw [threadIdFor_of_known hk hi hr hkey]
      obtain ⟨x, y, t⟩ := r
      obtain ⟨rfl, rfl⟩ := Prod.mk.inj hkey
      rfl
    exact mem_insertAll_of_mem (hrow ▸ hr)
  · push Not at hknown
    have hids : p.info.messageIds = i :: (p.info.inReplyTo ++ p.info.references) := by
      simp [EmailMeta.messageIds, hi]
    rw [hids, List.map_cons, ← List.nil_append (_ :: _)]
    exact mem_insertAll_first hknown (by simp)

theorem Threaded.store {p : Incoming} {ids : List Int} (h : Threaded db) (hs : Sound a m dying db)
    (hf : p.Fits a db ids) : Threaded (db.storeEmail p ids m) := by
  rw [Db.storeEmail_eq hf.nodup hf.mailboxes hs.linked.newEmail]
  intro e he i hi
  rcases List.mem_append.1 he with he | he
  · exact mem_insertAll_of_mem (h e he i hi)
  · rw [List.mem_singleton.1 he] at hi ⊢
    exact mem_insertAll_messageId hs.keyed hi

/-- Emails are the same but for their modseq, and the map is the same. -/
theorem Threaded.stamp {db' : Db} {email : Int} (h : Threaded db)
    (hids : db'.threadMessageIds = db.threadMessageIds)
    (hem : db'.emails =
      updateWhere (fun r => r.id == email) (fun r => { r with updatedModseq := m }) db.emails) :
    Threaded db' := by
  intro e' he' i hi
  rw [hem] at he'
  rw [hids]
  obtain ⟨e, he, rfl⟩ := mem_updateWhere.1 he'
  have hold := h e he i
  split at hi <;> split <;> exact hold hi

theorem Threaded.destroy {row : EmailRow} (h : Threaded db) : Threaded (db.applyDestroy a m row) := by
  rw [Db.applyDestroy_eq]
  intro e he i hi
  obtain ⟨he, hne⟩ := mem_deleteWhere.1 he
  have hold := h e he i hi
  show _ ∈ db.withThread row _ _
  unfold Db.withThread
  split
  · exact hold
  · rename_i hgone
    refine mem_deleteWhere.2 ⟨hold, ?_⟩
    -- Another email of the thread would have kept it.
    by_contra hsame
    refine hgone (List.any_eq_true.2 ⟨e, he, ?_⟩)
    have hsame : e.threadId = row.threadId := by simpa using hsame
    have hne : e.id ≠ row.id := by simpa using hne
    simp [hne, hsame]

theorem Event.Fits.threaded {e : Event} (hf : e.Fits a m dying db) (hs : Sound a m dying db)
    (h : Threaded db) : Threaded (e.apply a m db) := by
  cases e with
  | store p ids => exact h.store hs hf.2
  | update plan =>
    obtain ⟨gone, -, heq⟩ := Db.applyUpdate_eq a m hf.2.oldMailboxes hf.2.mailboxes
    rw [Event.apply, heq]
    exact h.stamp rfl rfl
  | destroy row => exact h.destroy
  | leave email mailbox =>
    rw [Event.apply, Db.leaveMailbox_eq]
    exact h.stamp rfl rfl
  | create row =>
    rw [Event.apply, Db.applyCreate_eq hf.2.id hf.2.updated (hf.2.new hs.linked)]
    exact h
  | alter id u =>
    rw [Event.apply, Db.mailboxUpdated_eq]
    exact h
  | share mailbox acl =>
    rw [Event.apply, Db.applyAcl, Db.recordChange_eq]
    exact h
  | members list shared => exact h

end Events

theorem threaded_runOps {ext : Externals} (ops : List StoreOp) : Threaded (runOps ext ops {}) := by
  refine runOps_invariant (fun _ _ _ h => h) (fun _ _ h => h) (fun hs _ hf h => hf.threaded hs h) ?_
    ops Intact.empty (by intro e he; simp at he)
  intro a m b db _ _ h
  rw [Db.dropMailbox_eq]
  exact h

/-- **Emails with one Message-ID are in one thread.**  In every reachable database the id of a live
email is mapped to its thread, and two live emails of an account with the same id share it. -/
theorem message_id_determines_thread (ext : Externals) (ops : List StoreOp) :
    let db := runOps ext ops {}
    (∀ e ∈ db.emails, ∀ i, e.messageId = some i →
        db.threadOfMessageId e.accountId i = some e.threadId) ∧
      ∀ e ∈ db.emails, ∀ e' ∈ db.emails, ∀ i, e.accountId = e'.accountId → e.messageId = some i →
        e'.messageId = some i → e.threadId = e'.threadId := by
  intro db
  have hk : Keyed db := (intact_runOps ops).keyed
  have h : Threaded db := threaded_runOps ops
  refine ⟨fun e he i hi => hk.threadOfMessageId_eq (h e he i hi), ?_⟩
  intro e he e' he' i hacc hi hi'
  have hrow := h e he i hi
  rw [hacc] at hrow
  exact congrArg MessageIdRow.threadId (hk.messageId.eq hrow (h e' he' i hi') rfl)

end UwuMail.Store
