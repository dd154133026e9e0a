/-
# Keys and references

What the schema of the database promises, as invariants that every event keeps: the keys are
unique (`Keyed`), and what a row refers to exists and belongs to the same account (`Linked`).

Most of it is declared in SQL, and SQLite would refuse a statement that broke it.  The model has
no such net: its inserts append whatever they are given.  So that these invariants hold says that
the constraints NEVER FIRE inside an operation that passed its own checks.
-/
import UwuMail.Store.Effect

namespace UwuMail.Store

open Table

/-! ## 1. The invariants -/

/-- Every key and every unique index. -/
structure Keyed (db : Db) : Prop where
  account : UniqueKey AccountRow.id db.accounts
  mailbox : UniqueKey MailboxRow.id db.mailboxes
  thread : UniqueKey ThreadRow.id db.threads
  email : UniqueKey EmailRow.id db.emails
  keyword : UniqueKey (fun r : KeywordRow => r) db.emailKeywords
  member : UniqueKey (fun r : MembershipRow => (r.emailId, r.mailboxId)) db.emailMailboxes
  messageId : UniqueKey MessageIdRow.key db.threadMessageIds
  change : UniqueKey ChangeRow.key db.changes

/-- Ids below their sequence, and every reference to an existing row of the same account. -/
structure Linked (db : Db) : Prop where
  accountSeq : ∀ r ∈ db.accounts, 0 < r.id ∧ r.id ≤ db.accountSeq
  mailboxSeq : ∀ r ∈ db.mailboxes, 0 < r.id ∧ r.id ≤ db.mailboxSeq
  threadSeq : ∀ r ∈ db.threads, r.id ≤ db.threadSeq
  emailSeq : ∀ r ∈ db.emails, r.id ≤ db.emailSeq
  mailboxAccount : ∀ r ∈ db.mailboxes, ∃ a ∈ db.accounts, a.id = r.accountId
  parent : ∀ r ∈ db.mailboxes, ∀ p, r.parentId = some p → db.Has r.accountId p
  emailAccount : ∀ r ∈ db.emails, ∃ a ∈ db.accounts, a.id = r.accountId
  emailThread : ∀ r ∈ db.emails, ∃ t ∈ db.threads, t.id = r.threadId ∧ t.accountId = r.accountId
  keywordEmail : ∀ k ∈ db.emailKeywords, ∃ e ∈ db.emails, e.id = k.emailId
  member : ∀ r ∈ db.emailMailboxes, ∃ e ∈ db.emails, e.id = r.emailId ∧ db.Has e.accountId r.mailboxId
  messageId : ∀ r ∈ db.threadMessageIds, ∃ t ∈ db.threads, t.id = r.threadId ∧ t.accountId = r.accountId
  vanished : ∀ v ∈ db.imapVanished, ∃ b ∈ db.mailboxes, b.id = v.mailboxId
  assigned : ∀ x ∈ db.assigned, x.mailboxId ≤ db.mailboxSeq
  change : ∀ c ∈ db.changes, ∃ a ∈ db.accounts, a.id = c.accountId
  seq : 0 ≤ db.accountSeq ∧ 0 ≤ db.mailboxSeq

/-- The unique indexes of `mailboxes`. -/
def Named (db : Db) : Prop := ∀ r ∈ db.mailboxes, r.Unique db

/-! ## 2. Small facts -/

@[simp] theorem MailboxUpdate.apply_id (u : MailboxUpdate) (r : MailboxRow) :
    (u.apply r).id = r.id := rfl

@[simp] theorem MailboxUpdate.apply_accountId (u : MailboxUpdate) (r : MailboxRow) :
    (u.apply r).accountId = r.accountId := rfl

/-- Accounts that a statement rewrote are still there. -/
theorem exists_account_updateWhere {p : AccountRow → Bool} {f : AccountRow → AccountRow}
    {t : List AccountRow} {a : Int} (h : ∃ r ∈ t, r.id = a) (hf : ∀ r, (f r).id = r.id) :
    ∃ r ∈ updateWhere p f t, r.id = a := by
  obtain ⟨r, hr, rfl⟩ := h
  refine ⟨_, mem_updateWhere.2 ⟨r, hr, rfl⟩, ?_⟩
  split
  · exact hf r
  · rfl

theorem accountSeq_updateWhere {p : AccountRow → Bool} {f : AccountRow → AccountRow}
    {t : List AccountRow} {n : Int} (h : ∀ r ∈ t, 0 < r.id ∧ r.id ≤ n) (hf : ∀ r, (f r).id = r.id) :
    ∀ r ∈ updateWhere p f t, 0 < r.id ∧ r.id ≤ n := by
  intro r hr
  obtain ⟨r₀, hr₀, rfl⟩ := mem_updateWhere.1 hr
  split
  · rw [hf]
    exact h r₀ hr₀
  · exact h r₀ hr₀

/-- No membership has the id the next email gets. -/
theorem Linked.newEmail {db : Db} (h : Linked db) :
    ∀ r ∈ db.emailMailboxes, r.emailId ≠ db.emailSeq + 1 := by
  intro r hr hid
  obtain ⟨e, he, heid, -⟩ := h.member r hr
  have := h.emailSeq e he
  omega

theorem Linked.newMailbox {db : Db} (h : Linked db) : ∀ r ∈ db.mailboxes, r.id ≠ db.mailboxSeq + 1 := by
  intro r hr hid
  have := (h.mailboxSeq r hr).2
  omega

variable {p : Incoming} {ids : List Int}

theorem Incoming.Fits.mailboxes {a : Int} {db : Db}
    (hf : p.Fits a db ids) : ∀ id ∈ ids, ∃ r ∈ db.mailboxes, r.id = id :=
  fun id hid => (hf.has id hid).imp fun _ h => ⟨h.1, h.2.1⟩

theorem UpdatePlan.Fits.mailboxes {a : Int} {db : Db} {p : UpdatePlan} (hf : p.Fits a db) :
    ∀ id ∈ p.entered, ∃ r ∈ db.mailboxes, r.id = id :=
  fun id hid => (hf.has id hid).imp fun _ h => ⟨h.1, h.2.1⟩

variable {row : MailboxRow}

theorem MailboxRow.Fits.new {a m : Int} {db : Db} (hl : Linked db)
    (hf : row.Fits a m db) : ∀ r ∈ db.mailboxes, r.id ≠ row.id :=
  fun r hr => hf.id ▸ hl.newMailbox r hr

theorem uniqueKey_entries {t : List MailboxRow} {email m : Int} (h : ids.Nodup) :
    UniqueKey (fun r : MembershipRow => (r.emailId, r.mailboxId)) (Db.entries t email m ids) := by
  unfold UniqueKey
  rw [Db.entries, List.map_map]
  exact h.map fun b b' hbb => (Prod.mk.inj hbb).2

/-! ## 3. The keys -/

section Keyed

variable {a m : Int} {db : Db}

theorem Keyed.bump (h : Keyed db) : Keyed (db.bumpModseq a) := by
  refine { h with account := UniqueKey.updateWhere h.account ?_ _ }
  exact fun _ => rfl

theorem Keyed.store (h : Keyed db) (hl : Linked db)
    (hf : p.Fits a db ids) : Keyed (db.storeEmail p ids m) := by
  rw [Db.storeEmail_eq hf.nodup hf.mailboxes hl.newEmail]
  refine ⟨?_, ?_, ?_, ?_, ?_, ?_, ?_, ?_⟩
  · exact h.account.updateWhere (by exact fun _ => rfl) _
  · exact h.mailbox.map (enterRow_id m ids)
  · show UniqueKey _ (db.threads ++ _)
    split
    · refine h.thread.append ?_
      intro r hr hid
      have := hl.threadSeq r hr
      simp only at hid
      omega
    · simpa using h.thread
  · refine h.email.append ?_
    intro r hr hid
    have := hl.emailSeq r hr
    simp only at hid
    omega
  · exact h.keyword.insertAll _
  · refine h.member.append_of_disjoint (uniqueKey_entries hf.nodup) ?_
    intro r hr r' hr' hk
    obtain ⟨b, -, rfl⟩ := List.mem_map.1 hr'
    exact hl.newEmail r hr (Prod.mk.inj hk).1
  · exact h.messageId.insertAll _
  · exact h.change.insertAll _

theorem Keyed.update {p : UpdatePlan} (h : Keyed db) (hf : p.Fits a db) :
    Keyed (db.applyUpdate a m p) := by
  obtain ⟨gone, -, heq⟩ :=
    Db.applyUpdate_eq a m hf.oldMailboxes hf.mailboxes
  rw [heq]
  refine ⟨h.account, ?_, h.thread, ?_, ?_, ?_, h.messageId, ?_⟩
  · exact h.mailbox.map fun r => by simp
  · exact h.email.updateWhere (by exact fun _ => rfl) _
  · exact (h.keyword.insertAll _).deleteWhere _
  · refine UniqueKey.append_of_disjoint ?_ (uniqueKey_entries p.entered.nodup) ?_
    · exact (h.member.deleteWhere _).updateWhere (by exact fun _ => rfl) _
    · intro r hr r' hr' hk
      obtain ⟨b, hb, rfl⟩ := List.mem_map.1 hr'
      obtain ⟨r₀, hr₀, rfl⟩ := mem_updateWhere.1 hr
      simp only [UpdatePlan.entered, SortedSet.mem_elems, SortedSet.mem_difference, hf.oldMailboxes,
        Db.mem_mailboxesOf] at hb
      refine hb.2 ⟨r₀, (mem_deleteWhere.1 hr₀).1, ?_⟩
      split at hk <;> exact Prod.mk.inj hk
  · exact h.change.insertAll _

theorem Keyed.destroy {row : EmailRow} (h : Keyed db) : Keyed (db.applyDestroy a m row) := by
  rw [Db.applyDestroy_eq]
  refine ⟨?_, ?_, ?_, h.email.deleteWhere _, h.keyword.deleteWhere _, h.member.deleteWhere _, ?_,
    h.change.insertAll _⟩
  · exact h.account.updateWhere (by exact fun _ => rfl) _
  · exact h.mailbox.map (setRow_id m _)
  · show UniqueKey _ (db.withThread row _ _)
    unfold Db.withThread
    split
    · exact h.thread
    · exact h.thread.deleteWhere _
  · show UniqueKey _ (db.withThread row _ _)
    unfold Db.withThread
    split
    · exact h.messageId
    · exact h.messageId.deleteWhere _

theorem Keyed.leave {email mailbox : Int} (h : Keyed db) :
    Keyed (db.leaveMailbox a m email mailbox) := by
  rw [Db.leaveMailbox_eq]
  refine ⟨h.account, ?_, h.thread, ?_, h.keyword, h.member.deleteWhere _, h.messageId,
    h.change.insertOrIgnore _⟩
  · exact h.mailbox.map (touchRow_id m _)
  · exact h.email.updateWhere (by exact fun _ => rfl) _

theorem Keyed.drop {b : Int} (h : Keyed db) : Keyed (db.dropMailbox a m b) := by
  rw [Db.dropMailbox_eq]
  refine ⟨?_, h.mailbox.deleteWhere _, h.thread, h.email, h.keyword, h.member.deleteWhere _,
    h.messageId, h.change.insertOrIgnore _⟩
  exact h.account.updateWhere (by exact fun _ => rfl) _

theorem Keyed.create (h : Keyed db) (hl : Linked db) (hf : row.Fits a m db) :
    Keyed (db.applyCreate a m row) := by
  rw [Db.applyCreate_eq hf.id hf.updated (hf.new hl)]
  refine ⟨h.account, ?_, h.thread, h.email, h.keyword, h.member, h.messageId,
    h.change.insertOrIgnore _⟩
  exact h.mailbox.append (hf.new hl)

theorem Keyed.alter {id : Int} {u : MailboxUpdate} (h : Keyed db) :
    Keyed ((db.updateMailboxes (fun r => r.id == id) u.apply).mailboxUpdated a m id) := by
  rw [Db.mailboxUpdated_eq]
  refine ⟨h.account, ?_, h.thread, h.email, h.keyword, h.member, h.messageId,
    h.change.insertOrIgnore _⟩
  exact (h.mailbox.updateWhere (by exact fun _ => rfl) _).map (setRow_id m _)

theorem Keyed.share {b : Int} {acl : List AclRow} (h : Keyed db) : Keyed (db.applyAcl a m b acl) := by
  rw [Db.applyAcl, Db.recordChange_eq]
  refine ⟨?_, ?_, h.thread, h.email, h.keyword, h.member, h.messageId, h.change.insertOrIgnore _⟩
  · exact h.account.updateWhere (by exact fun _ => rfl) _
  · exact h.mailbox.map (touchRow_id m _)

theorem Keyed.members {list : List Int} {shared : Bool} (h : Keyed db) :
    Keyed (db.applyMembers a m list shared) := by
  refine ⟨?_, h.mailbox, h.thread, h.email, h.keyword, h.member, h.messageId, h.change⟩
  exact (h.account.updateWhere (by exact fun _ => rfl) _).updateWhere (by exact fun _ => rfl) _

end Keyed

/-! ## 4. The references -/

/-- An account keeps its mailboxes when their other columns are rewritten. -/
theorem Db.Has.map {db : Db} {a b : Int} {g : MailboxRow → MailboxRow} (h : db.Has a b)
    (hid : ∀ r, (g r).id = r.id) (hacc : ∀ r, (g r).accountId = r.accountId) :
    ∃ r ∈ db.mailboxes.map g, r.id = b ∧ r.accountId = a := by
  obtain ⟨r, hr, hb, ha⟩ := h
  exact ⟨g r, List.mem_map_of_mem hr, (hid r).trans hb, (hacc r).trans ha⟩

/-- A message that was threaded goes into a thread that exists. -/
theorem Db.threadFor_some {db : Db} {a t : Int} {info : EmailMeta} (h : db.threadFor a info = some t) :
    ∃ r ∈ db.threadMessageIds, r.accountId = a ∧ r.threadId = t ∧ r.messageId ∈ info.messageIds := by
  obtain ⟨i, hi, h⟩ := List.exists_of_findSome?_eq_some h
  obtain ⟨r, hr, rfl⟩ := Option.map_eq_some_iff.1 h
  have hkey : r.key = (a, i) := by simpa using List.find?_some hr
  have hk := Prod.mk.inj hkey
  exact ⟨r, List.mem_of_find?_eq_some hr, hk.1, rfl, hk.2 ▸ hi⟩

section Linked

variable {a m : Int} {db : Db}

/-- The part of `Linked` about mailboxes, for a statement that rewrites their other columns. -/
theorem Linked.mailboxes_map {t : List MailboxRow} {g : MailboxRow → MailboxRow} (h : Linked db)
    (ht : t = db.mailboxes.map g) (hid : ∀ r, (g r).id = r.id)
    (hacc : ∀ r, (g r).accountId = r.accountId) (hpar : ∀ r, (g r).parentId = r.parentId) :
    (∀ r ∈ t, 0 < r.id ∧ r.id ≤ db.mailboxSeq) ∧
      (∀ r ∈ t, ∃ x ∈ db.accounts, x.id = r.accountId) ∧
      (∀ r ∈ t, ∀ p, r.parentId = some p → ∃ q ∈ t, q.id = p ∧ q.accountId = r.accountId) ∧
      (∀ v ∈ db.imapVanished, ∃ b ∈ t, b.id = v.mailboxId) := by
  subst ht
  simp only [List.forall_mem_map, hid, hacc, hpar]
  refine ⟨h.mailboxSeq, h.mailboxAccount, ?_, ?_⟩
  · exact fun r hr p hp => (h.parent r hr p hp).map hid hacc
  · intro v hv
    obtain ⟨b, hb, hbid⟩ := h.vanished v hv
    exact ⟨g b, List.mem_map_of_mem hb, (hid b).trans hbid⟩

theorem Linked.bump (h : Linked db) : Linked (db.bumpModseq a) := by
  refine { h with accountSeq := ?_, mailboxAccount := ?_, emailAccount := ?_, change := ?_ }
  · exact accountSeq_updateWhere h.accountSeq fun _ => rfl
  · exact fun r hr => exists_account_updateWhere (h.mailboxAccount r hr) fun _ => rfl
  · exact fun r hr => exists_account_updateWhere (h.emailAccount r hr) fun _ => rfl
  · exact fun c hc => exists_account_updateWhere (h.change c hc) fun _ => rfl

theorem Incoming.Fits.exists_account (hl : Linked db)
    (hf : p.Fits a db ids) : ∃ r ∈ db.accounts, r.id = a := by
  obtain ⟨b, hb⟩ := List.exists_mem_of_ne_nil ids hf.some
  obtain ⟨r, hr, -, rfl⟩ := hf.has b hb
  exact hl.mailboxAccount r hr

/-- The thread of a new message exists afterwards. -/
theorem Incoming.Fits.exists_thread (hl : Linked db)
    (hf : p.Fits a db ids) :
    ∃ t ∈ db.threads ++ if db.startsThread p then [⟨db.threadSeq + 1, p.accountId⟩] else [],
      t.id = db.threadIdFor p ∧ t.accountId = a := by
  unfold Db.startsThread Db.threadIdFor
  cases hfound : db.threadFor p.accountId p.info with
  | none => exact ⟨⟨db.threadSeq + 1, p.accountId⟩, by simp, rfl, hf.account⟩
  | some t =>
    obtain ⟨r, hr, ha, rfl, -⟩ := Db.threadFor_some hfound
    obtain ⟨t, ht, hid, hta⟩ := hl.messageId r hr
    exact ⟨t, by simp [ht], hid, by rw [hta, ha, hf.account]⟩

theorem Linked.store (h : Linked db) (hf : p.Fits a db ids) :
    Linked (db.storeEmail p ids m) := by
  have hthread := hf.exists_thread h
  have hexists : ∃ r ∈ db.accounts, r.id = p.accountId := hf.account.symm ▸ hf.exists_account h
  rw [Db.storeEmail_eq hf.nodup hf.mailboxes h.newEmail]
  have hhas : ∀ {x b}, db.Has x b → ∃ r ∈ db.mailboxes.map (enterRow m ids), r.id = b ∧ r.accountId = x :=
    fun h => h.map (enterRow_id m ids) (enterRow_accountId m ids)
  obtain ⟨hm₁, hm₂, hm₃, hm₄⟩ := h.mailboxes_map (g := enterRow m ids) rfl (enterRow_id m ids)
    (enterRow_accountId m ids) (enterRow_parentId m ids)
  set emails := db.emails ++ [{ p.row (db.threadIdFor p) m with id := db.emailSeq + 1 }] with hemails
  have hold : ∀ e ∈ db.emails, e ∈ emails := fun e he => List.mem_append_left _ he
  have hnew : ∃ e ∈ emails, e.id = db.emailSeq + 1 ∧ e.accountId = a :=
    ⟨_, List.mem_append_right _ (List.mem_singleton_self _), rfl, hf.account⟩
  refine ⟨?_, hm₁, ?_, ?_, ?_, ?_, ?_, ?_, ?_, ?_, ?_, hm₄, ?_, ?_, h.seq⟩
  · exact accountSeq_updateWhere h.accountSeq fun _ => rfl
  · intro t ht
    simp only [List.mem_append] at ht ⊢
    rcases ht with ht | ht
    · have := h.threadSeq t ht
      split <;> omega
    · split at ht
      · rw [List.mem_singleton.1 ht]
        simp [*]
      · simp at ht
  · intro e he
    simp only [hemails, List.mem_append, List.mem_singleton] at he ⊢
    rcases he with he | rfl
    · have := h.emailSeq e he
      omega
    · exact le_refl _
  · exact fun r hr => exists_account_updateWhere (hm₂ r hr) fun _ => rfl
  · exact fun r hr q hq => hm₃ r hr q hq
  · intro e he
    rcases List.mem_append.1 he with he | he
    · exact exists_account_updateWhere (h.emailAccount e he) fun _ => rfl
    · rw [List.mem_singleton.1 he]
      exact exists_account_updateWhere hexists fun _ => rfl
  · intro e he
    rcases List.mem_append.1 he with he | he
    · obtain ⟨t, ht, hid, hta⟩ := h.emailThread e he
      exact ⟨t, List.mem_append_left _ ht, hid, hta⟩
    · rw [List.mem_singleton.1 he]
      obtain ⟨t, ht, hid, hta⟩ := hthread
      exact ⟨t, ht, hid, hta.trans hf.account.symm⟩
  · intro k hk
    rcases mem_insertAll hk with hk | ⟨hk, -⟩
    · obtain ⟨e, he, hid⟩ := h.keywordEmail k hk
      exact ⟨e, hold e he, hid⟩
    · obtain ⟨w, -, rfl⟩ := List.mem_map.1 hk
      obtain ⟨e, he, hid, -⟩ := hnew
      exact ⟨e, he, hid⟩
  · intro r hr
    rcases List.mem_append.1 hr with hr | hr
    · obtain ⟨e, he, hid, hb⟩ := h.member r hr
      exact ⟨e, hold e he, hid, hhas hb⟩
    · obtain ⟨b, hb, rfl⟩ := List.mem_map.1 hr
      obtain ⟨e, he, hid, hea⟩ := hnew
      exact ⟨e, he, hid, hhas (hea ▸ hf.has b hb)⟩
  · intro r hr
    rcases mem_insertAll hr with hr | ⟨hr, -⟩
    · obtain ⟨t, ht, hid, hta⟩ := h.messageId r hr
      exact ⟨t, List.mem_append_left _ ht, hid, hta⟩
    · obtain ⟨i, -, rfl⟩ := List.mem_map.1 hr
      obtain ⟨t, ht, hid, hta⟩ := hthread
      exact ⟨t, ht, hid, hta.trans hf.account.symm⟩
  · intro x hx
    rcases List.mem_append.1 hx with hx | hx
    · exact h.assigned x hx
    · obtain ⟨b, hb, rfl⟩ := List.mem_map.1 hx
      obtain ⟨r, hr, rfl, -⟩ := hf.has b hb
      exact (h.mailboxSeq r hr).2
  · intro c hc
    rcases mem_insertAll hc with hc | ⟨hc, -⟩
    · exact exists_account_updateWhere (h.change c hc) fun _ => rfl
    · have : c.accountId = p.accountId := by
        simp only [Db.storeLog, Db.mailboxRows, List.mem_append, List.mem_map, List.mem_cons,
          List.not_mem_nil, or_false] at hc
        rcases hc with ⟨b, -, rfl⟩ | rfl | rfl <;> rfl
      exact exists_account_updateWhere (this ▸ hexists) fun _ => rfl

/-- Every row of a list of changes belongs to one account. -/
theorem Db.accountId_of_mem_mailboxRows {c : ChangeRow}
    (hc : c ∈ Db.mailboxRows a m ids) : c.accountId = a := by
  obtain ⟨b, -, rfl⟩ := List.mem_map.1 hc
  rfl

/-- A new stamp leaves an email its id and its account. -/
theorem exists_stamped {t : List EmailRow} {e : EmailRow} (he : e ∈ t) (p : EmailRow → Bool) :
    ∃ e' ∈ updateWhere p (fun r => { r with updatedModseq := m }) t,
      e'.id = e.id ∧ e'.accountId = e.accountId := by
  refine ⟨_, mem_updateWhere.2 ⟨e, he, rfl⟩, ?_⟩
  split <;> exact ⟨rfl, rfl⟩

theorem forall_stamped {P : EmailRow → Prop} {t : List EmailRow} {p : EmailRow → Bool}
    (h : ∀ e ∈ t, P e) (hP : ∀ e, P e → P { e with updatedModseq := m }) :
    ∀ e ∈ updateWhere p (fun r => { r with updatedModseq := m }) t, P e := by
  intro e he
  obtain ⟨e₀, he₀, rfl⟩ := mem_updateWhere.1 he
  split
  · exact hP e₀ (h e₀ he₀)
  · exact h e₀ he₀

/-- Whatever vanishes was in a mailbox of the table. -/
theorem Linked.vanishAll {g : MailboxRow → MailboxRow} {stamp : Int → Option Int}
    {gone : List MembershipRow} (h : Linked db) (hid : ∀ r, (g r).id = r.id)
    (hgone : ∀ r ∈ gone, r ∈ db.emailMailboxes) :
    ∀ v ∈ Db.vanishAll stamp gone db.imapVanished, ∃ b ∈ db.mailboxes.map g, b.id = v.mailboxId := by
  intro v hv
  rcases Db.mem_vanishAll_imp hv with hv | ⟨r, hr, hrv, -⟩
  · obtain ⟨b, hb, hbid⟩ := h.vanished v hv
    exact ⟨g b, List.mem_map_of_mem hb, (hid b).trans hbid⟩
  · obtain ⟨e, -, -, b, hb, hbid, -⟩ := h.member r (hgone r hr)
    exact ⟨g b, List.mem_map_of_mem hb, (hid b).trans (hbid.trans hrv)⟩

theorem Linked.update {p : UpdatePlan} (h : Linked db) (hf : p.Fits a db) :
    Linked (db.applyUpdate a m p) := by
  obtain ⟨gone, hgone, heq⟩ := Db.applyUpdate_eq a m hf.oldMailboxes hf.mailboxes
  rw [heq]
  obtain ⟨row, hrow, hrid, hra⟩ := hf.email
  have hexists : ∃ r ∈ db.accounts, r.id = a := hra ▸ h.emailAccount row hrow
  set g := touchRow m (p.oldMailboxes.elems ++ p.newMailboxes.elems) ∘ enterRow m p.entered.elems
  have hid : ∀ r, (g r).id = r.id := fun r => by simp [g]
  have hacc : ∀ r, (g r).accountId = r.accountId := fun r => by simp [g]
  have hpar : ∀ r, (g r).parentId = r.parentId := fun r => by simp [g]
  obtain ⟨hm₁, hm₂, hm₃, -⟩ := h.mailboxes_map (g := g) rfl hid hacc hpar
  have hmem : ∀ e b, (∃ x ∈ db.emails, x.id = e ∧ db.Has x.accountId b) →
      ∃ x ∈ updateWhere (fun r : EmailRow => r.id == p.email)
        (fun r => { r with updatedModseq := m }) db.emails,
        x.id = e ∧ ∃ r ∈ db.mailboxes.map g, r.id = b ∧ r.accountId = x.accountId := by
    rintro e b ⟨x, hx, hxe, hb⟩
    obtain ⟨x', hx', hxe', hxa'⟩ := exists_stamped hx _
    exact ⟨x', hx', hxe'.trans hxe, hxa' ▸ hb.map hid hacc⟩
  refine ⟨h.accountSeq, hm₁, h.threadSeq, ?_, hm₂, hm₃, ?_, ?_, ?_, ?_, h.messageId, ?_, ?_, ?_,
    h.seq⟩
  · exact forall_stamped h.emailSeq fun _ he => he
  · exact forall_stamped h.emailAccount fun _ he => he
  · exact forall_stamped h.emailThread fun _ he => he
  · intro k hk
    have hk' : ∃ e ∈ db.emails, e.id = k.emailId := by
      rcases mem_insertAll (mem_deleteWhere.1 hk).1 with hk | ⟨hk, -⟩
      · exact h.keywordEmail k hk
      · obtain ⟨w, -, rfl⟩ := List.mem_map.1 hk
        exact ⟨row, hrow, hrid⟩
    obtain ⟨e, he, hek⟩ := hk'
    obtain ⟨e', he', heid, -⟩ := exists_stamped he _
    exact ⟨e', he', heid.trans hek⟩
  · intro r hr
    rcases List.mem_append.1 hr with hr | hr
    · obtain ⟨r₀, hr₀, rfl⟩ := mem_updateWhere.1 hr
      have := hmem _ _ (h.member r₀ (mem_deleteWhere.1 hr₀).1)
      split <;> exact this
    · obtain ⟨b, hb, rfl⟩ := List.mem_map.1 hr
      exact hmem _ _ ⟨row, hrow, hrid, hra ▸ hf.has b hb⟩
  · exact h.vanishAll hid fun r hr => ((hgone r).1 hr).1
  · intro x hx
    rcases List.mem_append.1 hx with hx | hx
    · exact h.assigned x hx
    · obtain ⟨b, hb, rfl⟩ := List.mem_map.1 hx
      obtain ⟨r, hr, rfl, -⟩ := hf.has b hb
      exact (h.mailboxSeq r hr).2
  · intro c hc
    rcases mem_insertAll hc with hc | ⟨hc, -⟩
    · exact h.change c hc
    · rcases List.mem_cons.1 hc with rfl | hc
      · exact hexists
      · exact Db.accountId_of_mem_mailboxRows hc ▸ hexists

theorem Linked.destroy {row : EmailRow} (h : Linked db) (hrow : row ∈ db.emails)
    (hra : row.accountId = a) : Linked (db.applyDestroy a m row) := by
  have hexists : ∃ r ∈ db.accounts, r.id = a := hra ▸ h.emailAccount row hrow
  rw [Db.applyDestroy_eq]
  set g := setRow m (db.mailboxesOf row.id).elems
  have hid : ∀ r, (g r).id = r.id := setRow_id m _
  have hacc : ∀ r, (g r).accountId = r.accountId := setRow_accountId m _
  obtain ⟨hm₁, hm₂, hm₃, -⟩ := h.mailboxes_map (g := g) rfl hid hacc (setRow_parentId m _)
  -- A thread goes only when no other email is in it.
  have hthread : ∀ t ∈ db.threads, (db.threadSurvives row = true ∨ t.id ≠ row.threadId) →
      t ∈ db.withThread row ThreadRow.id db.threads := by
    intro t ht hor
    unfold Db.withThread
    split
    · exact ht
    · rename_i hs
      exact mem_deleteWhere.2 ⟨ht, by simpa using hor.resolve_left hs⟩
  refine ⟨?_, hm₁, ?_, ?_, ?_, hm₃, ?_, ?_, ?_, ?_, ?_, ?_, h.assigned, ?_, h.seq⟩
  · exact accountSeq_updateWhere h.accountSeq fun _ => rfl
  · intro t ht
    refine h.threadSeq t ?_
    simp only [Db.withThread] at ht
    split at ht
    · exact ht
    · exact (mem_deleteWhere.1 ht).1
  · exact fun e he => h.emailSeq e (mem_deleteWhere.1 he).1
  · exact fun r hr => exists_account_updateWhere (hm₂ r hr) fun _ => rfl
  · exact fun e he =>
      exists_account_updateWhere (h.emailAccount e (mem_deleteWhere.1 he).1) fun _ => rfl
  · intro e he
    obtain ⟨he, hne⟩ := mem_deleteWhere.1 he
    obtain ⟨t, ht, htid, hta⟩ := h.emailThread e he
    refine ⟨t, hthread t ht ?_, htid, hta⟩
    by_cases heq : t.id = row.threadId
    · refine .inl (List.any_eq_true.2 ⟨e, he, ?_⟩)
      simp only [beq_eq_false_iff_ne] at hne
      simp [bne, hne, ← htid, heq]
    · exact .inr heq
  · intro k hk
    obtain ⟨hk, hne⟩ := mem_deleteWhere.1 hk
    obtain ⟨e, he, hid⟩ := h.keywordEmail k hk
    exact ⟨e, mem_deleteWhere.2 ⟨he, by rwa [hid]⟩, hid⟩
  · intro r hr
    obtain ⟨hr, hne⟩ := mem_deleteWhere.1 hr
    obtain ⟨e, he, heid, hb⟩ := h.member r hr
    exact ⟨e, mem_deleteWhere.2 ⟨he, by rwa [heid]⟩, heid, hb.map hid hacc⟩
  · intro r hr
    simp only [Db.withThread] at hr
    split at hr
    · rename_i hs
      obtain ⟨t, ht, htid, hta⟩ := h.messageId r hr
      exact ⟨t, hthread t ht (.inl hs), htid, hta⟩
    · obtain ⟨hr, hne⟩ := mem_deleteWhere.1 hr
      obtain ⟨t, ht, htid, hta⟩ := h.messageId r hr
      exact ⟨t, hthread t ht (Or.inr (by rw [htid]; simpa using hne)), htid, hta⟩
  · exact h.vanishAll hid fun r hr => (List.mem_filter.1 hr).1
  · intro c hc
    rcases mem_insertAll hc with hc | ⟨hc, -⟩
    · exact exists_account_updateWhere (h.change c hc) fun _ => rfl
    · have : c.accountId = a := by
        rcases List.mem_cons.1 hc with rfl | hc
        · rfl
        · rcases List.mem_append.1 hc with hc | hc
          · exact Db.accountId_of_mem_mailboxRows hc
          · rw [List.mem_singleton.1 hc]
      exact exists_account_updateWhere (this ▸ hexists) fun _ => rfl

theorem Linked.leave {email mailbox : Int} (h : Linked db) (hf : db.Leaves a email mailbox) :
    Linked (db.leaveMailbox a m email mailbox) := by
  obtain ⟨row, hrow, hrid, hra⟩ := hf.own
  have hexists : ∃ r ∈ db.accounts, r.id = a := hra ▸ h.emailAccount row hrow
  rw [Db.leaveMailbox_eq]
  set g := touchRow m ((db.mailboxIdsOf email).filter fun id => id != mailbox)
  have hid : ∀ r, (g r).id = r.id := touchRow_id m _
  have hacc : ∀ r, (g r).accountId = r.accountId := touchRow_accountId m _
  obtain ⟨hm₁, hm₂, hm₃, -⟩ := h.mailboxes_map (g := g) rfl hid hacc (touchRow_parentId m _)
  refine ⟨h.accountSeq, hm₁, h.threadSeq, ?_, hm₂, hm₃, ?_, ?_, ?_, ?_, h.messageId, ?_, h.assigned,
    ?_, h.seq⟩
  · exact forall_stamped h.emailSeq fun _ he => he
  · exact forall_stamped h.emailAccount fun _ he => he
  · exact forall_stamped h.emailThread fun _ he => he
  · intro k hk
    obtain ⟨e, he, hek⟩ := h.keywordEmail k hk
    obtain ⟨e', he', heid, -⟩ := exists_stamped he _
    exact ⟨e', he', heid.trans hek⟩
  · intro r hr
    obtain ⟨e, he, her, hb⟩ := h.member r (mem_deleteWhere.1 hr).1
    obtain ⟨e', he', heid, hea⟩ := exists_stamped he _
    exact ⟨e', he', heid.trans her, hea ▸ hb.map hid hacc⟩
  · exact h.vanishAll hid fun r hr => (List.mem_filter.1 hr).1
  · intro c hc
    rcases mem_insertOrIgnore.1 hc with hc | ⟨rfl, -⟩
    · exact h.change c hc
    · exact hexists

theorem Linked.drop {b : Int} (h : Linked db) (hf : db.Droppable a b) :
    Linked (db.dropMailbox a m b) := by
  obtain ⟨row, hrow, hrid, hra⟩ := hf.has
  have hexists : ∃ r ∈ db.accounts, r.id = a := hra ▸ h.mailboxAccount row hrow
  rw [Db.dropMailbox_eq]
  have hhas : ∀ {x c}, db.Has x c → c ≠ b →
      ∃ r ∈ deleteWhere (fun r : MailboxRow => r.id == b) db.mailboxes, r.id = c ∧ r.accountId = x := by
    rintro x c ⟨r, hr, rfl, rfl⟩ hne
    exact ⟨r, mem_deleteWhere.2 ⟨hr, by simpa using hne⟩, rfl, rfl⟩
  refine ⟨?_, ?_, h.threadSeq, h.emailSeq, ?_, ?_, ?_, h.emailThread, h.keywordEmail, ?_, h.messageId,
    ?_, h.assigned, ?_, h.seq⟩
  · exact accountSeq_updateWhere h.accountSeq fun _ => rfl
  · exact fun r hr => h.mailboxSeq r (mem_deleteWhere.1 hr).1
  · exact fun r hr =>
      exists_account_updateWhere (h.mailboxAccount r (mem_deleteWhere.1 hr).1) fun _ => rfl
  · intro r hr p hp
    have hr := (mem_deleteWhere.1 hr).1
    exact hhas (h.parent r hr p hp) fun e => hf.childless r hr (e ▸ hp)
  · exact fun e he => exists_account_updateWhere (h.emailAccount e he) fun _ => rfl
  · intro r hr
    obtain ⟨hr, hne⟩ := mem_deleteWhere.1 hr
    obtain ⟨e, he, her, hb⟩ := h.member r hr
    exact ⟨e, he, her, hhas hb (by simpa using hne)⟩
  · intro v hv
    obtain ⟨hv, hne⟩ := mem_deleteWhere.1 hv
    obtain ⟨c, hc, hcv⟩ := h.vanished v hv
    exact ⟨c, mem_deleteWhere.2 ⟨hc, by rwa [hcv]⟩, hcv⟩
  · intro c hc
    rcases mem_insertOrIgnore.1 hc with hc | ⟨rfl, -⟩
    · exact exists_account_updateWhere (h.change c hc) fun _ => rfl
    · exact exists_account_updateWhere hexists fun _ => rfl

/-- `check_parent` lets only mailboxes of the account be parents. -/
theorem has_of_checkParent {mailbox : Option Int} {p : Int}
    (h : checkParent db a mailbox (some p) = .ok ⟨⟩) : db.Has a p := by
  simp only [checkParent, maxDepth, checkParentLoop] at h
  cases hp : parentOf db a mailbox p with
  | error e =>
    rw [hp] at h
    cases h
  | ok q =>
    unfold parentOf at hp
    split at hp
    · cases hp
    · split at hp
      · cases hp
      · rename_i row hrow
        have hmem := List.mem_of_find?_eq_some hrow
        have hkey : row.id = p ∧ row.accountId = a := by simpa using List.find?_some hrow
        exact ⟨row, hmem, hkey.1, hkey.2⟩

theorem Linked.create (h : Linked db) (hf : row.Fits a m db) :
    Linked (db.applyCreate a m row) := by
  rw [Db.applyCreate_eq hf.id hf.updated (hf.new h)]
  have hhas : ∀ {x c}, db.Has x c → ∃ r ∈ db.mailboxes ++ [row], r.id = c ∧ r.accountId = x := by
    rintro x c ⟨r, hr, hc, hx⟩
    exact ⟨r, List.mem_append_left _ hr, hc, hx⟩
  have hid := hf.id
  have hseq := h.seq.2
  refine ⟨h.accountSeq, ?_, h.threadSeq, h.emailSeq, ?_, ?_, h.emailAccount, h.emailThread,
    h.keywordEmail, ?_, h.messageId, ?_, ?_, ?_, ⟨h.seq.1, ?_⟩⟩
  · intro r hr
    show 0 < r.id ∧ r.id ≤ row.id
    rcases List.mem_append.1 hr with hr | hr
    · have := h.mailboxSeq r hr
      omega
    · rw [List.mem_singleton.1 hr]
      omega
  · intro r hr
    rcases List.mem_append.1 hr with hr | hr
    · exact h.mailboxAccount r hr
    · rw [List.mem_singleton.1 hr, hf.account]
      exact hf.exists_account
  · intro r hr p hp
    rcases List.mem_append.1 hr with hr | hr
    · exact hhas (h.parent r hr p hp)
    · rw [List.mem_singleton.1 hr] at hp ⊢
      rw [hf.account]
      exact hhas (has_of_checkParent (hp ▸ hf.parent))
  · intro r hr
    obtain ⟨e, he, her, hb⟩ := h.member r hr
    exact ⟨e, he, her, hhas hb⟩
  · intro v hv
    obtain ⟨b, hb, hbv⟩ := h.vanished v hv
    exact ⟨b, List.mem_append_left _ hb, hbv⟩
  · intro x hx
    show x.mailboxId ≤ row.id
    have := h.assigned x hx
    omega
  · intro c hc
    rcases mem_insertOrIgnore.1 hc with hc | ⟨rfl, -⟩
    · exact h.change c hc
    · exact hf.exists_account
  · show 0 ≤ row.id
    omega

theorem Linked.alter {id : Int} {u : MailboxUpdate} (h : Linked db) (hk : Keyed db) (hf : u.Fits a db id) :
    Linked ((db.updateMailboxes (fun r => r.id == id) u.apply).mailboxUpdated a m id) := by
  obtain ⟨row, hrow, hrid, hra⟩ := hf.has
  have hexists : ∃ r ∈ db.accounts, r.id = a := hra ▸ h.mailboxAccount row hrow
  rw [Db.mailboxUpdated_eq]
  set g : MailboxRow → MailboxRow := fun r => setRow m [id] (if r.id == id then u.apply r else r)
  have htab : ((db.updateMailboxes (fun r => r.id == id) u.apply).mailboxes.map (setRow m [id])) =
      db.mailboxes.map g := by
    rw [Db.updateMailboxes, updateWhere, List.map_map]
    rfl
  have hid : ∀ r, (g r).id = r.id := by
    intro r
    simp only [g, setRow_id]
    split <;> rfl
  have hacc : ∀ r, (g r).accountId = r.accountId := by
    intro r
    simp only [g, setRow_accountId]
    split <;> rfl
  rw [htab]
  refine ⟨h.accountSeq, ?_, h.threadSeq, h.emailSeq, ?_, ?_, h.emailAccount, h.emailThread,
    h.keywordEmail, ?_, h.messageId, ?_, h.assigned, ?_, h.seq⟩
  · intro r hr
    obtain ⟨r₀, hr₀, rfl⟩ := List.mem_map.1 hr
    rw [hid]
    exact h.mailboxSeq r₀ hr₀
  · intro r hr
    obtain ⟨r₀, hr₀, rfl⟩ := List.mem_map.1 hr
    rw [hacc]
    exact h.mailboxAccount r₀ hr₀
  · intro r hr p hp
    obtain ⟨r₀, hr₀, rfl⟩ := List.mem_map.1 hr
    rw [hacc]
    have hp₀ : db.Has r₀.accountId p := by
      by_cases hr₀id : r₀.id = id
      · have hsame : r₀.accountId = a := by
          rw [← hra, hk.mailbox.eq hr₀ hrow (hr₀id.trans hrid.symm)]
        cases hu : u.parentId with
        | none => exact h.parent r₀ hr₀ p (by simpa [g, hr₀id, MailboxUpdate.apply, hu] using hp)
        | some q =>
          have hq : q = some p := by simpa [g, hr₀id, MailboxUpdate.apply, hu] using hp
          exact hsame ▸ has_of_checkParent (hq ▸ hf.parent q hu)
      · exact h.parent r₀ hr₀ p (by simpa [g, hr₀id] using hp)
    exact hp₀.map hid hacc
  · intro r hr
    obtain ⟨e, he, her, hb⟩ := h.member r hr
    exact ⟨e, he, her, hb.map hid hacc⟩
  · intro v hv
    obtain ⟨b, hb, hbv⟩ := h.vanished v hv
    exact ⟨g b, List.mem_map_of_mem hb, (hid b).trans hbv⟩
  · intro c hc
    rcases mem_insertOrIgnore.1 hc with hc | ⟨rfl, -⟩
    · exact h.change c hc
    · exact hexists

theorem Linked.share {b : Int} {acl : List AclRow} (h : Linked db) (hf : db.Has a b) :
    Linked (db.applyAcl a m b acl) := by
  obtain ⟨row, hrow, hrid, hra⟩ := hf
  have hexists : ∃ r ∈ db.accounts, r.id = a := hra ▸ h.mailboxAccount row hrow
  rw [Db.applyAcl, Db.recordChange_eq]
  obtain ⟨hm₁, hm₂, hm₃, hm₄⟩ := h.mailboxes_map (g := touchRow m [b]) rfl (touchRow_id m _)
    (touchRow_accountId m _) (touchRow_parentId m _)
  refine ⟨?_, hm₁, h.threadSeq, h.emailSeq, ?_, hm₃, ?_, h.emailThread, h.keywordEmail, ?_, h.messageId,
    hm₄, h.assigned, ?_, h.seq⟩
  · exact accountSeq_updateWhere h.accountSeq fun _ => rfl
  · exact fun r hr => exists_account_updateWhere (hm₂ r hr) fun _ => rfl
  · exact fun e he => exists_account_updateWhere (h.emailAccount e he) fun _ => rfl
  · intro r hr
    obtain ⟨e, he, her, hb⟩ := h.member r hr
    exact ⟨e, he, her, hb.map (touchRow_id m _) (touchRow_accountId m _)⟩
  · intro c hc
    rcases mem_insertOrIgnore.1 hc with hc | ⟨rfl, -⟩
    · exact exists_account_updateWhere (h.change c hc) fun _ => rfl
    · exact exists_account_updateWhere hexists fun _ => rfl

theorem Linked.members {list : List Int} {shared : Bool} (h : Linked db) :
    Linked (db.applyMembers a m list shared) := by
  have hacc : ∀ {x}, (∃ r ∈ db.accounts, r.id = x) →
      ∃ r ∈ (db.applyMembers a m list shared).accounts, r.id = x := fun hx =>
    exists_account_updateWhere (exists_account_updateWhere hx fun _ => rfl) fun _ => rfl
  refine { h with accountSeq := ?_, mailboxAccount := ?_, emailAccount := ?_, change := ?_ }
  · exact accountSeq_updateWhere (accountSeq_updateWhere h.accountSeq fun _ => rfl) fun _ => rfl
  · exact fun r hr => hacc (h.mailboxAccount r hr)
  · exact fun e he => hacc (h.emailAccount e he)
  · exact fun c hc => hacc (h.change c hc)

end Linked

/-! ## 5. Names and roles -/

section Named

variable {a m : Int} {db db' : Db}

/-- A statement that leaves owners, parents, names and roles alone keeps the indexes. -/
theorem Named.map {db : Db} {g : MailboxRow → MailboxRow} (h : Named db)
    (hdb : db'.mailboxes = db.mailboxes.map g) (hid : ∀ r, (g r).id = r.id)
    (hcols : ∀ r, (g r).accountId = r.accountId ∧ (g r).parentId = r.parentId ∧ (g r).name = r.name ∧
      (g r).role = r.role) : Named db' := by
  intro r' hr'
  rw [hdb] at hr'
  obtain ⟨r, hr, rfl⟩ := List.mem_map.1 hr'
  have hu := h r hr
  refine ⟨?_, ?_⟩
  all_goals
    intro q' hq'
    rw [hdb] at hq'
    obtain ⟨q, hq, rfl⟩ := List.mem_map.1 hq'
    simp only [hid, hcols]
  · exact hu.role q hq
  · exact hu.name q hq

theorem Named.of_eq (h : Named db) (hdb : db'.mailboxes = db.mailboxes) : Named db' :=
  h.map (g := id) (by rw [hdb, List.map_id]) (fun _ => rfl) fun _ => ⟨rfl, rfl, rfl, rfl⟩

theorem touchRow_columns (m : Int) (ids : List Int) (r : MailboxRow) :
    (touchRow m ids r).accountId = r.accountId ∧ (touchRow m ids r).parentId = r.parentId ∧
      (touchRow m ids r).name = r.name ∧ (touchRow m ids r).role = r.role := by
  unfold touchRow; split <;> exact ⟨rfl, rfl, rfl, rfl⟩

theorem setRow_columns (m : Int) (ids : List Int) (r : MailboxRow) :
    (setRow m ids r).accountId = r.accountId ∧ (setRow m ids r).parentId = r.parentId ∧
      (setRow m ids r).name = r.name ∧ (setRow m ids r).role = r.role := by
  unfold setRow; split <;> exact ⟨rfl, rfl, rfl, rfl⟩

theorem enterRow_columns (m : Int) (ids : List Int) (r : MailboxRow) :
    (enterRow m ids r).accountId = r.accountId ∧ (enterRow m ids r).parentId = r.parentId ∧
      (enterRow m ids r).name = r.name ∧ (enterRow m ids r).role = r.role := by
  unfold enterRow; split <;> exact ⟨rfl, rfl, rfl, rfl⟩

/-- Only the OTHER mailboxes count for the indexes. -/
theorem MailboxRow.Unique.congr {row row' : MailboxRow} (h : row.Unique db)
    (hid : row'.id = row.id) (hcols : row'.accountId = row.accountId ∧ row'.parentId = row.parentId ∧
      row'.name = row.name ∧ row'.role = row.role)
    (hdb : ∀ r ∈ db'.mailboxes, r.id ≠ row.id → r ∈ db.mailboxes) : row'.Unique db' := by
  obtain ⟨hacc, hpar, hname, hrole⟩ := hcols
  refine ⟨?_, ?_⟩
  · intro r hr hne
    rw [hid] at hne
    rw [hacc, hrole]
    exact h.role r (hdb r hr hne) hne
  · intro r hr hne
    rw [hid] at hne
    rw [hacc, hpar, hname]
    exact h.name r (hdb r hr hne) hne

/-- The indexes look at pairs of mailboxes, so one direction is enough. -/
theorem MailboxRow.Unique.symm {row r : MailboxRow} (h : row.Unique db) (hr : r ∈ db.mailboxes)
    (hne : r.id ≠ row.id) (hacc : r.accountId = row.accountId) :
    (r.role.isSome → row.role ≠ r.role) ∧ (r.parentId.getD 0 = row.parentId.getD 0 → row.name ≠ r.name) := by
  refine ⟨?_, ?_⟩
  · intro hsome heq
    exact h.role r hr hne hacc (heq ▸ hsome) heq.symm
  · intro hpar heq
    exact h.name r hr hne hacc hpar heq.symm

/-- One mailbox is new or changed, and fits in. -/
theorem Named.replace (h : Named db) (hu : row.Unique db)
    (hdb : ∀ r ∈ db'.mailboxes, r = row ∨ (r ∈ db.mailboxes ∧ r.id ≠ row.id)) : Named db' := by
  intro r hr
  rcases hdb r hr with rfl | ⟨hr, hne⟩
  · refine ⟨?_, ?_⟩ <;> intro q hq hqid <;> rcases hdb q hq with rfl | ⟨hq, -⟩
    · exact absurd rfl hqid
    · exact hu.role q hq hqid
    · exact absurd rfl hqid
    · exact hu.name q hq hqid
  · have hu' := h r hr
    refine ⟨?_, ?_⟩ <;> intro q hq hqid hacc <;> rcases hdb q hq with rfl | ⟨hq, -⟩
    · exact (hu.symm hr hne hacc.symm).1
    · exact hu'.role q hq hqid hacc
    · exact fun hpar => (hu.symm hr hne hacc.symm).2 hpar.symm
    · exact hu'.name q hq hqid hacc

theorem Named.store (h : Named db) (hl : Linked db)
    (hf : p.Fits a db ids) : Named (db.storeEmail p ids m) := by
  rw [Db.storeEmail_eq hf.nodup hf.mailboxes hl.newEmail]
  exact h.map rfl (enterRow_id m ids) (enterRow_columns m ids)

theorem Named.update {p : UpdatePlan} (h : Named db) (hf : p.Fits a db) :
    Named (db.applyUpdate a m p) := by
  obtain ⟨gone, -, heq⟩ := Db.applyUpdate_eq a m hf.oldMailboxes hf.mailboxes
  rw [heq]
  refine h.map rfl (fun r => by simp) ?_
  intro r
  obtain ⟨h₁, h₂, h₃, h₄⟩ :=
    touchRow_columns m (p.oldMailboxes.elems ++ p.newMailboxes.elems) (enterRow m p.entered.elems r)
  obtain ⟨e₁, e₂, e₃, e₄⟩ := enterRow_columns m p.entered.elems r
  exact ⟨h₁.trans e₁, h₂.trans e₂, h₃.trans e₃, h₄.trans e₄⟩

theorem Named.destroy {row : EmailRow} (h : Named db) : Named (db.applyDestroy a m row) := by
  rw [Db.applyDestroy_eq]
  exact h.map rfl (setRow_id m _) (setRow_columns m _)

theorem Named.leave {email mailbox : Int} (h : Named db) :
    Named (db.leaveMailbox a m email mailbox) := by
  rw [Db.leaveMailbox_eq]
  exact h.map rfl (touchRow_id m _) (touchRow_columns m _)

theorem Named.drop {b : Int} (h : Named db) : Named (db.dropMailbox a m b) := by
  rw [Db.dropMailbox_eq]
  intro r hr
  exact (h r (mem_deleteWhere.1 hr).1).congr rfl ⟨rfl, rfl, rfl, rfl⟩
    fun q hq _ => (mem_deleteWhere.1 hq).1

theorem Named.create (h : Named db) (hl : Linked db) (hf : row.Fits a m db) :
    Named (db.applyCreate a m row) := by
  rw [Db.applyCreate_eq hf.id hf.updated (hf.new hl)]
  refine h.replace hf.unique ?_
  intro r hr
  rcases List.mem_append.1 hr with hr | hr
  · exact .inr ⟨hr, hf.new hl r hr⟩
  · exact .inl (List.mem_singleton.1 hr)

theorem Named.alter {id : Int} {u : MailboxUpdate} (h : Named db) (hk : Keyed db)
    (hf : u.Fits a db id) :
    Named ((db.updateMailboxes (fun r => r.id == id) u.apply).mailboxUpdated a m id) := by
  obtain ⟨row, hrow, hrid, -⟩ := hf.has
  rw [Db.mailboxUpdated_eq]
  have hnamed : Named (db.updateMailboxes (fun r => r.id == id) u.apply) := ?_
  · exact hnamed.map rfl (setRow_id m _) (setRow_columns m _)
  refine h.replace (hf.unique row hrow hrid) ?_
  intro r hr
  obtain ⟨r₀, hr₀, rfl⟩ := mem_updateWhere.1 hr
  by_cases hid : r₀.id = id
  · rw [if_pos (by simpa using hid), hk.mailbox.eq hr₀ hrow (hid.trans hrid.symm)]
    exact .inl rfl
  · rw [if_neg (by simpa using hid)]
    exact .inr ⟨hr₀, fun h => hid (h.trans hrid)⟩

theorem Named.share {b : Int} {acl : List AclRow} (h : Named db) : Named (db.applyAcl a m b acl) := by
  rw [Db.applyAcl, Db.recordChange_eq]
  exact h.map rfl (touchRow_id m _) (touchRow_columns m _)

end Named

/-- `check_parent` looks at the mailboxes only. -/
theorem checkParent_congr {db db' : Db} (h : db'.mailboxes = db.mailboxes) (a : Int)
    (mailbox parent : Option Int) : checkParent db' a mailbox parent = checkParent db a mailbox parent := by
  have hparent : ∀ id, parentOf db' a mailbox id = parentOf db a mailbox id := by
    intro id
    unfold parentOf
    rw [h]
  unfold checkParent
  induction maxDepth generalizing parent with
  | zero => cases parent <;> simp only [checkParentLoop, hparent]
  | succ n ih => cases parent <;> simp only [checkParentLoop, hparent, ih]

theorem checkParent_bumpModseq (db : Db) (x a : Int) (mailbox parent : Option Int) :
    checkParent (db.bumpModseq x) a mailbox parent = checkParent db a mailbox parent :=
  checkParent_congr (show (db.bumpModseq x).mailboxes = db.mailboxes from rfl) a mailbox parent

end UwuMail.Store
