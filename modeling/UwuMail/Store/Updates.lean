/-
# What one update leaves

`update_one` writes to six tables.  Seen from a client it does four things: the email has the
keywords it was asked for, its memberships are those it was asked for, each of them carries the
modseq of the batch, and a mailbox it comes into gives it the next UID (`Updated`).  Of every other
email nothing changes.

`emails_by_uid` finds the emails of a list of UIDs, each of them once (`nodup_emailsByUid`), so a
loop over what it found updates each email once.
-/
import UwuMail.Store.Uids

namespace UwuMail.Store

open Table

/-! ## 1. One update -/

structure Updated (db : Db) (p : UpdatePlan) (m : Int) (db' : Db) : Prop where
  keywords : ∀ e, db'.keywordsOf e = if e = p.email then p.newKeywords else db.keywordsOf e
  keywordRows : p.newKeywords = p.oldKeywords → db'.emailKeywords = db.emailKeywords
  member : ∀ r', r' ∈ db'.emailMailboxes ↔
    (∃ r ∈ db.emailMailboxes, ¬ (r.emailId = p.email ∧ r.mailboxId ∈ p.left) ∧
      r' = if r.emailId = p.email then { r with modseq := m } else r) ∨
    ∃ b ∈ p.entered, r' = ⟨p.email, b, Db.uidNextIn db.mailboxes b, m⟩
  emails : db'.emails = updateWhere (fun r => r.id == p.email) (fun r => { r with updatedModseq := m }) db.emails
  /-- A mailbox that takes the email gives it a UID; but for that, and the modseq, no column
  changes. -/
  mailboxes : ∃ f : MailboxRow → MailboxRow, db'.mailboxes = db.mailboxes.map f ∧
    ∀ r, f r = { r with
      uidNext := if r.id ∈ p.entered then r.uidNext + 1 else r.uidNext
      updatedModseq := (f r).updatedModseq }

variable {ext : Externals} {db db' : Db} {p : UpdatePlan} {a m : Int}

theorem mem_insertAll_id {rows t : List KeywordRow} {r : KeywordRow} :
    r ∈ insertAll id rows t ↔ r ∈ t ∨ r ∈ rows := by
  constructor
  · exact fun h => (mem_insertAll h).imp_right And.left
  · rintro (h | h)
    · exact mem_insertAll_of_mem h
    · obtain ⟨r', hr', rfl⟩ := @exists_key_insertAll _ _ _ id _ t _ h
      exact hr'

theorem columns_touch_enter (m : Int) (ids ids' : List Int) (r : MailboxRow) :
    touchRow m ids (enterRow m ids' r) = { r with
      uidNext := if r.id ∈ ids' then r.uidNext + 1 else r.uidNext
      updatedModseq := (touchRow m ids (enterRow m ids' r)).updatedModseq } := by
  unfold touchRow enterRow
  split <;> split <;> rfl

theorem UpdatePlan.Fits.updated (hf : p.Fits a db) : Updated db p m (db.applyUpdate a m p) := by
  obtain ⟨gone, -, heq⟩ := Db.applyUpdate_eq a m hf.oldMailboxes hf.mailboxes
  rw [heq]
  refine ⟨fun e => ?_, fun hsame => ?_, fun r' => ?_, rfl, _, rfl, fun r => ?_⟩
  · ext k
    rw [Db.mem_keywordsOf]
    rw [mem_deleteWhere, mem_insertAll_id, List.mem_map]
    simp only [SortedSet.mem_elems, SortedSet.mem_difference, KeywordRow.mk.injEq]
    rw [hf.oldKeywords]
    by_cases he : e = p.email
    · subst he
      rw [if_pos rfl, ← Db.mem_keywordsOf]
      simp only [beq_self_eq_true, Bool.true_and, decide_eq_false_iff_not, true_and, exists_eq_right]
      tauto
    · simp [he, Ne.symm he, Db.mem_keywordsOf]
  · have hnone : ∀ k, k ∉ (p.newKeywords.difference p.oldKeywords).elems := fun k hk => by
      rw [SortedSet.mem_elems, SortedSet.mem_difference, hsame] at hk
      exact hk.2 hk.1
    have hnone' : ∀ k, k ∉ (p.oldKeywords.difference p.newKeywords).elems := fun k hk => by
      rw [SortedSet.mem_elems, SortedSet.mem_difference, hsame] at hk
      exact hk.2 hk.1
    rw [List.eq_nil_iff_forall_not_mem.2 hnone, List.map_nil, insertAll_nil]
    exact deleteWhere_eq_self fun r _ => by simp [hnone']
  · change r' ∈ Db.updatedMembers db.mailboxes m p db.emailMailboxes ↔ _
    rw [Db.updatedMembers, List.mem_append, mem_updateWhere, Db.entries, List.mem_map]
    refine or_congr ?_ ?_
    · simp only [mem_deleteWhere, Bool.and_eq_false_iff, beq_eq_false_iff_ne,
        decide_eq_false_iff_not, beq_iff_eq]
      constructor
      · rintro ⟨r, ⟨hr, hkept⟩, rfl⟩
        exact ⟨r, hr, not_and_or.2 hkept, rfl⟩
      · rintro ⟨r, hr, hkept, rfl⟩
        exact ⟨r, ⟨hr, not_and_or.1 hkept⟩, rfl⟩
    · simp only [SortedSet.mem_elems, eq_comm]
  · exact columns_touch_enter m _ _ r

/-- `update_one` writes what it was asked for, or found that it is there. -/
theorem updateOne_done {u : EmailUpdate} {tx tx' : TxState} {x : PUnit}
    (h : (updateOne ext u).exec tx = (.ok x, tx')) : ∃ p, p.Fits tx.batch.accountId tx.db ∧ p.email = u.id ∧
      p.newKeywords = u.keywords.apply ext (tx.db.keywordsOf u.id) ∧
      p.newMailboxes = u.mailboxes.apply (tx.db.mailboxesOf u.id) ∧ tx'.batch.accountId = tx.batch.accountId ∧
      ((p.isNoop = true ∧ tx'.db = tx.db) ∨ ∃ m, Updated tx.db p m tx'.db) := by
  rw [updateOne, Tx.exec_bind, Tx.exec_get] at h
  simp only [Tx.exec_bind, Tx.exec_ofExcept] at h
  cases hplan : planUpdate ext tx.db tx.batch.accountId u with
  | error e =>
    rw [hplan] at h
    cases h
  | ok p =>
    simp only [hplan] at h
    obtain ⟨hfit, hid, hkeywords, hmailboxes⟩ := planUpdate_ok hplan
    rw [hfit.oldKeywords, hid] at hkeywords
    rw [hfit.oldMailboxes, hid] at hmailboxes
    refine ⟨p, hfit, hid, hkeywords, hmailboxes, ?_⟩
    cases hnoop : p.isNoop with
    | true =>
      rw [hnoop] at h
      cases h
      exact ⟨rfl, .inl ⟨rfl, rfl⟩⟩
    | false =>
      rw [hnoop] at h
      simp only [Bool.false_eq_true, if_false, Tx.exec_bind] at h
      rcases hb : batchModseq.exec tx with ⟨r, tx₁⟩
      rw [hb] at h
      cases r with
      | error e => cases h
      | ok m =>
        cases h
        -- taking the modseq moves the account's counter and nothing else
        rcases exec_batchModseq_ok hb with ⟨-, rfl⟩ | ⟨-, -, rfl⟩
        · exact ⟨rfl, .inr ⟨m, hfit.updated⟩⟩
        · refine ⟨rfl, .inr ⟨m, ?_⟩⟩
          have hfit' : p.Fits tx.batch.accountId (tx.db.bumpModseq tx.batch.accountId) :=
            ⟨hfit.email, hfit.oldKeywords, hfit.oldMailboxes, hfit.some, hfit.has, hfit.valid, hfit.few⟩
          obtain ⟨h₁, h₂, h₃, h₄, h₅⟩ : Updated (tx.db.bumpModseq tx.batch.accountId) p m _ := hfit'.updated
          exact ⟨h₁, h₂, h₃, h₄, h₅⟩

/-! ## 2. The emails behind UIDs -/

variable {mailbox : Int} {uids : List U32}

/-- A listed UID of the mailbox, with the email and the modseq of its membership. -/
theorem mem_emailsByUid_iff (hk : Keyed db) (hu : Uids db) {entry : U32 × Int × Nat} :
    entry ∈ emailsByUid db mailbox uids ↔ entry.1 ∈ uids ∧ ∃ r ∈ db.emailMailboxes, r.mailboxId = mailbox ∧
      r.uid = entry.1.val ∧ r.emailId = entry.2.1 ∧ r.modseq.toNat = entry.2.2 := by
  obtain ⟨uid, email, modseq⟩ := entry
  simp only [emailsByUid, List.mem_filterMap, SortedSet.mem_elems, SortedSet.mem_ofList,
    Option.map_eq_some_iff,
    Prod.mk.injEq]
  constructor
  · rintro ⟨uid, huid, r, hfind, rfl, rfl, rfl⟩
    have hkey : r.mailboxId = mailbox ∧ r.uid = uid.val := by simpa using List.find?_some hfind
    exact ⟨huid, r, List.mem_of_find?_eq_some hfind, hkey.1, hkey.2, rfl, rfl⟩
  · rintro ⟨huid, r, hr, rfl, hruid, rfl, rfl⟩
    refine ⟨uid, huid, r, ?_, rfl, rfl, rfl⟩
    cases hfind : db.emailMailboxes.find? fun q => q.mailboxId == r.mailboxId && q.uid == (uid.val : Int) with
    | none => exact absurd (List.find?_eq_none.1 hfind r hr) (by simp [hruid])
    | some q =>
      have hkey : q.mailboxId = r.mailboxId ∧ q.uid = uid.val := by simpa using List.find?_some hfind
      rw [hu.member_eq hk (List.mem_of_find?_eq_some hfind) hr hkey.1 (hkey.2.trans hruid.symm)]

/-- In order, each UID once. -/
theorem sorted_emailsByUid : ((emailsByUid db mailbox uids).map (·.1)).Pairwise (· < ·) := by
  have hsub : ((emailsByUid db mailbox uids).map (·.1)).Sublist (SortedSet.ofList uids).elems := by
    unfold emailsByUid
    generalize (SortedSet.ofList uids).elems = l
    induction l with
    | nil => exact .slnil
    | cons uid l ih =>
      rw [List.filterMap_cons]
      split
      · exact ih.cons _
      · rename_i entry h
        obtain ⟨r, -, rfl⟩ := Option.map_eq_some_iff.1 h
        exact ih.cons_cons _
  exact (SortedSet.ofList uids).sorted.sublist hsub

/-- An email is in a mailbox under one UID, so it is found once. -/
theorem nodup_emailsByUid (hk : Keyed db) (hu : Uids db) :
    ((emailsByUid db mailbox uids).map (·.2.1)).Nodup := by
  have hsorted : (emailsByUid db mailbox uids).Pairwise fun x y =>
    x.1 < y.1 := List.pairwise_map.1 sorted_emailsByUid
  refine List.pairwise_map.2 (hsorted.imp_of_mem fun {x y} hx hy hlt => ?_)
  obtain ⟨-, r, hr, hrb, hru, hre, -⟩ := (mem_emailsByUid_iff hk hu).1 hx
  obtain ⟨-, q, hq, hqb, hqu, hqe, -⟩ := (mem_emailsByUid_iff hk hu).1 hy
  intro hsame
  obtain rfl : r = q := hk.member.eq hr hq (Prod.ext (hre.trans (hsame.trans hqe.symm)) (hrb.trans hqb.symm))
  have := hru.symm.trans hqu
  rw [Fin.lt_def] at hlt
  omega

end UwuMail.Store
