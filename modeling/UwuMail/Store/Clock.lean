/-
# Modseqs

The change sequence numbers of an account and of its mailboxes, against each other.  `Clocked` is
the invariant: no row of the change log, of `email_mailboxes` or of `imap_vanished` is ahead of
the counter it is read against.

`Tick` says what any event can do to the numbers, and every event is shown to be one.  Whatever
is new carries the modseq `m` of the transaction, and a mailbox in which something is new has `m`
as its own modseq afterwards.  The mailbox that is `dying` is the exception: messages leave it
without moving it on, because it goes at the end of the transaction.
-/
import UwuMail.Store.Sound

namespace UwuMail.Store

open Table

/-! ## 1. The invariant -/

structure Clocked (dying : Option Int) (db : Db) : Prop where
  change : ∀ c ∈ db.changes, ∀ x ∈ db.accounts, x.id = c.accountId → c.modseq ≤ x.modseq
  updated : ∀ b ∈ db.mailboxes, ∀ x ∈ db.accounts, x.id = b.accountId → b.updatedModseq ≤ x.modseq
  member : ∀ r ∈ db.emailMailboxes, ∀ b ∈ db.mailboxes, b.id = r.mailboxId →
    r.modseq ≤ b.updatedModseq
  vanished : ∀ v ∈ db.imapVanished, ∀ b ∈ db.mailboxes, b.id = v.mailboxId → dying ≠ some b.id →
    v.modseq ≤ b.updatedModseq
  positive : (∀ x ∈ db.accounts, 0 ≤ x.modseq) ∧ ∀ b ∈ db.mailboxes, 0 ≤ b.updatedModseq

/-- The account stands at `m`: the transaction has taken it. -/
def Db.At (db : Db) (a m : Int) : Prop := ∀ x ∈ db.accounts, x.id = a → x.modseq = m

/-- Everything the proofs about single events may assume. -/
structure Sound (a m : Int) (dying : Option Int) (db : Db) : Prop where
  keyed : Keyed db
  linked : Linked db
  named : Named db
  clocked : Clocked dying db
  at_m : db.At a m

/-! ## 2. What an event can do to the numbers -/

/-- A mailbox is the same and its modseq has not moved, or it is one of `a` and has moved to
`m`. -/
structure Moved (a m : Int) (b b' : MailboxRow) : Prop where
  id : b'.id = b.id
  accountId : b'.accountId = b.accountId
  modseq : b'.updatedModseq = b.updatedModseq ∨ (b.accountId = a ∧ b'.updatedModseq = m)

/-- Nothing in the mailbox is ahead of it afterwards. -/
def Db.Touched (db : Db) (m b : Int) : Prop := ∀ r ∈ db.mailboxes, r.id = b → r.updatedModseq = m

structure Tick (a m : Int) (dying : Option Int) (db db' : Db) : Prop where
  ids : db'.accounts.map AccountRow.id = db.accounts.map AccountRow.id
  account : ∀ x' ∈ db'.accounts, ∃ x ∈ db.accounts, x'.id = x.id ∧ x'.modseq = x.modseq
  mailbox : ∀ b' ∈ db'.mailboxes, (∃ b ∈ db.mailboxes, Moved a m b b') ∨
    (b'.accountId = a ∧ b'.updatedModseq = m ∧ b'.id = db.mailboxSeq + 1)
  member : ∀ r' ∈ db'.emailMailboxes,
    (∃ r ∈ db.emailMailboxes, r.mailboxId = r'.mailboxId ∧ r.modseq = r'.modseq) ∨
      (r'.modseq = m ∧ db'.Touched m r'.mailboxId)
  vanished : ∀ v ∈ db'.imapVanished, v ∈ db.imapVanished ∨
    (v.modseq = m ∧ (db'.Touched m v.mailboxId ∨ dying = some v.mailboxId))
  change : ∀ c ∈ db'.changes, c ∈ db.changes ∨ (c.modseq = m ∧ c.accountId = a)

section Tick

variable {a m : Int} {dying : Option Int} {db db' : Db}

theorem Tick.at_m (t : Tick a m dying db db') (h : db.At a m) : db'.At a m := by
  intro x' hx' hid
  obtain ⟨x, hx, hxid, hxm⟩ := t.account x' hx'
  rw [hxm]
  exact h x hx (hxid ▸ hid)

/-- A mailbox never falls back. -/
theorem Moved.le {b b' : MailboxRow} (hs : Sound a m dying db) (hb : b ∈ db.mailboxes)
    (h : Moved a m b b') : b.updatedModseq ≤ b'.updatedModseq := by
  rcases h.modseq with h | ⟨ha, h⟩
  · exact le_of_eq h.symm
  · obtain ⟨x, hx, hxid⟩ := hs.linked.mailboxAccount b hb
    rw [h, ← hs.at_m x hx (hxid.trans ha)]
    exact hs.clocked.updated b hb x hx hxid

theorem Tick.clocked (t : Tick a m dying db db') (hs : Sound a m dying db) (hm : 0 ≤ m) :
    Clocked dying db' := by
  have hpos := hs.clocked.positive
  refine ⟨?_, ?_, ?_, ?_, ?_, ?_⟩
  · intro c hc x' hx' hid
    obtain ⟨x, hx, hxid, hxm⟩ := t.account x' hx'
    rcases t.change c hc with hc | ⟨hcm, hca⟩
    · rw [hxm]
      exact hs.clocked.change c hc x hx (hxid ▸ hid)
    · rw [hxm, hcm, hs.at_m x hx (by rw [← hxid, hid, hca])]
  · intro b' hb' x' hx' hid
    obtain ⟨x, hx, hxid, hxm⟩ := t.account x' hx'
    rw [hxm]
    rcases t.mailbox b' hb' with ⟨b, hb, hmv⟩ | ⟨hba, hbm, -⟩
    · rcases hmv.modseq with h | ⟨ha, h⟩
      · rw [h]
        exact hs.clocked.updated b hb x hx (by rw [← hxid, hid, hmv.accountId])
      · rw [h, hs.at_m x hx (by rw [← hxid, hid, hmv.accountId, ha])]
    · rw [hbm, hs.at_m x hx (by rw [← hxid, hid, hba])]
  · intro r' hr' b' hb' hid
    rcases t.member r' hr' with ⟨r, hr, hrb, hrm⟩ | ⟨hrm, htouch⟩
    · rw [← hrm]
      rcases t.mailbox b' hb' with ⟨b, hb, hmv⟩ | ⟨-, -, hnew⟩
      · exact le_trans (hs.clocked.member r hr b hb (by rw [← hmv.id, hid, hrb])) (hmv.le hs hb)
      · obtain ⟨e, -, -, q, hq, hqid, -⟩ := hs.linked.member r hr
        exact absurd (hqid.trans (hrb.trans (hid.symm.trans hnew))) (hs.linked.newMailbox q hq)
    · exact le_of_eq (hrm.trans (htouch b' hb' hid).symm)
  · intro v hv b' hb' hid hdy
    rcases t.vanished v hv with hv | ⟨hvm, htouch | hd⟩
    · rcases t.mailbox b' hb' with ⟨b, hb, hmv⟩ | ⟨-, -, hnew⟩
      · refine le_trans (hs.clocked.vanished v hv b hb (by rw [← hmv.id, hid]) ?_) (hmv.le hs hb)
        rwa [← hmv.id]
      · obtain ⟨q, hq, hqid⟩ := hs.linked.vanished v hv
        exact absurd (hqid.trans (hid.symm.trans hnew)) (hs.linked.newMailbox q hq)
    · exact le_of_eq (hvm.trans (htouch b' hb' hid).symm)
    · exact absurd (hid ▸ hd) hdy
  · intro x' hx'
    obtain ⟨x, hx, -, hxm⟩ := t.account x' hx'
    rw [hxm]
    exact hpos.1 x hx
  · intro b' hb'
    rcases t.mailbox b' hb' with ⟨b, hb, hmv⟩ | ⟨-, hbm, -⟩
    · exact le_trans (hpos.2 b hb) (hmv.le hs hb)
    · rw [hbm]
      exact hm

end Tick

/-! ## 3. Every event is a tick -/

/-- The account's mailboxes stamp what leaves them with `m`. -/
theorem Sound.stampOf_eq {a m b : Int} {dying : Option Int} {db : Db} (hs : Sound a m dying db)
    (hb : db.Has a b) : Db.stampOf db.accounts db.mailboxes b = some m := by
  obtain ⟨r, hr, rfl, rfl⟩ := hb
  obtain ⟨x, hx, hxid⟩ := hs.linked.mailboxAccount r hr
  have hfind : (db.mailboxes.find? fun r' => r'.id == r.id) = some r := hs.keyed.mailbox.find?_eq hr
  have hfind' : (db.accounts.find? fun x' => x'.id == x.id) = some x := hs.keyed.account.find?_eq hx
  simp only [Db.stampOf, hfind, Option.bind_some, ← hxid, hfind', Option.map_some]
  rw [hs.at_m x hx hxid]

theorem exists_account_of_mem_updateWhere {p : AccountRow → Bool} {f : AccountRow → AccountRow}
    {t : List AccountRow} {x' : AccountRow} (hx' : x' ∈ updateWhere p f t)
    (hf : ∀ r, (f r).id = r.id ∧ (f r).modseq = r.modseq) :
    ∃ x ∈ t, x'.id = x.id ∧ x'.modseq = x.modseq := by
  obtain ⟨x, hx, rfl⟩ := mem_updateWhere.1 hx'
  refine ⟨x, hx, ?_⟩
  split
  · exact hf x
  · exact ⟨rfl, rfl⟩

section Events

variable {a m : Int} {dying : Option Int} {db : Db}

/-- The account's mailboxes are not ahead of the transaction. -/
theorem Sound.updated_le (hs : Sound a m dying db) {b : MailboxRow} (hb : b ∈ db.mailboxes)
    (ha : b.accountId = a) : b.updatedModseq ≤ m := by
  obtain ⟨x, hx, hxid⟩ := hs.linked.mailboxAccount b hb
  rw [← hs.at_m x hx (hxid.trans ha)]
  exact hs.clocked.updated b hb x hx hxid

/-- The only mailbox with that id is the account's. -/
theorem Sound.accountId_eq (hs : Sound a m dying db) {b : MailboxRow} (hb : b ∈ db.mailboxes)
    (h : db.Has a b.id) : b.accountId = a := by
  obtain ⟨r, hr, hid, rfl⟩ := h
  rw [hs.keyed.mailbox.eq hb hr hid.symm]

/-- The mailboxes of an email are its account's. -/
theorem Sound.has_of_member (hs : Sound a m dying db) {e : EmailRow} (he : e ∈ db.emails)
    (hea : e.accountId = a) {r : MembershipRow} (hr : r ∈ db.emailMailboxes) (hre : r.emailId = e.id) :
    db.Has a r.mailboxId := by
  obtain ⟨e', he', heid, hb⟩ := hs.linked.member r hr
  rw [← hea, ← hs.keyed.email.eq he' he (heid.trans hre)]
  exact hb

theorem Sound.moved_touchRow (hs : Sound a m dying db) {ids : List Int}
    (hids : ∀ id ∈ ids, db.Has a id) {b : MailboxRow} (hb : b ∈ db.mailboxes) :
    Moved a m b (touchRow m ids b) := by
  refine ⟨touchRow_id m ids b, touchRow_accountId m ids b, ?_⟩
  by_cases hid : b.id ∈ ids
  · have ha := hs.accountId_eq hb (hids _ hid)
    refine .inr ⟨ha, ?_⟩
    simp [touchRow, hid, hs.updated_le hb ha]
  · exact .inl (by simp [touchRow, hid])

theorem Sound.moved_setRow (hs : Sound a m dying db) {ids : List Int}
    (hids : ∀ id ∈ ids, db.Has a id) {b : MailboxRow} (hb : b ∈ db.mailboxes) :
    Moved a m b (setRow m ids b) := by
  refine ⟨setRow_id m ids b, setRow_accountId m ids b, ?_⟩
  by_cases hid : b.id ∈ ids
  · exact .inr ⟨hs.accountId_eq hb (hids _ hid), by simp [setRow, hid]⟩
  · exact .inl (by simp [setRow, hid])

theorem Sound.moved_enterRow (hs : Sound a m dying db) {ids : List Int}
    (hids : ∀ id ∈ ids, db.Has a id) {b : MailboxRow} (hb : b ∈ db.mailboxes) :
    Moved a m b (enterRow m ids b) := by
  refine ⟨enterRow_id m ids b, enterRow_accountId m ids b, ?_⟩
  by_cases hid : b.id ∈ ids
  · exact .inr ⟨hs.accountId_eq hb (hids _ hid), by simp [enterRow, hid]⟩
  · exact .inl (by simp [enterRow, hid])

theorem Tick.store {p : Incoming} {ids : List Int} (hs : Sound a m dying db) (hf : p.Fits a db ids) :
    Tick a m dying db (db.storeEmail p ids m) := by
  rw [Db.storeEmail_eq hf.nodup hf.mailboxes hs.linked.newEmail]
  refine ⟨map_updateWhere (by exact fun _ => rfl) _ _, ?_, ?_, ?_, fun v hv => .inl hv, ?_⟩
  · exact fun x hx => exists_account_of_mem_updateWhere hx fun _ => ⟨rfl, rfl⟩
  · intro b' hb'
    obtain ⟨b, hb, rfl⟩ := List.mem_map.1 hb'
    exact .inl ⟨b, hb, hs.moved_enterRow hf.has hb⟩
  · intro r hr
    rcases List.mem_append.1 hr with hr | hr
    · exact .inl ⟨r, hr, rfl, rfl⟩
    · obtain ⟨id, hid, rfl⟩ := List.mem_map.1 hr
      refine .inr ⟨rfl, ?_⟩
      intro b' hb' hbid
      obtain ⟨b, hb, rfl⟩ := List.mem_map.1 hb'
      have hmem : b.id ∈ ids := by
        rw [← enterRow_id m ids b, hbid]
        exact hid
      simp [enterRow, hmem]
  · intro c hc
    rcases mem_insertAll hc with hc | ⟨hc, -⟩
    · exact .inl hc
    · rw [← hf.account]
      simp only [Db.storeLog, Db.mailboxRows, List.mem_append, List.mem_map, List.mem_cons,
        List.not_mem_nil, or_false] at hc
      rcases hc with ⟨b, -, rfl⟩ | rfl | rfl <;> exact .inr ⟨rfl, rfl⟩

/-- The mailboxes an update is about are the account's. -/
theorem UpdatePlan.Fits.has_of_mem {p : UpdatePlan} (hs : Sound a m dying db) (hf : p.Fits a db) :
    ∀ id ∈ p.oldMailboxes.elems ++ p.newMailboxes.elems, db.Has a id := by
  obtain ⟨row, hrow, hrid, hra⟩ := hf.email
  have hold : ∀ id ∈ p.oldMailboxes, db.Has a id := by
    intro id hid
    rw [hf.oldMailboxes, Db.mem_mailboxesOf] at hid
    obtain ⟨r, hr, hre, rfl⟩ := hid
    exact hs.has_of_member hrow hra hr (hre.trans hrid.symm)
  intro id hid
  rcases List.mem_append.1 hid with hid | hid
  · exact hold id hid
  · by_cases hin : id ∈ p.oldMailboxes
    · exact hold id hin
    · exact hf.has id (by simpa [UpdatePlan.entered, hin] using hid)

theorem Tick.update {p : UpdatePlan} (hs : Sound a m dying db) (hf : p.Fits a db) :
    Tick a m dying db (db.applyUpdate a m p) := by
  obtain ⟨gone, hgone, heq⟩ := Db.applyUpdate_eq a m hf.oldMailboxes hf.mailboxes
  rw [heq]
  have hhas := hf.has_of_mem hs
  set ids := p.oldMailboxes.elems ++ p.newMailboxes.elems
  -- Every mailbox the email was or is in has moved.
  have htouch : ∀ id ∈ ids, ∀ b' ∈ db.mailboxes.map (touchRow m ids ∘ enterRow m p.entered.elems),
      b'.id = id → b'.updatedModseq = m := by
    intro id hid b' hb' hbid
    obtain ⟨b, hb, rfl⟩ := List.mem_map.1 hb'
    simp only [Function.comp_apply, touchRow_id, enterRow_id] at hbid
    subst hbid
    have hle := hs.updated_le hb (hs.accountId_eq hb (hhas _ hid))
    by_cases hin : b.id ∈ p.entered.elems <;> simp [touchRow, enterRow, hid, hin, hle]
  refine ⟨rfl, fun x hx => ⟨x, hx, rfl, rfl⟩, ?_, ?_, ?_, ?_⟩
  · intro b' hb'
    obtain ⟨b, hb, rfl⟩ := List.mem_map.1 hb'
    refine .inl ⟨b, hb, by simp, by simp, ?_⟩
    by_cases hid : b.id ∈ ids
    · exact .inr ⟨hs.accountId_eq hb (hhas _ hid), htouch b.id hid _ hb' (by simp)⟩
    · have hin : b.id ∉ p.entered.elems := fun hin => hid (by
        simp only [UpdatePlan.entered, SortedSet.mem_elems, SortedSet.mem_difference] at hin
        exact List.mem_append_right _ hin.1)
      exact .inl (by simp [touchRow, enterRow, hid, hin])
  · intro r hr
    rcases List.mem_append.1 hr with hr | hr
    · obtain ⟨r₀, hr₀, rfl⟩ := mem_updateWhere.1 hr
      obtain ⟨hr₀, hkeep⟩ := mem_deleteWhere.1 hr₀
      by_cases he : r₀.emailId = p.email
      · refine .inr ⟨by simp [he], ?_⟩
        have hid : r₀.mailboxId ∈ ids := by
          refine List.mem_append_left _ ?_
          rw [hf.oldMailboxes]
          exact Db.mem_mailboxesOf.2 ⟨r₀, hr₀, he, rfl⟩
        rw [if_pos (by simpa using he)]
        exact htouch _ hid
      · exact .inl ⟨r₀, hr₀, by simp [he], by simp [he]⟩
    · obtain ⟨id, hid, rfl⟩ := List.mem_map.1 hr
      refine .inr ⟨rfl, htouch id (List.mem_append_right _ ?_)⟩
      simp only [UpdatePlan.entered, SortedSet.mem_elems, SortedSet.mem_difference] at hid
      exact hid.1
  · intro v hv
    have hgoneId : ∀ r ∈ gone, r.mailboxId ∈ ids := by
      intro r hr
      have hleft := ((hgone r).1 hr).2.2
      simp only [UpdatePlan.left, SortedSet.mem_difference] at hleft
      exact List.mem_append_left _ hleft.1
    have hstamp : ∀ r ∈ gone, Db.stampOf db.accounts db.mailboxes r.mailboxId = some m :=
      fun r hr => hs.stampOf_eq (hhas _ (hgoneId r hr))
    rcases (Db.mem_vanishAll hstamp v).1 hv with ⟨hv, -⟩ | ⟨hvm, r, hr, hrv, -⟩
    · exact .inl hv
    · exact .inr ⟨hvm, .inl (hrv ▸ htouch _ (hgoneId r hr))⟩
  · intro c hc
    rcases mem_insertAll hc with hc | ⟨hc, -⟩
    · exact .inl hc
    · simp only [Db.updateLog, Db.mailboxRows, List.mem_cons, List.mem_map] at hc
      rcases hc with rfl | ⟨b, -, rfl⟩ <;> exact .inr ⟨rfl, rfl⟩

theorem Tick.destroy {row : EmailRow} (hs : Sound a m dying db) (hrow : row ∈ db.emails)
    (hra : row.accountId = a) : Tick a m dying db (db.applyDestroy a m row) := by
  rw [Db.applyDestroy_eq]
  have hhas : ∀ id ∈ (db.mailboxesOf row.id).elems, db.Has a id := by
    intro id hid
    obtain ⟨r, hr, hre, rfl⟩ := Db.mem_mailboxesOf.1 hid
    exact hs.has_of_member hrow hra hr hre
  refine ⟨map_updateWhere (by exact fun _ => rfl) _ _, ?_, ?_, ?_, ?_, ?_⟩
  · exact fun x hx => exists_account_of_mem_updateWhere hx fun _ => ⟨rfl, rfl⟩
  · intro b' hb'
    obtain ⟨b, hb, rfl⟩ := List.mem_map.1 hb'
    exact .inl ⟨b, hb, hs.moved_setRow hhas hb⟩
  · exact fun r hr => .inl ⟨r, (mem_deleteWhere.1 hr).1, rfl, rfl⟩
  · intro v hv
    have hgone : ∀ r ∈ db.emailMailboxes.filter (fun r => r.emailId == row.id),
        r.mailboxId ∈ (db.mailboxesOf row.id).elems := by
      intro r hr
      obtain ⟨hr, hre⟩ := List.mem_filter.1 hr
      exact Db.mem_mailboxesOf.2 ⟨r, hr, by simpa using hre, rfl⟩
    rcases (Db.mem_vanishAll (fun r hr => hs.stampOf_eq (hhas _ (hgone r hr))) v).1 hv with
      ⟨hv, -⟩ | ⟨hvm, r, hr, hrv, -⟩
    · exact .inl hv
    · refine .inr ⟨hvm, .inl ?_⟩
      intro b' hb' hbid
      obtain ⟨b, hb, rfl⟩ := List.mem_map.1 hb'
      have hin : b.id ∈ (db.mailboxesOf row.id).elems := by
        rw [← setRow_id m _ b, hbid, ← hrv]
        exact hgone r hr
      simp only [setRow, hin, if_true]
  · intro c hc
    rcases mem_insertAll hc with hc | ⟨hc, -⟩
    · exact .inl hc
    · simp only [Db.destroyLog, Db.mailboxRows, List.mem_cons, List.mem_append, List.mem_map,
        List.not_mem_nil, or_false] at hc
      rcases hc with rfl | ⟨b, -, rfl⟩ | rfl <;> exact .inr ⟨rfl, rfl⟩

theorem Tick.leave {email mailbox : Int} (hs : Sound a m (some mailbox) db)
    (hf : db.Leaves a email mailbox) :
    Tick a m (some mailbox) db (db.leaveMailbox a m email mailbox) := by
  obtain ⟨row, hrow, hrid, hra⟩ := hf.own
  have hhas : ∀ id ∈ (db.mailboxIdsOf email).filter fun id => id != mailbox, db.Has a id := by
    intro id hid
    obtain ⟨r, hr, hre, rfl⟩ := Db.mem_mailboxIdsOf.1 (List.mem_filter.1 hid).1
    exact hs.has_of_member hrow hra hr (hre.trans hrid.symm)
  rw [Db.leaveMailbox_eq]
  refine ⟨rfl, fun x hx => ⟨x, hx, rfl, rfl⟩, ?_, ?_, ?_, ?_⟩
  · intro b' hb'
    obtain ⟨b, hb, rfl⟩ := List.mem_map.1 hb'
    exact .inl ⟨b, hb, hs.moved_touchRow hhas hb⟩
  · exact fun r hr => .inl ⟨r, (mem_deleteWhere.1 hr).1, rfl, rfl⟩
  · intro v hv
    have hstamp : ∀ r ∈ db.emailMailboxes.filter (fun r => r.emailId == email && r.mailboxId == mailbox),
        Db.stampOf db.accounts db.mailboxes r.mailboxId = some m := by
      intro r hr
      obtain ⟨hr, hre⟩ := List.mem_filter.1 hr
      simp only [Bool.and_eq_true, beq_iff_eq] at hre
      exact hs.stampOf_eq (hs.has_of_member hrow hra hr (hre.1.trans hrid.symm))
    rcases (Db.mem_vanishAll hstamp v).1 hv with ⟨hv, -⟩ | ⟨hvm, r, hr, hrv, -⟩
    · exact .inl hv
    · have hre := (List.mem_filter.1 hr).2
      simp only [Bool.and_eq_true, beq_iff_eq] at hre
      exact .inr ⟨hvm, Or.inr (by rw [← hrv, hre.2])⟩
  · intro c hc
    rcases mem_insertOrIgnore.1 hc with hc | ⟨rfl, -⟩
    · exact .inl hc
    · exact .inr ⟨rfl, rfl⟩

theorem Tick.create {row : MailboxRow} (hs : Sound a m dying db) (hf : row.Fits a m db) :
    Tick a m dying db (db.applyCreate a m row) := by
  rw [Db.applyCreate_eq hf.id hf.updated (hf.new hs.linked)]
  refine ⟨rfl, fun x hx => ⟨x, hx, rfl, rfl⟩, ?_, fun r hr => .inl ⟨r, hr, rfl, rfl⟩,
    fun v hv => .inl hv, ?_⟩
  · intro b' hb'
    rcases List.mem_append.1 hb' with hb' | hb'
    · exact .inl ⟨b', hb', rfl, rfl, .inl rfl⟩
    · rw [List.mem_singleton.1 hb']
      exact .inr ⟨hf.account, hf.updated, hf.id⟩
  · intro c hc
    rcases mem_insertOrIgnore.1 hc with hc | ⟨rfl, -⟩
    · exact .inl hc
    · exact .inr ⟨rfl, rfl⟩

theorem Tick.alter {id : Int} {u : MailboxUpdate} (hs : Sound a m dying db) (hf : u.Fits a db id) :
    Tick a m dying db ((db.updateMailboxes (fun r => r.id == id) u.apply).mailboxUpdated a m id) := by
  rw [Db.mailboxUpdated_eq]
  refine ⟨rfl, fun x hx => ⟨x, hx, rfl, rfl⟩, ?_, fun r hr => .inl ⟨r, hr, rfl, rfl⟩,
    fun v hv => .inl hv, ?_⟩
  · intro b' hb'
    obtain ⟨b₁, hb₁, rfl⟩ := List.mem_map.1 hb'
    obtain ⟨b, hb, rfl⟩ := mem_updateWhere.1 hb₁
    refine .inl ⟨b, hb, ?_, ?_, ?_⟩
    · rw [setRow_id]
      split <;> rfl
    · rw [setRow_accountId]
      split <;> rfl
    · by_cases hid : b.id = id
      · exact .inr ⟨hs.accountId_eq hb (hid ▸ hf.has), by simp [setRow, hid]⟩
      · exact .inl (by simp [setRow, hid])
  · intro c hc
    rcases mem_insertOrIgnore.1 hc with hc | ⟨rfl, -⟩
    · exact .inl hc
    · exact .inr ⟨rfl, rfl⟩

theorem Tick.share {b : Int} {acl : List AclRow} (hs : Sound a m dying db) (hf : db.Has a b) :
    Tick a m dying db (db.applyAcl a m b acl) := by
  rw [Db.applyAcl, Db.recordChange_eq]
  refine ⟨map_updateWhere (by exact fun _ => rfl) _ _, ?_, ?_, fun r hr => .inl ⟨r, hr, rfl, rfl⟩,
    fun v hv => .inl hv, ?_⟩
  · exact fun x hx => exists_account_of_mem_updateWhere hx fun _ => ⟨rfl, rfl⟩
  · intro b' hb'
    obtain ⟨c, hc, rfl⟩ := List.mem_map.1 hb'
    refine .inl ⟨c, hc, hs.moved_touchRow ?_ hc⟩
    simpa [Db.shownIn] using hf
  · intro c hc
    rcases mem_insertOrIgnore.1 hc with hc | ⟨rfl, -⟩
    · exact .inl hc
    · exact .inr ⟨rfl, rfl⟩

theorem Tick.members {list : List Int} {shared : Bool} :
    Tick a m dying db (db.applyMembers a m list shared) := by
  refine ⟨?_, ?_, fun b hb => .inl ⟨b, hb, rfl, rfl, .inl rfl⟩,
    fun r hr => .inl ⟨r, hr, rfl, rfl⟩, fun v hv => .inl hv, fun c hc => .inl hc⟩
  · exact (map_updateWhere (by exact fun _ => rfl) _ _).trans
      (map_updateWhere (by exact fun _ => rfl) _ _)
  intro x hx
  obtain ⟨x₁, hx₁, hid₁, hm₁⟩ := exists_account_of_mem_updateWhere hx fun _ => ⟨rfl, rfl⟩
  obtain ⟨x₀, hx₀, hid₀, hm₀⟩ := exists_account_of_mem_updateWhere hx₁ fun _ => ⟨rfl, rfl⟩
  exact ⟨x₀, hx₀, hid₁.trans hid₀, hm₁.trans hm₀⟩

/-- **Every event is a tick.** -/
theorem Event.Fits.tick {e : Event} (hf : e.Fits a m dying db) (hs : Sound a m dying db) :
    Tick a m dying db (e.apply a m db) := by
  cases e with
  | store p ids => exact Tick.store hs hf.2
  | update plan => exact Tick.update hs hf.2
  | destroy row => exact Tick.destroy hs hf.1 hf.2
  | leave email mailbox =>
    obtain ⟨rfl, hf⟩ := hf
    exact Tick.leave hs hf
  | create row => exact Tick.create hs hf.2
  | alter id u => exact Tick.alter hs hf.2
  | share mailbox acl => exact Tick.share hs hf.2.1
  | members list shared => exact Tick.members

/-- Every event keeps everything. -/
theorem Event.Fits.sound {e : Event} (hf : e.Fits a m dying db) (hs : Sound a m dying db)
    (hm : 0 ≤ m) : Sound a m dying (e.apply a m db) := by
  have ht := hf.tick hs
  refine ⟨?_, ?_, ?_, ht.clocked hs hm, ht.at_m hs.at_m⟩
  · cases e with
    | store p ids => exact hs.keyed.store hs.linked hf.2
    | update plan => exact hs.keyed.update hf.2
    | destroy row => exact hs.keyed.destroy
    | leave email mailbox => exact hs.keyed.leave
    | create row => exact hs.keyed.create hs.linked hf.2
    | alter id u => exact hs.keyed.alter
    | share mailbox acl => exact hs.keyed.share
    | members list shared => exact hs.keyed.members
  · cases e with
    | store p ids => exact hs.linked.store hf.2
    | update plan => exact hs.linked.update hf.2
    | destroy row => exact hs.linked.destroy hf.1 hf.2
    | leave email mailbox => exact hs.linked.leave hf.2
    | create row => exact hs.linked.create hf.2
    | alter id u => exact hs.linked.alter hs.keyed hf.2
    | share mailbox acl => exact hs.linked.share hf.2.1
    | members list shared => exact hs.linked.members
  · cases e with
    | store p ids => exact hs.named.store hs.linked hf.2
    | update plan => exact hs.named.update hf.2
    | destroy row => exact hs.named.destroy
    | leave email mailbox => exact hs.named.leave
    | create row => exact hs.named.create hs.linked hf.2
    | alter id u => exact hs.named.alter hs.keyed hf.2
    | share mailbox acl => exact hs.named.share
    | members list shared => exact hs.named.of_eq rfl

end Events

end UwuMail.Store
