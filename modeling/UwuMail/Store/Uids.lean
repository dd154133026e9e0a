/-
# UIDs

A UID names a message in a mailbox for ever.  `UidStep` says what any write can do to UIDs: it
hands out the next one of a mailbox and moves `uid_next` past it, it takes memberships away and
leaves their UIDs in `imap_vanished`, or it does nothing.  From that alone the invariant `Uids`
follows, and with it that a UID which is used up is never seen on another message, nor on the
same one again.
-/
import UwuMail.Store.Run

namespace UwuMail.Store

open Table

/-! ## 1. What a write can do -/

/-- What a write did to UIDs; `new` are the ones it gave out. -/
structure UidStep (new : List Assignment) (db db' : Db) : Prop where
  seq : db.mailboxSeq ≤ db'.mailboxSeq
  assigned : db'.assigned = db.assigned ++ new
  nodup : (new.map (·.mailboxId)).Nodup
  given : ∀ x ∈ new, (∃ b ∈ db.mailboxes, b.id = x.mailboxId ∧ b.uidNext = x.uid) ∧
    ∀ b' ∈ db'.mailboxes, b'.id = x.mailboxId → x.uid < b'.uidNext
  mailbox : ∀ b' ∈ db'.mailboxes, (∃ b ∈ db.mailboxes, b.id = b'.id ∧ b.uidNext ≤ b'.uidNext) ∨
    b'.id = db.mailboxSeq + 1
  member : ∀ r' ∈ db'.emailMailboxes,
    (∃ r ∈ db.emailMailboxes, r.emailId = r'.emailId ∧ r.mailboxId = r'.mailboxId ∧ r.uid = r'.uid) ∨
      ⟨r'.mailboxId, r'.uid, r'.emailId⟩ ∈ new
  vanished : ∀ v ∈ db'.imapVanished,
    (∃ w ∈ db.imapVanished, w.mailboxId = v.mailboxId ∧ w.uid = v.uid) ∨
      ∃ r ∈ db.emailMailboxes, r.mailboxId = v.mailboxId ∧ r.uid = v.uid ∧
        ∀ r' ∈ db'.emailMailboxes, ¬(r'.emailId = r.emailId ∧ r'.mailboxId = r.mailboxId)

/-- A write that gives no UID out, by the tables it leaves. -/
theorem UidStep.quiet {db db' : Db} (hseq : db.mailboxSeq ≤ db'.mailboxSeq)
    (hassigned : db'.assigned = db.assigned)
    (hmailbox : ∀ b' ∈ db'.mailboxes, (∃ b ∈ db.mailboxes, b.id = b'.id ∧ b.uidNext ≤ b'.uidNext) ∨
      b'.id = db.mailboxSeq + 1)
    (hmember : ∀ r' ∈ db'.emailMailboxes, r' ∈ db.emailMailboxes)
    (hvanished : ∀ v ∈ db'.imapVanished, v ∈ db.imapVanished ∨
      ∃ r ∈ db.emailMailboxes, r.mailboxId = v.mailboxId ∧ r.uid = v.uid ∧
        ∀ r' ∈ db'.emailMailboxes, ¬(r'.emailId = r.emailId ∧ r'.mailboxId = r.mailboxId)) :
    UidStep [] db db' where
  seq := hseq
  assigned := by rw [hassigned, List.append_nil]
  nodup := List.nodup_nil
  given := by simp
  mailbox := hmailbox
  member := fun r' hr' => .inl ⟨r', hmember r' hr', rfl, rfl, rfl⟩
  vanished := fun v hv => (hvanished v hv).imp_left fun hv => ⟨v, hv, rfl, rfl⟩

/-- The mailboxes of a table that only other columns are rewritten of. -/
theorem uidNext_le_map {t : List MailboxRow} {g : MailboxRow → MailboxRow} {n : Int}
    (hg : ∀ r, (g r).id = r.id ∧ r.uidNext ≤ (g r).uidNext) :
    ∀ b' ∈ t.map g, (∃ b ∈ t, b.id = b'.id ∧ b.uidNext ≤ b'.uidNext) ∨ b'.id = n := by
  intro b' hb'
  obtain ⟨b, hb, rfl⟩ := List.mem_map.1 hb'
  exact .inl ⟨b, hb, (hg b).1.symm, (hg b).2⟩

theorem touchRow_uidNext (m : Int) (ids : List Int) (r : MailboxRow) :
    (touchRow m ids r).id = r.id ∧ r.uidNext ≤ (touchRow m ids r).uidNext := by
  unfold touchRow; split <;> exact ⟨rfl, le_refl _⟩

theorem setRow_uidNext (m : Int) (ids : List Int) (r : MailboxRow) :
    (setRow m ids r).id = r.id ∧ r.uidNext ≤ (setRow m ids r).uidNext := by
  unfold setRow; split <;> exact ⟨rfl, le_refl _⟩

theorem enterRow_uidNext (m : Int) (ids : List Int) (r : MailboxRow) :
    (enterRow m ids r).id = r.id ∧ r.uidNext ≤ (enterRow m ids r).uidNext := by
  unfold enterRow; split
  · exact ⟨rfl, by simp⟩
  · exact ⟨rfl, le_refl _⟩

/-- The next UID of a mailbox is in its row. -/
theorem Keyed.uidNextIn_eq {db : Db} (hk : Keyed db) {b : MailboxRow} (hb : b ∈ db.mailboxes) :
    Db.uidNextIn db.mailboxes b.id = b.uidNext := by
  rw [Db.uidNextIn, hk.mailbox.find?_eq hb]
  rfl

/-- The UIDs one email is given are the next ones of the mailboxes, and are used up. -/
theorem given_assignments {db : Db} {m email : Int} {ids : List Int} {g : MailboxRow → MailboxRow}
    (hk : Keyed db) (h : ∀ id ∈ ids, ∃ r ∈ db.mailboxes, r.id = id)
    (hg : ∀ r, (g r).id = r.id ∧ (enterRow m ids r).uidNext ≤ (g r).uidNext) :
    ∀ x ∈ Db.assignments db.mailboxes email ids,
      (∃ b ∈ db.mailboxes, b.id = x.mailboxId ∧ b.uidNext = x.uid) ∧
        ∀ b' ∈ db.mailboxes.map g, b'.id = x.mailboxId → x.uid < b'.uidNext := by
  intro x hx
  obtain ⟨id, hid, rfl⟩ := List.mem_map.1 hx
  obtain ⟨b, hb, rfl⟩ := h id hid
  refine ⟨⟨b, hb, rfl, (hk.uidNextIn_eq hb).symm⟩, ?_⟩
  intro b' hb' hbid
  obtain ⟨q, hq, rfl⟩ := List.mem_map.1 hb'
  rw [(hg q).1] at hbid
  rw [hk.mailbox.eq hq hb hbid]
  refine lt_of_lt_of_le ?_ (hg b).2
  simp [hk.uidNextIn_eq hb, enterRow, hid]

theorem nodup_assignments {t : List MailboxRow} {email : Int} {ids : List Int} (h : ids.Nodup) :
    ((Db.assignments t email ids).map (·.mailboxId)).Nodup := by
  rw [Db.assignments, List.map_map]
  simpa [Function.comp_def] using h

theorem mem_assignments_of_entries {t : List MailboxRow} {email m : Int} {ids : List Int}
    {r : MembershipRow} (h : r ∈ Db.entries t email m ids) :
    ⟨r.mailboxId, r.uid, r.emailId⟩ ∈ Db.assignments t email ids := by
  obtain ⟨id, hid, rfl⟩ := List.mem_map.1 h
  exact List.mem_map_of_mem hid

section Events

variable {a m : Int} {dying : Option Int} {db : Db}

theorem UidStep.store {p : Incoming} {ids : List Int} (hs : Sound a m dying db) (hf : p.Fits a db ids) :
    UidStep (Db.assignments db.mailboxes (db.emailSeq + 1) ids) db (db.storeEmail p ids m) := by
  rw [Db.storeEmail_eq hf.nodup hf.mailboxes hs.linked.newEmail]
  refine ⟨le_refl _, rfl, nodup_assignments hf.nodup, ?_, ?_, ?_, fun v hv => .inl ⟨v, hv, rfl, rfl⟩⟩
  · exact given_assignments hs.keyed hf.mailboxes fun r => ⟨enterRow_id m ids r, le_refl _⟩
  · exact uidNext_le_map (enterRow_uidNext m ids)
  · intro r hr
    rcases List.mem_append.1 hr with hr | hr
    · exact .inl ⟨r, hr, rfl, rfl, rfl⟩
    · exact .inr (mem_assignments_of_entries hr)

theorem UidStep.update {p : UpdatePlan} (hs : Sound a m dying db) (hf : p.Fits a db) :
    UidStep (Db.assignments db.mailboxes p.email p.entered.elems) db (db.applyUpdate a m p) := by
  obtain ⟨gone, hgone, heq⟩ := Db.applyUpdate_eq a m hf.oldMailboxes hf.mailboxes
  rw [heq]
  have hg : ∀ r, ((touchRow m (p.oldMailboxes.elems ++ p.newMailboxes.elems) ∘
      enterRow m p.entered.elems) r).id = r.id ∧ (enterRow m p.entered.elems r).uidNext ≤
        ((touchRow m (p.oldMailboxes.elems ++ p.newMailboxes.elems) ∘
          enterRow m p.entered.elems) r).uidNext :=
    fun r => ⟨by simp, (touchRow_uidNext m _ (enterRow m p.entered.elems r)).2⟩
  refine ⟨le_refl _, rfl, nodup_assignments p.entered.nodup, given_assignments hs.keyed hf.mailboxes hg,
    uidNext_le_map fun r => ⟨(hg r).1, le_trans (enterRow_uidNext m _ r).2 (hg r).2⟩, ?_, ?_⟩
  · intro r hr
    rcases List.mem_append.1 hr with hr | hr
    · obtain ⟨r₀, hr₀, rfl⟩ := mem_updateWhere.1 hr
      refine .inl ⟨r₀, (mem_deleteWhere.1 hr₀).1, ?_⟩
      split <;> exact ⟨rfl, rfl, rfl⟩
    · exact .inr (mem_assignments_of_entries hr)
  · intro v hv
    rcases Db.mem_vanishAll_imp hv with hv | ⟨r, hr, hrb, hru⟩
    · exact .inl ⟨v, hv, rfl, rfl⟩
    · obtain ⟨hr, hre, hleft⟩ := (hgone r).1 hr
      refine .inr ⟨r, hr, hrb, hru, ?_⟩
      rintro r' hr' ⟨he, hb⟩
      rcases List.mem_append.1 hr' with hr' | hr'
      · obtain ⟨r₀, hr₀, rfl⟩ := mem_updateWhere.1 hr'
        have hkeep := (mem_deleteWhere.1 hr₀).2
        have hsame : r₀.emailId = p.email ∧ r₀.mailboxId = r.mailboxId := by
          split at he <;> split at hb <;> exact ⟨he.trans hre, hb⟩
        simp [hsame.1, hsame.2, hleft] at hkeep
      · obtain ⟨id, hid, rfl⟩ := List.mem_map.1 hr'
        simp only [UpdatePlan.entered, UpdatePlan.left, SortedSet.mem_elems,
          SortedSet.mem_difference] at hid hleft
        rw [← hb] at hleft
        exact hleft.2 hid.1

theorem UidStep.destroy {row : EmailRow} : UidStep [] db (db.applyDestroy a m row) := by
  rw [Db.applyDestroy_eq]
  refine .quiet (le_refl _) rfl (uidNext_le_map (setRow_uidNext m _)) (fun r hr => (mem_deleteWhere.1 hr).1) ?_
  intro v hv
  rcases Db.mem_vanishAll_imp hv with hv | ⟨r, hr, hrb, hru⟩
  · exact .inl hv
  · obtain ⟨hr, hre⟩ := List.mem_filter.1 hr
    refine .inr ⟨r, hr, hrb, hru, ?_⟩
    rintro r' hr' ⟨he, -⟩
    have hkeep := (mem_deleteWhere.1 hr').2
    rw [he, hre] at hkeep
    cases hkeep

theorem UidStep.leave {email mailbox : Int} :
    UidStep [] db (db.leaveMailbox a m email mailbox) := by
  rw [Db.leaveMailbox_eq]
  refine .quiet (le_refl _) rfl (uidNext_le_map (touchRow_uidNext m _))
    (fun r hr => (mem_deleteWhere.1 hr).1) ?_
  intro v hv
  rcases Db.mem_vanishAll_imp hv with hv | ⟨r, hr, hrb, hru⟩
  · exact .inl hv
  · obtain ⟨hr, hre⟩ := List.mem_filter.1 hr
    refine .inr ⟨r, hr, hrb, hru, ?_⟩
    rintro r' hr' ⟨he, hb⟩
    have hkeep := (mem_deleteWhere.1 hr').2
    rw [he, hb, hre] at hkeep
    cases hkeep

theorem UidStep.drop {b : Int} : UidStep [] db (db.dropMailbox a m b) := by
  rw [Db.dropMailbox_eq]
  refine .quiet (le_refl _) rfl ?_ (fun r hr => (mem_deleteWhere.1 hr).1)
    fun v hv => .inl (mem_deleteWhere.1 hv).1
  exact fun q hq => .inl ⟨q, (mem_deleteWhere.1 hq).1, rfl, le_refl _⟩

/-- Every event is such a step. -/
theorem Event.Fits.uidStep {e : Event} (hf : e.Fits a m dying db) (hs : Sound a m dying db) :
    ∃ new, UidStep new db (e.apply a m db) := by
  cases e with
  | store p ids => exact ⟨_, UidStep.store hs hf.2⟩
  | update plan => exact ⟨_, UidStep.update hs hf.2⟩
  | destroy row => exact ⟨[], UidStep.destroy⟩
  | leave email mailbox => exact ⟨[], UidStep.leave⟩
  | create row =>
    refine ⟨[], ?_⟩
    rw [Event.apply, Db.applyCreate_eq hf.2.id hf.2.updated (hf.2.new hs.linked)]
    refine .quiet ?_ rfl ?_ (fun r hr => hr) fun v hv => .inl hv
    · show db.mailboxSeq ≤ row.id
      have := hf.2.id
      omega
    intro b hb
    rcases List.mem_append.1 hb with hb | hb
    · exact .inl ⟨b, hb, rfl, le_refl _⟩
    · exact .inr (List.mem_singleton.1 hb ▸ hf.2.id)
  | alter id u =>
    refine ⟨[], ?_⟩
    rw [Event.apply, Db.mailboxUpdated_eq]
    refine .quiet (le_refl _) rfl ?_ (fun r hr => hr) fun v hv => .inl hv
    intro b' hb'
    obtain ⟨b₁, hb₁, rfl⟩ := List.mem_map.1 hb'
    obtain ⟨b, hb, rfl⟩ := mem_updateWhere.1 hb₁
    refine .inl ⟨b, hb, ?_, ?_⟩
    · rw [setRow_id]
      split <;> rfl
    · refine le_trans ?_ (setRow_uidNext m [id] _).2
      split <;> exact le_refl _
  | share mailbox acl =>
    refine ⟨[], ?_⟩
    rw [Event.apply, Db.applyAcl, Db.recordChange_eq]
    exact .quiet (le_refl _) rfl (uidNext_le_map (touchRow_uidNext m _)) (fun r hr => hr) fun v hv => .inl hv
  | members list shared =>
    exact ⟨[], .quiet (le_refl _) rfl (fun b hb => .inl ⟨b, hb, rfl, le_refl _⟩) (fun r hr => hr)
      fun v hv => .inl hv⟩

end Events

/-! ## 2. The invariant -/

structure Uids (db : Db) : Prop where
  /-- No UID of a mailbox is given out twice. -/
  once : UniqueKey (fun x : Assignment => (x.mailboxId, x.uid)) db.assigned
  below : ∀ x ∈ db.assigned, ∀ b ∈ db.mailboxes, b.id = x.mailboxId → x.uid < b.uidNext
  member : ∀ r ∈ db.emailMailboxes, ⟨r.mailboxId, r.uid, r.emailId⟩ ∈ db.assigned
  vanished : ∀ v ∈ db.imapVanished, ∃ x ∈ db.assigned, x.mailboxId = v.mailboxId ∧ x.uid = v.uid
  apart : ∀ r ∈ db.emailMailboxes, ∀ v ∈ db.imapVanished, ¬(r.mailboxId = v.mailboxId ∧ r.uid = v.uid)

section Uids

variable {db db' : Db} {new : List Assignment}

/-- In a mailbox a UID stands for one message. -/
theorem Uids.member_eq (h : Uids db) (hk : Keyed db) {r r' : MembershipRow} (hr : r ∈ db.emailMailboxes)
    (hr' : r' ∈ db.emailMailboxes) (hb : r.mailboxId = r'.mailboxId) (hu : r.uid = r'.uid) : r = r' := by
  have hx := h.once.eq (h.member r hr) (h.member r' hr') (Prod.ext hb hu)
  exact hk.member.eq hr hr' (Prod.ext (congrArg Assignment.emailId hx) hb)

/-- What is given out is new. -/
theorem UidStep.fresh (st : UidStep new db db') (h : Uids db) :
    ∀ x ∈ db.assigned, ∀ y ∈ new, ¬(x.mailboxId = y.mailboxId ∧ x.uid = y.uid) := by
  rintro x hx y hy ⟨hb, hu⟩
  obtain ⟨⟨b, hmem, hid, hnext⟩, -⟩ := st.given y hy
  have := h.below x hx b hmem (hid.trans hb.symm)
  omega

theorem UidStep.uids (st : UidStep new db db') (h : Uids db) (hk : Keyed db) (hl : Linked db) :
    Uids db' := by
  refine ⟨?_, ?_, ?_, ?_, ?_⟩
  · rw [st.assigned]
    refine h.once.append_of_disjoint ?_ ?_
    · refine List.Nodup.of_map Prod.fst ?_
      rw [List.map_map]
      exact st.nodup
    · intro x hx y hy hxy
      exact st.fresh h x hx y hy (Prod.mk.inj hxy)
  · intro x hx b' hb' hid
    rw [st.assigned] at hx
    rcases List.mem_append.1 hx with hx | hx
    · rcases st.mailbox b' hb' with ⟨b, hb, hbid, hle⟩ | hnew
      · exact lt_of_lt_of_le (h.below x hx b hb (hbid.trans hid)) hle
      · have := hl.assigned x hx
        omega
    · exact (st.given x hx).2 b' hb' hid
  · intro r' hr'
    rw [st.assigned]
    rcases st.member r' hr' with ⟨r, hr, he, hb, hu⟩ | hnew
    · rw [← he, ← hb, ← hu]
      exact List.mem_append_left _ (h.member r hr)
    · exact List.mem_append_right _ hnew
  · intro v hv
    rw [st.assigned]
    rcases st.vanished v hv with ⟨w, hw, hb, hu⟩ | ⟨r, hr, hb, hu, -⟩
    · obtain ⟨x, hx, hxb, hxu⟩ := h.vanished w hw
      exact ⟨x, List.mem_append_left _ hx, hxb.trans hb, hxu.trans hu⟩
    · exact ⟨_, List.mem_append_left _ (h.member r hr), hb, hu⟩
  · rintro r' hr' v hv ⟨hb, hu⟩
    -- The UID of `v` was given out before.
    obtain ⟨x, hx, hxb, hxu⟩ : ∃ x ∈ db.assigned, x.mailboxId = v.mailboxId ∧ x.uid = v.uid := by
      rcases st.vanished v hv with ⟨w, hw, hwb, hwu⟩ | ⟨r, hr, hrb, hru, -⟩
      · obtain ⟨x, hx, hxb, hxu⟩ := h.vanished w hw
        exact ⟨x, hx, hxb.trans hwb, hxu.trans hwu⟩
      · exact ⟨_, h.member r hr, hrb, hru⟩
    rcases st.member r' hr' with ⟨r, hr, he, hrb, hru⟩ | hnew
    · rcases st.vanished v hv with ⟨w, hw, hwb, hwu⟩ | ⟨q, hq, hqb, hqu, hgone⟩
      · exact h.apart r hr w hw ⟨by rw [hrb, hb, hwb], by rw [hru, hu, hwu]⟩
      · have hrq := h.member_eq hk hr hq (by rw [hrb, hb, hqb]) (by rw [hru, hu, hqu])
        subst hrq
        exact hgone r' hr' ⟨he.symm, hrb.symm⟩
    · exact st.fresh h x hx _ hnew ⟨hxb.trans hb.symm, hxu.trans hu.symm⟩

end Uids

theorem Uids.empty : Uids {} := by
  constructor <;> simp [UniqueKey]

/-! ## 3. Two moments -/

/-- What holds of UIDs between a moment `s` and a later one. -/
structure UidsLater (s db : Db) : Prop where
  seq : s.mailboxSeq ≤ db.mailboxSeq
  history : s.assigned <+: db.assigned
  next : ∀ b ∈ s.mailboxes, ∀ b' ∈ db.mailboxes, b'.id = b.id → b.uidNext ≤ b'.uidNext
  member : ∀ b ∈ s.mailboxes, ∀ r' ∈ db.emailMailboxes, r'.mailboxId = b.id →
    (∃ r ∈ s.emailMailboxes, r.emailId = r'.emailId ∧ r.mailboxId = b.id ∧ r.uid = r'.uid) ∨
      b.uidNext ≤ r'.uid

theorem UidsLater.refl {s : Db} (hk : Keyed s) : UidsLater s s where
  seq := le_refl _
  history := List.prefix_refl _
  next := fun b hb b' hb' hid => le_of_eq (by rw [hk.mailbox.eq hb' hb hid])
  member := fun _ _ r' hr' hid => .inl ⟨r', hr', rfl, hid, rfl⟩

theorem UidStep.later {new : List Assignment} {s db db' : Db} (st : UidStep new db db')
    (h : UidsLater s db) (hl : Linked s) : UidsLater s db' := by
  refine ⟨le_trans h.seq st.seq, ?_, ?_, ?_⟩
  · rw [st.assigned]
    exact h.history.trans (List.prefix_append _ _)
  · intro b hb b' hb' hid
    rcases st.mailbox b' hb' with ⟨q, hq, hqid, hle⟩ | hnew
    · exact le_trans (h.next b hb q hq (hqid.trans hid)) hle
    · have := (hl.mailboxSeq b hb).2
      have := h.seq
      omega
  · intro b hb r' hr' hid
    rcases st.member r' hr' with ⟨r, hr, he, hrb, hru⟩ | hnew
    · rw [← he, ← hru]
      exact h.member b hb r hr (hrb.trans hid)
    · obtain ⟨⟨q, hq, hqid, hnext⟩, -⟩ := st.given _ hnew
      exact .inr ((h.next b hb q hq (hqid.trans hid)).trans_eq hnext)

theorem uids_runOps {ext : Externals} {s : Db} (hs : Intact s) (hu : Uids s) (ops : List StoreOp) :
    Uids (runOps ext ops s) ∧ UidsLater s (runOps ext ops s) := by
  refine runOps_invariant (P := fun db => Uids db ∧ UidsLater s db) ?_ ?_ ?_ ?_ ops hs
    ⟨hu, .refl hs.keyed⟩
  · rintro db new - ⟨h, h'⟩
    exact ⟨⟨h.once, h.below, h.member, h.vanished, h.apart⟩, ⟨h'.seq, h'.history, h'.next, h'.member⟩⟩
  · rintro db a ⟨h, h'⟩
    exact ⟨⟨h.once, h.below, h.member, h.vanished, h.apart⟩, ⟨h'.seq, h'.history, h'.next, h'.member⟩⟩
  · rintro a m dying db e hso - hf ⟨h, h'⟩
    obtain ⟨new, st⟩ := hf.uidStep hso
    exact ⟨st.uids h hso.keyed hso.linked, st.later h' hs.linked⟩
  · rintro a m b db hso - ⟨h, h'⟩
    exact ⟨UidStep.drop.uids h hso.keyed hso.linked, UidStep.drop.later h' hs.linked⟩

theorem uids_reachable {ext : Externals} (ops : List StoreOp) : Uids (runOps ext ops {}) :=
  (uids_runOps Intact.empty Uids.empty ops).1

/-- The UIDs of one mailbox. -/
def Db.uidsIn (db : Db) (mailbox : Int) : List Int :=
  (db.emailMailboxes.filter fun r => r.mailboxId == mailbox).map (·.uid)

/-- The UIDs that left a mailbox. -/
def Db.goneFrom (db : Db) (mailbox : Int) : List Int :=
  (db.imapVanished.filter fun v => v.mailboxId == mailbox).map (·.uid)

theorem Uids.nodup_uidsIn {db : Db} (h : Uids db) (hk : Keyed db) (b : Int) : (db.uidsIn b).Nodup := by
  refine List.Nodup.map_on ?_ (hk.member.nodup.filter _)
  intro r hr r' hr' hu
  simp only [List.mem_filter, beq_iff_eq] at hr hr'
  exact h.member_eq hk hr.1 hr'.1 (hr.2.trans hr'.2.symm) hu

theorem mem_uidsIn {db : Db} {b u : Int} :
    u ∈ db.uidsIn b ↔ ∃ r ∈ db.emailMailboxes, r.mailboxId = b ∧ r.uid = u := by
  simp only [Db.uidsIn, List.mem_map, List.mem_filter, beq_iff_eq, and_assoc]

theorem mem_goneFrom {db : Db} {b u : Int} :
    u ∈ db.goneFrom b ↔ ∃ v ∈ db.imapVanished, v.mailboxId = b ∧ v.uid = u := by
  simp only [Db.goneFrom, List.mem_map, List.mem_filter, beq_iff_eq, and_assoc]

/-- **UIDs are never used twice.**  In every reachable database the UIDs of a mailbox are pairwise
distinct and below its `uid_next`, so are those that vanished from it, and none is both.  No UID is
ever given out twice, to whichever email.  And between two moments of a run: a UID below `uid_next`
that nobody has is never seen again, and one that is seen at both is on the same email. -/
theorem uids_never_used_twice (ext : Externals) (ops ops' : List StoreOp) :
    let s := runOps ext ops {}
    let db := runOps ext ops' s
    (∀ b ∈ db.mailboxes, (db.uidsIn b.id).Nodup ∧ (∀ u ∈ db.uidsIn b.id, u < b.uidNext) ∧
        (∀ u ∈ db.goneFrom b.id, u < b.uidNext) ∧ ∀ u ∈ db.uidsIn b.id, u ∉ db.goneFrom b.id) ∧
      (UniqueKey (fun x : Assignment => (x.mailboxId, x.uid)) db.assigned ∧
        s.assigned <+: db.assigned ∧
        ∀ r ∈ db.emailMailboxes, ⟨r.mailboxId, r.uid, r.emailId⟩ ∈ db.assigned) ∧
      ∀ b ∈ s.mailboxes,
        (∀ u < b.uidNext, u ∉ s.uidsIn b.id → u ∉ db.uidsIn b.id) ∧
          ∀ r ∈ s.emailMailboxes, ∀ r' ∈ db.emailMailboxes, r.mailboxId = b.id →
            r'.mailboxId = b.id → r.uid = r'.uid → r.emailId = r'.emailId := by
  intro s db
  have hs : Intact s := intact_runOps ops
  have hus : Uids s := uids_reachable ops
  have hi : Intact db := by
    have : Intact (runOps ext (ops ++ ops') {}) := intact_runOps _
    rwa [runOps_append] at this
  obtain ⟨hu, hlater⟩ := (uids_runOps hs hus ops' : Uids db ∧ UidsLater s db)
  refine ⟨?_, ⟨hu.once, hlater.history, hu.member⟩, ?_⟩
  · intro b hb
    refine ⟨hu.nodup_uidsIn hi.keyed b.id, ?_, ?_, ?_⟩
    · intro u hin
      obtain ⟨r, hr, hrb, rfl⟩ := mem_uidsIn.1 hin
      exact hu.below _ (hu.member r hr) b hb hrb.symm
    · intro u hin
      obtain ⟨v, hv, hvb, rfl⟩ := mem_goneFrom.1 hin
      obtain ⟨x, hx, hxb, hxu⟩ := hu.vanished v hv
      exact hxu ▸ hu.below x hx b hb (hvb.symm.trans hxb.symm)
    · intro u hin hgone
      obtain ⟨r, hr, hrb, rfl⟩ := mem_uidsIn.1 hin
      obtain ⟨v, hv, hvb, hvu⟩ := mem_goneFrom.1 hgone
      exact hu.apart r hr v hv ⟨hrb.trans hvb.symm, hvu.symm⟩
  · intro b hb
    refine ⟨?_, ?_⟩
    · intro u hlt hno hin
      obtain ⟨r', hr', hrb, rfl⟩ := mem_uidsIn.1 hin
      rcases hlater.member b hb r' hr' hrb with ⟨r, hr, -, hrb', hru⟩ | hle
      · exact hno (mem_uidsIn.2 ⟨r, hr, hrb', hru⟩)
      · omega
    · intro r hr r' hr' hrb hrb' huu
      rcases hlater.member b hb r' hr' hrb' with ⟨q, hq, hqe, hqb, hqu⟩ | hle
      · rw [hus.member_eq hs.keyed hr hq (hrb.trans hqb.symm) (huu.trans hqu.symm), hqe]
      · have := hus.below _ (hus.member r hr) b hb hrb.symm
        simp only at this
        omega

end UwuMail.Store
