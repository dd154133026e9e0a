/-
# Catching up in IMAP

A client that was told HIGHESTMODSEQ `M` of a mailbox, and had its messages then, can catch up at
any later time: it drops the UIDs in `imap_vanished` and takes over the messages in
`email_mailboxes` that are stamped later than `M`.

The flags are keywords of the EMAIL and the modseq is on each MEMBERSHIP, so a keyword that changes
anywhere must stamp every mailbox the email is in.  `SlotStep` says that every write does, and that
whatever leaves a mailbox leaves its UID behind with the modseq of the transaction.  The rest is
`Slots`, at the type of UIDs and flags.
-/
import UwuMail.Lib.Resync
import UwuMail.Store.Uids

namespace UwuMail.Store

open Table

/-! ## 1. A mailbox as slots -/

/-- The messages of a mailbox by UID, and the UIDs that left it. -/
def Db.slots (db : Db) (mailbox : Int) : Slots Int (SortedSet String) where
  present := fun uid =>
    (db.emailMailboxes.find? fun r => r.mailboxId == mailbox && r.uid == uid).map fun r =>
      (db.keywordsOf r.emailId, r.modseq)
  gone := fun uid =>
    (db.imapVanished.filter fun v => v.mailboxId == mailbox && v.uid == uid).map (·.modseq)

section Slots

variable {db db' : Db} {a m b uid : Int}

theorem present_eq_none :
    (db.slots b).present uid = none ↔ ∀ r ∈ db.emailMailboxes, ¬(r.mailboxId = b ∧ r.uid = uid) := by
  simp [Db.slots]

theorem Uids.present_eq (hu : Uids db) (hk : Keyed db) {r : MembershipRow}
    (hr : r ∈ db.emailMailboxes) :
    (db.slots r.mailboxId).present r.uid = some (db.keywordsOf r.emailId, r.modseq) := by
  have hfind : (db.emailMailboxes.find? fun q => q.mailboxId == r.mailboxId && q.uid == r.uid) =
      some r := by
    cases hf : db.emailMailboxes.find? fun q => q.mailboxId == r.mailboxId && q.uid == r.uid with
    | none => exact absurd (List.find?_eq_none.1 hf r hr) (by simp)
    | some q =>
      have hq : q.mailboxId = r.mailboxId ∧ q.uid = r.uid := by simpa using List.find?_some hf
      rw [hu.member_eq hk (List.mem_of_find?_eq_some hf) hr hq.1 hq.2]
  simp only [Db.slots, hfind, Option.map_some]

theorem exists_of_present {p : SortedSet String × Int} (h : (db.slots b).present uid = some p) :
    ∃ r ∈ db.emailMailboxes, r.mailboxId = b ∧ r.uid = uid := by
  obtain ⟨r, hr, -⟩ := Option.map_eq_some_iff.1 h
  have hkey : r.mailboxId = b ∧ r.uid = uid := by simpa using List.find?_some hr
  exact ⟨r, List.mem_of_find?_eq_some hr, hkey.1, hkey.2⟩

theorem mem_gone : m ∈ (db.slots b).gone uid ↔ ⟨b, uid, m⟩ ∈ db.imapVanished := by
  simp only [Db.slots, List.mem_map, List.mem_filter, Bool.and_eq_true, beq_iff_eq]
  constructor
  · rintro ⟨⟨b', u', m'⟩, ⟨hv, rfl, rfl⟩, rfl⟩
    exact hv
  · intro hv
    exact ⟨_, ⟨hv, rfl, rfl⟩, rfl⟩

theorem Uids.slots_apart (hu : Uids db) (b : Int) : (db.slots b).Apart := by
  intro uid h
  obtain ⟨p, hp⟩ := Option.ne_none_iff_exists'.1 h
  obtain ⟨r, hr, hrb, hru⟩ := exists_of_present hp
  refine List.eq_nil_iff_forall_not_mem.2 ?_
  intro m hm
  exact hu.apart r hr _ (mem_gone.1 hm) ⟨hrb, hru⟩

end Slots

/-! ## 2. What a write can do -/

structure SlotStep (a m : Int) (db db' : Db) : Prop where
  member : ∀ r' ∈ db'.emailMailboxes,
    (r' ∈ db.emailMailboxes ∧ db'.keywordsOf r'.emailId = db.keywordsOf r'.emailId) ∨
      (r'.modseq = m ∧ db.Has a r'.mailboxId)
  lost : ∀ r ∈ db.emailMailboxes,
    (∃ r' ∈ db'.emailMailboxes, r'.mailboxId = r.mailboxId ∧ r'.uid = r.uid) ∨
      (⟨r.mailboxId, r.uid, m⟩ ∈ db'.imapVanished ∧ db.Has a r.mailboxId)
  kept : ∀ v ∈ db.imapVanished, v ∈ db'.imapVanished ∨
    (⟨v.mailboxId, v.uid, m⟩ ∈ db'.imapVanished ∧ db.Has a v.mailboxId)

section Steps

variable {a m : Int} {dying : Option Int} {db db' : Db}

/-- A write that touches neither messages nor flags. -/
theorem SlotStep.quiet (h₁ : db'.emailMailboxes = db.emailMailboxes)
    (h₂ : db'.emailKeywords = db.emailKeywords) (h₃ : db'.imapVanished = db.imapVanished) :
    SlotStep a m db db' where
  member := by
    intro r hr
    rw [h₁] at hr
    exact .inl ⟨hr, by rw [Db.keywordsOf, Db.keywordsOf, h₂]⟩
  lost := by
    intro r hr
    rw [h₁]
    exact .inl ⟨r, hr, rfl, rfl⟩
  kept := by
    intro v hv
    rw [h₃]
    exact .inl hv

/-- The step as a mailbox sees it: with the modseq of the transaction in a mailbox of the account,
and not at all in any other. -/
theorem SlotStep.step (st : SlotStep a m db db') (hk : Keyed db) (hk' : Keyed db') (hu : Uids db)
    (hu' : Uids db') {b n : Int} (hn : db.Has a b → n = m) :
    Slots.Step n (db.slots b) (db'.slots b) := by
  refine ⟨?_, ?_⟩
  · intro uid
    cases hp' : (db'.slots b).present uid with
    | none =>
      cases hp : (db.slots b).present uid with
      | none => exact .inl rfl
      | some p =>
        obtain ⟨r, hr, rfl, rfl⟩ := exists_of_present hp
        rcases st.lost r hr with ⟨r', hr', hb, hid⟩ | ⟨hgone, hhas⟩
        · exact absurd ⟨hb, hid⟩ (present_eq_none.1 hp' r' hr')
        · exact .inr (Or.inr ⟨rfl, by rw [hn hhas]; exact mem_gone.2 hgone⟩)
    | some p =>
      obtain ⟨r', hr', rfl, rfl⟩ := exists_of_present hp'
      rw [hu'.present_eq hk' hr'] at hp'
      rw [← hp']
      rcases st.member r' hr' with ⟨hr, hkw⟩ | ⟨hm, hhas⟩
      · left
        rw [hu.present_eq hk hr, hkw]
      · exact .inr (Or.inl ⟨_, by rw [hm, hn hhas]⟩)
  · intro uid k hmem
    rcases st.kept _ (mem_gone.1 hmem) with hv | ⟨hv, hhas⟩
    · exact .inl (mem_gone.2 hv)
    · exact .inr (by rw [hn hhas]; exact mem_gone.2 hv)

/-- Keywords of other emails do not count. -/
theorem keywordsOf_eq {email : Int}
    (h : ∀ k, ⟨email, k⟩ ∈ db'.emailKeywords ↔ ⟨email, k⟩ ∈ db.emailKeywords) :
    db'.keywordsOf email = db.keywordsOf email := by
  ext k
  rw [Db.mem_keywordsOf, Db.mem_keywordsOf, h]

theorem SlotStep.store {p : Incoming} {ids : List Int} (hs : Sound a m dying db)
    (hf : p.Fits a db ids) : SlotStep a m db (db.storeEmail p ids m) := by
  rw [Db.storeEmail_eq hf.nodup hf.mailboxes hs.linked.newEmail]
  refine ⟨?_, ?_, fun v hv => .inl hv⟩
  · intro r hr
    rcases List.mem_append.1 hr with hr | hr
    · refine .inl ⟨hr, keywordsOf_eq fun k => ⟨?_, mem_insertAll_of_mem⟩⟩
      intro hk
      rcases mem_insertAll hk with hk | ⟨hk, -⟩
      · exact hk
      · obtain ⟨k', -, heq⟩ := List.mem_map.1 hk
        exact absurd (congrArg KeywordRow.emailId heq).symm (hs.linked.newEmail r hr)
    · obtain ⟨id, hid, rfl⟩ := List.mem_map.1 hr
      exact .inr ⟨rfl, hf.has id hid⟩
  · intro r hr
    exact .inl ⟨r, List.mem_append_left _ hr, rfl, rfl⟩

theorem SlotStep.update {p : UpdatePlan} (hs : Sound a m dying db) (hf : p.Fits a db) :
    SlotStep a m db (db.applyUpdate a m p) := by
  obtain ⟨gone, hgone, heq⟩ := Db.applyUpdate_eq a m hf.oldMailboxes hf.mailboxes
  rw [heq]
  have hhas := hf.has_of_mem hs
  have hold : ∀ r ∈ db.emailMailboxes, r.emailId = p.email → db.Has a r.mailboxId := by
    intro r hr he
    refine hhas _ (List.mem_append_left _ ?_)
    rw [hf.oldMailboxes]
    exact Db.mem_mailboxesOf.2 ⟨r, hr, he, rfl⟩
  have hstamp : ∀ r ∈ gone, Db.stampOf db.accounts db.mailboxes r.mailboxId = some m := by
    intro r hr
    obtain ⟨hr, he, -⟩ := (hgone r).1 hr
    exact hs.stampOf_eq (hold r hr he)
  refine ⟨?_, ?_, ?_⟩
  · intro r' hr'
    rcases List.mem_append.1 hr' with hr' | hr'
    · obtain ⟨r, hr, rfl⟩ := mem_updateWhere.1 hr'
      have hr := (mem_deleteWhere.1 hr).1
      by_cases he : r.emailId = p.email
      · rw [if_pos (by simpa using he)]
        exact .inr ⟨rfl, hold r hr he⟩
      · rw [if_neg (by simpa using he)]
        refine .inl ⟨hr, keywordsOf_eq fun k => ?_⟩
        simp only [mem_deleteWhere]
        constructor
        · rintro ⟨hk, -⟩
          rcases mem_insertAll hk with hk | ⟨hk, -⟩
          · exact hk
          · obtain ⟨k', -, hrow⟩ := List.mem_map.1 hk
            exact absurd (congrArg KeywordRow.emailId hrow).symm he
        · exact fun hk => ⟨mem_insertAll_of_mem hk, by simp [he]⟩
    · obtain ⟨id, hid, rfl⟩ := List.mem_map.1 hr'
      exact .inr ⟨rfl, hf.has id hid⟩
  · intro r hr
    by_cases hleft : r.emailId = p.email ∧ r.mailboxId ∈ p.left
    · refine .inr ⟨?_, hold r hr hleft.1⟩
      exact (Db.mem_vanishAll hstamp _).2
        (.inr ⟨rfl, r, (hgone r).2 ⟨hr, hleft.1, hleft.2⟩, rfl, rfl⟩)
    · refine .inl ⟨_, List.mem_append_left _ (mem_updateWhere.2
        ⟨r, mem_deleteWhere.2 ⟨hr, ?_⟩, rfl⟩), ?_⟩
      · by_cases he : r.emailId = p.email
        · simp only [he, true_and] at hleft
          simp [he, hleft]
        · simp [he]
      · split <;> exact ⟨rfl, rfl⟩
  · intro v hv
    by_cases hrep : ∃ r ∈ gone, r.mailboxId = v.mailboxId ∧ r.uid = v.uid
    · obtain ⟨r, hr, hrb, hru⟩ := hrep
      obtain ⟨hmem, he, -⟩ := (hgone r).1 hr
      exact .inr ⟨(Db.mem_vanishAll hstamp _).2 (.inr ⟨rfl, r, hr, hrb, hru⟩),
        hrb ▸ hold r hmem he⟩
    · push Not at hrep
      exact .inl ((Db.mem_vanishAll hstamp v).2
        (.inl ⟨hv, fun r hr h => hrep r hr h.1 h.2⟩))

/-- Memberships that are deleted, with what the trigger makes of them. -/
theorem SlotStep.delete {p : MembershipRow → Bool} {q : KeywordRow → Bool}
    (hs : Sound a m dying db) (hmem : db'.emailMailboxes = deleteWhere p db.emailMailboxes)
    (hkw : db'.emailKeywords = deleteWhere q db.emailKeywords)
    (hvan : db'.imapVanished = Db.vanishAll (Db.stampOf db.accounts db.mailboxes)
      (db.emailMailboxes.filter p) db.imapVanished)
    (hhas : ∀ r ∈ db.emailMailboxes, p r = true → db.Has a r.mailboxId)
    (hkeep : ∀ r ∈ db.emailMailboxes, p r = false → ∀ k, q ⟨r.emailId, k⟩ = false) :
    SlotStep a m db db' := by
  have hstamp : ∀ r ∈ db.emailMailboxes.filter p,
      Db.stampOf db.accounts db.mailboxes r.mailboxId = some m := by
    intro r hr
    obtain ⟨hr, hp⟩ := List.mem_filter.1 hr
    exact hs.stampOf_eq (hhas r hr hp)
  refine ⟨?_, ?_, ?_⟩
  · intro r hr
    rw [hmem] at hr
    obtain ⟨hr, hp⟩ := mem_deleteWhere.1 hr
    refine .inl ⟨hr, keywordsOf_eq fun k => ?_⟩
    rw [hkw, mem_deleteWhere]
    exact ⟨fun h => h.1, fun h => ⟨h, hkeep r hr hp k⟩⟩
  · intro r hr
    cases hp : p r with
    | false => exact .inl ⟨r, by rw [hmem]; exact mem_deleteWhere.2 ⟨hr, hp⟩, rfl, rfl⟩
    | true =>
      refine .inr ⟨?_, hhas r hr hp⟩
      rw [hvan]
      exact (Db.mem_vanishAll hstamp _).2
        (.inr ⟨rfl, r, List.mem_filter.2 ⟨hr, hp⟩, rfl, rfl⟩)
  · intro v hv
    rw [hvan]
    by_cases hrep : ∃ r ∈ db.emailMailboxes.filter p, r.mailboxId = v.mailboxId ∧ r.uid = v.uid
    · obtain ⟨r, hr, hrb, hru⟩ := hrep
      obtain ⟨hmem, hp⟩ := List.mem_filter.1 hr
      exact .inr ⟨(Db.mem_vanishAll hstamp _).2 (.inr ⟨rfl, r, hr, hrb, hru⟩),
        hrb ▸ hhas r hmem hp⟩
    · push Not at hrep
      exact .inl ((Db.mem_vanishAll hstamp v).2
        (.inl ⟨hv, fun r hr h => hrep r hr h.1 h.2⟩))

theorem SlotStep.destroy {row : EmailRow} (hs : Sound a m dying db) (hrow : row ∈ db.emails)
    (hra : row.accountId = a) : SlotStep a m db (db.applyDestroy a m row) := by
  rw [Db.applyDestroy_eq]
  refine SlotStep.delete hs rfl rfl rfl ?_ ?_
  · exact fun r hr hp => hs.has_of_member hrow hra hr (by simpa using hp)
  · exact fun r _ hp _ => hp

theorem SlotStep.leave {email mailbox : Int} (hs : Sound a m dying db)
    (hf : db.Leaves a email mailbox) : SlotStep a m db (db.leaveMailbox a m email mailbox) := by
  obtain ⟨row, hrow, hrid, hra⟩ := hf.own
  rw [Db.leaveMailbox_eq]
  refine SlotStep.delete (q := fun _ => false) hs rfl (by simp [deleteWhere]) rfl ?_ ?_
  · intro r hr hp
    simp only [Bool.and_eq_true, beq_iff_eq] at hp
    exact hs.has_of_member hrow hra hr (hp.1.trans hrid.symm)
  · exact fun _ _ _ _ => rfl

theorem Event.Fits.slotStep {e : Event} (hf : e.Fits a m dying db) (hs : Sound a m dying db) :
    SlotStep a m db (e.apply a m db) := by
  cases e with
  | store p ids => exact SlotStep.store hs hf.2
  | update plan => exact SlotStep.update hs hf.2
  | destroy row => exact SlotStep.destroy hs hf.1 hf.2
  | leave email mailbox => exact SlotStep.leave hs hf.2
  | create row =>
    rw [Event.apply, Db.applyCreate_eq hf.2.id hf.2.updated (hf.2.new hs.linked)]
    exact .quiet rfl rfl rfl
  | alter id u =>
    rw [Event.apply, Db.mailboxUpdated_eq]
    exact .quiet rfl rfl rfl
  | share mailbox acl =>
    rw [Event.apply, Db.applyAcl, Db.recordChange_eq]
    exact .quiet rfl rfl rfl
  | members list shared => exact .quiet rfl rfl rfl

end Steps

/-! ## 3. Runs -/

/-- The mailbox with an id is still there. -/
def Db.Exists (db : Db) (b : Int) : Prop := ∃ q ∈ db.mailboxes, q.id = b

/-- What holds of a mailbox `b` of the moment `s`, and its HIGHESTMODSEQ then, later on. -/
structure Follows (s : Db) (b : MailboxRow) (db : Db) : Prop where
  seq : b.id ≤ db.mailboxSeq
  mailbox : ∀ q ∈ db.mailboxes, q.id = b.id →
    q.accountId = b.accountId ∧ b.updatedModseq ≤ q.updatedModseq
  covers : db.Exists b.id → Slots.Covers b.updatedModseq (s.slots b.id).view (db.slots b.id)

section Follows

variable {a m : Int} {dying : Option Int} {s db db' : Db} {b : MailboxRow}

theorem Follows.start (hi : Intact s) (hb : b ∈ s.mailboxes) : Follows s b s where
  seq := (hi.linked.mailboxSeq b hb).2
  mailbox := by
    intro q hq hid
    rw [hi.keyed.mailbox.eq hq hb hid]
    exact ⟨rfl, le_refl _⟩
  covers := fun _ => .start _

/-- A mailbox that is there after an event was there before. -/
theorem Follows.back {e : Event} (h : Follows s b db) (hs : Sound a m dying db)
    (hf : e.Fits a m dying db) {q' : MailboxRow} (hq' : q' ∈ (e.apply a m db).mailboxes)
    (hid : q'.id = b.id) : ∃ q ∈ db.mailboxes, q.id = b.id ∧ Moved a m q q' := by
  rcases (hf.tick hs).mailbox q' hq' with ⟨q, hq, hmv⟩ | ⟨-, -, hnew⟩
  · exact ⟨q, hq, hmv.id ▸ hid, hmv⟩
  · have := h.seq
    omega

theorem Follows.event {e : Event} (h : Follows s b db) (hu : Uids db) (hs : Sound a m dying db)
    (hpos : 0 < m) (hf : e.Fits a m dying db)
    (hm : db.Exists b.id → a = b.accountId → b.updatedModseq < m) :
    Follows s b (e.apply a m db) := by
  have hs' := hf.sound hs (le_of_lt hpos)
  obtain ⟨new, ust⟩ := hf.uidStep hs
  have hu' := ust.uids hu hs.keyed hs.linked
  refine ⟨le_trans h.seq ust.seq, ?_, ?_⟩
  · intro q' hq' hid
    obtain ⟨q, hq, hqid, hmv⟩ := h.back hs hf hq' hid
    obtain ⟨hacc, hle⟩ := h.mailbox q hq hqid
    exact ⟨hmv.accountId.trans hacc, le_trans hle (hmv.le hs hq)⟩
  · rintro ⟨q', hq', hid⟩
    obtain ⟨q, hq, hqid, -⟩ := h.back hs hf hq' hid
    have hcov := h.covers ⟨q, hq, hqid⟩
    have hst := hf.slotStep hs
    by_cases hhas : db.Has a b.id
    · obtain ⟨r, hr, hrid, hra⟩ := hhas
      have hab : a = b.accountId := by rw [← hra, (h.mailbox r hr hrid).1]
      exact hcov.step (hst.step hs.keyed hs'.keyed hu hu' fun _ => rfl) (hm ⟨r, hr, hrid⟩ hab)
    · exact hcov.step (hst.step hs.keyed hs'.keyed hu hu' fun h => absurd h hhas)
        (lt_add_one b.updatedModseq)

/-- What another mailbox holds stays when an empty one goes. -/
theorem slots_drop {c : Int} (hd : db.Droppable a c) {b : Int} (hne : b ≠ c) :
    (db.dropMailbox a m c).slots b = db.slots b := by
  have hmem : deleteWhere (fun r : MembershipRow => r.mailboxId == c) db.emailMailboxes =
      db.emailMailboxes := deleteWhere_eq_self fun r hr => by simpa using hd.empty r hr
  rw [Db.dropMailbox_eq, hmem]
  simp only [Db.slots, Db.keywordsOf, deleteWhere, List.filter_filter]
  congr 1
  funext uid
  refine congrArg (List.map _) (List.filter_congr fun v _ => ?_)
  by_cases hv : v.mailboxId = b
  · simp [hv, hne]
  · simp [hv]

theorem Follows.drop {c : Int} (h : Follows s b db) (hd : db.Droppable a c) :
    Follows s b (db.dropMailbox a m c) := by
  have hslots : b.id ≠ c → (db.dropMailbox a m c).slots b.id = db.slots b.id := slots_drop hd
  rw [Db.dropMailbox_eq] at hslots ⊢
  refine ⟨h.seq, fun q hq => h.mailbox q (mem_deleteWhere.1 hq).1, ?_⟩
  rintro ⟨q, hq, hid⟩
  obtain ⟨hq, hne⟩ := mem_deleteWhere.1 hq
  rw [hslots (by rw [← hid]; simpa using hne)]
  exact h.covers ⟨q, hq, hid⟩

/-- The modseq of a transaction is later than anything a client was told. -/
theorem Follows.lt (h : Follows s b db) (hi : Intact db) (hmod : db.modseqOf a = some (m - 1)) :
    db.Exists b.id → a = b.accountId → b.updatedModseq < m := by
  rintro ⟨q, hq, hid⟩ rfl
  obtain ⟨hacc, hle⟩ := h.mailbox q hq hid
  obtain ⟨x, hx, hxq⟩ := hi.linked.mailboxAccount q hq
  have := hi.clocked.updated q hq x hx hxq
  have := (hi.keyed.modseq_eq hmod).2 x hx (hxq.trans hacc)
  omega

end Follows

theorem follows_runOps {ext : Externals} {s : Db} (hs : Intact s) (hu : Uids s) {b : MailboxRow}
    (hb : b ∈ s.mailboxes) (ops : List StoreOp) :
    Uids (runOps ext ops s) ∧ Follows s b (runOps ext ops s) := by
  refine runOps_induct (P := fun db => Uids db ∧ Follows s b db) ?_ ?_ ops hs ⟨hu, .start hs hb⟩
  · rintro db new - ⟨h, hfo⟩
    exact ⟨⟨h.once, h.below, h.member, h.vanished, h.apart⟩, ⟨hfo.seq, hfo.mailbox, hfo.covers⟩⟩
  · rintro a m db db' es dying hi ⟨h, hfo⟩ heff
    refine (heff.keeps (P := fun db => (Uids db ∧ Follows s b db) ∧
      (db.Exists b.id → a = b.accountId → b.updatedModseq < m)) hi ?_ ?_ ?_
        ⟨⟨h, hfo⟩, hfo.lt hi heff.modseq⟩).1
    · rintro d x ⟨⟨h, hfo⟩, hm⟩
      exact ⟨⟨⟨h.once, h.below, h.member, h.vanished, h.apart⟩,
        ⟨hfo.seq, hfo.mailbox, hfo.covers⟩⟩, hm⟩
    · rintro d e hso hpos - hf ⟨⟨h, hfo⟩, hm⟩
      obtain ⟨new, ust⟩ := hf.uidStep hso
      refine ⟨⟨ust.uids h hso.keyed hso.linked, hfo.event h hso hpos hf hm⟩, ?_⟩
      rintro ⟨q', hq', hid⟩
      obtain ⟨q, hq, hqid, -⟩ := hfo.back hso hf hq' hid
      exact hm ⟨q, hq, hqid⟩
    · rintro c d - hso hd ⟨⟨h, hfo⟩, hm⟩
      refine ⟨⟨UidStep.drop.uids h hso.keyed hso.linked, hfo.drop hd⟩, ?_⟩
      rw [Db.dropMailbox_eq]
      rintro ⟨q, hq, hid⟩
      exact hm ⟨q, (mem_deleteWhere.1 hq).1, hid⟩

/-- What the server reports as HIGHESTMODSEQ is the mailbox's own modseq. -/
theorem mailboxModseq_ok {db : Db} (hi : Intact db) {b : Int} {n : Nat}
    (h : mailboxModseq db b = .ok n) : ∃ q ∈ db.mailboxes, q.id = b ∧ q.updatedModseq = n := by
  unfold mailboxModseq at h
  split at h
  · rename_i q hq
    cases h
    have hmem := List.mem_of_find?_eq_some hq
    refine ⟨q, hmem, by simpa using List.find?_some hq, ?_⟩
    exact (Int.toNat_of_nonneg (hi.clocked.positive.2 q hmem)).symm
  · cases h

/-- **A client that catches up has everything.**  It was told `told` as HIGHESTMODSEQ of a mailbox
and had its UIDs and flags at that moment.  At any later moment, dropping the UIDs that vanished
and taking over the messages that changed after `told` gives exactly the UIDs and flags there are.
What is reported never falls back, and nothing in the mailbox is ahead of it. -/
theorem qresync_is_complete (ext : Externals) (ops ops' : List StoreOp) (mailbox : Int)
    (told reported : Nat) (htold : mailboxModseq (runOps ext ops {}) mailbox = .ok told)
    (hnow : mailboxModseq (runOps ext ops' (runOps ext ops {})) mailbox = .ok reported) :
    let s := runOps ext ops {}
    let db := runOps ext ops' s
    (db.slots mailbox).patch told (s.slots mailbox).view = (db.slots mailbox).view ∧
      told ≤ reported ∧
      (∀ r ∈ db.emailMailboxes, r.mailboxId = mailbox → r.modseq ≤ reported) ∧
      ∀ v ∈ db.imapVanished, v.mailboxId = mailbox → v.modseq ≤ reported := by
  intro s db
  have hs : Intact s := intact_runOps ops
  have hi : Intact db := by
    have : Intact (runOps ext (ops ++ ops') {}) := intact_runOps _
    rwa [runOps_append] at this
  obtain ⟨b, hb, rfl, hM⟩ := mailboxModseq_ok hs htold
  obtain ⟨q, hq, hid, hM'⟩ := mailboxModseq_ok hi hnow
  obtain ⟨hu, hfo⟩ := (follows_runOps hs (uids_reachable ops) hb ops' : Uids db ∧ Follows s b db)
  refine ⟨?_, ?_, ?_, ?_⟩
  · rw [← hM]
    exact (hfo.covers ⟨q, hq, hid⟩).patch_eq (hu.slots_apart b.id)
  · have := (hfo.mailbox q hq hid).2
    omega
  · intro r hr hrb
    rw [← hM']
    exact hi.clocked.member r hr q hq (hid.trans hrb.symm)
  · intro v hv hvb
    rw [← hM']
    exact hi.clocked.vanished v hv q hq (hid.trans hvb.symm) (by simp)

/-- Two messages arrive and are seen; then one is flagged and the other one is expunged, and a third
one arrives. -/
def resyncOps : List StoreOp × List StoreOp :=
  let message : IngestRequest :=
    { accountId := 1, raw := [], mailboxes := [.role .inbox], keywords := [], receivedAt := none }
  ([.createAccount ⟨"ada", false, 0, true⟩ 0, .ingest message false 0, .ingest message false 0],
    [.imapStoreFlags 1 1 [asU32 1] (.add ["$seen"]) none, .imapRemove 1 1 [asU32 2],
      .ingest message false 0])

theorem qresync_is_complete_inbox :
    ((runOps plainExternals resyncOps.2 (runOps plainExternals resyncOps.1 {})).slots 1).patch 3
        ((runOps plainExternals resyncOps.1 {}).slots 1).view =
      ((runOps plainExternals resyncOps.2 (runOps plainExternals resyncOps.1 {})).slots 1).view :=
  (qresync_is_complete plainExternals resyncOps.1 resyncOps.2 1 3 6 (by decide)
    (by decide +kernel)).1

end UwuMail.Store
