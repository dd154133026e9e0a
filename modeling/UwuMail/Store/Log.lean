/-
# What an event leaves in the change log

Every event offers rows to the change log (`Event.log`) and moves some mailboxes (`Event.touches`).
`Footprint` says that nothing happens OUTSIDE the mailboxes it moves: the other ones keep their rows
and what they hold, and the rows that are offered name moved mailboxes and emails that are in no
other mailbox.  What somebody may hear of whose mailboxes are not moved follows from that alone.
-/
import UwuMail.Store.Run

namespace UwuMail.Store

open Table

/-! ## 1. Rows and mailboxes -/

/-- The rows an event offers to the change log. -/
def Event.log (a m : Int) (db : Db) : Event → List ChangeRow
  | store p ids => db.storeLog p ids m
  | update plan => Db.updateLog a m plan
  | destroy row => db.destroyLog a m row
  | leave email _ => [⟨a, m, .email, email, .updated⟩]
  | create row => [⟨a, m, .mailbox, row.id, .created⟩]
  | alter id _ => [⟨a, m, .mailbox, id, .updated⟩]
  | share mailbox _ => [⟨a, m, .mailbox, mailbox, .updated⟩]
  | members _ _ => []

/-- The mailboxes an event moves. -/
def Event.touches (db : Db) : Event → List Int
  | store _ ids => ids
  | update plan => plan.oldMailboxes.elems ++ plan.newMailboxes.elems
  | destroy row => db.mailboxIdsOf row.id
  | leave email _ => db.mailboxIdsOf email
  | create row => [row.id]
  | alter id _ => [id]
  | share mailbox _ => [mailbox]
  | members _ _ => []

/-- Whether an event changes who sees what. -/
def Event.sharing : Event → Bool
  | share _ _ | members _ _ => true
  | _ => false

section Log

variable {a m : Int} {dying : Option Int} {db : Db} {e : Event}

theorem Event.Fits.changes (hf : e.Fits a m dying db) (hs : Sound a m dying db) :
    (e.apply a m db).changes = insertAll ChangeRow.key (e.log a m db) db.changes := by
  cases e with
  | store p ids =>
    rw [Event.apply, Db.storeEmail_eq hf.2.nodup hf.2.mailboxes hs.linked.newEmail]
    rfl
  | update plan =>
    obtain ⟨gone, -, heq⟩ := Db.applyUpdate_eq a m hf.2.oldMailboxes hf.2.mailboxes
    rw [Event.apply, heq]
    rfl
  | destroy row =>
    rw [Event.apply, Db.applyDestroy_eq]
    rfl
  | leave email mailbox =>
    rw [Event.apply, Db.leaveMailbox_eq]
    rfl
  | create row =>
    rw [Event.apply, Db.applyCreate_eq hf.2.id hf.2.updated (hf.2.new hs.linked)]
    rfl
  | alter id u =>
    rw [Event.apply, Db.mailboxUpdated_eq]
    rfl
  | share mailbox acl =>
    rw [Event.apply, Db.applyAcl, Db.recordChange_eq]
    rfl
  | members list shared => rfl

theorem Event.Fits.log_mine (hf : e.Fits a m dying db) :
    ∀ c ∈ e.log a m db, c.accountId = a ∧ c.modseq = m := by
  intro c hc
  cases e with
  | store p ids =>
    rw [← hf.2.account]
    simp only [Event.log, Db.storeLog, Db.mailboxRows, List.mem_append, List.mem_map, List.mem_cons,
      List.not_mem_nil, or_false] at hc
    rcases hc with ⟨b, -, rfl⟩ | rfl | rfl <;> exact ⟨rfl, rfl⟩
  | update plan =>
    simp only [Event.log, Db.updateLog, Db.mailboxRows, List.mem_cons, List.mem_map] at hc
    rcases hc with rfl | ⟨b, -, rfl⟩ <;> exact ⟨rfl, rfl⟩
  | destroy row =>
    simp only [Event.log, Db.destroyLog, Db.mailboxRows, List.mem_cons, List.mem_append, List.mem_map,
      List.not_mem_nil, or_false] at hc
    rcases hc with rfl | ⟨b, -, rfl⟩ | rfl <;> exact ⟨rfl, rfl⟩
  | members list shared => cases hc
  | _ =>
    rw [List.mem_singleton.1 hc]
    exact ⟨rfl, rfl⟩

/-- The rows for mailboxes are about the mailboxes that move. -/
theorem Event.log_mailbox {c : ChangeRow} (hc : c ∈ e.log a m db)
    (hkind : c.kind = .mailbox) : c.objectId ∈ e.touches db := by
  cases e with
  | store p ids =>
    simp only [Event.log, Db.storeLog, Db.mailboxRows, List.mem_append, List.mem_map, List.mem_cons,
      List.not_mem_nil, or_false] at hc
    rcases hc with ⟨b, hb, rfl⟩ | rfl | rfl
    · exact hb
    · cases hkind
    · cases hkind
  | update plan =>
    simp only [Event.log, Db.updateLog, Db.mailboxRows, List.mem_cons, List.mem_map] at hc
    rcases hc with rfl | ⟨b, hb, rfl⟩
    · cases hkind
    · rcases List.mem_append.1 hb with hb | hb
      · rw [SortedSet.mem_elems, SortedSet.mem_symmetricDifference] at hb
        rcases hb with hb | hb
        · exact List.mem_append_left _ hb.1
        · exact List.mem_append_right _ hb.1
      · split at hb
        · exact List.mem_append_right _ hb
        · cases hb
  | destroy row =>
    simp only [Event.log, Db.destroyLog, Db.mailboxRows, List.mem_cons, List.mem_append, List.mem_map,
      List.not_mem_nil, or_false] at hc
    rcases hc with rfl | ⟨b, hb, rfl⟩ | rfl
    · cases hkind
    · rw [SortedSet.mem_elems, Db.mem_mailboxesOf] at hb
      exact Db.mem_mailboxIdsOf.2 hb
    · cases hkind
  | leave email mailbox =>
    rw [List.mem_singleton.1 hc] at hkind
    cases hkind
  | members list shared => cases hc
  | _ =>
    rw [List.mem_singleton.1 hc]
    exact List.mem_singleton_self _

/-! ## 2. What is in a mailbox -/

theorem mailboxIdsOf_store {p : Incoming} {ids : List Int} (hs : Sound a m dying db)
    (hf : p.Fits a db ids) {e b : Int} :
    b ∈ (db.storeEmail p ids m).mailboxIdsOf e ↔
      b ∈ db.mailboxIdsOf e ∨ (e = db.emailSeq + 1 ∧ b ∈ ids) := by
  rw [Db.storeEmail_eq hf.nodup hf.mailboxes hs.linked.newEmail, Db.mem_mailboxIdsOf,
    Db.mem_mailboxIdsOf]
  simp only [List.mem_append, Db.entries, List.mem_map]
  constructor
  · rintro ⟨r, hr | ⟨id, hid, rfl⟩, rfl, rfl⟩
    · exact .inl ⟨r, hr, rfl, rfl⟩
    · exact .inr ⟨rfl, hid⟩
  · rintro (⟨r, hr, he, hb⟩ | ⟨rfl, hb⟩)
    · exact ⟨r, .inl hr, he, hb⟩
    · exact ⟨_, .inr ⟨b, hb, rfl⟩, rfl, rfl⟩

theorem mailboxIdsOf_update {plan : UpdatePlan} (hf : plan.Fits a db) {e b : Int} :
    b ∈ (db.applyUpdate a m plan).mailboxIdsOf e ↔
      (e = plan.email ∧ b ∈ plan.newMailboxes) ∨ (e ≠ plan.email ∧ b ∈ db.mailboxIdsOf e) := by
  obtain ⟨gone, -, heq⟩ := Db.applyUpdate_eq a m hf.oldMailboxes hf.mailboxes
  have hold : ∀ b, b ∈ plan.oldMailboxes ↔ b ∈ db.mailboxIdsOf plan.email := fun b => by
    rw [hf.oldMailboxes, Db.mem_mailboxesOf, Db.mem_mailboxIdsOf]
  rw [heq, Db.mem_mailboxIdsOf]
  simp only [Db.updatedMembers, List.mem_append, mem_updateWhere, mem_deleteWhere, Db.entries,
    List.mem_map, SortedSet.mem_elems]
  constructor
  · rintro ⟨r, ⟨r₀, ⟨hr₀, hleft⟩, rfl⟩ | ⟨id, hid, rfl⟩, rfl, rfl⟩
    · by_cases hemail : r₀.emailId = plan.email
      · have hin : r₀.mailboxId ∈ plan.oldMailboxes :=
          (hold _).2 (Db.mem_mailboxIdsOf.2 ⟨r₀, hr₀, hemail, rfl⟩)
        simp only [hemail, beq_self_eq_true, Bool.true_and, decide_eq_false_iff_not, UpdatePlan.left,
          SortedSet.mem_difference, not_and, not_not] at hleft
        exact .inl ⟨by simp [hemail], by simpa [hemail] using hleft hin⟩
      · refine .inr ⟨by simp [hemail], ?_⟩
        rw [Db.mem_mailboxIdsOf]
        exact ⟨r₀, hr₀, by simp [hemail], by simp [hemail]⟩
    · rw [UpdatePlan.entered, SortedSet.mem_difference] at hid
      exact .inl ⟨rfl, hid.1⟩
  · rintro (⟨rfl, hb⟩ | ⟨hne, hb⟩)
    · by_cases hin : b ∈ plan.oldMailboxes
      · obtain ⟨r, hr, he, hrb⟩ := Db.mem_mailboxIdsOf.1 ((hold b).1 hin)
        refine ⟨{ r with modseq := m }, Or.inl ⟨r, ⟨hr, ?_⟩, by simp [he]⟩, he, hrb⟩
        simp [UpdatePlan.left, hrb, hb]
      · refine ⟨_, .inr ⟨b, ?_, rfl⟩, rfl, rfl⟩
        rw [UpdatePlan.entered, SortedSet.mem_difference]
        exact ⟨hb, hin⟩
    · obtain ⟨r, hr, rfl, hrb⟩ := Db.mem_mailboxIdsOf.1 hb
      exact ⟨r, Or.inl ⟨r, ⟨hr, by simp [hne]⟩, by simp [hne]⟩, rfl, hrb⟩

theorem mailboxIdsOf_destroy {row : EmailRow} {e b : Int} :
    b ∈ (db.applyDestroy a m row).mailboxIdsOf e ↔ b ∈ db.mailboxIdsOf e ∧ e ≠ row.id := by
  rw [Db.applyDestroy_eq, Db.mem_mailboxIdsOf, Db.mem_mailboxIdsOf]
  simp only [mem_deleteWhere, beq_eq_false_iff_ne]
  constructor
  · rintro ⟨r, ⟨hr, hne⟩, rfl, rfl⟩
    exact ⟨⟨r, hr, rfl, rfl⟩, hne⟩
  · rintro ⟨⟨r, hr, rfl, rfl⟩, hne⟩
    exact ⟨r, ⟨hr, hne⟩, rfl, rfl⟩

theorem mailboxIdsOf_leave {email mailbox e b : Int} :
    b ∈ (db.leaveMailbox a m email mailbox).mailboxIdsOf e ↔
      b ∈ db.mailboxIdsOf e ∧ ¬(e = email ∧ b = mailbox) := by
  rw [Db.leaveMailbox_eq, Db.mem_mailboxIdsOf, Db.mem_mailboxIdsOf]
  simp only [mem_deleteWhere, Bool.and_eq_false_iff, beq_eq_false_iff_ne]
  constructor
  · rintro ⟨r, ⟨hr, hne⟩, rfl, rfl⟩
    refine ⟨⟨r, hr, rfl, rfl⟩, fun h => ?_⟩
    rcases hne with hne | hne
    · exact hne h.1
    · exact hne h.2
  · rintro ⟨⟨r, hr, rfl, rfl⟩, hne⟩
    exact ⟨r, ⟨hr, by tauto⟩, rfl, rfl⟩

/-! ## 3. Nothing happens elsewhere -/

/-- Outside the mailboxes that move, everything is as before, and no row of the log is about an
email there. -/
structure Footprint (db db' : Db) (log : List ChangeRow) (touched : List Int) : Prop where
  rows : ∀ visible : List Int, (∀ b ∈ touched, b ∉ visible) →
    (db'.mailboxes.filter fun r => visible.contains r.id) =
      db.mailboxes.filter fun r => visible.contains r.id
  inside : ∀ e b, b ∉ touched → (b ∈ db'.mailboxIdsOf e ↔ b ∈ db.mailboxIdsOf e)
  emails : ∀ c ∈ log, c.kind = .email → ∀ b ∈ db'.mailboxIdsOf c.objectId, b ∈ touched

/-- A statement that rewrites other mailboxes only. -/
theorem filter_visible_map {t : List MailboxRow} {f : MailboxRow → MailboxRow} {touched : List Int}
    (hid : ∀ r, (f r).id = r.id) (hf : ∀ r, r.id ∉ touched → f r = r) (visible : List Int)
    (h : ∀ b ∈ touched, b ∉ visible) :
    ((t.map f).filter fun r => visible.contains r.id) = t.filter fun r => visible.contains r.id := by
  induction t with
  | nil => rfl
  | cons r t ih =>
    rw [List.map_cons, List.filter_cons, List.filter_cons, ih, hid]
    split
    next hin =>
      rw [hf r]
      intro hr
      exact h r.id hr (by simpa using hin)
    next => rfl

theorem touchRow_of_not_mem {m : Int} {ids : List Int} {r : MailboxRow} (h : r.id ∉ ids) :
    touchRow m ids r = r := if_neg h

theorem setRow_of_not_mem {m : Int} {ids : List Int} {r : MailboxRow} (h : r.id ∉ ids) :
    setRow m ids r = r := if_neg h

theorem enterRow_of_not_mem {m : Int} {ids : List Int} {r : MailboxRow} (h : r.id ∉ ids) :
    enterRow m ids r = r := if_neg h

theorem Footprint.store {p : Incoming} {ids : List Int} (hs : Sound a m dying db)
    (hf : p.Fits a db ids) : Footprint db (db.storeEmail p ids m) (db.storeLog p ids m) ids where
  rows := by
    rw [Db.storeEmail_eq hf.nodup hf.mailboxes hs.linked.newEmail]
    exact filter_visible_map (enterRow_id m ids) fun _ => enterRow_of_not_mem
  inside := by
    intro e b hb
    rw [mailboxIdsOf_store hs hf]
    exact or_iff_left fun h => hb h.2
  emails := by
    intro c hc hkind b hb
    have hid : c.objectId = db.emailSeq + 1 := by
      simp only [Db.storeLog, Db.mailboxRows, List.mem_append, List.mem_map, List.mem_cons,
        List.not_mem_nil, or_false] at hc
      rcases hc with ⟨b, -, rfl⟩ | rfl | rfl
      · cases hkind
      · rfl
      · cases hkind
    rcases (mailboxIdsOf_store hs hf).1 hb with hb | hb
    · obtain ⟨r, hr, hre, -⟩ := Db.mem_mailboxIdsOf.1 hb
      exact absurd (hre.trans hid) (hs.linked.newEmail r hr)
    · exact hb.2

theorem Footprint.update {plan : UpdatePlan} (hf : plan.Fits a db) :
    Footprint db (db.applyUpdate a m plan) (Db.updateLog a m plan)
      (plan.oldMailboxes.elems ++ plan.newMailboxes.elems) where
  rows := by
    obtain ⟨gone, -, heq⟩ := Db.applyUpdate_eq a m hf.oldMailboxes hf.mailboxes
    rw [heq]
    refine filter_visible_map (by simp) fun r hr => ?_
    have hin : r.id ∉ plan.entered.elems := fun h => hr (by
      rw [SortedSet.mem_elems, UpdatePlan.entered, SortedSet.mem_difference] at h
      exact List.mem_append_right _ h.1)
    rw [Function.comp_apply, enterRow_of_not_mem hin, touchRow_of_not_mem hr]
  inside := by
    intro e b hb
    rw [mailboxIdsOf_update hf]
    by_cases he : e = plan.email
    · have hold : b ∉ db.mailboxIdsOf e := by
        rw [he, Db.mem_mailboxIdsOf, ← Db.mem_mailboxesOf, ← hf.oldMailboxes]
        exact fun h => hb (List.mem_append_left _ h)
      have hnew : b ∉ plan.newMailboxes := fun h => hb (List.mem_append_right _ h)
      tauto
    · tauto
  emails := by
    intro c hc hkind b hb
    have hid : c.objectId = plan.email := by
      simp only [Db.updateLog, Db.mailboxRows, List.mem_cons, List.mem_map] at hc
      rcases hc with rfl | ⟨b, -, rfl⟩
      · rfl
      · cases hkind
    rcases (mailboxIdsOf_update hf).1 hb with hb | hb
    · exact List.mem_append_right _ hb.2
    · exact absurd hid hb.1

theorem Footprint.destroy {row : EmailRow} :
    Footprint db (db.applyDestroy a m row) (db.destroyLog a m row) (db.mailboxIdsOf row.id) where
  rows := by
    rw [Db.applyDestroy_eq]
    refine filter_visible_map (setRow_id m _) fun r hr => setRow_of_not_mem fun h => hr ?_
    rw [SortedSet.mem_elems, Db.mem_mailboxesOf] at h
    exact Db.mem_mailboxIdsOf.2 h
  inside := by
    intro e b hb
    rw [mailboxIdsOf_destroy]
    refine and_iff_left_of_imp ?_
    rintro h rfl
    exact hb h
  emails := by
    intro c hc hkind b hb
    have hid : c.objectId = row.id := by
      simp only [Db.destroyLog, Db.mailboxRows, List.mem_cons, List.mem_append, List.mem_map,
        List.not_mem_nil, or_false] at hc
      rcases hc with rfl | ⟨b, -, rfl⟩ | rfl
      · rfl
      · cases hkind
      · cases hkind
    exact absurd hid (mailboxIdsOf_destroy.1 hb).2

theorem Footprint.leave {email mailbox : Int} (hin : mailbox ∈ db.mailboxIdsOf email) :
    Footprint db (db.leaveMailbox a m email mailbox) [⟨a, m, .email, email, .updated⟩]
      (db.mailboxIdsOf email) where
  rows := by
    rw [Db.leaveMailbox_eq]
    refine filter_visible_map (touchRow_id m _) fun r hr => touchRow_of_not_mem fun h => hr ?_
    exact (List.mem_filter.1 h).1
  inside := by
    intro e b hb
    rw [mailboxIdsOf_leave]
    refine and_iff_left_of_imp ?_
    rintro - ⟨-, rfl⟩
    exact hb hin
  emails := by
    intro c hc hkind b hb
    rw [List.mem_singleton.1 hc] at hb
    exact (mailboxIdsOf_leave.1 hb).1

/-- An event about one mailbox and no email. -/
theorem Footprint.mailbox {db' : Db} {log : List ChangeRow} {touched : List Int}
    (hrows : ∀ visible : List Int, (∀ b ∈ touched, b ∉ visible) →
      (db'.mailboxes.filter fun r => visible.contains r.id) =
        db.mailboxes.filter fun r => visible.contains r.id)
    (hmembers : db'.emailMailboxes = db.emailMailboxes) (hlog : ∀ c ∈ log, c.kind = .mailbox) :
    Footprint db db' log touched where
  rows := hrows
  inside := by
    intro e b _
    rw [Db.mem_mailboxIdsOf, Db.mem_mailboxIdsOf, hmembers]
  emails := by
    intro c hc hkind
    rw [hlog c hc] at hkind
    cases hkind

/-- **Every event keeps to the mailboxes it moves.** -/
theorem Event.Fits.footprint (hf : e.Fits a m dying db) (hs : Sound a m dying db) :
    Footprint db (e.apply a m db) (e.log a m db) (e.touches db) := by
  cases e with
  | store p ids => exact .store hs hf.2
  | update plan => exact .update hf.2
  | destroy row => exact .destroy
  | leave email mailbox => exact .leave (Db.mem_mailboxIdsOf.2 hf.2.inside)
  | create row =>
    rw [Event.apply, Db.applyCreate_eq hf.2.id hf.2.updated (hf.2.new hs.linked)]
    refine .mailbox ?_ rfl (by simp [Event.log])
    intro visible h
    rw [List.filter_append, List.filter_singleton]
    have hnot : visible.contains row.id = false := by simpa using h row.id (List.mem_singleton_self _)
    rw [hnot]
    exact List.append_nil _
  | alter id u =>
    rw [Event.apply, Db.mailboxUpdated_eq]
    refine .mailbox ?_ rfl (by simp [Event.log])
    intro visible h
    have hset : ∀ r : MailboxRow, r.id ∉ [id] → setRow m [id] r = r := fun _ => setRow_of_not_mem
    rw [filter_visible_map (setRow_id m [id]) hset visible h]
    exact filter_visible_map (by intro r; split <;> rfl)
      (fun r hr => if_neg (by simpa [Event.touches] using hr)) visible h
  | share mailbox acl =>
    rw [Event.apply, Db.applyAcl, Db.recordChange_eq]
    refine .mailbox ?_ rfl (by simp [Event.log])
    exact filter_visible_map (touchRow_id m _) fun _ => touchRow_of_not_mem
  | members list shared => exact .mailbox (fun _ _ => rfl) rfl (by simp [Event.log])

theorem Footprint.drop {b : Int} (hd : db.Droppable a b) :
    Footprint db (db.dropMailbox a m b) [⟨a, m, .mailbox, b, .destroyed⟩] [b] := by
  rw [Db.dropMailbox_eq]
  refine .mailbox ?_ (deleteWhere_eq_self fun r hr => by simpa using hd.empty r hr) (by simp)
  intro visible h
  rw [deleteWhere, List.filter_filter]
  refine List.filter_congr fun r _ => ?_
  by_cases hr : r.id = b
  · have := h b (List.mem_singleton_self _)
    simp [hr, this]
  · simp [hr]

/-! ## 4. Accounts and mailboxes stay -/

variable {owner : Int}

theorem sharing_updateWhere {p : AccountRow → Bool} {f : AccountRow → AccountRow} {t : List AccountRow}
    (hid : ∀ r, (f r).id = r.id)
    (hf : ∀ r, p r = true → r.id = owner → (f r).sharingModseq = r.sharingModseq) :
    ((updateWhere p f t).find? fun r => r.id == owner).map (·.sharingModseq) =
      (t.find? fun r => r.id == owner).map (·.sharingModseq) := by
  induction t with
  | nil => rfl
  | cons r t ih =>
    rw [updateWhere, List.map_cons]
    have hsame : (if p r = true then f r else r).id = r.id := by
      split
      · exact hid r
      · rfl
    rw [List.find?_cons, List.find?_cons, hsame]
    cases hr : r.id == owner with
    | false => exact ih
    | true =>
      simp only [Option.map_some]
      split
      next hp => rw [hf r hp (by simpa using hr)]
      next => rfl

theorem Event.Fits.seq_le (hf : e.Fits a m dying db) (hs : Sound a m dying db) :
    db.mailboxSeq ≤ (e.apply a m db).mailboxSeq := by
  cases e with
  | store p ids =>
    rw [Event.apply, Db.storeEmail_eq hf.2.nodup hf.2.mailboxes hs.linked.newEmail]
  | update plan =>
    obtain ⟨gone, -, heq⟩ := Db.applyUpdate_eq a m hf.2.oldMailboxes hf.2.mailboxes
    rw [Event.apply, heq]
  | destroy row => rw [Event.apply, Db.applyDestroy_eq]
  | leave email mailbox => rw [Event.apply, Db.leaveMailbox_eq]
  | create row =>
    rw [Event.apply, Db.applyCreate_eq hf.2.id hf.2.updated (hf.2.new hs.linked)]
    show db.mailboxSeq ≤ row.id
    rw [hf.2.id]
    omega
  | alter id u => rw [Event.apply, Db.mailboxUpdated_eq]; exact le_refl _
  | share mailbox acl => rw [Event.apply, Db.applyAcl, Db.recordChange_eq]; exact le_refl _
  | members list shared => exact le_refl _

/-- Whether an event leaves every share as it is. -/
def Event.shareFree : Event → Bool
  | create _ | share _ _ | members _ _ => false
  | _ => true

theorem Event.Fits.shareFree_eq (hf : e.Fits a m dying db) (hs : Sound a m dying db)
    (h : e.shareFree = true) : (e.apply a m db).mailboxAcl = db.mailboxAcl ∧
      (e.apply a m db).sharedMailboxMembers = db.sharedMailboxMembers := by
  cases e with
  | store p ids =>
    rw [Event.apply, Db.storeEmail_eq hf.2.nodup hf.2.mailboxes hs.linked.newEmail]
    exact ⟨rfl, rfl⟩
  | update plan =>
    obtain ⟨gone, -, heq⟩ := Db.applyUpdate_eq a m hf.2.oldMailboxes hf.2.mailboxes
    rw [Event.apply, heq]
    exact ⟨rfl, rfl⟩
  | destroy row =>
    rw [Event.apply, Db.applyDestroy_eq]
    exact ⟨rfl, rfl⟩
  | leave email mailbox =>
    rw [Event.apply, Db.leaveMailbox_eq]
    exact ⟨rfl, rfl⟩
  | alter id u =>
    rw [Event.apply, Db.mailboxUpdated_eq]
    exact ⟨rfl, rfl⟩
  | _ => cases h

/-- While a mailbox is being destroyed nothing is shared. -/
theorem Event.Fits.shares_eq (hf : e.Fits a m dying db) (hs : Sound a m dying db) :
    dying = none ∨ ((e.apply a m db).mailboxAcl = db.mailboxAcl ∧
      (e.apply a m db).sharedMailboxMembers = db.sharedMailboxMembers) := by
  by_cases hfree : e.shareFree = true
  · exact .inr (hf.shareFree_eq hs hfree)
  · cases e with
    | create row => exact .inl hf.1
    | share mailbox acl => exact .inl hf.1
    | members list shared => exact .inl hf.1
    | _ => exact absurd rfl hfree

/-- What an event of `a` at the modseq `m` makes of an account.  Accounts stay, alive or not; the
sharing moves on with what changes it, in the account it is of, and nowhere else. -/
structure Event.Rewrites (a m : Int) (e : Event) (x x' : AccountRow) : Prop where
  id : x'.id = x.id
  deletedAt : x'.deletedAt = x.deletedAt
  modseq : x'.modseq = x.modseq
  shared : e.sharing = true → x.id = a → x'.sharingModseq = max x.sharingModseq m
  same : e.sharing = false ∨ a ≠ x.id →
    x'.sharedMailbox = x.sharedMailbox ∧ x'.sharingModseq = x.sharingModseq

/-- An event that is not about the sharing leaves at most the storage used. -/
theorem Event.Rewrites.of_same {x x' : AccountRow} (he : e.sharing = false)
    (h : x' = { x with usedBytes := x'.usedBytes }) : e.Rewrites a m x x' := by
  rw [h]
  exact ⟨rfl, rfl, rfl, fun h => absurd (h.symm.trans he) (by simp), fun _ => ⟨rfl, rfl⟩⟩

theorem Event.Fits.accounts_eq (hf : e.Fits a m dying db) (hs : Sound a m dying db) :
    ∃ f : AccountRow → AccountRow, (e.apply a m db).accounts = db.accounts.map f ∧
      ∀ x, e.Rewrites a m x (f x) := by
  have hsame : ∀ e : Event, e.sharing = false → ∀ x, e.Rewrites a m x x :=
    fun e he x => .of_same he rfl
  cases e with
  | store p ids =>
    rw [Event.apply, Db.storeEmail_eq hf.2.nodup hf.2.mailboxes hs.linked.newEmail]
    exact ⟨_, rfl, fun x => .of_same rfl (by split <;> rfl)⟩
  | update plan =>
    obtain ⟨gone, -, heq⟩ := Db.applyUpdate_eq a m hf.2.oldMailboxes hf.2.mailboxes
    rw [Event.apply, heq]
    exact ⟨_, (List.map_id _).symm, hsame _ rfl⟩
  | destroy row =>
    rw [Event.apply, Db.applyDestroy_eq]
    exact ⟨_, rfl, fun x => .of_same rfl (by split <;> rfl)⟩
  | leave email mailbox =>
    rw [Event.apply, Db.leaveMailbox_eq]
    exact ⟨_, (List.map_id _).symm, hsame _ rfl⟩
  | create row =>
    rw [Event.apply, Db.applyCreate_eq hf.2.id hf.2.updated (hf.2.new hs.linked)]
    exact ⟨_, (List.map_id _).symm, hsame _ rfl⟩
  | alter id u =>
    rw [Event.apply, Db.mailboxUpdated_eq]
    exact ⟨_, (List.map_id _).symm, hsame _ rfl⟩
  | share mailbox acl =>
    rw [Event.apply, Db.applyAcl, Db.recordChange_eq]
    refine ⟨_, rfl, fun x => ?_⟩
    by_cases hx : x.id = a
    · simp only [hx, beq_self_eq_true, if_true]
      exact ⟨hx.symm ▸ rfl, rfl, rfl, fun _ _ => rfl, fun h =>
        absurd hx.symm (h.resolve_left (by simp [Event.sharing]))⟩
    · simp only [beq_iff_eq, hx, if_false]
      exact ⟨rfl, rfl, rfl, fun _ h => absurd h hx, fun _ => ⟨rfl, rfl⟩⟩
  | members list shared =>
    refine ⟨_, List.map_map, fun x => ?_⟩
    simp only [Function.comp_apply]
    by_cases hx : x.id = a
    · simp only [hx, beq_self_eq_true, if_true]
      exact ⟨hx.symm ▸ rfl, rfl, rfl, fun _ _ => rfl, fun h =>
        absurd hx.symm (h.resolve_left (by simp [Event.sharing]))⟩
    · simp only [beq_iff_eq, hx, if_false]
      exact ⟨rfl, rfl, rfl, fun _ h => absurd h hx, fun _ => ⟨rfl, rfl⟩⟩

/-- Only sharing moves the modseq of the sharing, and only the account's own. -/
theorem Event.Fits.sharing_eq (hf : e.Fits a m dying db) (hs : Sound a m dying db)
    (h : e.sharing = false ∨ a ≠ owner) :
    ((e.apply a m db).account owner).map (·.sharingModseq) =
      (db.account owner).map (·.sharingModseq) := by
  obtain ⟨f, heq, hrewrites⟩ := hf.accounts_eq hs
  have hid : ((fun r : AccountRow => r.id == owner) ∘ f) = fun r => r.id == owner :=
    funext fun r => by simp [(hrewrites r).id]
  simp only [Db.account, heq, List.find?_map, hid, Option.map_map]
  cases hx : db.accounts.find? fun r => r.id == owner with
  | none => rfl
  | some x =>
    have hxo : x.id = owner := by simpa using List.find?_some hx
    simp only [Option.map_some, Function.comp_apply]
    rw [((hrewrites x).same (hxo.symm ▸ h)).2]

theorem Event.Fits.keeps_mailbox (hf : e.Fits a m dying db) (hs : Sound a m dying db)
    {b : MailboxRow} (hb : b ∈ db.mailboxes) : ∃ b' ∈ (e.apply a m db).mailboxes, b'.id = b.id := by
  cases e with
  | store p ids =>
    rw [Event.apply, Db.storeEmail_eq hf.2.nodup hf.2.mailboxes hs.linked.newEmail]
    exact ⟨_, List.mem_map_of_mem hb, enterRow_id _ _ _⟩
  | update plan =>
    obtain ⟨gone, -, heq⟩ := Db.applyUpdate_eq a m hf.2.oldMailboxes hf.2.mailboxes
    rw [Event.apply, heq]
    exact ⟨_, List.mem_map_of_mem hb, by simp⟩
  | destroy row =>
    rw [Event.apply, Db.applyDestroy_eq]
    exact ⟨_, List.mem_map_of_mem hb, setRow_id _ _ _⟩
  | leave email mailbox =>
    rw [Event.apply, Db.leaveMailbox_eq]
    exact ⟨_, List.mem_map_of_mem hb, touchRow_id _ _ _⟩
  | create row =>
    rw [Event.apply, Db.applyCreate_eq hf.2.id hf.2.updated (hf.2.new hs.linked)]
    exact ⟨b, List.mem_append_left _ hb, rfl⟩
  | alter id u =>
    rw [Event.apply, Db.mailboxUpdated_eq]
    refine ⟨_, List.mem_map_of_mem (List.mem_map_of_mem hb), ?_⟩
    rw [setRow_id]
    split <;> rfl
  | share mailbox acl =>
    rw [Event.apply, Db.applyAcl, Db.recordChange_eq]
    exact ⟨_, List.mem_map_of_mem hb, touchRow_id _ _ _⟩
  | members list shared => exact ⟨b, hb, rfl⟩

/-- A mailbox is still there afterwards, and not behind. -/
theorem Event.Fits.mailbox_le (hf : e.Fits a m dying db) (hs : Sound a m dying db)
    {b : MailboxRow} (hb : b ∈ db.mailboxes) :
    ∃ b' ∈ (e.apply a m db).mailboxes, b'.id = b.id ∧ b'.accountId = b.accountId ∧
      b.updatedModseq ≤ b'.updatedModseq := by
  obtain ⟨b', hb', hid⟩ := hf.keeps_mailbox hs hb
  rcases (hf.tick hs).mailbox b' hb' with ⟨b₁, hb₁, hmoved⟩ | ⟨-, -, hnew⟩
  · have heq : b₁ = b := hs.keyed.mailbox.eq hb₁ hb (hmoved.id.symm.trans hid)
    subst heq
    exact ⟨b', hb', hid, hmoved.accountId, hmoved.le hs hb⟩
  · exact absurd (hid.symm.trans hnew) (hs.linked.newMailbox b hb)

theorem Event.Fits.account_le (hf : e.Fits a m dying db) (hs : Sound a m dying db)
    {x : AccountRow} (hx : x ∈ db.accounts) :
    ∃ x' ∈ (e.apply a m db).accounts, x'.id = x.id ∧ x.sharingModseq ≤ x'.sharingModseq := by
  obtain ⟨f, heq, hrewrites⟩ := hf.accounts_eq hs
  rw [heq]
  refine ⟨f x, List.mem_map_of_mem hx, (hrewrites x).id, ?_⟩
  by_cases h : e.sharing = true ∧ x.id = a
  · rw [(hrewrites x).shared h.1 h.2]
    exact le_max_left _ _
  · refine le_of_eq ((hrewrites x).same ?_).2.symm
    rcases not_and_or.1 h with h | h
    · exact .inl (by simpa using h)
    · exact .inr (Ne.symm h)

end Log

end UwuMail.Store
