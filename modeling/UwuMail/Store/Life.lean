/-
# The life of an object in the change log

An object is an email, a thread or a mailbox of an account.  An event makes objects and ends
objects; what it offers to the change log says which: `created` for what it makes, `destroyed` for
what it ends, and `updated` for others that are there (`Event.Fits.log_cases`).

`Lived` is what the log says of an object that is there: the row that created it, and after that
nothing but updates.  The rows are found by their modseqs, as a key of the log is taken by the FIRST
row that is offered under it.
-/
import UwuMail.Store.Log
import UwuMail.Store.Qresync

namespace UwuMail.Store

open Table

/-! ## 1. Objects -/

/-- The objects of one kind an account has. -/
def Db.objects (db : Db) (a : Int) : ObjectKind → List Int
  | .email => (db.emails.filter fun r => r.accountId == a).map (·.id)
  | .thread => (db.threads.filter fun r => r.accountId == a).map (·.id)
  | .mailbox => (db.mailboxes.filter fun r => r.accountId == a).map (·.id)

/-- The id that was given out last. -/
def Db.seqOf (db : Db) : ObjectKind → Int
  | .email => db.emailSeq
  | .thread => db.threadSeq
  | .mailbox => db.mailboxSeq

variable {k : ObjectKind}

section Objects

variable {a o : Int} {db : Db}

theorem mem_objects_email : o ∈ db.objects a .email ↔ ∃ r ∈ db.emails, r.id = o ∧ r.accountId = a := by
  simp only [Db.objects, List.mem_map, List.mem_filter, beq_iff_eq]
  exact exists_congr fun r => by tauto

theorem mem_objects_thread : o ∈ db.objects a .thread ↔ ∃ r ∈ db.threads, r.id = o ∧ r.accountId = a := by
  simp only [Db.objects, List.mem_map, List.mem_filter, beq_iff_eq]
  exact exists_congr fun r => by tauto

theorem mem_objects_mailbox : o ∈ db.objects a .mailbox ↔ db.Has a o := by
  simp only [Db.objects, List.mem_map, List.mem_filter, beq_iff_eq, Db.Has]
  exact exists_congr fun r => by tauto

theorem Linked.objects_le (h : Linked db) (ho : o ∈ db.objects a k) : o ≤ db.seqOf k := by
  cases k with
  | email =>
    obtain ⟨r, hr, rfl, -⟩ := mem_objects_email.1 ho
    exact h.emailSeq r hr
  | thread =>
    obtain ⟨r, hr, rfl, -⟩ := mem_objects_thread.1 ho
    exact h.threadSeq r hr
  | mailbox =>
    obtain ⟨r, hr, rfl, -⟩ := mem_objects_mailbox.1 ho
    exact (h.mailboxSeq r hr).2

/-- An object has one account. -/
theorem Keyed.objects_account {x : Int} (h : Keyed db) (ho : o ∈ db.objects a k)
    (ho' : o ∈ db.objects x k) : x = a := by
  cases k with
  | email =>
    obtain ⟨r, hr, rfl, rfl⟩ := mem_objects_email.1 ho
    obtain ⟨r', hr', hid, rfl⟩ := mem_objects_email.1 ho'
    rw [h.email.eq hr' hr hid]
  | thread =>
    obtain ⟨r, hr, rfl, rfl⟩ := mem_objects_thread.1 ho
    obtain ⟨r', hr', hid, rfl⟩ := mem_objects_thread.1 ho'
    rw [h.thread.eq hr' hr hid]
  | mailbox =>
    obtain ⟨r, hr, rfl, rfl⟩ := mem_objects_mailbox.1 ho
    obtain ⟨r', hr', hid, rfl⟩ := mem_objects_mailbox.1 ho'
    rw [h.mailbox.eq hr' hr hid]

end Objects

/-! ## 2. What an event makes and ends -/

/-- The objects an event makes. -/
def Event.born (db : Db) : Event → List (ObjectKind × Int)
  | store p _ => (.email, db.emailSeq + 1) ::
      if db.startsThread p then [(.thread, db.threadSeq + 1)] else []
  | create row => [(.mailbox, row.id)]
  | _ => []

/-- The objects an event ends. -/
def Event.ended (db : Db) : Event → List (ObjectKind × Int)
  | destroy row => (.email, row.id) ::
      if db.threadSurvives row then [] else [(.thread, row.threadId)]
  | _ => []

section Events

variable {a m : Int} {dying : Option Int} {db : Db} {e : Event}

theorem Event.Fits.born_eq (hf : e.Fits a m dying db) {o : Int}
    (h : (k, o) ∈ e.born db) : o = db.seqOf k + 1 := by
  cases e with
  | store p ids =>
    rcases List.mem_cons.1 h with h | h
    · cases h
      rfl
    · split at h
      · cases List.mem_singleton.1 h
        rfl
      · cases h
  | create row =>
    cases List.mem_singleton.1 h
    exact hf.2.id
  | _ => cases h

theorem Event.Fits.ended_own (hf : e.Fits a m dying db) (hs : Sound a m dying db)
    {o : Int} (h : (k, o) ∈ e.ended db) : o ∈ db.objects a k := by
  cases e with
  | destroy row =>
    rcases List.mem_cons.1 h with h | h
    · cases h
      exact mem_objects_email.2 ⟨row, hf.1, rfl, hf.2⟩
    · split at h
      · cases h
      · cases List.mem_singleton.1 h
        obtain ⟨t, ht, hid, hacc⟩ := hs.linked.emailThread row hf.1
        exact mem_objects_thread.2 ⟨t, ht, hid, hacc.trans hf.2⟩
  | _ => cases h

/-- A thread a message goes into without starting it is there. -/
theorem Sound.thread_of_store (hs : Sound a m dying db) {p : Incoming} (hp : p.accountId = a)
    (h : db.startsThread p = false) : db.threadIdFor p ∈ db.objects a .thread := by
  unfold Db.startsThread at h
  unfold Db.threadIdFor
  cases ht : db.threadFor p.accountId p.info with
  | none => simp [ht] at h
  | some t =>
    obtain ⟨r, hr, hacc, hthread, -⟩ := Db.threadFor_some ht
    obtain ⟨thread, hin, hid, ha⟩ := hs.linked.messageId r hr
    exact mem_objects_thread.2 ⟨thread, hin, hid.trans hthread, ha.trans (hacc.trans hp)⟩

theorem threadIdFor_of_starts {p : Incoming} (h : db.startsThread p = true) :
    db.threadIdFor p = db.threadSeq + 1 := by
  unfold Db.startsThread at h
  rw [Db.threadIdFor, Option.isNone_iff_eq_none.1 h, Option.getD_none]

/-- What a row says of its object before the event. -/
inductive Event.Tells (a : Int) (db : Db) (e : Event) (c : ChangeRow) : Prop
  | created (hc : c.change = .created) (h : (c.kind, c.objectId) ∈ e.born db)
  | destroyed (hc : c.change = .destroyed) (h : (c.kind, c.objectId) ∈ e.ended db)
  | updated (hc : c.change = .updated) (h : c.objectId ∈ db.objects a c.kind)
      (hno : (c.kind, c.objectId) ∉ e.ended db)

/-- **The rows an event offers tell what it makes, what it ends and what it leaves.** -/
theorem Event.Fits.log_cases (hf : e.Fits a m dying db) (hs : Sound a m dying db)
    {c : ChangeRow} (hc : c ∈ e.log a m db) : e.Tells a db c := by
  cases e with
  | store p ids =>
    simp only [Event.log, Db.storeLog, Db.mailboxRows, List.mem_append, List.mem_map, List.mem_cons,
      List.not_mem_nil, or_false] at hc
    rcases hc with ⟨b, hb, rfl⟩ | rfl | rfl
    · exact .updated rfl (mem_objects_mailbox.2 (hf.2.has b hb)) List.not_mem_nil
    · exact .created rfl List.mem_cons_self
    · cases hstarts : db.startsThread p with
      | true =>
        refine .created rfl (List.mem_cons_of_mem _ ?_)
        rw [hstarts, if_pos rfl, threadIdFor_of_starts hstarts]
        exact List.mem_singleton_self _
      | false => exact .updated rfl (hs.thread_of_store hf.2.account hstarts) List.not_mem_nil
  | update plan =>
    simp only [Event.log, Db.updateLog, Db.mailboxRows, List.mem_cons, List.mem_map] at hc
    rcases hc with rfl | ⟨b, hb, rfl⟩
    · exact .updated rfl (mem_objects_email.2 hf.2.email) List.not_mem_nil
    · refine .updated rfl (mem_objects_mailbox.2 (hf.2.has_of_mem hs b ?_)) List.not_mem_nil
      rcases List.mem_append.1 hb with hb | hb
      · rw [SortedSet.mem_elems, SortedSet.mem_symmetricDifference] at hb
        exact List.mem_append.2 (hb.imp (·.1) (·.1))
      · split at hb
        · exact List.mem_append_right _ hb
        · cases hb
  | destroy row =>
    simp only [Event.log, Db.destroyLog, Db.mailboxRows, List.mem_cons, List.mem_append, List.mem_map,
      List.not_mem_nil, or_false] at hc
    rcases hc with rfl | ⟨b, hb, rfl⟩ | rfl
    · exact .destroyed rfl List.mem_cons_self
    · rw [SortedSet.mem_elems, Db.mem_mailboxesOf] at hb
      obtain ⟨r, hr, hre, rfl⟩ := hb
      refine .updated rfl (mem_objects_mailbox.2 (hs.has_of_member hf.1 hf.2 hr hre)) ?_
      simp only [Event.ended]
      split <;> simp
    · cases hsurvives : db.threadSurvives row with
      | true =>
        obtain ⟨t, ht, hid, hacc⟩ := hs.linked.emailThread row hf.1
        exact .updated rfl (mem_objects_thread.2 ⟨t, ht, hid, hacc.trans hf.2⟩)
          (by simp [Event.ended, hsurvives])
      | false => exact .destroyed rfl (by simp [Event.ended, hsurvives])
  | leave email mailbox =>
    rw [List.mem_singleton.1 hc]
    exact .updated rfl (mem_objects_email.2 hf.2.own) List.not_mem_nil
  | create row =>
    rw [List.mem_singleton.1 hc]
    exact .created rfl List.mem_cons_self
  | alter id u =>
    rw [List.mem_singleton.1 hc]
    exact .updated rfl (mem_objects_mailbox.2 hf.2.has) List.not_mem_nil
  | share mailbox acl =>
    rw [List.mem_singleton.1 hc]
    exact .updated rfl (mem_objects_mailbox.2 hf.2.1) List.not_mem_nil
  | members list shared => cases hc

theorem Event.Fits.log_born (hf : e.Fits a m dying db) {o : Int}
    (h : (k, o) ∈ e.born db) : ⟨a, m, k, o, .created⟩ ∈ e.log a m db := by
  cases e with
  | store p ids =>
    rw [Event.log, Db.storeLog, hf.2.account]
    rcases List.mem_cons.1 h with h | h
    · cases h
      simp
    · split at h
      next hstarts =>
        cases List.mem_singleton.1 h
        simp [hstarts, threadIdFor_of_starts hstarts]
      next => cases h
  | create row =>
    cases List.mem_singleton.1 h
    exact List.mem_singleton_self _
  | _ => cases h

/-- A statement that writes neither the ids nor the accounts of a table. -/
theorem ids_map {ρ : Type} {key acc : ρ → Int} {f : ρ → ρ} (hkey : ∀ r, key (f r) = key r)
    (hacc : ∀ r, acc (f r) = acc r) (t : List ρ) (x : Int) :
    ((t.map f).filter fun r => acc r == x).map key = (t.filter fun r => acc r == x).map key := by
  rw [List.filter_map, List.map_map]
  simp only [Function.comp_def, hkey, hacc]

theorem ids_updateWhere {ρ : Type} {key acc : ρ → Int} {f : ρ → ρ} (hkey : ∀ r, key (f r) = key r)
    (hacc : ∀ r, acc (f r) = acc r) (p : ρ → Bool) (t : List ρ) (x : Int) :
    ((updateWhere p f t).filter fun r => acc r == x).map key = (t.filter fun r => acc r == x).map key := by
  refine ids_map (fun r => ?_) (fun r => ?_) t x
  · split
    · exact hkey r
    · rfl
  · split
    · exact hacc r
    · rfl

/-- Deleting one id takes that id out. -/
theorem mem_ids_deleteWhere {ρ : Type} {key acc : ρ → Int} {t : List ρ} {x o id : Int} :
    o ∈ ((deleteWhere (fun r => key r == id) t).filter fun r => acc r == x).map key ↔
      o ∈ (t.filter fun r => acc r == x).map key ∧ o ≠ id := by
  simp only [List.mem_map, List.mem_filter, mem_deleteWhere, beq_eq_false_iff_ne]
  constructor
  · rintro ⟨r, ⟨⟨hr, hne⟩, hx⟩, rfl⟩
    exact ⟨⟨r, ⟨hr, hx⟩, rfl⟩, hne⟩
  · rintro ⟨⟨r, ⟨hr, hx⟩, rfl⟩, hne⟩
    exact ⟨r, ⟨⟨hr, hne⟩, hx⟩, rfl⟩

theorem mem_ids_append {ρ : Type} {key acc : ρ → Int} {t : List ρ} {row : ρ} {x o : Int} :
    o ∈ ((t ++ [row]).filter fun r => acc r == x).map key ↔
      o ∈ (t.filter fun r => acc r == x).map key ∨ (acc row = x ∧ o = key row) := by
  simp only [List.filter_append, List.map_append, List.mem_append]
  refine or_congr Iff.rfl ?_
  by_cases h : acc row = x <;> simp [h]

/-- Most events neither make nor end anything. -/
theorem Event.Fits.objects_eq (hf : e.Fits a m dying db) (hborn : e.born db = [])
    (hended : e.ended db = []) (x : Int) (k : ObjectKind) :
    (e.apply a m db).objects x k = db.objects x k := by
  cases e with
  | store p ids => cases hborn
  | destroy row => cases hended
  | create row => cases hborn
  | update plan =>
    obtain ⟨gone, -, heq⟩ := Db.applyUpdate_eq a m hf.2.oldMailboxes hf.2.mailboxes
    rw [Event.apply, heq]
    cases k with
    | email => exact ids_updateWhere (by exact fun _ => rfl) (by exact fun _ => rfl) _ _ x
    | thread => rfl
    | mailbox => exact ids_map (by simp) (by simp) _ x
  | leave email mailbox =>
    rw [Event.apply, Db.leaveMailbox_eq]
    cases k with
    | email => exact ids_updateWhere (by exact fun _ => rfl) (by exact fun _ => rfl) _ _ x
    | thread => rfl
    | mailbox => exact ids_map (touchRow_id m _) (touchRow_accountId m _) _ x
  | alter id u =>
    rw [Event.apply, Db.mailboxUpdated_eq]
    cases k with
    | mailbox =>
      refine (ids_map (setRow_id m _) (setRow_accountId m _) _ x).trans ?_
      exact ids_updateWhere (by exact fun _ => rfl) (by exact fun _ => rfl) _ _ x
    | _ => rfl
  | share mailbox acl =>
    rw [Event.apply, Db.applyAcl, Db.recordChange_eq]
    cases k with
    | mailbox => exact ids_map (touchRow_id m _) (touchRow_accountId m _) _ x
    | _ => rfl
  | members list shared => cases k <;> rfl

/-- **What an event makes of the objects.** -/
theorem Event.Fits.mem_objects (hf : e.Fits a m dying db) (hs : Sound a m dying db) {x o : Int}
    : o ∈ (e.apply a m db).objects x k ↔
      (o ∈ db.objects x k ∧ (k, o) ∉ e.ended db) ∨ (x = a ∧ (k, o) ∈ e.born db) := by
  cases e with
  | store p ids =>
    have hp : p.accountId = a := hf.2.account
    rw [Event.apply, Db.storeEmail_eq hf.2.nodup hf.2.mailboxes hs.linked.newEmail]
    simp only [Event.ended, Event.born, List.not_mem_nil, not_false_eq_true, and_true]
    cases k with
    | email =>
      refine mem_ids_append.trans (or_congr Iff.rfl ?_)
      simp only [Incoming.row, hp]
      split <;> simp [eq_comm]
    | thread =>
      cases db.startsThread p with
      | true =>
        simp only [if_true]
        refine mem_ids_append.trans (or_congr Iff.rfl ?_)
        simp [hp, eq_comm]
      | false =>
        simp [Db.objects]
    | mailbox =>
      rw [Db.objects, ids_map (enterRow_id m ids) (enterRow_accountId m ids)]
      split <;> simp [Db.objects]
  | destroy row =>
    rw [Event.apply, Db.applyDestroy_eq]
    simp only [Event.born, List.not_mem_nil, and_false, or_false]
    cases k with
    | email =>
      refine mem_ids_deleteWhere.trans (and_congr Iff.rfl ?_)
      simp only [Event.ended]
      split <;> simp
    | thread =>
      simp only [Db.objects, Db.withThread, Event.ended]
      split
      · simp
      · refine mem_ids_deleteWhere.trans (and_congr Iff.rfl ?_)
        simp
    | mailbox =>
      rw [Db.objects, ids_map (setRow_id m _) (setRow_accountId m _)]
      simp only [Event.ended]
      split <;> simp [Db.objects]
  | create row =>
    rw [Event.apply, Db.applyCreate_eq hf.2.id hf.2.updated (hf.2.new hs.linked)]
    simp only [Event.ended, Event.born, List.not_mem_nil, not_false_eq_true, and_true]
    cases k with
    | mailbox =>
      refine mem_ids_append.trans (or_congr Iff.rfl ?_)
      simp [hf.2.account, eq_comm]
    | _ => simp [Db.objects]
  | _ =>
    rw [hf.objects_eq rfl rfl]
    simp [Event.born, Event.ended]

theorem Event.Fits.seqOf_le (hf : e.Fits a m dying db) (hs : Sound a m dying db)
    (k : ObjectKind) : db.seqOf k ≤ (e.apply a m db).seqOf k := by
  cases k with
  | mailbox => exact hf.seq_le hs
  | _ =>
    cases e with
    | store p ids =>
      rw [Event.apply, Db.storeEmail_eq hf.2.nodup hf.2.mailboxes hs.linked.newEmail]
      simp only [Db.seqOf]
      omega
    | update plan =>
      obtain ⟨gone, -, heq⟩ := Db.applyUpdate_eq a m hf.2.oldMailboxes hf.2.mailboxes
      rw [Event.apply, heq]
      exact le_refl _
    | destroy row => rw [Event.apply, Db.applyDestroy_eq]; exact le_refl _
    | leave email mailbox => rw [Event.apply, Db.leaveMailbox_eq]; exact le_refl _
    | create row =>
      rw [Event.apply, Db.applyCreate_eq hf.2.id hf.2.updated (hf.2.new hs.linked)]
      exact le_refl _
    | alter id u => rw [Event.apply, Db.mailboxUpdated_eq]; exact le_refl _
    | share mailbox acl => rw [Event.apply, Db.applyAcl, Db.recordChange_eq]; exact le_refl _
    | members list shared => exact le_refl _

/-- What is made is there, under an id that was given out. -/
theorem Event.Fits.born_le (hf : e.Fits a m dying db) (hs : Sound a m dying db) (hm : 0 < m)
    {o : Int} (h : (k, o) ∈ e.born db) : o ≤ (e.apply a m db).seqOf k :=
  (hf.sound hs hm.le).linked.objects_le ((hf.mem_objects hs).2 (.inr ⟨rfl, h⟩))

/-! ## 3. What the log says of what is there -/

/-- The object was created at `m₀` and only updated since. -/
structure Db.Lived (db : Db) (a : Int) (k : ObjectKind) (o m₀ : Int) : Prop where
  created : ⟨a, m₀, k, o, .created⟩ ∈ db.changes
  rows : ∀ c ∈ db.changes, c.kind = k → c.objectId = o →
    c = ⟨a, m₀, k, o, .created⟩ ∨ (c.accountId = a ∧ m₀ < c.modseq ∧ c.change = .updated)

structure Logged (db : Db) : Prop where
  seq : ∀ c ∈ db.changes, c.objectId ≤ db.seqOf c.kind
  lived : ∀ a k, ∀ o ∈ db.objects a k, ∃ m₀, db.Lived a k o m₀

/-- Rows of an event under keys that are free. -/
theorem Event.Fits.new_row (hf : e.Fits a m dying db) (hs : Sound a m dying db)
    {c : ChangeRow} (hc : c ∈ (e.apply a m db).changes) : c ∈ db.changes ∨
      (c.accountId = a ∧ c.modseq = m ∧ e.Tells a db c ∧ ∀ r ∈ db.changes, r.key ≠ c.key) := by
  rw [hf.changes hs] at hc
  rcases mem_insertAll hc with hc | ⟨hc, hfree⟩
  · exact .inl hc
  · exact .inr ⟨(hf.log_mine c hc).1, (hf.log_mine c hc).2, hf.log_cases hs hc, hfree⟩

/-- The account's objects were not created ahead of the transaction. -/
theorem Sound.row_le (hs : Sound a m dying db) {c : ChangeRow} (hc : c ∈ db.changes)
    (ha : c.accountId = a) : c.modseq ≤ m := by
  obtain ⟨x, hx, hid⟩ := hs.linked.change c hc
  rw [← hs.at_m x hx (hid.trans ha)]
  exact hs.clocked.change c hc x hx hid

theorem mem_objects_drop {b x o : Int} :
    o ∈ (db.dropMailbox a m b).objects x k ↔ o ∈ db.objects x k ∧ (k, o) ≠ (.mailbox, b) := by
  rw [Db.dropMailbox_eq]
  cases k with
  | mailbox => exact mem_ids_deleteWhere.trans (and_congr Iff.rfl (by simp))
  | _ => simp [Db.objects]

theorem seqOf_drop {b : Int} (k : ObjectKind) : (db.dropMailbox a m b).seqOf k = db.seqOf k := by
  rw [Db.dropMailbox_eq]
  cases k <;> rfl

theorem objects_insertAccount (new : NewAccount) (x : Int) (k : ObjectKind) :
    (db.insertAccount new).objects x k = db.objects x k := by
  cases k <;> rfl

theorem objects_bump (x : Int) (k : ObjectKind) : (db.bumpModseq a).objects x k = db.objects x k := by
  cases k <;> rfl

theorem Logged.of_eq {db' : Db} (h : Logged db) (hchanges : db'.changes = db.changes)
    (hobjects : ∀ x k, db'.objects x k = db.objects x k) (hseq : ∀ k, db'.seqOf k = db.seqOf k) :
    Logged db' := by
  refine ⟨?_, ?_⟩
  · rw [hchanges]
    intro c hc
    rw [hseq]
    exact h.seq c hc
  · intro x k o ho
    rw [hobjects] at ho
    obtain ⟨m₀, hcreated, hrows⟩ := h.lived x k o ho
    exact ⟨m₀, hchanges ▸ hcreated, hchanges ▸ hrows⟩

theorem Logged.bump (h : Logged db) (a : Int) : Logged (db.bumpModseq a) :=
  h.of_eq rfl objects_bump fun k => by cases k <;> rfl

theorem Logged.insertAccount (h : Logged db) (new : NewAccount) : Logged (db.insertAccount new) :=
  h.of_eq rfl (objects_insertAccount new) fun k => by cases k <;> rfl

end Events

end UwuMail.Store
