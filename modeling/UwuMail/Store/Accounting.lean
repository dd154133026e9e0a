/-
# Storage accounting

What an account is charged for is what it holds.  Emails come by one route (`ingest`) and go by
five: explicit destruction, expunging, removal from the last mailbox, and destruction of a mailbox
with emails that are only there or elsewhere too.  As events these are `destroy` and `leave`, so
the invariant `Accounted` is looked at twice and not five times.
-/
import UwuMail.Store.Run

namespace UwuMail.Store

open Table

/-! ## 1. The invariant -/

/-- The sum of the sizes of an account's emails. -/
def Db.sizeOf (db : Db) (account : Int) : Int :=
  ((db.emails.filter fun e => e.accountId == account).map (·.size)).sum

structure Accounted (db : Db) : Prop where
  used : ∀ x ∈ db.accounts, x.usedBytes = db.sizeOf x.id
  size : ∀ e ∈ db.emails, 0 ≤ e.size
  somewhere : ∀ e ∈ db.emails, ∃ r ∈ db.emailMailboxes, r.emailId = e.id
  thread : ∀ t ∈ db.threads, ∃ e ∈ db.emails, e.threadId = t.id

theorem Accounted.empty : Accounted {} := by
  constructor <;> simp

/-! ## 2. Sums -/

section Sums

variable {db db' : Db} {a : Int}

theorem sizeOf_congr (h : db'.emails = db.emails) (a : Int) : db'.sizeOf a = db.sizeOf a := by
  rw [Db.sizeOf, Db.sizeOf, h]

/-- A statement that leaves owners and sizes alone. -/
theorem sizeOf_updateWhere {p : EmailRow → Bool} {f : EmailRow → EmailRow}
    (h : db'.emails = updateWhere p f db.emails)
    (hf : ∀ r, (f r).accountId = r.accountId ∧ (f r).size = r.size) (a : Int) :
    db'.sizeOf a = db.sizeOf a := by
  rw [Db.sizeOf, h, filter_updateWhere (fun r => by rw [(hf r).1]),
    map_updateWhere fun r => (hf r).2]
  rfl

theorem sizeOf_append {row : EmailRow} (h : db'.emails = db.emails ++ [row]) (a : Int) :
    db'.sizeOf a = db.sizeOf a + if row.accountId = a then row.size else 0 := by
  rw [Db.sizeOf, h, List.filter_append, List.map_append, List.sum_append]
  by_cases ha : row.accountId = a <;> simp [ha, Db.sizeOf]

theorem sizeOf_delete {row : EmailRow} (hk : Keyed db) (hrow : row ∈ db.emails)
    (h : db'.emails = deleteWhere (fun r => r.id == row.id) db.emails) (a : Int) :
    db.sizeOf a = db'.sizeOf a + if row.accountId = a then row.size else 0 := by
  have hperm := ((hk.email.perm_cons_deleteWhere hrow).filter fun e => e.accountId == a).map
    (·.size)
  rw [Db.sizeOf, hperm.sum_eq, Db.sizeOf, h]
  by_cases ha : row.accountId = a
  · simp [ha, add_comm]
  · simp [ha]

theorem sizeOf_nonneg (h : ∀ e ∈ db.emails, 0 ≤ e.size) (a : Int) : 0 ≤ db.sizeOf a := by
  refine List.sum_nonneg ?_
  intro n hn
  obtain ⟨e, he, rfl⟩ := List.mem_map.1 hn
  exact h e (List.mem_filter.1 he).1

/-- An email is not larger than what its account is charged for. -/
theorem Accounted.size_le (h : Accounted db) (hk : Keyed db) {e : EmailRow} (he : e ∈ db.emails)
    {x : AccountRow} (hx : x ∈ db.accounts) (hid : x.id = e.accountId) : e.size ≤ x.usedBytes := by
  set rest : Db := { db with emails := deleteWhere (fun r => r.id == e.id) db.emails }
  have hsum := sizeOf_delete hk he (show rest.emails = _ from rfl) x.id
  have hpos : 0 ≤ rest.sizeOf x.id :=
    sizeOf_nonneg (fun r hr => h.size r (mem_deleteWhere.1 hr).1) x.id
  rw [h.used x hx, hsum, if_pos hid.symm]
  omega

end Sums

/-! ## 3. Every write keeps it -/

section Events

variable {a m : Int} {dying : Option Int} {db : Db}

theorem Accounted.insertAccount (h : Accounted db) (hl : Linked db) (new : NewAccount) :
    Accounted (db.insertAccount new) := by
  refine { h with used := ?_ }
  intro x hx
  rw [sizeOf_congr (show (db.insertAccount new).emails = db.emails from rfl)]
  rcases List.mem_append.1 hx with hx | hx
  · exact h.used x hx
  · rw [List.mem_singleton.1 hx, Db.sizeOf, List.filter_eq_nil_iff.2]
    · rfl
    · intro e he hid
      obtain ⟨y, hy, hye⟩ := hl.emailAccount e he
      have := (hl.accountSeq y hy).2
      simp only [beq_iff_eq] at hid
      omega

theorem Accounted.bump (h : Accounted db) (a : Int) : Accounted (db.bumpModseq a) := by
  refine { h with used := ?_ }
  intro x' hx'
  obtain ⟨x, hx, rfl⟩ := mem_updateWhere.1 hx'
  have hused := h.used x hx
  split <;> exact hused

theorem Accounted.store {p : Incoming} {ids : List Int} (h : Accounted db) (hs : Sound a m dying db)
    (hf : p.Fits a db ids) : Accounted (db.storeEmail p ids m) := by
  rw [Db.storeEmail_eq hf.nodup hf.mailboxes hs.linked.newEmail]
  refine ⟨?_, ?_, ?_, ?_⟩
  · intro x' hx'
    obtain ⟨x, hx, rfl⟩ := mem_updateWhere.1 hx'
    rw [sizeOf_append rfl]
    have hused := h.used x hx
    by_cases hid : x.id = p.accountId
    · rw [hid] at hused
      simp [hid, Incoming.row, hused]
    · have hid' : p.accountId ≠ x.id := fun e => hid e.symm
      simp [hid, hid', Incoming.row, hused]
  · intro e he
    rcases List.mem_append.1 he with he | he
    · exact h.size e he
    · rw [List.mem_singleton.1 he]
      exact hf.size
  · intro e he
    rcases List.mem_append.1 he with he | he
    · obtain ⟨r, hr, hre⟩ := h.somewhere e he
      exact ⟨r, List.mem_append_left _ hr, hre⟩
    · rw [List.mem_singleton.1 he]
      obtain ⟨b, hb⟩ := List.exists_mem_of_ne_nil ids hf.some
      exact ⟨_, List.mem_append_right _ (List.mem_map_of_mem hb), rfl⟩
  · intro t ht
    rcases List.mem_append.1 ht with ht | ht
    · obtain ⟨e, he, het⟩ := h.thread t ht
      exact ⟨e, List.mem_append_left _ he, het⟩
    · refine ⟨_, List.mem_append_right _ (List.mem_singleton_self _), ?_⟩
      split at ht
      · rename_i hstart
        rw [List.mem_singleton.1 ht]
        simp only [Db.startsThread, Option.isNone_iff_eq_none] at hstart
        simp [Incoming.row, Db.threadIdFor, hstart]
      · simp at ht

/-- An email with other rows is where it was. -/
theorem somewhere_updateWhere {t : List EmailRow} {members : List MembershipRow}
    {p : EmailRow → Bool} {f : EmailRow → EmailRow} (hf : ∀ r, (f r).id = r.id)
    (h : ∀ e ∈ t, ∃ r ∈ members, r.emailId = e.id) :
    ∀ e ∈ updateWhere p f t, ∃ r ∈ members, r.emailId = e.id := by
  intro e' he'
  obtain ⟨e, he, rfl⟩ := mem_updateWhere.1 he'
  have := h e he
  split
  · rwa [hf]
  · exact this

/-- What `updated_modseq` says of an email does not count here. -/
theorem Accounted.stamp {db' : Db} {email : Int} (h : Accounted db)
    (hacc : db'.accounts = db.accounts) (hthr : db'.threads = db.threads)
    (hem : db'.emails =
      updateWhere (fun r => r.id == email) (fun r => { r with updatedModseq := m }) db.emails)
    (hsome : ∀ e ∈ db.emails, ∃ r ∈ db'.emailMailboxes, r.emailId = e.id) : Accounted db' := by
  refine ⟨?_, ?_, ?_, ?_⟩
  · intro x hx
    rw [hacc] at hx
    rw [sizeOf_updateWhere hem fun r => ⟨rfl, rfl⟩]
    exact h.used x hx
  · intro e' he'
    rw [hem] at he'
    obtain ⟨e, he, rfl⟩ := mem_updateWhere.1 he'
    have := h.size e he
    split <;> exact this
  · rw [hem]
    exact somewhere_updateWhere (fun _ => rfl) hsome
  · intro t ht
    rw [hthr] at ht
    obtain ⟨e, he, het⟩ := h.thread t ht
    rw [hem]
    refine ⟨_, mem_updateWhere.2 ⟨e, he, rfl⟩, ?_⟩
    split <;> exact het

theorem Accounted.update {p : UpdatePlan} (h : Accounted db) (hf : p.Fits a db) :
    Accounted (db.applyUpdate a m p) := by
  obtain ⟨gone, -, heq⟩ := Db.applyUpdate_eq a m hf.oldMailboxes hf.mailboxes
  rw [heq]
  refine h.stamp rfl rfl rfl ?_
  intro e he
  show ∃ r ∈ Db.updatedMembers db.mailboxes m p db.emailMailboxes, r.emailId = e.id
  by_cases hep : e.id = p.email
  · -- It is in at least one mailbox: one it was in and stays in, or one it comes into.
    obtain ⟨b, hb⟩ := hf.some
    rw [hep]
    by_cases hin : b ∈ p.oldMailboxes
    · have hin' := hin
      rw [hf.oldMailboxes, Db.mem_mailboxesOf] at hin'
      obtain ⟨r, hr, hre, hrb⟩ := hin'
      refine ⟨{ r with modseq := m }, List.mem_append_left _ (mem_updateWhere.2 ⟨r, ?_, by simp [hre]⟩), hre⟩
      exact mem_deleteWhere.2 ⟨hr, by simp [UpdatePlan.left, hrb, hb]⟩
    · refine ⟨_, List.mem_append_right _ (List.mem_map_of_mem (a := b) ?_), rfl⟩
      simp [UpdatePlan.entered, hb, hin]
  · obtain ⟨r, hr, hre⟩ := h.somewhere e he
    have hne : r.emailId ≠ p.email := fun h => hep (hre.symm.trans h)
    refine ⟨r, List.mem_append_left _ (mem_updateWhere.2 ⟨r, ?_, by simp [hne]⟩), hre⟩
    exact mem_deleteWhere.2 ⟨hr, by simp [hne]⟩

theorem Accounted.destroy {row : EmailRow} (h : Accounted db) (hk : Keyed db) (hrow : row ∈ db.emails)
    (hra : row.accountId = a) : Accounted (db.applyDestroy a m row) := by
  rw [Db.applyDestroy_eq]
  refine ⟨?_, fun e he => h.size e (mem_deleteWhere.1 he).1, ?_, ?_⟩
  · intro x' hx'
    obtain ⟨x, hx, rfl⟩ := mem_updateWhere.1 hx'
    let after : Db := { db with emails := deleteWhere (fun r => r.id == row.id) db.emails }
    have hsum : db.sizeOf x.id = after.sizeOf x.id + if row.accountId = x.id then row.size else 0 :=
      sizeOf_delete hk hrow rfl x.id
    have hused := h.used x hx
    by_cases hid : x.id = a
    · have hle := h.size_le hk hrow hx (hid.trans hra.symm)
      rw [if_pos (hra.trans hid.symm)] at hsum
      rw [if_pos (by simpa using hid)]
      show max 0 (x.usedBytes - row.size) = _
      rw [max_eq_right (by omega), hused, hsum]
      simp only [add_sub_cancel_right]
      rfl
    · rw [if_neg (fun e => hid (e.symm.trans hra))] at hsum
      rw [if_neg (by simpa using hid), hused, hsum, add_zero]
      rfl
  · intro e he
    obtain ⟨he, hne⟩ := mem_deleteWhere.1 he
    obtain ⟨r, hr, hre⟩ := h.somewhere e he
    exact ⟨r, mem_deleteWhere.2 ⟨hr, by rwa [hre]⟩, hre⟩
  · intro t ht
    have hin : t ∈ db.threads ∧ (db.threadSurvives row = true ∨ t.id ≠ row.threadId) := by
      simp only [Db.withThread] at ht
      split at ht
      · rename_i hsurv
        exact ⟨ht, .inl hsurv⟩
      · obtain ⟨ht, hne⟩ := mem_deleteWhere.1 ht
        exact ⟨ht, Or.inr (by simpa using hne)⟩
    obtain ⟨e, he, het⟩ := h.thread t hin.1
    by_cases hid : e.id = row.id
    · -- The one that goes is in the thread, so another one keeps it.
      rw [hk.email.eq he hrow hid] at het
      rcases hin.2 with hsurv | hne
      · obtain ⟨q, hq, hqr⟩ := List.any_eq_true.1 hsurv
        simp only [Bool.and_eq_true, bne_iff_ne, ne_eq, beq_iff_eq] at hqr
        exact ⟨q, mem_deleteWhere.2 ⟨hq, by simpa using hqr.1⟩, hqr.2.trans het⟩
      · exact absurd het.symm hne
    · exact ⟨e, mem_deleteWhere.2 ⟨he, by simpa using hid⟩, het⟩

theorem Accounted.leave {email mailbox : Int} (h : Accounted db) (hf : db.Leaves a email mailbox) :
    Accounted (db.leaveMailbox a m email mailbox) := by
  rw [Db.leaveMailbox_eq]
  refine h.stamp rfl rfl rfl ?_
  intro e he
  by_cases hid : e.id = email
  · obtain ⟨r, hr, hre, hrb⟩ := hf.elsewhere
    exact ⟨r, mem_deleteWhere.2 ⟨hr, by simp [hrb]⟩, hre.trans hid.symm⟩
  · obtain ⟨r, hr, hre⟩ := h.somewhere e he
    exact ⟨r, mem_deleteWhere.2 ⟨hr, by simp [hre, hid]⟩, hre⟩

/-- Accounts whose other columns are rewritten are charged the same. -/
theorem used_updateWhere {p : AccountRow → Bool} {f : AccountRow → AccountRow} {t : List AccountRow}
    {size : Int → Int} (hf : ∀ r, (f r).id = r.id ∧ (f r).usedBytes = r.usedBytes)
    (h : ∀ x ∈ t, x.usedBytes = size x.id) :
    ∀ x ∈ updateWhere p f t, x.usedBytes = size x.id := by
  intro x' hx'
  obtain ⟨x, hx, rfl⟩ := mem_updateWhere.1 hx'
  have := h x hx
  split
  · rw [(hf x).1, (hf x).2, this]
  · exact this

theorem Accounted.drop {b : Int} (h : Accounted db) (hd : db.Droppable a b) :
    Accounted (db.dropMailbox a m b) := by
  rw [Db.dropMailbox_eq]
  refine ⟨used_updateWhere (fun _ => ⟨rfl, rfl⟩) h.used, h.size, ?_, h.thread⟩
  intro e he
  obtain ⟨r, hr, hre⟩ := h.somewhere e he
  exact ⟨r, mem_deleteWhere.2 ⟨hr, by simpa using hd.empty r hr⟩, hre⟩

theorem Event.Fits.accounted {e : Event} (hf : e.Fits a m dying db) (hs : Sound a m dying db)
    (h : Accounted db) : Accounted (e.apply a m db) := by
  cases e with
  | store p ids => exact h.store hs hf.2
  | update plan => exact h.update hf.2
  | destroy row => exact h.destroy hs.keyed hf.1 hf.2
  | leave email mailbox => exact h.leave hf.2
  | create row =>
    rw [Event.apply, Db.applyCreate_eq hf.2.id hf.2.updated (hf.2.new hs.linked)]
    exact ⟨h.used, h.size, h.somewhere, h.thread⟩
  | alter id u =>
    rw [Event.apply, Db.mailboxUpdated_eq]
    exact ⟨h.used, h.size, h.somewhere, h.thread⟩
  | share mailbox acl =>
    rw [Event.apply, Db.applyAcl, Db.recordChange_eq]
    exact ⟨used_updateWhere (fun _ => ⟨rfl, rfl⟩) h.used, h.size, h.somewhere, h.thread⟩
  | members list shared =>
    exact ⟨used_updateWhere (fun _ => ⟨rfl, rfl⟩) (used_updateWhere (fun _ => ⟨rfl, rfl⟩) h.used),
      h.size, h.somewhere, h.thread⟩

end Events

theorem accounted_runOps {ext : Externals} (ops : List StoreOp) : Accounted (runOps ext ops {}) :=
  runOps_invariant (fun _ new hi h => h.insertAccount hi.linked new) (fun _ a h => h.bump a)
    (fun hs _ hf h => hf.accounted hs h) (fun _ hd h => h.drop hd) ops Intact.empty Accounted.empty

/-! ## 4. Quotas -/

/-- An account that took a message in is within its quota. -/
theorem used_le_quota_of_ingest {ext : Externals} {db db' : Db} {now : Int} {request : IngestRequest}
    {smtp : Bool} {r : IngestedEmail} (hi : Intact db)
    (h : ingestMarked ext now request smtp db = (.ok r, db')) {x : AccountRow} (hx : x ∈ db'.accounts)
    (hid : x.id = request.accountId) (hpos : 0 < x.quotaBytes) : x.usedBytes ≤ x.quotaBytes := by
  rcases ingestMarked_cases ext hi.keyed now request smtp with
    ⟨e, h'⟩ | ⟨r', db'', m, p, ids, h', -, -, -, heff⟩
  · rw [h] at h'
    cases h'
  · rw [h] at h'
    cases h'
    obtain ⟨hs, -⟩ := hi.start heff.modseq none
    obtain ⟨rfl, -, hf⟩ := heff.single_inv
    rw [Event.apply, Db.storeEmail_eq hf.nodup hf.mailboxes hs.linked.newEmail] at hx
    obtain ⟨y, hy, rfl⟩ := mem_updateWhere.1 hx
    -- The check inside the transaction is made on the row that is written.
    rw [hf.account] at hid hpos ⊢
    by_cases hya : y.id = request.accountId
    · simp only [hya, beq_self_eq_true, if_true] at hpos ⊢
      exact hf.quota y hy hya hpos
    · rw [if_neg (by simpa using hya)] at hid
      exact absurd hid hya

/-- **What an account is charged for is what it holds.**  In every reachable database `used_bytes`
is the sum of the sizes of the account's emails, so taking one away never clamps; every email is in
a mailbox, and in mailboxes of its own account only; every thread has an email; and an account with
a quota that took a message in is within it. -/
theorem used_bytes_eq_sum_of_sizes (ext : Externals) (ops : List StoreOp) :
    let db := runOps ext ops {}
    (∀ x ∈ db.accounts, x.usedBytes = db.sizeOf x.id) ∧
      (∀ e ∈ db.emails, ∀ x ∈ db.accounts, x.id = e.accountId →
        max 0 (x.usedBytes - e.size) = x.usedBytes - e.size) ∧
      (∀ e ∈ db.emails, (∃ r ∈ db.emailMailboxes, r.emailId = e.id) ∧
        ∀ r ∈ db.emailMailboxes, r.emailId = e.id → db.Has e.accountId r.mailboxId) ∧
      (∀ t ∈ db.threads, ∃ e ∈ db.emails, e.threadId = t.id) ∧
      ∀ now request smtp r db', ingestMarked ext now request smtp db = (.ok r, db') →
        ∀ x ∈ db'.accounts, x.id = request.accountId → 0 < x.quotaBytes →
          x.usedBytes ≤ x.quotaBytes := by
  intro db
  have hi : Intact db := intact_runOps ops
  have h : Accounted db := accounted_runOps ops
  refine ⟨h.used, ?_, ?_, h.thread, ?_⟩
  · intro e he x hx hid
    have := h.size_le hi.keyed he hx hid
    exact max_eq_right (by omega)
  · intro e he
    refine ⟨h.somewhere e he, ?_⟩
    intro r hr hre
    obtain ⟨q, hq, hqr, hhas⟩ := hi.linked.member r hr
    rwa [hi.keyed.email.eq hq he (hqr.trans hre)] at hhas
  · intro now request smtp r db' hok x hx hid hpos
    exact used_le_quota_of_ingest hi hok hx hid hpos

end UwuMail.Store
