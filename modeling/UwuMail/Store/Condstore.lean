/-
# STORE with UNCHANGEDSINCE

`imap_store_flags` leaves alone what changed after the modseq a client saw, and answers with it.
The check reads the modseq of the message in ONE mailbox; the flags it guards belong to the email,
and any mailbox may be the one they are changed in.

**No update is written over by one that had not seen it** (`condstore`).  Every change to the
keywords of an email stamps its membership in each mailbox with a modseq later than any the account
had before (`Fresh`), so a client that saw the mailbox before that change asks with a modseq that is
too old.
-/
import UwuMail.Store.Updates
import UwuMail.Store.Qresync

namespace UwuMail.Store

open Table

/-! ## 1. The loop -/

/-- The message changed after the modseq. -/
def Skips (unchangedSince : Option Nat) (entry : U32 × Int × Nat) : Prop :=
  (unchangedSince.any fun since => decide (entry.2.2 > since)) = true

instance (unchangedSince : Option Nat) (entry : U32 × Int × Nat) : Decidable (Skips unchangedSince entry) :=
  inferInstanceAs (Decidable (_ = true))

/-- Keywords, memberships and the row of an email are as they were. -/
structure Untouched (db db' : Db) (email : Int) : Prop where
  keywords : db'.keywordsOf email = db.keywordsOf email
  member : ∀ r, r.emailId = email → (r ∈ db'.emailMailboxes ↔ r ∈ db.emailMailboxes)
  row : ∀ r, r.id = email → (r ∈ db'.emails ↔ r ∈ db.emails)

theorem Untouched.refl (db : Db) (email : Int) : Untouched db db email :=
  ⟨rfl, fun _ _ => Iff.rfl, fun _ _ => Iff.rfl⟩

theorem Untouched.trans {db db' db'' : Db} {email : Int} (h : Untouched db db' email)
    (h' : Untouched db' db'' email) : Untouched db db'' email :=
  ⟨h'.keywords.trans h.keywords, fun r hr => (h'.member r hr).trans (h.member r hr),
    fun r hr => (h'.row r hr).trans (h.row r hr)⟩

variable {ext : Externals} {db db' : Db} {p : UpdatePlan} {a m n : Int}

theorem Updated.untouched (h : Updated db p m db') {e : Int} (hne : e ≠ p.email) : Untouched db db' e := by
  refine ⟨?_, fun r hr => ?_, fun r hr => ?_⟩
  · rw [h.keywords, if_neg hne]
  · rw [h.member]
    constructor
    · rintro (⟨q, hq, -, rfl⟩ | ⟨b, -, rfl⟩)
      · by_cases hqe : q.emailId = p.email
        · rw [if_pos hqe] at hr
          exact absurd (hr.symm.trans hqe) hne
        · rwa [if_neg hqe]
      · exact absurd hr.symm hne
    · intro hmem
      have hre : r.emailId ≠ p.email := fun h => hne (hr.symm.trans h)
      exact .inl ⟨r, hmem, fun h => hre h.1, by rw [if_neg hre]⟩
  · rw [h.emails, mem_updateWhere]
    constructor
    · rintro ⟨q, hq, rfl⟩
      by_cases hqe : q.id = p.email
      · rw [if_pos (by simpa using hqe)] at hr
        exact absurd (hr.symm.trans hqe) hne
      · rwa [if_neg (by simpa using hqe)]
    · intro hmem
      have hre : r.id ≠ p.email := fun h => hne (hr.symm.trans h)
      exact ⟨r, hmem, by rw [if_neg (by simpa using hre)]⟩

/-- The keywords an update asks for, and the other emails. -/
theorem updateOne_keywords {u : EmailUpdate} {tx tx' : TxState} {x : PUnit}
    (h : (updateOne ext u).exec tx = (.ok x, tx')) : tx'.batch.accountId = tx.batch.accountId ∧
      tx'.db.keywordsOf u.id = u.keywords.apply ext (tx.db.keywordsOf u.id) ∧
      ∀ e, e ≠ u.id → Untouched tx.db tx'.db e := by
  obtain ⟨p, hfit, hid, hkeywords, -, hbatch, ⟨hnoop, hdb⟩ | ⟨m, hupd⟩⟩ := updateOne_done h
  · rw [hdb]
    refine ⟨hbatch, ?_, fun e _ => .refl _ _⟩
    rw [UpdatePlan.isNoop, decide_eq_true_eq] at hnoop
    rw [← hkeywords, hnoop.1, hfit.oldKeywords, hid]
  · refine ⟨hbatch, ?_, fun e hne => hupd.untouched (hid.symm ▸ hne)⟩
    rw [hupd.keywords, if_pos hid.symm, hkeywords]

/-- What the loop made of the messages that are through. -/
structure Stored (ext : Externals) (change : FlagChange) (unchangedSince : Option Nat) (db : Db)
    (done : List (U32 × Int × Nat)) (db' : Db) : Prop where
  changed : ∀ entry ∈ done, ¬ Skips unchangedSince entry →
    db'.keywordsOf entry.2.1 = change.keywords.apply ext (db.keywordsOf entry.2.1)
  others : ∀ e, (∀ entry ∈ done, entry.2.1 = e → Skips unchangedSince entry) → Untouched db db' e

variable {change : FlagChange} {unchangedSince : Option Nat} {done : List (U32 × Int × Nat)}
  {entry : U32 × Int × Nat}

theorem Stored.skip (h : Stored ext change unchangedSince db done db') (hskip : Skips unchangedSince entry) :
    Stored ext change unchangedSince db (done ++ [entry]) db' where
  changed := by
    intro entry' hmem hno
    rcases List.mem_append.1 hmem with hmem | hmem
    · exact h.changed entry' hmem hno
    · rw [List.mem_singleton.1 hmem] at hno
      exact absurd hskip hno
  others := fun e hall => h.others e fun entry' hmem => hall entry' (List.mem_append_left _ hmem)

theorem Stored.update {tx tx' : TxState} {x : PUnit} (h : Stored ext change unchangedSince db done tx.db)
    (hnew : entry.2.1 ∉ done.map (·.2.1)) (hno : ¬ Skips unchangedSince entry)
    (hexec : (updateOne ext { id := entry.2.1, keywords := change.keywords }).exec tx = (.ok x, tx')) :
    Stored ext change unchangedSince db (done ++ [entry]) tx'.db := by
  obtain ⟨-, hkeywords, hothers⟩ := updateOne_keywords hexec
  refine ⟨fun entry' hmem hno' => ?_, fun e hall => ?_⟩
  · rcases List.mem_append.1 hmem with hmem | hmem
    · have hne : entry'.2.1 ≠ entry.2.1 := fun heq => hnew (heq ▸ List.mem_map_of_mem hmem)
      rw [(hothers _ hne).keywords]
      exact h.changed entry' hmem hno'
    · rw [List.mem_singleton.1 hmem]
      -- its turn is the first that is about this email
      have hfirst := h.others entry.2.1 fun entry' hmem heq => absurd (heq ▸ List.mem_map_of_mem hmem) hnew
      rw [hkeywords, hfirst.keywords]
  · have hne : e ≠ entry.2.1 := by
      rintro rfl
      exact hno (hall entry (by simp) rfl)
    exact (h.others e fun entry' hmem => hall entry' (List.mem_append_left _ hmem)).trans (hothers e hne)

theorem storeFlags_skip (h : Skips unchangedSince entry) :
    storeFlags ext change unchangedSince entry = pure (some entry.1) := if_pos h

theorem storeFlags_update (h : ¬ Skips unchangedSince entry) :
    storeFlags ext change unchangedSince entry = (do
      updateOne ext { id := entry.2.1, keywords := change.keywords }
      pure none) := if_neg h

theorem imapStoreFlags_spec (hi : Intact db) (hu : Uids db) {mailbox : Int} {uids skipped : List U32}
    (h : imapStoreFlags ext a mailbox uids change unchangedSince db = (.ok skipped, db')) :
    Stored ext change unchangedSince db (emailsByUid db mailbox uids) db' ∧
      ∀ u, u ∈ skipped ↔ ∃ entry ∈ emailsByUid db mailbox uids, entry.1 = u ∧ Skips unchangedSince entry := by
  unfold imapStoreFlags at h
  rcases write_cases a _ db with ⟨e, h'⟩ | ⟨v, tx, hx, h'⟩
  · rw [h'] at h
    cases h
  rw [h'] at h
  cases h
  obtain ⟨tx₀, s₀, hget, hx⟩ := Tx.exec_bind_ok hx
  cases hget
  obtain ⟨own, hown, hx⟩ := exec_ofExcept_ok hx
  obtain ⟨answers, s₂, hloop, hx⟩ := Tx.exec_bind_ok hx
  cases hx
  have hends := Tx.Ends.mapM (E := fun _ => True) (f := storeFlags ext change unchangedSince)
    (P := fun done answers (tx : TxState) => ((done.map (·.2.1)).Nodup →
      Stored ext change unchangedSince db done tx.db) ∧
      answers = done.map fun entry => if Skips unchangedSince entry then some entry.1 else none)
    (fun done answers entry tx hdone => ?_) (emailsByUid db mailbox uids) [] []
    (s := { db, batch := { accountId := a } }) ⟨fun _ => ⟨by simp, fun e _ => .refl _ _⟩, rfl⟩
  · obtain ⟨hstored, rfl⟩ := hends.ok hloop
    refine ⟨hstored (nodup_emailsByUid hi.keyed hu), fun u => ?_⟩
    simp only [List.nil_append, List.mem_filterMap, List.mem_map, id_eq, exists_eq_right]
    constructor
    · rintro ⟨entry, hentry, heq⟩
      split at heq
      · rename_i hskip
        exact ⟨entry, hentry, Option.some.inj heq, hskip⟩
      · cases heq
    · rintro ⟨entry, hentry, rfl, hskip⟩
      exact ⟨entry, hentry, if_pos hskip⟩
  · obtain ⟨hstored, rfl⟩ := hdone
    by_cases hskip : Skips unchangedSince entry
    · rw [storeFlags_skip hskip]
      refine .pure ⟨fun hnodup => (hstored ?_).skip hskip, by simp [hskip]⟩
      rw [List.map_append] at hnodup
      exact hnodup.of_append_left
    · rw [storeFlags_update hskip]
      unfold Tx.Ends
      split
      · rename_i b tx' hexec
        obtain ⟨x, tx₁, hupd, hrest⟩ := Tx.exec_bind_ok hexec
        cases hrest
        refine ⟨fun hnodup => ?_, by simp [hskip]⟩
        rw [List.map_append, List.map_singleton, List.nodup_append] at hnodup
        obtain ⟨hdone, -, hnew⟩ := hnodup
        exact (hstored hdone).update (fun hmem => hnew _ hmem _ (List.mem_singleton_self _) rfl) hskip hupd
      · trivial

/-! ## 2. What is newer than a moment -/

/-- The account stood at `n` or below at the moment `s`, and is `db` now: a membership in its
mailboxes is as it was, keywords included, or is stamped later than `n`. -/
structure Fresh (s : Db) (a n : Int) (db : Db) : Prop where
  account : ∃ x ∈ db.accounts, x.id = a
  clock : ∀ x ∈ db.accounts, x.id = a → n ≤ x.modseq
  member : ∀ r ∈ db.emailMailboxes, db.Has a r.mailboxId →
    (r ∈ s.emailMailboxes ∧ db.keywordsOf r.emailId = s.keywordsOf r.emailId) ∨ n < r.modseq

theorem Fresh.start {s : Db} (haccount : ∃ x ∈ s.accounts, x.id = a) (hclock : ∀ x ∈ s.accounts,
    x.id = a → n ≤ x.modseq) :
    Fresh s a n s := ⟨haccount, hclock, fun _ hr _ => .inl ⟨hr, rfl⟩⟩

variable {s : Db} {b : Int} {dying : Option Int}

theorem Fresh.bump (h : Fresh s a n db) : Fresh s a n (db.bumpModseq b) := by
  refine ⟨?_, ?_, h.member⟩
  · obtain ⟨x, hx, hid⟩ := h.account
    refine ⟨_, mem_updateWhere.2 ⟨x, hx, rfl⟩, ?_⟩
    split <;> exact hid
  · intro x' hx' hid
    obtain ⟨x, hx, rfl⟩ := mem_updateWhere.1 hx'
    split
    · rename_i hb
      rw [if_pos hb] at hid
      have := h.clock x hx hid
      dsimp only
      omega
    · rename_i hb
      rw [if_neg hb] at hid
      exact h.clock x hx hid

/-- A mailbox of an account that is there after an event, and holds a message that was there
before. -/
theorem Event.Fits.has_back {e : Event} (hf : e.Fits b m dying db) (hs : Sound b m dying db) {c : Int}
    (hthere : ∃ x, db.Has x c) (hhas : (e.apply b m db).Has a c) : db.Has a c := by
  obtain ⟨q', hq', rfl, rfl⟩ := hhas
  rcases (hf.tick hs).mailbox q' hq' with ⟨q, hq, hmoved⟩ | ⟨-, -, hnew⟩
  · exact ⟨q, hq, hmoved.id.symm, hmoved.accountId.symm⟩
  · obtain ⟨x, q, hq, hid, -⟩ := hthere
    have := (hs.linked.mailboxSeq q hq).2
    omega

theorem Keyed.has_eq (hk : Keyed db) {x y c : Int} (hx : db.Has x c) (hy : db.Has y c) : x = y := by
  obtain ⟨q, hq, hid, rfl⟩ := hx
  obtain ⟨q', hq', hid', rfl⟩ := hy
  rw [hk.mailbox.eq hq hq' (hid.trans hid'.symm)]

theorem Fresh.event {e : Event} (h : Fresh s a n db) (hs : Sound b m dying db) (hf : e.Fits b m dying db)
    (hm : b = a → n < m) : Fresh s a n (e.apply b m db) := by
  have htick := hf.tick hs
  refine ⟨?_, ?_, ?_⟩
  · obtain ⟨x, hx, hid⟩ := h.account
    have hmem : x.id ∈ (e.apply b m db).accounts.map AccountRow.id := by
      rw [htick.ids]
      exact List.mem_map_of_mem hx
    obtain ⟨x', hx', hid'⟩ := List.mem_map.1 hmem
    exact ⟨x', hx', hid'.trans hid⟩
  · intro x' hx' hid
    obtain ⟨x, hx, hxid, hmodseq⟩ := htick.account x' hx'
    rw [hmodseq]
    exact h.clock x hx (hxid.symm.trans hid)
  · intro r hr hhas
    rcases (hf.slotStep hs).member r hr with ⟨hold, hkeywords⟩ | ⟨hmodseq, hown⟩
    · obtain ⟨row, -, -, hthere⟩ := hs.linked.member r hold
      rw [hkeywords]
      exact h.member r hold (hf.has_back hs ⟨_, hthere⟩ hhas)
    · -- it was stamped by this transaction, which is one of the account's
      rw [hmodseq]
      exact .inr (hm (hs.keyed.has_eq hown (hf.has_back hs ⟨_, hown⟩ hhas)))

theorem Fresh.drop {c : Int} (h : Fresh s a n db) : Fresh s a n (db.dropMailbox b m c) := by
  rw [Db.dropMailbox_eq]
  refine ⟨?_, ?_, ?_⟩
  · obtain ⟨x, hx, hid⟩ := h.account
    refine ⟨_, mem_updateWhere.2 ⟨x, hx, rfl⟩, ?_⟩
    split <;> exact hid
  · intro x' hx' hid
    obtain ⟨x, hx, rfl⟩ := mem_updateWhere.1 hx'
    split at hid <;> split
    all_goals exact h.clock x hx hid
  · rintro r hr ⟨q, hq, hid, hqa⟩
    exact h.member r (mem_deleteWhere.1 hr).1 ⟨q, (mem_deleteWhere.1 hq).1, hid, hqa⟩

theorem fresh_runOps (hi : Intact s) (haccount : ∃ x ∈ s.accounts, x.id = a)
    (hclock : ∀ x ∈ s.accounts, x.id = a → n ≤ x.modseq) (ops : List StoreOp) :
        Fresh s a n (runOps ext ops s) := by
  refine runOps_induct (P := Fresh s a n) ?_ ?_ ops hi (.start haccount hclock)
  · rintro db new hi h
    obtain ⟨x, hx, hid⟩ := h.account
    refine ⟨⟨x, List.mem_append_left _ hx, hid⟩, fun y hy hya => ?_, h.member⟩
    rcases List.mem_append.1 hy with hy | hy
    · exact h.clock y hy hya
    · rw [List.mem_singleton.1 hy] at hya
      have := (hi.linked.accountSeq x hx).2
      dsimp only at hya
      omega
  · rintro b m db db' es dying hi h heff
    have hlt : b = a → n < m := by
      rintro rfl
      obtain ⟨⟨x, hx, hid⟩, hall⟩ := hi.keyed.modseq_eq heff.modseq
      have := h.clock x hx hid
      have := hall x hx hid
      omega
    exact heff.keeps hi (fun db c h => h.bump) (fun hs _ _ hf h => h.event hs hf hlt) (fun _ _ _ h => h.drop) h

/-! ## 3. Two clients -/

/-- The membership changed after the modseq that a client saw. -/
def Newer (unchangedSince : Option Nat) (r : MembershipRow) : Prop :=
  ∃ since, unchangedSince = some since ∧ since < r.modseq.toNat

theorem skips_iff {r : MembershipRow} (h : r.modseq.toNat = entry.2.2) :
    Skips unchangedSince entry ↔ Newer unchangedSince r := by
  cases unchangedSince with
  | none => simp [Skips, Newer]
  | some since => simp [Skips, Newer, h]

/-- **STORE with UNCHANGEDSINCE.**  The UIDs it answers with are those of the mailbox that changed
after the given modseq, and it leaves their emails alone; every other message that it names has the
keywords it asked for.  And if anybody changed the keywords of a message after the client saw the
mailbox, at `told` or later than the modseq it gives, the message is not touched. -/
theorem condstore (ext : Externals) (ops : List StoreOp) (account mailbox : Int) (uids : List U32)
    (change : FlagChange) (unchangedSince : Option Nat) (skipped : List U32) (db' : Db)
    (h : imapStoreFlags ext account mailbox uids change unchangedSince (runOps ext ops {}) =
      (.ok skipped, db')) :
    let db := runOps ext ops {}
    (∀ u, u ∈ skipped ↔ u ∈ uids ∧ ∃ r ∈ db.emailMailboxes, r.mailboxId = mailbox ∧ r.uid = u.val ∧
        Newer unchangedSince r) ∧
      (∀ r ∈ db.emailMailboxes, r.mailboxId = mailbox → ∀ u ∈ uids, r.uid = u.val →
        (u ∈ skipped → Untouched db db' r.emailId) ∧
          (u ∉ skipped → db'.keywordsOf r.emailId = change.keywords.apply ext (db.keywordsOf r.emailId))) ∧
      ∀ seen before op after told since, ops = seen ++ before ++ op :: after →
        mailboxModseq (runOps ext seen {}) mailbox = .ok told → unchangedSince = some since → since ≤ told →
        ∀ r ∈ db.emailMailboxes, r.mailboxId = mailbox → ∀ u ∈ uids, r.uid = u.val →
          (runOps ext (seen ++ before ++ [op]) {}).keywordsOf r.emailId ≠
            (runOps ext (seen ++ before) {}).keywordsOf r.emailId →
          u ∈ skipped := by
  intro db
  have hi : Intact db := intact_runOps ops
  have hu : Uids db := uids_reachable ops
  obtain ⟨hstored, hskipped⟩ := imapStoreFlags_spec hi hu h
  have hskips : ∀ u, u ∈ skipped ↔ u ∈ uids ∧ ∃ r ∈ db.emailMailboxes, r.mailboxId = mailbox ∧ r.uid = u.val ∧
      Newer unchangedSince r := by
    intro u
    rw [hskipped]
    constructor
    · rintro ⟨entry, hentry, rfl, hskip⟩
      obtain ⟨huid, r, hr, hrb, hru, -, hmodseq⟩ := (mem_emailsByUid_iff hi.keyed hu).1 hentry
      exact ⟨huid, r, hr, hrb, hru, (skips_iff hmodseq).1 hskip⟩
    · rintro ⟨huid, r, hr, hrb, hru, hnewer⟩
      exact ⟨(u, r.emailId, r.modseq.toNat), (mem_emailsByUid_iff hi.keyed hu).2 ⟨huid, r, hr, hrb,
        hru, rfl, rfl⟩, rfl,
        (skips_iff rfl).2 hnewer⟩
  refine ⟨hskips, fun r hr hrb u huid hru => ?_, ?_⟩
  · have hentry : (u, r.emailId, r.modseq.toNat) ∈ emailsByUid db mailbox uids :=
      (mem_emailsByUid_iff hi.keyed hu).2 ⟨huid, r, hr, hrb, hru, rfl, rfl⟩
    have hmine : u ∈ skipped ↔ Skips unchangedSince (u, r.emailId, r.modseq.toNat) := by
      rw [hskips]
      constructor
      · rintro ⟨-, r', hr', hrb', hru', hnewer⟩
        obtain rfl := hu.member_eq hi.keyed hr' hr (hrb'.trans hrb.symm) (hru'.trans hru.symm)
        exact (skips_iff rfl).2 hnewer
      · exact fun hskip => ⟨huid, r, hr, hrb, hru, (skips_iff rfl).1 hskip⟩
    refine ⟨fun hskip => hstored.others _ fun entry hentry' hsame => ?_, fun hno => ?_⟩
    · rw [List.inj_on_of_nodup_map (nodup_emailsByUid hi.keyed hu) hentry' hentry hsame]
      exact hmine.1 hskip
    · exact hstored.changed _ hentry fun hskip => hno (hmine.2 hskip)
  · rintro seen before op after told since rfl htold rfl hle r hr hrb u huid hru hne
    rw [hskips]
    refine ⟨huid, r, hr, hrb, hru, since, rfl, ?_⟩
    have hseen : Intact (runOps ext seen {}) := intact_runOps seen
    obtain ⟨q, hq, hqid, hqm⟩ := mailboxModseq_ok hseen htold
    obtain ⟨x, hx, hxq⟩ := hseen.linked.mailboxAccount q hq
    have hclock : ∀ x ∈ (runOps ext seen {}).accounts, x.id = q.accountId → (told : Int) ≤ x.modseq :=
      fun x hx hid => hqm ▸ hseen.clocked.updated q hq x hx hid
    have hsplit : ∀ l l', seen ++ before ++ op :: after = seen ++ l ++ l' →
        Fresh (runOps ext (seen ++ l) {}) q.accountId told db := by
      intro l l' heq
      have hthen : Fresh (runOps ext seen {}) q.accountId told (runOps ext l (runOps ext seen {})) :=
        fresh_runOps hseen ⟨x, hx, hxq⟩ hclock l
      have : db = runOps ext l' (runOps ext (seen ++ l) {}) := by
        rw [← runOps_append, ← heq]
      rw [this]
      rw [← runOps_append] at hthen
      exact fresh_runOps (intact_runOps _) hthen.account hthen.clock l'
    -- the mailbox belongs to the account it belonged to when it was seen
    have hhas : db.Has q.accountId r.mailboxId := by
      obtain ⟨-, hfollows⟩ := (follows_runOps hseen (uids_reachable seen) hq (before ++ op :: after) :
        Uids _ ∧ Follows _ q (runOps ext (before ++ op :: after) (runOps ext seen {})))
      rw [← runOps_append, ← List.append_assoc] at hfollows
      obtain ⟨row, -, -, q', hq', hid', -⟩ := hi.linked.member r hr
      exact ⟨q', hq', hid', (hfollows.mailbox q' hq' (hid'.trans (hrb.trans hqid.symm))).1⟩
    have hbefore := (hsplit before (op :: after) rfl).member r hr hhas
    have hafter := (hsplit (before ++ [op]) after (by simp)).member r hr hhas
    rw [← List.append_assoc] at hafter
    rcases hbefore with ⟨-, hbefore⟩ | hlt
    · rcases hafter with ⟨-, hafter⟩ | hlt
      · exact absurd (hafter.symm.trans hbefore) hne
      · omega
    · omega

/-- Two messages were seen at modseq 3, and then the first one was read. -/
def readOps : List StoreOp := resyncOps.1 ++ [.imapStoreFlags 1 1 [asU32 1] (.add ["$seen"]) none]

/-- Only the second one is flagged. -/
theorem condstore_second :
    (imapStoreFlags plainExternals 1 1 [1, 2] (.add ["$flagged"]) (some 3)
      (runOps plainExternals readOps {})).2.keywordsOf
        2 = KeywordsChange.apply plainExternals ((runOps plainExternals readOps {}).keywordsOf 2)
          (FlagChange.add ["$flagged"]).keywords := by
  have h : imapStoreFlags plainExternals 1 1 [1, 2] (.add ["$flagged"]) (some 3)
    (runOps plainExternals readOps {}) =
      (.ok [1], (imapStoreFlags plainExternals 1 1 [1, 2] (.add ["$flagged"]) (some 3)
        (runOps plainExternals readOps {})).2) := Prod.ext (by decide +kernel) rfl
  exact ((condstore plainExternals readOps 1 1 [1, 2] (.add ["$flagged"]) (some 3) [1] _ h).2.1
    { emailId := 2, mailboxId := 1, uid := 2, modseq := 3 }
      (by decide +kernel) rfl 2 (by decide) rfl).2 (by decide)

end UwuMail.Store
