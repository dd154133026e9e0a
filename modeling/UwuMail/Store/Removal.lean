/-
# Taking messages out of a mailbox

`imap_take_out` updates the emails that are in other mailboxes too and destroys the rest, all of
them in one transaction.  A message that was copied to somebody else leaves its mailbox this way,
AFTER the copy is there, so it matters that nothing can be refused by then.

`update_one` checks the keywords of an email again even when only its mailboxes change.  What is
stored was checked on every way in (`Lawful`), so this refuses nothing either, and `imap_take_out`
answers with an error only where the mailbox is not one of the account (`imapTakeOut_ok`).
-/
import UwuMail.Store.Copies
import UwuMail.Store.Log

namespace UwuMail.Store

open Table

/-! ## 1. The keywords of the store -/

/-- Every keyword of an email is one that may be stored. -/
def Lawful (db : Db) : Prop := ∀ r ∈ db.emailKeywords, validKeyword r.keyword = true

variable {ext : Externals} {db db' : Db} {a m e b : Int} {dying : Option Int} {es : List Event}

theorem Lawful.of_email (h : Lawful db) : ∀ k ∈ db.keywordsOf e, validKeyword k = true :=
  fun _ hk => h _ (Db.mem_keywordsOf.1 hk)

theorem Lawful.empty : Lawful {} := by
  intro r hr
  simp at hr

/-- A message that may come in has valid keywords. -/
theorem ingestPrepare_keywords {request : IngestRequest} {smtp : Bool} {now : Int} {p : Incoming}
    (h : ingestPrepare ext now request smtp db = .ok p) : ∀ k ∈ p.keywords, validKeyword k = true := by
  intro k hk
  unfold ingestPrepare at h
  dsimp only at h
  split at h
  · cases h
  · rename_i hbad
    have hnone := List.find?_eq_none.1 (Option.eq_none_iff_forall_ne_some.2 fun x => hbad x)
    have hkeywords : p.keywords = (request.keywords.map ext.toLowercase).eraseDups.take maxKeywordsPerEmail := by
      split at h
      · split at h
        · split at h
          · cases h
          · cases h
            rfl
        · cases h
      · cases h
    rw [hkeywords] at hk
    have := hnone k (List.mem_eraseDups.1 (List.mem_of_mem_take hk))
    simpa using this

theorem Event.Fits.lawful {ev : Event} (hf : ev.Fits a m dying db) (hs : Sound a m dying db)
    (hstore : ∀ p ids, ev = .store p ids → ∀ k ∈ p.keywords, validKeyword k = true) (h : Lawful db) :
    Lawful (ev.apply a m db) := by
  intro r hr
  cases ev with
  | store p ids =>
    rw [Event.apply, Db.storeEmail_eq hf.2.nodup hf.2.mailboxes hs.linked.newEmail] at hr
    rcases mem_insertAll_id.1 hr with hr | hr
    · exact h r hr
    · obtain ⟨k, hk, rfl⟩ := List.mem_map.1 hr
      exact hstore p ids rfl k hk
  | update plan =>
    have hmem : r.keyword ∈ (db.applyUpdate a m plan).keywordsOf r.emailId := Db.mem_keywordsOf.2 hr
    rw [hf.2.updated.keywords] at hmem
    split at hmem
    · exact hf.2.valid _ hmem
    · exact h.of_email _ hmem
  | destroy row =>
    rw [Event.apply, Db.applyDestroy_eq] at hr
    exact h r (mem_deleteWhere.1 hr).1
  | leave email mailbox =>
    rw [Event.apply, Db.leaveMailbox_eq] at hr
    exact h r hr
  | create row =>
    rw [Event.apply, Db.applyCreate_eq hf.2.id hf.2.updated (hf.2.new hs.linked)] at hr
    exact h r hr
  | alter id u =>
    rw [Event.apply, Db.mailboxUpdated_eq] at hr
    exact h r hr
  | share mailbox acl =>
    rw [Event.apply, Db.applyAcl, Db.recordChange_eq] at hr
    exact h r hr
  | members list shared => exact h r hr

theorem Effect.lawful (heff : Effect a db db' m es dying) (hi : Intact db)
    (hstore : ∀ p ids, Event.store p ids ∈ es → ∀ k ∈ p.keywords, validKeyword k = true) (h : Lawful db) :
    Lawful db' := by
  refine heff.keeps hi (fun _ _ h => h) (fun hs _ hmem hf h => ?_) (fun _ _ _ h => ?_) h
  · exact hf.lawful hs (fun p ids heq => hstore p ids (heq ▸ hmem)) h
  · rw [Db.dropMailbox_eq]
    exact h

theorem Outcome.lawful {op : StoreOp} (hout : Outcome ext op db db') (hi : Intact db) (h : Lawful db) :
    Lawful db' := by
  cases hout with
  | same => exact h
  | account => exact h
  | provision hop hyes heff =>
    refine heff.lawful (hi.insertAccount _) (fun p ids hmem => ?_) h
    obtain ⟨_, _, hx⟩ := List.mem_map.1 hmem
    cases hx
  | effect heff hgives =>
    refine heff.lawful hi (fun p ids hmem => ?_) h
    obtain ⟨request, smtp, now, hprep⟩ := hgives.source hmem
    exact ingestPrepare_keywords hprep

theorem lawful_runOps (ops : List StoreOp) (hi : Intact db) (h : Lawful db) : Lawful (runOps ext ops db) := by
  induction ops generalizing db with
  | nil => exact h
  | cons op ops ih =>
    have hout := op.outcome hi ext
    exact ih (hout.intact hi) (hout.lawful hi h)

/-- What an operation that drops no mailbox leaves. -/
theorem Effect.has {a m : Int} {es : List Event} (heff : Effect a db db' m es none) (hi : Intact db) {o b : Int}
    (h : db.Has o b) : db'.Has o b := by
  refine heff.keeps hi (P := fun db => db.Has o b) (fun _ _ h => h) (fun hs _ _ hf h => ?_)
    (fun hd => by cases hd) h
  obtain ⟨r, hr, hrb, hro⟩ := h
  obtain ⟨r', hr', hrb', hro', -⟩ := hf.mailbox_le hs hr
  exact ⟨r', hr', hrb'.trans hrb, hro'.trans hro⟩

theorem Outcome.has {op : StoreOp} (hout : Outcome ext op db db') (hi : Intact db)
    (hop : ∀ m es dying, op.Gives ext db m es dying → dying = none) {o b : Int} (h : db.Has o b) :
        db'.Has o b := by
  cases hout with
  | same => exact h
  | account => exact h
  | provision hop hyes heff => exact heff.has (hi.insertAccount _) h
  | effect heff hgives =>
    obtain rfl := hop _ _ _ hgives
    exact heff.has hi h

/-! ## 2. One turn -/

/-- The batch has a modseq, or its account can give it one. -/
def Counted (tx : TxState) : Prop :=
  tx.batch.modseq = none → ∃ n, tx.db.modseqOf tx.batch.accountId = some n

theorem batchModseq_ok {tx : TxState} (h : Counted tx) : ∃ m tx', batchModseq.exec tx = (.ok m, tx') ∧
    tx'.batch.accountId = tx.batch.accountId ∧ tx'.batch.modseq = some m ∧
      (tx'.db = tx.db ∨ tx'.db = tx.db.bumpModseq tx.batch.accountId) := by
  rw [batchModseq, Tx.exec_bind, Tx.exec_get]
  dsimp only
  cases hb : tx.batch.modseq with
  | some m => exact ⟨m, tx, rfl, rfl, hb, .inl rfl⟩
  | none =>
    obtain ⟨n, hn⟩ := h hb
    refine ⟨n + 1, ⟨tx.db.bumpModseq tx.batch.accountId, { tx.batch with modseq := some (n + 1) }⟩,
      ?_, rfl, rfl,
      .inr rfl⟩
    dsimp only
    rw [nextModseq, Tx.exec_bind, Tx.exec_bind, Tx.exec_get]
    simp only [hn]
    rfl

/-- An email that is elsewhere too may leave. -/
theorem planUpdate_leave (hown : ∃ r ∈ db.emails, r.id = e ∧ r.accountId = a)
    (hvalid : ∀ k ∈ db.keywordsOf e, validKeyword k = true) (hmore : ∃ b', b' ∈ db.mailboxesOf e ∧ b' ≠ b) :
    ∃ p, planUpdate ext db a { id := e, mailboxes := .patch [(b, false)] } = .ok p := by
  obtain ⟨r, hr, hre, hra⟩ := hown
  obtain ⟨b', hb', hne⟩ := hmore
  have hleave : MailboxesChange.apply (db.mailboxesOf e) (.patch [(b, false)]) =
    (db.mailboxesOf e).remove b := rfl
  unfold planUpdate
  dsimp only
  rw [if_pos (List.any_eq_true.2 ⟨r, hr, by simp [hre, hra]⟩)]
  have hbad : (db.keywordsOf e).elems.find? (fun k => !validKeyword k) = none :=
    List.find?_eq_none.2 fun k hk => by simp [hvalid k hk]
  have hsome : ¬ ((db.mailboxesOf e).remove b).isEmpty = true := fun hempty =>
    SortedSet.isEmpty_iff.1 hempty b' (SortedSet.mem_remove.2 ⟨hb', hne⟩)
  have hnone : (((db.mailboxesOf e).remove b).difference (db.mailboxesOf e)).elems.find?
      (fun b => !mailboxBelongs db a b) = none := by
    refine List.find?_eq_none.2 fun x hx => ?_
    rw [SortedSet.mem_elems, SortedSet.mem_difference, SortedSet.mem_remove] at hx
    exact absurd hx.1.1 hx.2
  rw [hleave]
  simp only [hbad, KeywordsChange.apply, lt_irrefl, and_false, if_false, hsome, hnone, gt_iff_lt]
  exact ⟨_, rfl⟩

/-- What may be updated is. -/
theorem updateOne_ok {u : EmailUpdate} {p : UpdatePlan} {tx : TxState}
    (hplan : planUpdate ext tx.db tx.batch.accountId u = .ok p) (hcount : Counted tx) :
    ∃ tx', (updateOne ext u).exec tx = (.ok ⟨⟩, tx') ∧ Counted tx' := by
  rw [updateOne, Tx.exec_bind, Tx.exec_get]
  simp only [Tx.exec_bind, Tx.exec_ofExcept, hplan]
  cases p.isNoop with
  | true => exact ⟨tx, rfl, hcount⟩
  | false =>
    obtain ⟨m, tx', hexec, -, hm, -⟩ := batchModseq_ok hcount
    simp only [Bool.false_eq_true, if_false, Tx.exec_bind, hexec]
    exact ⟨_, rfl, fun hnone => by rw [hm] at hnone; cases hnone⟩

theorem untouched_destroy {row : EmailRow} (hne : e ≠ row.id) : Untouched db (db.applyDestroy a m row) e := by
  rw [Db.applyDestroy_eq]
  refine ⟨?_, fun r hr => ?_, fun r hr => ?_⟩
  · ext k
    rw [Db.mem_keywordsOf, Db.mem_keywordsOf]
    rw [mem_deleteWhere]
    simp [hne]
  · dsimp only
    rw [mem_deleteWhere]
    simp [hr, hne]
  · dsimp only
    rw [mem_deleteWhere]
    simp [hr, hne]

/-- What is there is destroyed, and the other emails stay as they are. -/
theorem destroyOne_ok {tx : TxState} (hown : ∃ r ∈ tx.db.emails, r.id = e ∧ r.accountId = tx.batch.accountId)
    (hcount : Counted tx) : ∃ tx', (destroyOne e).exec tx = (.ok ⟨⟩, tx') ∧ Counted tx' ∧
      tx'.batch.accountId = tx.batch.accountId ∧ ∀ e', e' ≠ e → Untouched tx.db tx'.db e' := by
  obtain ⟨r, hr, hre, hra⟩ := hown
  rw [destroyOne, Tx.exec_bind, Tx.exec_get]
  dsimp only
  cases hrow : tx.db.emailOf tx.batch.accountId e with
  | none =>
    have := List.find?_eq_none.1 hrow r hr
    simp [hre, hra] at this
  | some row =>
    have hid : row.id = e := by
      have hkey : row.id = e ∧ row.accountId = tx.batch.accountId := by simpa using List.find?_some hrow
      exact hkey.1
    obtain ⟨m, tx', hexec, hacc, hm, hdb⟩ := batchModseq_ok hcount
    dsimp only
    rw [Tx.exec_bind, hexec]
    refine ⟨_, rfl, fun hnone => ?_, hacc, fun e' hne => ?_⟩
    · change tx'.batch.modseq = none at hnone
      rw [hm] at hnone
      cases hnone
    · have hsame : Untouched tx.db tx'.db e' := by
        rcases hdb with hdb | hdb <;> rw [hdb] <;> exact ⟨rfl, fun _ _ => Iff.rfl, fun _ _ => Iff.rfl⟩
      exact hsame.trans (untouched_destroy (hid ▸ hne))

/-- Where the loop of `imap_take_out` stands: emails whose turn has not come are as they were. -/
structure Taking (a : Int) (db : Db) (done : List (U32 × Int × Nat)) (tx : TxState) : Prop where
  account : tx.batch.accountId = a
  counted : Counted tx
  others : ∀ e, e ∉ done.map (·.2.1) → Untouched db tx.db e

/-- **One turn.**  It is never refused. -/
theorem Taking.turn {done : List (U32 × Int × Nat)} {entry : U32 × Int × Nat} {tx : TxState}
    (h : Taking a db done tx) (hnew : entry.2.1 ∉ done.map (·.2.1)) (hlawful : Lawful db)
    (hown : ∃ r ∈ db.emails, r.id = entry.2.1 ∧ r.accountId = a)
    (hmore : entry.2.2 > 1 → ∃ b', b' ∈ db.mailboxesOf entry.2.1 ∧ b' ≠ b) :
    Tx.Ends (takeOut ext b entry) tx (fun _ => Taking a db (done ++ [entry])) fun _ => False := by
  have hbefore := h.others _ hnew
  obtain rfl := h.account
  have hown' : ∃ r ∈ tx.db.emails, r.id = entry.2.1 ∧ r.accountId = tx.batch.accountId := by
    obtain ⟨r, hr, hre, hra⟩ := hown
    exact ⟨r, (hbefore.row r hre).2 hr, hre, hra⟩
  have hnext : ∀ {tx' : TxState}, tx'.batch.accountId = tx.batch.accountId → Counted tx' →
      (∀ e, e ≠ entry.2.1 → Untouched tx.db tx'.db e) → Taking tx.batch.accountId db (done ++ [entry]) tx' := by
    refine fun hacc hcount hothers => ⟨hacc, hcount, fun e he => ?_⟩
    rw [List.map_append, List.mem_append, not_or] at he
    exact (h.others e he.1).trans (hothers e fun heq => he.2 (by simp [heq]))
  have hturn : takeOut ext b entry =
      if entry.2.2 > 1 then
        updateOne ext { id := entry.2.1, mailboxes := .patch [(b, false)] } >>= fun _ => pure entry.1
      else destroyOne entry.2.1 >>= fun _ => pure entry.1 := rfl
  unfold Tx.Ends
  rw [hturn]
  by_cases hcount : entry.2.2 > 1
  · rw [if_pos hcount]
    obtain ⟨p, hplan⟩ : ∃ p, planUpdate ext tx.db tx.batch.accountId
        { id := entry.2.1, mailboxes := .patch [(b, false)] } = .ok p := by
      refine planUpdate_leave hown' (hbefore.keywords ▸ hlawful.of_email) ?_
      obtain ⟨b', hb', hne⟩ := hmore hcount
      refine ⟨b', ?_, hne⟩
      obtain ⟨u, hu⟩ := mem_mailboxesOf_iff.1 hb'
      exact mem_mailboxesOf_iff.2 ⟨u, hbefore.holds.2 hu⟩
    obtain ⟨tx', hexec, hcount'⟩ := updateOne_ok hplan h.counted
    obtain ⟨hacc, -, hothers⟩ := updateOne_keywords hexec
    rw [Tx.exec_bind, hexec]
    exact hnext hacc hcount' hothers
  · rw [if_neg hcount]
    obtain ⟨tx', hexec, hcount', hacc, hothers⟩ := destroyOne_ok hown' h.counted
    rw [Tx.exec_bind, hexec]
    exact hnext hacc hcount' hothers

/-! ## 3. All turns -/

theorem nodup_flagged (hk : Keyed db) (onlyDeleted : Bool) :
    ((db.flagged b onlyDeleted).map (·.2.1)).Nodup := by
  have hperm : (db.byUid b).Perm (db.emailMailboxes.filter fun r => r.mailboxId == b) :=
    List.perm_insertionSort _ _
  rw [Db.flagged, List.map_map]
  change (((db.byUid b).filter _).map MembershipRow.emailId).Nodup
  refine List.Nodup.sublist (List.Sublist.map _ List.filter_sublist) ?_
  rw [(hperm.map _).nodup_iff]
  have hrows : (db.emailMailboxes.filter fun r => r.mailboxId == b).Nodup :=
    (List.Nodup.of_map _ hk.member).filter _
  refine (List.nodup_map_iff_inj_on hrows).2 fun r hr q hq heq => ?_
  simp only [List.mem_filter, beq_iff_eq] at hr hq
  exact hk.member.eq hr.1 hq.1 (Prod.ext heq (hr.2.trans hq.2.symm))

/-- **`imap_take_out` refuses nothing** in a mailbox of the account. -/
theorem imapTakeOut_ok (hi : Intact db) (hlawful : Lawful db) (hhas : db.Has a b) (uids : Option (List U32))
    (onlyDeleted : Bool) : ∃ removed db', imapTakeOut ext a b uids onlyDeleted db = (.ok removed, db') := by
  obtain ⟨q, hq, hqb, hqa⟩ := hhas
  obtain ⟨own, hown⟩ : ∃ own, ownMailbox db a b = .ok own := by
    unfold ownMailbox
    split
    · exact ⟨_, rfl⟩
    · rename_i hnone
      have := List.find?_eq_none.1 hnone q hq
      simp [hqb, hqa] at this
  have hcounted : Counted { db, batch := { accountId := a } } := by
    intro _
    obtain ⟨x, hx, hxq⟩ := hi.linked.mailboxAccount q hq
    rw [Db.modseqOf]
    cases hfind : db.account a with
    | some row => exact ⟨row.modseq, rfl⟩
    | none =>
      have := List.find?_eq_none.1 hfind x hx
      simp [hxq, hqa] at this
  have hnodup : ((wantedOut db b uids onlyDeleted).map (·.2.1)).Nodup :=
    List.Nodup.sublist (List.Sublist.map _ List.filter_sublist) (nodup_flagged hi.keyed onlyDeleted)
  have hloop : Tx.Ends ((wantedOut db b uids onlyDeleted).mapM (takeOut ext b))
    { db, batch := { accountId := a } }
      (fun _ => Taking a db (wantedOut db b uids onlyDeleted)) fun _ => False := by
    refine Tx.Ends.mapM_split (fun done entry rest tx hfull h => ?_) _ [] rfl
      ⟨rfl, hcounted, fun _ _ => .refl _ _⟩
    have hentry : entry ∈ db.flagged b onlyDeleted := by
      have : entry ∈ wantedOut db b uids onlyDeleted := by simp [hfull]
      exact (List.mem_filter.1 this).1
    obtain ⟨r, hr, rfl⟩ := List.mem_map.1 hentry
    have hr' : r ∈ db.emailMailboxes ∧ r.mailboxId = b := by
      have := (List.mem_filter.1 hr).1
      rw [Db.byUid, List.mem_insertionSort, List.mem_filter, beq_iff_eq] at this
      exact this
    rw [hfull, List.map_append, List.map_cons, List.nodup_append] at hnodup
    refine h.turn (fun hmem => hnodup.2.2 _ hmem _ List.mem_cons_self rfl) hlawful
      (hi.own_of_member ⟨q, hq, hqb, hqa⟩ hr'.1 hr'.2) fun hmore => ?_
    obtain ⟨q', hq', hqe, hqb'⟩ := hi.keyed.elsewhere (b := b) (Nat.not_le.2 hmore)
    exact ⟨q'.mailboxId, Db.mem_mailboxesOf.2 ⟨q', hq', hqe, rfl⟩, hqb'⟩
  unfold Tx.Ends at hloop
  rcases hexec : ((wantedOut db b uids onlyDeleted).mapM (takeOut ext b)).exec
    { db, batch := { accountId := a } } with ⟨r, tx⟩
  rw [hexec] at hloop
  cases r with
  | error err => exact hloop.elim
  | ok removed =>
    refine ⟨removed, tx.db, ?_⟩
    unfold imapTakeOut write Tx.atomically
    rw [Tx.exec_bind, Tx.exec_get]
    dsimp only
    rw [Tx.exec_bind, Tx.exec_ofExcept, hown]
    dsimp only
    rw [show (List.filter (fun entry => uids.all fun uids => uids.contains entry.1) (db.flagged b onlyDeleted)) =
      wantedOut db b uids onlyDeleted from rfl, hexec]

end UwuMail.Store
