/-
# COPY and MOVE

`imap_copy` puts each message it is asked for into the target, unless it is there, and with
`remove_source` takes it out of the source in the SAME update of the email.  It answers with pairs
of a UID in the source and the UID in the target, as COPYUID reports them.

The source may be the target, and then nothing is done at all.  Otherwise each turn is one patch of
one email, and what the other turns do does not touch it (`Copied`).
-/
import UwuMail.Store.Condstore

namespace UwuMail.Store

open Table

/-! ## 1. One update of memberships -/

/-- The email is in the mailbox under a UID. -/
def Db.Holds (db : Db) (email mailbox uid : Int) : Prop :=
  ∃ r ∈ db.emailMailboxes, r.emailId = email ∧ r.mailboxId = mailbox ∧ r.uid = uid

/-- An email but for its modseq. -/
def EmailRow.columns (r : EmailRow) : EmailRow := { r with updatedModseq := 0 }

/-- A mailbox but for its modseq, and the target but for its next UID. -/
def MailboxRow.columns (target : Int) (r : MailboxRow) : MailboxRow :=
  { r with uidNext := if r.id = target then 0 else r.uidNext, updatedModseq := 0 }

/-- Keywords stay, and so do the columns of emails and mailboxes. -/
structure Frame (target : Int) (db db' : Db) : Prop where
  keywords : db'.emailKeywords = db.emailKeywords
  emails : db'.emails.map EmailRow.columns = db.emails.map EmailRow.columns
  mailboxes : db'.mailboxes.map (MailboxRow.columns target) = db.mailboxes.map (MailboxRow.columns target)

variable {ext : Externals} {db db' db'' : Db} {p : UpdatePlan} {m target source e : Int}

theorem Frame.refl (target : Int) (db : Db) : Frame target db db := ⟨rfl, rfl, rfl⟩

theorem Frame.trans (h : Frame target db db') (h' : Frame target db' db'') : Frame target db db'' :=
  ⟨h'.keywords.trans h.keywords, h'.emails.trans h.emails, h'.mailboxes.trans h.mailboxes⟩

theorem Updated.frame (h : Updated db p m db') (hsame : p.newKeywords = p.oldKeywords)
    (htarget : ∀ b ∈ p.entered, b = target) : Frame target db db' := by
  refine ⟨h.keywordRows hsame, ?_, ?_⟩
  · rw [h.emails, updateWhere, List.map_map]
    refine List.map_congr_left fun r _ => ?_
    rw [Function.comp_apply]
    split <;> rfl
  · obtain ⟨f, hf, hf'⟩ := h.mailboxes
    rw [hf, List.map_map]
    refine List.map_congr_left fun r _ => ?_
    rw [Function.comp_apply, hf' r]
    by_cases hr : r.id = target
    · simp [MailboxRow.columns, hr]
    · have hno : r.id ∉ p.entered := fun hmem => hr (htarget _ hmem)
      simp [MailboxRow.columns, hr, hno]

theorem mem_mailboxesOf_iff {b : Int} : b ∈ db.mailboxesOf e ↔ ∃ u, db.Holds e b u := by
  rw [Db.mem_mailboxesOf]
  constructor
  · rintro ⟨r, hr, he, hb⟩
    exact ⟨r.uid, r, hr, he, hb, rfl⟩
  · rintro ⟨u, r, hr, he, hb, -⟩
    exact ⟨r, hr, he, hb⟩

/-- Where the email is, it stays under its UID; where it comes in it has the next one. -/
theorem Updated.holds (h : Updated db p m db') (hold : p.oldMailboxes = db.mailboxesOf p.email) {b u : Int} :
    db'.Holds p.email b u ↔ b ∈ p.newMailboxes ∧
      (db.Holds p.email b u ∨ b ∉ db.mailboxesOf p.email ∧ u = Db.uidNextIn db.mailboxes b) := by
  have hentered : b ∈ p.entered ↔ b ∈ p.newMailboxes ∧ b ∉ db.mailboxesOf p.email := by
    rw [UpdatePlan.entered, SortedSet.mem_difference, hold]
  have hleft : b ∈ p.left ↔ b ∈ db.mailboxesOf p.email ∧ b ∉ p.newMailboxes := by
    rw [UpdatePlan.left, SortedSet.mem_difference, hold]
  constructor
  · rintro ⟨r', hr', he, rfl, rfl⟩
    rcases (h.member r').1 hr' with ⟨r, hr, hkept, rfl⟩ | ⟨b, hb, rfl⟩
    · by_cases hre : r.emailId = p.email
      · rw [if_pos hre] at hleft ⊢
        have hholds : db.Holds p.email r.mailboxId r.uid := ⟨r, hr, hre, rfl, rfl⟩
        refine ⟨?_, .inl hholds⟩
        by_contra hno
        exact hkept ⟨hre, hleft.2 ⟨mem_mailboxesOf_iff.2 ⟨_, hholds⟩, hno⟩⟩
      · rw [if_neg hre] at he
        exact absurd he hre
    · obtain ⟨hnew, hnot⟩ := hentered.1 hb
      exact ⟨hnew, .inr ⟨hnot, rfl⟩⟩
  · rintro ⟨hnew, ⟨r, hr, hre, rfl, rfl⟩ | ⟨hnot, rfl⟩⟩
    · refine ⟨{ r with modseq := m }, (h.member _).2 (.inl ⟨r, hr, fun hgone => ?_, by rw [if_pos hre]⟩), hre, rfl, rfl⟩
      exact (hleft.1 hgone.2).2 hnew
    · exact ⟨_, (h.member _).2 (.inr ⟨b, hentered.2 ⟨hnew, hnot⟩, rfl⟩), rfl, rfl, rfl⟩

theorem Untouched.holds (h : Untouched db db' e) {b u : Int} : db'.Holds e b u ↔ db.Holds e b u := by
  constructor
  · rintro ⟨r, hr, he, hb⟩
    exact ⟨r, (h.member r he).1 hr, he, hb⟩
  · rintro ⟨r, hr, he, hb⟩
    exact ⟨r, (h.member r he).2 hr, he, hb⟩

/-! ## 2. One turn -/

theorem uidIn_some {t : U32} (h : uidIn db target e = some t) : ∃ u, db.Holds e target u ∧ asU32 u = t := by
  obtain ⟨r, hfind, rfl⟩ := Option.map_eq_some_iff.1 h
  have hkey : r.mailboxId = target ∧ r.emailId = e := by simpa using List.find?_some hfind
  exact ⟨r.uid, ⟨r, List.mem_of_find?_eq_some hfind, hkey.2, hkey.1, rfl⟩, rfl⟩

theorem uidIn_isNone : (uidIn db target e).isNone = true ↔ target ∉ db.mailboxesOf e := by
  rw [Db.mem_mailboxesOf, uidIn, Option.isNone_map, Option.isNone_iff_eq_none, List.find?_eq_none]
  simp only [Bool.and_eq_true, beq_iff_eq, not_and, not_exists]
  exact forall₂_congr fun r _ => ⟨fun h he hb => h hb he, fun h hb he => h he hb⟩

/-- What a turn makes of its email, between two mailboxes. -/
structure Turned (db : Db) (e source target : Int) (remove : Bool) (db' : Db) : Prop where
  frame : Frame target db db'
  others : ∀ e', e' ≠ e → Untouched db db' e'
  holds : ∀ b u, db'.Holds e b u ↔ (b = target ∨ b ∈ db.mailboxesOf e) ∧ ¬ (remove = true ∧ b = source) ∧
    (db.Holds e b u ∨ b ∉ db.mailboxesOf e ∧ u = Db.uidNextIn db.mailboxes b)

/-- The patch of `copy_in`. -/
def copyPatch (db : Db) (e source target : Int) (remove : Bool) : List (Int × Bool) :=
  (if (uidIn db target e).isNone then [(target, true)] else []) ++ (if remove then [(source, false)] else [])

theorem mem_copyPatch {remove : Bool} {b : Int} :
    b ∈ MailboxesChange.apply (db.mailboxesOf e) (.patch (copyPatch db e source target remove)) ↔
      (b = target ∨ b ∈ db.mailboxesOf e) ∧ ¬ (remove = true ∧ b = source) := by
  unfold copyPatch MailboxesChange.apply
  by_cases hin : target ∈ db.mailboxesOf e
  · rw [if_neg (mt uidIn_isNone.1 (not_not.2 hin)), List.nil_append]
    have htarget : (b = target ∨ b ∈ db.mailboxesOf e) ↔ b ∈ db.mailboxesOf e :=
      ⟨fun h => h.elim (fun h => h ▸ hin) id, .inr⟩
    cases remove <;> simp [patchSet, htarget]
  · rw [if_pos (uidIn_isNone.2 hin)]
    cases remove <;> simp [patchSet]

theorem turned_of_nothing {remove : Bool} (h : copyPatch db e source target remove = []) :
    Turned db e source target remove db := by
  obtain ⟨hnone, hremove⟩ := List.append_eq_nil_iff.1 h
  have hin : target ∈ db.mailboxesOf e := by
    by_contra hno
    rw [if_pos (uidIn_isNone.2 hno)] at hnone
    cases hnone
  have hno : remove = false := by
    cases remove with
    | false => rfl
    | true => cases hremove
  refine ⟨.refl _ _, fun _ _ => .refl _ _, fun b u => ?_⟩
  constructor
  · exact fun hholds => ⟨.inr (mem_mailboxesOf_iff.2 ⟨u, hholds⟩), by simp [hno], .inl hholds⟩
  · rintro ⟨hb, -, hholds | ⟨hnot, -⟩⟩
    · exact hholds
    · rcases hb with rfl | hb
      · exact absurd hin hnot
      · exact absurd hb hnot

theorem turned_of_update {remove : Bool} {tx tx' : TxState} {x : PUnit}
    (h : (updateOne ext { id := e, mailboxes := .patch (copyPatch tx.db e source target remove) }).exec tx =
      (.ok x, tx')) : Turned tx.db e source target remove tx'.db := by
  obtain ⟨p, hfit, hid, hkeywords, hmailboxes, -, hdone⟩ := updateOne_done h
  have hmem : ∀ b, b ∈ p.newMailboxes ↔ (b = target ∨ b ∈ tx.db.mailboxesOf e) ∧
      ¬ (remove = true ∧ b = source) := by
    intro b
    rw [hmailboxes]
    exact mem_copyPatch
  rcases hdone with ⟨hnoop, hdb⟩ | ⟨m, hupd⟩
  · rw [UpdatePlan.isNoop, decide_eq_true_eq] at hnoop
    rw [hdb]
    refine ⟨.refl _ _, fun _ _ => .refl _ _, fun b u => ?_⟩
    have hsame : b ∈ tx.db.mailboxesOf e ↔ (b = target ∨ b ∈ tx.db.mailboxesOf e) ∧
        ¬ (remove = true ∧ b = source) := by
      rw [← hmem, hnoop.2, hfit.oldMailboxes, hid]
    rw [← and_assoc, ← hsame]
    constructor
    · exact fun hholds => ⟨mem_mailboxesOf_iff.2 ⟨u, hholds⟩, .inl hholds⟩
    · rintro ⟨hb, hholds | ⟨hnot, -⟩⟩
      · exact hholds
      · exact absurd hb hnot
  · have hholds := fun b u => hupd.holds hfit.oldMailboxes (b := b) (u := u)
    rw [hid] at hholds
    refine ⟨hupd.frame ?_ fun b hb => ?_, fun e' hne' => hupd.untouched (hid.symm ▸ hne'), fun b u => ?_⟩
    · rw [hkeywords, hfit.oldKeywords, hid]
      rfl
    · rw [UpdatePlan.entered, SortedSet.mem_difference, hmem, hfit.oldMailboxes, hid] at hb
      exact hb.1.1.resolve_right hb.2
    · rw [hholds, hmem, and_assoc]

/-- **One turn** between two mailboxes. -/
theorem copyOne_turned {remove : Bool} {tx tx' : TxState} {entry : U32 × Int × Nat} {pair : U32 × U32}
    (hne : source ≠ target) (h : (copyOne ext source target remove entry).exec tx = (.ok pair, tx')) :
    Turned tx.db entry.2.1 source target remove tx'.db ∧ pair.1 = entry.1 ∧
      uidIn tx'.db target entry.2.1 = some pair.2 := by
  unfold copyOne at h
  rw [if_neg hne] at h
  obtain ⟨tx₀, s₀, hget, h⟩ := Tx.exec_bind_ok h
  cases hget
  have hpatch : copyPatch tx.db entry.2.1 source target remove =
      (if (uidIn tx.db target entry.2.1).isNone = true then [(target, true)] else []) ++
        (if remove = true then [(source, false)] else []) := rfl
  dsimp only at h
  generalize (if (uidIn tx.db target entry.2.1).isNone = true then [(target, true)] else []) ++
    (if remove = true then [(source, false)] else []) = patch at h hpatch
  split at h
  · rename_i hempty
    obtain ⟨tx₁, s₂, hget, h⟩ := Tx.exec_bind_ok h
    cases hget
    split at h
    · rename_i uid huid
      cases h
      exact ⟨turned_of_nothing (hpatch.trans (List.isEmpty_iff.1 hempty)), rfl, huid⟩
    · cases h
  · obtain ⟨x, s₁, hupd, h⟩ := Tx.exec_bind_ok h
    obtain ⟨tx₁, s₂, hget, h⟩ := Tx.exec_bind_ok h
    cases hget
    rw [← hpatch] at hupd
    split at h
    · rename_i uid huid
      cases h
      exact ⟨turned_of_update hupd, rfl, huid⟩
    · cases h

/-! ## 3. All turns -/

/-- What the turns that are through made of the store. -/
structure Copied (db : Db) (source target : Int) (remove : Bool) (done : List (U32 × Int × Nat))
    (pairs : List (U32 × U32)) (db' : Db) : Prop where
  frame : Frame target db db'
  others : ∀ e, e ∉ done.map (·.2.1) → Untouched db db' e
  elsewhere : ∀ entry ∈ done, ∀ b u, b ≠ target →
    (db'.Holds entry.2.1 b u ↔ db.Holds entry.2.1 b u ∧ ¬ (remove = true ∧ b = source))
  kept : ∀ entry ∈ done, ∀ u, db.Holds entry.2.1 target u → db'.Holds entry.2.1 target u
  sources : pairs.map (·.1) = done.map (·.1)
  arrived : ∀ pair ∈ pairs, ∃ entry ∈ done, pair.1 = entry.1 ∧
    ∃ u, db'.Holds entry.2.1 target u ∧ asU32 u = pair.2

variable {remove : Bool} {done : List (U32 × Int × Nat)} {pairs : List (U32 × U32)}
  {entry : U32 × Int × Nat} {pair : U32 × U32}

theorem Copied.turn (h : Copied db source target remove done pairs db') (hne : source ≠ target)
    (hnew : entry.2.1 ∉ done.map (·.2.1)) (ht : Turned db' entry.2.1 source target remove db'')
    (hfirst : pair.1 = entry.1) (hpair : uidIn db'' target entry.2.1 = some pair.2) :
    Copied db source target remove (done ++ [entry]) (pairs ++ [pair]) db'' := by
  -- before its turn the email was as it was at first, and after their turns the others stay as they are
  have hbefore := h.others _ hnew
  have hother : ∀ entry' ∈ done, Untouched db' db'' entry'.2.1 := fun entry' hmem =>
    ht.others _ fun heq => hnew (heq ▸ List.mem_map_of_mem hmem)
  refine ⟨h.frame.trans ht.frame, fun e he => ?_, fun entry' hmem b u hb => ?_, fun entry' hmem u hu => ?_, ?_,
    fun pair' hmem => ?_⟩
  · rw [List.map_append, List.mem_append, not_or] at he
    exact (h.others e he.1).trans (ht.others e fun heq => he.2 (by simp [heq]))
  · rcases List.mem_append.1 hmem with hmem | hmem
    · rw [(hother _ hmem).holds]
      exact h.elsewhere entry' hmem b u hb
    · rw [List.mem_singleton.1 hmem, ht.holds, hbefore.holds]
      have hin : (b = target ∨ b ∈ db'.mailboxesOf entry.2.1) ↔ b ∈ db'.mailboxesOf entry.2.1 :=
        ⟨fun h => h.resolve_left hb, .inr⟩
      rw [hin]
      constructor
      · rintro ⟨hold, hno, hholds | ⟨hnot, -⟩⟩
        · exact ⟨hholds, hno⟩
        · exact absurd hold hnot
      · rintro ⟨hholds, hno⟩
        exact ⟨mem_mailboxesOf_iff.2 ⟨u, hbefore.holds.2 hholds⟩, hno, .inl hholds⟩
  · rcases List.mem_append.1 hmem with hmem | hmem
    · exact (hother _ hmem).holds.2 (h.kept entry' hmem u hu)
    · rw [List.mem_singleton.1 hmem] at hu ⊢
      exact (ht.holds _ _).2 ⟨.inl rfl, fun hgone => hne hgone.2.symm, .inl (hbefore.holds.2 hu)⟩
  · rw [List.map_append, List.map_append, h.sources, List.map_singleton, List.map_singleton, hfirst]
  · rcases List.mem_append.1 hmem with hmem | hmem
    · obtain ⟨entry', hentry, heq, u, hholds, hu⟩ := h.arrived pair' hmem
      exact ⟨entry', List.mem_append_left _ hentry, heq, u, (hother _ hentry).holds.2 hholds, hu⟩
    · rw [List.mem_singleton.1 hmem]
      obtain ⟨u, hholds, hu⟩ := uidIn_some hpair
      exact ⟨entry, by simp, hfirst, u, hholds, hu⟩

theorem asU32_val (u : U32) : asU32 (u.val : Int) = u := by
  have hlt := u.isLt
  refine Fin.ext ?_
  change ((u.val : Int) % 4294967296).toNat % 4294967296 = u.val
  omega

/-- What the loop of `copy_in` leaves, also where it is about one mailbox. -/
theorem copyIn_copied (hi : Intact db) (hu : Uids db) {uids : List U32} {a : Int} {tx' : TxState}
    (hne : source ≠ target)
    (h : (copyIn ext source uids target remove).exec { db, batch := { accountId := a } } = (.ok pairs, tx')) :
    Copied db source target remove (emailsByUid db source uids) pairs tx'.db := by
  obtain ⟨tx₀, s₀, hget, hloop⟩ := Tx.exec_bind_ok h
  cases hget
  have hends := Tx.Ends.mapM (E := fun _ => True) (f := copyOne ext source target remove)
    (P := fun done pairs (tx : TxState) =>
      (done.map (·.2.1)).Nodup → Copied db source target remove done pairs tx.db)
    (fun done pairs entry tx hdone => ?_) (emailsByUid db source uids) [] []
    (s := { db, batch := { accountId := a } }) fun _ =>
      ⟨.refl _ _, fun _ _ => .refl _ _, by simp, by simp, rfl, by simp⟩
  · exact hends.ok hloop (nodup_emailsByUid hi.keyed hu)
  · unfold Tx.Ends
    split
    · rename_i pair tx'' hexec hrun
      intro hnodup
      obtain ⟨hturned, hfirst, hpair⟩ := copyOne_turned hne hrun
      rw [List.map_append, List.map_singleton, List.nodup_append] at hnodup
      obtain ⟨hold, -, hnew⟩ := hnodup
      exact (hdone hold).turn hne (fun hmem => hnew _ hmem _ (List.mem_singleton_self _) rfl) hturned hfirst hpair
    · trivial

/-- Within one mailbox nothing is done. -/
theorem copyIn_same {uids : List U32} {tx tx' : TxState}
    (h : (copyIn ext source uids source remove).exec tx = (.ok pairs, tx')) :
    tx' = tx ∧ pairs = (emailsByUid tx.db source uids).map fun entry => (entry.1, entry.1) := by
  obtain ⟨tx₀, s₀, hget, hloop⟩ := Tx.exec_bind_ok h
  cases hget
  have hone : copyOne ext source source remove = fun entry => pure (entry.1, entry.1) := by
    funext entry
    exact if_pos rfl
  rw [hone, List.mapM_pure] at hloop
  cases hloop
  exact ⟨rfl, rfl⟩

/-- **COPY and MOVE.**  Each listed UID that the source has is in one pair, and the email it stands
for is in the target under the other UID of the pair (as a client is told it).  The source still has
the UID unless it was a move to another mailbox, what is in the target keeps its UID, and nothing
else changes. -/
theorem copies (ext : Externals) (ops : List StoreOp) (account source target : Int)
    (uids : List U32) (remove : Bool)
    (pairs : List (U32 × U32)) (db' : Db)
    (h : imapCopy ext account source uids target remove (runOps ext ops {}) = (.ok pairs, db')) :
    let db := runOps ext ops {}
    (∀ pair ∈ pairs, ∃ e u, db.Holds e source pair.1.val ∧ db'.Holds e target u ∧ asU32 u = pair.2) ∧
      ((pairs.map (·.1)).Nodup ∧ ∀ s, s ∈ pairs.map (·.1) ↔ s ∈ uids ∧ ∃ e, db.Holds e source s.val) ∧
      (∀ s ∈ uids, (∃ e, db.Holds e source s.val) →
        ((∃ e, db'.Holds e source s.val) ↔ ¬ (remove = true ∧ source ≠ target))) ∧
      (∀ e u, db.Holds e target u → db'.Holds e target u ∧ ∀ w, db'.Holds e target w → w = u) ∧
      Frame target db db' ∧
      (∀ e, (∀ s ∈ uids, ¬ db.Holds e source s.val) → Untouched db db' e) ∧
      ∀ e b u, b ≠ source → b ≠ target → (db'.Holds e b u ↔ db.Holds e b u) := by
  intro db
  have hi : Intact db := intact_runOps ops
  have hu : Uids db := uids_reachable ops
  have hi' : Intact db' := by
    have : Intact (runOps ext (ops ++ [.imapCopy account source uids target remove]) {}) := intact_runOps _
    rw [runOps_append] at this
    change Intact (imapCopy ext account source uids target remove db).2 at this
    rwa [h] at this
  -- an email is in a mailbox under one UID
  have hone : ∀ e b u w, db'.Holds e b u → db'.Holds e b w → w = u := by
    rintro e b u w ⟨r, hr, he, hb, rfl⟩ ⟨q, hq, he', hb', rfl⟩
    rw [hi'.keyed.member.eq hr hq (Prod.ext (he.trans he'.symm) (hb.trans hb'.symm))]
  have hlisted : ∀ s, s ∈ (emailsByUid db source uids).map (·.1) ↔ s ∈ uids ∧ ∃ e, db.Holds e source s.val := by
    intro s
    rw [List.mem_map]
    constructor
    · rintro ⟨entry, hentry, rfl⟩
      obtain ⟨huid, r, hr, hrb, hru, -⟩ := (mem_emailsByUid_iff hi.keyed hu).1 hentry
      exact ⟨huid, r.emailId, r, hr, rfl, hrb, hru⟩
    · rintro ⟨huid, e, r, hr, rfl, hrb, hru⟩
      exact ⟨(s, r.emailId, r.modseq.toNat), (mem_emailsByUid_iff hi.keyed hu).2 ⟨huid, r, hr, hrb,
        hru, rfl, rfl⟩, rfl⟩
  have hnodup : ((emailsByUid db source uids).map (·.1)).Nodup := sorted_emailsByUid.imp fun h => ne_of_lt h
  obtain ⟨tx, hx, rfl⟩ : ∃ tx, (copyIn ext source uids target remove).exec
    { db, batch := { accountId := account } } =
      (.ok pairs, tx) ∧ tx.db = db' := by
    unfold imapCopy at h
    rcases write_cases account _ db with ⟨e, h'⟩ | ⟨v, tx, hx, h'⟩
    · rw [h'] at h
      cases h
    rw [h'] at h
    cases h
    obtain ⟨tx₀, s₀, hget, hx⟩ := Tx.exec_bind_ok hx
    cases hget
    obtain ⟨own, hown, hx⟩ := exec_ofExcept_ok hx
    obtain ⟨tx₁, s₂, hget, hx⟩ := Tx.exec_bind_ok hx
    cases hget
    obtain ⟨own', hown', hx⟩ := exec_ofExcept_ok hx
    exact ⟨tx, hx, rfl⟩
  by_cases hne : source = target
  · subst hne
    obtain ⟨rfl, rfl⟩ := copyIn_same hx
    refine ⟨fun pair hpair => ?_, ?_, fun s _ he => ?_,
      fun e u hold => ⟨hold, fun w hw => hone e source u w hold hw⟩,
      .refl _ _, fun _ _ => .refl _ _, fun _ _ _ _ _ => Iff.rfl⟩
    · obtain ⟨entry, hentry, rfl⟩ := List.mem_map.1 hpair
      obtain ⟨-, e, he⟩ := (hlisted entry.1).1 (List.mem_map_of_mem hentry)
      exact ⟨e, _, he, he, asU32_val _⟩
    · rw [List.map_map]
      exact ⟨hnodup, hlisted⟩
    · exact ⟨fun _ h => h.2 rfl, fun _ => he⟩
  · have hcopied := copyIn_copied hi hu hne hx
    have hback : ∀ e, (∃ s ∈ uids, db.Holds e source s.val) → e ∈ (emailsByUid db source uids).map (·.2.1) := by
      rintro e ⟨s, huid, r, hr, rfl, hrb, hru⟩
      exact List.mem_map.2 ⟨(s, r.emailId, r.modseq.toNat),
        (mem_emailsByUid_iff hi.keyed hu).2 ⟨huid, r, hr, hrb, hru, rfl, rfl⟩, rfl⟩
    refine ⟨fun pair hpair => ?_, ?_, fun s huid hthere => ?_, fun e u hold => ?_, hcopied.frame,
      fun e hno => ?_,
      fun e b u hsource htarget => ?_⟩
    · obtain ⟨entry, hentry, hfirst, u, hholds, hu'⟩ := hcopied.arrived pair hpair
      obtain ⟨-, r, hr, hrb, hru, hre, -⟩ := (mem_emailsByUid_iff hi.keyed hu).1 hentry
      exact ⟨entry.2.1, u, ⟨r, hr, hre, hrb, hfirst ▸ hru⟩, hholds, hu'⟩
    · rw [hcopied.sources]
      exact ⟨hnodup, hlisted⟩
    · have hbefore : ∀ e, tx.db.Holds e source s.val → db.Holds e source s.val ∧ ¬ remove = true := by
        intro e he
        by_cases hmem : e ∈ (emailsByUid db source uids).map (·.2.1)
        · obtain ⟨entry, hentry, rfl⟩ := List.mem_map.1 hmem
          obtain ⟨hold, hno⟩ := (hcopied.elsewhere entry hentry source _ hne).1 he
          exact ⟨hold, fun hremove => hno ⟨hremove, rfl⟩⟩
        · have hold := (hcopied.others e hmem).holds.1 he
          exact absurd (hback e ⟨s, huid, hold⟩) hmem
      constructor
      · rintro ⟨e, he⟩ ⟨hremove, -⟩
        exact (hbefore e he).2 hremove
      · intro hno
        obtain ⟨e, he⟩ := hthere
        obtain ⟨entry, hentry, rfl⟩ := List.mem_map.1 (hback e ⟨s, huid, he⟩)
        exact ⟨_, (hcopied.elsewhere entry hentry source _ hne).2 ⟨he, fun h => hno ⟨h.1, hne⟩⟩⟩
    · have hkept : tx.db.Holds e target u := by
        by_cases hmem : e ∈ (emailsByUid db source uids).map (·.2.1)
        · obtain ⟨entry, hentry, rfl⟩ := List.mem_map.1 hmem
          exact hcopied.kept entry hentry u hold
        · exact (hcopied.others e hmem).holds.2 hold
      exact ⟨hkept, fun w hw => hone e target u w hkept hw⟩
    · refine hcopied.others e fun hmem => ?_
      obtain ⟨entry, hentry, rfl⟩ := List.mem_map.1 hmem
      obtain ⟨huid, r, hr, hrb, hru, hre, -⟩ := (mem_emailsByUid_iff hi.keyed hu).1 hentry
      exact hno _ huid ⟨r, hr, hre, hrb, hru⟩
    · by_cases hmem : e ∈ (emailsByUid db source uids).map (·.2.1)
      · obtain ⟨entry, hentry, rfl⟩ := List.mem_map.1 hmem
        rw [hcopied.elsewhere entry hentry b u htarget]
        exact ⟨And.left, fun hold => ⟨hold, fun h => hsource h.2⟩⟩
      · exact (hcopied.others e hmem).holds

/-- The first of two messages is moved. -/
theorem copies_moved : ¬ ∃ e, (imapCopy plainExternals 1 1 [1] 2 true (runOps plainExternals resyncOps.1 {})).2.Holds
    e 1 1 := by
  have h : imapCopy plainExternals 1 1 [1] 2 true (runOps plainExternals resyncOps.1 {}) = (.ok [(1, 1)],
      (imapCopy plainExternals 1 1 [1] 2 true (runOps plainExternals resyncOps.1 {})).2) :=
    Prod.ext (by decide) rfl
  obtain ⟨-, -, hsource, -⟩ := copies plainExternals resyncOps.1 1 1 2 [1] true [(1, 1)] _ h
  intro hthere
  exact (hsource 1 (by decide) ⟨1, ⟨1, 1, 1, 2⟩, by decide, rfl, rfl, rfl⟩).1 hthere ⟨rfl, by decide⟩

end UwuMail.Store
