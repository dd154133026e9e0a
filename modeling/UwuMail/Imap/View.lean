/-
# What the client of a session sees

A client keeps the UIDs of the messages of the mailbox it selected, in order of their numbers.
EXISTS adds to the end of the list, EXPUNGE takes a number out, VANISHED takes UIDs out, and nothing
else changes it.  `apply` is that client; it gets stuck at a response that makes no sense to it: a
number it has no message for, or a UID it was never told of.

The result is a simulation: after every response the client's list is in UID order, and after every
step it is the list of UIDs of `Selected.messages`.  It holds in every run in which `EXPUNGE`, with
QRESYNC on, finds only messages flagged `\Deleted` that the session has announced
(`expunge_names_unannounced` is what happens otherwise), and no UID is too large for 32 bits.
-/
import UwuMail.Imap.Session

namespace UwuMail.Imap

open Store Trace Table

/-! ## 1. The client -/

/-- The client's list after a response, if the response makes sense to it. -/
def apply (l : List U32) : Response → Option (List U32)
  | .closed => some []
  | .exists_ n uids => if l.length + uids.length = n then some (l ++ uids) else none
  | .expunge n => if 1 ≤ n ∧ n ≤ l.length then some (l.eraseIdx (n - 1)) else none
  | .vanished uids =>
    if uids.all fun u => l.contains u then some (l.filter fun u => !uids.contains u) else none
  | .vanishedEarlier _ => some l
  | .fetch _ _ _ _ => some l
  | .bye _ => some []

/-- The client's list after everything it was sent. -/
def client (sent : List Response) : Option (List U32) := sent.foldlM apply []

/-- The client goes from one list to the other, and its list is in UID order after each response. -/
def Follows : List U32 → List Response → List U32 → Prop
  | l, [], l' => l = l'
  | l, r :: rs, l' => ∃ l₁, apply l r = some l₁ ∧ l₁.Pairwise (· < ·) ∧ Follows l₁ rs l'

section Client

variable {l l' l'' : List U32} {rs rs' : List Response}

theorem Follows.append (h : Follows l rs l') (h' : Follows l' rs' l'') :
    Follows l (rs ++ rs') l'' := by
  induction rs generalizing l with
  | nil =>
    cases h
    exact h'
  | cons r rs ih =>
    obtain ⟨l₁, hr, hl₁, h⟩ := h
    exact ⟨l₁, hr, hl₁, ih h⟩

theorem Follows.single {r : Response} (h : apply l r = some l') (hl' : l'.Pairwise (· < ·)) :
    Follows l [r] l' := ⟨l', h, hl', rfl⟩

theorem Follows.split (h : Follows l (rs ++ rs') l'') : ∃ l', Follows l rs l' ∧ Follows l' rs' l'' := by
  induction rs generalizing l with
  | nil => exact ⟨l, rfl, h⟩
  | cons r rs ih =>
    obtain ⟨l₁, hr, hl₁, h⟩ := h
    obtain ⟨l', h, h'⟩ := ih h
    exact ⟨l', ⟨l₁, hr, hl₁, h⟩, h'⟩

theorem Follows.sorted (h : Follows l rs l') (hl : l.Pairwise (· < ·)) : l'.Pairwise (· < ·) := by
  induction rs generalizing l with
  | nil =>
    cases h
    exact hl
  | cons r rs ih =>
    obtain ⟨l₁, -, hl₁, h⟩ := h
    exact ih h hl₁

theorem Follows.foldlM_eq (h : Follows l rs l') : rs.foldlM apply l = some l' := by
  induction rs generalizing l with
  | nil =>
    cases h
    rfl
  | cons r rs ih =>
    obtain ⟨l₁, hr, -, h⟩ := h
    rw [List.foldlM_cons, hr]
    exact ih h

/-- A response that leaves the client's list alone. -/
def Response.quiet : Response → Bool
  | .vanishedEarlier _ | .fetch _ _ _ _ => true
  | _ => false

theorem Follows.quiet (hl : l.Pairwise (· < ·)) (h : ∀ r ∈ rs, r.quiet = true) : Follows l rs l := by
  induction rs with
  | nil => rfl
  | cons r rs ih =>
    refine ⟨l, ?_, hl, ih fun r' hr' => h r' (List.mem_cons_of_mem _ hr')⟩
    have := h r List.mem_cons_self
    cases r with
    | vanishedEarlier uids => rfl
    | fetch n uid keywords modseq => rfl
    | _ => cases this

end Client

/-! ## 2. Loops that change flags -/

/-- The UIDs of the messages, in order. -/
def uidsOf (messages : List Known) : List U32 := messages.map (·.uid)

def Session.uids (ss : Session) : List U32 := (ss.selected.map fun sel => uidsOf sel.messages).getD []

section Flags

variable (emails : List ImapEmail)

theorem uidsOf_modify {f : Known → Known} (hf : ∀ k, (f k).uid = k.uid) (index : Nat)
    (messages : List Known) : uidsOf (messages.modify index f) = uidsOf messages := by
  induction messages generalizing index with
  | nil => simp [uidsOf]
  | cons k messages ih =>
    cases index with
    | zero => simp [uidsOf, hf]
    | succ index => simpa [uidsOf] using ih index

theorem answers_quiet (changedSince : Option Nat) (targets : List (Nat × U32)) (messages : List Known) :
    uidsOf (Session.answers emails changedSince targets messages).1 = uidsOf messages ∧
      ∀ r ∈ (Session.answers emails changedSince targets messages).2, r.quiet = true := by
  induction targets generalizing messages with
  | nil => simp [Session.answers]
  | cons target targets ih =>
    obtain ⟨index, uid⟩ := target
    simp only [Session.answers]
    split
    · exact ih messages
    · split
      · exact ih messages
      · refine ⟨((ih _).1).trans (uidsOf_modify (fun k => ?_) index messages), fun r hr => ?_⟩
        · split <;> rfl
        · rcases List.mem_cons.1 hr with rfl | hr
          · rfl
          · exact (ih _).2 r hr

theorem storedAnswers_quiet (skipped : List U32) (silent condstore : Bool) (targets : List (Nat × U32))
    (messages : List Known) :
    uidsOf (Session.storedAnswers emails skipped silent condstore targets messages).1 = uidsOf messages ∧
      ∀ r ∈ (Session.storedAnswers emails skipped silent condstore targets messages).2,
        r.quiet = true := by
  induction targets generalizing messages with
  | nil => simp [Session.storedAnswers]
  | cons target targets ih =>
    obtain ⟨index, uid⟩ := target
    simp only [Session.storedAnswers]
    split
    · exact ih messages
    · split
      · refine ⟨((ih _).1).trans (uidsOf_modify (fun k => ?_) index messages), (ih _).2⟩
        rfl
      · refine ⟨((ih _).1).trans (uidsOf_modify (fun k => ?_) index messages), fun r hr => ?_⟩
        · rfl
        · rcases List.mem_cons.1 hr with rfl | hr
          · rfl
          · exact (ih _).2 r hr

theorem flagLoop_quiet (current : List ImapMessage) (index : Nat) (messages : List Known) :
    uidsOf (Session.flagLoop current index messages).1 = uidsOf messages ∧
      ∀ r ∈ (Session.flagLoop current index messages).2, r.quiet = true := by
  induction messages generalizing index with
  | nil => simp [Session.flagLoop]
  | cons k messages ih =>
    obtain ⟨huids, hquiet⟩ := ih (index + 1)
    simp only [uidsOf] at huids ⊢
    simp only [Session.flagLoop]
    split
    · exact ⟨by simp [huids], hquiet⟩
    · split
      · refine ⟨by simp [huids], fun r hr => ?_⟩
        rcases List.mem_cons.1 hr with rfl | hr
        · rfl
        · exact hquiet r hr
      · exact ⟨by simp [huids], hquiet⟩

end Flags

/-! ## 3. Messages that go, and messages that come -/

variable {uids : List U32}

section Lists

variable {messages : List Known}

theorem apply_vanished {l uids : List U32} (h : ∀ u ∈ uids, u ∈ l) :
    apply l (.vanished uids) = some (l.filter fun u => !uids.contains u) := by
  have hall : (uids.all fun u => l.contains u) = true := by simpa using h
  simp only [apply]
  rw [if_pos hall]

theorem apply_expunge {l : List U32} {index : Nat} (h : index < l.length) :
    apply l (.expunge (index + 1)) = some (l.eraseIdx index) := by
  simp [apply, h]

/-- One EXPUNGE after the other, from the last message down. -/
theorem follows_expungeLoop (n : Nat) (hsorted : (uidsOf messages).Pairwise (· < ·)) :
    Follows (uidsOf messages) (Session.expungeLoop n messages).2
      (uidsOf (Session.expungeLoop n messages).1) := by
  induction n generalizing messages with
  | zero => rfl
  | succ index ih =>
    simp only [Session.expungeLoop]
    split
    · next hexp =>
      have hlt : index < messages.length := by
        by_contra hge
        rw [List.getElem?_eq_none (not_lt.1 hge)] at hexp
        cases hexp
      have herase : uidsOf (messages.eraseIdx index) = (uidsOf messages).eraseIdx index :=
        (List.eraseIdx_map _ _ _).symm
      have hsorted' : (uidsOf (messages.eraseIdx index)).Pairwise (· < ·) := by
        rw [herase]
        exact hsorted.sublist (List.eraseIdx_sublist _ _)
      refine ⟨_, apply_expunge (by simpa [uidsOf] using hlt), ?_, ?_⟩
      · rwa [← herase]
      · rw [← herase]
        exact ih hsorted'
    · exact ih hsorted

/-- Taking positions out from the last one down is taking out what is at them. -/
theorem foldl_eraseIdx_positions {α : Type} (p : α → Bool) (l before : List α) :
    (((l.zipIdx before.length).filter fun e => p e.1).map (·.2)).reverse.foldl
      (fun l index => l.eraseIdx index) (before ++ l) = before ++ l.filter fun a => !p a := by
  induction l generalizing before with
  | nil => simp
  | cons a l ih =>
    have hl := ih (before ++ [a])
    rw [List.length_append, List.length_singleton, List.append_assoc, List.append_assoc,
      List.singleton_append, List.singleton_append] at hl
    rw [List.zipIdx_cons, List.filter_cons]
    split
    · next hp =>
      rw [List.map_cons, List.reverse_cons, List.foldl_append, hl]
      simp [hp, List.eraseIdx_append_of_length_le]
    · next hp =>
      rw [hl]
      simp [Bool.not_eq_true _ ▸ hp]

/-- EXPUNGE responses for positions that are in the list, each below the one before. -/
theorem follows_expunges (positions : List Nat) (l : List U32) (hl : l.Pairwise (· < ·))
    (hdown : positions.Pairwise (· > ·)) (hlt : ∀ index ∈ positions, index < l.length) :
    Follows l (positions.map fun index => .expunge (index + 1))
      (positions.foldl (fun l index => l.eraseIdx index) l) := by
  induction positions generalizing l with
  | nil => rfl
  | cons index positions ih =>
    have hindex := hlt index List.mem_cons_self
    refine ⟨_, apply_expunge hindex, hl.sublist (List.eraseIdx_sublist _ _), ?_⟩
    refine ih _ (hl.sublist (List.eraseIdx_sublist _ _)) (List.pairwise_cons.1 hdown).2 ?_
    intro i hi
    have hbelow : index > i := (List.pairwise_cons.1 hdown).1 i hi
    rw [List.length_eraseIdx_of_lt hindex]
    omega

theorem filter_uidsOf (p : U32 → Bool) :
    (uidsOf messages).filter p = uidsOf (messages.filter fun k => p k.uid) := by
  rw [uidsOf, List.filter_map]
  rfl

variable {sel : Selected}

theorem uidsOf_forget (uids : List U32) :
    uidsOf (sel.forget uids).2.messages = (uidsOf sel.messages).filter fun u => !uids.contains u := by
  rw [filter_uidsOf]
  rfl

/-- `forget` in EXPUNGE responses: the last message first. -/
theorem follows_forget_expunges (hsorted : (uidsOf sel.messages).Pairwise (· < ·))
    (uids : List U32) :
    Follows (uidsOf sel.messages) ((sel.forget uids).1.map fun index => .expunge (index + 1))
      (uidsOf (sel.forget uids).2.messages) := by
  have hpositions : (sel.forget uids).1 =
      ((((uidsOf sel.messages).zipIdx).filter fun e => uids.contains e.1).map (·.2)).reverse := by
    simp only [Selected.forget, uidsOf, List.zipIdx_map, List.filter_map, List.map_map]
    rfl
  have herase := foldl_eraseIdx_positions (fun u => uids.contains u) (uidsOf sel.messages) []
  rw [List.nil_append, List.nil_append, List.length_nil, ← hpositions, ← uidsOf_forget] at herase
  rw [← herase]
  refine follows_expunges _ _ hsorted ?_ ?_
  · rw [hpositions, List.pairwise_reverse, List.pairwise_map]
    refine (List.Pairwise.filter _ ?_)
    rw [← List.pairwise_map (f := Prod.snd) (R := fun a b => b > a), List.zipIdx_map_snd]
    exact List.pairwise_lt_range'
  · intro index hindex
    rw [hpositions, List.mem_reverse, List.mem_map] at hindex
    obtain ⟨e, he, rfl⟩ := hindex
    have := List.mem_zipIdx (List.mem_filter.1 he).1
    omega

/-- `forget` in one VANISHED response. -/
theorem follows_forget_vanished (hsorted : (uidsOf sel.messages).Pairwise (· < ·))
    (hknown : uids ⊆ uidsOf sel.messages) :
    Follows (uidsOf sel.messages) [.vanished uids] (uidsOf (sel.forget uids).2.messages) := by
  refine .single (by rw [uidsOf_forget]; exact apply_vanished hknown) ?_
  rw [uidsOf_forget]
  exact hsorted.filter _

/-- The messages known to be gone, in one VANISHED response. -/
theorem follows_vanished (hsorted : (uidsOf messages).Pairwise (· < ·)) :
    Follows (uidsOf messages) [.vanished ((messages.filter (·.expunged)).map (·.uid))]
      (uidsOf (messages.filter fun k => !k.expunged)) := by
  have hfilter : (uidsOf messages).filter
      (fun u => !((messages.filter (·.expunged)).map (·.uid)).contains u) =
        uidsOf (messages.filter fun k => !k.expunged) := by
    rw [filter_uidsOf]
    congr 1
    refine List.filter_congr fun k hk => ?_
    -- No two messages have one UID, so a message is gone exactly when its UID is that of one that is.
    have hinj : ∀ k' ∈ messages, k'.uid = k.uid → k' = k := by
      intro k' hk' heq
      exact List.inj_on_of_nodup_map (hsorted.imp fun h => ne_of_lt h) hk' hk heq
    cases hexp : k.expunged with
    | true =>
      have : k.uid ∈ (messages.filter (·.expunged)).map (·.uid) :=
        List.mem_map.2 ⟨k, List.mem_filter.2 ⟨hk, hexp⟩, rfl⟩
      rw [List.contains_iff_mem.2 this]
    | false =>
      have : k.uid ∉ (messages.filter (·.expunged)).map (·.uid) := by
        intro hmem
        obtain ⟨k', hk', heq⟩ := List.mem_map.1 hmem
        rw [List.mem_filter] at hk'
        rw [hinj k' hk'.1 heq, hexp] at hk'
        exact absurd hk'.2 (by simp)
      rw [Bool.eq_false_iff.2 fun h => this (List.contains_iff_mem.1 h)]
  refine .single (hfilter ▸ apply_vanished ?_) (hfilter ▸ hsorted.filter _)
  intro u hu
  obtain ⟨k, hk, rfl⟩ := List.mem_map.1 hu
  exact List.mem_map.2 ⟨k, (List.mem_filter.1 hk).1, rfl⟩

theorem le_largestUid (hsorted : (uidsOf sel.messages).Pairwise (· < ·)) {u : U32}
    (hu : u ∈ uidsOf sel.messages) : u.val ≤ sel.largestUid := by
  unfold Selected.largestUid
  rcases List.eq_nil_or_concat' sel.messages with h | ⟨init, last, h⟩
  · rw [h] at hu
    cases hu
  · rw [h] at hu hsorted ⊢
    simp only [uidsOf, List.map_append, List.map_cons, List.map_nil, List.pairwise_append,
      List.mem_append, List.mem_singleton] at hu hsorted
    rw [List.getLast?_concat, Option.map_some, Option.getD_some]
    rcases hu with hu | rfl
    · exact le_of_lt (hsorted.2.2 u hu _ rfl)
    · exact le_rfl

theorem uidsOf_mark (state : ImapMessages) : uidsOf (Session.mark state messages) = uidsOf messages := by
  rw [uidsOf, Session.mark, List.map_map]
  refine List.map_congr_left fun k _ => ?_
  simp only [Function.comp]
  split <;> rfl

theorem follows_tell (qresync reportExpunges : Bool) (hsorted : (uidsOf messages).Pairwise (· < ·)) :
    Follows (uidsOf messages) (Session.tell qresync reportExpunges messages).2
      (uidsOf (Session.tell qresync reportExpunges messages).1) := by
  unfold Session.tell
  split
  · split
    · exact follows_vanished hsorted
    · exact follows_expungeLoop messages.length hsorted
  · rfl

/-- The messages that are new: their UIDs are above all the others. -/
theorem follows_new {state : ImapMessages}
    (hsorted : (uidsOf sel.messages).Pairwise (· < ·))
    (hstate : (state.messages.map (·.uid)).Pairwise (· < ·)) :
    Follows (uidsOf sel.messages)
      (if (Session.newIn state sel).isEmpty then []
        else [.exists_ (sel.messages ++ Session.newIn state sel).length
          ((Session.newIn state sel).map (·.uid))])
      (uidsOf (sel.messages ++ Session.newIn state sel)) := by
  have hnew : (Session.newIn state sel).map (·.uid) = (state.messages.filter fun m =>
      decide (sel.largestUid < m.uid.val)).map (·.uid) := by
    rw [Session.newIn, List.map_map]
    rfl
  split
  next hempty =>
    rw [List.isEmpty_iff.1 hempty, List.append_nil]
    rfl
  next =>
    refine .single ?_ ?_
    · have hlen : (uidsOf sel.messages).length + ((Session.newIn state sel).map (·.uid)).length =
          (sel.messages ++ Session.newIn state sel).length := by
        simp [uidsOf]
      simp only [apply]
      rw [if_pos hlen, uidsOf, uidsOf, List.map_append]
    · rw [uidsOf, List.map_append, List.pairwise_append]
      refine ⟨hsorted, ?_, ?_⟩
      · rw [hnew]
        exact hstate.sublist (List.filter_sublist.map _)
      · intro u hu v hv
        rw [hnew, List.mem_map] at hv
        obtain ⟨m, hm, rfl⟩ := hv
        have hlargest := of_decide_eq_true (List.mem_filter.1 hm).2
        exact Fin.lt_def.2 (lt_of_le_of_lt (le_largestUid hsorted hu) hlargest)

/-- **`refresh` and the client agree**: what is told of messages that went, of flags and of new
messages takes the client from what was known to what is known. -/
theorem follows_compare {state : ImapMessages} (qresync reportExpunges : Bool)
    (hsorted : (uidsOf sel.messages).Pairwise (· < ·))
    (hstate : (state.messages.map (·.uid)).Pairwise (· < ·)) :
    Follows (uidsOf sel.messages) (Session.compare qresync reportExpunges sel state).2
      (uidsOf (Session.compare qresync reportExpunges sel state).1) := by
  have hleft : Follows (uidsOf sel.messages)
      (Session.tell qresync reportExpunges (Session.mark state sel.messages)).2
      (uidsOf (Session.tell qresync reportExpunges (Session.mark state sel.messages)).1) := by
    rw [← uidsOf_mark state]
    exact follows_tell qresync reportExpunges (by rwa [uidsOf_mark])
  simp only [Session.compare]
  set left := Session.tell qresync reportExpunges (Session.mark state sel.messages)
  obtain ⟨hflagged, hquiet⟩ := flagLoop_quiet state.messages 0 left.1
  set flagged := Session.flagLoop state.messages 0 left.1
  have hchanges : Follows (uidsOf left.1) flagged.2 (uidsOf flagged.1) := by
    rw [hflagged]
    exact .quiet (hleft.sorted hsorted) hquiet
  refine (hleft.append hchanges).append ?_
  exact @follows_new { sel with messages := flagged.1 } _
    (hchanges.sorted (hleft.sorted hsorted)) hstate

end Lists

/-! ## 4. What the store answers -/

/-- No UID of the mailbox is too large for 32 bits. -/
def Narrow (db : Db) (mailbox : Int) : Prop :=
  ∀ r ∈ db.emailMailboxes, r.mailboxId = mailbox → ((asU32 r.uid).val : Int) = r.uid

instance (db : Db) (mailbox : Int) : Decidable (Narrow db mailbox) :=
  inferInstanceAs (Decidable (∀ r ∈ db.emailMailboxes, _))

section Answers

variable {ext : Externals} {db db' : Db}

theorem op_keeps (op : StoreOp) (hi : Intact db) (hu : Uids db) :
    Intact (op.run ext db) ∧ Uids (op.run ext db) :=
  ⟨(op.outcome hi ext).intact hi, (uids_runOps hi hu [op]).1⟩

theorem mem_byUid {mailbox : Int} {r : MembershipRow} :
    r ∈ db.byUid mailbox ↔ r ∈ db.emailMailboxes ∧ r.mailboxId = mailbox := by
  rw [Db.byUid, List.mem_insertionSort, List.mem_filter, beq_iff_eq]

/-- The messages of a mailbox come in UID order, no two with one UID. -/
theorem sorted_byUid (hi : Intact db) (hu : Uids db) {mailbox : Int} (hnarrow : Narrow db mailbox) :
    ((db.byUid mailbox).map fun r => asU32 r.uid).Pairwise (· < ·) := by
  rw [List.pairwise_map]
  have hle : (db.byUid mailbox).Pairwise fun a b => a.uid ≤ b.uid :=
    List.pairwise_insertionSort (fun a b : MembershipRow => a.uid ≤ b.uid) _
  have hnodup : (db.byUid mailbox).Pairwise fun a b => a ≠ b :=
    ((List.perm_insertionSort _ _).nodup_iff).2 (hi.keyed.member.nodup.filter _)
  refine (hle.and hnodup).imp_of_mem fun {a b} ha hb hab => ?_
  rw [mem_byUid] at ha hb
  have hne : a.uid ≠ b.uid := fun h => hab.2 (hu.member_eq hi.keyed ha.1 hb.1 (ha.2.trans hb.2.symm) h)
  have h₁ := hnarrow a ha.1 ha.2
  have h₂ := hnarrow b hb.1 hb.2
  have h₃ := hab.1
  rw [Fin.lt_def]
  omega

theorem imapMessages_sorted (hi : Intact db) (hu : Uids db) {account mailbox : Int}
    (hnarrow : Narrow db mailbox) {state : ImapMessages}
    (h : imapMessages db account mailbox = .ok state) :
    (state.messages.map (·.uid)).Pairwise (· < ·) := by
  obtain ⟨own, -, h⟩ := Tx.except_bind_ok h
  obtain ⟨modseq, -, h⟩ := Tx.except_bind_ok h
  split at h
  · cases h
  · cases h
    rw [List.map_map]
    exact sorted_byUid hi hu hnarrow

theorem mem_emailsByUid {mailbox : Int} {e : U32 × Int × Nat}
    (h : e ∈ emailsByUid db mailbox uids) : e.1 ∈ uids := by
  obtain ⟨uid, huid, h⟩ := List.mem_filterMap.1 h
  obtain ⟨r, -, rfl⟩ := Option.map_eq_some_iff.1 h
  exact SortedSet.mem_ofList.1 huid

theorem imapEmails_uids {account mailbox : Int} {emails : List ImapEmail}
    (h : imapEmails db account mailbox uids = .ok emails) : emails.map (·.uid) ⊆ uids := by
  obtain ⟨own, -, h⟩ := Tx.except_bind_ok h
  cases h
  intro u hu
  obtain ⟨e, he, rfl⟩ := List.mem_map.1 hu
  obtain ⟨entry, hentry, h⟩ := List.mem_filterMap.1 he
  obtain ⟨row, -, rfl⟩ := Option.map_eq_some_iff.1 h
  exact mem_emailsByUid hentry

/-- A write that ended well is what its statements answered. -/
theorem write_ok {α : Type} {account : Int} {f : TxM α} {v : α} (h : write account f db = (.ok v, db')) :
    ∃ tx, f.exec { db, batch := { accountId := account } } = (.ok v, tx) := by
  rcases write_cases account f db with ⟨e, h'⟩ | ⟨v', tx, hx, h'⟩
  · rw [h] at h'
    cases h'
  · rw [h] at h'
    cases h'
    exact ⟨tx, hx⟩

/-- A loop each turn of which answers with something of its element. -/
theorem exec_mapM_map {α β γ : Type} {f : α → TxM β} {g : β → γ} {k : α → γ}
    (hturn : ∀ a tx b tx', (f a).exec tx = (.ok b, tx') → g b = k a) {l : List α} {tx tx' : TxState}
    {bs : List β} (h : (l.mapM f).exec tx = (.ok bs, tx')) : bs.map g = l.map k := by
  have hends := Tx.Ends.mapM (f := f) (E := fun _ => True)
    (P := fun done bs (_ : TxState) => bs.map g = done.map k)
    (fun done bs a tx hdone => by
      unfold Tx.Ends
      split
      · next b tx' hb => simp [hdone, hturn a tx b tx' hb]
      · trivial) l [] [] (s := tx) rfl
  simpa using hends.ok h

/-- `imap_take_out` answers with the messages it was to take out. -/
theorem imapTakeOut_removed {account mailbox : Int} {uids : Option (List U32)} {onlyDeleted : Bool}
    {removed : List U32} (h : imapTakeOut ext account mailbox uids onlyDeleted db = (.ok removed, db')) :
    ∀ u ∈ removed, u ∈ (db.flagged mailbox onlyDeleted).map (·.1) ∧ ∀ l, uids = some l → u ∈ l := by
  obtain ⟨tx, h⟩ := write_ok h
  obtain ⟨tx₀, s₀, hget, h⟩ := Tx.exec_bind_ok h
  cases hget
  obtain ⟨own, s₁, -, h⟩ := Tx.exec_bind_ok h
  have hmap := exec_mapM_map (g := id) (k := fun e : U32 × Int × Nat => e.1) ?_ h
  · intro u hu
    rw [List.map_id] at hmap
    rw [hmap, List.mem_map] at hu
    obtain ⟨e, he, rfl⟩ := hu
    rw [List.mem_filter] at he
    refine ⟨List.mem_map_of_mem he.1, ?_⟩
    rintro l rfl
    exact List.contains_iff_mem.1 he.2
  · intro e tx b tx' hb
    unfold takeOut at hb
    split at hb
    · obtain ⟨u, s₁, hu, hb⟩ := Tx.exec_bind_ok hb
      cases hb
      rfl
    · obtain ⟨u, s₁, hu, hb⟩ := Tx.exec_bind_ok hb
      cases hb
      rfl

/-- `imap_copy` answers with pairs whose sources it was asked to copy. -/
theorem imapCopy_sources {account source target : Int} {removeSource : Bool}
    {pairs : List (U32 × U32)}
    (h : imapCopy ext account source uids target removeSource db = (.ok pairs, db')) :
    pairs.map (·.1) ⊆ uids := by
  obtain ⟨tx, h⟩ := write_ok h
  obtain ⟨tx₀, s₀, -, h⟩ := Tx.exec_bind_ok h
  obtain ⟨own, s₁, -, h⟩ := Tx.exec_bind_ok h
  obtain ⟨tx₁, s₂, -, h⟩ := Tx.exec_bind_ok h
  obtain ⟨own', s₃, -, h⟩ := Tx.exec_bind_ok h
  obtain ⟨tx₂, s₄, -, h⟩ := Tx.exec_bind_ok h
  have hmap := exec_mapM_map (g := fun p : U32 × U32 => p.1) (k := fun e : U32 × Int × Nat => e.1) ?_ h
  · rw [hmap]
    intro u hu
    obtain ⟨e, he, rfl⟩ := List.mem_map.1 hu
    exact mem_emailsByUid he
  · intro e tx b tx' hb
    unfold copyOne at hb
    split at hb
    · cases hb
      rfl
    · obtain ⟨tx₃, s₅, h₁, hb⟩ := Tx.exec_bind_ok hb
      extract_lets db₁ patch arrived at hb
      split at hb
      · obtain ⟨tx₄, s₇, h₃, hb⟩ := Tx.exec_bind_ok hb
        split at hb
        · cases hb
          rfl
        · cases hb
      · obtain ⟨u, s₆, h₂, hb⟩ := Tx.exec_bind_ok hb
        obtain ⟨tx₄, s₇, h₃, hb⟩ := Tx.exec_bind_ok hb
        split at hb
        · cases hb
          rfl
        · cases hb

end Answers

/-! ## 5. Tasks -/

/-- Whether a task names no messages that are to go. -/
def Task.plain : Task → Bool
  | .earlier _ _ | .load _ | .markSeen | .reload _ | .answer _ _ | .flags _ _ _ _ | .stored _ _ _
  | .check _ | .read _ => true
  | _ => false

/-- What a task needs: nothing is selected yet, or it names messages that are known. -/
def Task.Ok (qresync : Bool) (known : List U32) : Task → Prop
  | .opening _ _ _ => known = []
  | .opened _ _ _ state => known = [] ∧ (state.messages.map (·.uid)).Pairwise (· < ·)
  | .expunge (some uids) => uids ⊆ known
  | .copy uids _ _ _ => uids ⊆ known
  | .across left _ pairs _ _ => left.map (·.uid) ⊆ known ∧ pairs.map (·.1) ⊆ known
  | .copied pairs _ _ _ => pairs.map (·.1) ⊆ known
  | .remove moved => moved ⊆ known
  | .report uids => qresync = true → uids ⊆ known
  | _ => True

theorem Task.ok_of_plain {t : Task} (h : t.plain = true) (qresync : Bool) (known : List U32) :
    t.Ok qresync known := by
  cases t <;> trivial

/-- The tasks that are left: the first has what it needs, and the others need nothing. -/
def Session.Ready (ss : Session) : Prop :=
  ∀ t rest, ss.tasks = t :: rest → t.Ok ss.qresync ss.uids ∧ ∀ u ∈ rest, u.plain = true

/-- **The condition.**  `EXPUNGE` with QRESYNC on finds no message flagged `\Deleted` that the
session has not announced, and the UIDs that are read fit into 32 bits. -/
def Task.Announced (db : Db) (ss : Session) : Task → Prop
  | .expunge none => ss.qresync = true → ∀ sel ∈ ss.selected,
    ∀ m ∈ db.flagged sel.mailboxId true, m.1 ∈ ss.uids
  | .opening target _ _ => Narrow db target.mailboxId
  | .read _ => ∀ sel ∈ ss.selected, Narrow db sel.mailboxId
  | _ => True

instance (db : Db) (ss : Session) : (t : Task) → Decidable (t.Announced db ss)
  | .expunge none => inferInstanceAs (Decidable (_ → ∀ sel ∈ ss.selected, _))
  | .opening target _ _ => inferInstanceAs (Decidable (Narrow db target.mailboxId))
  | .read _ => inferInstanceAs (Decidable (∀ sel ∈ ss.selected, _))
  | .expunge (some _) | .opened .. | .earlier .. | .load _ | .markSeen | .reload _ | .answer ..
  | .flags .. | .stored .. | .copy .. | .across .. | .copied .. | .remove _ | .report _ | .check _ =>
    instDecidableTrue

/-- A task as it should end. -/
structure Turn (ss : Session) (r : Done) : Prop where
  intact : Intact r.1
  uids : Uids r.1
  follows : Follows ss.uids r.2.2 r.2.1.uids
  ready : r.2.1.Ready

section Turns

variable {ext : Externals} {input : Input} {db : Db} {ss : Session} {sel : Selected}

theorem Task.all_plain {t : Task} {tasks rest : List Task} (h : ∀ u ∈ tasks, u.plain = true)
    (htasks : tasks = t :: rest) (qresync : Bool) (known : List U32) :
    t.Ok qresync known ∧ ∀ u ∈ rest, u.plain = true := by
  refine ⟨t.ok_of_plain (h t ?_) _ _, fun u hu => h u ?_⟩
  · rw [htasks]
    exact List.mem_cons_self
  · rw [htasks]
    exact List.mem_cons_of_mem _ hu

theorem Session.Ready.of_plain (h : ∀ u ∈ ss.tasks, u.plain = true) : ss.Ready :=
  fun _ _ htasks => Task.all_plain h htasks _ _

theorem Turn.fail (hkept : Intact db ∧ Uids db) : Turn ss (db, ss.fail, []) :=
  ⟨hkept.1, hkept.2, rfl, by intro t rest h; cases h⟩

/-- A task that sends nothing new of messages, and leaves plain tasks. -/
theorem Turn.plain (hkept : Intact db ∧ Uids db) {ss' : Session} {out : List Response}
    (hsorted : ss.uids.Pairwise (· < ·)) (hout : ∀ r ∈ out, r.quiet = true) (huids : ss'.uids = ss.uids)
    (htasks : ∀ u ∈ ss'.tasks, u.plain = true) : Turn ss (db, ss', out) :=
  ⟨hkept.1, hkept.2, by rw [huids]; exact .quiet hsorted hout, .of_plain htasks⟩

/-- A task that has another one come before the rest. -/
theorem Turn.next (hkept : Intact db ∧ Uids db) {ss' : Session} {t : Task}
    (hsel : ss'.selected = ss.selected) (hqresync : ss'.qresync = ss.qresync) {rest : List Task}
    (hnext : ss'.tasks = t :: rest) (ht : t.Ok ss.qresync ss.uids)
    (hrest : ∀ u ∈ rest, u.plain = true) : Turn ss (db, ss', []) := by
  have huids : ss'.uids = ss.uids := by rw [Session.uids, Session.uids, hsel]
  refine ⟨hkept.1, hkept.2, ?_, ?_⟩
  · rw [huids]
    rfl
  · intro t' rest h
    rw [hnext] at h
    cases h
    rw [hqresync, huids]
    exact ⟨ht, hrest⟩

theorem uids_selected (hsel : ss.selected = some sel) : ss.uids = uidsOf sel.messages := by
  rw [Session.uids, hsel]
  rfl

theorem turn_report (hkept : Intact db ∧ Uids db) (hsel : ss.selected = some sel)
    (hsorted : ss.uids.Pairwise (· < ·)) (htasks : ∀ u ∈ ss.tasks, u.plain = true)
    (hok : ss.qresync = true → uids ⊆ ss.uids) : Turn ss ((Task.report uids).run ext input db ss) := by
  simp only [Task.run, hsel]
  rw [uids_selected hsel] at hsorted hok
  split
  · exact ⟨hkept.1, hkept.2, rfl, .of_plain htasks⟩
  · refine ⟨hkept.1, hkept.2, ?_, .of_plain htasks⟩
    show Follows ss.uids _ (uidsOf (sel.forget uids).2.messages)
    rw [uids_selected hsel]
    split
    next hq => exact follows_forget_vanished hsorted (hok hq)
    next => exact follows_forget_expunges hsorted uids

theorem turn_read (hkept : Intact db ∧ Uids db) (hsel : ss.selected = some sel)
    (hsorted : ss.uids.Pairwise (· < ·)) (htasks : ∀ u ∈ ss.tasks, u.plain = true)
    (hnarrow : Narrow db sel.mailboxId) (reportExpunges : Bool) :
    Turn ss ((Task.read reportExpunges).run ext input db ss) := by
  have hbye : ∀ text, Turn ss (db, { ss.fail with selected := none }, [.bye text]) := fun text =>
    ⟨hkept.1, hkept.2, .single rfl List.Pairwise.nil, by intro t rest h; cases h⟩
  simp only [Task.run, hsel]
  rw [uids_selected hsel] at hsorted
  split
  next state hstate =>
    split
    · exact hbye _
    · refine ⟨hkept.1, hkept.2, ?_, .of_plain htasks⟩
      rw [uids_selected hsel]
      exact follows_compare ss.qresync reportExpunges hsorted
        (imapMessages_sorted hkept.1 hkept.2 hnarrow hstate)
  next => exact hbye _
  next => exact .fail hkept

theorem turn_opened (hkept : Intact db ∧ Uids db) (hnone : ss.uids = [])
    (htasks : ∀ u ∈ ss.tasks, u.plain = true) {target : Target} {readOnly : Bool}
    {qresync : Option QresyncParams} {state : ImapMessages}
    (hok : (state.messages.map (·.uid)).Pairwise (· < ·)) :
    Turn ss ((Task.opened target readOnly qresync state).run ext input db ss) := by
  have huids : uidsOf (state.messages.map Session.newKnown) = state.messages.map (·.uid) := by
    rw [uidsOf, List.map_map]
    rfl
  have hexists : Follows ss.uids [.exists_ state.messages.length (state.messages.map (·.uid))]
      (uidsOf (state.messages.map Session.newKnown)) := by
    rw [hnone, huids]
    refine .single ?_ hok
    simp only [apply]
    rw [if_pos (by simp), List.nil_append]
  simp only [Task.run]
  split
  · exact ⟨hkept.1, hkept.2, hexists, .of_plain htasks⟩
  · split
    · exact .fail hkept
    · refine ⟨hkept.1, hkept.2, ?_, .of_plain htasks⟩
      rw [List.append_assoc]
      refine hexists.append (.quiet (huids ▸ hok) ?_)
      intro r hr
      rcases List.mem_append.1 hr with hr | hr
      · split at hr
        · cases hr
        · rw [List.mem_singleton.1 hr]
          rfl
      · obtain ⟨e, -, rfl⟩ := List.mem_map.1 hr
        rfl

theorem uids_withMessages (sel : Selected) (messages : List Known) :
    (ss.withMessages sel messages).uids = uidsOf messages := rfl

theorem turn_opening (hkept : Intact db ∧ Uids db) (hnone : ss.uids = [])
    (htasks : ∀ u ∈ ss.tasks, u.plain = true) {target : Target} {readOnly : Bool}
    {qresync : Option QresyncParams} (hnarrow : Narrow db target.mailboxId) :
    Turn ss ((Task.opening target readOnly qresync).run ext input db ss) := by
  simp only [Task.run]
  split
  next state hstate =>
    exact .next hkept rfl rfl rfl ⟨hnone, imapMessages_sorted hkept.1 hkept.2 hnarrow hstate⟩ htasks
  next => exact .fail hkept

/-- What a task on the selected mailbox begins with. -/
structure Going (db : Db) (ss : Session) (sel : Selected) : Prop where
  kept : Intact db ∧ Uids db
  selected : ss.selected = some sel
  sorted : ss.uids.Pairwise (· < ·)
  plain : ∀ u ∈ ss.tasks, u.plain = true

theorem Going.keeps (h : Going db ss sel) (ext : Externals) (op : StoreOp) :
    Intact (op.run ext db) ∧ Uids (op.run ext db) := op_keeps op h.kept.1 h.kept.2

theorem Going.markSeen (h : Going db ss sel) : Turn ss (Task.markSeen.run ext input db ss) := by
  simp only [Task.run, h.selected]
  split
  · exact .plain h.kept h.sorted (by simp) rfl h.plain
  · have hdone := h.keeps ext (.imapStoreFlags sel.owner sel.mailboxId
      ((ss.emails.filter fun e => !e.keywords.contains "$seen").map (·.uid)) (.add ["$seen"]) none)
    simp only [StoreOp.run] at hdone
    split
    next heq => rw [heq] at hdone; exact .fail hdone
    next heq => rw [heq] at hdone; exact .next hdone h.selected.symm rfl rfl trivial h.plain

theorem Going.flags (h : Going db ss sel) {targets change unchangedSince silent} :
    Turn ss ((Task.flags targets change unchangedSince silent).run ext input db ss) := by
  simp only [Task.run, h.selected]
  have hdone := h.keeps ext (.imapStoreFlags sel.owner sel.mailboxId (targets.map (·.2)) change unchangedSince)
  simp only [StoreOp.run] at hdone
  split
  next heq => rw [heq] at hdone; exact .fail hdone
  next heq =>
    rw [heq] at hdone
    refine .plain hdone h.sorted (by simp) (uids_selected h.selected).symm ?_
    intro u hu
    rcases List.mem_cons.1 hu with rfl | hu
    · rfl
    · rcases List.mem_cons.1 hu with rfl | hu
      · rfl
      · exact h.plain u hu

theorem Going.expunge (h : Going db ss sel) {uids} (hok : (Task.expunge uids).Ok ss.qresync ss.uids)
    (hann : (Task.expunge uids).Announced db ss) : Turn ss ((Task.expunge uids).run ext input db ss) := by
  simp only [Task.run, h.selected]
  have hdone := h.keeps ext (.imapExpunge sel.owner sel.mailboxId uids)
  simp only [StoreOp.run] at hdone
  split
  next heq => rw [heq] at hdone; exact .fail hdone
  next removed db' heq =>
    rw [heq] at hdone
    refine .next hdone h.selected.symm rfl rfl (fun hq u hu => ?_) h.plain
    have hremoved := imapTakeOut_removed heq u hu
    cases uids with
    | none =>
      obtain ⟨m, hm, rfl⟩ := List.mem_map.1 hremoved.1
      exact hann hq sel h.selected m hm
    | some l => exact hok (hremoved.2 l rfl)

theorem Going.copy (h : Going db ss sel) {uids target removeSource uid} (hok : uids ⊆ ss.uids) :
    Turn ss ((Task.copy uids target removeSource uid).run ext input db ss) := by
  simp only [Task.run, h.selected]
  split
  · have hdone := h.keeps ext (.imapCopy sel.owner sel.mailboxId uids target.mailboxId removeSource)
    simp only [StoreOp.run] at hdone
    split
    next heq => rw [heq] at hdone; exact .fail hdone
    next pairs db' heq =>
      rw [heq] at hdone
      exact .next hdone h.selected.symm rfl rfl (fun u hu => hok (imapCopy_sources heq hu)) h.plain
  · split
    · exact .fail h.kept
    next emails heq =>
      exact .next h.kept h.selected.symm rfl rfl ⟨fun u hu => hok (imapEmails_uids heq hu), by simp⟩ h.plain

theorem Going.across (h : Going db ss sel) {left target pairs removeSource uid}
    (hok : (Task.across left target pairs removeSource uid).Ok ss.qresync ss.uids) :
    Turn ss ((Task.across left target pairs removeSource uid).run ext input db ss) := by
  cases left with
  | nil =>
    simp only [Task.run, h.selected]
    exact .next h.kept h.selected.symm rfl rfl hok.2 h.plain
  | cons email left =>
    simp only [Task.run, h.selected]
    have hdone := h.keeps ext (.ingest ⟨target.owner, input.raw, [.id target.mailboxId],
      email.keywords.filter (maySetKeyword target.rights), some email.receivedAt⟩ input.delivered input.now)
    simp only [StoreOp.run] at hdone
    split
    next heq => rw [heq] at hdone; exact .fail hdone
    next ingested db' heq =>
      rw [heq] at hdone
      obtain ⟨hleft, hpairs⟩ := hok
      rw [List.map_cons, List.cons_subset] at hleft
      refine .next hdone h.selected.symm rfl rfl ⟨hleft.2, fun u hu => ?_⟩ h.plain
      rw [List.map_append, List.mem_append] at hu
      rcases hu with hu | hu
      · exact hpairs hu
      · rw [List.map_singleton, List.mem_singleton] at hu
        rw [hu]
        exact hleft.1

theorem Going.copied (h : Going db ss sel) {pairs target removeSource uid}
    (hok : (Task.copied pairs target removeSource uid).Ok ss.qresync ss.uids) :
    Turn ss ((Task.copied pairs target removeSource uid).run ext input db ss) := by
  simp only [Task.run, h.selected]
  have hrest : ∀ u ∈ Task.check true :: ss.tasks, u.plain = true := by
    intro u hu
    rcases List.mem_cons.1 hu with rfl | hu
    · rfl
    · exact h.plain u hu
  split
  · exact .next h.kept h.selected.symm rfl rfl trivial h.plain
  · split
    · exact .next h.kept h.selected.symm rfl rfl trivial h.plain
    · split
      · exact .next h.kept h.selected.symm rfl rfl (fun _ => hok) hrest
      · exact .next h.kept h.selected.symm rfl rfl hok hrest

theorem Going.remove (h : Going db ss sel) {moved} (hok : moved ⊆ ss.uids) :
    Turn ss ((Task.remove moved).run ext input db ss) := by
  simp only [Task.run, h.selected]
  have hdone := h.keeps ext (.imapRemove sel.owner sel.mailboxId moved)
  simp only [StoreOp.run] at hdone
  split
  next heq => rw [heq] at hdone; exact .fail hdone
  next heq => rw [heq] at hdone; exact .next hdone h.selected.symm rfl rfl (fun _ => hok) h.plain

/-- Every task ends as it should, where it has what it needs. -/
theorem Task.turn (t : Task) (hkept : Intact db ∧ Uids db) (hsorted : ss.uids.Pairwise (· < ·))
    (hok : t.Ok ss.qresync ss.uids) (htasks : ∀ u ∈ ss.tasks, u.plain = true)
    (hann : t.Announced db ss) : Turn ss (t.run ext input db ss) := by
  cases hsel : ss.selected with
  | none =>
    cases t with
    | opening target readOnly qresync => exact turn_opening hkept hok htasks hann
    | opened target readOnly qresync state => exact turn_opened hkept hok.1 htasks hok.2
    | _ =>
      simp only [run, hsel]
      exact .fail hkept
  | some sel =>
    have h : Going db ss sel := ⟨hkept, hsel, hsorted, htasks⟩
    have huids := uids_selected hsel
    cases t with
    | opening target readOnly qresync => exact turn_opening hkept hok htasks hann
    | opened target readOnly qresync state => exact turn_opened hkept hok.1 htasks hok.2
    | earlier since set =>
      simp only [run, hsel]
      split
      · exact .fail hkept
      · refine .plain hkept hsorted (fun r hr => ?_) rfl htasks
        split at hr
        · cases hr
        · rw [List.mem_singleton.1 hr]
          rfl
    | load uids | reload uids =>
      simp only [run, hsel]
      split
      · exact .fail hkept
      · exact .plain hkept hsorted (by simp) huids.symm htasks
    | markSeen => exact h.markSeen
    | answer targets changedSince =>
      obtain ⟨hmessages, hquiet⟩ := answers_quiet ss.emails changedSince targets sel.messages
      simp only [run, hsel]
      refine .plain hkept hsorted hquiet ?_ htasks
      rw [uids_withMessages, hmessages, huids]
    | flags targets change unchangedSince silent => exact h.flags
    | stored targets skipped silent =>
      obtain ⟨hmessages, hquiet⟩ :=
        storedAnswers_quiet ss.emails skipped silent ss.condstore targets sel.messages
      simp only [run, hsel]
      refine .plain hkept hsorted hquiet ?_ htasks
      rw [uids_withMessages, hmessages, huids]
    | expunge uids => exact h.expunge hok hann
    | copy uids target removeSource uid => exact h.copy hok
    | across left target pairs removeSource uid => exact h.across hok
    | copied pairs target removeSource uid => exact h.copied hok
    | remove moved => exact h.remove hok
    | report uids => exact turn_report hkept hsel hsorted htasks hok
    | check reportExpunges =>
      simp only [run, hsel]
      split
      · exact .plain hkept hsorted (by simp) rfl htasks
      · exact .next hkept hsel.symm rfl rfl trivial htasks
    | read reportExpunges => exact turn_read hkept hsel hsorted htasks (hann sel hsel) reportExpunges

end Turns

/-! ## 6. Runs -/

/-- The client's list is the session's, and the tasks that are left have what they need. -/
structure Mirrors (s : System) : Prop where
  intact : Intact s.db
  uids : Uids s.db
  follows : Follows [] s.sent s.session.uids
  ready : s.session.Ready

/-- The condition, on a step of the system. -/
def Announced (s : System) : Event → Prop
  | .go _ => ∀ t ∈ s.session.tasks.head?, t.Announced s.db s.session
  | _ => True

instance (s : System) : (e : Event) → Decidable (Announced s e)
  | .go _ => inferInstanceAs (Decidable (∀ t ∈ s.session.tasks.head?, _))
  | .other _ | .enable .. | .select .. | .fetch .. | .store .. | .expunge _ | .copy .. | .refresh _
  | .recheck _ | .abort => instDecidableTrue

section Runs

variable {ext : Externals} {s s' : System} {sel : Selected}

theorem Mirrors.sorted (h : Mirrors s) : s.session.uids.Pairwise (· < ·) :=
  h.follows.sorted List.Pairwise.nil

theorem targets_known (sel : Selected) (set : SequenceSet) (uid : Bool) :
    (sel.targets set uid).map (·.2) ⊆ uidsOf sel.messages := by
  intro u hu
  obtain ⟨⟨index, u'⟩, hmem, rfl⟩ := List.mem_map.1 hu
  obtain ⟨i, -, hi⟩ := List.mem_filterMap.1 hmem
  split at hi
  next k hk =>
    split at hi
    · cases hi
    · cases hi
      exact List.mem_map.2 ⟨k, List.mem_of_getElem? hk, rfl⟩
  next => cases hi

/-- The tasks of a command: the first names messages that are known, the others none. -/
theorem Selected.tasks_ok (sel : Selected) (e : Event) (qresync : Bool) {t : Task} {rest : List Task}
    (h : sel.tasks e = t :: rest) :
    t.Ok qresync (uidsOf sel.messages) ∧ ∀ u ∈ rest, u.plain = true := by
  cases e with
  | fetch uid set marksSeen modseq changedSince vanished =>
    refine Task.all_plain (fun u hu => ?_) h _ _
    simp only [Selected.tasks, List.mem_append, List.mem_cons, List.not_mem_nil, or_false] at hu
    rcases hu with ((hu | rfl) | hu) | rfl | rfl
    · split at hu
      · obtain ⟨since, -, rfl⟩ := List.mem_map.1 hu
        rfl
      · cases hu
    · rfl
    · split at hu
      · rw [List.mem_singleton.1 hu]
        rfl
      · cases hu
    · rfl
    · rfl
  | store uid set unchangedSince change silent =>
    refine Task.all_plain (fun u hu => ?_) h _ _
    simp only [Selected.tasks] at hu
    split at hu
    · cases hu
    · simp only [List.mem_cons, List.not_mem_nil, or_false] at hu
      rcases hu with rfl | rfl <;> rfl
  | expunge uids =>
    simp only [Selected.tasks] at h
    split at h
    · cases h
    · cases h
      refine ⟨?_, by simp [Task.plain]⟩
      cases uids with
      | none => trivial
      | some set => exact fun u hu => (List.mem_filter.1 hu).1
  | copy uid set target removeSource =>
    cases target with
    | none => cases h
    | some target =>
      simp only [Selected.tasks] at h
      split at h
      · cases h
      · split at h
        · cases h
        · cases h
          exact ⟨targets_known sel set uid, by simp⟩
  | refresh reportExpunges =>
    cases h
    exact ⟨trivial, by simp⟩
  | _ => cases h

/-- The database changes, and the session does not. -/
theorem Mirrors.other (h : Mirrors s) (op : StoreOp) : Mirrors { s with db := op.run ext s.db } :=
  ⟨(op_keeps op h.intact h.uids).1, (op_keeps op h.intact h.uids).2, h.follows, h.ready⟩

/-- The session changes what does not concern messages, and has nothing left to do. -/
theorem Mirrors.session (h : Mirrors s) {ss : Session} (huids : ss.uids = s.session.uids)
    (hready : ss.Ready) : Mirrors { s with session := ss } := by
  refine ⟨h.intact, h.uids, ?_, hready⟩
  show Follows [] s.sent ss.uids
  rw [huids]
  exact h.follows

/-- Nothing is selected any more, and the client is told. -/
theorem Mirrors.deselect (h : Mirrors s) {ss : Session} {r : Response} (hsel : ss.selected = none)
    (hr : ∀ l, apply l r = some []) (hready : ss.Ready) :
    Mirrors { s with session := ss, sent := s.sent ++ [r] } := by
  refine ⟨h.intact, h.uids, ?_, hready⟩
  have huids : ss.uids = [] := by
    rw [Session.uids, hsel]
    rfl
  show Follows [] (s.sent ++ [r]) ss.uids
  rw [huids]
  exact h.follows.append (.single (hr _) List.Pairwise.nil)

theorem Session.Ready.of_nil {ss : Session} (h : ss.tasks = []) : ss.Ready := by
  refine .of_plain ?_
  rw [h]
  simp

/-- A command of the client on the selected mailbox. -/
theorem Mirrors.command (h : Mirrors s) (hsel : s.session.selected = some sel) (e : Event)
    (condstore : Bool) : Mirrors { s with session := { s.session with
      condstore := condstore, emails := [], tasks := sel.tasks e } } := by
  refine h.session rfl ?_
  intro t rest htasks
  have huids : s.session.uids = uidsOf sel.messages := uids_selected hsel
  show t.Ok s.session.qresync s.session.uids ∧ _
  rw [huids]
  exact sel.tasks_ok e _ htasks

theorem Mirrors.step {e : Event} (h : Mirrors s) (hann : Announced s e)
    (hstep : step ext s e = some s') : Mirrors s' := by
  cases e with
  | other op =>
    cases hstep
    exact h.other op
  | go input =>
    simp only [Imap.step] at hstep
    split at hstep
    · cases hstep
    next t rest htasks =>
      cases hstep
      obtain ⟨hok, hrest⟩ := h.ready t rest htasks
      have hturn : Turn { s.session with tasks := rest }
          (t.run ext input s.db { s.session with tasks := rest }) :=
        t.turn ⟨h.intact, h.uids⟩ h.sorted hok hrest (hann t (by rw [htasks]; rfl))
      exact ⟨hturn.intact, hturn.uids, h.follows.append hturn.follows, hturn.ready⟩
  | abort =>
    simp only [Imap.step] at hstep
    split at hstep
    · cases hstep
    · cases hstep
      exact h.session rfl (.of_nil rfl)
  | enable condstore qresync rev2 =>
    simp only [Imap.step] at hstep
    split at hstep
    next htasks =>
      cases hstep
      exact h.session rfl (.of_nil htasks)
    · cases hstep
  | select target readOnly condstore qresync =>
    simp only [Imap.step] at hstep
    split at hstep
    next htasks =>
      cases hstep
      refine h.deselect rfl (fun l => rfl) ?_
      intro t rest hnext
      split at hnext
      · split at hnext
        · cases hnext
          exact ⟨rfl, by simp⟩
        · cases hnext
      · cases hnext
    · cases hstep
  | recheck rights =>
    simp only [Imap.step] at hstep
    split at hstep
    next sel htasks hsel =>
      split at hstep
      · cases hstep
        exact h
      · split at hstep
        · cases hstep
          refine h.session ?_ (.of_nil htasks)
          exact (uids_selected hsel).symm
        · cases hstep
          exact h.deselect rfl (fun l => rfl) (.of_nil htasks)
    · cases hstep
  | _ =>
    simp only [Imap.step] at hstep
    split at hstep
    next sel htasks hsel =>
      cases hstep
      exact h.command hsel _ _
    · cases hstep
      exact h
    · cases hstep

theorem mirrors_start (me : Int) : Mirrors (System.start me) :=
  ⟨Intact.empty, Uids.empty, rfl, .of_nil rfl⟩

/-- **The client sees what the session has.**  In every run, with anybody's operations between the
steps of the session, the client that applies what it was sent has the UIDs of `Selected.messages`
at the same numbers, in UID order, and this is so after every single response on the way.  No
response names a message the client was not told of, or it would be stuck. -/
theorem client_mirrors_session (ext : Externals) (me : Int) (events : List Event) (s : System)
    (hann : Along (step ext) Announced (System.start me) events)
    (hrun : run (step ext) (System.start me) events = some s) :
    client s.sent = some s.session.uids ∧ s.session.uids.Pairwise (· < ·) ∧
      ∀ rs rest, s.sent = rs ++ rest → ∃ l, client rs = some l ∧ l.Pairwise (· < ·) := by
  have h : Mirrors s := run_invariant (fun _ _ _ h hok hstep => h.step hok hstep) (mirrors_start me)
    hann hrun
  refine ⟨h.follows.foldlM_eq, h.sorted, ?_⟩
  intro rs rest hsent
  have hfollows := h.follows
  rw [hsent] at hfollows
  obtain ⟨l, hl, -⟩ := hfollows.split
  exact ⟨l, hl.foldlM_eq, hl.sorted List.Pairwise.nil⟩

end Runs

/-- The owner, with every right in the inbox. -/
def ownInbox : Target := ⟨1, 1, "lrswipkxtea"⟩

/-- A message that comes in flagged `\Deleted`. -/
def flaggedMail : StoreOp := .ingest ⟨1, [], [.id 1], ["$deleted"], none⟩ false 0

/-- The session selects the inbox, with QRESYNC, and a message comes in. -/
def opening : List Event :=
  [.other (.createAccount ⟨"ada", false, 0, true⟩ 0), .enable false true false,
    .select (some ownInbox) false false none, .go {}, .go {}, .other flaggedMail]

/-- A message comes in, the session is told of it, and expunges it. -/
def announcedRun : List Event :=
  opening ++ [.refresh false, .go {}, .go {}, .expunge none, .go {}, .go {}]

/-- The same, and the session is not told. -/
def unannouncedRun : List Event := opening ++ [.expunge none, .go {}, .go {}]

theorem client_mirrors_expunge :
    Along (step plainExternals) Announced (System.start 1) announcedRun ∧
      ∃ s, run (step plainExternals) (System.start 1) announcedRun = some s ∧
        s.sent = [.closed, .exists_ 0 [], .exists_ 1 [1], .vanished [1]] ∧
        client s.sent = some s.session.uids := by
  have hann : Along (step plainExternals) Announced (System.start 1) announcedRun := by
    decide +kernel
  have hsent : (run (step plainExternals) (System.start 1) announcedRun).map (·.sent) =
      some [.closed, .exists_ 0 [], .exists_ 1 [1], .vanished [1]] := by
    decide +kernel
  obtain ⟨s, hrun, hs⟩ := Option.map_eq_some_iff.1 hsent
  exact ⟨hann, s, hrun, hs, (client_mirrors_session plainExternals 1 announcedRun s hann hrun).1⟩

/-- **VANISHED names a message the client was never told of**: `EXPUNGE` takes out what is flagged
`\Deleted` in the mailbox by then, and under QRESYNC all of it is reported. -/
theorem expunge_names_unannounced :
    ∃ s, run (step plainExternals) (System.start 1) unannouncedRun = some s ∧
      s.sent = [.closed, .exists_ 0 [], .vanished [1]] ∧ client s.sent = none := by
  have hsent : (run (step plainExternals) (System.start 1) unannouncedRun).map (·.sent) =
      some [.closed, .exists_ 0 [], .vanished [1]] := by
    decide +kernel
  obtain ⟨s, hrun, hs⟩ := Option.map_eq_some_iff.1 hsent
  refine ⟨s, hrun, hs, ?_⟩
  rw [hs]
  decide

end UwuMail.Imap
