/-
# What goes out for a held message

The rest of the law of held mail: nothing goes out twice (`Once`), and nothing goes out for a login
that ended (`Sound`).

The second part does not hold of every order of events (`held_mail_fails`).  `cancel_held` stops the
rows that exist when a login ends, and taking a row asks again only for app passwords, OAuth apps
and the account itself.  A row written after the password changed is sent all the same, and so is
one written while its account was disabled for a moment.  Under `Safe`, which rules these out step
by step, the law holds (`held_mail_when`).
-/
import UwuMail.Jmap.Scheduled

namespace UwuMail.Held

open Store (StoreError)
open Table

variable {w w' : World} {e : Event}

/-! ## 1. Nothing goes out twice -/

/-- What the loop took and did not hand over yet. -/
def World.coming (w : World) : List Claimed := if w.outcome.isSome then w.batch.tail else w.batch

/-- What was handed over and what is coming are different submissions, and one that was handed over
and still has its message is the one being recorded. -/
structure Once (w : World) : Prop where
  inv : Inv w
  at_one : w.outcome.isSome → w.batch ≠ []
  nodup : ((w.handed ++ w.coming).map fun c => c.held.id).Nodup
  recording : ∀ c ∈ w.handed, ∀ s ∈ w.db.submissions, s.id = c.held.id → s.heldBlob.isSome →
    w.outcome.isSome ∧ w.batch.head?.map (fun d => d.held.id) = some s.id

/-- A step that leaves the loop alone. -/
theorem Once.of_same (hw : Once w) (hdid : Did w w') (hbatch : w'.batch = w.batch)
    (houtcome : w'.outcome = w.outcome) (hhanded : w'.handed = w.handed) : Once w' := by
  refine ⟨hw.inv.did hdid, ?_, ?_, ?_⟩
  · rw [houtcome, hbatch]
    exact hw.at_one
  · unfold World.coming
    rw [houtcome, hbatch, hhanded]
    exact hw.nodup
  · rw [houtcome, hbatch, hhanded]
    intro c hc s' hs' hid hheld
    rcases hdid.rows.old s' hs' with ⟨s, hs, hev⟩ | ⟨hnew, -⟩
    · rw [hev.id]
      exact hw.recording c hc s hs (hev.id ▸ hid) (hev.held_of_isSome hheld)
    · -- A new row has an id nothing was handed over under.
      have := (hw.inv.taken c (Or.inr hc)).1
      omega

theorem once_claim {now : Int} {limit : Nat} (hw : Once w) (hempty : w.batch = []) :
    Once { w with
      db := (claimDueSubmissions now limit w.db).2
      batch := (claimDueSubmissions now limit w.db).1.map fun h => ⟨h, decide (h.id ∈ w.ended)⟩ } := by
  obtain ⟨hrows, -, hnodup, htaken⟩ := @claim_spec _ now limit hw.inv.unique
  have hnone : w.outcome.isSome = false := by
    by_contra h
    exact hw.at_one (Bool.eq_true_of_not_eq_false h) hempty
  have hdone : ∀ c ∈ w.handed, ∀ s ∈ w.db.submissions, s.id = c.held.id → ¬ s.heldBlob.isSome := by
    intro c hc s hs hid hheld
    have := (hw.recording c hc s hs hid hheld).1
    rw [hnone] at this
    cases this
  refine ⟨hw.inv.did (did_claim hw.inv.unique), ?_, ?_, ?_⟩
  · simp [hnone]
  · have hold : (w.handed.map fun c => c.held.id).Nodup := by
      have := hw.nodup
      rw [List.map_append, List.nodup_append] at this
      exact this.1
    simp only [World.coming, hnone, Bool.false_eq_true, if_false, List.map_append, List.map_map]
    rw [List.nodup_append]
    refine ⟨hold, hnodup, ?_⟩
    intro id hid id' hid' heq
    subst heq
    obtain ⟨c, hc, rfl⟩ := List.mem_map.1 hid
    obtain ⟨h, hh, hhid⟩ := List.mem_map.1 hid'
    obtain ⟨⟨s, hs, hsid, hheld, -⟩, -⟩ := htaken h hh
    exact hdone c hc s hs (hsid.trans hhid) hheld
  · intro c hc s' hs' hid hheld
    obtain ⟨s, hs, hev⟩ := hrows.from hs'
    exact absurd (hev.held_of_isSome hheld) (hdone c hc s hs (hev.id ▸ hid))

theorem once_send {c : Claimed} {batch : List Claimed} {readable : Except String PUnit}
    {submitted : Outcome} (hw : Once w) (hbatch : w.batch = c :: batch) (hnone : w.outcome = none) :
    Once (w.sendHeld c readable submitted) := by
  have hdid := @did_send _ _ _ readable submitted hbatch
  obtain ⟨outcome, handed, heq, hhanded⟩ := sendHeld_spec (w := w) c readable submitted
  rw [heq] at hdid ⊢
  have hnodup := hw.nodup
  simp only [World.coming, hnone, hbatch, Option.isSome_none, Bool.false_eq_true, if_false] at hnodup
  have hmoved : ((c :: (w.handed ++ batch)).map fun c => c.held.id).Nodup :=
    (List.perm_middle.map _).nodup_iff.1 hnodup
  have hrecording : ∀ d ∈ w.handed, ∀ s ∈ w.db.submissions, s.id = d.held.id → ¬ s.heldBlob.isSome := by
    intro d hd s hs hid hheld
    have := (hw.recording d hd s hs hid hheld).1
    rw [hnone] at this
    cases this
  refine ⟨hw.inv.did hdid, by simp [hbatch], ?_, ?_⟩
  · simp only [World.coming, Option.isSome_some, if_true, hbatch, List.tail_cons]
    rcases hhanded with rfl | rfl
    · exact (List.nodup_cons.1 hmoved).2
    · exact hmoved
  · intro d hd s hs hid hheld
    refine ⟨rfl, ?_⟩
    rcases hhanded with rfl | rfl
    · exact absurd hheld (hrecording d hd s hs hid)
    · rcases List.mem_cons.1 hd with rfl | hd
      · simp [hbatch, hid]
      · exact absurd hheld (hrecording d hd s hs hid)

theorem once_finish {c : Claimed} {batch : List Claimed} {queued : Option Int} {error : Option String}
    (hw : Once w) (hbatch : w.batch = c :: batch) (hsome : w.outcome.isSome) :
    Once { w with
      db := finishHeldSubmission c.held.id queued error w.db
      batch
      outcome := none } := by
  have hnodup := hw.nodup
  simp only [World.coming, hsome, if_true, hbatch, List.tail_cons] at hnodup
  refine ⟨hw.inv.did (did_finish hbatch (evolve_finish _ _ _ _) (.of_submissions _)), by simp, ?_, ?_⟩
  · simpa [World.coming] using hnodup
  · intro d hd s' hs' hid hheld
    obtain ⟨s, hs, hrow⟩ := mem_updateWhere.1 hs'
    split at hrow
    · rw [← hrow] at hheld
      cases hheld
    · -- Only the row at the head could still have its message.
      rename_i hne
      subst hrow
      have hhead := (hw.recording d hd s hs hid hheld).2
      simp only [hbatch, List.head?_cons, Option.map_some, Option.some.injEq] at hhead
      simp [hhead] at hne

/-- A step after which nothing is taken again. -/
theorem once_step (hw : Once w) (hloses : e.loses = false) (h : step w e = some w') : Once w' := by
  have hdid := did_step hw.inv.unique h
  cases e with
  | claim now limit =>
    simp only [step] at h
    split at h
    · rename_i hempty
      cases h
      exact once_claim hw (List.isEmpty_iff.1 hempty)
    · cases h
  | send readable submitted =>
    simp only [step] at h
    split at h
    · rename_i hbatch hnone
      cases h
      exact once_send hw hbatch hnone
    · cases h
  | finish recorded =>
    simp only [Event.loses, Bool.not_eq_false'] at hloses
    subst hloses
    simp only [step] at h
    split at h
    · rename_i hbatch hsome
      cases h
      exact once_finish hw hbatch (by rw [hsome]; rfl)
    · cases h
  | restart => cases hloses
  | check accountId credential =>
    simp only [step] at h
    split at h
    · cases h
      exact hw.of_same hdid rfl rfl rfl
    · cases h
  | hold i identityId emailId threadId envelope sendAt blob =>
    simp only [step, Option.bind_eq_bind, Option.bind_eq_some_iff] at h
    obtain ⟨q, -, ⟨id, db⟩, -, h⟩ := h
    cases h
    exact hw.of_same hdid rfl rfl rfl
  | setDisabled accountId disabled =>
    simp only [step, Option.map_eq_some_iff] at h
    obtain ⟨db, -, rfl⟩ := h
    cases disabled with
    | true => exact hw.of_same hdid rfl rfl rfl
    | false => exact hw.of_same hdid rfl rfl rfl
  | createAppPassword accountId | createOauthGrant accountId =>
    simp only [step] at h
    cases h
    exact hw.of_same hdid rfl rfl rfl
  | cancel accountId id | destroy accountId id | revokeAppPassword accountId id
  | revokeOauthGrant accountId id | changePassword accountId keep | trash now accountId
  | restore accountId =>
    simp only [step, Option.map_eq_some_iff] at h
    obtain ⟨db, -, rfl⟩ := h
    exact hw.of_same hdid rfl rfl rfl

theorem once_run {es : List Event} (hw : Once w) (hloses : ∀ e ∈ es, e.loses = false)
    (h : Trace.run step w es = some w') : Once w' := by
  induction es generalizing w with
  | nil =>
    cases h
    exact hw
  | cons e es ih =>
    obtain ⟨w₁, hstep, hrun⟩ := Trace.run_cons_eq_some.1 h
    exact ih (once_step hw (hloses e List.mem_cons_self) hstep)
      (fun e' he' => hloses e' (List.mem_cons_of_mem _ he')) hrun

theorem once_start (accounts : List Account) : Once (start accounts) := by
  refine ⟨inv_start accounts, ?_, ?_, ?_⟩ <;> simp [start, World.coming]

/-! ## 2. Nothing goes out for a login that ended -/

/-- A submission that still has its message, whose login ended, and which is not being handed
over. -/
def World.Left (w : World) (s : Submission) : Prop :=
  s.heldBlob.isSome ∧ s.id ∈ w.ended ∧ ∀ c ∈ w.batch, c.held.id ≠ s.id

/-- A submission whose login ended and passes for one that stands. -/
def World.Passes (w : World) (id : Int) : Prop :=
  ∃ s ∈ w.db.submissions, s.id = id ∧ s.heldBlob.isSome ∧ s.id ∈ w.ended ∧
    w.db.stands s.accountId s.credential = true

instance (w : World) (s : Submission) : Decidable (w.Left s) := by
  unfold World.Left
  infer_instance

instance (w : World) (id : Int) : Decidable (w.Passes id) := by
  unfold World.Passes
  infer_instance

/-- **When a step keeps ended logins apart.**  A request whose login ended writes only where its
login does not stand any more; a handing over that is lost, by a restart or by failing to record it,
was not that of an ended login that passes; a new password leaves no message that was taken and
lost; and an account is switched on again only when what it held before is gone, or it stays off all
the same. -/
def Safe (w : World) (e : Event) : Prop :=
  match e with
  | .hold i .. => ∀ q ∈ w.requests[i]?, q.ended = true → w.db.stands q.accountId q.credential = false
  | .finish recorded => recorded = false → ∀ c ∈ w.batch.head?, ¬ w.Passes c.held.id
  | .restart => ∀ c ∈ w.batch, ¬ w.Passes c.held.id
  | .changePassword accountId keep => ∀ s ∈ w.db.submissions, s.accountId = accountId →
      (HeldBy.password keep).stops s.credential = true → s.undoStatus = .final → s.heldBlob.isSome →
      (∃ c ∈ w.batch, c.held.id = s.id) ∨ w.db.stands accountId s.credential = false
  | .setDisabled accountId disabled => disabled = false → ∀ s ∈ w.db.submissions, w.Left s →
      s.accountId = accountId → w.db.credentialStands accountId s.credential = false ∨
        ∃ a ∈ w.db.account accountId, a.deletedAt.isSome
  | .restore accountId => ∀ s ∈ w.db.submissions, w.Left s → s.accountId = accountId →
      w.db.credentialStands accountId s.credential = false ∨
        ∃ a ∈ w.db.account accountId, a.disabled = true
  | _ => True

instance (w : World) (e : Event) : Decidable (Safe w e) := by
  unfold Safe
  split <;> infer_instance

/-- What ended does not stand, unless it is being handed over; and nothing was taken after its login
ended. -/
structure Sound (w : World) : Prop where
  inv : Inv w
  left : ∀ s ∈ w.db.submissions, w.Left s → w.db.stands s.accountId s.credential = false
  fresh : ∀ c, c ∈ w.batch ∨ c ∈ w.handed → c.ended = false

/-- A step that changes rows only as rows change, and what stands not at all for the rows of old. -/
theorem Sound.of_evolve (hw : Sound w) (hdid : Did w w') (hended : w'.ended = w.ended)
    (hbatch : w'.batch = w.batch) (hhanded : w'.handed = w.handed)
    (hold : ∀ s' ∈ w'.db.submissions, ∃ s ∈ w.db.submissions, s.Evolves s')
    (hstands : ∀ s ∈ w.db.submissions, w.Left s → w.db.stands s.accountId s.credential = false →
      w'.db.stands s.accountId s.credential = false) : Sound w' := by
  refine ⟨hw.inv.did hdid, ?_, ?_⟩
  · intro s' hs' hleft
    obtain ⟨s, hs, hev⟩ := hold s' hs'
    have hl : w.Left s := by
      obtain ⟨hheld, hid, hnot⟩ := hleft
      rw [hended] at hid
      rw [hbatch] at hnot
      exact ⟨hev.held_of_isSome hheld, hev.id ▸ hid, fun c hc => hev.id ▸ hnot c hc⟩
    rw [hev.accountId, hev.credential]
    exact hstands s hs hl (hw.left s hs hl)
  · rw [hbatch, hhanded]
    exact hw.fresh

theorem sound_endLogins {stopped : HeldBy} {accountId : Int} {db : Db} (hw : Sound w)
    (hends : Ends stopped accountId w.db db)
    (hsafe : ∀ keep, stopped = .password keep → ∀ s ∈ w.db.submissions, s.accountId = accountId →
      stopped.stops s.credential = true → s.undoStatus = .final → s.heldBlob.isSome →
      (∃ c ∈ w.batch, c.held.id = s.id) ∨ w.db.stands accountId s.credential = false) :
    Sound (w.endLogins accountId stopped db) := by
  have gone : ∀ a c, w.db.stands a c = false → db.stands a c = false := by
    intro a c h
    cases hd : db.stands a c with
    | false => rfl
    | true =>
      rw [hends.stands a c hd] at h
      cases h
  refine ⟨hw.inv.did (did_endLogins hends), ?_, hw.fresh⟩
  intro s' hs' ⟨hheld, hid, hnot⟩
  simp only [World.endLogins] at hs' hid hnot ⊢
  obtain ⟨s, hs, hev⟩ := hends.rows.from hs'
  rcases List.mem_append.1 hid with hid | hid
  · rw [hev.accountId, hev.credential]
    exact gone _ _ (hw.left s hs ⟨hev.held_of_isSome hheld, hev.id ▸ hid, fun c hc => hev.id ▸ hnot c hc⟩)
  · -- The row is one of those whose login ends now.
    obtain ⟨s₀, hs₀, hs₀id⟩ := List.mem_map.1 hid
    obtain ⟨hs₀, hstop⟩ := List.mem_filter.1 hs₀
    have : s₀ = s := hw.inv.unique.eq hs₀ hs (hs₀id.trans hev.id)
    subst this
    simp only [Bool.and_eq_true, beq_iff_eq] at hstop
    have hacc : s'.accountId = accountId := hev.accountId.trans hstop.1
    have hstops : stopped.stops s'.credential = true := by
      rw [hev.credential]
      exact hstop.2
    rcases hends.past s' hs' hheld hacc hstops with hgone | ⟨hmem, hpending, keep, hkeep⟩
    · rw [hacc]
      exact hgone
    · have hfinal : s'.undoStatus = .final := by
        cases hst : s'.undoStatus with
        | pending => exact absurd hst hpending
        | final => rfl
        | canceled =>
          rw [hw.inv.canceled s' hmem hst] at hheld
          cases hheld
      rcases hsafe keep hkeep s' hmem hacc hstops hfinal hheld with ⟨c, hc, hcid⟩ | hgone
      · exact absurd hcid (hnot c hc)
      · rw [hacc]
        exact gone _ _ hgone

theorem sound_hold {i : Nat} {q : Request} {new : NewHeldSubmission} {id : Int} {db : Db} (hw : Sound w)
    (hq : w.requests[i]? = some q) (hcred : new.credential = q.credential)
    (hacc : new.accountId = q.accountId) (h : holdSubmission new w.db = .ok (id, db))
    (hsafe : q.ended = true → w.db.stands q.accountId q.credential = false) :
    Sound { w with
      db
      requests := w.requests.eraseIdx i
      ended := if q.ended then w.ended ++ [id] else w.ended } := by
  refine ⟨hw.inv.did (did_hold hq hcred h), ?_, hw.fresh⟩
  obtain ⟨-, hid, rfl, -⟩ := rows_hold h
  have hstands : ∀ a c, Db.stands { w.db with
      submissions := w.db.submissions ++ [new.row id], submissionHighWater := id } a c =
      w.db.stands a c := fun _ _ => rfl
  intro s hs ⟨hheld, hended, hnot⟩
  rw [hstands]
  rcases List.mem_append.1 hs with hs | hs
  · refine hw.left s hs ⟨hheld, ?_, hnot⟩
    have := hw.inv.ids s hs
    simp only at hended
    split at hended
    · rcases List.mem_append.1 hended with hended | hended
      · exact hended
      · have := List.mem_singleton.1 hended
        omega
    · exact hended
  · rw [List.mem_singleton.1 hs] at hended ⊢
    simp only [NewHeldSubmission.row] at hended ⊢
    rw [hacc, hcred]
    cases hq' : q.ended with
    | true => exact hsafe hq'
    | false =>
      -- The id is new, so it was not among the ended ones.
      rw [if_neg (by simp [hq'])] at hended
      have := hw.inv.ended id hended
      omega

theorem sound_claim {now : Int} {limit : Nat} (hw : Sound w) (hempty : w.batch = []) :
    Sound { w with
      db := (claimDueSubmissions now limit w.db).2
      batch := (claimDueSubmissions now limit w.db).1.map fun h => ⟨h, decide (h.id ∈ w.ended)⟩ } := by
  obtain ⟨hrows, hdb, -, htaken⟩ := @claim_spec _ now limit hw.inv.unique
  have hleft : ∀ s ∈ w.db.submissions, s.heldBlob.isSome → s.id ∈ w.ended →
      w.db.stands s.accountId s.credential = false := by
    intro s hs hheld hid
    refine hw.left s hs ⟨hheld, hid, ?_⟩
    rw [hempty]
    intro c hc
    cases hc
  refine ⟨hw.inv.did (did_claim hw.inv.unique), ?_, ?_⟩
  · intro s' hs' ⟨hheld, hid, _⟩
    obtain ⟨s, hs, hev⟩ := hrows.from hs'
    have := hleft s hs (hev.held_of_isSome hheld) (hev.id ▸ hid)
    rw [hdb, hev.accountId, hev.credential]
    exact this
  · rintro c (hc | hc)
    · obtain ⟨h, hh, rfl⟩ := List.mem_map.1 hc
      obtain ⟨⟨s, hs, hsid, hheld, hnot⟩, -⟩ := htaken h hh
      rw [decide_eq_false_iff_not]
      intro hid
      have hgone := hleft s hs hheld (hsid ▸ hid)
      obtain ⟨a, ha⟩ := Option.isSome_iff_exists.1 (hw.inv.accounts s hs)
      simp only [Db.stands, Db.loginEnded, Db.heldStillValid, ha, Option.map_some, Option.getD_some]
        at hgone hnot
      rw [hgone] at hnot
      cases hnot
    · exact hw.fresh c (.inr hc)

theorem sound_finish {c : Claimed} {batch : List Claimed} {recorded : Bool} {queued : Option Int}
    {error : Option String} (hw : Sound w) (hbatch : w.batch = c :: batch)
    (hsafe : recorded = false → ¬ w.Passes c.held.id) :
    Sound { w with
      db := if recorded then finishHeldSubmission c.held.id queued error w.db else w.db
      batch
      outcome := none } := by
  have hfresh : ∀ d, d ∈ batch ∨ d ∈ w.handed → d.ended = false := by
    rintro d (hd | hd)
    · exact hw.fresh d (.inl (hbatch ▸ List.mem_cons_of_mem _ hd))
    · exact hw.fresh d (.inr hd)
  have hgone : ∀ s ∈ w.db.submissions, s.heldBlob.isSome → s.id ∈ w.ended →
      (∀ d ∈ batch, d.held.id ≠ s.id) → (recorded = true → s.id ≠ c.held.id) →
      w.db.stands s.accountId s.credential = false := by
    intro s hs hheld hid hnot hrec
    by_cases hhead : c.held.id = s.id
    · cases recorded with
      | true => exact absurd hhead.symm (hrec rfl)
      | false =>
        by_contra hstands
        exact hsafe rfl ⟨s, hs, hhead.symm, hheld, hid, Bool.eq_true_of_not_eq_false hstands⟩
    · refine hw.left s hs ⟨hheld, hid, ?_⟩
      rw [hbatch]
      intro d hd
      rcases List.mem_cons.1 hd with rfl | hd
      · exact hhead
      · exact hnot d hd
  cases recorded with
  | false =>
    refine ⟨hw.inv.did (did_finish hbatch (.refl _) (.of_submissions _)), ?_, hfresh⟩
    intro s hs ⟨hheld, hid, hnot⟩
    exact hgone s hs hheld hid hnot fun h => by cases h
  | true =>
    refine ⟨hw.inv.did (did_finish hbatch (evolve_finish _ _ _ _) (.of_submissions _)), ?_, hfresh⟩
    intro s' hs' ⟨hheld, hid, hnot⟩
    obtain ⟨s, hs, hrow⟩ := mem_updateWhere.1 hs'
    split at hrow
    · rw [← hrow] at hheld
      cases hheld
    · rename_i hne
      subst hrow
      refine hgone s hs hheld hid hnot fun _ heq => ?_
      simp [heq] at hne

/-- Switching an account on is safe where what it held before stays gone. -/
theorem sound_updateAccount {accountId : Int} {f : Account → Account} (hw : Sound w)
    (hf : ∀ a, (f a).id = a.id)
    (hsafe : ∀ s ∈ w.db.submissions, w.Left s → s.accountId = accountId →
      w.db.credentialStands accountId s.credential = false ∨
        ∃ a ∈ w.db.account accountId, (f a).canLogIn = false) :
    Sound { w with db := w.db.updateAccount accountId f } := by
  refine hw.of_evolve (did_updateAccount hf) rfl rfl rfl (fun s hs => ⟨s, hs, .refl s⟩) ?_
  intro s hs hleft hgone
  rw [stands_eq_false] at hgone ⊢
  simp only [credentialStands_updateAccount, account_updateAccount accountId s.accountId hf]
  by_cases hacc : s.accountId = accountId
  · rcases hsafe s hs hleft hacc with hcred | ⟨a, ha, hoff⟩
    · exact .inr (hacc ▸ hcred)
    · left
      rw [Option.mem_def] at ha
      simp [hacc, ha, account_some ha, hoff]
  · rcases hgone with hlog | hcred
    · left
      cases hfind : w.db.account s.accountId with
      | none => rfl
      | some a =>
        rw [hfind] at hlog
        have : a.id ≠ accountId := by
          rw [account_some hfind]
          exact hacc
        simpa [this] using hlog
    · exact .inr hcred

/-- A new key stands for no row of old: its id is new. -/
theorem any_append_new {id accountId highWater a : Int} {t : List Key} (hid : id ≤ highWater)
    (h : (t.any fun k => k.id == id && k.accountId == a) = false) :
    ((t ++ [(⟨highWater + 1, accountId⟩ : Key)]).any fun k => k.id == id && k.accountId == a) = false := by
  rw [List.any_append, h]
  have : highWater + 1 ≠ id := by omega
  simp [this]

theorem sound_createAppPassword (accountId : Int) (hw : Sound w) :
    Sound { w with db := createAppPassword accountId w.db } := by
  refine hw.of_evolve
    (.of_db (rows_createAppPassword accountId w.db) fun s hs => ⟨s, hs, .refl s⟩) rfl rfl rfl
    (fun s hs => ⟨s, hs, .refl s⟩) ?_
  intro s hs _ hgone
  have hgiven := hw.inv.given s hs
  rw [stands_eq_false] at hgone ⊢
  refine hgone.imp id fun h => ?_
  generalize s.credential = c at h hgiven
  rcases c with _ | _ | i | i | i
  · exact h
  · exact h
  · exact any_append_new hgiven h
  · exact h
  · exact h

theorem sound_createOauthGrant (accountId : Int) (hw : Sound w) :
    Sound { w with db := createOauthGrant accountId w.db } := by
  refine hw.of_evolve
    (.of_db (rows_createOauthGrant accountId w.db) fun s hs => ⟨s, hs, .refl s⟩) rfl rfl rfl
    (fun s hs => ⟨s, hs, .refl s⟩) ?_
  intro s hs _ hgone
  have hgiven := hw.inv.given s hs
  rw [stands_eq_false] at hgone ⊢
  refine hgone.imp id fun h => ?_
  generalize s.credential = c at h hgiven
  rcases c with _ | _ | i | i | i
  · exact h
  · exact h
  · exact h
  · exact any_append_new hgiven h
  · exact h

/-- A safe step keeps ended logins apart. -/
theorem sound_step (w : World) (e : Event) (w' : World) (hw : Sound w) (hsafe : Safe w e)
    (h : step w e = some w') : Sound w' := by
  have hdid := did_step hw.inv.unique h
  cases e with
  | check accountId credential =>
    simp only [step] at h
    split at h
    · cases h
      exact hw.of_evolve hdid rfl rfl rfl (fun s hs => ⟨s, hs, .refl s⟩) fun _ _ _ h => h
    · cases h
  | hold i identityId emailId threadId envelope sendAt blob =>
    simp only [step, Option.bind_eq_bind, Option.bind_eq_some_iff] at h
    obtain ⟨q, hq, ⟨id, db⟩, hold, h⟩ := h
    cases h
    exact sound_hold hw hq rfl rfl (toOption_some hold) (hsafe q hq)
  | cancel accountId id =>
    simp only [step, Option.map_eq_some_iff] at h
    obtain ⟨db, hdb, rfl⟩ := h
    obtain ⟨hrows, heq⟩ := evolve_cancel hw.inv.unique (toOption_some hdb)
    refine hw.of_evolve hdid rfl rfl rfl (fun s' hs' => hrows.from hs') ?_
    intro s _ _ hgone
    rw [heq]
    exact hgone
  | destroy accountId id =>
    simp only [step, Option.map_eq_some_iff] at h
    obtain ⟨db, hdb, rfl⟩ := h
    obtain ⟨-, hsub, heq⟩ := rows_destroy (toOption_some hdb)
    refine hw.of_evolve hdid rfl rfl rfl (fun s hs => ⟨s, hsub.subset hs, .refl s⟩) ?_
    intro s _ _ hgone
    rw [heq]
    exact hgone
  | claim now limit =>
    simp only [step] at h
    split at h
    · rename_i hempty
      cases h
      exact sound_claim hw (List.isEmpty_iff.1 hempty)
    · cases h
  | send readable submitted =>
    simp only [step] at h
    split at h
    · rename_i c batch hbatch _
      cases h
      obtain ⟨outcome, handed, heq, hhanded⟩ := sendHeld_spec (w := w) c readable submitted
      rw [heq] at hdid ⊢
      refine ⟨hw.inv.did hdid, hw.left, ?_⟩
      rintro d (hd | hd)
      · exact hw.fresh d (.inl hd)
      · rcases hhanded with rfl | rfl
        · exact hw.fresh d (.inr hd)
        · rcases List.mem_cons.1 hd with rfl | hd
          · exact hw.fresh d (.inl (hbatch ▸ List.mem_cons_self))
          · exact hw.fresh d (.inr hd)
    · cases h
  | finish recorded =>
    simp only [step] at h
    split at h
    · rename_i c batch outcome hbatch _
      cases h
      refine sound_finish hw hbatch fun hrec => hsafe hrec c ?_
      rw [hbatch]
      rfl
    · cases h
  | restart =>
    simp only [step] at h
    cases h
    refine ⟨hw.inv.did hdid, ?_, fun c hc => hw.fresh c (.inr (by simpa using hc))⟩
    rintro s hs ⟨hheld, hid, -⟩
    by_contra hstands
    by_cases hcoming : ∃ c ∈ w.batch, c.held.id = s.id
    · obtain ⟨c, hc, hcid⟩ := hcoming
      exact hsafe c hc ⟨s, hs, hcid.symm, hheld, hid, Bool.eq_true_of_not_eq_false hstands⟩
    · exact hstands (hw.left s hs ⟨hheld, hid, fun c hc heq => hcoming ⟨c, hc, heq⟩⟩)
  | createAppPassword accountId =>
    simp only [step] at h
    cases h
    exact sound_createAppPassword accountId hw
  | createOauthGrant accountId =>
    simp only [step] at h
    cases h
    exact sound_createOauthGrant accountId hw
  | revokeAppPassword accountId id =>
    simp only [step, Option.map_eq_some_iff] at h
    obtain ⟨db, hdb, rfl⟩ := h
    exact sound_endLogins hw (ends_revokeAppPassword (toOption_some hdb)) (by simp)
  | revokeOauthGrant accountId id =>
    simp only [step, Option.map_eq_some_iff] at h
    obtain ⟨db, hdb, rfl⟩ := h
    exact sound_endLogins hw (ends_revokeOauthGrant (toOption_some hdb)) (by simp)
  | changePassword accountId keep =>
    simp only [step, Option.map_eq_some_iff] at h
    obtain ⟨db, hdb, rfl⟩ := h
    exact sound_endLogins hw (ends_changePassword (toOption_some hdb)) fun _ _ => hsafe
  | setDisabled accountId disabled =>
    simp only [step, Option.map_eq_some_iff] at h
    obtain ⟨db, hdb, rfl⟩ := h
    cases disabled with
    | true => exact sound_endLogins hw (ends_disable (toOption_some hdb)) (by simp)
    | false =>
      rw [setAccountDisabled_false (toOption_some hdb)]
      refine sound_updateAccount hw (fun _ => rfl) ?_
      intro s hs hleft hacc
      refine (hsafe rfl s hs hleft hacc).imp id ?_
      rintro ⟨a, ha, hdel⟩
      exact ⟨a, ha, by simp [Account.canLogIn, Option.isNone_eq_false_iff.2 hdel]⟩
  | trash now accountId =>
    simp only [step, Option.map_eq_some_iff] at h
    obtain ⟨db, hdb, rfl⟩ := h
    exact sound_endLogins hw (ends_trash (toOption_some hdb)) (by simp)
  | restore accountId =>
    simp only [step, Option.map_eq_some_iff] at h
    obtain ⟨db, hdb, rfl⟩ := h
    rw [restoreAccount_ok (toOption_some hdb)]
    refine sound_updateAccount hw (fun _ => rfl) ?_
    intro s hs hleft hacc
    refine (hsafe s hs hleft hacc).imp id ?_
    rintro ⟨a, ha, hdis⟩
    exact ⟨a, ha, by simp [Account.canLogIn, hdis]⟩

theorem sound_start (accounts : List Account) : Sound (start accounts) :=
  ⟨inv_start accounts, by simp [start], by simp [start]⟩

/-! ## 3. The law, where it holds -/

/-- **Held mail**: in every order of events whose steps keep ended logins apart, what is cancelled
is never handed over, what is final stays final, nothing is handed over that was taken after its
login ended, and without a restart or a failed record nothing goes out twice. -/
theorem held_mail_when (accounts : List Account) (es : List Event)
    (hsafe : Trace.Along step Safe (start accounts) es) : Lawful accounts es := by
  constructor
  · intro w w' es₁ es₂ _ hrun hrun' s hs hcanceled c hc
    have hinv : Inv w := Trace.run_invariant' inv_step (inv_start accounts) hrun
    have hstart : Canceled s.id w := by
      refine ⟨hinv, hinv.ids s hs, ?_, ?_⟩
      · intro s' hs' hid
        rw [hinv.unique.eq hs' hs hid]
        exact hcanceled
      · intro d hd hid
        have := (hinv.taken d hd).2 s hs hid.symm
        rw [hcanceled] at this
        cases this
    exact (Trace.run_invariant' (canceled_step s.id) hstart hrun').2.2.2 c (.inr hc)
  · intro w w' es₁ es₂ _ hrun hrun' s hs hfinal
    have hinv : Inv w := Trace.run_invariant' inv_step (inv_start accounts) hrun
    have hstart : Final s.id w := by
      refine ⟨hinv, hinv.ids s hs, ?_⟩
      intro s' hs' hid
      rw [hinv.unique.eq hs' hs hid]
      exact hfinal
    exact (Trace.run_invariant' (final_step s.id) hstart hrun').2.2
  · intro w hrun c hc
    exact (Trace.run_invariant sound_step (sound_start accounts) hsafe hrun).fresh c (.inr hc)
  · intro w hrun hloses
    have hnodup := (once_run (once_start accounts) hloses hrun).nodup
    rw [List.map_append, List.nodup_append] at hnodup
    exact hnodup.1

/-- Some message. -/
def aBlob : String := "0123456789abcdef0123456789abcdef0123456789abcdef0123456789abcdef"

/-- An app password is revoked between the check of a request and its row, and another request goes
the usual way. -/
def revokedMeanwhile : List Event :=
  [.createAppPassword 1, .check 1 (some (.app 1)), .check 1 (some .password), .revokeAppPassword 1 1,
    .hold 0 1 1 1 "" 100 aBlob, .hold 0 1 2 2 "" 100 aBlob, .claim 100 10, .send (.ok ⟨⟩) (.ok (some 1)),
    .finish true]

theorem held_mail_when_revoked : Lawful [{ id := 1 }] revokedMeanwhile :=
  held_mail_when _ _ (by decide)

example : (Trace.run step (start [{ id := 1 }]) revokedMeanwhile).map
    (fun w => (w.handed.map fun c => c.held.id, w.db.submissions.map Submission.undoStatus)) =
      some ([2], [.canceled, .final]) := by decide

/-- The password is changed between the check of a request and its row. -/
def changedMeanwhile : List Event :=
  [.check 1 (some .password), .changePassword 1 none, .hold 0 1 1 1 "" 100 aBlob, .claim 100 10,
    .send (.ok ⟨⟩) (.ok (some 1))]

/-- **Held mail goes out for a login that ended**: the row that is written after the new password is
stopped by nothing. -/
theorem held_mail_fails : ¬ Lawful [{ id := 1 }] changedMeanwhile := by
  intro h
  have hrun : ∃ w, Trace.run step (start [{ id := 1 }]) changedMeanwhile = some w ∧
      w.handed.map Claimed.ended = [true] := ⟨_, rfl, by decide⟩
  obtain ⟨w, hw, hended⟩ := hrun
  obtain ⟨c, hc, hcended⟩ : ∃ c ∈ w.handed, c.ended = true := by
    rw [← List.mem_map, hended]
    exact List.mem_singleton_self true
  rw [h.ended w hw c hc] at hcended
  cases hcended

end UwuMail.Held
