/-
# Delivery notices

`deliver_group` of `outbound.rs`: a recipient is delivered, put off, refused, or HELD where
Microsoft blocks this server; what was put off until the message expires is given up.  The sender
gets a non-delivery notice for what is lost, and a delay notice for what is held for the first time.

**In every run of attempts that are `Fair` the notices are right** (`notices_are_right`): each
recipient that ended undelivered and did not ask for silence is named once, nobody else is named,
nobody is named late twice, and nothing is planned for after the message expires.  What `Fair` asks
is where the code goes wrong:

* `NOTIFY=NEVER` is looked at where a recipient is refused, and not where it is given up;
* where the content of the message is lost, all recipients fail and nobody is told;
* whether the sender was told of the hold is read off the last error, which any other outcome
  overwrites;
* the clock is read once to see whether there is time for another hold, and again to plan it;
* a recipient is named before the table is written, and named again where that failed.

An attempt takes recipients that wait; its outcomes, the clock and whether the table took the result
are arbitrary. Which refusals hold (`microsoft::holds`) and the two flags of `smtp_proto` are
parameters.
-/
import UwuMail.Lib.Trace
import UwuMail.Lib.Table

namespace UwuMail.Smtp.Notices

open Table

/-! ## 1. The source -/

/-- `RCPT_NOTIFY_NEVER` and `RCPT_NOTIFY_DELAY`. -/
structure Flags where
  never : Nat
  delay : Nat

inductive QueueRecipientStatus
  | pending
  | delivered
  | failed
  deriving DecidableEq

structure QueueRecipient where
  id : Nat
  address : String
  status : QueueRecipientStatus := .pending
  attempts : Nat := 0
  nextAttemptAt : Int
  lastError : Option String := none
  notifyFlags : Nat := 0
  deriving DecidableEq

structure QueuedMessage where
  createdAt : Int
  expiresAt : Int

/-- How long mail Microsoft blocks is kept to try again. -/
def holdSecs : Int := 48 * 3600

/-- How often held mail is tried again. -/
def holdRetrySecs : Int := 45 * 60

def QueuedMessage.holdUntil (m : QueuedMessage) : Int := min m.expiresAt (m.createdAt + holdSecs)

/-- Waiting time before the next attempt, growing with each failure. -/
def retryDelay (attempt : Nat) : Int :=
  ([300, 900, 1800, 3600, 7200, 10800, 21600] : List Int).getD (min (max attempt 1 - 1) 6) 0

inductive Outcome (holds : String → Bool)
  | delivered (reply : String)
  | deferred (error : String)
  | failed (error : String)
  /-- Microsoft refused the mail because it blocks our address. -/
  | held (error : { error : String // holds error })

/-- How an attempt went for one recipient. -/
structure Try (holds : String → Bool) where
  outcome : Outcome holds
  /-- The clock when the outcome is looked at. -/
  checkedAt : Int
  /-- The clock when the next try of a hold is planned. -/
  markedAt : Int
  /-- The table took the result. -/
  written : Bool := true

structure FailedRecipient where
  /-- The source keeps the address alone. -/
  recipient : QueueRecipient
  error : String

/-- The call of `mark_recipient_..` for a recipient. -/
inductive Mark
  | delivered (reply : String)
  | deferred (error : String) (nextAttemptAt : Int)
  | failed (error : String)
  | givenUp (error : String)

def Mark.message : Mark → String
  | .delivered reply => reply
  | .deferred error _ => error
  | .failed error => error
  | .givenUp error => error

/-- Marked failed, or given up. -/
def Mark.isFailed : Mark → Bool
  | .failed _ | .givenUp _ => true
  | _ => false

def Mark.status : Mark → QueueRecipientStatus
  | .delivered _ => .delivered
  | .deferred _ _ => .pending
  | .failed _ | .givenUp _ => .failed

def Mark.nextAttemptAt : Mark → Option Int
  | .deferred _ next => some next
  | _ => none

/-- `update_recipient`. -/
def QueueRecipient.marked (mark : Mark) (r : QueueRecipient) : QueueRecipient :=
  { r with
    status := mark.status
    lastError := some mark.message
    attempts := r.attempts + 1
    nextAttemptAt := mark.nextAttemptAt.getD r.nextAttemptAt }

/-- What happened to a queued message, in order. -/
inductive Deed
  | marked (r : QueueRecipient) (mark : Mark)
  /-- `dsn::bounce`. -/
  | bounce (failed : List FailedRecipient)
  /-- `dsn::delayed`. -/
  | delayed (held : List FailedRecipient)

/-- The recipients of a queued message, and what happened to them. -/
structure Delivery where
  recipients : List QueueRecipient
  log : List Deed := []

/-- What the outcome of a recipient comes to: how it is marked, and which notice names it. -/
structure Verdict where
  mark : Mark
  bounces : Bool := false
  delays : Bool := false

section Source

variable {holds : String → Bool} (flags : Flags) (m : QueuedMessage)

def verdict (r : QueueRecipient) (t : Try holds) : Verdict :=
  match t.outcome with
  | .delivered reply => { mark := .delivered reply }
  | .deferred error =>
    let next := t.checkedAt + retryDelay (r.attempts + 1)
    if next > m.expiresAt then { mark := .givenUp error, bounces := true }
    else { mark := .deferred error next }
  | .held error =>
    if t.checkedAt + holdRetrySecs ≤ m.holdUntil then
      -- The sender hears once that the mail is late, not with every try.
      let first := !r.lastError.any holds
      let wants := r.notifyFlags == 0 || r.notifyFlags &&& flags.delay != 0
      { mark := .deferred error (t.markedAt + holdRetrySecs), delays := first && wants }
    else { mark := .failed error, bounces := r.notifyFlags &&& flags.never == 0 }
  | .failed error => { mark := .failed error, bounces := r.notifyFlags &&& flags.never == 0 }

/-- The loop over the recipients of a group. -/
structure Pass where
  delivery : Delivery
  failed : List FailedRecipient := []
  delayed : List FailedRecipient := []

def Delivery.mark (d : Delivery) (r : QueueRecipient) (mark : Mark) : Delivery where
  recipients := updateWhere (·.id == r.id) (QueueRecipient.marked mark) d.recipients
  log := d.log ++ [.marked r mark]

def Pass.next (p : Pass) (x : QueueRecipient × Try holds) : Pass :=
  let v := verdict flags m x.1 x.2
  { delivery := if x.2.written then p.delivery.mark x.1 v.mark else p.delivery
    failed := if v.bounces then p.failed ++ [⟨x.1, v.mark.message⟩] else p.failed
    delayed := if v.delays then p.delayed ++ [⟨x.1, v.mark.message⟩] else p.delayed }

/-- One attempt: the content of the message, unless it is lost, and the recipients it is made
for. -/
structure Attempt (holds : String → Bool) where
  content : Option (List UInt8)
  group : List (QueueRecipient × Try holds)

/-- The outcomes: where the content is lost, all recipients fail. -/
def Attempt.outcomes (a : Attempt holds) : List (QueueRecipient × Try holds) :=
  match a.content with
  | some _ => a.group
  | none => a.group.map fun x => (x.1, { x.2 with outcome := .failed "the message content was lost" })

/-- `raw`, which is empty where the content is lost. -/
def Attempt.raw (a : Attempt holds) : List UInt8 := a.content.getD []

def deliverGroup (d : Delivery) (a : Attempt holds) : Delivery :=
  let p := a.outcomes.foldl (Pass.next flags m) { delivery := d }
  let told := if !p.failed.isEmpty && !a.raw.isEmpty then [Deed.bounce p.failed] else []
  let late := if !p.delayed.isEmpty && !a.raw.isEmpty then [Deed.delayed p.delayed] else []
  { p.delivery with log := p.delivery.log ++ told ++ late }

/-- An attempt is made for recipients that wait, each once. -/
def step (d : Delivery) (a : Attempt holds) : Option Delivery :=
  if (a.group.map (·.1.id)).Nodup ∧ ∀ x ∈ a.group, x.1 ∈ d.recipients ∧ x.1.status = .pending then
    some (deliverGroup flags m d a)
  else none

end Source

/-! ## 2. What is right, and what is asked for it -/

/-- Whom the non-delivery notices of a log name. -/
def bounced (log : List Deed) : List FailedRecipient :=
  log.flatMap fun
    | .bounce failed => failed
    | _ => []

/-- Whom the delay notices of a log name. -/
def late (log : List Deed) : List FailedRecipient :=
  log.flatMap fun
    | .delayed held => held
    | _ => []

def ids (named : List FailedRecipient) : List Nat := named.map (·.recipient.id)

/-- **The notices of a log are right.** -/
structure Right (flags : Flags) (m : QueuedMessage) (log : List Deed) : Prop where
  /-- Nobody is named twice. -/
  once : (ids (bounced log)).Nodup
  marked : ∀ f ∈ bounced log, ∃ mark, .marked f.recipient mark ∈ log ∧ mark.isFailed
  never : ∀ f ∈ bounced log, f.recipient.notifyFlags &&& flags.never = 0
  /-- Whoever ended undelivered is named, but for those that asked for silence. -/
  named : ∀ r mark, .marked r mark ∈ log → mark.isFailed → r.notifyFlags &&& flags.never = 0 →
    r.id ∈ ids (bounced log)
  /-- Nobody is named late twice. -/
  lateOnce : (ids (late log)).Nodup
  planned : ∀ r error next, .marked r (.deferred error next) ∈ log → next ≤ m.expiresAt

section Asked

variable {holds : String → Bool} (flags : Flags) (m : QueuedMessage)

/-- Put off until the message expires. -/
def givesUp (r : QueueRecipient) (t : Try holds) : Bool :=
  match t.outcome with
  | .deferred _ => t.checkedAt + retryDelay (r.attempts + 1) > m.expiresAt
  | _ => false

/-- Refused, or held where there is no time for another try. -/
def refused (t : Try holds) : Bool :=
  match t.outcome with
  | .failed _ => true
  | .held _ => t.checkedAt + holdRetrySecs > m.holdUntil
  | _ => false

/-- Held, to be tried again. -/
def holdsOn (t : Try holds) : Bool :=
  match t.outcome with
  | .held _ => t.checkedAt + holdRetrySecs ≤ m.holdUntil
  | _ => false

/-- **What is asked of an attempt**, for one recipient. -/
structure Fair (log : List Deed) (tells : Bool) (r : QueueRecipient) (t : Try holds) : Prop where
  /-- The content is there when a recipient fails that wants to hear of it. -/
  content : (refused m t || givesUp m r t) → r.notifyFlags &&& flags.never = 0 → t.written → tells
  /-- Nobody who asked for silence is given up. -/
  silence : givesUp m r t → tells → r.notifyFlags &&& flags.never = 0
  /-- Whom the sender knows to be late is held again only straight after a hold. -/
  again : holdsOn m t → r.id ∈ ids (late log) → r.lastError.any holds
  /-- There is still time for another try when it is planned. -/
  time : holdsOn m t → t.written → t.markedAt + holdRetrySecs ≤ m.expiresAt
  /-- The table takes the result of whoever is named. -/
  written : (givesUp m r t || refused m t && r.notifyFlags &&& flags.never == 0) → tells → t.written

/-- The same for all recipients of an attempt. -/
def FairAttempt (d : Delivery) (a : Attempt holds) : Prop :=
  ∀ x ∈ a.outcomes, Fair flags m d.log (!a.raw.isEmpty) x.1 x.2

end Asked

/-! ## 3. One recipient -/

section Verdicts

variable {holds : String → Bool} {flags : Flags} {m : QueuedMessage} {r : QueueRecipient}
  {t : Try holds}

theorem verdict_isFailed : (verdict flags m r t).mark.isFailed = (givesUp m r t || refused m t) := by
  unfold verdict givesUp refused
  cases t.outcome with
  | delivered reply => rfl
  | failed error => rfl
  | deferred error =>
    dsimp only
    by_cases hlate : t.checkedAt + retryDelay (r.attempts + 1) > m.expiresAt
    · rw [if_pos hlate, decide_eq_true hlate]
      rfl
    · rw [if_neg hlate, decide_eq_false hlate]
      rfl
  | held error =>
    dsimp only
    by_cases hroom : t.checkedAt + holdRetrySecs ≤ m.holdUntil
    · rw [if_pos hroom, decide_eq_false (not_lt.2 hroom)]
      rfl
    · rw [if_neg hroom, decide_eq_true (not_le.1 hroom)]
      rfl

theorem verdict_bounces :
    (verdict flags m r t).bounces = (givesUp m r t || refused m t && r.notifyFlags &&& flags.never == 0) := by
  unfold verdict givesUp refused
  cases t.outcome with
  | delivered reply => rfl
  | failed error => rfl
  | deferred error =>
    dsimp only
    by_cases hlate : t.checkedAt + retryDelay (r.attempts + 1) > m.expiresAt
    · rw [if_pos hlate, decide_eq_true hlate]
      rfl
    · rw [if_neg hlate, decide_eq_false hlate]
      rfl
  | held error =>
    dsimp only
    by_cases hroom : t.checkedAt + holdRetrySecs ≤ m.holdUntil
    · rw [if_pos hroom, decide_eq_false (not_lt.2 hroom)]
      rfl
    · rw [if_neg hroom, decide_eq_true (not_le.1 hroom)]
      rfl

/-- A delay notice is for a hold that does not follow a hold. -/
theorem verdict_delays (h : (verdict flags m r t).delays = true) :
    holdsOn m t = true ∧ r.lastError.any holds = false := by
  unfold verdict at h
  unfold holdsOn
  cases hout : t.outcome with
  | held error =>
    simp only [hout] at h
    split at h
    · rename_i hroom
      exact ⟨decide_eq_true hroom, by simpa using (Bool.and_eq_true_iff.1 h).1⟩
    · cases h
  | deferred error =>
    simp only [hout] at h
    split at h
    · cases h
    · cases h
  | _ =>
    rw [hout] at h
    cases h

/-- What is put off is put off to a moment before the message expires, or held. -/
theorem verdict_deferred {error : String} {next : Int}
    (h : (verdict flags m r t).mark = .deferred error next) :
    next ≤ m.expiresAt ∨ holdsOn m t = true ∧ next = t.markedAt + holdRetrySecs := by
  unfold verdict at h
  unfold holdsOn
  cases hout : t.outcome with
  | held error' =>
    simp only [hout] at h
    split at h
    · rename_i hroom
      cases h
      exact .inr ⟨decide_eq_true hroom, rfl⟩
    · cases h
  | deferred error' =>
    simp only [hout] at h
    split at h
    · cases h
    · rename_i hroom
      cases h
      exact .inl (not_lt.1 hroom)
  | _ =>
    rw [hout] at h
    cases h

end Verdicts

/-! ## 4. A group -/

@[simp] theorem bounced_append (log log' : List Deed) :
    bounced (log ++ log') = bounced log ++ bounced log' := by
  simp [bounced]

@[simp] theorem late_append (log log' : List Deed) : late (log ++ log') = late log ++ late log' := by
  simp [late]

@[simp] theorem bounced_marked (r : QueueRecipient) (mark : Mark) : bounced [.marked r mark] = [] := rfl

@[simp] theorem late_marked (r : QueueRecipient) (mark : Mark) : late [.marked r mark] = [] := rfl

/-- Whom the log names, with those the notice of this attempt is going to name. -/
def Pass.names (p : Pass) (tells : Bool) : List FailedRecipient :=
  bounced p.delivery.log ++ if tells then p.failed else []

/-- What the loop over the recipients keeps. -/
structure Kept (flags : Flags) (m : QueuedMessage) (tells : Bool) (p : Pass) : Prop where
  unique : UniqueKey QueueRecipient.id p.delivery.recipients
  once : (ids (p.names tells)).Nodup
  marked : ∀ f ∈ p.names tells, ∃ mark, .marked f.recipient mark ∈ p.delivery.log ∧ mark.isFailed
  never : ∀ f ∈ p.names tells, f.recipient.notifyFlags &&& flags.never = 0
  named : ∀ r mark, .marked r mark ∈ p.delivery.log → mark.isFailed → r.notifyFlags &&& flags.never = 0 →
    r.id ∈ ids (p.names tells)
  lateOnce : (ids (late p.delivery.log ++ p.delayed)).Nodup
  planned : ∀ r error next, .marked r (.deferred error next) ∈ p.delivery.log → next ≤ m.expiresAt
  /-- Nobody who still waits is named. -/
  waiting : ∀ r ∈ p.delivery.recipients, r.status = .pending → r.id ∉ ids (p.names tells)

/-- What is still ahead of the loop: recipients that wait, each once, and none of them named late in
this attempt. -/
structure Ahead {holds : String → Bool} (log : List Deed) (p : Pass)
    (rest : List (QueueRecipient × Try holds)) :
    Prop where
  nodup : (rest.map (·.1.id)).Nodup
  mem : ∀ x ∈ rest, x.1 ∈ p.delivery.recipients ∧ x.1.status = .pending
  fresh : ∀ x ∈ rest, x.1.id ∉ ids p.delayed
  log : late p.delivery.log = late log

section Loop

variable {holds : String → Bool} {flags : Flags} {m : QueuedMessage} {tells : Bool} {p : Pass}
  {x : QueueRecipient × Try holds} {rest : List (QueueRecipient × Try holds)} {log : List Deed}

theorem ids_append (named named' : List FailedRecipient) : ids (named ++ named') = ids named ++ ids named' :=
  List.map_append

theorem mem_next_log {deed : Deed} (h : deed ∈ (p.next flags m x).delivery.log) :
    deed ∈ p.delivery.log ∨ x.2.written ∧ deed = .marked x.1 (verdict flags m x.1 x.2).mark := by
  unfold Pass.next at h
  split at h
  · rename_i hwritten
    rcases List.mem_append.1 h with h | h
    · exact .inl h
    · exact .inr ⟨hwritten, List.mem_singleton.1 h⟩
  · exact .inl h

theorem next_log_starts : p.delivery.log <+: (p.next flags m x).delivery.log := by
  unfold Pass.next
  split
  · exact List.prefix_append _ _
  · exact List.prefix_refl _

theorem late_next : late (p.next flags m x).delivery.log = late p.delivery.log := by
  unfold Pass.next
  split
  · simp [Delivery.mark]
  · rfl

theorem names_next : (p.next flags m x).names tells = p.names tells ++
    if (verdict flags m x.1 x.2).bounces && tells
        then [⟨x.1, (verdict flags m x.1 x.2).mark.message⟩] else [] := by
  have hbounced : bounced (p.next flags m x).delivery.log = bounced p.delivery.log := by
    unfold Pass.next
    split
    · simp [Delivery.mark]
    · rfl
  unfold Pass.names
  rw [hbounced]
  unfold Pass.next
  cases hb : (verdict flags m x.1 x.2).bounces <;> cases tells <;> simp [hb]

theorem mem_next_recipients {r : QueueRecipient} (h : r ∈ (p.next flags m x).delivery.recipients) :
    r ∈ p.delivery.recipients ∧ (r.id = x.1.id → x.2.written = false) ∨
      r.id = x.1.id ∧ r.status = (verdict flags m x.1 x.2).mark.status := by
  unfold Pass.next at h
  split at h
  · obtain ⟨r', hr', rfl⟩ := mem_updateWhere.1 h
    by_cases hid : r'.id = x.1.id
    · rw [if_pos (beq_iff_eq.2 hid)]
      exact .inr ⟨hid, rfl⟩
    · rw [if_neg (by simpa using hid)]
      exact .inl ⟨hr', fun h => absurd h hid⟩
  · rename_i hwritten
    exact .inl ⟨h, fun _ => by simpa using hwritten⟩

/-- **A recipient keeps what is kept**, if the attempt is fair to it. -/
theorem Kept.next (h : Kept flags m tells p) (ha : Ahead log p (x :: rest))
    (hfair : Fair flags m log tells x.1 x.2) :
    Kept flags m tells (p.next flags m x) := by
  obtain ⟨hmem, hpending⟩ := ha.mem x List.mem_cons_self
  have hunnamed : x.1.id ∉ ids (p.names tells) := h.waiting x.1 hmem hpending
  have hfailed := @verdict_isFailed _ flags m x.1 x.2
  have hbounces := @verdict_bounces _ flags m x.1 x.2
  -- whoever is named now is marked, and wants to hear
  have hnew : ((verdict flags m x.1 x.2).bounces && tells) = true → x.2.written = true ∧
      (verdict flags m x.1 x.2).mark.isFailed = true ∧ x.1.notifyFlags &&& flags.never = 0 := by
    intro hb
    obtain ⟨hb, ht⟩ := Bool.and_eq_true_iff.1 hb
    rw [hbounces] at hb
    refine ⟨hfair.written hb ht, ?_, ?_⟩
    · rw [hfailed]
      rcases Bool.or_eq_true_iff.1 hb with hgives | hrefused
      · rw [hgives, Bool.true_or]
      · rw [(Bool.and_eq_true_iff.1 hrefused).1, Bool.or_true]
    · rcases Bool.or_eq_true_iff.1 hb with hgives | hrefused
      · exact hfair.silence hgives ht
      · exact beq_iff_eq.1 (Bool.and_eq_true_iff.1 hrefused).2
  have hold : ids (p.names tells) ⊆ ids ((p.next flags m x).names tells) := by
    rw [names_next, ids_append]
    exact List.subset_append_left _ _
  have hlog := fun {deed : Deed} (hd : deed ∈ p.delivery.log) =>
    (@next_log_starts _ flags m p x).subset hd
  refine ⟨?_, ?_, ?_, ?_, ?_, ?_, ?_, ?_⟩
  · unfold Pass.next
    dsimp only
    split
    · exact h.unique.updateWhere (f := QueueRecipient.marked _) (fun _ => rfl) _
    · exact h.unique
  · rw [names_next, ids_append]
    refine List.nodup_append.2 ⟨h.once, ?_, ?_⟩
    · split
      · exact List.nodup_singleton _
      · exact List.nodup_nil
    · intro a ha b hb heq
      split at hb
      · have heq : a = x.1.id := heq.trans (List.mem_singleton.1 hb)
        exact hunnamed (heq ▸ ha)
      · cases hb
  · intro f hf
    rw [names_next] at hf
    rcases List.mem_append.1 hf with hf | hf
    · obtain ⟨mark, hmark, hends⟩ := h.marked f hf
      exact ⟨mark, hlog hmark, hends⟩
    · split at hf
      · rename_i hb
        obtain ⟨hwritten, hends, -⟩ := hnew hb
        rw [List.mem_singleton.1 hf]
        refine ⟨_, ?_, hends⟩
        unfold Pass.next
        dsimp only
        rw [if_pos hwritten]
        exact List.mem_append_right _ (List.mem_singleton.2 rfl)
      · cases hf
  · intro f hf
    rw [names_next] at hf
    rcases List.mem_append.1 hf with hf | hf
    · exact h.never f hf
    · split at hf
      · rename_i hb
        rw [List.mem_singleton.1 hf]
        exact (hnew hb).2.2
      · cases hf
  · intro r mark hd hends hnever
    rcases mem_next_log hd with hd | ⟨hwritten, hd⟩
    · exact hold (h.named r mark hd hends hnever)
    · obtain ⟨rfl, rfl⟩ := Deed.marked.inj hd
      rw [hfailed] at hends
      have ht := hfair.content (by rwa [Bool.or_comm]) hnever hwritten
      have hb : (verdict flags m x.1 x.2).bounces = true := by
        rw [hbounces, beq_iff_eq.2 hnever, Bool.and_true]
        exact hends
      rw [names_next, hb, ht, ids_append]
      exact List.mem_append_right _ (List.mem_singleton.2 rfl)
  · rw [late_next]
    unfold Pass.next
    dsimp only
    split
    · rename_i hd
      obtain ⟨hholds, hlast⟩ := verdict_delays hd
      have hlate : x.1.id ∉ ids (late p.delivery.log) := by
        rw [ha.log]
        intro hmem
        exact absurd (hlast.symm.trans (hfair.again hholds hmem)) nofun
      rw [← List.append_assoc, ids_append]
      refine List.nodup_append.2 ⟨h.lateOnce, List.nodup_singleton _, ?_⟩
      intro a ha' b hb heq
      rw [List.mem_singleton.1 hb] at heq
      rw [heq, ids_append] at ha'
      exact (List.mem_append.1 ha').elim hlate (ha.fresh x List.mem_cons_self)
    · exact h.lateOnce
  · intro r error next hd
    rcases mem_next_log hd with hd | ⟨hwritten, hd⟩
    · exact h.planned r error next hd
    · obtain ⟨rfl, hmark⟩ := Deed.marked.inj hd
      rcases verdict_deferred hmark.symm with hle | ⟨hholds, rfl⟩
      · exact hle
      · exact hfair.time hholds hwritten
  · intro r hr hstill hnamed
    rw [names_next, ids_append] at hnamed
    rcases mem_next_recipients hr with ⟨hr, hself⟩ | ⟨hid, hstatus⟩
    · rcases List.mem_append.1 hnamed with hnamed | hnamed
      · exact h.waiting r hr hstill hnamed
      · split at hnamed
        · rename_i hb
          exact absurd ((hself (List.mem_singleton.1 hnamed)).symm.trans (hnew hb).1) nofun
        · cases hnamed
    · rcases List.mem_append.1 hnamed with hnamed | hnamed
      · exact hunnamed (hid ▸ hnamed)
      · split at hnamed
        · rename_i hb
          have hends := (hnew hb).2.1
          rw [hstatus] at hstill
          generalize (verdict flags m x.1 x.2).mark = mark at hstill hends
          cases mark with
          | delivered reply => cases hstill
          | deferred error next => exact absurd hends nofun
          | failed error => cases hstill
          | givenUp error => cases hstill
        · cases hnamed

theorem Ahead.next (h : Ahead log p (x :: rest)) : Ahead log (p.next flags m x) rest := by
  obtain ⟨hnot, hnodup⟩ := List.nodup_cons.1 h.nodup
  have hother : ∀ y ∈ rest, y.1.id ≠ x.1.id := fun y hy heq =>
    hnot (List.mem_map.2 ⟨y, hy, heq⟩)
  refine ⟨hnodup, fun y hy => ?_, fun y hy => ?_, late_next.trans h.log⟩
  · obtain ⟨hmem, hpending⟩ := h.mem y (List.mem_cons_of_mem _ hy)
    refine ⟨?_, hpending⟩
    unfold Pass.next
    dsimp only
    split
    · exact mem_updateWhere.2 ⟨y.1, hmem, if_neg (by simpa using hother y hy)⟩
    · exact hmem
  · have hold := h.fresh y (List.mem_cons_of_mem _ hy)
    unfold Pass.next
    dsimp only
    split
    · rw [ids_append]
      intro hnew
      rcases List.mem_append.1 hnew with hnew | hnew
      · exact hold hnew
      · exact hother y hy (List.mem_singleton.1 hnew)
    · exact hold

/-- **The loop over a group keeps what is kept.** -/
theorem Kept.foldl (h : Kept flags m tells p) (ha : Ahead log p rest)
    (hfair : ∀ x ∈ rest, Fair flags m log tells x.1 x.2) :
    Kept flags m tells (rest.foldl (Pass.next flags m) p) := by
  induction rest generalizing p with
  | nil => exact h
  | cons x rest ih =>
    exact ih (h.next ha (hfair x List.mem_cons_self)) ha.next fun y hy => hfair y (List.mem_cons_of_mem _ hy)

end Loop

/-! ## 5. The run -/

section Run

variable {holds : String → Bool} {flags : Flags} {m : QueuedMessage} {d d' : Delivery}
  {a : Attempt holds}

/-- Between two attempts: the notices are right, and nobody who still waits is named. -/
structure Between (flags : Flags) (m : QueuedMessage) (d : Delivery) : Prop where
  unique : UniqueKey QueueRecipient.id d.recipients
  right : Right flags m d.log
  waiting : ∀ r ∈ d.recipients, r.status = .pending → r.id ∉ ids (bounced d.log)

theorem Between.kept (h : Between flags m d) (tells : Bool) : Kept flags m tells { delivery := d } := by
  have hnames : Pass.names { delivery := d } tells = bounced d.log := by
    unfold Pass.names
    cases tells <;> exact List.append_nil _
  refine ⟨h.unique, ?_, ?_, ?_, ?_, ?_, h.right.planned, ?_⟩
  · rw [hnames]
    exact h.right.once
  · rw [hnames]
    exact h.right.marked
  · rw [hnames]
    exact h.right.never
  · rw [hnames]
    exact h.right.named
  · rw [List.append_nil]
    exact h.right.lateOnce
  · rw [hnames]
    exact h.waiting

/-- The notices at the end of an attempt name whom the loop noted. -/
theorem Kept.between {p : Pass} (h : Kept flags m (!a.raw.isEmpty) p)
    (hp : a.outcomes.foldl (Pass.next flags m) { delivery := d } = p) :
    Between flags m (deliverGroup flags m d a) := by
  obtain ⟨notices, hlog, hbounced, hlate, hmarked⟩ : ∃ notices,
      (deliverGroup flags m d a).log = p.delivery.log ++ notices ∧
      bounced (p.delivery.log ++ notices) = p.names (!a.raw.isEmpty) ∧
      (late (p.delivery.log ++ notices)).Sublist (late p.delivery.log ++ p.delayed) ∧
      ∀ r mark, .marked r mark ∉ notices := by
    unfold deliverGroup Pass.names
    rw [hp]
    obtain ⟨delivery, failed, delayed⟩ := p
    refine ⟨_, List.append_assoc _ _ _, ?_, ?_, ?_⟩
    · cases failed <;> cases delayed <;> cases a.raw <;> simp [bounced]
    · cases failed <;> cases delayed <;> cases a.raw <;> simp [late]
    · cases failed <;> cases delayed <;> cases a.raw <;> simp
  have hrecipients : (deliverGroup flags m d a).recipients = p.delivery.recipients := by
    unfold deliverGroup
    rw [hp]
  have hold : ∀ {r mark}, .marked r mark ∈ (deliverGroup flags m d a).log →
      .marked r mark ∈ p.delivery.log := by
    intro r mark hd
    rw [hlog] at hd
    exact (List.mem_append.1 hd).resolve_right (hmarked r mark)
  refine ⟨hrecipients ▸ h.unique, ⟨?_, fun f hf => ?_, fun f hf => ?_, fun r mark hd hends hnever => ?_, ?_,
    fun r error next hd => h.planned r error next (hold hd)⟩, fun r hr hpending => ?_⟩
  · rw [hlog, hbounced]
    exact h.once
  · rw [hlog, hbounced] at hf
    obtain ⟨mark, hmark, hends⟩ := h.marked f hf
    exact ⟨mark, hlog ▸ List.mem_append_left _ hmark, hends⟩
  · rw [hlog, hbounced] at hf
    exact h.never f hf
  · rw [hlog, hbounced]
    exact h.named r mark (hold hd) hends hnever
  · rw [hlog]
    exact h.lateOnce.sublist (hlate.map _)
  · rw [hlog, hbounced]
    exact h.waiting r (hrecipients ▸ hr) hpending

theorem Between.step (h : Between flags m d) (hfair : FairAttempt flags m d a)
    (hstep : step flags m d a = some d') : Between flags m d' := by
  unfold Notices.step at hstep
  split at hstep
  · rename_i hgroup
    obtain ⟨hnodup, hmem⟩ := hgroup
    cases hstep
    have hsame : a.outcomes.map (·.1) = a.group.map (·.1) := by
      unfold Attempt.outcomes
      split
      · rfl
      · rw [List.map_map]
        rfl
    have hahead : Ahead d.log { delivery := d } a.outcomes := by
      refine ⟨?_, fun x hx => ?_, fun x _ => List.not_mem_nil, rfl⟩
      · have hids := congrArg (List.map QueueRecipient.id) hsame
        rw [List.map_map, List.map_map] at hids
        exact hids ▸ hnodup
      · have hx : x.1 ∈ a.group.map (·.1) := hsame ▸ List.mem_map_of_mem hx
        obtain ⟨y, hy, heq⟩ := List.mem_map.1 hx
        exact heq ▸ hmem y hy
    exact ((h.kept _).foldl hahead hfair).between rfl
  · cases hstep

/-- A message as it is queued: nothing has happened to it yet. -/
structure Fresh (d : Delivery) : Prop where
  unique : UniqueKey QueueRecipient.id d.recipients
  log : d.log = []

theorem Fresh.between (h : Fresh d) : Between flags m d := by
  refine ⟨h.unique, ?_, ?_⟩
  · rw [h.log]
    exact ⟨List.nodup_nil, nofun, nofun, nofun, List.nodup_nil, nofun⟩
  · rw [h.log]
    exact fun _ _ _ => List.not_mem_nil

/-- **The notices are right** in every run of attempts that are fair, whatever their outcomes, the
clock and the flags of the recipients. -/
theorem notices_are_right {as : List (Attempt holds)} (hfresh : Fresh d)
    (hfair : Trace.Along (step flags m) (FairAttempt flags m) d as)
    (hrun : Trace.run (step flags m) d as = some d') : Right flags m d'.log :=
  (Trace.run_invariant (fun _ _ _ h hok hstep => Between.step h hok hstep) hfresh.between hfair hrun).right

instance (log : List Deed) (tells : Bool) (r : QueueRecipient) (t : Try holds) :
    Decidable (Fair flags m log tells r t) :=
  decidable_of_iff
    (((refused m t || givesUp m r t) → r.notifyFlags &&& flags.never = 0 → t.written → tells) ∧
      (givesUp m r t → tells → r.notifyFlags &&& flags.never = 0) ∧
      (holdsOn m t → r.id ∈ ids (late log) → r.lastError.any holds) ∧
      (holdsOn m t → t.written → t.markedAt + holdRetrySecs ≤ m.expiresAt) ∧
      ((givesUp m r t || refused m t && r.notifyFlags &&& flags.never == 0) → tells → t.written))
    ⟨fun h => ⟨h.1, h.2.1, h.2.2.1, h.2.2.2.1, h.2.2.2.2⟩,
      fun h => ⟨h.content, h.silence, h.again, h.time, h.written⟩⟩

instance (d : Delivery) (a : Attempt holds) : Decidable (FairAttempt flags m d a) :=
  inferInstanceAs (Decidable (∀ x ∈ a.outcomes, Fair flags m d.log (!a.raw.isEmpty) x.1 x.2))

end Run

/-- The flags as they are. -/
def smtpFlags : Flags := { never := 8, delay := 4 }

def blocked (error : String) : Bool := error == "550 5.7.1 S3150"

def held : Outcome blocked := .held ⟨"550 5.7.1 S3150", rfl⟩

/-- A message to three people: one whose server is down, one who wants no notices, and one at
Microsoft. -/
def waiting (id flags : Nat) : QueueRecipient :=
  { id, address := s!"mini{id}@example.net", nextAttemptAt := 0, notifyFlags := flags }

def threePeople : Delivery := { recipients := [waiting 1 0, waiting 2 8, waiting 3 4] }

def putOff (error : String) (next : Int) : QueueRecipient → QueueRecipient := QueueRecipient.marked
    (.deferred error next)

/-- Three attempts: at once, three quarters of an hour later, and when the message expires. -/
def fiveDays : List (Attempt blocked) :=
  [{ content := some [72], group :=
      [(waiting 1 0, ⟨.deferred "451 4.2.0", 10, 10, true⟩),
        (waiting 2 8, ⟨.failed "550 5.1.1", 10, 10, true⟩),
        (waiting 3 4, ⟨held, 10, 10, true⟩)] },
    { content := some [72], group :=
      [(putOff "550 5.7.1 S3150" 2710 (waiting 3 4), ⟨held, 2720, 2720, true⟩)] },
    { content := some [72], group :=
      [(putOff "451 4.2.0" 310 (waiting 1 0), ⟨.deferred "451 4.2.0", 431900, 431900, true⟩),
        (putOff "550 5.7.1 S3150" 5420 (putOff "550 5.7.1 S3150" 2710 (waiting 3 4)),
          ⟨held, 431900, 431900, true⟩)] }]

/-- The first is named when it is given up, the second never, and the third once late and once
failed. -/
theorem notices_are_right_for_three :
    ∃ d, Trace.run (step smtpFlags ⟨0, 432000⟩) threePeople fiveDays = some d ∧
      Right smtpFlags ⟨0, 432000⟩ d.log ∧
      ids (bounced d.log) = [1, 3] ∧ ids (late d.log) = [3] := by
  have hrun : (Trace.run (step smtpFlags ⟨0, 432000⟩) threePeople fiveDays).any fun d =>
      ids (bounced d.log) == [1, 3] && ids (late d.log) == [3] := by decide
  obtain ⟨d, hd, hnamed⟩ := (Option.any_eq_true _ _).1 hrun
  obtain ⟨hbounced, hlate⟩ := Bool.and_eq_true_iff.1 hnamed
  have hfresh : Fresh threePeople := ⟨by unfold UniqueKey; decide, rfl⟩
  exact ⟨d, hd, notices_are_right hfresh (by decide) hd, beq_iff_eq.1 hbounced, beq_iff_eq.1 hlate⟩

/-- Somebody asked for silence, and is told that the message was given up. -/
theorem the_silent_are_told : ¬∀ (holds : String → Bool) (flags : Flags) (m : QueuedMessage) (d d' : Delivery)
    (as : List (Attempt holds)), Fresh d → Trace.run (step flags m) d as = some d' →
        Right flags m d'.log := by
  intro hall
  have hrun : (Trace.run (step smtpFlags ⟨0, 432000⟩) { recipients := [waiting 1 8] }
      [({ content := some [72], group := [(waiting 1 8, ⟨.deferred "451 4.2.0", 431900, 431900, true⟩)] } :
        Attempt blocked)]).any fun d => (bounced d.log).any fun f =>
          f.recipient.notifyFlags &&& 8 != 0 := by decide
  obtain ⟨d, hd, htold⟩ := (Option.any_eq_true _ _).1 hrun
  obtain ⟨f, hf, hflags⟩ := List.any_eq_true.1 htold
  have hsilent := (hall blocked smtpFlags _ _ _ _ ⟨by unfold UniqueKey; decide, rfl⟩ hd).never f hf
  simp only [smtpFlags] at hsilent
  simp [hsilent] at hflags

end UwuMail.Smtp.Notices
