/-
# The outbound queue

Messages that wait for other servers, `queue.rs`.  Workers CLAIM the recipients that are due, which
leases them until a later moment, try to deliver, and hand in one RESULT per recipient; a message
goes once none of its recipients is pending.  Every call is one transaction, so a step here is one
call, and workers, administrators and the clock take theirs in any order.

* §3 is the invariant: a claim that is the NEWEST of its recipient and has no result yet has the
  recipient to itself, pending and leased; the lease of an older one is over, unless somebody asked
  for a retry.
* §4 is the result.  `update_recipient` takes any result for any recipient, so a slow attempt whose
  lease ran out can turn a delivered recipient back; where every result is that of the newest claim,
  what is delivered or failed stays so.
-/
import UwuMail.Lib.Trace
import UwuMail.Lib.Table

namespace UwuMail.Outbound

open Trace Table

/-! ## 1. The tables and the calls -/

inductive QueueRecipientStatus where
  | pending
  | delivered
  | failed
  deriving DecidableEq

/-- A row of `queue_recipients`.  `born` numbers the rows that were ever made; the table has no such
column, and gives the `id` of a row that is gone to a new one. -/
structure QueueRecipient where
  id : Nat
  messageId : Nat
  address : String
  domain : String
  status : QueueRecipientStatus := .pending
  attempts : Nat := 0
  nextAttemptAt : Int
  lastError : Option String := none
  updatedAt : Int
  born : Nat

/-- A row of `queue_messages`. -/
structure QueuedMessage where
  id : Nat
  returnPath : String
  createdAt : Int
  expiresAt : Int
  deriving DecidableEq

/-- A claim of one recipient: the call of `claim_due_deliveries` that made it, when, and until when
it leases the recipient; whether its result has come in, and whether the message was retried since. -/
structure Claim where
  pass : Nat
  recipient : Nat
  claimedAt : Int
  leaseEnd : Int
  reported : Bool := false
  retried : Bool := false

def Claim.key (c : Claim) : Nat × Nat := (c.pass, c.recipient)

def Claim.report (c : Claim) : Claim := { c with reported := true }

def Claim.retry (c : Claim) : Claim := { c with retried := true }

/-- The queue, the clock and the claims there ever were. -/
structure Queue where
  clock : Int
  messages : List QueuedMessage := []
  recipients : List QueueRecipient := []
  made : Nat := 0
  passes : Nat := 0
  claims : List Claim := []

namespace Queue

/-- The id of the next row: one more than the largest there is. -/
def nextId (ids : List Nat) : Nat := ids.foldl max 0 + 1

/-- `enqueue`, for addresses that are in their normal form already. -/
def enqueue (q : Queue) (returnPath : String) (addresses : List (String × String)) (lifetime : Int) : Queue :=
  if addresses.isEmpty then q
  else
    let id := nextId (q.messages.map (·.id))
    let first := nextId (q.recipients.map (·.id))
    { q with
      messages := q.messages ++ [⟨id, returnPath, q.clock, q.clock + lifetime⟩]
      recipients := q.recipients ++ addresses.zipIdx.map fun a =>
        { id := first + a.2, messageId := id, address := a.1.1, domain := a.1.2
          nextAttemptAt := q.clock, updatedAt := q.clock, born := q.made + a.2 }
      made := q.made + addresses.length }

/-- The recipients that are due, the longest due first, at most `limit` of them. -/
def due (q : Queue) (limit : Nat) : List QueueRecipient :=
  ((q.recipients.filter fun r =>
      r.status = .pending && decide (r.nextAttemptAt ≤ q.clock)).insertionSort
    fun a b => a.nextAttemptAt ≤ b.nextAttemptAt).take limit

/-- `claim_due_deliveries`: the recipients are leased, each with a claim of this call. -/
def claimDueDeliveries (q : Queue) (limit : Nat) (lease : Int) : Queue :=
  let ids := (q.due limit).map (·.id)
  { q with
    recipients := updateWhere (fun r => ids.contains r.id)
      (fun r => { r with nextAttemptAt := q.clock + lease }) q.recipients
    passes := q.passes + 1
    claims := q.claims ++ ids.map fun id => ⟨q.passes, id, q.clock, q.clock + lease, false, false⟩ }

/-- How an attempt went: delivered, put off until a moment, or failed (also by giving up). -/
inductive Result where
  | delivered (response : String)
  | deferred (error : String) (nextAttemptAt : Int)
  | failed (error : String)

def Result.status : Result → QueueRecipientStatus
  | .delivered _ => .delivered
  | .deferred _ _ => .pending
  | .failed _ => .failed

def Result.message : Result → String
  | .delivered response => response
  | .deferred error _ => error
  | .failed error => error

def Result.nextAttemptAt : Result → Option Int
  | .deferred _ at_ => some at_
  | _ => none

/-- `update_recipient`: whatever the row says now. -/
def updateRecipient (q : Queue) (id : Nat) (result : Result) : Queue :=
  let set (r : QueueRecipient) : QueueRecipient :=
    { r with
      status := result.status
      lastError := some result.message
      attempts := r.attempts + 1
      nextAttemptAt := result.nextAttemptAt.getD r.nextAttemptAt
      updatedAt := q.clock }
  { q with recipients := updateWhere (fun r => r.id == id) set q.recipients }

/-- `complete_queue_message`; the recipients go with the message. -/
def completeQueueMessage (q : Queue) (id : Nat) : Queue :=
  if q.recipients.any fun r => r.messageId == id && decide (r.status = .pending) then q
  else { q with
    messages := deleteWhere (fun m => m.id == id) q.messages
    recipients := deleteWhere (fun r => r.messageId == id) q.recipients }

/-- Whether `retry_queue_message` makes the recipient due. -/
def retries (id : Nat) (r : QueueRecipient) : Bool :=
  r.messageId == id && decide (r.status = .pending)

/-- `retry_queue_message`; it marks the claims of the recipients it makes due. -/
def retryQueueMessage (q : Queue) (id : Nat) : Queue :=
  let ids := (q.recipients.filter (retries id)).map (·.id)
  { q with
    recipients := updateWhere (retries id) (fun r => { r with nextAttemptAt := q.clock }) q.recipients
    claims := updateWhere (fun c => ids.contains c.recipient) Claim.retry q.claims }

end Queue

/-! ## 2. Workers, administrators and the clock -/

inductive Event where
  | tick (d : Nat)
  | enqueue (returnPath : String) (addresses : List (String × String)) (lifetime : Int)
  | claim (limit : Nat) (lease : Int)
  | result (pass recipient : Nat) (result : Queue.Result)
  | complete (message : Nat)
  | retry (message : Nat)

/-- One call.  A worker hands in one result for each claim it made. -/
def step (q : Queue) : Event → Option Queue
  | .tick d => some { q with clock := q.clock + d }
  | .enqueue returnPath addresses lifetime => some (q.enqueue returnPath addresses lifetime)
  | .claim limit lease => some (q.claimDueDeliveries limit lease)
  | .result pass recipient result =>
    if q.claims.any fun c => decide (c.key = (pass, recipient)) && !c.reported then
      some { q.updateRecipient recipient result with
        claims := updateWhere (fun c => decide (c.key = (pass, recipient)))
          Claim.report q.claims }
    else none
  | .complete message => some (q.completeQueueMessage message)
  | .retry message => some (q.retryQueueMessage message)

/-- No call claimed the recipient after this one. -/
def Newest (q : Queue) (pass recipient : Nat) : Prop :=
  ∀ c ∈ q.claims, c.recipient = recipient → c.pass ≤ pass

instance (q : Queue) (pass recipient : Nat) : Decidable (Newest q pass recipient) :=
  inferInstanceAs (Decidable (∀ c ∈ q.claims, c.recipient = recipient → c.pass ≤ pass))

/-- **Every result is that of the newest claim of its recipient.** -/
def Timely (q : Queue) : Event → Prop
  | .result pass recipient _ => Newest q pass recipient
  | _ => True

instance (q : Queue) : (e : Event) → Decidable (Timely q e)
  | .result pass recipient _ => inferInstanceAs (Decidable (Newest q pass recipient))
  | .tick _ | .enqueue _ _ _ | .claim _ _ | .complete _ | .retry _ => isTrue trivial

/-! ## 3. Leases -/

/-- Rows of their own id, made one after the other; claims of calls that were made. -/
structure Distinct (q : Queue) : Prop where
  ids : UniqueKey QueueRecipient.id q.recipients
  born : ∀ r ∈ q.recipients, r.born < q.made
  claims : UniqueKey Claim.key q.claims
  passes : ∀ c ∈ q.claims, c.pass < q.passes

/-- What an open claim is good for.  The newest of a recipient that was not retried has it pending
and leased; the lease of an older one is over. -/
structure Leased (q : Queue) : Prop extends Distinct q where
  held : ∀ c ∈ q.claims, c.reported = false → Newest q c.pass c.recipient →
    ∃ r ∈ q.recipients, r.id = c.recipient ∧ r.status = .pending ∧
      (c.retried = false → r.nextAttemptAt = c.leaseEnd)
  ended : ∀ c ∈ q.claims, c.reported = false → c.retried = false →
    ¬ Newest q c.pass c.recipient → c.leaseEnd ≤ q.clock

theorem lt_nextId {ids : List Nat} {id : Nat} (h : id ∈ ids) : id < Queue.nextId ids := by
  have hle : ∀ (l : List Nat) (a : Nat), a ≤ l.foldl max a ∧ ∀ x ∈ l, x ≤ l.foldl max a := by
    intro l
    induction l with
    | nil => simp
    | cons b l ih =>
      intro a
      obtain ⟨hmax, hmem⟩ := ih (max a b)
      refine ⟨le_trans (le_max_left a b) hmax, fun x hx => ?_⟩
      rcases List.mem_cons.1 hx with rfl | hx
      · exact le_trans (le_max_right a x) hmax
      · exact hmem x hx
  exact Nat.lt_succ_of_le ((hle ids 0).2 id h)

variable {r : QueueRecipient}

section Steps

variable {q : Queue}

/-- A recipient that is due: pending, and its time has come. -/
theorem mem_due {limit : Nat} (h : r ∈ q.due limit) :
    r ∈ q.recipients ∧ r.status = .pending ∧ r.nextAttemptAt ≤ q.clock := by
  have h := (List.perm_insertionSort _ _).mem_iff.1 (List.mem_of_mem_take h)
  simpa [and_assoc] using h

theorem Leased.tick (h : Leased q) (d : Nat) : Leased { q with clock := q.clock + d } where
  ids := h.ids
  born := h.born
  claims := h.claims
  passes := h.passes
  held := h.held
  ended := by
    intro c hc hr ht hn
    have := h.ended c hc hr ht hn
    show c.leaseEnd ≤ q.clock + d
    omega

theorem Leased.enqueue (h : Leased q) (returnPath : String) (addresses : List (String × String))
    (lifetime : Int) : Leased (q.enqueue returnPath addresses lifetime) := by
  unfold Queue.enqueue
  split
  · exact h
  · refine ⟨⟨?_, ?_, h.claims, h.passes⟩, ?_, h.ended⟩
    · refine h.ids.append_of_disjoint ?_ ?_
      · unfold UniqueKey
        simp only [List.map_map]
        have : (QueueRecipient.id ∘ fun a : (String × String) × Nat =>
            { id := Queue.nextId (q.recipients.map (·.id)) + a.2
              messageId := Queue.nextId (q.messages.map (·.id))
              address := a.1.1, domain := a.1.2, nextAttemptAt := q.clock, updatedAt := q.clock
              born := q.made + a.2 : QueueRecipient }) =
            (Queue.nextId (q.recipients.map (·.id)) + ·) ∘ Prod.snd := rfl
        rw [this, ← List.map_map, List.zipIdx_map_snd]
        exact List.Nodup.map (fun a b hab => Nat.add_left_cancel hab) List.nodup_range'
      · intro r hr r' hr'
        obtain ⟨a, -, rfl⟩ := List.mem_map.1 hr'
        have hlt : r.id < Queue.nextId (q.recipients.map (·.id)) :=
          lt_nextId (List.mem_map_of_mem hr)
        show r.id ≠ Queue.nextId (q.recipients.map (·.id)) + a.2
        omega
    · intro r hr
      rcases List.mem_append.1 hr with hr | hr
      · exact Nat.lt_of_lt_of_le (h.born r hr) (Nat.le_add_right _ _)
      · obtain ⟨a, ha, rfl⟩ := List.mem_map.1 hr
        have := (List.mem_zipIdx' ha).1
        show q.made + a.2 < q.made + addresses.length
        omega
    · intro c hc hrep hnew
      obtain ⟨r, hr, hrest⟩ := h.held c hc hrep hnew
      exact ⟨r, List.mem_append_left _ hr, hrest⟩

/-- **A recipient is only claimed once the lease of every open claim of it is over.** -/
theorem Leased.due_free (h : Leased q) {limit : Nat} (hr : r ∈ q.due limit)
    {c : Claim} (hc : c ∈ q.claims) (hid : c.recipient = r.id) (hrep : c.reported = false)
    (hret : c.retried = false) : c.leaseEnd ≤ q.clock := by
  obtain ⟨hmem, -, hdue⟩ := mem_due hr
  by_cases hnew : Newest q c.pass c.recipient
  · obtain ⟨r', hr', hid', -, hlease⟩ := h.held c hc hrep hnew
    have : r' = r := h.ids.eq hr' hmem (hid'.trans hid)
    rw [← hlease hret, this]
    exact hdue
  · exact h.ended c hc hrep hret hnew

theorem mem_claims_claim {limit : Nat} {lease : Int} {c : Claim} :
    c ∈ (q.claimDueDeliveries limit lease).claims ↔ c ∈ q.claims ∨
      ∃ r ∈ q.due limit, c = ⟨q.passes, r.id, q.clock, q.clock + lease, false, false⟩ := by
  simp [Queue.claimDueDeliveries, eq_comm]

theorem Leased.claim (h : Leased q) (limit : Nat) (lease : Int) :
    Leased (q.claimDueDeliveries limit lease) := by
  have hdue : ((q.due limit).map (·.id)).Nodup := by
    refine List.Nodup.sublist ((List.take_sublist _ _).map _) ?_
    exact ((List.perm_insertionSort _ _).map _).nodup_iff.2 (h.ids.sublist List.filter_sublist)
  have hold : ∀ c ∈ q.claims, c.pass < q.passes := h.passes
  refine ⟨⟨?_, ?_, ?_, ?_⟩, ?_, ?_⟩
  · exact h.ids.updateWhere (f := fun r => { r with nextAttemptAt := q.clock + lease })
      (fun _ => rfl) _
  · intro r hr
    obtain ⟨r₀, hr₀, rfl⟩ := mem_updateWhere.1 hr
    have := h.born r₀ hr₀
    split <;> exact this
  · refine h.claims.append_of_disjoint ?_ ?_
    · unfold UniqueKey
      rw [List.map_map]
      exact List.Nodup.map (fun a b hab => by simpa [Claim.key] using hab) hdue
    · intro c hc c' hc'
      obtain ⟨id, -, rfl⟩ := List.mem_map.1 hc'
      have := hold c hc
      simp only [Claim.key, ne_eq, Prod.mk.injEq, not_and]
      intro hp
      omega
  · intro c hc
    show c.pass < q.passes + 1
    rcases mem_claims_claim.1 hc with hc | ⟨r, -, rfl⟩
    · exact Nat.lt_succ_of_lt (hold c hc)
    · exact Nat.lt_succ_self _
  · intro c hc hrep hnew
    rcases mem_claims_claim.1 hc with hc | ⟨r, hr, rfl⟩
    · -- An old claim is still the newest only where this call claimed nothing.
      have hout : c.recipient ∉ (q.due limit).map (·.id) := by
        intro hin
        obtain ⟨r, hr, hid⟩ := List.mem_map.1 hin
        have := hnew _ (mem_claims_claim.2 (Or.inr ⟨r, hr, rfl⟩)) hid
        have := hold c hc
        simp only at *
        omega
      obtain ⟨r, hr, hid, hst, hlease⟩ := h.held c hc hrep fun c' hc' =>
        hnew c' (mem_claims_claim.2 (.inl hc'))
      refine ⟨r, mem_updateWhere.2 ⟨r, hr, ?_⟩, hid, hst, hlease⟩
      rw [if_neg (by simpa [hid] using hout)]
    · obtain ⟨hmem, hst, -⟩ := mem_due hr
      refine ⟨{ r with nextAttemptAt := q.clock + lease }, mem_updateWhere.2 ⟨r, hmem, ?_⟩, rfl, hst,
        fun _ => rfl⟩
      rw [if_pos (by simpa using ⟨r, hr, rfl⟩)]
  · intro c hc hrep hret hnew
    rcases mem_claims_claim.1 hc with hc | ⟨r, hr, rfl⟩
    · by_cases hnew₀ : Newest q c.pass c.recipient
      · -- It was the newest until now, so this call claimed its recipient.
        obtain ⟨c', hc', hid, hlt⟩ : ∃ c' ∈ (q.claimDueDeliveries limit lease).claims,
            c'.recipient = c.recipient ∧ c.pass < c'.pass := by
          unfold Newest at hnew
          push Not at hnew
          exact hnew
        rcases mem_claims_claim.1 hc' with hc' | ⟨r, hr, rfl⟩
        · exact absurd (hnew₀ c' hc' hid) (not_le.2 hlt)
        · exact h.due_free hr hc hid.symm hrep hret
      · exact h.ended c hc hrep hret hnew₀
    · refine absurd ?_ hnew
      intro c' hc' _
      rcases mem_claims_claim.1 hc' with hc' | ⟨r', -, rfl⟩
      · exact le_of_lt (hold c' hc')
      · exact le_rfl

/-- A result leaves every row but its recipient's alone. -/
theorem mem_updateRecipient {id : Nat} {result : Queue.Result}
    (hr : r ∈ q.recipients) (hid : r.id ≠ id) : r ∈ (q.updateRecipient id result).recipients :=
  mem_updateWhere.2 ⟨r, hr, by rw [if_neg (by simpa using hid)]⟩

theorem exists_of_mem_updateRecipient {id : Nat} {result : Queue.Result}
    (hr : r ∈ (q.updateRecipient id result).recipients) :
    ∃ r₀ ∈ q.recipients, r₀.id = r.id ∧ r₀.born = r.born ∧ (r₀.id ≠ id → r = r₀) := by
  obtain ⟨r₀, hr₀, rfl⟩ := mem_updateWhere.1 hr
  refine ⟨r₀, hr₀, ?_⟩
  split
  · next hid => exact ⟨rfl, rfl, fun hne => absurd (by simpa using hid) hne⟩
  · exact ⟨rfl, rfl, fun _ => rfl⟩

/-- Setting a mark on some claims keeps which of them is the newest. -/
theorem newest_updateWhere {p : Claim → Bool} {f : Claim → Claim} (hf : ∀ c, (f c).key = c.key)
    {q' : Queue} (hq' : q'.claims = updateWhere p f q.claims) {pass recipient : Nat} :
    Newest q' pass recipient ↔ Newest q pass recipient := by
  have hpass : ∀ c, (f c).pass = c.pass := fun c => congrArg Prod.fst (hf c)
  have hrec : ∀ c, (f c).recipient = c.recipient := fun c => congrArg Prod.snd (hf c)
  unfold Newest
  rw [hq']
  constructor
  · intro h c hc hid
    have := h (if p c then f c else c) (mem_updateWhere.2 ⟨c, hc, rfl⟩)
    split at this
    · rw [hpass, hrec] at this
      exact this hid
    · exact this hid
  · intro h c hc hid
    obtain ⟨c₀, hc₀, rfl⟩ := mem_updateWhere.1 hc
    by_cases hp : p c₀
    · rw [if_pos hp] at hid ⊢
      rw [hpass]
      exact h c₀ hc₀ (by rw [← hrec]; exact hid)
    · rw [if_neg hp] at hid ⊢
      exact h c₀ hc₀ hid

theorem Leased.result (h : Leased q) {pass recipient : Nat} (result : Queue.Result)
    (hclaim : ∃ c ∈ q.claims, c.key = (pass, recipient)) (hnew : Newest q pass recipient) :
    Leased { q.updateRecipient recipient result with
      claims := updateWhere (fun c => decide (c.key = (pass, recipient)))
        Claim.report q.claims } := by
  have hsame : ∀ {p r : Nat}, Newest { q.updateRecipient recipient result with
      claims := updateWhere (fun c => decide (c.key = (pass, recipient)))
        Claim.report q.claims } p r ↔ Newest q p r :=
    newest_updateWhere (f := Claim.report) (fun _ => rfl) rfl
  -- The claims that are open afterwards are the others that were.
  have hopen : ∀ c ∈ updateWhere (fun c => decide (c.key = (pass, recipient)))
      Claim.report q.claims, c.reported = false →
      c ∈ q.claims ∧ c.key ≠ (pass, recipient) := by
    intro c hc hrep
    obtain ⟨c₀, hc₀, rfl⟩ := mem_updateWhere.1 hc
    split at hrep
    · cases hrep
    · next hk => exact ⟨by rw [if_neg hk]; exact hc₀, by rw [if_neg hk]; simpa using hk⟩
  refine ⟨⟨?_, ?_, ?_, ?_⟩, ?_, ?_⟩
  · exact UniqueKey.updateWhere h.ids (fun _ => by rfl) _
  · intro r hr
    obtain ⟨r₀, hr₀, -, hborn, -⟩ := exists_of_mem_updateRecipient hr
    rw [← hborn]
    exact h.born r₀ hr₀
  · exact h.claims.updateWhere (f := Claim.report) (fun _ => rfl) _
  · intro c hc
    obtain ⟨c₀, hc₀, rfl⟩ := mem_updateWhere.1 hc
    have := h.passes c₀ hc₀
    split <;> exact this
  · intro c hc hrep hn
    obtain ⟨hc₀, hkey⟩ := hopen c hc hrep
    obtain ⟨r, hr, hid, hrest⟩ := h.held c hc₀ hrep (hsame.1 hn)
    refine ⟨r, mem_updateRecipient hr ?_, hid, hrest⟩
    -- Two newest claims of one recipient are one claim.
    intro heq
    obtain ⟨c₁, hc₁, hkey₁⟩ := hclaim
    have hrec : c.recipient = recipient := hid.symm.trans heq
    have hpass₁ : c₁.pass = pass := congrArg Prod.fst hkey₁
    have hle : c₁.pass ≤ c.pass := hsame.1 hn c₁ hc₁ ((congrArg Prod.snd hkey₁).trans hrec.symm)
    have hge : c.pass ≤ pass := hnew c hc₀ hrec
    exact hkey (Prod.ext (by show c.pass = pass; omega) hrec)
  · intro c hc hrep hret hn
    obtain ⟨hc₀, -⟩ := hopen c hc hrep
    exact h.ended c hc₀ hrep hret fun hn₀ => hn (hsame.2 hn₀)

theorem Leased.complete (h : Leased q) (id : Nat) : Leased (q.completeQueueMessage id) := by
  unfold Queue.completeQueueMessage
  split
  · exact h
  · next hpend =>
    refine ⟨⟨h.ids.deleteWhere _, ?_, h.claims, h.passes⟩, ?_, h.ended⟩
    · intro r hr
      exact h.born r (mem_deleteWhere.1 hr).1
    · intro c hc hrep hn
      obtain ⟨r, hr, hid, hst, hrest⟩ := h.held c hc hrep hn
      refine ⟨r, mem_deleteWhere.2 ⟨hr, ?_⟩, hid, hst, hrest⟩
      simp only [List.any_eq_true, not_exists, not_and] at hpend
      have := hpend r hr
      simpa [hst] using this

theorem Leased.retry (h : Leased q) (id : Nat) : Leased (q.retryQueueMessage id) := by
  have hsame : ∀ {p r : Nat}, Newest (q.retryQueueMessage id) p r ↔ Newest q p r :=
    newest_updateWhere (f := Claim.retry) (fun _ => rfl) rfl
  refine ⟨⟨?_, ?_, ?_, ?_⟩, ?_, ?_⟩
  · exact h.ids.updateWhere (f := fun r => { r with nextAttemptAt := q.clock }) (fun _ => rfl) _
  · intro r hr
    obtain ⟨r₀, hr₀, rfl⟩ := mem_updateWhere.1 hr
    have := h.born r₀ hr₀
    split <;> exact this
  · exact h.claims.updateWhere (f := Claim.retry) (fun _ => rfl) _
  · intro c hc
    obtain ⟨c₀, hc₀, rfl⟩ := mem_updateWhere.1 hc
    have := h.passes c₀ hc₀
    split <;> exact this
  · intro c hc hrep hn
    obtain ⟨c₀, hc₀, rfl⟩ := mem_updateWhere.1 hc
    have hn := hsame.1 hn
    by_cases hin : ((q.recipients.filter (Queue.retries id)).map (·.id)).contains c₀.recipient
    · rw [if_pos hin] at hrep hn ⊢
      obtain ⟨r, hr, hid, hst, -⟩ := h.held c₀ hc₀ hrep hn
      refine ⟨if Queue.retries id r then { r with nextAttemptAt := q.clock } else r,
        mem_updateWhere.2 ⟨r, hr, rfl⟩, ?_, ?_, fun hret => by cases hret⟩
      · split <;> exact hid
      · split <;> exact hst
    · rw [if_neg hin] at hrep hn ⊢
      obtain ⟨r, hr, hid, hst, hlease⟩ := h.held c₀ hc₀ hrep hn
      refine ⟨r, mem_updateWhere.2 ⟨r, hr, ?_⟩, hid, hst, hlease⟩
      rw [if_neg]
      intro hret
      refine hin ?_
      simp only [List.contains_eq_mem, decide_eq_true_eq]
      exact List.mem_map.2 ⟨r, List.mem_filter.2 ⟨hr, hret⟩, hid⟩
  · intro c hc hrep hret hn
    obtain ⟨c₀, hc₀, rfl⟩ := mem_updateWhere.1 hc
    by_cases hin : ((q.recipients.filter (Queue.retries id)).map (·.id)).contains c₀.recipient
    · rw [if_pos hin] at hret
      cases hret
    · rw [if_neg hin] at hrep hret hn ⊢
      exact h.ended c₀ hc₀ hrep hret fun hn₀ => hn (hsame.2 hn₀)

end Steps

variable {q q' : Queue}

theorem Leased.step {e : Event} (h : Leased q) (hok : Timely q e)
    (hs : step q e = some q') : Leased q' := by
  cases e with
  | tick d => cases hs; exact h.tick d
  | enqueue returnPath addresses lifetime => cases hs; exact h.enqueue returnPath addresses lifetime
  | claim limit lease => cases hs; exact h.claim limit lease
  | result pass recipient result =>
    simp only [Outbound.step] at hs
    split at hs
    · next hany =>
      cases hs
      obtain ⟨c, hc, hp⟩ := List.any_eq_true.1 hany
      simp only [Bool.and_eq_true, decide_eq_true_eq] at hp
      exact h.result result ⟨c, hc, hp.1⟩ hok
    · cases hs
  | complete message => cases hs; exact h.complete message
  | retry message => cases hs; exact h.retry message

/-! ## 4. What is finished stays finished -/

/-- A queue in which nothing waits. -/
def Queue.empty (clock : Int) : Queue := { clock := clock }

theorem Leased.empty (clock : Int) : Leased (.empty clock) where
  ids := List.nodup_nil
  born := by simp [Queue.empty]
  claims := List.nodup_nil
  passes := by simp [Queue.empty]
  held := by simp [Queue.empty]
  ended := by simp [Queue.empty]

/-- Where a row of the queue comes from: it is new, or it was there with the status it has, or it is
the recipient of the result that came in. -/
theorem mem_recipients_step {e : Event} (hs : step q e = some q')
    (hr : r ∈ q'.recipients) : q.made ≤ r.born ∨ ∃ r₀ ∈ q.recipients, r₀.id = r.id ∧
      r₀.born = r.born ∧ (r.status = r₀.status ∨ ∃ pass result, e = .result pass r₀.id result) := by
  cases e with
  | tick d => cases hs; exact .inr ⟨r, hr, rfl, rfl, .inl rfl⟩
  | enqueue returnPath addresses lifetime =>
    cases hs
    unfold Queue.enqueue at hr
    split at hr
    · exact .inr ⟨r, hr, rfl, rfl, .inl rfl⟩
    · rcases List.mem_append.1 hr with hr | hr
      · exact .inr ⟨r, hr, rfl, rfl, .inl rfl⟩
      · obtain ⟨a, -, rfl⟩ := List.mem_map.1 hr
        exact .inl (Nat.le_add_right _ _)
  | claim limit lease =>
    cases hs
    obtain ⟨r₀, hr₀, rfl⟩ := mem_updateWhere.1 hr
    refine .inr ⟨r₀, hr₀, ?_⟩
    split <;> exact ⟨rfl, rfl, .inl rfl⟩
  | result pass recipient result =>
    simp only [Outbound.step] at hs
    split at hs
    · cases hs
      obtain ⟨r₀, hr₀, hid, hborn, hrest⟩ := exists_of_mem_updateRecipient hr
      refine .inr ⟨r₀, hr₀, hid, hborn, ?_⟩
      by_cases heq : r₀.id = recipient
      · exact .inr ⟨pass, result, by rw [heq]⟩
      · exact .inl (by rw [hrest heq])
    · cases hs
  | complete message =>
    cases hs
    unfold Queue.completeQueueMessage at hr
    split at hr
    · exact .inr ⟨r, hr, rfl, rfl, .inl rfl⟩
    · exact .inr ⟨r, (mem_deleteWhere.1 hr).1, rfl, rfl, .inl rfl⟩
  | retry message =>
    cases hs
    obtain ⟨r₀, hr₀, rfl⟩ := mem_updateWhere.1 hr
    refine .inr ⟨r₀, hr₀, ?_⟩
    split <;> exact ⟨rfl, rfl, .inl rfl⟩

theorem made_le_step {e : Event} (hs : step q e = some q') : q.made ≤ q'.made := by
  cases e with
  | enqueue returnPath addresses lifetime =>
    cases hs
    unfold Queue.enqueue
    split
    · exact le_rfl
    · exact Nat.le_add_right _ _
  | result pass recipient result =>
    simp only [Outbound.step] at hs
    split at hs
    · cases hs; exact le_rfl
    · cases hs
  | complete message =>
    cases hs
    unfold Queue.completeQueueMessage
    split <;> exact le_rfl
  | tick d => cases hs; exact le_rfl
  | claim limit lease => cases hs; exact le_rfl
  | retry message => cases hs; exact le_rfl

/-- A later state of the same row: the id alone is not enough, a new row may have got it. -/
def QueueRecipient.Same (r r' : QueueRecipient) : Prop := r'.id = r.id ∧ r'.born = r.born

/-- One step: a result of the newest claim finds its recipient pending, so no finished row moves. -/
theorem status_step {e : Event} (h : Leased q) (hok : Timely q e)
    (hs : step q e = some q') {r r' : QueueRecipient} (hr : r ∈ q.recipients)
    (hdone : r.status ≠ .pending) (hr' : r' ∈ q'.recipients) (hsame : r.Same r') :
    r'.status = r.status := by
  rcases mem_recipients_step hs hr' with hnew | ⟨r₀, hr₀, hid₀, -, hst⟩
  · exact absurd hnew (not_le.2 (hsame.2 ▸ h.born r hr))
  have heq : r₀ = r := h.ids.eq hr₀ hr (hid₀.trans hsame.1)
  subst heq
  rcases hst with hst | ⟨pass, result, rfl⟩
  · exact hst
  · exfalso
    simp only [step] at hs
    split at hs
    · next hany =>
      obtain ⟨c, hc, hp⟩ := List.any_eq_true.1 hany
      simp only [Bool.and_eq_true, decide_eq_true_eq, Bool.not_eq_true', Claim.key,
        Prod.mk.injEq] at hp
      obtain ⟨⟨hpass, hrec⟩, hrep⟩ := hp
      obtain ⟨r₁, hr₁, hid₁, hpend, -⟩ := h.held c hc hrep (by rw [hpass, hrec]; exact hok)
      exact hdone ((h.ids.eq hr₁ hr₀ (hid₁.trans hrec)) ▸ hpend)
    · cases hs

/-- A whole run: a row that is finished has the same status in every later state it is in. -/
theorem status_run {es : List Event} (h : Leased q)
    (hok : Along step Timely q es) (hrun : run step q es = some q') {r r' : QueueRecipient}
    (hr : r ∈ q.recipients) (hdone : r.status ≠ .pending) (hr' : r' ∈ q'.recipients)
    (hsame : r.Same r') : r'.status = r.status := by
  have hinv := run_invariant (P := fun u => Leased u ∧ r.born < u.made ∧
      ∀ r' ∈ u.recipients, r.Same r' → r'.status = r.status)
    (by
      rintro u e u' ⟨hu, hborn, hst⟩ hok hs
      refine ⟨hu.step hok hs, lt_of_lt_of_le hborn (made_le_step hs), ?_⟩
      intro r'' hr'' hsame''
      rcases mem_recipients_step hs hr'' with hnew | ⟨r₀, hr₀, hid₀, hborn₀, -⟩
      · exact absurd hnew (not_le.2 (hsame''.2 ▸ hborn))
      · have h₀ := hst r₀ hr₀ ⟨hid₀.trans hsame''.1, hborn₀.trans hsame''.2⟩
        rw [← h₀]
        exact status_step hu hok hs hr₀ (by rw [h₀]; exact hdone) hr'' ⟨hid₀.symm, hborn₀.symm⟩)
    ⟨h, h.born r hr, fun r₁ hr₁ hs₁ => by rw [h.ids.eq hr₁ hr hs₁.1]⟩ hok hrun
  exact hinv.2.2 r' hr' hsame

/-- A message only goes with `complete_queue_message`, and only when none of its recipients is
pending. -/
theorem message_removed_step {e : Event} (hs : step q e = some q')
    {m : QueuedMessage} (hm : m ∈ q.messages) (hgone : m ∉ q'.messages) :
    ∀ r ∈ q.recipients, r.messageId = m.id → r.status ≠ .pending := by
  cases e with
  | tick d => cases hs; exact absurd hm hgone
  | enqueue returnPath addresses lifetime =>
    cases hs
    refine absurd ?_ hgone
    unfold Queue.enqueue
    split
    · exact hm
    · exact List.mem_append_left _ hm
  | claim limit lease => cases hs; exact absurd hm hgone
  | result pass recipient result =>
    simp only [step] at hs
    split at hs
    · cases hs; exact absurd hm hgone
    · cases hs
  | complete message =>
    cases hs
    unfold Queue.completeQueueMessage at hgone
    split at hgone
    · exact absurd hm hgone
    · next hpend =>
      have hid : m.id = message := by
        by_contra hne
        exact hgone (mem_deleteWhere.2 ⟨hm, by simpa using hne⟩)
      intro r hr hmsg hst
      simp only [List.any_eq_true, not_exists, not_and] at hpend
      have := hpend r hr
      simp [hst, hmsg, hid] at this
  | retry message => cases hs; exact absurd hm hgone

/-- **The queue is safe where results come in time.**  In every run in which each result is that of
the newest claim of its recipient: a message is removed only when none of its recipients is pending;
a recipient is not claimed while a claim of it without a result has its lease, unless it was
retried; and a recipient that was delivered or failed keeps that status. -/
theorem queue_safe (clock : Int) (es : List Event) (q : Queue)
    (hrun : run step (.empty clock) es = some q) (hok : Along step Timely (.empty clock) es) :
    (∀ e q', step q e = some q' → ∀ m ∈ q.messages, m ∉ q'.messages →
      ∀ r ∈ q.recipients, r.messageId = m.id → r.status ≠ .pending) ∧
    (∀ limit lease q', step q (.claim limit lease) = some q' → ∀ c' ∈ q'.claims, c' ∉ q.claims →
      ∀ c ∈ q.claims, c.recipient = c'.recipient → c.reported = false → c.retried = false →
        c.leaseEnd ≤ c'.claimedAt) ∧
    (∀ es' q', run step q es' = some q' → Along step Timely q es' → ∀ r ∈ q.recipients,
      r.status ≠ .pending → ∀ r' ∈ q'.recipients, r.Same r' → r'.status = r.status) := by
  have h : Leased q := run_invariant (fun _ _ _ h hok hs => h.step hok hs) (.empty clock) hok hrun
  refine ⟨?_, ?_, ?_⟩
  · intro e q' hs m hm hgone
    exact message_removed_step hs hm hgone
  · intro limit lease q' hs c' hc' hnew c hc hid hrep hret
    cases hs
    rcases mem_claims_claim.1 hc' with hold | ⟨r, hr, rfl⟩
    · exact absurd hold hnew
    · exact h.due_free hr hc hid hrep hret
  · intro es' q' hrun' hok' r hr hdone r' hr' hsame
    exact status_run h hok' hrun' hr hdone hr' hsame

/-- One mail to one address: queued, claimed for an hour and delivered. -/
def sentAtOnce : List Event :=
  [.enqueue "mini@example.org" [("nyu@example.net", "example.net")] 86400, .claim 200 3600,
    .result 0 1 (.delivered "250 2.0.0 Ok")]

theorem queue_safe_sentAtOnce :
    (run step (.empty 0) sentAtOnce).map (fun q => q.recipients.map (·.status)) = some [.delivered] ∧
    ∀ q, run step (.empty 0) sentAtOnce = some q → ∀ es' q', run step q es' = some q' →
      Along step Timely q es' → ∀ r ∈ q.recipients, r.status ≠ .pending →
        ∀ r' ∈ q'.recipients, r.Same r' → r'.status = r.status :=
  ⟨by decide, fun q hq => (queue_safe 0 sentAtOnce q hq (by decide)).2.2⟩

/-- The first attempt outlasts its lease of an hour, so the recipient is claimed again. -/
def claimedTwice : List Event :=
  [.enqueue "mini@example.org" [("nyu@example.net", "example.net")] 86400, .claim 200 3600,
    .tick 3600, .claim 200 3600]

/-- **A delivered recipient turns pending again**, whichever of the two attempts is done first: the
result of the other one is written over it. -/
theorem delivered_turns_pending :
    let delivered := fun pass => Event.result pass 1 (.delivered "250 2.0.0 Ok")
    let deferred := fun pass => Event.result pass 1 (.deferred "451 4.3.0 try again later" 7500)
    let statuses := fun es => (run step (.empty 0) es).map fun q => q.recipients.map (·.status)
    (statuses (claimedTwice ++ [delivered 1]) = some [.delivered] ∧
      statuses (claimedTwice ++ [delivered 1, deferred 0]) = some [.pending]) ∧
    statuses (claimedTwice ++ [delivered 0]) = some [.delivered] ∧
      statuses (claimedTwice ++ [delivered 0, deferred 1]) = some [.pending] := by
  decide

end UwuMail.Outbound
