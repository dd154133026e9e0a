/-
# Who uses the backup repository

The tasks of `service.rs` on one `Backups`, in one process: backups, which prune what no snapshot
needs; fetching a snapshot to restore the whole server; and taking a mailbox out of a snapshot.
What keeps them apart is a mutex (`running`), a flag (`backing_up`), and the states of the two
restores (`fetching`, `mailbox`), each under a lock of its own.  A request looks at some of them one
after the other, so every look, every claim and every release is a step of its own.

* In every run (§2) the mutex has one holder, the flag is up while a backup runs, the fetch has one
  owner.  So there is at most one of each, and a backup never runs under the restore of a mailbox.
* §3 is the whole-server restore.  It LOOKS at the flag and takes no mutex, and a backup does not
  look at `fetching` at all, so a backup can begin while the restore reads; where none begins
  between that look and the end of the fetch, they are apart.
-/
import UwuMail.Lib.Trace

namespace UwuMail.Backup

open Trace

/-! ## 1. Tasks and their steps -/

/-- What the scheduler reads of the settings. -/
structure BackupSettings where
  enabled : Bool := false
  target : Bool := false
  hour : Nat := 1
  minute : Nat := 0

structure BackupStatus where
  lastAttemptAt : Option Int := none
  lastSuccessAt : Option Int := none

def retrySecs : Int := 3600

/-- The minute of the day the daily backup starts at. -/
def minuteOfDay (settings : BackupSettings) : Int := settings.hour * 60 + settings.minute

def succeededToday (status : BackupStatus) (now : Int) : Bool :=
  status.lastSuccessAt.any fun at_ => decide (at_ / 86400 = now / 86400)

/-- Whether the daily run is due. -/
def due (settings : BackupSettings) (status : BackupStatus) (now : Int) : Bool :=
  if !settings.enabled || !settings.target then false
  else if now % 86400 / 60 < minuteOfDay settings then false
  else
    let triedRecently := status.lastAttemptAt.any fun at_ => decide (now - at_ < retrySecs)
    !succeededToday status now && !triedRecently

/-- `Fetching::state` -/
inductive Fetching where
  | idle
  | fetching
  | ready
  | failed
  deriving DecidableEq

/-- `MailboxRestore::state` -/
inductive MailboxRestore where
  | idle
  | opening
  | open
  | restoring
  | failed
  deriving DecidableEq

/-- A call of `run_now`: it has the mutex, the flag is up, the flag is down again, it is over. -/
inductive RunNow where
  | locked
  | running
  | lowered
  | over
  deriving DecidableEq

/-- A whole-server restore: `start_restore` after each of its looks, then its claim, and
`fetch_restore` while it reads the repository, when it has closed it, and when it has left its note. -/
inductive Restore where
  | asked
  | unstaged
  | noBackup
  | noMailbox
  | claimed
  | fetching
  | fetched (ok : Bool)
  | noted (ok : Bool)
  | over
  deriving DecidableEq

/-- What a job on a snapshot is: opening one, restoring a mailbox from the open one, or both at once
for the command line. -/
inductive Kind where
  | opening
  | restoring
  | direct
  deriving DecidableEq

/-- A job on a snapshot: the looks of `claim_mailbox`, then reading the repository with the mutex,
and the mutex let go. -/
inductive Job where
  | asked (kind : Kind)
  | unstaged (kind : Kind)
  | looked (kind : Kind)
  | reading (kind : Kind)
  | released (kind : Kind) (ok : Bool)
  | over

/-- The service: its settings and status, what its locks protect, and the tasks there ever were.
`staged` is whether the note for the next start is there, `canRestore` whether there is a place to
restore into. -/
structure Backups where
  clock : Int
  settings : BackupSettings := {}
  status : BackupStatus := {}
  canRestore : Bool := true
  staged : Bool := false
  running : Bool := false
  backingUp : Bool := false
  fetching : Fetching := .idle
  mailbox : MailboxRestore := .idle
  runs : List RunNow := []
  restores : List Restore := []
  jobs : List Job := []

inductive Event where
  | tick (d : Nat)
  | saveSettings (settings : BackupSettings)
  | scheduler
  | runNow
  | raise (i : Nat)
  | lower (i : Nat) (ok : Bool)
  | unlock (i : Nat)
  | startRestore
  | lookStaged (i : Nat)
  | lookRunning (i : Nat)
  | lookMailbox (i : Nat)
  | claimRestore (i : Nat)
  | settingsRead (i : Nat)
  | fetchEnd (i : Nat) (ok : Bool)
  | note (i : Nat) (ok : Bool)
  | settle (i : Nat)
  | openSnapshot
  | startMailboxRestore
  | restoreMailboxNow
  | jobStaged (i : Nat)
  | jobFetching (i : Nat)
  | claimMailbox (i : Nat)
  | readEnd (i : Nat) (ok : Bool)
  | jobSettle (i : Nat)
  | closeSnapshot

namespace Backups

def mailboxBusy (b : Backups) : Bool := b.mailbox = .opening || b.mailbox = .restoring

/-- `run_now` tries the mutex and writes down the attempt; without the mutex it is refused. -/
def runNow (b : Backups) : Backups :=
  if b.running then b
  else { b with running := true, runs := b.runs ++ [.locked] }

/-- The state after a job of this kind. -/
def settled : Kind → Bool → MailboxRestore → MailboxRestore
  | .opening, true, _ => .open
  | .opening, false, _ => .failed
  | .restoring, _, _ => .open
  | .direct, _, mailbox => mailbox

/-- One step of one task. -/
def step (b : Backups) : Event → Option Backups
  | .tick d => some { b with clock := b.clock + d }
  | .saveSettings settings => some { b with settings := settings }
  | .scheduler => some (if due b.settings b.status b.clock then b.runNow else b)
  | .runNow => some b.runNow
  | .raise i =>
    match b.runs[i]? with
    | some .locked => some { b with
        backingUp := true, runs := b.runs.set i .running
        status := { b.status with lastAttemptAt := some b.clock } }
    | _ => none
  | .lower i ok =>
    match b.runs[i]? with
    | some .running => some { b with
        backingUp := false, runs := b.runs.set i .lowered
        status := if ok then { b.status with lastSuccessAt := some b.clock } else b.status }
    | _ => none
  | .unlock i =>
    match b.runs[i]? with
    | some .lowered => some { b with running := false, runs := b.runs.set i .over }
    | _ => none
  | .startRestore =>
    some (if b.canRestore then { b with restores := b.restores ++ [.asked] } else b)
  | .lookStaged i =>
    match b.restores[i]? with
    | some .asked => some { b with
        restores := b.restores.set i (if b.staged then .over else .unstaged) }
    | _ => none
  | .lookRunning i =>
    match b.restores[i]? with
    | some .unstaged => some { b with
        restores := b.restores.set i (if b.backingUp then .over else .noBackup) }
    | _ => none
  | .lookMailbox i =>
    match b.restores[i]? with
    | some .noBackup => some { b with
        restores := b.restores.set i (if b.mailboxBusy then .over else .noMailbox) }
    | _ => none
  | .claimRestore i =>
    match b.restores[i]? with
    | some .noMailbox =>
      if b.fetching = .fetching then some { b with restores := b.restores.set i .over }
      else some { b with fetching := .fetching, restores := b.restores.set i .claimed }
    | _ => none
  | .settingsRead i =>
    match b.restores[i]? with
    | some .claimed =>
      if b.settings.target then some { b with restores := b.restores.set i .fetching }
      else some { b with fetching := .idle, restores := b.restores.set i .over }
    | _ => none
  | .fetchEnd i ok =>
    match b.restores[i]? with
    | some .fetching => some { b with restores := b.restores.set i (.fetched ok) }
    | _ => none
  | .note i ok =>
    match b.restores[i]? with
    | some (.fetched true) => some { b with
        staged := b.staged || ok, restores := b.restores.set i (.noted ok) }
    | some (.fetched false) => some { b with restores := b.restores.set i (.noted false) }
    | _ => none
  | .settle i =>
    match b.restores[i]? with
    | some (.noted ok) => some { b with
        fetching := if ok then .ready else .failed, restores := b.restores.set i .over }
    | _ => none
  | .openSnapshot => some { b with jobs := b.jobs ++ [.asked .opening] }
  | .startMailboxRestore => some { b with jobs := b.jobs ++ [.asked .restoring] }
  | .restoreMailboxNow =>
    some (if b.running then b else { b with running := true, jobs := b.jobs ++ [.reading .direct] })
  | .jobStaged i =>
    match b.jobs[i]? with
    | some (.asked kind) => some { b with
        jobs := b.jobs.set i (if b.staged then .over else .unstaged kind) }
    | _ => none
  | .jobFetching i =>
    match b.jobs[i]? with
    | some (.unstaged kind) => some { b with
        jobs := b.jobs.set i (if b.fetching = .fetching then .over else .looked kind) }
    | _ => none
  | .claimMailbox i =>
    match b.jobs[i]? with
    | some (.looked kind) =>
      if b.mailboxBusy || (decide (kind = .restoring) && decide (b.mailbox ≠ .open)) || b.running then
        some { b with jobs := b.jobs.set i .over }
      else some { b with
        running := true
        mailbox := if kind = .restoring then .restoring else .opening
        jobs := b.jobs.set i (.reading kind) }
    | _ => none
  | .readEnd i ok =>
    match b.jobs[i]? with
    | some (.reading kind) => some { b with
        running := false, jobs := b.jobs.set i (.released kind ok) }
    | _ => none
  | .jobSettle i =>
    match b.jobs[i]? with
    | some (.released kind ok) => some { b with
        mailbox := settled kind ok b.mailbox, jobs := b.jobs.set i .over }
    | _ => none
  | .closeSnapshot => some (if b.mailboxBusy then b else { b with mailbox := .idle })

/-- Backups that are running. -/
def backing (b : Backups) : Nat := b.runs.countP (· = .running)

/-- Whole-server restores that are reading the repository. -/
def fetches (b : Backups) : Nat := b.restores.countP (· = .fetching)

end Backups

/-- Jobs on a snapshot that are reading the repository. -/
def Job.reads : Job → Bool
  | .reading _ => true
  | _ => false

def Backups.mailboxReads (b : Backups) : Nat := b.jobs.countP Job.reads

/-! ## 2. One holder, one owner -/

def RunNow.holds : RunNow → Bool
  | .over => false
  | _ => true

/-- Whether the restore has the slot `fetching`. -/
def Restore.owns : Restore → Bool
  | .claimed | .fetching | .fetched _ | .noted _ => true
  | _ => false

/-- Whether the restore has seen that no backup runs and may still read, or reads. -/
def Restore.sawNone : Restore → Bool
  | .noBackup | .noMailbox | .claimed | .fetching => true
  | _ => false

/-- The mutex has one holder, the flag is up while a backup runs, and the slot has one owner. -/
structure Exclusive (b : Backups) : Prop where
  mutex : b.runs.countP RunNow.holds + b.mailboxReads = b.running.toNat
  flag : b.backing = b.backingUp.toNat
  slot : b.restores.countP Restore.owns = (decide (b.fetching = .fetching)).toNat

section Steps

variable {b : Backups}

theorem Exclusive.runNow (h : Exclusive b) : Exclusive b.runNow := by
  unfold Backups.runNow
  split
  · exact h
  · next hfree =>
    have hm := h.mutex
    have hf := h.flag
    refine ⟨?_, ?_, h.slot⟩
    · simp only [Bool.not_eq_true] at hfree
      simp only [hfree, Bool.toNat_false, Backups.mailboxReads] at hm
      simp only [Backups.mailboxReads, List.countP_append, List.countP_singleton, RunNow.holds,
        if_true, Bool.toNat_true]
      omega
    · simpa [Backups.backing] using hf

variable {i : Nat}

/-- A call that has the mutex and no flag up is alone: no backup runs. -/
theorem Exclusive.backing_eq_zero (h : Exclusive b) (hi : b.runs[i]? = some .locked) :
    b.backing = 0 := by
  obtain ⟨rest, hl, -⟩ := set_perm hi
  have hm := h.mutex
  rw [hl.countP_eq, List.countP_cons] at hm
  have hle : rest.countP (fun r => decide (r = .running)) ≤ rest.countP RunNow.holds := by
    refine List.countP_mono_left fun r _ hr => ?_
    simp only [decide_eq_true_eq] at hr
    rw [hr]
    rfl
  have hb : b.running.toNat ≤ 1 := Bool.toNat_le _
  simp only [RunNow.holds, if_true] at hm
  unfold Backups.backing
  rw [hl.countP_eq, List.countP_cons]
  simp only [reduceCtorEq, decide_false, Bool.false_eq_true, if_false]
  omega

theorem one_le_countP {α : Type} {l : List α} {p : α → Bool} {i : Nat} {a : α} (hi : l[i]? = some a)
    (ha : p a = true) : 1 ≤ l.countP p :=
  List.countP_pos_iff.2 ⟨a, List.mem_of_getElem? hi, ha⟩

/-- Whoever holds the mutex, or reads under it, has it locked. -/
theorem Exclusive.locked (h : Exclusive b) {r : RunNow} (hi : b.runs[i]? = some r)
    (hr : r.holds = true) : b.running = true := by
  have hle := one_le_countP hi hr
  have hb := Bool.toNat_le b.running
  have hm := h.mutex
  exact Bool.toNat_eq_one.1 (by omega)

theorem Exclusive.read (h : Exclusive b) {j : Job} (hi : b.jobs[i]? = some j)
    (hj : j.reads = true) : b.running = true := by
  have hle : 1 ≤ b.mailboxReads := one_le_countP hi hj
  have hb := Bool.toNat_le b.running
  have hm := h.mutex
  exact Bool.toNat_eq_one.1 (by omega)

theorem Exclusive.up (h : Exclusive b) (hi : b.runs[i]? = some .running) : b.backingUp = true := by
  have hle : 1 ≤ b.backing := one_le_countP hi rfl
  have hb := Bool.toNat_le b.backingUp
  have hf := h.flag
  exact Bool.toNat_eq_one.1 (by omega)

theorem Exclusive.owned (h : Exclusive b) {r : Restore} (hi : b.restores[i]? = some r)
    (hr : r.owns = true) : decide (b.fetching = .fetching) = true := by
  have hle := one_le_countP hi hr
  have hb := Bool.toNat_le (decide (b.fetching = .fetching))
  have hs := h.slot
  exact Bool.toNat_eq_one.1 (by omega)

/-- A call of `run_now` goes on: the mutex and the flag change as it does. -/
theorem Exclusive.setRun (h : Exclusive b) {r : RunNow} (hi : b.runs[i]? = some r) (r' : RunNow)
    {running backingUp : Bool} {status : BackupStatus}
    (hmutex : running.toNat + r.holds.toNat = b.running.toNat + r'.holds.toNat)
    (hflag : backingUp.toNat + (decide (r = .running)).toNat =
      b.backingUp.toNat + (decide (r' = .running)).toNat) :
    Exclusive { b with
      running := running, backingUp := backingUp, status := status, runs := b.runs.set i r' } := by
  have hholds := countP_set_add (b := r') RunNow.holds hi
  have hruns := countP_set_add (b := r') (fun r => decide (r = .running)) hi
  obtain ⟨hm, hf, hs⟩ := h
  unfold Backups.backing at hf
  refine ⟨?_, ?_, hs⟩
  · simp only [Backups.mailboxReads] at hm ⊢
    omega
  · unfold Backups.backing
    dsimp only
    omega

/-- A whole-server restore goes on: the slot changes as it does. -/
theorem Exclusive.setSlot (h : Exclusive b) {r : Restore} (hi : b.restores[i]? = some r)
    (r' : Restore) {state : Fetching}
    (hslot : (decide (state = .fetching)).toNat + r.owns.toNat =
      (decide (b.fetching = .fetching)).toNat + r'.owns.toNat) :
    Exclusive { b with fetching := state, restores := b.restores.set i r' } := by
  have hset := countP_set_add (b := r') Restore.owns hi
  obtain ⟨hm, hf, hs⟩ := h
  refine ⟨hm, hf, ?_⟩
  dsimp only
  omega

/-- It neither takes the slot nor gives it back. -/
theorem Exclusive.setRestore (h : Exclusive b) {r : Restore}
    (hr : b.restores[i]? = some r) (r' : Restore) (hown : r'.owns = r.owns) (staged : Bool) :
    Exclusive { b with staged := staged, restores := b.restores.set i r' } :=
  ⟨h.mutex, h.flag, (countP_set_same hr hown).trans h.slot⟩

/-- A job on a snapshot goes on: the mutex changes as it does. -/
theorem Exclusive.setJob (h : Exclusive b) {j : Job} (hj : b.jobs[i]? = some j) (j' : Job)
    {running : Bool} (hmutex : running.toNat + j.reads.toNat = b.running.toNat + j'.reads.toNat)
    (mailbox : MailboxRestore) :
    Exclusive { b with running := running, mailbox := mailbox, jobs := b.jobs.set i j' } := by
  have hset := countP_set_add (b := j') Job.reads hj
  obtain ⟨hm, hf, hs⟩ := h
  refine ⟨?_, hf, hs⟩
  simp only [Backups.mailboxReads] at hm ⊢
  omega

theorem Exclusive.restoreMailboxNow (h : Exclusive b) (hfree : b.running = false) :
    Exclusive { b with running := true, jobs := b.jobs ++ [.reading .direct] } := by
  have hm := h.mutex
  refine ⟨?_, h.flag, h.slot⟩
  simp only [hfree, Bool.toNat_false, Backups.mailboxReads] at hm
  simp only [Backups.mailboxReads, List.countP_append, List.countP_singleton, Job.reads, if_true,
    Bool.toNat_true]
  omega

/-- **One step**, of whichever task. -/
theorem Exclusive.step {b' : Backups} {e : Event} (h : Exclusive b) (hs : b.step e = some b') :
    Exclusive b' := by
  cases e with
  | tick d => cases hs; exact ⟨h.mutex, h.flag, h.slot⟩
  | saveSettings settings => cases hs; exact ⟨h.mutex, h.flag, h.slot⟩
  | scheduler =>
    cases hs
    split
    · exact h.runNow
    · exact h
  | runNow => cases hs; exact h.runNow
  | raise i =>
    simp only [Backups.step] at hs
    split at hs
    · next hi =>
      cases hs
      have hdown : b.backingUp.toNat = 0 := h.flag ▸ h.backing_eq_zero hi
      exact h.setRun hi .running rfl (by rw [hdown]; rfl)
    · cases hs
  | lower i ok =>
    simp only [Backups.step] at hs
    split at hs
    · next hi => cases hs; exact h.setRun hi .lowered rfl (by rw [h.up hi]; rfl)
    · cases hs
  | unlock i =>
    simp only [Backups.step] at hs
    split at hs
    · next hi => cases hs; exact h.setRun hi .over (by rw [h.locked hi rfl]; rfl) rfl
    · cases hs
  | startRestore =>
    cases hs
    split
    · exact ⟨h.mutex, h.flag, by simpa [Restore.owns] using h.slot⟩
    · exact h
  | lookStaged i | lookRunning i | lookMailbox i =>
    simp only [Backups.step] at hs
    split at hs
    · next hi => cases hs; exact h.setRestore hi _ (by split <;> rfl) b.staged
    · cases hs
  | claimRestore i =>
    simp only [Backups.step] at hs
    split at hs
    · next hi =>
      split at hs
      · cases hs; exact h.setRestore hi .over rfl b.staged
      · next hfree => cases hs; exact h.setSlot hi .claimed (by rw [decide_eq_false hfree]; rfl)
    · cases hs
  | settingsRead i =>
    simp only [Backups.step] at hs
    split at hs
    · next hi =>
      split at hs
      · cases hs; exact h.setRestore hi .fetching rfl b.staged
      · cases hs; exact h.setSlot hi .over (by rw [h.owned hi rfl]; rfl)
    · cases hs
  | fetchEnd i ok =>
    simp only [Backups.step] at hs
    split at hs
    · next hi => cases hs; exact h.setRestore hi (.fetched ok) rfl b.staged
    · cases hs
  | note i ok =>
    simp only [Backups.step] at hs
    split at hs
    · next hi => cases hs; exact h.setRestore hi (.noted ok) rfl _
    · next hi => cases hs; exact h.setRestore hi (.noted false) rfl b.staged
    · cases hs
  | settle i =>
    simp only [Backups.step] at hs
    split at hs
    · next ok hi => cases hs; exact h.setSlot hi .over (by rw [h.owned hi rfl]; cases ok <;> rfl)
    · cases hs
  | openSnapshot | startMailboxRestore =>
    cases hs
    exact ⟨by simpa [Backups.mailboxReads, Job.reads] using h.mutex, h.flag, h.slot⟩
  | restoreMailboxNow =>
    cases hs
    split
    · exact h
    · next hfree => exact h.restoreMailboxNow (by simpa using hfree)
  | jobStaged i | jobFetching i =>
    simp only [Backups.step] at hs
    split at hs
    · next hi => cases hs; exact h.setJob hi _ (by split <;> rfl) b.mailbox
    · cases hs
  | claimMailbox i =>
    simp only [Backups.step] at hs
    split at hs
    · next kind hi =>
      split at hs
      · cases hs; exact h.setJob hi .over rfl b.mailbox
      · next hfree =>
        cases hs
        have hrun : b.running = false := by
          simp only [Bool.or_eq_true, not_or, Bool.not_eq_true] at hfree
          exact hfree.2
        exact h.setJob hi (.reading kind) (by rw [hrun]; rfl) _
    · cases hs
  | readEnd i ok =>
    simp only [Backups.step] at hs
    split at hs
    · next kind hi =>
      cases hs; exact h.setJob hi (.released kind ok) (by rw [h.read hi rfl]; rfl) b.mailbox
    · cases hs
  | jobSettle i =>
    simp only [Backups.step] at hs
    split at hs
    · next hi => cases hs; exact h.setJob hi .over rfl _
    · cases hs
  | closeSnapshot =>
    cases hs
    split
    · exact h
    · exact ⟨h.mutex, h.flag, h.slot⟩

end Steps

/-! ## 3. Backups and the whole-server restore -/

/-- **No backup begins under a whole-server restore**: when a `run_now` raises its flag, no
`start_restore` that has seen no backup running is on its way to its fetch or fetching. -/
def NoneUnderWay (b : Backups) : Event → Prop
  | .raise _ => ∀ r ∈ b.restores, r.sawNone = false
  | _ => True

instance (b : Backups) (e : Event) : Decidable (NoneUnderWay b e) :=
  match e with
  | .raise _ => inferInstanceAs (Decidable (∀ r ∈ b.restores, r.sawNone = false))
  | .tick _ | .saveSettings _ | .scheduler | .runNow | .lower _ _ | .unlock _ | .startRestore
  | .lookStaged _ | .lookRunning _ | .lookMailbox _ | .claimRestore _ | .settingsRead _
  | .fetchEnd _ _ | .note _ _ | .settle _ | .openSnapshot | .startMailboxRestore
  | .restoreMailboxNow | .jobStaged _ | .jobFetching _ | .claimMailbox _ | .readEnd _ _
  | .jobSettle _ | .closeSnapshot => isTrue trivial

section Apart

variable {b b' : Backups} {e : Event}

theorem runNow_eq (b : Backups) :
    b.runNow.backingUp = b.backingUp ∧ b.runNow.restores = b.restores := by
  unfold Backups.runNow
  split <;> exact ⟨rfl, rfl⟩

/-- Only `raise` puts the flag up. -/
theorem backingUp_step (hs : b.step e = some b') (hup : b'.backingUp = true) :
    b.backingUp = true ∨ ∃ i, e = .raise i := by
  cases e with
  | raise i => exact .inr ⟨i, rfl⟩
  | scheduler =>
    cases hs
    split at hup
    · rw [(runNow_eq b).1] at hup
      exact .inl hup
    · exact .inl hup
  | runNow =>
    cases hs
    rw [(runNow_eq b).1] at hup
    exact .inl hup
  | _ =>
    simp only [Backups.step] at hs
    repeat' split at hs
    all_goals cases hs
    all_goals first | exact .inl hup | cases hup

/-- A restore that has seen no backup had seen none before, or sees none in this step. -/
theorem sawNone_step (hs : b.step e = some b') {r' : Restore} (hr' : r' ∈ b'.restores)
    (hsaw : r'.sawNone = true) : (∃ r ∈ b.restores, r.sawNone = true) ∨ b'.backingUp = false := by
  -- A restore that moves on from `r₀` to `r₁`.
  have moved : ∀ {i : Nat} {r₀ r₁ : Restore}, b.restores[i]? = some r₀ → r' ∈ b.restores.set i r₁ →
      (r₁.sawNone = true → r₀.sawNone = true ∨ b'.backingUp = false) →
      (∃ r ∈ b.restores, r.sawNone = true) ∨ b'.backingUp = false := by
    intro i r₀ r₁ h₀ hmem himp
    rcases mem_of_mem_set h₀ hmem with rfl | hmem
    · rcases himp hsaw with h | h
      · exact .inl ⟨r₀, List.mem_of_getElem? h₀, h⟩
      · exact .inr h
    · exact .inl ⟨r', hmem, hsaw⟩
  cases e with
  | scheduler =>
    cases hs
    split at hr'
    · rw [(runNow_eq b).2] at hr'
      exact .inl ⟨r', hr', hsaw⟩
    · exact .inl ⟨r', hr', hsaw⟩
  | runNow =>
    cases hs
    rw [(runNow_eq b).2] at hr'
    exact .inl ⟨r', hr', hsaw⟩
  | startRestore =>
    cases hs
    split at hr'
    · rcases List.mem_append.1 hr' with hr' | hr'
      · exact .inl ⟨r', hr', hsaw⟩
      · rw [List.mem_singleton.1 hr'] at hsaw
        cases hsaw
    · exact .inl ⟨r', hr', hsaw⟩
  | lookStaged i =>
    simp only [Backups.step] at hs
    split at hs
    · next hi =>
      cases hs
      refine moved hi hr' fun h => ?_
      split at h <;> cases h
    · cases hs
  | lookRunning i =>
    simp only [Backups.step] at hs
    split at hs
    · next hi =>
      cases hs
      refine moved hi hr' fun h => ?_
      split at h
      · cases h
      · next hup => exact .inr (by simpa using hup)
    · cases hs
  | lookMailbox i =>
    simp only [Backups.step] at hs
    split at hs
    · next hi =>
      cases hs
      exact moved hi hr' fun _ => .inl rfl
    · cases hs
  | claimRestore i =>
    simp only [Backups.step] at hs
    split at hs
    · next hi =>
      split at hs
      · cases hs
        exact moved hi hr' fun _ => .inl rfl
      · cases hs
        exact moved hi hr' fun _ => .inl rfl
    · cases hs
  | settingsRead i =>
    simp only [Backups.step] at hs
    split at hs
    · next hi =>
      split at hs
      · cases hs
        exact moved hi hr' fun _ => .inl rfl
      · cases hs
        exact moved hi hr' fun _ => .inl rfl
    · cases hs
  | fetchEnd i ok =>
    simp only [Backups.step] at hs
    split at hs
    · next hi =>
      cases hs
      exact moved hi hr' fun _ => .inl rfl
    · cases hs
  | note i ok =>
    simp only [Backups.step] at hs
    split at hs
    · next hi =>
      cases hs
      exact moved hi hr' fun h => by cases h
    · next hi =>
      cases hs
      exact moved hi hr' fun h => by cases h
    · cases hs
  | settle i =>
    simp only [Backups.step] at hs
    split at hs
    · next hi =>
      cases hs
      exact moved hi hr' fun h => by cases h
    · cases hs
  | _ =>
    simp only [Backups.step] at hs
    repeat' split at hs
    all_goals cases hs
    all_goals exact .inl ⟨r', hr', hsaw⟩

/-- While a backup runs, no restore that has seen none is under way. -/
def Apart (b : Backups) : Prop := b.backingUp = true → ∀ r ∈ b.restores, r.sawNone = false

theorem Apart.step (h : Apart b) (hok : NoneUnderWay b e) (hs : b.step e = some b') : Apart b' := by
  intro hup r' hr'
  by_contra hsaw
  rw [Bool.not_eq_false] at hsaw
  rcases sawNone_step hs hr' hsaw with ⟨r, hr, hsawr⟩ | hdown
  · rcases backingUp_step hs hup with hup | ⟨i, rfl⟩
    · simp [h hup r hr] at hsawr
    · simp [hok r hr] at hsawr
  · simp [hdown] at hup

end Apart

/-- The service as it starts. -/
def Backups.start (clock : Int) (settings : BackupSettings) (status : BackupStatus)
    (canRestore staged : Bool) : Backups :=
  { clock := clock, settings := settings, status := status, canRestore := canRestore, staged := staged }

/-- **The repository has one kind of user at a time.**  In every run at most one backup, one
whole-server fetch and one job on a snapshot use it, and no backup runs under such a job.  In every
run in which no backup begins under a whole-server restore, no backup runs under a fetch either. -/
theorem repository_exclusive (clock : Int) (settings : BackupSettings) (status : BackupStatus)
    (canRestore staged : Bool) (es : List Event) (b : Backups)
    (hrun : run Backups.step (.start clock settings status canRestore staged) es = some b)
    (hok : Along Backups.step NoneUnderWay (.start clock settings status canRestore staged) es) :
    b.backing ≤ 1 ∧ b.fetches ≤ 1 ∧ b.mailboxReads ≤ 1 ∧
      (0 < b.backing → b.mailboxReads = 0 ∧ b.fetches = 0) := by
  obtain ⟨h, hapart⟩ := run_invariant (P := fun b => Exclusive b ∧ Apart b)
    (fun b e b' hb hok hs => ⟨hb.1.step hs, hb.2.step hok hs⟩)
    ⟨⟨rfl, rfl, rfl⟩, fun hup => by cases hup⟩ hok hrun
  have hmutex := h.mutex
  have hflag := h.flag
  have hslot := h.slot
  have hrunning := Bool.toNat_le b.running
  have hup := Bool.toNat_le b.backingUp
  have howner := Bool.toNat_le (decide (b.fetching = .fetching))
  have hholds : b.backing ≤ b.runs.countP RunNow.holds := by
    refine List.countP_mono_left fun r _ hr => ?_
    simp only [decide_eq_true_eq] at hr
    rw [hr]
    rfl
  have howns : b.fetches ≤ b.restores.countP Restore.owns := by
    refine List.countP_mono_left fun r _ hr => ?_
    simp only [decide_eq_true_eq] at hr
    rw [hr]
    rfl
  refine ⟨by omega, by omega, by omega, fun hb => ⟨by omega, ?_⟩⟩
  have hback : b.backingUp = true := by
    by_contra hdown
    rw [Bool.not_eq_true] at hdown
    rw [hdown, Bool.toNat_false] at hflag
    omega
  refine List.countP_eq_zero.2 fun r hr hfetch => ?_
  simp only [decide_eq_true_eq] at hfetch
  have := hapart hback r hr
  rw [hfetch] at this
  cases this

/-- A backup by hand, and a whole-server restore after it. -/
theorem repository_exclusive_in_turn :
    let es := [Event.runNow, .raise 0, .lower 0 true, .unlock 0, .startRestore, .lookStaged 0,
      .lookRunning 0, .lookMailbox 0, .claimRestore 0, .settingsRead 0]
    let b₀ := Backups.start 0 { target := true } {} true false
    (run Backups.step b₀ es).map Backups.fetches = some 1 ∧
      ∀ b, run Backups.step b₀ es = some b → 0 < b.backing → b.mailboxReads = 0 ∧ b.fetches = 0 :=
  ⟨by decide, fun b hb => (repository_exclusive 0 { target := true } {} true false _ b hb
    (by decide)).2.2.2⟩

/-- **A backup runs under a whole-server restore**: the restore looks at the flag, claims its slot
and fetches; a backup asked for then finds the mutex free and nothing that tells it to wait. -/
theorem backup_under_restore :
    (run Backups.step (.start 0 { target := true } {} true false)
      [.startRestore, .lookStaged 0, .lookRunning 0, .lookMailbox 0, .claimRestore 0, .settingsRead 0,
        .runNow, .raise 0]).map (fun b => (b.backing, b.fetches)) = some (1, 1) := by
  decide

end UwuMail.Backup
