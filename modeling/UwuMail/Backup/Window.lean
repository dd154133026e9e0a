/-
# The hour an update stays away from

An update asks `blocks` whether a backup is too close: while one runs, a margin after it ended, and
a margin before the next one.  Between two backups the planned time is one point, but after a failed
run there is a second one, an hour after the attempt, and `blocks` looks for it at the two ends of
the margin only (`due now`, `due (now + margin)`).

A moment is due (§2) when the time of the day has come, no run succeeded on that day, and the last
attempt is an hour old.  Where the planned time is not within the margin, the margin lies between
two of them, and a moment in it is due on the side BEFORE midnight only.  At one side of midnight
being due lasts, so the end of the margin tells for all of it; where the margin crosses midnight its
end is before the next day's time, and a retry that comes before midnight is not seen.  Nothing else
is missed.
-/
import UwuMail.Backup.Service

namespace UwuMail.Backup

/-! ## 1. What a run writes down, and what an update asks -/

/-- `BackupStatus`, with the times of the run that goes on or was the last. -/
structure RunStatus extends BackupStatus where
  startedAt : Option Int := none
  finishedAt : Option Int := none

/-- `run_now` writes down that it begins. -/
def RunStatus.begun (status : RunStatus) (now : Int) : RunStatus :=
  { status with lastAttemptAt := some now, startedAt := some now, finishedAt := none }

/-- `run_now` writes down how it ended. -/
def RunStatus.ended (status : RunStatus) (now : Int) (ok : Bool) : RunStatus :=
  { status with
    lastSuccessAt := if ok then some now else status.lastSuccessAt, finishedAt := some now }

def runMaxSecs : Int := 6 * 3600

/-- When the daily backup starts next: today's time while it is still to come, else tomorrow's. -/
def nextRunAt (settings : BackupSettings) (now : Int) : Int :=
  let at_ := now / 86400 * 86400 + minuteOfDay settings * 60
  if at_ ≥ now then at_ else at_ + 86400

/-- Whether a run began and has not finished since. -/
def runningAt (status : RunStatus) (now : Int) : Bool :=
  match status.startedAt, status.finishedAt with
  | some started, none => decide (now - started < runMaxSecs)
  | some started, some finished =>
    if finished < started then decide (now - started < runMaxSecs) else false
  | none, _ => false

/-- Whether a run ended less than the margin ago. -/
def justFinished (status : RunStatus) (now marginSecs : Int) : Bool :=
  status.finishedAt.any fun at_ => decide (0 ≤ now - at_ ∧ now - at_ < marginSecs)

/-- Whether a backup is too close for an update to start. -/
def blocks (settings : BackupSettings) (status : RunStatus) (now marginSecs : Int) : Bool :=
  if runningAt status now then true
  else if justFinished status now marginSecs then true
  else if !settings.enabled || !settings.target then false
  else if 0 ≤ nextRunAt settings now - now ∧ nextRunAt settings now - now ≤ marginSecs then true
  else due settings status.toBackupStatus now || due settings status.toBackupStatus (now + marginSecs)

/-! ## 2. When a moment is due -/

section
variable {settings : BackupSettings} {status : BackupStatus} {now t : Int}

/-- The last attempt is not an hour old yet. -/
def TriedRecently (status : BackupStatus) (now : Int) : Prop :=
  ∃ at_, status.lastAttemptAt = some at_ ∧ now - at_ < retrySecs

theorem due_iff : due settings status now = true ↔
    (settings.enabled = true ∧ settings.target = true) ∧
      minuteOfDay settings * 60 ≤ now % 86400 ∧
      succeededToday status now = false ∧ ¬ TriedRecently status now := by
  have hmin : ¬ now % 86400 / 60 < minuteOfDay settings ↔ minuteOfDay settings * 60 ≤ now % 86400 := by
    omega
  have htried : (status.lastAttemptAt.any fun at_ => decide (now - at_ < retrySecs)) = true ↔
      TriedRecently status now := by
    simp [TriedRecently, Option.any_eq_true]
  unfold due
  cases settings.enabled
  · simp
  cases settings.target
  · simp
  rw [← hmin, ← htried]
  by_cases hm : now % 86400 / 60 < minuteOfDay settings <;> simp [hm]

/-- On one day a success is seen at every moment or at none. -/
theorem succeededToday_of_day (h : t / 86400 = now / 86400) :
    succeededToday status t = succeededToday status now := by
  simp [succeededToday, h]

/-- **Being due lasts to midnight.** -/
theorem due_of_le (hle : now ≤ t) (hday : t / 86400 = now / 86400)
    (hdue : due settings status now = true) : due settings status t = true := by
  obtain ⟨hon, hmin, hok, hlate⟩ := due_iff.1 hdue
  refine due_iff.2 ⟨hon, by omega, ?_, ?_⟩
  · rw [succeededToday_of_day hday]
    exact hok
  · rintro ⟨at_, hat, hlt⟩
    exact hlate ⟨at_, hat, by omega⟩

theorem nextRunAt_gt {margin : Int}
    (h : ¬ (0 ≤ nextRunAt settings now - now ∧ nextRunAt settings now - now ≤ margin)) :
    now / 86400 * 86400 + minuteOfDay settings * 60 < now ∧
        now + margin < now / 86400 * 86400 + minuteOfDay settings * 60 + 86400 ∨
      now + margin < now / 86400 * 86400 + minuteOfDay settings * 60 := by
  unfold nextRunAt at h
  have hpos : 0 ≤ minuteOfDay settings := by
    unfold minuteOfDay
    omega
  simp only at h
  split at h
  · right
    omega
  · left
    omega

/-- **A moment between two planned times** is due before midnight only: after it the day's time is
still to come. -/
theorem day_of_due {margin : Int} (hle : now ≤ t) (ht : t ≤ now + margin)
    (h : ¬ (0 ≤ nextRunAt settings now - now ∧ nextRunAt settings now - now ≤ margin))
    (hdue : due settings status t = true) : t / 86400 = now / 86400 := by
  obtain ⟨-, hmin, -, -⟩ := due_iff.1 hdue
  rcases nextRunAt_gt h with ⟨hpast, hnext⟩ | hnext
  · omega
  · omega

end

/-! ## 3. What is not blocked is quiet -/

section
variable {settings : BackupSettings} {status : RunStatus} {now margin : Int}

/-- What `blocks` does not see: nothing runs or has just ended, the planned time is past and
tomorrow's is further away than the margin, and the retry of a run that failed comes before midnight
while the margin ends after it. -/
def RetryBeforeMidnight (settings : BackupSettings) (status : RunStatus) (now margin : Int) : Prop :=
  (settings.enabled = true ∧ settings.target = true) ∧
    runningAt status now = false ∧ justFinished status now margin = false ∧
    now / 86400 * 86400 + minuteOfDay settings * 60 < now ∧
    now + margin < now / 86400 * 86400 + minuteOfDay settings * 60 + 86400 ∧
    succeededToday status.toBackupStatus now = false ∧
    ∃ at_, status.lastAttemptAt = some at_ ∧ now < at_ + retrySecs ∧
      at_ + retrySecs < (now / 86400 + 1) * 86400 ∧ (now / 86400 + 1) * 86400 ≤ now + margin

theorem blocks_eq_false_iff (hon : settings.enabled = true ∧ settings.target = true) :
    blocks settings status now margin = false ↔
      runningAt status now = false ∧ justFinished status now margin = false ∧
        ¬ (0 ≤ nextRunAt settings now - now ∧ nextRunAt settings now - now ≤ margin) ∧
        due settings status.toBackupStatus now = false ∧
        due settings status.toBackupStatus (now + margin) = false := by
  unfold blocks
  rw [hon.1, hon.2]
  cases hrun : runningAt status now
  · cases hfin : justFinished status now margin
    · by_cases hnext : 0 ≤ nextRunAt settings now - now ∧ nextRunAt settings now - now ≤ margin
      · simp [hnext]
      · simp
    · simp
  · simp

/-- **Only the retry before midnight is missed.** -/
theorem retry_of_due {t : Int} (hfree : blocks settings status now margin = false)
    (hle : now ≤ t) (ht : t ≤ now + margin) (hdue : due settings status.toBackupStatus t = true) :
    RetryBeforeMidnight settings status now margin := by
  obtain ⟨hon, hmin, hok, hlate⟩ := due_iff.1 hdue
  obtain ⟨hrun, hfin, hnext, hnow, hend⟩ := (blocks_eq_false_iff hon).1 hfree
  have hday : t / 86400 = now / 86400 := day_of_due hle ht hnext hdue
  have hpast : now / 86400 * 86400 + minuteOfDay settings * 60 < now ∧
      now + margin < now / 86400 * 86400 + minuteOfDay settings * 60 + 86400 := by
    rcases nextRunAt_gt hnext with hpast | hearly
    · exact hpast
    · omega
  have hok' : succeededToday status.toBackupStatus now = false := by
    rw [← succeededToday_of_day hday]
    exact hok
  -- not due now, though the time has come and nothing succeeded: the attempt is recent
  have htried : TriedRecently status.toBackupStatus now := by
    by_contra hold
    rw [due_iff.2 ⟨hon, by omega, hok', hold⟩] at hnow
    cases hnow
  obtain ⟨at_, hat, hrecent⟩ := htried
  have hretry : at_ + retrySecs ≤ t := by
    by_contra hlt
    exact hlate ⟨at_, hat, by omega⟩
  -- and not due at the end, so the end is on another day
  have hcross : ¬ (now + margin) / 86400 = t / 86400 := by
    intro hsame
    rw [due_of_le ht hsame hdue] at hend
    cases hend
  exact ⟨hon, hrun, hfin, hpast.1, hpast.2, hok', at_, hat, by omega, by omega, by omega⟩

/-- **And it is missed**: not blocked, and due when the hour after the attempt is over. -/
theorem due_of_retry (h : RetryBeforeMidnight settings status now margin) :
    blocks settings status now margin = false ∧
      ∃ t, now ≤ t ∧ t ≤ now + margin ∧ due settings status.toBackupStatus t = true := by
  obtain ⟨hon, hrun, hfin, hpast, hnext, hok, at_, hat, hrecent, hbefore, hcross⟩ := h
  have hquiet : ¬ (0 ≤ nextRunAt settings now - now ∧ nextRunAt settings now - now ≤ margin) := by
    unfold nextRunAt
    simp only
    split <;> omega
  constructor
  · refine (blocks_eq_false_iff hon).2 ⟨hrun, hfin, hquiet, ?_, ?_⟩
    · rw [Bool.eq_false_iff]
      intro hdue
      exact (due_iff.1 hdue).2.2.2 ⟨at_, hat, by omega⟩
    · rw [Bool.eq_false_iff]
      intro hdue
      have hday := day_of_due (by omega) le_rfl hquiet hdue
      omega
  · have hday : (at_ + retrySecs) / 86400 = now / 86400 := by omega
    refine ⟨at_ + retrySecs, by omega, by omega, due_iff.2 ⟨hon, by omega, ?_, ?_⟩⟩
    · rw [succeededToday_of_day hday]
      exact hok
    · rintro ⟨at', hat', hlt⟩
      cases hat.symm.trans hat'
      omega

end

/-- **The maintenance window.**  What `blocks` lets through is free of backups that become due,
except for the retry before midnight. -/
theorem quiet_iff (settings : BackupSettings) (status : RunStatus) (now margin : Int) :
    (blocks settings status now margin = false →
        ∀ t, now ≤ t → t ≤ now + margin → due settings status.toBackupStatus t = false) ↔
      ¬ RetryBeforeMidnight settings status now margin := by
  constructor
  · intro hquiet hretry
    obtain ⟨hfree, t, hle, ht, hdue⟩ := due_of_retry hretry
    rw [hquiet hfree t hle ht] at hdue
    cases hdue
  · intro hno hfree t hle ht
    rw [Bool.eq_false_iff]
    intro hdue
    exact hno (retry_of_due hfree hle ht hdue)

/-- A run from 22:55 to 23:00 that failed, planned for two o'clock: at a quarter to midnight half an
hour is free, and ten minutes later the retry is due. -/
theorem quiet_before_midnight_fails :
    ¬ ∀ (settings : BackupSettings) (status : RunStatus) (now margin : Int),
      blocks settings status now margin = false →
        ∀ t, now ≤ t → t ≤ now + margin → due settings status.toBackupStatus t = false := by
  intro h
  have hquiet := h { enabled := true, target := true, hour := 2 }
    ((({} : RunStatus).begun 82500).ended 82800 false) 85500 1800 (by decide) 86100 (by decide) (by decide)
  exact absurd hquiet (by decide)

end UwuMail.Backup
