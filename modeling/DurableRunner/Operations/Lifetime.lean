import DurableRunner.Operations.WellFormed

/-! # How long a row can live

The budget bounds a measure that every status change uses up, and a row with
budget left is always one that some operation accepts.
-/
namespace DurableRunner.Operations
open Schema TransitionSystem

/-- The part of the row invariant that only concerns the budget. -/
structure Budgeted (r : StepRow) : Prop where
  inserted : r.status ≠ .pending ∧ r.status ≠ .cancelled
  budget : r.attemptCount.val ≤ r.maxAttempts.val
  claimable : r.status = .ready ∨ r.status = .retryWait → r.attemptCount.val < r.maxAttempts.val

theorem Budgeted.ready {r : StepRow} (hready : r.status = .ready)
    (hattempts : r.attemptCount.val = 0) : Budgeted r := by
  have hmax := r.steps_max_attempts_positive
  exact ⟨by simp [hready], by omega, fun _ => by omega⟩

theorem Budgeted.keep {r r' : StepRow} (h : Budgeted r)
    (hinserted : r'.status ≠ .pending ∧ r'.status ≠ .cancelled)
    (hattempt : r'.attemptCount = r.attemptCount) (hmax : r'.maxAttempts = r.maxAttempts)
    (hclaimable : r'.status = .ready ∨ r'.status = .retryWait →
      r.attemptCount.val < r.maxAttempts.val) : Budgeted r' where
  inserted := hinserted
  budget := by rw [hattempt, hmax]; exact h.budget
  claimable := by rw [hattempt, hmax]; exact hclaimable

theorem Budgeted.transition {start instant checkedAt : Timestamp} {r r' : StepRow} {call : Call}
    (h : Budgeted r) (ht : Transition start instant checkedAt r r' call) : Budgeted r' := by
  cases ht with
  | claim hready _ hbudget _ hattempt hcols =>
    have hstatus : r'.status = .running := by rw [hcols]
    have hmax : r'.maxAttempts = r.maxAttempts := by rw [hcols]
    refine ⟨by simp [hstatus], ?_, by simp [hstatus]⟩
    rw [hattempt, hmax]
    omega
  | renew hlive hcols =>
    have hrunning := (holdsLiveLease_iff.mp hlive).2.1
    exact h.keep (by simp [hcols, hrunning]) (by rw [hcols]) (by rw [hcols])
      (by simp [hcols, hrunning])
  | complete _ hcols =>
    exact h.keep (by simp [hcols]) (by rw [hcols]) (by rw [hcols]) (by simp [hcols])
  | fail _ hcols =>
    refine h.keep ?_ (by rw [hcols]) (by rw [hcols]) ?_
    · rw [hcols]
      dsimp only
      split <;> simp
    · rw [hcols]
      dsimp only
      split
      · rename_i hretry
        simp only [mayRetry, Bool.and_eq_true, decide_eq_true_eq] at hretry
        exact fun _ => hretry.2
      · simp
  | recover _ _ _ hcols =>
    refine h.keep ?_ (by rw [hcols]) (by rw [hcols]) ?_
    · rw [hcols]
      dsimp only
      split <;> simp
    · rw [hcols]
      dsimp only
      split
      · rename_i hbudget
        exact fun _ => hbudget
      · simp
  | promote hwaiting _ hcols =>
    exact h.keep (by simp [hcols]) (by rw [hcols]) (by rw [hcols])
      fun _ => h.claimable (.inr hwaiting)

def statusRank : StepStatus → ℕ
  | .running => 2
  | .ready => 0
  | _ => 1

/-- Three status changes for every attempt that is left. -/
def lifetimeMeasure (r : StepRow) : ℕ :=
  3 * (r.maxAttempts.val - r.attemptCount.val).toNat + statusRank r.status

theorem Budgeted.measure_pos {r : StepRow} (h : Budgeted r) : 1 ≤ lifetimeMeasure r := by
  cases hstatus : r.status with
  | ready =>
    have hleft := h.claimable (.inl hstatus)
    simp only [lifetimeMeasure]
    omega
  | _ => simp [lifetimeMeasure, statusRank, hstatus]

theorem lifetimeMeasure_ready {r : StepRow} (hready : r.status = .ready)
    (hattempts : r.attemptCount.val = 0) : (lifetimeMeasure r : ℤ) = 3 * r.maxAttempts.val := by
  have hmax := r.steps_max_attempts_positive
  simp only [lifetimeMeasure, hready, statusRank, hattempts]
  omega

/-- An operation that changes only the status moves the measure by the ranks. -/
theorem lifetimeMeasure_of_kept {r r' : StepRow} (hattempt : r'.attemptCount = r.attemptCount)
    (hmax : r'.maxAttempts = r.maxAttempts) (hrank : statusRank r'.status < statusRank r.status) :
    lifetimeMeasure r' < lifetimeMeasure r := by
  simp only [lifetimeMeasure, hattempt, hmax]
  omega

/-- Every status change uses up some of the measure. -/
theorem lifetimeMeasure_lt {start instant checkedAt : Timestamp} {r r' : StepRow} {call : Call}
    (ht : Transition start instant checkedAt r r' call)
    (hchanged : r'.status ≠ r.status) : lifetimeMeasure r' < lifetimeMeasure r := by
  cases ht with
  | claim hready _ hbudget _ hattempt hcols =>
    have hstatus : r'.status = .running := by rw [hcols]
    have hmax : r'.maxAttempts = r.maxAttempts := by rw [hcols]
    simp only [lifetimeMeasure, hstatus, hready, statusRank, hattempt, hmax]
    omega
  | renew _ hcols => exact absurd (by rw [hcols]) hchanged
  | complete hlive hcols =>
    refine lifetimeMeasure_of_kept (by rw [hcols]) (by rw [hcols]) ?_
    rw [hcols, (holdsLiveLease_iff.mp hlive).2.1]
    simp [statusRank]
  | fail hlive hcols =>
    refine lifetimeMeasure_of_kept (by rw [hcols]) (by rw [hcols]) ?_
    rw [hcols, (holdsLiveLease_iff.mp hlive).2.1]
    dsimp only
    split <;> simp [statusRank]
  | recover hrunning _ _ hcols =>
    refine lifetimeMeasure_of_kept (by rw [hcols]) (by rw [hcols]) ?_
    rw [hcols, hrunning]
    dsimp only
    split <;> simp [statusRank]
  | promote hwaiting _ hcols =>
    refine lifetimeMeasure_of_kept (by rw [hcols]) (by rw [hcols]) ?_
    rw [hcols, hwaiting]
    simp [statusRank]

theorem lifetimeMeasure_of_unchanged {start instant checkedAt : Timestamp} {r r' : StepRow}
    {call : Call} (ht : Transition start instant checkedAt r r' call)
    (hsame : r'.status = r.status) : lifetimeMeasure r' = lifetimeMeasure r := by
  cases ht with
  | renew _ hcols => simp only [lifetimeMeasure, hcols]
  | claim hready _ _ _ _ hcols =>
    rw [hcols, hready] at hsame
    cases hsame
  | complete hlive hcols =>
    rw [hcols, (holdsLiveLease_iff.mp hlive).2.1] at hsame
    cases hsame
  | fail hlive hcols =>
    rw [hcols, (holdsLiveLease_iff.mp hlive).2.1] at hsame
    dsimp only at hsame
    split at hsame <;> cases hsame
  | recover hrunning _ _ hcols =>
    rw [hcols, hrunning] at hsame
    dsimp only at hsame
    split at hsame <;> cases hsame
  | promote hwaiting _ hcols =>
    rw [hcols, hwaiting] at hsame
    cases hsame

theorem lifetimeMeasure_le {start instant checkedAt : Timestamp} {r r' : StepRow} {call : Call}
    (ht : Transition start instant checkedAt r r' call) : lifetimeMeasure r' ≤ lifetimeMeasure r := by
  by_cases hsame : r'.status = r.status
  · exact (lifetimeMeasure_of_unchanged ht hsame).le
  · exact (lifetimeMeasure_lt ht hsame).le

structure ClaimArguments (workerId : WorkerId) (leaseDurationMs : ℤ) : Prop where
  worker : isBlank workerId = false
  text : textParam workerId = .ok workerId
  duration : ∃ ms, Int4.cast leaseDurationMs = .ok ms

/-- The generation that the next claim would write fits the column and its CHECK. -/
def NextGenerationFits (r : StepRow) : Prop :=
  0 ≤ r.leaseVersion.val ∧ r.leaseVersion.val < 2147483647

theorem nextGenerationFits_of_claimCandidate {workerId : WorkerId} {leaseDurationMs : ℤ}
    {now clock : Timestamp} {r r' : StepRow}
    (h : claimCandidate workerId leaseDurationMs now clock r = .ok (some r')) :
    NextGenerationFits r := by
  obtain ⟨row, -, hupdate⟩ := claimCandidate_eq_ok h
  obtain ⟨-, -, hversion, -, hcols⟩ := claimUpdate_eq_some hupdate
  have hrunning : row.status = .running := by rw [hcols]
  have howned := row.steps_running_requires_owner.resolve_left (not_not_intro hrunning)
  have hpositive := howned.2.2
  have hrange := row.leaseVersion.inRange
  exact ⟨by omega, by omega⟩

/-- The ownership UPDATE accepts every READY row with budget left. -/
theorem claimCandidate_of_ready {workerId : WorkerId} {leaseDurationMs : ℤ} (now clock : Timestamp)
    {r : StepRow} (harguments : ClaimArguments workerId leaseDurationMs) (hready : r.status = .ready)
    (hbudget : r.attemptCount.val < r.maxAttempts.val)
    (hversion : NextGenerationFits r) :
    ∃ r', claimCandidate workerId leaseDurationMs now clock r = .ok (some r') := by
  obtain ⟨ms, hms⟩ := harguments.duration
  obtain ⟨a, ha⟩ := Int4.succ_of_lt hbudget
  obtain ⟨hnonneg, hlast⟩ := hversion
  have hv : r.leaseVersion.succ = .ok ⟨r.leaseVersion.val + 1, by omega⟩ := Int4.succ_eq_ok.mpr rfl
  have hattempts := r.steps_attempt_count_nonnegative
  have haval := Int4.succ_eq_ok.mp ha
  obtain ⟨row, hrow⟩ := StepColumns.check_of { r.toStepColumns with
    status := .running
    currentWorkerId := some workerId
    leaseVersion := ⟨r.leaseVersion.val + 1, by omega⟩
    attemptCount := a
    leaseExpiresAt := some (leaseDeadline clock ms)
    updatedAt := now }
    ⟨by dsimp only; omega, r.steps_max_attempts_positive,
      .inr ⟨rfl, rfl, by dsimp only; omega⟩⟩
  have hupdate : claimUpdate workerId leaseDurationMs now clock r = .ok (some row) := by
    simp only [claimUpdate, harguments.text, hms, hv, ha, except_bind_eq_ok, hready, hbudget,
      and_self, ↓reduceIte, Except.ok.injEq, exists_eq_left', hrow]
    rfl
  refine ⟨row, ?_⟩
  simp only [claimCandidate, hready]
  rw [show StepStatus.transitionStepStatus .ready .running = some .running from rfl]
  simp only [hupdate]

theorem recoverUpdate_ok (now : Timestamp) (r : StepRow) : ∃ r', recoverUpdate now r = .ok r' :=
  StepColumns.check_of _ ⟨r.steps_attempt_count_nonnegative, r.steps_max_attempts_positive,
    .inl (by dsimp only; split <;> simp)⟩

theorem promoteUpdate_ok (now : Timestamp) (r : StepRow) : ∃ r', promoteUpdate now r = .ok r' :=
  StepColumns.check_of _ ⟨r.steps_attempt_count_nonnegative, r.steps_max_attempts_positive,
    .inl nofun⟩

end DurableRunner.Operations
