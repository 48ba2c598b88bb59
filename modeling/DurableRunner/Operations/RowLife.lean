import DurableRunner.Operations.Calls
import DurableRunner.TransitionSystem.Runs

/-! # The life of one row

Seen from a single row, every run of the system is a sequence of row
operations. Invariants of rows and of their event histories are proved about
this machine.
-/
namespace DurableRunner.Operations
open Schema TransitionSystem

/-- One committed change of a row: the call that made it and the clocks it used. -/
structure RowOp where
  call : Call
  start : Timestamp
  checkedAt : Timestamp
  instant : Timestamp

structure RowState where
  row : StepRow
  events : List NewEvent

/-- A row operation applies when the candidate predicate held at its reading
and the UPDATE matches. -/
def rowStep (s : RowState) (op : RowOp) : Option RowState :=
  if op.call.eligible op.start op.checkedAt s.row then
    match op.call.update op.start op.instant s.row with
    | .ok (some r') => some ⟨r', s.events ++ (op.call.event s.row r').toList⟩
    | _ => none
  else none

theorem rowStep_eq_some {s s' : RowState} {op : RowOp} :
    rowStep s op = some s' ↔
      op.call.eligible op.start op.checkedAt s.row = true ∧
        op.call.update op.start op.instant s.row = .ok (some s'.row) ∧
        s'.events = s.events ++ (op.call.event s.row s'.row).toList := by
  obtain ⟨r', es'⟩ := s'
  unfold rowStep
  constructor
  · intro h
    split at h
    · rename_i heligible
      split at h
      · rename_i r'' hupdate
        obtain ⟨rfl, rfl⟩ := RowState.mk.inj (Option.some.inj h)
        exact ⟨heligible, hupdate, rfl⟩
      · cases h
    · cases h
  · rintro ⟨heligible, hupdate, hevents⟩
    simp only at hupdate hevents
    simp [heligible, hupdate, hevents]

/-- The transition an operation makes on a row, one case for each operation. -/
inductive Transition (start instant checkedAt : Timestamp) (r r' : StepRow) : Call → Prop
  | claim {workerId : WorkerId} {ms : ℤ} (hready : r.status = .ready)
      (havailable : r.availableAt ≤ start) (hbudget : r.attemptCount.val < r.maxAttempts.val)
      (hversion : r'.leaseVersion.val = r.leaseVersion.val + 1)
      (hattempt : r'.attemptCount.val = r.attemptCount.val + 1)
      (hcols : r'.toStepColumns = { r.toStepColumns with
        status := .running
        currentWorkerId := some workerId
        leaseVersion := r'.leaseVersion
        attemptCount := r'.attemptCount
        leaseExpiresAt := some (instant + 1000 * ms)
        updatedAt := start }) :
      Transition start instant checkedAt r r' (.claimNextStep workerId ms)
  | renew {cred : Credential} {ms : ℤ} (hlive : holdsLiveLease cred instant r = true)
      (hcols : r'.toStepColumns = { r.toStepColumns with
        leaseExpiresAt := some (instant + 1000 * ms)
        updatedAt := start }) :
      Transition start instant checkedAt r r' (.renewStepLease cred ms)
  | complete {cred : Credential} {result : Json} (hlive : holdsLiveLease cred instant r = true)
      (hcols : r'.toStepColumns = { r.toStepColumns with
        status := .succeeded
        result := some result.jsonb
        currentWorkerId := none
        leaseExpiresAt := none
        updatedAt := start }) :
      Transition start instant checkedAt r r' (.completeStepSuccess cred result)
  | fail {cred : Credential} {error : JsString} {retryable : Bool}
      (hlive : holdsLiveLease cred instant r = true)
      (hcols : r'.toStepColumns = { r.toStepColumns with
        status := if mayRetry retryable r then .retryWait else .deadLettered
        currentWorkerId := none
        leaseExpiresAt := none
        lastError := some error.toWellFormed
        availableAt :=
          if mayRetry retryable r then instant + 1000 * retryBackoffMs r.attemptCount
          else r.availableAt
        updatedAt := start }) :
      Transition start instant checkedAt r r' (.recordStepFailure cred error retryable)
  | recover (hrunning : r.status = .running) {deadline : Timestamp}
      (hdeadline : r.leaseExpiresAt = some deadline) (hexpired : deadline ≤ checkedAt)
      (hcols : r'.toStepColumns = { r.toStepColumns with
        status := if r.attemptCount.val < r.maxAttempts.val then .ready else .deadLettered
        currentWorkerId := none
        leaseExpiresAt := none
        updatedAt := start }) :
      Transition start instant checkedAt r r' .recoverExpiredSteps
  | promote (hwaiting : r.status = .retryWait) (hdue : r.availableAt ≤ checkedAt)
      (hcols : r'.toStepColumns = { r.toStepColumns with
        status := .ready
        updatedAt := start }) :
      Transition start instant checkedAt r r' .promoteDueRetries

theorem transition_of_update {call : Call} {start instant checkedAt : Timestamp} {r r' : StepRow}
    (heligible : call.eligible start checkedAt r = true)
    (hupdate : call.update start instant r = .ok (some r')) :
    Transition start instant checkedAt r r' call := by
  cases call with
  | claimNextStep workerId ms =>
    obtain ⟨_, he, hu⟩ := claimCandidate_eq_ok hupdate
    obtain rfl := Option.some.inj he
    obtain ⟨hready, hbudget, hversion, hattempt, hcols⟩ := claimUpdate_eq_some hu
    exact .claim hready (claimEligible_iff.mp heligible).2.1 hbudget hversion hattempt hcols
  | renewStepLease cred ms =>
    obtain ⟨hlive, hcols⟩ := renewUpdate_eq_some hupdate
    exact .renew hlive hcols
  | completeStepSuccess cred result =>
    obtain ⟨hlive, hcols⟩ := completeUpdate_eq_some hupdate
    exact .complete hlive hcols
  | recordStepFailure cred error retryable =>
    obtain ⟨hlive, hcols⟩ := failUpdate_eq_some hupdate
    exact .fail hlive hcols
  | recoverExpiredSteps =>
    obtain ⟨_, hu, he⟩ := except_map_eq_ok.mp hupdate
    obtain rfl := Option.some.inj he
    obtain ⟨hrunning, deadline, hdeadline, hexpired⟩ := recoverEligible_iff.mp heligible
    exact .recover hrunning hdeadline hexpired (recoverUpdate_eq_ok.mp hu)
  | promoteDueRetries =>
    obtain ⟨_, hu, he⟩ := except_map_eq_ok.mp hupdate
    obtain rfl := Option.some.inj he
    obtain ⟨hwaiting, hdue⟩ := promoteEligible_iff.mp heligible
    exact .promote hwaiting hdue (promoteUpdate_eq_ok.mp hu)
  | lockRows => cases heligible

theorem event_stepId {call : Call} {start instant checkedAt : Timestamp} {r r' : StepRow}
    {e : NewEvent} (h : Transition start instant checkedAt r r' call)
    (he : call.event r r' = some e) : e.stepId = r.id := by
  cases h with
  | claim _ _ _ _ _ hcols =>
    obtain rfl := Option.some.inj he
    have hid : r'.id = r.id := by rw [hcols]
    exact hid
  | renew => cases he
  | complete _ hcols =>
    obtain rfl := Option.some.inj he
    simp [completeEvent, hcols]
  | fail hlive _ =>
    obtain rfl := Option.some.inj he
    exact (holdsLiveLease_iff.mp hlive).1.symm
  | recover _ _ _ hcols =>
    obtain rfl := Option.some.inj he
    simp [recoverEvent, hcols]
  | promote _ _ hcols =>
    obtain rfl := Option.some.inj he
    simp [promoteEvent, hcols]

end DurableRunner.Operations
