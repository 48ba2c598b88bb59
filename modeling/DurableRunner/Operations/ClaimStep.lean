import DurableRunner.Schema.JsNumber
import DurableRunner.Schema.StepEvents

/-! # `claimNextStep`, statement by statement

The candidate SELECT contributes a predicate and an order, the UPDATE a partial
function on the locked row, the event INSERT a value computed from the new row.
-/
namespace DurableRunner.Operations
open Schema

@[ext] structure ClaimedStep where
  id : StepId
  workerId : Option WorkerId
  leaseVersion : Int4
  attemptCount : Int4
  leaseExpiresAt : Option Timestamp
  priority : Int4
  availableAt : Timestamp
  taskType : String
  payload : Json
deriving DecidableEq

/-- `workerId.trim().length === 0`. -/
def isBlank (workerId : WorkerId) : Bool := workerId.toList.all isTrimmed

/-- `status = 'READY' and available_at <= now() and attempt_count < max_attempts`. -/
def claimEligible (now : Timestamp) (r : StepRow) : Bool :=
  r.status = .ready && decide (r.availableAt ≤ now) &&
    decide (r.attemptCount.val < r.maxAttempts.val)

/-- `order by priority desc, available_at asc, id asc`. -/
def claimOrder (a b : StepRow) : Prop :=
  b.priority.val < a.priority.val ∨ (a.priority.val = b.priority.val ∧
    (a.availableAt < b.availableAt ∨ (a.availableAt = b.availableAt ∧ a.id ≤ b.id)))

instance : DecidableRel claimOrder := fun _ _ => inferInstanceAs (Decidable (_ ∨ _))

/-- `clock_timestamp() + (ms::int * interval '1 millisecond')`. -/
def leaseDeadline (clock : Timestamp) (ms : Int4) : Timestamp := clock + 1000 * ms.val

/-- The ownership UPDATE; `none` when its WHERE clause does not match. -/
def claimUpdate (workerId : WorkerId) (leaseDurationMs : ℤ) (now clock : Timestamp) (r : StepRow) :
    Except DbError (Option StepRow) := do
  let worker ← textParam workerId
  let ms ← Int4.cast leaseDurationMs
  if r.status = .ready ∧ r.attemptCount.val < r.maxAttempts.val then
    let leaseVersion ← r.leaseVersion.succ
    let attemptCount ← r.attemptCount.succ
    let row ← StepColumns.check { r.toStepColumns with
      status := .running
      currentWorkerId := some worker
      leaseVersion
      attemptCount
      leaseExpiresAt := some (leaseDeadline clock ms)
      updatedAt := now }
    return some row
  else return none

/-- What happens once the candidate row is locked: the lifecycle check, the
UPDATE, and the `ClaimConsistencyError` for an UPDATE that matched no row. -/
def claimCandidate (workerId : WorkerId) (leaseDurationMs : ℤ) (now clock : Timestamp)
    (r : StepRow) : Except DbError (Option StepRow) :=
  match StepStatus.transitionStepStatus r.status .running with
  | none => .error .illegalTransition
  | some _ =>
    match claimUpdate workerId leaseDurationMs now clock r with
    | .ok none => .error .consistency
    | result => result

def claimEvent (r : StepRow) : NewEvent where
  stepId := r.id
  workerId := r.currentWorkerId
  eventType := .stepClaimed
  data := { leaseVersion := r.leaseVersion, attemptCount := r.attemptCount }

def claimedStep (r : StepRow) : ClaimedStep where
  id := r.id
  workerId := r.currentWorkerId
  leaseVersion := r.leaseVersion
  attemptCount := r.attemptCount
  leaseExpiresAt := r.leaseExpiresAt
  priority := r.priority
  availableAt := r.availableAt
  taskType := r.taskType
  payload := r.payload

theorem claimEligible_iff {now : Timestamp} {r : StepRow} :
    claimEligible now r = true ↔
      r.status = .ready ∧ r.availableAt ≤ now ∧ r.attemptCount.val < r.maxAttempts.val := by
  simp [claimEligible, and_assoc]

theorem claimUpdate_eq_some {workerId : WorkerId} {leaseDurationMs : ℤ} {now clock : Timestamp}
    {r r' : StepRow} (h : claimUpdate workerId leaseDurationMs now clock r = .ok (some r')) :
    r.status = .ready ∧ r.attemptCount.val < r.maxAttempts.val ∧
      r'.leaseVersion.val = r.leaseVersion.val + 1 ∧
      r'.attemptCount.val = r.attemptCount.val + 1 ∧
      r'.toStepColumns = { r.toStepColumns with
        status := .running
        currentWorkerId := some workerId
        leaseVersion := r'.leaseVersion
        attemptCount := r'.attemptCount
        leaseExpiresAt := some (clock + 1000 * leaseDurationMs)
        updatedAt := now } := by
  simp only [claimUpdate, except_bind_eq_ok] at h
  obtain ⟨worker, hworker, ms, hms, h⟩ := h
  obtain rfl := textParam_eq_ok hworker
  rw [Int4.cast_eq_ok] at hms
  split at h
  · rename_i hguard
    simp only [except_bind_eq_ok, Int4.succ_eq_ok, StepColumns.check_eq_ok] at h
    obtain ⟨v, hv, a, ha, row, hrow, h⟩ := h
    obtain rfl : row = r' := by simpa [pure, Except.pure] using h
    have hleaseVersion : row.leaseVersion = v := by rw [hrow]
    have hattemptCount : row.attemptCount = a := by rw [hrow]
    refine ⟨hguard.1, hguard.2, hleaseVersion ▸ hv, hattemptCount ▸ ha, ?_⟩
    rw [hrow, leaseDeadline, hms]
  · cases h

theorem claimCandidate_eq_ok {workerId : WorkerId} {leaseDurationMs : ℤ} {now clock : Timestamp}
    {r : StepRow} {o : Option StepRow}
    (h : claimCandidate workerId leaseDurationMs now clock r = .ok o) :
    ∃ r', o = some r' ∧ claimUpdate workerId leaseDurationMs now clock r = .ok (some r') := by
  unfold claimCandidate at h
  split at h
  · cases h
  · split at h
    · cases h
    · rename_i hne
      cases o with
      | none => exact absurd h hne
      | some r' => exact ⟨r', rfl, h⟩

end DurableRunner.Operations
