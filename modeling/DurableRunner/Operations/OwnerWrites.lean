import DurableRunner.Operations.ClaimStep

/-! # Renewal, completion and failure report

The three writes of a lease owner lock the row by id first and only then
evaluate one authorization predicate: generation and live deadline.
-/
namespace DurableRunner.Operations
open Schema

/-- What a worker was granted by a claim. -/
@[ext] structure Credential where
  id : StepId
  workerId : WorkerId
  leaseVersion : Int4
deriving DecidableEq

/-- `status = 'RUNNING' and current_worker_id = $ and lease_version = $ and
lease_expires_at > clock_timestamp()`, for the row with the credential's id. -/
def holdsLiveLease (cred : Credential) (clock : Timestamp) (r : StepRow) : Bool :=
  r.id = cred.id && r.status = .running && r.currentWorkerId = some cred.workerId &&
    r.leaseVersion = cred.leaseVersion && r.leaseExpiresAt.any (fun d => clock < d)

theorem holdsLiveLease_iff {cred : Credential} {clock : Timestamp} {r : StepRow} :
    holdsLiveLease cred clock r = true ↔
      r.id = cred.id ∧ r.status = .running ∧ r.currentWorkerId = some cred.workerId ∧
        r.leaseVersion = cred.leaseVersion ∧ ∃ d, r.leaseExpiresAt = some d ∧ clock < d := by
  simp [holdsLiveLease, Option.any_eq_true, and_assoc]

/-- An owner UPDATE: its parameters, the shared predicate, and its own SET list. -/
def ownerUpdate (cred : Credential) (clock : Timestamp) (r : StepRow)
    (set : Except DbError StepColumns) : Except DbError (Option StepRow) := do
  let _ ← textParam cred.workerId
  let columns ← set
  if holdsLiveLease cred clock r then
    let row ← columns.check
    return some row
  else return none

def renewUpdate (cred : Credential) (leaseDurationMs : ℤ) (now clock : Timestamp) (r : StepRow) :
    Except DbError (Option StepRow) :=
  ownerUpdate cred clock r do
    let ms ← Int4.cast leaseDurationMs
    return { r.toStepColumns with
      leaseExpiresAt := some (leaseDeadline clock ms)
      updatedAt := now }

def completeUpdate (cred : Credential) (result : Json) (now clock : Timestamp) (r : StepRow) :
    Except DbError (Option StepRow) :=
  ownerUpdate cred clock r do
    let result ← jsonParam result
    return { r.toStepColumns with
      status := .succeeded
      result := some result
      currentWorkerId := none
      leaseExpiresAt := none
      updatedAt := now }

/-- `(500 * power(2, least(greatest(attempt_count - 1, 0), 3)))::int` milliseconds. -/
def retryBackoffMs (attemptCount : Int4) : ℤ :=
  500 * 2 ^ (min (max (attemptCount.val - 1) 0) 3).toNat

theorem retryBackoffMs_pos (n : Int4) : 0 < retryBackoffMs n := by
  unfold retryBackoffMs
  positivity

/-- `$retryable and attempt_count < max_attempts`. -/
def mayRetry (retryable : Bool) (r : StepRow) : Bool :=
  retryable && decide (r.attemptCount.val < r.maxAttempts.val)

def failUpdate (cred : Credential) (error : JsString) (retryable : Bool) (now clock : Timestamp)
    (r : StepRow) : Except DbError (Option StepRow) :=
  ownerUpdate cred clock r do
    let error ← jsTextParam error
    return { r.toStepColumns with
      status := if mayRetry retryable r then .retryWait else .deadLettered
      currentWorkerId := none
      leaseExpiresAt := none
      lastError := some error
      availableAt :=
        if mayRetry retryable r then clock + 1000 * retryBackoffMs r.attemptCount
        else r.availableAt
      updatedAt := now }

def completeEvent (cred : Credential) (r : StepRow) : NewEvent where
  stepId := r.id
  workerId := some cred.workerId
  eventType := .stepSucceeded
  data := { leaseVersion := r.leaseVersion, attemptCount := r.attemptCount }

/-- The event of an accepted failure report, chosen by the status it produced. -/
def failEvent (cred : Credential) (error : JsString) (retryable : Bool) (r : StepRow) : NewEvent where
  stepId := cred.id
  workerId := some cred.workerId
  eventType := if r.status = .retryWait then .stepRetryScheduled else .stepDeadLettered
  data :=
    if r.status = .retryWait then
      { leaseVersion := r.leaseVersion
        attemptCount := r.attemptCount
        availableAt := some r.availableAt
        error := some (truncateEventError error) }
    else
      { leaseVersion := r.leaseVersion
        attemptCount := r.attemptCount
        reason := some (if retryable then .attemptBudgetExhausted else .nonRetryableFailure)
        error := some (truncateEventError error) }

theorem ownerUpdate_eq_some {cred : Credential} {clock : Timestamp} {r r' : StepRow}
    {set : Except DbError StepColumns} (h : ownerUpdate cred clock r set = .ok (some r')) :
    holdsLiveLease cred clock r = true ∧ set = .ok r'.toStepColumns := by
  simp only [ownerUpdate, except_bind_eq_ok] at h
  obtain ⟨_, -, columns, hset, h⟩ := h
  split at h
  · rename_i hlive
    simp only [except_bind_eq_ok, StepColumns.check_eq_ok] at h
    obtain ⟨row, hrow, h⟩ := h
    obtain rfl : row = r' := by simpa [pure, Except.pure] using h
    exact ⟨hlive, hrow ▸ hset⟩
  · cases h

theorem ownerUpdate_eq_none {cred : Credential} {clock : Timestamp} {r : StepRow}
    {set : Except DbError StepColumns} (h : ownerUpdate cred clock r set = .ok none) :
    holdsLiveLease cred clock r = false := by
  simp only [ownerUpdate, except_bind_eq_ok] at h
  obtain ⟨_, -, columns, hset, h⟩ := h
  split at h
  · simp [except_bind_eq_ok, pure, Except.pure] at h
  · rename_i hlive
    simpa using hlive

theorem renewUpdate_eq_some {cred : Credential} {leaseDurationMs : ℤ} {now clock : Timestamp}
    {r r' : StepRow} (h : renewUpdate cred leaseDurationMs now clock r = .ok (some r')) :
    holdsLiveLease cred clock r = true ∧
      r'.toStepColumns = { r.toStepColumns with
        leaseExpiresAt := some (clock + 1000 * leaseDurationMs)
        updatedAt := now } := by
  obtain ⟨hlive, hset⟩ := ownerUpdate_eq_some h
  simp only [except_bind_eq_ok, Int4.cast_eq_ok] at hset
  obtain ⟨ms, hms, hset⟩ := hset
  refine ⟨hlive, ?_⟩
  rw [← Except.ok.inj hset, leaseDeadline, hms]

theorem completeUpdate_eq_some {cred : Credential} {result : Json} {now clock : Timestamp}
    {r r' : StepRow} (h : completeUpdate cred result now clock r = .ok (some r')) :
    holdsLiveLease cred clock r = true ∧
      r'.toStepColumns = { r.toStepColumns with
        status := .succeeded
        result := some result.jsonb
        currentWorkerId := none
        leaseExpiresAt := none
        updatedAt := now } := by
  obtain ⟨hlive, hset⟩ := ownerUpdate_eq_some h
  simp only [except_bind_eq_ok] at hset
  obtain ⟨stored, hstored, hset⟩ := hset
  obtain rfl := jsonParam_eq_ok hstored
  exact ⟨hlive, (Except.ok.inj hset).symm⟩

theorem failUpdate_eq_some {cred : Credential} {error : JsString} {retryable : Bool}
    {now clock : Timestamp} {r r' : StepRow}
    (h : failUpdate cred error retryable now clock r = .ok (some r')) :
    holdsLiveLease cred clock r = true ∧
      r'.toStepColumns = { r.toStepColumns with
        status := if mayRetry retryable r then .retryWait else .deadLettered
        currentWorkerId := none
        leaseExpiresAt := none
        lastError := some error.toWellFormed
        availableAt :=
          if mayRetry retryable r then clock + 1000 * retryBackoffMs r.attemptCount
          else r.availableAt
        updatedAt := now } := by
  obtain ⟨hlive, hset⟩ := ownerUpdate_eq_some h
  simp only [except_bind_eq_ok] at hset
  obtain ⟨stored, hstored, hset⟩ := hset
  obtain rfl : stored = error.toWellFormed := by
    unfold jsTextParam at hstored
    split at hstored
    · cases hstored
    · exact (Except.ok.inj hstored).symm
  exact ⟨hlive, (Except.ok.inj hset).symm⟩

end DurableRunner.Operations
