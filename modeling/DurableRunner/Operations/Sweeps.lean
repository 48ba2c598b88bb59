import DurableRunner.Operations.ClaimStep

/-! # Expiry recovery and retry promotion

Each sweep is one statement: a bounded `FOR UPDATE SKIP LOCKED` candidate
select, an UPDATE joined to the locked candidates by id, and one event INSERT
for each updated row.
-/
namespace DurableRunner.Operations
open Schema

def sweepLimit : ℕ := 100

@[ext] structure RecoveredStep where
  id : StepId
  leaseVersion : Int4
  status : StepStatus
deriving DecidableEq

@[ext] structure PromotedStep where
  id : StepId
  leaseVersion : Int4
  attemptCount : Int4
deriving DecidableEq

/-- `status = 'RUNNING' and lease_expires_at <= clock_timestamp()`. -/
def recoverEligible (clock : Timestamp) (r : StepRow) : Bool :=
  r.status = .running && r.leaseExpiresAt.any (fun d => d ≤ clock)

/-- `status = 'RETRY_WAIT' and available_at <= clock_timestamp()`. -/
def promoteEligible (clock : Timestamp) (r : StepRow) : Bool :=
  r.status = .retryWait && decide (r.availableAt ≤ clock)

/-- `order by lease_expires_at asc, id asc`. A NULL deadline sorts last. -/
def recoverOrder (a b : StepRow) : Prop :=
  match a.leaseExpiresAt, b.leaseExpiresAt with
  | some x, some y => x < y ∨ (x = y ∧ a.id ≤ b.id)
  | some _, none => True
  | none, some _ => False
  | none, none => a.id ≤ b.id

/-- `order by available_at asc, id asc`. -/
def promoteOrder (a b : StepRow) : Prop :=
  a.availableAt < b.availableAt ∨ (a.availableAt = b.availableAt ∧ a.id ≤ b.id)

instance : DecidableRel recoverOrder := fun a b => by
  unfold recoverOrder
  cases a.leaseExpiresAt <;> cases b.leaseExpiresAt <;> infer_instance

instance : DecidableRel promoteOrder := fun _ _ => inferInstanceAs (Decidable (_ ∨ _))

def recoverUpdate (now : Timestamp) (r : StepRow) : Except DbError StepRow :=
  StepColumns.check { r.toStepColumns with
    status := if r.attemptCount.val < r.maxAttempts.val then .ready else .deadLettered
    currentWorkerId := none
    leaseExpiresAt := none
    updatedAt := now }

def promoteUpdate (now : Timestamp) (r : StepRow) : Except DbError StepRow :=
  StepColumns.check { r.toStepColumns with
    status := .ready
    updatedAt := now }

/-- The recovery event names the owner that lost authority, read before the UPDATE cleared it. -/
def recoverEvent (old new : StepRow) : NewEvent where
  stepId := new.id
  workerId := old.currentWorkerId
  eventType := if new.status = .ready then .leaseRecovered else .stepDeadLettered
  data :=
    { leaseVersion := new.leaseVersion
      attemptCount := new.attemptCount
      previousWorkerId := some old.currentWorkerId
      reason :=
        if new.status = .ready then none else some .leaseExpiredAttemptBudgetExhausted }

def promoteEvent (new : StepRow) : NewEvent where
  stepId := new.id
  workerId := none
  eventType := .retryReady
  data := { leaseVersion := new.leaseVersion, attemptCount := new.attemptCount }

def recoveredStep (r : StepRow) : RecoveredStep := ⟨r.id, r.leaseVersion, r.status⟩
def promotedStep (r : StepRow) : PromotedStep := ⟨r.id, r.leaseVersion, r.attemptCount⟩

theorem recoverEligible_iff {clock : Timestamp} {r : StepRow} :
    recoverEligible clock r = true ↔
      r.status = .running ∧ ∃ d, r.leaseExpiresAt = some d ∧ d ≤ clock := by
  simp [recoverEligible, Option.any_eq_true]

theorem promoteEligible_iff {clock : Timestamp} {r : StepRow} :
    promoteEligible clock r = true ↔ r.status = .retryWait ∧ r.availableAt ≤ clock := by
  simp [promoteEligible]

/-- At one instant a lease is the owner's or recoverable, never both. -/
theorem not_recoverEligible_of_live {clock deadline : Timestamp} {r : StepRow}
    (hdeadline : r.leaseExpiresAt = some deadline) (hlive : clock < deadline) :
    recoverEligible clock r = false := by
  rw [Bool.eq_false_iff]
  intro h
  obtain ⟨-, d, hd, hle⟩ := recoverEligible_iff.mp h
  obtain rfl := Option.some.inj (hdeadline.symm.trans hd)
  exact absurd hle (not_le.mpr hlive)

theorem recoverUpdate_eq_ok {now : Timestamp} {r r' : StepRow} :
    recoverUpdate now r = .ok r' ↔
      r'.toStepColumns = { r.toStepColumns with
        status := if r.attemptCount.val < r.maxAttempts.val then .ready else .deadLettered
        currentWorkerId := none
        leaseExpiresAt := none
        updatedAt := now } :=
  StepColumns.check_eq_ok

theorem promoteUpdate_eq_ok {now : Timestamp} {r r' : StepRow} :
    promoteUpdate now r = .ok r' ↔
      r'.toStepColumns = { r.toStepColumns with
        status := .ready
        updatedAt := now } :=
  StepColumns.check_eq_ok

end DurableRunner.Operations
