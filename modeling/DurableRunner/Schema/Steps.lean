import DurableRunner.Schema.Json
import DurableRunner.Schema.Lifecycle
import DurableRunner.Relational.Table
import Mathlib.Tactic.Linarith

/-! # The `steps` table

A stored row carries the table's CHECK constraints as fields, so a row that
PostgreSQL would refuse cannot be built. The value list of an UPDATE is a plain
record of columns that `check` turns into a row or an error.
-/
namespace DurableRunner.Schema

/-- A UUID, ordered as the `uuid` type orders it. -/
abbrev StepId := Fin (2 ^ 128)
abbrev WorkerId := String

instance StepId.neZero : NeZero (2 ^ 128 : ℕ) := ⟨by decide⟩

/-- `timestamptz`, in its microsecond resolution. -/
abbrev Timestamp := ℤ

@[ext] structure Int4 where
  val : ℤ
  inRange : -2147483648 ≤ val ∧ val ≤ 2147483647
deriving DecidableEq

/-- What aborts a statement. -/
inductive DbError where
  | castOutOfRange
  | integerOutOfRange
  | checkViolation
  | invalidText
  | illegalTransition
  | consistency
  | fault
deriving DecidableEq

namespace Int4

theorem inRange_zero : -2147483648 ≤ (0 : ℤ) ∧ (0 : ℤ) ≤ 2147483647 := by decide

theorem inRange_one : -2147483648 ≤ (1 : ℤ) ∧ (1 : ℤ) ≤ 2147483647 := by decide

def ofInt (error : DbError) (z : ℤ) : Except DbError Int4 :=
  if h : -2147483648 ≤ z ∧ z ≤ 2147483647 then .ok ⟨z, h⟩ else .error error

/-- The cast `::int` of a parameter. -/
def cast (z : ℤ) : Except DbError Int4 := ofInt .castOutOfRange z

/-- Integer addition of one, which fails at the upper end of the type. -/
def succ (n : Int4) : Except DbError Int4 := ofInt .integerOutOfRange (n.val + 1)

theorem ofInt_eq_ok {error : DbError} {z : ℤ} {n : Int4} :
    ofInt error z = .ok n ↔ n.val = z := by
  unfold ofInt
  split
  · rw [Except.ok.injEq, Int4.ext_iff]
    exact eq_comm
  · rename_i h
    refine ⟨nofun, fun e => absurd (e ▸ n.inRange) h⟩

theorem cast_eq_ok {z : ℤ} {n : Int4} : cast z = .ok n ↔ n.val = z := ofInt_eq_ok

theorem cast_eq_error {z : ℤ} {e : DbError} (h : cast z = .error e) : e = .castOutOfRange := by
  unfold cast ofInt at h
  split at h
  · cases h
  · exact (Except.error.inj h).symm

theorem succ_eq_ok {n m : Int4} : n.succ = .ok m ↔ m.val = n.val + 1 := ofInt_eq_ok

theorem succ_of_lt {n bound : Int4} (h : n.val < bound.val) : ∃ m, n.succ = .ok m := by
  have hn := n.inRange
  have hb := bound.inRange
  exact ⟨⟨n.val + 1, by omega⟩, succ_eq_ok.mpr rfl⟩

end Int4

@[ext] structure StepColumns where
  id : StepId
  status : StepStatus
  priority : Int4
  availableAt : Timestamp
  currentWorkerId : Option WorkerId
  leaseVersion : Int4
  attemptCount : Int4
  maxAttempts : Int4
  lastError : Option JsString
  leaseExpiresAt : Option Timestamp
  taskType : String
  payload : Json
  result : Option Json
  createdAt : Timestamp
  updatedAt : Timestamp
deriving DecidableEq

def StepColumns.runningRequiresOwner (c : StepColumns) : Prop :=
  c.status ≠ .running ∨
    (c.currentWorkerId.isSome ∧ c.leaseExpiresAt.isSome ∧ 0 < c.leaseVersion.val)

instance (c : StepColumns) : Decidable c.runningRequiresOwner :=
  inferInstanceAs (Decidable (_ ∨ _))

/-- A row that satisfies every CHECK constraint of the table. -/
@[ext] structure StepRow extends StepColumns where
  steps_attempt_count_nonnegative : 0 ≤ attemptCount.val
  steps_max_attempts_positive : 1 ≤ maxAttempts.val
  steps_running_requires_owner : toStepColumns.runningRequiresOwner
deriving DecidableEq

/-- Constraint checking, as the table does it on every INSERT and UPDATE. -/
def StepColumns.check (c : StepColumns) : Except DbError StepRow :=
  if h : 0 ≤ c.attemptCount.val ∧ 1 ≤ c.maxAttempts.val ∧ c.runningRequiresOwner then
    .ok ⟨c, h.1, h.2.1, h.2.2⟩
  else .error .checkViolation

theorem StepColumns.check_eq_ok {c : StepColumns} {r : StepRow} :
    c.check = .ok r ↔ r.toStepColumns = c := by
  unfold StepColumns.check
  split
  · rw [Except.ok.injEq, StepRow.ext_iff]
    simp only [StepColumns.ext_iff]
    tauto
  · rename_i h
    refine ⟨nofun, fun e => absurd ?_ h⟩
    subst e
    exact ⟨r.steps_attempt_count_nonnegative, r.steps_max_attempts_positive,
      r.steps_running_requires_owner⟩

theorem StepColumns.check_of (c : StepColumns)
    (h : 0 ≤ c.attemptCount.val ∧ 1 ≤ c.maxAttempts.val ∧ c.runningRequiresOwner) :
    ∃ r : StepRow, c.check = .ok r :=
  ⟨⟨c, h.1, h.2.1, h.2.2⟩, check_eq_ok.mpr rfl⟩

/-- A row nobody has claimed yet. -/
structure StepRow.Unclaimed (r : StepRow) : Prop where
  status : r.status = .ready
  leaseVersion : r.leaseVersion.val = 0
  attemptCount : r.attemptCount.val = 0
  owner : r.currentWorkerId = none

/-- An unclaimed row as its creator leaves it, every other result column null. -/
structure StepRow.Fresh (r : StepRow) : Prop extends r.Unclaimed where
  deadline : r.leaseExpiresAt = none
  result : r.result = none
  lastError : r.lastError = none

/-- A READY row with the table's column defaults. -/
def StepRow.inserted (id : StepId) (taskType : String) (payload : Json) (now : Timestamp) :
    StepRow where
  id := id
  status := .ready
  priority := ⟨0, by decide⟩
  availableAt := now
  currentWorkerId := none
  leaseVersion := ⟨0, by decide⟩
  attemptCount := ⟨0, by decide⟩
  maxAttempts := ⟨3, by decide⟩
  lastError := none
  leaseExpiresAt := none
  taskType := taskType
  payload := payload
  result := none
  createdAt := now
  updatedAt := now
  steps_attempt_count_nonnegative := le_refl 0
  steps_max_attempts_positive := by decide
  steps_running_requires_owner := .inl nofun

theorem StepRow.fresh_inserted (id : StepId) (taskType : String) (payload : Json)
    (now : Timestamp) : (inserted id taskType payload now).Fresh :=
  ⟨⟨rfl, rfl, rfl, rfl⟩, rfl, rfl, rfl⟩

abbrev StepRow.key (r : StepRow) : StepId := r.id

abbrev StepsTable := Relational.Table StepRow.key

def insertedSteps (ids : List StepId) (hids : ids.Nodup) (now : Timestamp) : StepsTable where
  rows := ids.map fun id => .inserted id "hash_after_delay" .null now
  nodup_keys := by simpa [Function.comp_def, StepRow.inserted] using hids

theorem fresh_of_mem_insertedSteps {ids : List StepId} (hids : ids.Nodup) {now : Timestamp}
    {r : StepRow} (h : r ∈ (insertedSteps ids hids now).rows) : r.Fresh := by
  obtain ⟨id, -, rfl⟩ := List.mem_map.mp h
  exact StepRow.fresh_inserted _ _ _ _

theorem id_of_find? {steps : StepsTable} {id : StepId} {r : StepRow}
    (h : steps.find? id = some r) : r.id = id := by
  have hkey := Relational.Table.key_of_find? h
  exact hkey

end DurableRunner.Schema
