import DurableRunner.Schema.Steps
import DurableRunner.Schema.Jsonb

/-! # The `step_events` table

One row per committed lifecycle transition. An event is inserted inside the
transaction that performs the transition it describes.
-/
namespace DurableRunner.Schema

inductive StepEventType where
  | stepClaimed | stepSucceeded | stepRetryScheduled | stepDeadLettered | leaseRecovered
  | retryReady
deriving DecidableEq, Repr

inductive DeadLetterReason where
  | attemptBudgetExhausted
  | nonRetryableFailure
  | leaseExpiredAttemptBudgetExhausted
deriving DecidableEq, Repr

/-- The `data` object. `none` is an absent key; `previousWorkerId` may be present and null. -/
@[ext] structure EventData where
  leaseVersion : Int4
  attemptCount : Int4
  availableAt : Option Timestamp := none
  error : Option JsString := none
  reason : Option DeadLetterReason := none
  previousWorkerId : Option (Option WorkerId) := none
deriving DecidableEq

@[ext] structure NewEvent where
  stepId : StepId
  workerId : Option WorkerId
  eventType : StepEventType
  data : EventData
deriving DecidableEq

/-- A stored event. `id` comes from a sequence at INSERT time, `xid` is the
transaction that wrote the row. -/
@[ext] structure EventRow extends NewEvent where
  id : ℕ
  createdAt : Timestamp
  xid : ℕ
deriving DecidableEq

def maxEventErrorLength : ℕ := 200

/-- `error.slice(0, 199)` followed by an ellipsis, unless the text fits. -/
def truncateEventError (error : JsString) : JsString :=
  if error.length ≤ maxEventErrorLength then error
  else error.take (maxEventErrorLength - 1) ++ [0x2026]

theorem truncateEventError_length (error : JsString) :
    (truncateEventError error).length ≤ maxEventErrorLength := by
  unfold truncateEventError
  split
  · assumption
  · simp [maxEventErrorLength]

/-- `jsonb` input rejects the escapes that `JSON.stringify` writes for an
unpaired surrogate and for NUL. -/
def EventData.storable (d : EventData) : Bool :=
  d.error.all fun e => e.isWellFormed && !e.contains 0

def recordStepEvent (event : NewEvent) : Except DbError NewEvent :=
  if event.data.storable then .ok event else .error .invalidText

theorem recordStepEvent_eq_ok {event stored : NewEvent} :
    recordStepEvent event = .ok stored ↔ event.data.storable = true ∧ stored = event := by
  unfold recordStepEvent
  split
  · rename_i h
    simp [h, eq_comm]
  · rename_i h
    simp [h]

def textParam (s : String) : Except DbError String :=
  if s.toList.contains '\x00' then .error .invalidText else .ok s

def jsTextParam (s : JsString) : Except DbError JsString :=
  if s.contains 0 then .error .invalidText else .ok s.toWellFormed

def jsonParam (j : Json) : Except DbError Json :=
  if j.storable then .ok j.jsonb else .error .invalidText

theorem textParam_eq_ok {s t : String} (h : textParam s = .ok t) : t = s := by
  unfold textParam at h
  split at h
  · cases h
  · exact (Except.ok.inj h).symm

theorem jsonParam_eq_ok {j k : Json} (h : jsonParam j = .ok k) : k = j.jsonb := by
  unfold jsonParam at h
  split at h
  · exact (Except.ok.inj h).symm
  · cases h

theorem except_bind_eq_ok {ε α β : Type} {x : Except ε α} {f : α → Except ε β} {b : β} :
    (x >>= f) = .ok b ↔ ∃ a, x = .ok a ∧ f a = .ok b := by
  cases x with
  | error e => simp [bind, Except.bind]
  | ok a => simp [bind, Except.bind]

theorem except_map_eq_ok {ε α β : Type} {x : Except ε α} {f : α → β} {b : β} :
    x.map f = .ok b ↔ ∃ a, x = .ok a ∧ f a = b := by
  cases x <;> simp [Except.map]

end DurableRunner.Schema
