import DurableRunner.Operations.Calls
import DurableRunner.TransitionSystem.Runs

/-! # `runWorkerLoop` and its lease renewals

One worker loop with the renewal coroutines it has started, one resumption at a
time. What is awaited may settle at any moment, timers included, and whatever
has settled may be resumed at any later one.
-/
namespace DurableRunner.Worker
open Schema Operations TransitionSystem

inductive ClaimAnswer where
  | notClaimed
  | claimed (step : ClaimedStep)
  | threw
deriving DecidableEq

inductive RenewalAnswer where
  | renewed
  | rejected
  | threw
deriving DecidableEq

inductive ReportAnswer where
  | accepted
  | rejected
  | threw
deriving DecidableEq

/-- How the executor ended; a thrown error is reported by its text. -/
inductive ExecutorOutcome where
  | resolved (output : Json)
  | threw (errorText : JsString) (isInvalidTask : Bool)
deriving DecidableEq

/-- What the coroutine of `startLeaseRenewal` awaits; a call with its answer once there is one. -/
inductive RenewalPhase where
  | sleeping
  | renewing (answer : Option RenewalAnswer)
  | done
deriving DecidableEq

structure LeaseRenewal where
  step : ClaimedStep
  /-- `controller.signal.aborted`. -/
  stopped : Bool
  phase : RenewalPhase
deriving DecidableEq

/-- What `runWorkerLoop` awaits; in a block with the handle of its renewal. -/
inductive LoopPhase where
  | claiming (answer : Option ClaimAnswer)
  | polling
  | executing (step : ClaimedStep) (renewal : ℕ) (outcome : Option ExecutorOutcome)
  /-- `renewal.stop()`. -/
  | draining (step : ClaimedStep) (renewal : ℕ) (outcome : ExecutorOutcome)
  | reporting (step : ClaimedStep) (outcome : ExecutorOutcome) (answer : Option ReportAnswer)
  | returned
  | rejected
deriving DecidableEq

inductive LoopEvent where
  | called (call : Call)
  | claimAnswered (answer : ClaimAnswer)
  | renewalAnswered (answer : RenewalAnswer)
  | reportAnswered (answer : ReportAnswer)
deriving DecidableEq

structure LoopOptions where
  workerId : WorkerId
  leaseDurationMs : ℤ

@[ext] structure LoopState where
  phase : LoopPhase
  renewals : List LeaseRenewal
  /-- `signal.aborted`. -/
  aborted : Bool
  trace : List LoopEvent
  /-- How the executors ended, in order. -/
  outcomes : List (ClaimedStep × ExecutorOutcome)
deriving DecidableEq

inductive LoopAction where
  | abort
  | claimAnswered (answer : ClaimAnswer)
  | executorSettled (outcome : ExecutorOutcome)
  | reportAnswered (answer : ReportAnswer)
  | renewalAnswered (i : ℕ) (answer : RenewalAnswer)
  /-- The loop goes on after its await. -/
  | resume
  | renewalResumes (i : ℕ)

namespace LoopOptions
variable (o : LoopOptions)

def credential (step : ClaimedStep) : Credential := ⟨step.id, o.workerId, step.leaseVersion⟩

def claim : Call := .claimNextStep o.workerId o.leaseDurationMs

def renew (step : ClaimedStep) : Call := .renewStepLease (o.credential step) o.leaseDurationMs

def report (step : ClaimedStep) : ExecutorOutcome → Call
  | .resolved output => .completeStepSuccess (o.credential step) output
  | .threw errorText isInvalidTask =>
    .recordStepFailure (o.credential step) errorText (!isInvalidTask)

end LoopOptions

namespace LoopState

def call (s : LoopState) (call : Call) : LoopState := { s with trace := s.trace ++ [.called call] }

def setRenewal (s : LoopState) (i : ℕ) (renewal : LeaseRenewal) : LoopState :=
  { s with renewals := s.renewals.set i renewal }

/-- `while (!signal.aborted)`. -/
def head (o : LoopOptions) (s : LoopState) : LoopState :=
  if s.aborted then { s with phase := .returned }
  else { s.call o.claim with phase := .claiming none }

/-- The loop starts, perhaps with a signal that is aborted already. -/
def start (o : LoopOptions) (aborted : Bool) : LoopState :=
  head o { phase := .returned, renewals := [], aborted, trace := [], outcomes := [] }

/-- After the claim. The new coroutine runs up to its first sleep. -/
def afterClaim (s : LoopState) : ClaimAnswer → LoopState
  | .notClaimed => { s with phase := .polling }
  | .claimed step => { s with
      phase := .executing step s.renewals.length none
      renewals := s.renewals ++ [⟨step, false, .sleeping⟩] }
  | .threw => { s with phase := .rejected }

def resume (o : LoopOptions) (s : LoopState) : Option LoopState :=
  match s.phase with
  | .claiming (some answer) => some (s.afterClaim answer)
  | .polling => some (s.head o)
  | .executing step i (some outcome) => (s.renewals[i]?).map fun renewal =>
      { s.setRenewal i { renewal with stopped := true } with phase := .draining step i outcome }
  | .draining step i outcome => (s.renewals[i]?).bind fun renewal =>
      if renewal.phase = .done then
        some { s.call (o.report step outcome) with phase := .reporting step outcome none }
      else none
  | .reporting _ _ (some _) => some (s.head o)
  | .claiming none | .executing _ _ none | .reporting _ _ none | .returned | .rejected => none

def renewalResumes (o : LoopOptions) (s : LoopState) (i : ℕ) (renewal : LeaseRenewal) :
    Option LoopState :=
  match renewal.phase with
  | .sleeping =>
    if renewal.stopped then some (s.setRenewal i { renewal with phase := .done })
    else some ((s.call (o.renew renewal.step)).setRenewal i { renewal with phase := .renewing none })
  | .renewing (some .rejected) => some (s.setRenewal i { renewal with phase := .done })
  | .renewing (some _) =>
    some (s.setRenewal i { renewal with phase := if renewal.stopped then .done else .sleeping })
  | .renewing none | .done => none

def step (o : LoopOptions) (s : LoopState) : LoopAction → Option LoopState
  | .abort => some { s with aborted := true }
  | .claimAnswered answer =>
    match s.phase with
    | .claiming none => some { s with
        phase := .claiming (some answer)
        trace := s.trace ++ [.claimAnswered answer] }
    | _ => none
  | .executorSettled outcome =>
    match s.phase with
    | .executing step i none => some { s with
        phase := .executing step i (some outcome)
        outcomes := s.outcomes ++ [(step, outcome)] }
    | _ => none
  | .reportAnswered answer =>
    match s.phase with
    | .reporting step outcome none => some { s with
        phase := .reporting step outcome (some answer)
        trace := s.trace ++ [.reportAnswered answer] }
    | _ => none
  | .renewalAnswered i answer => (s.renewals[i]?).bind fun renewal =>
      if renewal.phase = .renewing none then
        some { s.setRenewal i { renewal with phase := .renewing (some answer) } with
          trace := s.trace ++ [.renewalAnswered answer] }
      else none
  | .resume => s.resume o
  | .renewalResumes i => (s.renewals[i]?).bind fun renewal => s.renewalResumes o i renewal

end LoopState
end DurableRunner.Worker
