import DurableRunner.Worker.Loop
import DurableRunner.Worker.Runtime

/-! # Worker processes over one database

Any number of worker loops, each with the coroutines it consists of and the
transactions of the calls it has sent. A call is answered once its transaction
is over.
-/
namespace DurableRunner.Worker
open Schema Operations Effects
open Sessions (World TxId)

/-- A process that runs `runWorkerLoop`. -/
structure LoopProcess where
  options : LoopOptions
  loop : LoopState
  /-- The transaction of the latest claim or report; none where the arguments were refused. -/
  call : Option TxId
  /-- The transaction of the latest renewal of the claimed step. -/
  renewal : Option TxId
  /-- The effect that the executor has asked for. -/
  effect : Option CallId
  crashed : Bool

structure Fleet where
  world : World
  effects : EffectStore
  processes : ℕ → Option LoopProcess

inductive FleetAction where
  /-- A move of the database, or a call of a coordinator. -/
  | database (action : Sessions.Action)
  /-- A move of the effect store, or an effect of another program. -/
  | effects (action : StoreAction)
  | spawn (process : ℕ) (options : LoopOptions) (aborted : Bool)
  | loop (process : ℕ) (action : LoopAction)
  /-- `context.applyEffect`, with the UUID that the call mints. -/
  | applyEffect (process : ℕ) (effectId : String)
  | crash (process : ℕ)

section Answers
variable (w : World) (call : Option TxId)

/-- The transaction of a call has committed or rolled back, if there was one. -/
def isOver : Bool := call.all fun tx => (w.txs tx).isNone

def outcome? : Option Outcome :=
  call.bind fun tx => (w.history.find? fun c => c.tx = tx).map Sessions.Commit.outcome

/-- A claim that throws may have committed. -/
def answersClaim (answer : ClaimAnswer) : Bool :=
  isOver w call && match answer, outcome? w call with
    | .claimed step, some (.claimed step') => step = step'
    | .notClaimed, some .notClaimed => true
    | .threw, _ => true
    | _, _ => false

/-- A renewal that throws may have committed, but has not been rejected. -/
def answersRenewal (answer : RenewalAnswer) : Bool :=
  isOver w call && match answer, outcome? w call with
    | .renewed, some (.renewed _) => true
    | .rejected, some .notRenewed => true
    | .threw, outcome => outcome ≠ some .notRenewed
    | _, _ => false

/-- A report that throws may have committed. -/
def answersReport (answer : ReportAnswer) : Bool :=
  isOver w call && match answer, outcome? w call with
    | .accepted, some .completed | .accepted, some (.recorded _ _ _ _ _) => true
    | .rejected, some .completionConsistencyError | .rejected, some .notRecorded => true
    | .threw, _ => true
    | _, _ => false

end Answers

def ExecutorError.caughtAs (error : ExecutorError) : ExecutorOutcome → Bool
  | .resolved _ => false
  | .threw errorText isInvalidTask => error.carries errorText && isInvalidTask = !error.retryable

/-- The executor of a claimed step ends so; an effect step once its effect is answered. -/
def executorEnds (sha256Hex : String → String) (e : EffectStore) (step : ClaimedStep)
    (effect : Option CallId) (outcome : ExecutorOutcome) : Bool :=
  match executeStep sha256Hex (uuidText step.id) step.taskType step.payload
      step.attemptCount.val with
  | .resolves result => outcome = .resolved result
  | .throws error => error.caughtAs outcome
  | .applies _ =>
    match effect.bind e.calls with
    | some ⟨_, _, .returned answer⟩ => outcome = .resolved answer.result
    | some ⟨_, _, .failed error⟩ => (ExecutorError.effect error).caughtAs outcome
    | _ => false

def sentCall (before after : List LoopEvent) : Option Call :=
  match after.drop before.length with
  | [.called call] => some call
  | _ => none

namespace LoopProcess

/-- A new claim is answered. -/
def forget (p : LoopProcess) : LoopAction → LoopProcess
  | .claimAnswered _ => { p with renewal := none, effect := none }
  | _ => p

def sent (p : LoopProcess) (tx : Option TxId) : LoopAction → LoopProcess
  | .renewalResumes _ => { p with renewal := tx }
  | _ => { p with call := tx }

end LoopProcess

namespace Fleet

def setProcess (s : Fleet) (i : ℕ) (p : LoopProcess) : Fleet :=
  { s with processes := Function.update s.processes i (some p) }

/-- A call begins its transaction, unless its arguments are refused. -/
def send (s : Fleet) (i : ℕ) (call : Call) (p : Option TxId → LoopProcess) : Fleet :=
  match Sessions.step s.world (.start call) with
  | some world => { s with world }.setProcess i (p (some s.world.nextTx))
  | none => s.setProcess i (p none)

/-- The store's clock is the database's, and its step keys are the executor's. -/
def admits (s : Fleet) : StoreAction → Bool
  | .apply request _ => !isStepEffectKey request.idempotencyKey
  | .insert _ now => now = s.world.clock
  | _ => true

/-- What a process awaits has happened. -/
def awaited (sha256Hex : String → String) (s : Fleet) (p : LoopProcess) : LoopAction → Bool
  | .claimAnswered answer => answersClaim s.world p.call answer
  | .renewalAnswered _ answer => answersRenewal s.world p.renewal answer
  | .reportAnswered answer => answersReport s.world p.call answer
  | .executorSettled outcome =>
    match p.loop.phase with
    | .executing step _ _ => executorEnds sha256Hex s.effects step p.effect outcome
    | _ => false
  | .abort | .resume | .renewalResumes _ => true

/-- The loop of a process has moved on, and its call is sent. -/
def advance (s : Fleet) (i : ℕ) (p : LoopProcess) (action : LoopAction) (loop : LoopState) : Fleet :=
  let p' := { p.forget action with loop }
  match sentCall p.loop.trace loop.trace with
  | none => s.setProcess i p'
  | some call => s.send i call fun tx => p'.sent tx action

def applyEffect (sha256Hex : String → String) (s : Fleet) (i : ℕ) (p : LoopProcess)
    (effectId : String) : Option Fleet :=
  match p.loop.phase, p.effect with
  | .executing step _ none, none =>
    match executeStep sha256Hex (uuidText step.id) step.taskType step.payload
        step.attemptCount.val with
    | .applies request => (s.effects.step (.apply request effectId)).map fun effects =>
        { s with effects }.setProcess i { p with effect := some s.effects.nextCall }
    | _ => none
  | _, _ => none

def fresh (options : LoopOptions) (aborted : Bool) : LoopProcess where
  options := options
  loop := { phase := .returned, renewals := [], aborted, trace := [], outcomes := [] }
  call := none
  renewal := none
  effect := none
  crashed := false

/-- The process with the given number, unless it has crashed. -/
def alive (s : Fleet) (i : ℕ) : Option LoopProcess := (s.processes i).filter fun p => !p.crashed

def step (sha256Hex : String → String) (s : Fleet) : FleetAction → Option Fleet
  | .database a =>
    if isForeign a then (Sessions.step s.world a).map fun world => { s with world } else none
  | .effects a =>
    if s.admits a then (s.effects.step a).map fun effects => { s with effects } else none
  | .spawn i options aborted =>
    if (s.processes i).isSome then none
    else some (s.advance i (fresh options aborted) .resume (.start options aborted))
  | .loop i action => (s.alive i).bind fun p =>
      if s.awaited sha256Hex p action then
        (p.loop.step p.options action).map fun loop => s.advance i p action loop
      else none
  | .applyEffect i effectId => (s.alive i).bind fun p => s.applyEffect sha256Hex i p effectId
  | .crash i => (s.alive i).map fun p => s.setProcess i { p with crashed := true }

/-- Nothing has run, and nobody has written a key of the executor. -/
structure Initial (s : Fleet) : Prop where
  world : s.world.Initial
  effects : s.effects.Initial
  noKey : ∀ row ∈ s.effects.rows, isStepEffectKey row.idempotencyKey = false
  noProcess : ∀ i, s.processes i = none

def runtime (s : Fleet) : Runtime := ⟨s.world, s.effects, fun _ => none⟩

end Fleet
end DurableRunner.Worker
