import DurableRunner.Worker.ExecuteStep
import DurableRunner.Effects.StoreCases
import DurableRunner.Sessions.StepCases

/-! # Worker loops over one database

Any number of `runWorkerLoop`s and coordinators, one move at a time. A worker
that makes no move is frozen; between two of its moves the rest of the system
may do anything.
-/
namespace DurableRunner.Worker
open Schema Operations Effects
open Sessions (World TxId)

inductive WorkerPhase where
  | idle
  | claiming (tx : TxId)
  /-- `claimNextStep` has returned a step. -/
  | claimed (step : ClaimedStep)
  /-- The executor awaits its effect, or sleeps after it. -/
  | applying (step : ClaimedStep) (call : CallId)
  /-- `executeStep` has returned. -/
  | resolved (step : ClaimedStep) (result : Json)
  /-- `executeStep` has thrown. -/
  | threw (step : ClaimedStep) (error : ExecutorError)
  | reporting (step : ClaimedStep) (tx : TxId)
  | stopped

structure WorkerLoop where
  workerId : WorkerId
  phase : WorkerPhase
  /-- The latest renewal of the claimed step. -/
  renewal : Option TxId

structure Runtime where
  world : World
  effects : EffectStore
  workers : ℕ → Option WorkerLoop

inductive Action where
  /-- A move of the database, or a call of a coordinator. -/
  | database (action : Sessions.Action)
  /-- A move of the effect store, or an effect of another program. -/
  | effects (action : StoreAction)
  | spawn (worker : ℕ) (workerId : WorkerId)
  | claim (worker : ℕ) (leaseDurationMs : ℤ)
  | claimAnswered (worker : ℕ)
  /-- `executeStep` begins, with the UUID it would mint for an effect. -/
  | execute (worker : ℕ) (effectId : String)
  | effectAnswered (worker : ℕ)
  | renew (worker : ℕ) (leaseDurationMs : ℤ)
  /-- Completion or failure report; a failure carries the error's text. -/
  | report (worker : ℕ) (error : JsString)
  | reportAnswered (worker : ℕ)
  | crash (worker : ℕ)

/-- The calls that no worker loop sends. -/
def isForeign : Sessions.Action → Bool
  | .start .recoverExpiredSteps | .start .promoteDueRetries | .start .lockRows => true
  | .start _ => false
  | _ => true

/-- The phase of a worker that left the executor or never entered it. -/
def WorkerPhase.isAway : WorkerPhase → Bool
  | .idle | .claiming _ | .reporting _ _ | .stopped => true
  | _ => false

namespace Runtime

def setWorker (s : Runtime) (i : ℕ) (worker : WorkerLoop) : Runtime :=
  { s with workers := Function.update s.workers i (some worker) }

def send (s : Runtime) (i : ℕ) (call : Call) (worker : WorkerLoop) : Option Runtime :=
  (Sessions.step s.world (.start call)).map fun world => { s with world }.setWorker i worker

/-- The store's clock is the database's, and its step keys are the executor's. -/
def admits (s : Runtime) : StoreAction → Bool
  | .apply request _ => !isStepEffectKey request.idempotencyKey
  | .insert _ now => now = s.world.clock
  | _ => true

/-- What the answer to a claim makes of its worker; `none` while it is awaited. -/
def claimAnswer (s : Runtime) (tx : TxId) : Option WorkerPhase :=
  match s.world.history.find? fun c => c.tx = tx with
  | some c =>
    match c.outcome with
    | .claimed step => some (.claimed step)
    | _ => some .idle
  | none => if (s.world.txs tx).isSome then none else some .stopped

def renewalDrained (s : Runtime) (worker : WorkerLoop) : Bool :=
  worker.renewal.all fun tx => (s.world.txs tx).isNone

/-- The renewal loop goes on until a renewal is rejected. -/
def mayRenew (s : Runtime) (worker : WorkerLoop) : Bool :=
  s.renewalDrained worker && worker.renewal.all fun tx =>
    s.world.history.all fun c => c.tx ≠ tx || c.outcome ≠ .notRenewed

def credential (worker : WorkerLoop) (step : ClaimedStep) : Credential :=
  ⟨step.id, worker.workerId, step.leaseVersion⟩

def begin (sha256Hex : String → String) (s : Runtime) (i : ℕ) (worker : WorkerLoop)
    (step : ClaimedStep) (effectId : String) : Option Runtime :=
  match executeStep sha256Hex (uuidText step.id) step.taskType step.payload
      step.attemptCount.val with
  | .resolves result => some (s.setWorker i { worker with phase := .resolved step result })
  | .throws error => some (s.setWorker i { worker with phase := .threw step error })
  | .applies request => (s.effects.step (.apply request effectId)).map fun effects =>
      { s with effects }.setWorker i { worker with phase := .applying step s.effects.nextCall }

def effectAnswer (s : Runtime) (step : ClaimedStep) (c : CallId) : Option WorkerPhase :=
  match s.effects.calls c with
  | some ⟨_, _, .returned outcome⟩ => some (.resolved step outcome.result)
  | some ⟨_, _, .failed error⟩ => some (.threw step (.effect error))
  | _ => none

/-- One move of `runWorkerLoop`. -/
def move (sha256Hex : String → String) (s : Runtime) (i : ℕ) (worker : WorkerLoop) :
    Action → Option Runtime
  | .claim _ leaseDurationMs =>
    match worker.phase with
    | .idle => s.send i (.claimNextStep worker.workerId leaseDurationMs)
        { worker with phase := .claiming s.world.nextTx }
    | _ => none
  | .claimAnswered _ =>
    match worker.phase with
    | .claiming tx => (s.claimAnswer tx).map fun phase =>
        s.setWorker i { worker with phase, renewal := none }
    | _ => none
  | .execute _ effectId =>
    match worker.phase with
    | .claimed step => s.begin sha256Hex i worker step effectId
    | _ => none
  | .effectAnswered _ =>
    match worker.phase with
    | .applying step c => (s.effectAnswer step c).map fun phase =>
        s.setWorker i { worker with phase }
    | _ => none
  | .renew _ leaseDurationMs =>
    match worker.phase with
    | .claimed step | .applying step _ =>
      if s.mayRenew worker then
        s.send i (.renewStepLease (credential worker step) leaseDurationMs)
          { worker with renewal := some s.world.nextTx }
      else none
    | _ => none
  | .report _ errorText =>
    if s.renewalDrained worker then
      match worker.phase with
      | .resolved step result => s.send i (.completeStepSuccess (credential worker step) result)
          { worker with phase := .reporting step s.world.nextTx }
      | .threw step error =>
        if error.carries errorText then
          s.send i (.recordStepFailure (credential worker step) errorText error.retryable)
            { worker with phase := .reporting step s.world.nextTx }
        else none
      | _ => none
    else none
  | .reportAnswered _ =>
    match worker.phase with
    | .reporting _ tx =>
      if (s.world.txs tx).isSome then none else some (s.setWorker i { worker with phase := .idle })
    | _ => none
  | .crash _ => some (s.setWorker i { worker with phase := .stopped })
  | .database _ | .effects _ | .spawn _ _ => none

end Runtime

def Action.worker? : Action → Option ℕ
  | .database _ | .effects _ | .spawn _ _ => none
  | .claim i _ | .claimAnswered i | .execute i _ | .effectAnswered i | .renew i _ | .report i _
  | .reportAnswered i | .crash i => some i

def step (sha256Hex : String → String) (s : Runtime) : Action → Option Runtime
  | .database a =>
    if isForeign a then (Sessions.step s.world a).map fun world => { s with world } else none
  | .effects a =>
    if s.admits a then (s.effects.step a).map fun effects => { s with effects } else none
  | .spawn i workerId =>
    if (s.workers i).isSome then none else some (s.setWorker i ⟨workerId, .idle, none⟩)
  | a => a.worker?.bind fun i => (s.workers i).bind fun worker => s.move sha256Hex i worker a

/-- Nothing has run, and nobody has written a key of the executor. -/
structure Runtime.Initial (s : Runtime) : Prop where
  world : s.world.Initial
  effects : s.effects.Initial
  noKey : ∀ row ∈ s.effects.rows, isStepEffectKey row.idempotencyKey = false
  noWorker : ∀ i, s.workers i = none

end DurableRunner.Worker
