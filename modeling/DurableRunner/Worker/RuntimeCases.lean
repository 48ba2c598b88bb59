import DurableRunner.Worker.Runtime

/-! # What one step of the system can do -/
namespace DurableRunner.Worker
open Schema Operations Effects
open Sessions (World TxId)

/-- What a worker in the given phase may send, and the phase in which it waits. -/
inductive Sends (workerId : WorkerId) (tx : TxId) : WorkerPhase → Call → WorkerPhase → Prop
  | claim (ms : ℤ) : Sends workerId tx .idle (.claimNextStep workerId ms) (.claiming tx)
  | renew {phase : WorkerPhase} (cred : Credential) (ms : ℤ) :
      Sends workerId tx phase (.renewStepLease cred ms) phase
  | complete (step : ClaimedStep) (result : Json) :
      Sends workerId tx (.resolved step result)
        (.completeStepSuccess ⟨step.id, workerId, step.leaseVersion⟩ result) (.reporting step tx)
  | fail (step : ClaimedStep) (error : ExecutorError) (text : JsString)
      (hcarries : error.carries text = true) :
      Sends workerId tx (.threw step error)
        (.recordStepFailure ⟨step.id, workerId, step.leaseVersion⟩ text error.retryable)
        (.reporting step tx)

/-- The phases a worker can enter without a word to either store. -/
inductive Turns (sha256Hex : String → String) (s : Runtime) : WorkerPhase → WorkerPhase → Prop
  | away {phase phase' : WorkerPhase} (haway : phase'.isAway = true) : Turns sha256Hex s phase phase'
  | claimed {tx : TxId} {c : Sessions.Commit} {step : ClaimedStep} (hc : c ∈ s.world.history)
      (houtcome : c.outcome = .claimed step) : Turns sha256Hex s (.claiming tx) (.claimed step)
  | resolves {step : ClaimedStep} {result : Json}
      (hexecute : executeStep sha256Hex (uuidText step.id) step.taskType step.payload
        step.attemptCount.val = .resolves result) :
      Turns sha256Hex s (.claimed step) (.resolved step result)
  | throws {step : ClaimedStep} {error : ExecutorError}
      (hexecute : executeStep sha256Hex (uuidText step.id) step.taskType step.payload
        step.attemptCount.val = .throws error) :
      Turns sha256Hex s (.claimed step) (.threw step error)
  | returned {step : ClaimedStep} {c : CallId} {call : EffectCall} {outcome : EffectOutcome}
      (hcall : s.effects.calls c = some call) (hstate : call.state = .returned outcome) :
      Turns sha256Hex s (.applying step c) (.resolved step outcome.result)
  | failed {step : ClaimedStep} {c : CallId} {call : EffectCall} {error : EffectError}
      (hcall : s.effects.calls c = some call) (hstate : call.state = .failed error) :
      Turns sha256Hex s (.applying step c) (.threw step (.effect error))

/-- Every step of the system, with the guard under which it happens. -/
inductive RuntimeCase (sha256Hex : String → String) (s : Runtime) : Action → Runtime → Prop
  | database {a : Sessions.Action} {world : World} (hforeign : isForeign a = true)
      (hstep : Sessions.step s.world a = some world) :
      RuntimeCase sha256Hex s (.database a) { s with world }
  | effects {a : StoreAction} {effects : EffectStore} (hadmits : s.admits a = true)
      (hstep : s.effects.step a = some effects) :
      RuntimeCase sha256Hex s (.effects a) { s with effects }
  | spawn {i : ℕ} {workerId : WorkerId} :
      RuntimeCase sha256Hex s (.spawn i workerId) (s.setWorker i ⟨workerId, .idle, none⟩)
  | turn {a : Action} {i : ℕ} {worker : WorkerLoop} {phase : WorkerPhase} {renewal : Option TxId}
      (hworker : s.workers i = some worker) (hturn : Turns sha256Hex s worker.phase phase) :
      RuntimeCase sha256Hex s a (s.setWorker i ⟨worker.workerId, phase, renewal⟩)
  | send {a : Action} {i : ℕ} {worker : WorkerLoop} {phase : WorkerPhase} {renewal : Option TxId}
      {call : Call} {world : World} (hworker : s.workers i = some worker)
      (hsends : Sends worker.workerId s.world.nextTx worker.phase call phase)
      (hstep : Sessions.step s.world (.start call) = some world) :
      RuntimeCase sha256Hex s a ({ s with world }.setWorker i ⟨worker.workerId, phase, renewal⟩)
  | apply {a : Action} {i : ℕ} {worker : WorkerLoop} {renewal : Option TxId} {step : ClaimedStep}
      {request : EffectRequest} {effectId : String} {effects : EffectStore}
      (hworker : s.workers i = some worker) (hphase : worker.phase = .claimed step)
      (hexecute : executeStep sha256Hex (uuidText step.id) step.taskType step.payload
        step.attemptCount.val = .applies request)
      (hstep : s.effects.step (.apply request effectId) = some effects) :
      RuntimeCase sha256Hex s a
        ({ s with effects }.setWorker i
          ⟨worker.workerId, .applying step s.effects.nextCall, renewal⟩)

section
variable {sha256Hex : String → String} {s s' : Runtime} {i : ℕ} {worker : WorkerLoop} {a : Action}

theorem send_cases {call : Call} {phase : WorkerPhase} {renewal : Option TxId}
    (hworker : s.workers i = some worker)
    (hsends : Sends worker.workerId s.world.nextTx worker.phase call phase)
    (h : s.send i call ⟨worker.workerId, phase, renewal⟩ = some s') :
    RuntimeCase sha256Hex s a s' := by
  obtain ⟨world, hstep, rfl⟩ := Option.map_eq_some_iff.mp h
  exact .send hworker hsends hstep

theorem begin_cases {step : ClaimedStep} {effectId : String} (hworker : s.workers i = some worker)
    (hphase : worker.phase = .claimed step)
    (h : s.begin sha256Hex i worker step effectId = some s') : RuntimeCase sha256Hex s a s' := by
  unfold Runtime.begin at h
  split at h
  · rename_i result hexecute
    obtain rfl := Option.some.inj h
    exact .turn hworker (hphase ▸ .resolves hexecute)
  · rename_i error hexecute
    obtain rfl := Option.some.inj h
    exact .turn hworker (hphase ▸ .throws hexecute)
  · rename_i request hexecute
    obtain ⟨effects, hstep, rfl⟩ := Option.map_eq_some_iff.mp h
    exact .apply hworker hphase hexecute hstep

theorem claimAnswer_cases {tx : TxId} {phase : WorkerPhase} (h : s.claimAnswer tx = some phase) :
    Turns sha256Hex s (.claiming tx) phase := by
  unfold Runtime.claimAnswer at h
  split at h
  · rename_i c hfind
    split at h
    · rename_i step houtcome
      obtain rfl := Option.some.inj h
      exact .claimed (List.mem_of_find?_eq_some hfind) houtcome
    · obtain rfl := Option.some.inj h
      exact .away rfl
  · split at h
    · cases h
    · obtain rfl := Option.some.inj h
      exact .away rfl

theorem effectAnswer_cases {step : ClaimedStep} {c : CallId} {phase : WorkerPhase}
    (h : s.effectAnswer step c = some phase) : Turns sha256Hex s (.applying step c) phase := by
  unfold Runtime.effectAnswer at h
  split at h
  · rename_i hcall
    obtain rfl := Option.some.inj h
    exact .returned hcall rfl
  · rename_i hcall
    obtain rfl := Option.some.inj h
    exact .failed hcall rfl
  · cases h

theorem move_cases (hworker : s.workers i = some worker) (h : s.move sha256Hex i worker a = some s') :
    RuntimeCase sha256Hex s a s' := by
  obtain ⟨workerId, phase, renewal⟩ := worker
  cases a with
  | database _ | effects _ | spawn _ _ => cases h
  | claim _ ms =>
    cases phase with
    | idle => exact send_cases hworker (.claim ms) h
    | _ => cases h
  | claimAnswered _ =>
    cases phase with
    | claiming tx =>
      obtain ⟨phase, hanswer, rfl⟩ := Option.map_eq_some_iff.mp h
      exact .turn hworker (claimAnswer_cases hanswer)
    | _ => cases h
  | execute _ effectId =>
    cases phase with
    | claimed step => exact begin_cases hworker rfl h
    | _ => cases h
  | effectAnswered _ =>
    cases phase with
    | applying step c =>
      obtain ⟨phase, hanswer, rfl⟩ := Option.map_eq_some_iff.mp h
      exact .turn hworker (effectAnswer_cases hanswer)
    | _ => cases h
  | renew _ ms =>
    simp only [Runtime.move] at h
    split at h
    · split at h
      · exact send_cases hworker (.renew _ ms) h
      · cases h
    · split at h
      · exact send_cases hworker (.renew _ ms) h
      · cases h
    · cases h
  | report _ text =>
    simp only [Runtime.move] at h
    split at h
    · split at h
      · exact send_cases hworker (.complete _ _) h
      · split at h
        · rename_i hcarries
          exact send_cases hworker (.fail _ _ text hcarries) h
        · cases h
      · cases h
    · cases h
  | reportAnswered _ =>
    simp only [Runtime.move] at h
    split at h
    · split at h
      · cases h
      · obtain rfl := Option.some.inj h
        exact .turn hworker (.away rfl)
    · cases h
  | crash _ =>
    obtain rfl := Option.some.inj h
    exact .turn hworker (.away rfl)

theorem runtime_cases (h : step sha256Hex s a = some s') : RuntimeCase sha256Hex s a s' := by
  have hworkers : (a.worker?.bind fun i => (s.workers i).bind fun worker =>
      s.move sha256Hex i worker a) = some s' → RuntimeCase sha256Hex s a s' := fun hmove => by
    obtain ⟨i, -, hmove⟩ := Option.bind_eq_some_iff.mp hmove
    obtain ⟨worker, hworker, hmove⟩ := Option.bind_eq_some_iff.mp hmove
    exact move_cases hworker hmove
  cases a with
  | database a =>
    simp only [step] at h
    split at h
    · rename_i hforeign
      obtain ⟨world, hstep, rfl⟩ := Option.map_eq_some_iff.mp h
      exact .database hforeign hstep
    · cases h
  | effects a =>
    simp only [step] at h
    split at h
    · rename_i hadmits
      obtain ⟨effects, hstep, rfl⟩ := Option.map_eq_some_iff.mp h
      exact .effects hadmits hstep
    · cases h
  | spawn i workerId =>
    simp only [step] at h
    split at h
    · cases h
    · obtain rfl := Option.some.inj h
      exact .spawn
  | claim _ _ | claimAnswered _ | execute _ _ | effectAnswered _ | renew _ _ | report _ _
  | reportAnswered _ | crash _ => exact hworkers h

end
end DurableRunner.Worker
