import DurableRunner.Worker.Consistent

/-! # Which tasks executors reject

The verdict on a task is the same in every execution of it. A rejected task is
never completed, has no effect, and every failure report says that it was
rejected.
-/
namespace DurableRunner.Worker
open Schema Operations Effects TransitionSystem
open Sessions (World TxId Issued)

/-- Some execution of a stored step with this task throws an `InvalidTaskError`. -/
def RejectsTask (sha256Hex : String → String) (taskType : String) (payload : Json) : Prop :=
  ∃ (id : StepId) (attemptCount : ℤ) (reason : InvalidTask), 1 ≤ attemptCount ∧
    executeStep sha256Hex (uuidText id) taskType payload attemptCount =
      .throws (.invalidTask reason)

def RejectedStep (sha256Hex : String → String) (steps : StepsTable) (id : StepId) : Prop :=
  ∃ r, steps.find? id = some r ∧ RejectsTask sha256Hex r.taskType r.payload

section
variable {sha256Hex : String → String} {taskType : String} {payload : Json}

theorem effectRequest_eq_error {id id' : StepId} {reason : InvalidTask}
    (h : effectRequest (uuidText id) payload = .error reason) :
    effectRequest (uuidText id') payload = .error reason := by
  unfold effectRequest at h ⊢
  cases hparse : parseIdempotentEffectPayload payload with
  | error reason' => simpa [hparse, bind, Except.bind] using h
  | ok parsed => simp [hparse, stepEffectKey_uuidText, bind, Except.bind, pure, Except.pure] at h

/-- What one execution rejects, every execution rejects. -/
theorem RejectsTask.throws (h : RejectsTask sha256Hex taskType payload) (id : StepId)
    {attemptCount : ℤ} (hattempt : 1 ≤ attemptCount) :
    ∃ reason, executeStep sha256Hex (uuidText id) taskType payload attemptCount =
      .throws (.invalidTask reason) := by
  obtain ⟨id', attemptCount', reason, hattempt', h⟩ := h
  unfold executeStep at h ⊢
  cases htask : parseTaskType taskType with
  | none => exact ⟨_, rfl⟩
  | some task =>
    rw [htask] at h
    dsimp only at h ⊢
    rw [if_neg (not_lt.mpr hattempt')] at h
    rw [if_neg (not_lt.mpr hattempt)]
    cases task with
    | hashAfterDelay => exact ⟨reason, h⟩
    | failThenHash =>
      unfold failThenHash at h ⊢
      cases hparse : parseFailThenHashPayload payload with
      | error reason' => exact ⟨reason', rfl⟩
      | ok parsed =>
        rw [hparse] at h
        dsimp only at h
        split at h <;> cases h
    | idempotentEffect =>
      unfold runIdempotentEffect at h ⊢
      cases hrequest : effectRequest (uuidText id') payload with
      | error reason' =>
        rw [effectRequest_eq_error hrequest]
        exact ⟨reason', rfl⟩
      | ok request =>
        rw [hrequest] at h
        cases h

theorem rejectedStep_iff {steps : StepsTable} {step : ClaimedStep} (h : Handed steps step) :
    RejectedStep sha256Hex steps step.id ↔ RejectsTask sha256Hex step.taskType step.payload := by
  obtain ⟨r, hr, htype, hpayload⟩ := h
  rw [← htype, ← hpayload]
  refine ⟨fun ⟨r', hr', hrejects⟩ => ?_, fun hrejects => ⟨r, hr, hrejects⟩⟩
  obtain rfl := Option.some.inj (hr.symm.trans hr')
  exact hrejects

theorem not_rejectsTask (id : StepId) {attemptCount : ℤ} (hattempt : 1 ≤ attemptCount)
    (h : ∀ reason, executeStep sha256Hex (uuidText id) taskType payload attemptCount ≠
      .throws (.invalidTask reason)) : ¬RejectsTask sha256Hex taskType payload := fun hrejects =>
  let ⟨reason, hthrows⟩ := hrejects.throws id hattempt
  h reason hthrows

/-- An executor's error tells whether its task is rejected. -/
theorem retryable_iff_of_throws {id : StepId} {attemptCount : ℤ} {error : ExecutorError}
    (hattempt : 1 ≤ attemptCount)
    (h : executeStep sha256Hex (uuidText id) taskType payload attemptCount = .throws error) :
    error.retryable = false ↔ RejectsTask sha256Hex taskType payload := by
  constructor
  · intro hretryable
    cases error with
    | invalidTask reason => exact ⟨id, attemptCount, reason, hattempt, h⟩
    | deterministicFailure | effect => cases hretryable
  · intro hrejects
    obtain ⟨reason, hthrows⟩ := hrejects.throws id hattempt
    obtain rfl := Execution.throws.inj (h.symm.trans hthrows)
    rfl

end

structure EveryKey (P : String → Prop) (s : EffectStore) : Prop where
  calls : ∀ c call, s.calls c = some call → P call.request.idempotencyKey
  rows : ∀ row ∈ s.rows, P row.idempotencyKey

theorem EveryKey.step {P : String → Prop} {s s' : EffectStore} {a : StoreAction}
    (h : EveryKey P s) (hsound : Sound s) (hstep : s.step a = some s')
    (happly : ∀ request effectId, a = .apply request effectId → P request.idempotencyKey) :
    EveryKey P s' := by
  have hmoved : ∀ {c call state}, s.calls c = some call → EveryKey P (s.setState c call state) := by
    intro c call state hcall
    refine ⟨fun other call' hcall' => ?_, h.rows⟩
    rcases calls_setState hcall' with ⟨rfl, rfl⟩ | ⟨-, hold⟩
    · exact h.calls other call hcall
    · exact h.calls other call' hold
  cases store_cases hstep with
  | @apply request effectId state hstate =>
    refine ⟨fun c call hcall => ?_, h.rows⟩
    rcases calls_addCall hcall with ⟨rfl, rfl⟩ | ⟨-, hold⟩
    · exact happly request effectId rfl
    · exact h.calls c call hold
  | @commit c call row hcall hstate =>
    refine ⟨(hmoved hcall).calls, fun row' hrow' => ?_⟩
    rcases List.mem_append.mp hrow' with hold | hnew
    · exact h.rows row' hold
    · obtain rfl := List.mem_singleton.mp hnew
      obtain ⟨now, rfl⟩ := hsound.minted c call row' hcall hstate
      exact h.calls c call hcall
  | unstorable hcall | conflict hcall | insert hcall | respond hcall | readNothing hcall
  | readSame hcall | readOther hcall | lose hcall => exact hmoved hcall

/-- What the verdict means for a worker in a given phase. -/
def PhaseJudged (sha256Hex : String → String) (steps : StepsTable) : WorkerPhase → Prop
  | .claimed step => 1 ≤ step.attemptCount.val
  | .applying step _ | .resolved step _ => ¬RejectsTask sha256Hex step.taskType step.payload
  | .threw step error => Handed steps step ∧
      (error.retryable = false ↔ RejectsTask sha256Hex step.taskType step.payload)
  | _ => True

def AcceptedKey (sha256Hex : String → String) (steps : StepsTable) (key : String) : Prop :=
  ∀ id, stepEffectKey (uuidText id) = .ok key → ¬RejectedStep sha256Hex steps id

/-- What rejected tasks never lead to. -/
structure Verdicts (sha256Hex : String → String) (world₀ : World) (s : Runtime) : Prop where
  consistent : Consistent world₀ s
  workers : ∀ i worker, s.workers i = some worker →
    PhaseJudged sha256Hex world₀.steps worker.phase
  completions : ∀ cred result, Issued s.world (.completeStepSuccess cred result) →
    ¬RejectedStep sha256Hex world₀.steps cred.id
  reports : ∀ cred text retryable, Issued s.world (.recordStepFailure cred text retryable) →
    (retryable = false ↔ RejectedStep sha256Hex world₀.steps cred.id)
  keys : EveryKey (AcceptedKey sha256Hex world₀.steps) s.effects

namespace Verdicts
variable {sha256Hex : String → String} {world₀ : World} {s s' : Runtime}

theorem of_initial (h : s.Initial) : Verdicts sha256Hex s.world s where
  consistent := .of_initial h
  workers i worker hworker := by
    rw [h.noWorker] at hworker
    cases hworker
  completions cred result hissued := absurd hissued (Sessions.not_issued_of_initial h.world _)
  reports cred text retryable hissued := absurd hissued (Sessions.not_issued_of_initial h.world _)
  keys := by
    refine ⟨fun c call hcall => ?_, fun row hrow id hkey => ?_⟩
    · rw [h.effects.noCalls] at hcall
      cases hcall
    · have hforeign := h.noKey row hrow
      rw [isStepEffectKey_of_step hkey] at hforeign
      cases hforeign

theorem attemptCount_pos (h : Verdicts sha256Hex world₀ s) (h₀ : world₀.Initial)
    {c : Sessions.Commit} {step : ClaimedStep} (hc : c ∈ s.world.history)
    (houtcome : c.outcome = .claimed step) : 1 ≤ step.attemptCount.val := by
  have hclaimed : c.claimed? = some step := by simp [Sessions.Commit.claimed?, houtcome]
  obtain ⟨_, _, ch, rest, hcall, hchanges, rfl⟩ := Sessions.Commit.claimed?_eq_some.mp hclaimed
  have hch : ch ∈ c.decision.changes := by simp [hchanges]
  have htransition := (Sessions.serial_of_reaches h₀ h.consistent.reaches).transition hc hch
  rw [hcall] at htransition
  cases htransition with
  | claim _ _ _ _ hattempt _ =>
    have hcount := ch.before.steps_attempt_count_nonnegative
    show 1 ≤ ch.after.attemptCount.val
    omega

theorem turn (h : Verdicts sha256Hex world₀ s) (h₀ : world₀.Initial) {phase phase' : WorkerPhase}
    (hholds : PhaseHolds world₀.steps s.effects phase)
    (hjudged : PhaseJudged sha256Hex world₀.steps phase) (hturn : Turns sha256Hex s phase phase') :
    PhaseJudged sha256Hex world₀.steps phase' := by
  cases hturn with
  | away haway =>
    cases phase' with
    | claimed _ | applying _ _ | resolved _ _ | threw _ _ => cases haway
    | idle | claiming _ | reporting _ _ | stopped => trivial
  | claimed hc houtcome => exact h.attemptCount_pos h₀ hc houtcome
  | @resolves step result hexecute =>
    exact not_rejectsTask step.id hjudged fun reason => by simp [hexecute]
  | throws hexecute => exact ⟨hholds, retryable_iff_of_throws hjudged hexecute⟩
  | returned hcall hstate => exact hjudged
  | failed hcall hstate => exact ⟨hholds.1, iff_of_false (by simp [ExecutorError.retryable]) hjudged⟩

theorem workers_setWorker {i : ℕ} {worker : WorkerLoop}
    (hold : ∀ j worker', s.workers j = some worker' →
      PhaseJudged sha256Hex world₀.steps worker'.phase)
    (hnew : PhaseJudged sha256Hex world₀.steps worker.phase) :
    ∀ j worker', (s.setWorker i worker).workers j = some worker' →
      PhaseJudged sha256Hex world₀.steps worker'.phase := by
  intro j worker' hworker'
  by_cases hj : j = i
  · subst hj
    obtain rfl : worker = worker' := by simpa [Runtime.setWorker] using hworker'
    exact hnew
  · refine hold j worker' ?_
    simpa [Runtime.setWorker, Function.update_of_ne hj] using hworker'

theorem judged_of_sends {workerId : WorkerId} {tx : TxId} {phase phase' : WorkerPhase} {call : Call}
    (hsends : Sends workerId tx phase call phase')
    (hholds : PhaseHolds world₀.steps s.effects phase)
    (hjudged : PhaseJudged sha256Hex world₀.steps phase) :
    (∀ cred result, call = .completeStepSuccess cred result →
        ¬RejectedStep sha256Hex world₀.steps cred.id) ∧
      (∀ cred text retryable, call = .recordStepFailure cred text retryable →
        (retryable = false ↔ RejectedStep sha256Hex world₀.steps cred.id)) ∧
      PhaseJudged sha256Hex world₀.steps phase' := by
  cases hsends with
  | claim ms => exact ⟨fun _ _ hcall => (nomatch hcall), fun _ _ _ hcall => (nomatch hcall), trivial⟩
  | renew cred ms =>
    exact ⟨fun _ _ hcall => (nomatch hcall), fun _ _ _ hcall => (nomatch hcall), hjudged⟩
  | complete step result =>
    refine ⟨fun cred result' hcall => ?_, fun _ _ _ hcall => (nomatch hcall), trivial⟩
    obtain ⟨rfl, -⟩ := Call.completeStepSuccess.inj hcall
    rwa [rejectedStep_iff hholds.1]
  | fail step error text =>
    refine ⟨fun _ _ hcall => (nomatch hcall), fun cred text' retryable hcall => ?_, trivial⟩
    obtain ⟨rfl, -, rfl⟩ := Call.recordStepFailure.inj hcall
    rw [rejectedStep_iff hjudged.1]
    exact hjudged.2

theorem step {a : Action} (h : Verdicts sha256Hex world₀ s) (h₀ : world₀.Initial)
    (hstep : Worker.step sha256Hex s a = some s') : Verdicts sha256Hex world₀ s' := by
  have hconsistent := h.consistent.step h₀ hstep
  cases runtime_cases hstep with
  | @database a world hforeign hmoved =>
    refine ⟨hconsistent, h.workers, fun cred result hissued => ?_,
      fun cred text retryable hissued => ?_, h.keys⟩
    · refine h.completions cred result ((hissued.of_step hmoved).resolve_left fun hstart => ?_)
      rw [hstart] at hforeign
      cases hforeign
    · refine h.reports cred text retryable ((hissued.of_step hmoved).resolve_left fun hstart => ?_)
      rw [hstart] at hforeign
      cases hforeign
  | effects hadmits hmoved =>
    refine ⟨hconsistent, h.workers, h.completions, h.reports,
      h.keys.step h.consistent.sound hmoved fun request effectId happly id hkey => ?_⟩
    rw [happly] at hadmits
    simp [Runtime.admits, isStepEffectKey_of_step hkey] at hadmits
  | spawn =>
    exact ⟨hconsistent, workers_setWorker h.workers trivial, h.completions, h.reports, h.keys⟩
  | turn hworker hturn =>
    exact ⟨hconsistent, workers_setWorker h.workers (h.turn h₀
      (h.consistent.workers _ _ hworker) (h.workers _ _ hworker) hturn), h.completions, h.reports,
      h.keys⟩
  | send hworker hsends hmoved =>
    obtain ⟨hcompletion, hreport, hphase⟩ :=
      judged_of_sends hsends (h.consistent.workers _ _ hworker) (h.workers _ _ hworker)
    refine ⟨hconsistent, workers_setWorker h.workers hphase, fun cred result hissued => ?_,
      fun cred text retryable hissued => ?_, h.keys⟩
    · rcases hissued.of_step hmoved with hstart | hold
      · exact hcompletion cred result (Sessions.Action.start.inj hstart)
      · exact h.completions cred result hold
    · rcases hissued.of_step hmoved with hstart | hold
      · exact hreport cred text retryable (Sessions.Action.start.inj hstart)
      · exact h.reports cred text retryable hold
  | @apply _ i worker renewal step request effectId effects hworker hphase hexecute hmoved =>
    have hhanded := h.consistent.workers _ _ hworker
    have hattempt := h.workers _ _ hworker
    rw [hphase] at hhanded hattempt
    have haccepted : ¬RejectsTask sha256Hex step.taskType step.payload :=
      not_rejectsTask step.id hattempt fun reason => by simp [hexecute]
    refine ⟨hconsistent, workers_setWorker h.workers haccepted, h.completions, h.reports,
      h.keys.step h.consistent.sound hmoved fun request' effectId' happly id hkey => ?_⟩
    obtain ⟨rfl, -⟩ := StoreAction.apply.inj happly
    obtain ⟨-, hrequest⟩ := executeStep_applies hexecute
    obtain rfl := stepEffectKey_injective hkey (effectRequest_eq_ok hrequest)
    rwa [rejectedStep_iff hhanded]

theorem of_reaches {s₀ : Runtime} (h₀ : s₀.Initial) (h : Reaches (Worker.step sha256Hex) s₀ s) :
    Verdicts sha256Hex s₀.world s :=
  h.invariant (fun _ _ _ hs => hs.step h₀.world) (of_initial h₀)

end Verdicts
end DurableRunner.Worker
