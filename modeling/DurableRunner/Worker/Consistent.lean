import DurableRunner.Worker.RuntimeCases
import DurableRunner.Effects.Agreement
import DurableRunner.Sessions.Origins
import DurableRunner.Sessions.Claims

/-! # What holds between the two stores and the workers

Every executor works on a task as it was inserted, so all calls under one key
carry one request, and every result on its way to a step is its effect's.
-/
namespace DurableRunner.Worker
open Schema Operations Effects TransitionSystem
open Sessions (World TxId Issued)

def IsEffectStep (steps : StepsTable) (id : StepId) : Prop :=
  ∃ r, steps.find? id = some r ∧ parseTaskType r.taskType = some .idempotentEffect

/-- The request that the executor of an effect step sends under a key. -/
def intended (steps : StepsTable) (key : String) : Option EffectRequest :=
  (steps.rows.find? fun r => parseTaskType r.taskType = some .idempotentEffect ∧
    stepEffectKey (uuidText r.id) = .ok key).bind fun r =>
      (effectRequest (uuidText r.id) r.payload).toOption

/-- The claim handed out the task of its row. -/
def Handed (steps : StepsTable) (step : ClaimedStep) : Prop :=
  ∃ r, steps.find? step.id = some r ∧ r.taskType = step.taskType ∧ r.payload = step.payload

/-- If the step is an effect step, its row is committed with this result. -/
def Backed (steps : StepsTable) (rows : List EffectRow) (id : StepId) (result : Json) : Prop :=
  IsEffectStep steps id →
    ∃ row ∈ rows, stepEffectKey (uuidText id) = .ok row.idempotencyKey ∧ row.result = result

/-- What a worker in a given phase may rely on. -/
def PhaseHolds (steps : StepsTable) (effects : EffectStore) : WorkerPhase → Prop
  | .claimed step => Handed steps step
  | .applying step c => Handed steps step ∧
      ∃ call, effects.calls c = some call ∧ parseTaskType step.taskType = some .idempotentEffect ∧
        effectRequest (uuidText step.id) step.payload = .ok call.request
  | .resolved step result => Handed steps step ∧ Backed steps effects.rows step.id result
  | .threw _ error => ∀ e, error = .effect e → e = .database
  | _ => True

/-- The invariant of the whole system. -/
structure Consistent (world₀ : World) (s : Runtime) : Prop where
  reaches : Reaches Sessions.step world₀ s.world
  sound : Sound s.effects
  agreed : Agreed (intended world₀.steps) s.effects
  workers : ∀ i worker, s.workers i = some worker →
    PhaseHolds world₀.steps s.effects worker.phase
  issued : ∀ cred result, Issued s.world (.completeStepSuccess cred result) →
    Backed world₀.steps s.effects.rows cred.id result

theorem toOption_eq_some {ε α : Type} {e : Except ε α} {a : α} :
    e.toOption = some a ↔ e = .ok a := by
  cases e <;> simp [Except.toOption]

section Intended
variable {steps : StepsTable} {key : String} {request : EffectRequest}

theorem intended_eq_some (h : intended steps key = some request) :
    ∃ r, steps.find? r.id = some r ∧ stepEffectKey (uuidText r.id) = .ok key ∧
      effectRequest (uuidText r.id) r.payload = .ok request := by
  obtain ⟨r, hfind, hrequest⟩ := Option.bind_eq_some_iff.mp h
  have hmatches := List.find?_some hfind
  simp only [decide_eq_true_eq] at hmatches
  exact ⟨r, Relational.Table.mem_iff_find?.mp (List.mem_of_find?_eq_some hfind), hmatches.2,
    toOption_eq_some.mp hrequest⟩

theorem intended_of_foreign (h : isStepEffectKey key = false) : intended steps key = none := by
  cases hintended : intended steps key with
  | none => rfl
  | some request =>
    obtain ⟨r, -, hkey, -⟩ := intended_eq_some hintended
    rw [isStepEffectKey_of_step hkey] at h
    cases h

/-- A claimed effect step sends the request intended for its key. -/
theorem intended_of_handed {step : ClaimedStep} (hhanded : Handed steps step)
    (htask : parseTaskType step.taskType = some .idempotentEffect)
    (hrequest : effectRequest (uuidText step.id) step.payload = .ok request) :
    intended steps request.idempotencyKey = some request := by
  obtain ⟨r, hr, htype, hpayload⟩ := hhanded
  have hid : r.id = step.id := id_of_find? hr
  have hkey := effectRequest_eq_ok hrequest
  rw [← hid] at hkey
  have hfound : steps.rows.find? (fun r => parseTaskType r.taskType = some .idempotentEffect ∧
      stepEffectKey (uuidText r.id) = .ok request.idempotencyKey) = some r := by
    obtain ⟨r', hr'⟩ : ∃ r', steps.rows.find? (fun r =>
        parseTaskType r.taskType = some .idempotentEffect ∧
          stepEffectKey (uuidText r.id) = .ok request.idempotencyKey) = some r' := by
      rw [← Option.isSome_iff_exists, List.find?_isSome]
      exact ⟨r, Relational.Table.mem_of_find? hr, by simp [htype, htask, hkey]⟩
    have hmatches := List.find?_some hr'
    simp only [decide_eq_true_eq] at hmatches
    have hsame : r'.id = r.id := stepEffectKey_injective hmatches.2 hkey
    have hfind := Relational.Table.mem_iff_find?.mp (List.mem_of_find?_eq_some hr')
    rw [StepRow.key, hsame, hid, hr] at hfind
    rw [hr', Option.some.inj hfind]
  rw [intended, hfound, Option.bind_some, toOption_eq_some, hid, hpayload]
  exact hrequest

end Intended

section Growth
variable {steps : StepsTable} {effects effects' : EffectStore} {a : StoreAction}

theorem Backed.mono {rows rows' : List EffectRow} {id : StepId} {result : Json}
    (h : Backed steps rows id result) (hsub : rows <+: rows') : Backed steps rows' id result :=
  fun hstep => (h hstep).imp fun _ hrow => ⟨hsub.subset hrow.1, hrow.2⟩

theorem request_of_step (hsound : Sound effects) (hstep : effects.step a = some effects')
    {c : CallId} {call : EffectCall} (hcall : effects.calls c = some call) :
    ∃ call', effects'.calls c = some call' ∧ call'.request = call.request := by
  have hmoved : ∀ {c' call' state}, effects.calls c' = some call' →
      ∃ call'', (effects.setState c' call' state).calls c = some call'' ∧
        call''.request = call.request := by
    intro c' call' state hcall'
    by_cases hsame : c = c'
    · subst hsame
      obtain rfl := Option.some.inj (hcall.symm.trans hcall')
      exact ⟨_, setState_calls_self _ _ _ _, rfl⟩
    · exact ⟨call, (setState_calls_of_ne _ _ _ _ hsame).trans hcall, rfl⟩
  cases store_cases hstep with
  | apply hstate =>
    have hold : c ≠ effects.nextCall := fun e => by
      rw [hsound.fresh c e.ge] at hcall
      cases hcall
    exact ⟨call, (addCall_calls_of_ne hold).trans hcall, rfl⟩
  | unstorable hcall' | conflict hcall' | insert hcall' | commit hcall' | respond hcall'
  | readNothing hcall' | readSame hcall' | readOther hcall' | lose hcall' => exact hmoved hcall'

/-- What a worker relies on survives every move of the store. -/
theorem PhaseHolds.of_step {phase : WorkerPhase} (h : PhaseHolds steps effects phase)
    (hsound : Sound effects) (hstep : effects.step a = some effects') :
    PhaseHolds steps effects' phase := by
  cases phase with
  | applying step c =>
    obtain ⟨hhanded, call, hcall, htask, hrequest⟩ := h
    obtain ⟨call', hcall', hsame⟩ := request_of_step hsound hstep hcall
    exact ⟨hhanded, call', hcall', htask, hsame ▸ hrequest⟩
  | resolved step result => exact ⟨h.1, h.2.mono (rows_prefix_of_step hstep)⟩
  | _ => exact h

end Growth

namespace Consistent
variable {sha256Hex : String → String} {world₀ : World} {s s' : Runtime} {a : Action}

theorem handed (h : Consistent world₀ s) (h₀ : world₀.Initial) {c : Sessions.Commit}
    {step : ClaimedStep} (hc : c ∈ s.world.history) (houtcome : c.outcome = .claimed step) :
    Handed world₀.steps step := by
  have hclaimed : c.claimed? = some step := by simp [Sessions.Commit.claimed?, houtcome]
  obtain ⟨_, _, ch, rest, -, hchanges, rfl⟩ := Sessions.Commit.claimed?_eq_some.mp hclaimed
  have hch : ch ∈ c.decision.changes := by simp [hchanges]
  obtain ⟨r, hr, hsame⟩ := (Sessions.serial_of_reaches h₀ h.reaches).sameTask.2 c hc ch hch
  have hid : ch.before.id = (claimedStep ch.after).id := (id_of_find? hr).symm.trans hsame.id.symm
  rw [hid] at hr
  exact ⟨r, hr, hsame.taskType.symm, hsame.payload.symm⟩

/-- The answer to an effect is backed by its row. -/
theorem backed (h : Consistent world₀ s) {c : CallId} {call : EffectCall} {outcome : EffectOutcome}
    {step : ClaimedStep} (hcall : s.effects.calls c = some call)
    (hstate : call.state = .returned outcome)
    (hrequest : effectRequest (uuidText step.id) step.payload = .ok call.request) :
    Backed world₀.steps s.effects.rows step.id outcome.result := by
  have hexplained := h.sound.explained c call hcall
  simp only [Effects.Explained, hstate] at hexplained
  obtain ⟨row, hrow, hkey, hresult, -⟩ := hexplained
  exact fun _ => ⟨row, hrow, hkey ▸ effectRequest_eq_ok hrequest, hresult⟩

/-- The effect of a claimed step fails only with a statement. -/
theorem database_of_failed (h : Consistent world₀ s) {c : CallId} {call : EffectCall}
    {error : EffectError} {step : ClaimedStep} (hcall : s.effects.calls c = some call)
    (hstate : call.state = .failed error) (hhanded : Handed world₀.steps step)
    (htask : parseTaskType step.taskType = some .idempotentEffect)
    (hrequest : effectRequest (uuidText step.id) step.payload = .ok call.request) :
    error = .database := by
  have hexplained := h.sound.explained c call hcall
  simp only [Effects.Explained, hstate] at hexplained
  rcases hexplained with hrefused | hlost | ⟨key, rfl⟩
  · rw [checkRequest_of_step hrequest] at hrefused
    cases hrefused
  · exact hlost
  · have hnone := h.agreed.noConflict c call key hcall hstate
    rw [intended_of_handed hhanded htask hrequest] at hnone
    cases hnone

theorem turn (h : Consistent world₀ s) (h₀ : world₀.Initial) {phase phase' : WorkerPhase}
    (hphase : PhaseHolds world₀.steps s.effects phase) (hturn : Turns sha256Hex s phase phase') :
    PhaseHolds world₀.steps s.effects phase' := by
  cases hturn with
  | away haway =>
    cases phase' with
    | claimed _ | applying _ _ | resolved _ _ | threw _ _ => cases haway
    | idle | claiming _ | reporting _ _ | stopped => trivial
  | claimed hc houtcome => exact h.handed h₀ hc houtcome
  | @resolves step result hexecute =>
    refine ⟨hphase, fun ⟨r, hr, htask⟩ => ?_⟩
    obtain ⟨r', hr', htype, -⟩ := hphase
    obtain rfl := Option.some.inj (hr.symm.trans hr')
    exact absurd hexecute (executeStep_effect_not_resolves (htype ▸ htask))
  | throws hexecute =>
    rintro e rfl
    rcases executeStep_throws hexecute with ⟨reason, herror⟩ | herror <;> cases herror
  | @returned step c call outcome hcall hstate =>
    obtain ⟨hhanded, call', hcall', htask, hrequest⟩ := hphase
    obtain rfl := Option.some.inj (hcall.symm.trans hcall')
    exact ⟨hhanded, h.backed hcall hstate hrequest⟩
  | @failed step c call error hcall hstate =>
    obtain ⟨hhanded, call', hcall', htask, hrequest⟩ := hphase
    obtain rfl := Option.some.inj (hcall.symm.trans hcall')
    intro e herror
    rw [← ExecutorError.effect.inj herror]
    exact h.database_of_failed hcall hstate hhanded htask hrequest

theorem setWorker (h : Consistent world₀ s) {i : ℕ} {worker : WorkerLoop}
    (hphase : PhaseHolds world₀.steps s.effects worker.phase) :
    Consistent world₀ (s.setWorker i worker) where
  reaches := h.reaches
  sound := h.sound
  agreed := h.agreed
  issued := h.issued
  workers j worker' hworker' := by
    by_cases hj : j = i
    · subst hj
      obtain rfl : worker = worker' := by simpa [Runtime.setWorker] using hworker'
      exact hphase
    · refine h.workers j worker' ?_
      simpa [Runtime.setWorker, Function.update_of_ne hj] using hworker'

theorem setWorld (h : Consistent world₀ s) {a : Sessions.Action} {world : World}
    (hstep : Sessions.step s.world a = some world)
    (hbacked : ∀ cred result, a = .start (.completeStepSuccess cred result) →
      Backed world₀.steps s.effects.rows cred.id result) :
    Consistent world₀ { s with world } where
  reaches := h.reaches.tail hstep
  sound := h.sound
  agreed := h.agreed
  workers := h.workers
  issued cred result hissued := by
    rcases hissued.of_step hstep with hstart | hold
    · exact hbacked cred result hstart
    · exact h.issued cred result hold

theorem setEffects (h : Consistent world₀ s) {a : StoreAction} {effects : EffectStore}
    (hstep : s.effects.step a = some effects)
    (hintended : ∀ request effectId, a = .apply request effectId →
      ∀ r, intended world₀.steps request.idempotencyKey = some r → request = r) :
    Consistent world₀ { s with effects } where
  reaches := h.reaches
  sound := h.sound.step hstep
  agreed := h.agreed.step h.sound hstep hintended
  workers i worker hworker := (h.workers i worker hworker).of_step h.sound hstep
  issued cred result hissued := (h.issued cred result hissued).mono (rows_prefix_of_step hstep)

/-- Only a worker with a result sends a completion, and it sends that result. -/
theorem backed_of_sends {workerId : WorkerId} {tx : TxId} {phase phase' : WorkerPhase} {call : Call}
    (hsends : Sends workerId tx phase call phase')
    (hphase : PhaseHolds world₀.steps s.effects phase) :
    (∀ cred result, call = .completeStepSuccess cred result →
      Backed world₀.steps s.effects.rows cred.id result) ∧
      PhaseHolds world₀.steps s.effects phase' := by
  cases hsends with
  | claim ms => exact ⟨fun cred result hcall => (nomatch hcall), trivial⟩
  | renew cred ms => exact ⟨fun cred result hcall => (nomatch hcall), hphase⟩
  | complete step result =>
    refine ⟨fun cred result' hcall => ?_, trivial⟩
    obtain ⟨rfl, rfl⟩ := Call.completeStepSuccess.inj hcall
    exact hphase.2
  | fail step error text => exact ⟨fun cred result hcall => (nomatch hcall), trivial⟩

theorem step (h : Consistent world₀ s) (h₀ : world₀.Initial)
    (hstep : Worker.step sha256Hex s a = some s') : Consistent world₀ s' := by
  cases runtime_cases hstep with
  | @database a world hforeign hmoved =>
    refine h.setWorld hmoved fun cred result hstart => ?_
    rw [hstart] at hforeign
    cases hforeign
  | @effects a effects hadmits hmoved =>
    refine h.setEffects hmoved fun request effectId happly r hr => ?_
    rw [happly] at hadmits
    rw [intended_of_foreign (by simpa [Runtime.admits] using hadmits)] at hr
    cases hr
  | spawn => exact h.setWorker trivial
  | turn hworker hturn => exact h.setWorker (h.turn h₀ (h.workers _ _ hworker) hturn)
  | send hworker hsends hmoved =>
    obtain ⟨hbacked, hphase⟩ := backed_of_sends hsends (h.workers _ _ hworker)
    exact (h.setWorld hmoved fun cred result hstart =>
      hbacked cred result (Sessions.Action.start.inj hstart)).setWorker hphase
  | @apply _ i worker renewal step request effectId effects hworker hphase hexecute hmoved =>
    have hhanded : Handed world₀.steps step := by
      have hold := h.workers _ _ hworker
      rwa [hphase] at hold
    obtain ⟨htask, hrequest⟩ := executeStep_applies hexecute
    have hmine := intended_of_handed hhanded htask hrequest
    refine (h.setEffects hmoved fun request' effectId' happly r hr => ?_).setWorker ?_
    · obtain ⟨rfl, -⟩ := StoreAction.apply.inj happly
      exact Option.some.inj (hmine.symm.trans hr)
    · cases store_cases hmoved with
      | apply hstate => exact ⟨hhanded, _, addCall_calls_self, htask, hrequest⟩

theorem of_initial (h : s.Initial) : Consistent s.world s where
  reaches := .refl _
  sound := .of_initial h.effects
  agreed := by
    refine ⟨fun c call r hcall => ?_, fun row hrow r hr => ?_, fun c call key hcall => ?_⟩
    · rw [h.effects.noCalls] at hcall
      cases hcall
    · rw [intended_of_foreign (h.noKey row hrow)] at hr
      cases hr
    · rw [h.effects.noCalls] at hcall
      cases hcall
  workers i worker hworker := by
    rw [h.noWorker] at hworker
    cases hworker
  issued cred result hissued := absurd hissued (Sessions.not_issued_of_initial h.world _)

theorem of_reaches {s₀ : Runtime} (h₀ : s₀.Initial) (h : Reaches (Worker.step sha256Hex) s₀ s) :
    Consistent s₀.world s :=
  h.invariant (fun _ _ _ hs => hs.step h₀.world) (of_initial h₀)

end Consistent
end DurableRunner.Worker
