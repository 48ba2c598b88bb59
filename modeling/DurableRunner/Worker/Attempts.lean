import DurableRunner.Operations.WellFormed
import DurableRunner.Worker.Consistent

/-! # What the attempts at a step report

The executor of a step, run on the attempt number alone, decides what the
attempt reports: its own result or error, or what became of its effect.
-/
namespace DurableRunner.Worker
open Schema Operations Effects TransitionSystem
open Sessions (World TxId Commit Issued sameTask_of_transition)

/-- A property of phases and one of calls that workers hand on to each other, while the table of
effects grows. -/
structure PhaseRules (sha256Hex : String → String) (Inv : Runtime → Prop)
    (P : List EffectRow → WorkerPhase → Prop) (Q : List EffectRow → Call → Prop) : Prop where
  mono : ∀ rows rows', rows <+: rows' →
    (∀ phase, P rows phase → P rows' phase) ∧ ∀ call, Q rows call → Q rows' call
  idle : ∀ rows, P rows .idle
  foreign : ∀ rows call, isForeign (.start call) = true → Q rows call
  turn : ∀ s i worker phase', Inv s → s.workers i = some worker →
    P s.effects.rows worker.phase → Turns sha256Hex s worker.phase phase' → P s.effects.rows phase'
  send : ∀ rows workerId tx phase call phase', P rows phase →
    Sends workerId tx phase call phase' → Q rows call ∧ P rows phase'
  apply : ∀ rows step request c, executeStep sha256Hex (uuidText step.id) step.taskType step.payload
    step.attemptCount.val = .applies request → P rows (.claimed step) → P rows (.applying step c)

structure Obeyed (P : List EffectRow → WorkerPhase → Prop) (Q : List EffectRow → Call → Prop)
    (s : Runtime) : Prop where
  workers : ∀ i worker, s.workers i = some worker → P s.effects.rows worker.phase
  issued : ∀ call, Issued s.world call → Q s.effects.rows call

section Rules
variable {sha256Hex : String → String} {Inv : Runtime → Prop}
  {P : List EffectRow → WorkerPhase → Prop} {Q : List EffectRow → Call → Prop} {s s' : Runtime}
  {a : Action}

theorem Obeyed.setWorker (h : Obeyed P Q s) {i : ℕ} {worker : WorkerLoop}
    (hnew : P s.effects.rows worker.phase) : Obeyed P Q (s.setWorker i worker) := by
  refine ⟨fun j worker' hworker' => ?_, h.issued⟩
  by_cases hj : j = i
  · subst hj
    obtain rfl : worker = worker' := by simpa [Runtime.setWorker] using hworker'
    exact hnew
  · refine h.workers j worker' ?_
    simpa [Runtime.setWorker, Function.update_of_ne hj] using hworker'

theorem Obeyed.setWorld (h : Obeyed P Q s) {a : Sessions.Action} {world : World}
    (hstep : Sessions.step s.world a = some world)
    (hstart : ∀ call, a = .start call → Q s.effects.rows call) : Obeyed P Q { s with world } := by
  refine ⟨h.workers, fun call hissued => ?_⟩
  rcases hissued.of_step hstep with hnew | hold
  · exact hstart call hnew
  · exact h.issued call hold

theorem PhaseRules.setEffects (h : PhaseRules sha256Hex Inv P Q) (hs : Obeyed P Q s)
    {effects : EffectStore} (hgrows : s.effects.rows <+: effects.rows) :
    Obeyed P Q { s with effects } :=
  have ⟨hphases, hcalls⟩ := h.mono _ _ hgrows
  ⟨fun i worker hworker => hphases _ (hs.workers i worker hworker),
    fun call hissued => hcalls call (hs.issued call hissued)⟩

theorem PhaseRules.step (h : PhaseRules sha256Hex Inv P Q) (hinv : Inv s) (hs : Obeyed P Q s)
    (hstep : Worker.step sha256Hex s a = some s') : Obeyed P Q s' := by
  cases runtime_cases hstep with
  | database hforeign hmoved =>
    exact hs.setWorld hmoved fun call hstart => h.foreign _ call (hstart ▸ hforeign)
  | effects hadmits hmoved => exact h.setEffects hs (rows_prefix_of_step hmoved)
  | spawn => exact hs.setWorker (h.idle _)
  | turn hworker hturn =>
    exact hs.setWorker (h.turn s _ _ _ hinv hworker (hs.workers _ _ hworker) hturn)
  | send hworker hsends hmoved =>
    obtain ⟨hcall, hphase⟩ := h.send _ _ _ _ _ _ (hs.workers _ _ hworker) hsends
    exact (hs.setWorld hmoved fun call hstart => Sessions.Action.start.inj hstart ▸ hcall).setWorker
      hphase
  | @apply _ i worker renewal step request effectId effects hworker hphase hexecute hmoved =>
    have hgrown := h.setEffects hs (rows_prefix_of_step hmoved)
    have hclaimed := hgrown.workers _ _ hworker
    rw [hphase] at hclaimed
    exact hgrown.setWorker (h.apply _ step request s.effects.nextCall hexecute hclaimed)

/-- What the rules hand on, every reachable state has. -/
theorem PhaseRules.reaches (h : PhaseRules sha256Hex Inv P Q) {s₀ : Runtime} (h₀ : s₀.Initial)
    (hinv : ∀ s, Reaches (Worker.step sha256Hex) s₀ s → Inv s)
    (hreach : Reaches (Worker.step sha256Hex) s₀ s) : Obeyed P Q s := by
  refine hreach.rec_tail ⟨fun i worker hworker => ?_, fun call hissued => ?_⟩
    fun m a u hm hobeyed hstep => h.step (hinv m hm) hobeyed hstep
  · rw [h₀.noWorker] at hworker
    cases hworker
  · exact absurd hissued (Sessions.not_issued_of_initial h₀.world call)

end Rules

/-- How the executor begins attempt `k` at the step. -/
def attemptAt (sha256Hex : String → String) (r₀ : StepRow) (k : ℤ) : Execution :=
  executeStep sha256Hex (uuidText r₀.id) r₀.taskType r₀.payload k

/-- The executor resolves attempt `k` with its own result, or with that of the row that is
committed for its effect. -/
inductive ResolvesWith (sha256Hex : String → String) (rows : List EffectRow) (r₀ : StepRow) (k : ℤ) :
    Json → Prop
  | computed {result : Json} (hresolves : attemptAt sha256Hex r₀ k = .resolves result) :
      ResolvesWith sha256Hex rows r₀ k result
  | effect {request : EffectRequest} {row : EffectRow}
      (happlies : attemptAt sha256Hex r₀ k = .applies request) (hrow : row ∈ rows)
      (hkey : row.idempotencyKey = request.idempotencyKey)
      (htype : row.effectType = request.effectType) (hrequest : row.request = request.request.jsonb) :
      ResolvesWith sha256Hex rows r₀ k row.result

/-- The executor throws an error of its own on attempt `k`, or a statement of its effect fails. -/
inductive ThrowsError (sha256Hex : String → String) (r₀ : StepRow) (k : ℤ) : ExecutorError → Prop
  | thrown {error : ExecutorError} (hthrows : attemptAt sha256Hex r₀ k = .throws error) :
      ThrowsError sha256Hex r₀ k error
  | statement {request : EffectRequest} (happlies : attemptAt sha256Hex r₀ k = .applies request) :
      ThrowsError sha256Hex r₀ k (.effect .database)

section Effectless
variable {sha256Hex : String → String} {rows : List EffectRow} {r₀ : StepRow} {k : ℤ}

theorem ResolvesWith.mono {rows' : List EffectRow} {result : Json}
    (h : ResolvesWith sha256Hex rows r₀ k result) (hgrows : rows <+: rows') :
    ResolvesWith sha256Hex rows' r₀ k result := by
  cases h with
  | computed hresolves => exact .computed hresolves
  | effect happlies hrow hkey htype hrequest =>
    exact .effect happlies (hgrows.subset hrow) hkey htype hrequest

theorem attemptAt_ne_applies (heffect : parseTaskType r₀.taskType ≠ some .idempotentEffect)
    (request : EffectRequest) : attemptAt sha256Hex r₀ k ≠ .applies request :=
  fun happlies => heffect (executeStep_applies happlies).1

theorem resolvesWith_iff (heffect : parseTaskType r₀.taskType ≠ some .idempotentEffect)
    {result : Json} :
    ResolvesWith sha256Hex rows r₀ k result ↔ attemptAt sha256Hex r₀ k = .resolves result := by
  constructor
  · rintro (hresolves | happlies)
    · exact hresolves
    · exact absurd happlies (attemptAt_ne_applies heffect _)
  · exact .computed

theorem throwsError_iff (heffect : parseTaskType r₀.taskType ≠ some .idempotentEffect)
    {error : ExecutorError} :
    ThrowsError sha256Hex r₀ k error ↔ attemptAt sha256Hex r₀ k = .throws error := by
  constructor
  · rintro (hthrows | happlies)
    · exact hthrows
    · exact absurd happlies (attemptAt_ne_applies heffect _)
  · exact .thrown

/-- Unless it is the driver's, the text of an error is fixed. -/
theorem ThrowsError.message_of_carries {error : ExecutorError} {text : JsString}
    (h : ThrowsError sha256Hex r₀ k error) (hcarries : error.carries text = true) :
    error.message? = some text ∨ error = .effect .database := by
  cases h with
  | thrown hthrows => exact .inl (carries_of_throws hthrows hcarries)
  | statement => exact .inr rfl

end Effectless

/-- What a worker in a given phase knows of the step. -/
def PhaseOfStep (sha256Hex : String → String) (r₀ : StepRow) (rows : List EffectRow) :
    WorkerPhase → Prop
  | .claimed step => step.id = r₀.id → step.taskType = r₀.taskType ∧ step.payload = r₀.payload ∧
      step.attemptCount.val = step.leaseVersion.val
  | .applying step _ => step.id = r₀.id →
      ∃ request, attemptAt sha256Hex r₀ step.leaseVersion.val = .applies request
  | .resolved step result => step.id = r₀.id →
      ResolvesWith sha256Hex rows r₀ step.leaseVersion.val result
  | .threw step error => step.id = r₀.id → ThrowsError sha256Hex r₀ step.leaseVersion.val error
  | _ => True

inductive ReportOf (sha256Hex : String → String) (rows : List EffectRow) (r₀ : StepRow)
    (cred : Credential) : Call → Prop
  | completes {result : Json}
      (hresolve : ResolvesWith sha256Hex rows r₀ cred.leaseVersion.val result) :
      ReportOf sha256Hex rows r₀ cred (.completeStepSuccess cred result)
  | fails {error : ExecutorError} {text : JsString} (hcarries : error.carries text = true)
      (hthrow : ThrowsError sha256Hex r₀ cred.leaseVersion.val error) :
      ReportOf sha256Hex rows r₀ cred (.recordStepFailure cred text error.retryable)

/-- The call closes no attempt at the step, or it reports what the executor did. -/
def ReportsStep (sha256Hex : String → String) (r₀ : StepRow) (rows : List EffectRow) (call : Call) :
    Prop :=
  ∀ cred, call.credential? = some cred → cred.id = r₀.id →
    (∃ ms, call = .renewStepLease cred ms) ∨ ReportOf sha256Hex rows r₀ cred call

section Step
variable {sha256Hex : String → String} {r₀ : StepRow} {rows rows' : List EffectRow}

theorem PhaseOfStep.mono {phase : WorkerPhase} (h : PhaseOfStep sha256Hex r₀ rows phase)
    (hgrows : rows <+: rows') : PhaseOfStep sha256Hex r₀ rows' phase := by
  cases phase with
  | resolved step result => exact fun hid => (h hid).mono hgrows
  | _ => exact h

theorem ReportsStep.mono {call : Call} (h : ReportsStep sha256Hex r₀ rows call)
    (hgrows : rows <+: rows') : ReportsStep sha256Hex r₀ rows' call := by
  intro cred hcred hid
  refine (h cred hcred hid).imp_right fun hreport => ?_
  cases hreport with
  | completes hresolve => exact .completes (hresolve.mono hgrows)
  | fails hcarries hthrow => exact .fails hcarries hthrow

theorem numbered_of_fresh (h : r₀.Fresh) {steps₀ steps : StepsTable} {events₀ events : List EventRow}
    {history : List Commit} (hserial : Sessions.Serial steps₀ events₀ history steps events)
    (hr₀ : steps₀.find? r₀.id = some r₀) {c : Commit} {step : ClaimedStep} (hc : c ∈ history)
    (hclaimed : c.claimed? = some step) (hid : step.id = r₀.id) :
    step.attemptCount.val = step.leaseVersion.val := by
  obtain ⟨_, _, ch, rest, hcall, hchanges, rfl⟩ := Sessions.Commit.claimed?_eq_some.mp hclaimed
  have hch : ch ∈ c.decision.changes := by simp [hchanges]
  obtain ⟨-, hpast⟩ := hserial.preserved (P := fun r => r.id = r₀.id → WellFormed r)
    (fun id r hr hid => by
      rw [← id_of_find? hr, hid, hr₀] at hr
      obtain rfl := Option.some.inj hr
      exact .fresh h)
    (fun c hc ch hch hbefore hid => by
      have htransition := hserial.transition hc hch
      exact (hbefore ((sameTask_of_transition htransition).id.symm.trans hid)).transition htransition)
  exact ((hpast c hc ch hch).2 hid).generations.symm

theorem executeStep_eq_attemptAt {step : ClaimedStep} (hid : step.id = r₀.id)
    (htype : step.taskType = r₀.taskType) (hpayload : step.payload = r₀.payload)
    (hnumber : step.attemptCount.val = step.leaseVersion.val) :
    executeStep sha256Hex (uuidText step.id) step.taskType step.payload step.attemptCount.val =
      attemptAt sha256Hex r₀ step.leaseVersion.val := by
  rw [attemptAt, hid, htype, hpayload, hnumber]

/-- The answer to the effect of an attempt is the row of its request. -/
theorem Consistent.resolvesWith {world₀ : World} {s : Runtime} (h : Consistent world₀ s)
    {step : ClaimedStep} {c : CallId} {call : EffectCall} {outcome : EffectOutcome}
    {request : EffectRequest} (hphase : PhaseHolds world₀.steps s.effects (.applying step c))
    (hcall : s.effects.calls c = some call) (hstate : call.state = .returned outcome)
    (hid : step.id = r₀.id) (hr₀ : world₀.steps.find? r₀.id = some r₀)
    (happlies : attemptAt sha256Hex r₀ step.leaseVersion.val = .applies request) :
    ResolvesWith sha256Hex s.effects.rows r₀ step.leaseVersion.val outcome.result := by
  obtain ⟨hhanded, call', hcall', htask, hsent⟩ := hphase
  obtain rfl := Option.some.inj (hcall.symm.trans hcall')
  have hintended := intended_of_handed hhanded htask hsent
  obtain ⟨r, hr, -, hpayload⟩ := hhanded
  rw [hid, hr₀] at hr
  obtain rfl := Option.some.inj hr
  have hmine := (executeStep_applies happlies).2
  rw [hpayload, ← hid, hsent] at hmine
  obtain rfl := Except.ok.inj hmine
  have hexplained := h.sound.explained c call hcall
  simp only [Effects.Explained, hstate] at hexplained
  obtain ⟨row, hrow, hkey, hresult, -⟩ := hexplained
  have hmatches := h.agreed.rows row hrow call.request (hkey ▸ hintended)
  simp only [EffectRow.matchesRequest, Bool.and_eq_true, decide_eq_true_eq] at hmatches
  rw [← hresult]
  exact .effect happlies hrow hkey hmatches.1 hmatches.2

/-- The rules of the workers of a step. -/
theorem executionRules (h : r₀.Fresh) {world₀ : World} (h₀ : world₀.Initial)
    (hr₀ : world₀.steps.find? r₀.id = some r₀) :
    PhaseRules sha256Hex (Consistent world₀) (PhaseOfStep sha256Hex r₀) (ReportsStep sha256Hex r₀) where
  mono rows rows' hgrows := ⟨fun _ hphase => hphase.mono hgrows, fun _ hreports => hreports.mono hgrows⟩
  idle _ := trivial
  foreign rows call hforeign cred hcred := by
    cases call with
    | recoverExpiredSteps | promoteDueRetries | lockRows => cases hcred
    | claimNextStep | renewStepLease | completeStepSuccess | recordStepFailure => cases hforeign
  turn s i worker phase' hs hworker hphase hturn := by
    have hholds := hs.workers i worker hworker
    generalize worker.phase = phase at hphase hturn hholds
    cases hturn with
    | away haway =>
      cases phase' with
      | claimed _ | applying _ _ | resolved _ _ | threw _ _ => cases haway
      | idle | claiming _ | reporting _ _ | stopped => trivial
    | @claimed tx c step hc houtcome =>
      intro hid
      obtain ⟨r, hr, htype, hpayload⟩ := hs.handed h₀ hc houtcome
      rw [hid, hr₀] at hr
      obtain rfl := Option.some.inj hr
      have hclaimed : c.claimed? = some step := by simp [Sessions.Commit.claimed?, houtcome]
      exact ⟨htype.symm, hpayload.symm,
        numbered_of_fresh h (Sessions.serial_of_reaches h₀ hs.reaches) hr₀ hc hclaimed hid⟩
    | resolves hexecute =>
      intro hid
      obtain ⟨htype, hpayload, hnumber⟩ := hphase hid
      exact .computed ((executeStep_eq_attemptAt hid htype hpayload hnumber).symm.trans hexecute)
    | throws hexecute =>
      intro hid
      obtain ⟨htype, hpayload, hnumber⟩ := hphase hid
      exact .thrown ((executeStep_eq_attemptAt hid htype hpayload hnumber).symm.trans hexecute)
    | returned hcall hstate =>
      intro hid
      obtain ⟨request, happlies⟩ := hphase hid
      exact hs.resolvesWith hholds hcall hstate hid hr₀ happlies
    | @failed step c call error hcall hstate =>
      intro hid
      obtain ⟨request, happlies⟩ := hphase hid
      obtain ⟨hhanded, call', hcall', htask, hsent⟩ := hholds
      obtain rfl := Option.some.inj (hcall.symm.trans hcall')
      rw [hs.database_of_failed hcall hstate hhanded htask hsent]
      exact .statement happlies
  send rows workerId tx phase call phase' hphase hsends := by
    cases hsends with
    | claim ms =>
      refine ⟨fun cred hcred => ?_, trivial⟩
      cases hcred
    | renew cred ms =>
      refine ⟨fun cred' hcred _ => .inl ⟨ms, ?_⟩, hphase⟩
      rw [← Option.some.inj hcred]
    | complete step result =>
      refine ⟨fun cred hcred hid => .inr ?_, trivial⟩
      obtain rfl := Option.some.inj hcred
      exact .completes (hphase hid)
    | fail step error text hcarries =>
      refine ⟨fun cred hcred hid => .inr ?_, trivial⟩
      obtain rfl := Option.some.inj hcred
      exact .fails hcarries (hphase hid)
  apply rows step request c hexecute hphase := by
    intro hid
    obtain ⟨htype, hpayload, hnumber⟩ := hphase hid
    exact ⟨request, (executeStep_eq_attemptAt hid htype hpayload hnumber).symm.trans hexecute⟩

/-- Every call for the step that was ever sent reports what its executor did. -/
theorem reportsStep_of_issued (h : r₀.Fresh) {s₀ s : Runtime} (h₀ : s₀.Initial)
    (hr₀ : s₀.world.steps.find? r₀.id = some r₀) (hreach : Reaches (Worker.step sha256Hex) s₀ s)
    {call : Call} (hissued : Issued s.world call) :
    ReportsStep sha256Hex r₀ s.effects.rows call :=
  ((executionRules h h₀.world hr₀).reaches h₀ (fun _ => Consistent.of_reaches h₀) hreach).issued call
    hissued

end Step
end DurableRunner.Worker
