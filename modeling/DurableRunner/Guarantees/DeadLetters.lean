import DurableRunner.Guarantees.OneEffect
import DurableRunner.Worker.Verdicts

/-! # Why a step is dead-lettered

A step ends as a dead letter when its budget is used up or its task is one that
no executor accepts, and its last event tells which.
-/
namespace DurableRunner.Guarantees
open Schema Operations Effects Worker TransitionSystem
open Sessions (World TxId Commit IssuedAs Issued)

/-- The three ways in which a call dead-letters a row, each with its reason. -/
inductive DeadLetters (r : StepRow) : Call → DeadLetterReason → Prop
  | rejected {cred : Credential} {text : JsString} (hid : cred.id = r.id) :
      DeadLetters r (.recordStepFailure cred text false) .nonRetryableFailure
  | exhausted {cred : Credential} {text : JsString} (hid : cred.id = r.id)
      (hbudget : r.maxAttempts.val ≤ r.attemptCount.val) :
      DeadLetters r (.recordStepFailure cred text true) .attemptBudgetExhausted
  | expired (hbudget : r.maxAttempts.val ≤ r.attemptCount.val) :
      DeadLetters r .recoverExpiredSteps .leaseExpiredAttemptBudgetExhausted

section
variable {call : Call} {start instant checkedAt : Timestamp} {r r' : StepRow}

/-- A transition to DEAD_LETTERED has one of the three reasons and tells it in its event. -/
theorem deadLetters_of_transition (h : Transition start instant checkedAt r r' call)
    (hdead : r'.status = .deadLettered) :
    ∃ reason, DeadLetters r call reason ∧ r.status = .running ∧
      r'.attemptCount = r.attemptCount ∧ r'.maxAttempts = r.maxAttempts ∧
      ∀ e, call.event r r' = some e → e.data.reason = some reason := by
  cases h with
  | claim _ _ _ _ _ hcols =>
    rw [hcols] at hdead
    cases hdead
  | renew hlive hcols =>
    rw [hcols, (holdsLiveLease_iff.mp hlive).2.1] at hdead
    cases hdead
  | complete _ hcols =>
    rw [hcols] at hdead
    cases hdead
  | promote _ _ hcols =>
    rw [hcols] at hdead
    cases hdead
  | @fail cred text retryable hlive hcols =>
    obtain ⟨hid, hrunning, -⟩ := holdsLiveLease_iff.mp hlive
    have hretry : mayRetry retryable r = false := by
      rw [hcols] at hdead
      dsimp only at hdead
      split at hdead
      · cases hdead
      · rename_i hretry
        exact Bool.eq_false_iff.mpr hretry
    have hreason : ∀ e, (Call.recordStepFailure cred text retryable).event r r' = some e →
        e.data.reason = some (if retryable then .attemptBudgetExhausted else .nonRetryableFailure) := by
      intro e he
      obtain rfl := Option.some.inj he
      simp [failEvent, hdead]
    have hkept : r'.attemptCount = r.attemptCount ∧ r'.maxAttempts = r.maxAttempts := by
      rw [hcols]
      exact ⟨rfl, rfl⟩
    cases retryable with
    | false => exact ⟨_, .rejected hid.symm, hrunning, hkept.1, hkept.2, hreason⟩
    | true =>
      have hbudget : r.maxAttempts.val ≤ r.attemptCount.val := by simpa [mayRetry] using hretry
      exact ⟨_, .exhausted hid.symm hbudget, hrunning, hkept.1, hkept.2, hreason⟩
  | recover hrunning hdeadline hexpired hcols =>
    have hbudget : r.maxAttempts.val ≤ r.attemptCount.val := by
      rw [hcols] at hdead
      dsimp only at hdead
      split at hdead
      · cases hdead
      · rename_i hbudget
        exact not_lt.mp hbudget
    refine ⟨_, .expired hbudget, hrunning, by rw [hcols], by rw [hcols], fun e he => ?_⟩
    obtain rfl := Option.some.inj he
    simp [recoverEvent, hdead]

/-- Only a row that goes to DEAD_LETTERED owes a STEP_DEAD_LETTERED event. -/
theorem deadLettered_of_event (h : Transition start instant checkedAt r r' call) {e : NewEvent}
    (he : call.event r r' = some e) (htype : e.eventType = .stepDeadLettered) :
    r'.status = .deadLettered ∧ e.data.attemptCount = r'.attemptCount := by
  cases h with
  | claim | complete | promote =>
    obtain rfl := Option.some.inj he
    cases htype
  | renew => cases he
  | fail _ hcols =>
    obtain rfl := Option.some.inj he
    have hstatus : r'.status = .retryWait ∨ r'.status = .deadLettered := by
      rw [hcols]
      dsimp only
      split <;> simp
    rcases hstatus with hstatus | hstatus
    · simp [failEvent, hstatus] at htype
    · simp [failEvent, hstatus]
  | recover _ _ _ hcols =>
    obtain rfl := Option.some.inj he
    have hstatus : r'.status = .ready ∨ r'.status = .deadLettered := by
      rw [hcols]
      dsimp only
      split <;> simp
    rcases hstatus with hstatus | hstatus
    · simp [recoverEvent, hstatus] at htype
    · simp [recoverEvent, hstatus]

/-- No claim exceeds the budget. -/
theorem budget_of_transition (h : Transition start instant checkedAt r r' call)
    (hbudget : r.status = .running → r.attemptCount.val ≤ r.maxAttempts.val)
    (hrunning : r'.status = .running) : r'.attemptCount.val ≤ r'.maxAttempts.val := by
  cases h with
  | claim _ _ hroom _ hattempt hcols =>
    have hmax : r'.maxAttempts = r.maxAttempts := by rw [hcols]
    rw [hattempt, hmax]
    omega
  | renew hlive hcols =>
    rw [hcols]
    exact hbudget (holdsLiveLease_iff.mp hlive).2.1
  | complete _ hcols | promote _ _ hcols =>
    rw [hcols] at hrunning
    cases hrunning
  | fail _ hcols | recover _ _ _ hcols =>
    rw [hcols] at hrunning
    dsimp only at hrunning
    split at hrunning <;> cases hrunning

end

/-- The call was sent in the course of the run, by a coordinator or by a worker whose phase
told it to. -/
def Sent (sha256Hex : String → String) (s₀ : Runtime) (as : List Worker.Action) (tx : TxId)
    (call : Call) : Prop :=
  ∃ as₁ a as₂ m m', as = as₁ ++ a :: as₂ ∧ run (step sha256Hex) s₀ as₁ = some m ∧
    step sha256Hex m a = some m' ∧ m.world.nextTx = tx ∧
    Sessions.step m.world (.start call) = some m'.world ∧
    (isForeign (.start call) = true ∨ ∃ i worker phase, m.workers i = some worker ∧
      Sends worker.workerId tx worker.phase call phase)

theorem Sent.concat {sha256Hex : String → String} {s₀ : Runtime} {as : List Worker.Action}
    {tx : TxId} {call : Call} (h : Sent sha256Hex s₀ as tx call) (a : Worker.Action) :
    Sent sha256Hex s₀ (as ++ [a]) tx call := by
  obtain ⟨as₁, b, as₂, m, m', rfl, hrest⟩ := h
  exact ⟨as₁, b, as₂ ++ [a], m, m', by simp, hrest⟩

/-- Every call in flight or committed was sent. -/
theorem sent_of_run {sha256Hex : String → String} {s₀ s : Runtime} (h₀ : s₀.Initial)
    {as : List Worker.Action} (hrun : run (step sha256Hex) s₀ as = some s) {tx : TxId} {call : Call}
    (h : IssuedAs s.world tx call) : Sent sha256Hex s₀ as tx call := by
  induction as using List.reverseRecOn generalizing s with
  | nil =>
    obtain rfl := Option.some.inj hrun
    exact absurd (Sessions.issued_iff.mpr ⟨tx, h⟩) (Sessions.not_issued_of_initial h₀.world _)
  | append_singleton as a ih =>
    obtain ⟨m, hm, hstep⟩ := (run_concat_eq_some _).mp hrun
    have hlast : as ++ [a] = as ++ a :: [] := rfl
    cases runtime_cases hstep with
    | @database action world hforeign hmoved =>
      rcases h.of_step hmoved with ⟨rfl, rfl⟩ | hold
      · exact ⟨as, _, [], m, _, hlast, hm, hstep, rfl, hmoved, .inl hforeign⟩
      · exact (ih hm hold).concat _
    | @send _ i worker phase renewal call' world hworker hsends hmoved =>
      rcases h.of_step hmoved with ⟨hstart, rfl⟩ | hold
      · obtain rfl := Sessions.Action.start.inj hstart
        exact ⟨as, _, [], m, _, hlast, hm, hstep, rfl, hmoved,
          .inr ⟨i, worker, phase, hworker, hsends⟩⟩
      · exact (ih hm hold).concat _
    | effects | spawn | turn | apply => exact (ih hm h).concat _

/-- The committed call is the report of a worker whose executor has thrown this error. -/
def Raised (sha256Hex : String → String) (s₀ : Runtime) (as : List Worker.Action) (c : Commit)
    (step : ClaimedStep) (error : ExecutorError) : Prop :=
  ∃ as₁ a as₂ m m' i worker text, as = as₁ ++ a :: as₂ ∧
    run (Worker.step sha256Hex) s₀ as₁ = some m ∧ Worker.step sha256Hex m a = some m' ∧
    m.workers i = some worker ∧ worker.phase = .threw step error ∧ m.world.nextTx = c.tx ∧
    Sessions.step m.world (.start c.call) = some m'.world ∧
    c.call = .recordStepFailure (Runtime.credential worker step) text error.retryable

theorem raised_of_report {sha256Hex : String → String} {s₀ s : Runtime} (h₀ : s₀.Initial)
    {as : List Worker.Action} (hrun : run (step sha256Hex) s₀ as = some s) {c : Commit}
    (hc : c ∈ s.world.history) {cred : Credential} {text : JsString} {retryable : Bool}
    (hcall : c.call = .recordStepFailure cred text retryable) :
    ∃ step error, step.id = cred.id ∧ error.retryable = retryable ∧
      Raised sha256Hex s₀ as c step error := by
  have hissued : IssuedAs s.world c.tx (.recordStepFailure cred text retryable) :=
    .inr ⟨c, hc, rfl, hcall⟩
  obtain ⟨as₁, a, as₂, m, m', has, hm, hstep, htx, hstart, hforeign | ⟨i, worker, phase, hworker,
    hsends⟩⟩ := sent_of_run h₀ hrun hissued
  · cases hforeign
  · obtain ⟨workerId, phase₀, renewal⟩ := worker
    cases hsends with
    | fail step error =>
      exact ⟨step, error, rfl, rfl, as₁, a, as₂, m, m', i, _, text, has, hm, hstep, hworker, rfl, htx,
        hcall ▸ hstart, hcall⟩

/-- The row is no dead letter yet and was not claimed beyond its budget. -/
structure Unspent (r : StepRow) : Prop where
  status : r.status ≠ .deadLettered
  budget : r.status = .running → r.attemptCount.val ≤ r.maxAttempts.val

section
variable {sha256Hex : String → String} {s₀ s : Runtime}

/-- A claimed step has stayed within its budget, also when it was changed. -/
theorem budget_of_reaches (h₀ : s₀.Initial) (h : Reaches (step sha256Hex) s₀ s) {c : Commit}
    (hc : c ∈ s.world.history) {ch : Change} (hch : ch ∈ c.decision.changes) {r₀ : StepRow}
    (hr₀ : s₀.world.steps.find? ch.before.id = some r₀) (hunspent : Unspent r₀)
    (hrunning : ch.before.status = .running) :
    ch.before.attemptCount.val ≤ ch.before.maxAttempts.val := by
  have hserial := Sessions.serial_of_reaches h₀.world (Consistent.of_reaches h₀ h).reaches
  have hpast := hserial.preserved
    (P := fun r => ∀ r₀, s₀.world.steps.find? r.id = some r₀ → Unspent r₀ → r.status = .running →
      r.attemptCount.val ≤ r.maxAttempts.val)
    (fun id r hr r₀ hr₀ hunspent => by
      rw [id_of_find? hr, hr] at hr₀
      exact Option.some.inj hr₀ ▸ hunspent.budget)
    (fun c hc ch hch hbefore r₀ hr₀ hunspent => by
      have htransition := hserial.transition hc hch
      rw [(Sessions.sameTask_of_transition htransition).id] at hr₀
      exact budget_of_transition htransition (hbefore r₀ hr₀ hunspent))
  exact (hpast.2 c hc ch hch).1 r₀ hr₀ hunspent hrunning

/-- A step becomes a dead letter at the end of its budget or by a report that may not be
retried. -/
theorem deadLettered_cause (h₀ : s₀.Initial) (h : Reaches (step sha256Hex) s₀ s) {id : StepId}
    {r₀ r : StepRow} (hr₀ : s₀.world.steps.find? id = some r₀) (hunspent : Unspent r₀)
    (hr : s.world.steps.find? id = some r) (hdead : r.status = .deadLettered) :
    r.attemptCount.val = r.maxAttempts.val ∨
      ∃ cred text, cred.id = id ∧ Issued s.world (.recordStepFailure cred text false) := by
  have hserial := Sessions.serial_of_reaches h₀.world (Consistent.of_reaches h₀ h).reaches
  obtain ⟨hrows, -⟩ := hserial.preserved
    (P := fun r => ∀ r₀, s₀.world.steps.find? r.id = some r₀ → Unspent r₀ →
      r.status = .deadLettered → r.attemptCount.val = r.maxAttempts.val ∨
        ∃ cred text, cred.id = r.id ∧ Issued s.world (.recordStepFailure cred text false))
    (fun id r hr r₀ hr₀ hunspent hdead => by
      rw [id_of_find? hr, hr] at hr₀
      exact absurd (Option.some.inj hr₀ ▸ hdead) hunspent.status)
    (fun c hc ch hch _ r₀ hr₀ hunspent hdead => by
      have htransition := hserial.transition hc hch
      have hid := (Sessions.sameTask_of_transition htransition).id
      obtain ⟨reason, hletters, hrunning, hattempt, hmax, -⟩ :=
        deadLetters_of_transition htransition hdead
      rw [hid] at hr₀
      have hbudget := budget_of_reaches h₀ h hc hch hr₀ hunspent hrunning
      rw [hattempt, hmax]
      generalize hcall : c.call = call at hletters
      cases hletters with
      | @rejected cred text hcred =>
        exact .inr ⟨cred, text, hcred.trans hid.symm, .inr ⟨c, hc, hcall⟩⟩
      | exhausted _ hspent | expired hspent => exact .inl (le_antisymm hbudget hspent))
  have hrow := hrows id r hr r₀ ((id_of_find? hr).symm ▸ hr₀) hunspent hdead
  rwa [id_of_find? hr] at hrow

end

/-- The reason that a dead-letter event of a committed call gives is what happened. -/
structure TrueReason (sha256Hex : String → String) (s₀ : Runtime) (as : List Worker.Action)
    (c : Commit) (e : NewEvent) (maxAttempts : Int4) : Prop where
  nonRetryable : e.data.reason = some .nonRetryableFailure ↔
    ∃ step reason, step.id = e.stepId ∧ Raised sha256Hex s₀ as c step (.invalidTask reason)
  exhausted : e.data.reason = some .attemptBudgetExhausted ↔
    (∃ step error, step.id = e.stepId ∧ (∀ reason, error ≠ .invalidTask reason) ∧
      Raised sha256Hex s₀ as c step error) ∧ e.data.attemptCount = maxAttempts
  expired : e.data.reason = some .leaseExpiredAttemptBudgetExhausted ↔
    c.call = .recoverExpiredSteps ∧ e.data.attemptCount = maxAttempts

theorem retryable_eq_false_iff {error : ExecutorError} :
    error.retryable = false ↔ ∃ reason, error = .invalidTask reason := by
  cases error <;> simp [ExecutorError.retryable]

theorem Raised.call {sha256Hex : String → String} {s₀ : Runtime} {as : List Worker.Action}
    {c : Commit} {step : ClaimedStep} {error : ExecutorError}
    (h : Raised sha256Hex s₀ as c step error) :
    ∃ cred text, c.call = .recordStepFailure cred text error.retryable := by
  obtain ⟨_, _, _, _, _, _, worker, text, -, -, -, -, -, -, -, hcall⟩ := h
  exact ⟨_, text, hcall⟩

theorem trueReason_of_deadLetters {sha256Hex : String → String} {s₀ s : Runtime}
    {as : List Worker.Action} (h₀ : s₀.Initial) (hrun : run (step sha256Hex) s₀ as = some s)
    {c : Commit} (hc : c ∈ s.world.history) {r : StepRow} {e : NewEvent} {reason : DeadLetterReason}
    {maxAttempts : Int4} (h : DeadLetters r c.call reason) (hid : e.stepId = r.id)
    (hreason : e.data.reason = some reason)
    (hspent : r.maxAttempts.val ≤ r.attemptCount.val → e.data.attemptCount = maxAttempts) :
    TrueReason sha256Hex s₀ as c e maxAttempts := by
  have hraised : ∀ {cred text retryable step error},
      c.call = .recordStepFailure cred text retryable → Raised sha256Hex s₀ as c step error →
        error.retryable = retryable := by
    intro cred text retryable step error hcall hraised
    obtain ⟨cred', text', hcall'⟩ := hraised.call
    exact (Call.recordStepFailure.inj (hcall'.symm.trans hcall)).2.2
  generalize hcall : c.call = call at h
  cases h with
  | rejected hcred =>
    obtain ⟨step, error, hstep, hretryable, hraise⟩ := raised_of_report h₀ hrun hc hcall
    obtain ⟨invalid, rfl⟩ := retryable_eq_false_iff.mp hretryable
    refine ⟨iff_of_true hreason ⟨step, invalid, hstep.trans (hcred.trans hid.symm), hraise⟩,
      iff_of_false (by simp [hreason]) ?_, iff_of_false (by simp [hreason]) (by simp [hcall])⟩
    rintro ⟨⟨step', error', -, hvalid, hraise'⟩, -⟩
    obtain ⟨invalid', rfl⟩ := retryable_eq_false_iff.mp (hraised hcall hraise')
    exact hvalid invalid' rfl
  | exhausted hcred hbudget =>
    obtain ⟨step, error, hstep, hretryable, hraise⟩ := raised_of_report h₀ hrun hc hcall
    have hvalid : ∀ reason, error ≠ .invalidTask reason := by
      rintro reason rfl
      cases hretryable
    refine ⟨iff_of_false (by simp [hreason]) ?_, iff_of_true hreason
      ⟨⟨step, error, hstep.trans (hcred.trans hid.symm), hvalid, hraise⟩, hspent hbudget⟩,
      iff_of_false (by simp [hreason]) (by simp [hcall])⟩
    rintro ⟨step', invalid', -, hraise'⟩
    cases hraised hcall hraise'
  | expired hbudget =>
    have hnone : ∀ step error, ¬Raised sha256Hex s₀ as c step error := by
      intro step error hraise
      obtain ⟨cred, text, hreport⟩ := hraise.call
      rw [hcall] at hreport
      cases hreport
    refine ⟨iff_of_false (by simp [hreason]) ?_, iff_of_false (by simp [hreason]) ?_,
      iff_of_true hreason ⟨hcall, hspent hbudget⟩⟩
    · rintro ⟨step, invalid, -, hraise⟩
      exact hnone step _ hraise
    · rintro ⟨⟨step, error, -, -, hraise⟩, -⟩
      exact hnone step error hraise

structure TrueDeadLetters (sha256Hex : String → String) (s₀ : Runtime) (as : List Worker.Action)
    (s : Runtime) : Prop where
  uniform : ∀ taskType payload, RejectsTask sha256Hex taskType payload → ∀ id attemptCount,
    1 ≤ attemptCount → ∃ reason, executeStep sha256Hex (uuidText id) taskType payload attemptCount =
      .throws (.invalidTask reason)
  verdict : ∀ i worker step error, s.workers i = some worker → worker.phase = .threw step error →
    ((∃ reason, error = .invalidTask reason) ↔
      RejectsTask sha256Hex step.taskType step.payload)
  sound : ∀ id r₀ r, s₀.world.steps.find? id = some r₀ → Unspent r₀ →
    s.world.steps.find? id = some r → r.status = .deadLettered →
      r.attemptCount.val = r.maxAttempts.val ∨ RejectsTask sha256Hex r.taskType r.payload
  rejected : ∀ id r, s.world.steps.find? id = some r → RejectsTask sha256Hex r.taskType r.payload →
    (r.status = .succeeded → s₀.world.steps.find? id = some r) ∧
      ∀ row ∈ s.effects.rows, stepEffectKey (uuidText id) ≠ .ok row.idempotencyKey
  reasons : ∀ e ∈ s.world.events, e ∉ s₀.world.events → e.eventType = .stepDeadLettered →
    ∃ c ∈ s.world.history, ∃ r₀, e ∈ c.events ∧ s₀.world.steps.find? e.stepId = some r₀ ∧
      (Unspent r₀ → TrueReason sha256Hex s₀ as c e.toNewEvent r₀.maxAttempts)

/-- Whatever workers and coordinators do, a dead letter is a spent budget or a task that every
execution rejects, and its event names the cause. -/
theorem dead_letters_are_true {sha256Hex : String → String} {s₀ s : Runtime}
    {as : List Worker.Action} (h₀ : s₀.Initial) (hrun : run (step sha256Hex) s₀ as = some s) :
    TrueDeadLetters sha256Hex s₀ as s := by
  have hverdicts : Verdicts sha256Hex s₀.world s := .of_reaches h₀ ⟨as, hrun⟩
  have hserial := Sessions.serial_of_reaches h₀.world hverdicts.consistent.reaches
  have hrejected : ∀ {id r}, s.world.steps.find? id = some r →
      (RejectedStep sha256Hex s₀.world.steps id ↔ RejectsTask sha256Hex r.taskType r.payload) := by
    intro id r hr
    obtain ⟨r₀, hr₀, hsame⟩ := hserial.sameTask.1 id r hr
    rw [hsame.taskType, hsame.payload]
    refine ⟨fun ⟨r₁, hr₁, hrejects⟩ => ?_, fun hrejects => ⟨r₀, hr₀, hrejects⟩⟩
    obtain rfl := Option.some.inj (hr₀.symm.trans hr₁)
    exact hrejects
  refine ⟨fun taskType payload hrejects id attemptCount => hrejects.throws id,
    fun i worker step error hworker hphase => ?_, fun id r₀ r hr₀ hunspent hr hdead => ?_,
    fun id r hr hrejects => ⟨fun hsucceeded => ?_, fun row hrow hkey =>
      hverdicts.keys.rows row hrow id hkey ((hrejected hr).mpr hrejects)⟩,
    fun e he hnew htype => ?_⟩
  · have hjudged := hverdicts.workers i worker hworker
    rw [hphase] at hjudged
    rw [← retryable_eq_false_iff]
    exact hjudged.2
  · refine (deadLettered_cause h₀ ⟨as, hrun⟩ hr₀ hunspent hr hdead).imp_right ?_
    rintro ⟨cred, text, rfl, hissued⟩
    exact (hrejected hr).mp ((hverdicts.reports cred text false hissued).mp rfl)
  · refine (hserial.completion hr hsucceeded).resolve_right ?_
    rintro ⟨c, hc, cred, result, hcall, rfl, -⟩
    exact hverdicts.completions cred result (.inr ⟨c, hc, hcall⟩) ((hrejected hr).mpr hrejects)
  · rw [hserial.events_eq] at he
    obtain ⟨c, hc, hec⟩ := List.mem_flatMap.mp ((List.mem_append.mp he).resolve_left hnew)
    have hmem : e.toNewEvent ∈ c.call.events c.decision.changes := by
      rw [(hserial.performs c hc).2]
      exact List.mem_map_of_mem hec
    obtain ⟨ch, hch, hevent⟩ := List.mem_filterMap.mp hmem
    have htransition := hserial.transition hc hch
    obtain ⟨hdead, hattempt⟩ := deadLettered_of_event htransition hevent htype
    obtain ⟨reason, hletters, hrunning, hkept, -, hreason⟩ :=
      deadLetters_of_transition htransition hdead
    obtain ⟨r₀, hr₀, hsame⟩ := hserial.sameTask.2 c hc ch hch
    have hid : e.stepId = ch.before.id := event_stepId htransition hevent
    refine ⟨c, hc, r₀, hec, hid ▸ hr₀, fun hunspent => trueReason_of_deadLetters h₀ hrun hc hletters
      hid (hreason _ hevent) fun hspent => ?_⟩
    have hbudget := budget_of_reaches h₀ ⟨as, hrun⟩ hc hch hr₀ hunspent hrunning
    have hmax : ch.before.maxAttempts = r₀.maxAttempts :=
      (Sessions.sameTask_of_transition htransition).maxAttempts.symm.trans hsame.maxAttempts
    rw [hattempt, hkept, ← hmax, Int4.ext_iff]
    exact le_antisymm hbudget hspent

def oneMalformed : Runtime where
  world := .opening ⟨[.inserted 7 "hash_after_delay" .null 0], List.nodup_singleton _⟩ 0
  effects := ⟨[], fun _ => none, 0⟩
  workers _ := none

theorem initial_oneMalformed : oneMalformed.Initial where
  world := World.initial_opening _ _
  effects := ⟨List.nodup_nil, fun _ => rfl⟩
  noKey := nofun
  noWorker _ := rfl

/-- A worker claims the step, its executor throws, and the failure is reported. -/
def malformedReport : List Worker.Action :=
  [.spawn 0 "worker", .claim 0 30000] ++ throughCommit 0 6 ++
    [.claimAnswered 0, .execute 0 "unused", .report 0 (.ofString "hash_after_delay payload must be an object, got null")] ++
    throughCommit 1 4

theorem dead_letters_are_true_malformed : ∃ s r,
    run (step id) oneMalformed malformedReport = some s ∧
      TrueDeadLetters id oneMalformed malformedReport s ∧ s.world.steps.find? 7 = some r ∧
      r.status = .deadLettered ∧ RejectsTask id r.taskType r.payload := by
  have hruns : (run (step id) oneMalformed malformedReport).any
      (fun s => (s.world.steps.find? 7).any fun r =>
        r.status = .deadLettered ∧ r.attemptCount.val ≠ r.maxAttempts.val) = true := by
    decide +kernel
  obtain ⟨s, hs, hend⟩ := (Option.any_eq_true _ _).mp hruns
  obtain ⟨r, hr, hrow⟩ := (Option.any_eq_true _ _).mp hend
  obtain ⟨hdead, hunspent⟩ := of_decide_eq_true hrow
  have htrue := dead_letters_are_true initial_oneMalformed hs
  refine ⟨s, r, hs, htrue, hr, hdead, ?_⟩
  exact (htrue.sound 7 _ r rfl ⟨nofun, nofun⟩ hr hdead).resolve_left hunspent

end DurableRunner.Guarantees
