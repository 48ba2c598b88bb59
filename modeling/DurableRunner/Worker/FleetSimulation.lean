import DurableRunner.Effects.Agreement
import DurableRunner.Sessions.Numbering
import DurableRunner.Worker.Fleet
import DurableRunner.Worker.LoopBlocks

/-! # The worker of a process

What a process does is what a worker of the runtime does. A worker that the
executor has left is in its phase as soon as the loop has taken the outcome.
-/
namespace DurableRunner.Worker
open Schema Operations Effects TransitionSystem
open Sessions (World TxId Numbered)

def Over (w : World) (tx : TxId) : Prop := w.txs tx = none ∧ tx < w.nextTx

structure LaterWorld (w w' : World) : Prop where
  nextTx : w.nextTx ≤ w'.nextTx
  ended : ∀ tx, Over w tx → Over w' tx
  commits : ∀ tx, Over w tx → ∀ c ∈ w'.history, c.tx = tx → c ∈ w.history

theorem LaterWorld.refl (w : World) : LaterWorld w w :=
  ⟨le_rfl, fun _ h => h, fun _ _ _ hc _ => hc⟩

theorem LaterWorld.of_step {w w' : World} {a : Sessions.Action} (h : Sessions.step w a = some w') :
    LaterWorld w w' := by
  cases Sessions.step_cases h with
  | tick clock => exact ⟨le_rfl, fun _ h => h, fun _ _ _ hc _ => hc⟩
  | start call =>
    refine ⟨Nat.le_succ _, fun tx hover => ⟨?_, Nat.lt_succ_of_lt hover.2⟩, fun _ _ _ hc _ => hc⟩
    rw [← hover.1]
    exact Function.update_of_ne hover.2.ne _ _
  | run ht hmove | lockRow ht hcall hphase hpresent hfree | fault ht =>
    refine ⟨(Sessions.apply_nextTx _ _ _ _).ge, fun tx hover => ⟨?_, ?_⟩, fun tx _ c hc _ => ?_⟩
    · rw [← Option.not_isSome_iff_eq_none, Sessions.apply_txs_isSome ht, hover.1]
      nofun
    · rw [Sessions.apply_nextTx]
      exact hover.2
    · rwa [Sessions.apply_history] at hc
  | @rollback tx t ht =>
    refine ⟨le_rfl, fun other hover => ⟨?_, hover.2⟩, fun _ _ _ hc _ => hc⟩
    have hother : other ≠ tx := fun e => by simp [← e, hover.1] at ht
    rw [Sessions.finish_txs_of_ne _ _ hother, hover.1]
  | @commit tx t d inserted ht hphase =>
    have hother : ∀ other, Over w other → other ≠ tx := fun other hover e => by
      simp [← e, hover.1] at ht
    refine ⟨le_rfl, fun other hover => ⟨?_, hover.2⟩, fun other hover c hc hctx => ?_⟩
    · exact (Sessions.finish_txs_of_ne w tx (hother other hover)).trans hover.1
    · rcases List.mem_append.mp hc with hc | hc
      · exact hc
      · obtain rfl := List.mem_singleton.mp hc
        exact absurd hctx.symm (hother other hover)

def EffectCall.isAnswered (call : EffectCall) : Bool :=
  match call.state with
  | .returned _ | .failed _ => true
  | _ => false

def LaterStore (e e' : EffectStore) : Prop :=
  ∀ c call, e.calls c = some call → EffectCall.isAnswered call = true → e'.calls c = some call

theorem LaterStore.refl (e : EffectStore) : LaterStore e e := fun _ _ h _ => h

theorem LaterStore.of_step {e e' : EffectStore} {a : StoreAction} (hsound : Effects.Sound e)
    (h : e.step a = some e') : LaterStore e e' := by
  have hset : ∀ {c call state}, e.calls c = some call → EffectCall.isAnswered call = false →
      LaterStore e (e.setState c call state) := by
    intro c call state hcall hopen other answered hother hanswered
    rw [setState_calls_of_ne, hother]
    rintro rfl
    obtain rfl := Option.some.inj (hcall.symm.trans hother)
    rw [hopen] at hanswered
    cases hanswered
  have hopen : ∀ {call : EffectCall} {state}, call.state = state →
      EffectCall.isAnswered ⟨call.request, call.effectId, state⟩ = false →
      EffectCall.isAnswered call = false := by
    rintro ⟨request, effectId, state⟩ _ rfl hstate
    exact hstate
  cases store_cases h with
  | apply hstate =>
    intro c call hcall hanswered
    rw [addCall_calls_of_ne, hcall]
    rintro rfl
    rw [hsound.fresh _ le_rfl] at hcall
    cases hcall
  | unstorable hcall hstate | conflict hcall hstate | insert hcall hstate | respond hcall hstate
  | readNothing hcall hstate | readSame hcall hstate | readOther hcall hstate =>
    exact hset hcall (hopen hstate rfl)
  | commit hcall hstate => exact hset hcall (hopen hstate rfl)
  | @lose c call hcall =>
    refine hset hcall ?_
    obtain ⟨request, effectId, state⟩ := call
    cases state with
    | returned outcome | failed error =>
      rw [EffectStore.step, hcall] at h
      cases h
    | sent | inserted | applied | conflicted => rfl

section Executor
variable (sha256Hex : String → String) (e : EffectStore) (step : ClaimedStep) (effect : Option CallId)

def execution : Execution :=
  executeStep sha256Hex (uuidText step.id) step.taskType step.payload step.attemptCount.val

/-- The ways in which the executor of a claimed step ends. -/
inductive EndsAs : ExecutorOutcome → Prop
  | resolves {result : Json} (hexecute : execution sha256Hex step = .resolves result) :
      EndsAs (.resolved result)
  | throws {error : ExecutorError} {outcome : ExecutorOutcome}
      (hexecute : execution sha256Hex step = .throws error)
      (hcaught : error.caughtAs outcome = true) : EndsAs outcome
  | returned {request : EffectRequest} {c : CallId} {call : EffectCall} {answer : EffectOutcome}
      (hexecute : execution sha256Hex step = .applies request) (heffect : effect = some c)
      (hcall : e.calls c = some call) (hstate : call.state = .returned answer) :
      EndsAs (.resolved answer.result)
  | failed {request : EffectRequest} {c : CallId} {call : EffectCall} {error : EffectError}
      {outcome : ExecutorOutcome} (hexecute : execution sha256Hex step = .applies request)
      (heffect : effect = some c) (hcall : e.calls c = some call)
      (hstate : call.state = .failed error)
      (hcaught : (ExecutorError.effect error).caughtAs outcome = true) : EndsAs outcome

variable {sha256Hex e step effect} {outcome : ExecutorOutcome}

theorem endsAs_of_executorEnds (h : executorEnds sha256Hex e step effect outcome = true) :
    EndsAs sha256Hex e step effect outcome := by
  unfold executorEnds at h
  split at h
  · rename_i result hexecute
    obtain rfl := of_decide_eq_true h
    exact .resolves hexecute
  · rename_i error hexecute
    exact .throws hexecute h
  · rename_i request hexecute
    split at h
    · rename_i answer hcall
      obtain ⟨c, heffect, hcall⟩ := Option.bind_eq_some_iff.mp hcall
      obtain rfl := of_decide_eq_true h
      exact .returned hexecute heffect hcall rfl
    · rename_i error hcall
      obtain ⟨c, heffect, hcall⟩ := Option.bind_eq_some_iff.mp hcall
      exact .failed hexecute heffect hcall rfl h
    · cases h

theorem EndsAs.later {e' : EffectStore} (h : EndsAs sha256Hex e step effect outcome)
    (hlater : LaterStore e e') : EndsAs sha256Hex e' step effect outcome := by
  cases h with
  | resolves hexecute => exact .resolves hexecute
  | throws hexecute hcaught => exact .throws hexecute hcaught
  | returned hexecute heffect hcall hstate =>
    refine .returned hexecute heffect (hlater _ _ hcall ?_) hstate
    rw [EffectCall.isAnswered, hstate]
  | failed hexecute heffect hcall hstate hcaught =>
    refine .failed hexecute heffect (hlater _ _ hcall ?_) hstate hcaught
    rw [EffectCall.isAnswered, hstate]

end Executor

section Renewals
variable (w : World) (renewal : Option TxId)

/-- The latest renewal is over, if there was one. -/
def Drained : Prop := ∀ tx ∈ renewal, Over w tx

def NotRejected : Prop := ∀ tx ∈ renewal, ∀ c ∈ w.history, c.tx = tx → c.outcome ≠ .notRenewed

/-- What the phase of a coroutine says of its latest transaction. -/
def RenewalStands : RenewalPhase → Prop
  | .sleeping | .renewing (some .renewed) | .renewing (some .threw) =>
    Drained w renewal ∧ NotRejected w renewal
  | .renewing none => ∀ tx ∈ renewal, tx < w.nextTx
  | .renewing (some .rejected) | .done => Drained w renewal

variable {w renewal} {w' : World} {phase : RenewalPhase}

theorem Drained.later (h : Drained w renewal) (hlater : LaterWorld w w') : Drained w' renewal :=
  fun tx htx => hlater.ended tx (h tx htx)

theorem NotRejected.later (h : NotRejected w renewal) (hdrained : Drained w renewal)
    (hlater : LaterWorld w w') : NotRejected w' renewal :=
  fun tx htx c hc hctx => h tx htx c (hlater.commits tx (hdrained tx htx) c hc hctx) hctx

theorem RenewalStands.later (h : RenewalStands w renewal phase) (hlater : LaterWorld w w') :
    RenewalStands w' renewal phase := by
  cases phase with
  | sleeping => exact ⟨h.1.later hlater, h.2.later h.1 hlater⟩
  | done => exact Drained.later h hlater
  | renewing answer =>
    cases answer with
    | none => exact fun tx htx => (h tx htx).trans_le hlater.nextTx
    | some answer =>
      cases answer with
      | renewed | threw => exact ⟨h.1.later hlater, h.2.later h.1 hlater⟩
      | rejected => exact Drained.later h hlater

theorem RenewalStands.answer {answer : RenewalAnswer} (h : RenewalStands w renewal (.renewing none))
    (hnumbered : Numbered w) (hanswers : answersRenewal w renewal answer = true) :
    RenewalStands w renewal (.renewing (some answer)) := by
  unfold answersRenewal at hanswers
  obtain ⟨hover, hanswer⟩ := (Bool.and_eq_true _ _).mp hanswers
  have hdrained : Drained w renewal := by
    rintro tx htx
    obtain rfl := Option.mem_def.mp htx
    exact ⟨by simpa [isOver] using hover, h tx rfl⟩
  have hreturned : ∀ tx ∈ renewal, ∀ c ∈ w.history, c.tx = tx → outcome? w renewal = some c.outcome := by
    rintro tx htx c hc rfl
    obtain rfl := Option.mem_def.mp htx
    have hfind : w.history.find? (fun c' => c'.tx = c.tx) = some c :=
      (Relational.Table.mem_iff_find? (t := ⟨w.history, hnumbered.once⟩)).mp hc
    rw [outcome?, Option.bind_some, hfind]
    rfl
  cases answer with
  | rejected => exact hdrained
  | renewed =>
    refine ⟨hdrained, fun tx htx c hc hctx hrejected => ?_⟩
    rw [hreturned tx htx c hc hctx, hrejected] at hanswer
    cases hanswer
  | threw =>
    refine ⟨hdrained, fun tx htx c hc hctx hrejected => ?_⟩
    rw [hreturned tx htx c hc hctx, hrejected] at hanswer
    simp at hanswer

end Renewals

section Tracks
variable (sha256Hex : String → String)

inductive Asks (step : ClaimedStep) (effect : Option CallId) : WorkerPhase → Prop
  | begun (heffect : effect = none) : Asks step effect (.claimed step)
  | applying {c : CallId} {request : EffectRequest} (heffect : effect = some c)
      (hexecute : execution sha256Hex step = .applies request) : Asks step effect (.applying step c)

inductive Took (step : ClaimedStep) : ExecutorOutcome → WorkerPhase → Prop
  | resolved {output : Json} : Took step (.resolved output) (.resolved step output)
  | threw {error : ExecutorError} {outcome : ExecutorOutcome}
      (hcaught : error.caughtAs outcome = true) : Took step outcome (.threw step error)

def LoopPhase.isIdle : LoopPhase → Bool
  | .claiming (some .notClaimed) | .polling | .reporting _ _ (some _) | .returned => true
  | _ => false

/-- The phase and the renewal of the worker of a process. -/
inductive Tracks (w : World) (e : EffectStore) (p : LoopProcess) : WorkerPhase → Option TxId → Prop
  | stopped {renewal : Option TxId} (h : p.crashed = true ∨
      p.loop.phase = .claiming (some .threw) ∨ p.loop.phase = .rejected) :
      Tracks w e p .stopped renewal
  | refused {renewal : Option TxId} (hphase : p.loop.phase = .claiming none)
      (hcall : p.call = none) : Tracks w e p .idle renewal
  | claiming {renewal : Option TxId} {tx : TxId} (hphase : p.loop.phase = .claiming none)
      (hcall : p.call = some tx) : Tracks w e p (.claiming tx) renewal
  | claimed {step : ClaimedStep} (hphase : p.loop.phase = .claiming (some (.claimed step)))
      (heffect : p.effect = none) (hrenewal : p.renewal = none) : Tracks w e p (.claimed step) none
  | idle {renewal : Option TxId} (hidle : p.loop.phase.isIdle = true) : Tracks w e p .idle renewal
  | executing {step : ClaimedStep} {i : ℕ} {outcome? : Option ExecutorOutcome} {phase : WorkerPhase}
      (hphase : p.loop.phase = .executing step i outcome?)
      (hasks : Asks sha256Hex step p.effect phase)
      (hends : ∀ outcome ∈ outcome?, EndsAs sha256Hex e step p.effect outcome)
      (hrenewal : ∀ r, p.loop.renewals[i]? = some r → RenewalStands w p.renewal r.phase) :
      Tracks w e p phase p.renewal
  | draining {step : ClaimedStep} {i : ℕ} {outcome : ExecutorOutcome} {phase : WorkerPhase}
      (hphase : p.loop.phase = .draining step i outcome) (htook : Took step outcome phase)
      (hrenewal : ∀ r, p.loop.renewals[i]? = some r → RenewalStands w p.renewal r.phase) :
      Tracks w e p phase p.renewal
  | reporting {renewal : Option TxId} {step : ClaimedStep} {outcome : ExecutorOutcome} {tx : TxId}
      (hphase : p.loop.phase = .reporting step outcome none) (hcall : p.call = some tx) :
      Tracks w e p (.reporting step tx) renewal

structure WorkerOf (w : World) (e : EffectStore) (p : LoopProcess) (worker : WorkerLoop) :
    Prop where
  sequential : IsSequential p.options p.loop
  workerId : worker.workerId = p.options.workerId
  tracks : Tracks sha256Hex w e p worker.phase worker.renewal

variable {sha256Hex} {w w' : World} {e e' : EffectStore} {p : LoopProcess} {phase : WorkerPhase}
  {renewal : Option TxId}

theorem Tracks.later (h : Tracks sha256Hex w e p phase renewal) (hw : LaterWorld w w')
    (he : LaterStore e e') : Tracks sha256Hex w' e' p phase renewal := by
  cases h with
  | stopped h => exact .stopped h
  | refused hphase hcall => exact .refused hphase hcall
  | claiming hphase hcall => exact .claiming hphase hcall
  | claimed hphase heffect hrenewal => exact .claimed hphase heffect hrenewal
  | idle hidle => exact .idle hidle
  | executing hphase hasks hends hrenewal =>
    exact .executing hphase hasks (fun outcome h => (hends outcome h).later he)
      fun r hr => (hrenewal r hr).later hw
  | draining hphase htook hrenewal =>
    exact .draining hphase htook fun r hr => (hrenewal r hr).later hw
  | reporting hphase hcall => exact .reporting hphase hcall

/-- A process whose loop stands where it stood, some of its coroutines perhaps elsewhere. -/
theorem Tracks.moved {loop : LoopState} (h : Tracks sha256Hex w e p phase renewal)
    (hphase : loop.phase = p.loop.phase)
    (hstands : ∀ (i : ℕ) (r : LeaseRenewal), loop.renewals[i]? = some r →
      p.loop.renewals[i]? = some r ∨ RenewalStands w p.renewal r.phase) :
    Tracks sha256Hex w e { p with loop } phase renewal := by
  cases h with
  | stopped h => exact .stopped (by simpa only [hphase] using h)
  | refused h hcall => exact .refused (hphase.trans h) hcall
  | claiming h hcall => exact .claiming (hphase.trans h) hcall
  | claimed h heffect hrenewal => exact .claimed (hphase.trans h) heffect hrenewal
  | idle hidle => exact .idle (by simpa only [hphase] using hidle)
  | executing h hasks hends hrenewal =>
    exact .executing (p := { p with loop }) (hphase.trans h) hasks hends
      fun r hr => (hstands _ r hr).elim (hrenewal r) id
  | draining h htook hrenewal =>
    exact .draining (p := { p with loop }) (hphase.trans h) htook
      fun r hr => (hstands _ r hr).elim (hrenewal r) id
  | reporting h hcall => exact .reporting (hphase.trans h) hcall

theorem WorkerOf.later {worker : WorkerLoop} (h : WorkerOf sha256Hex w e p worker)
    (hw : LaterWorld w w') (he : LaterStore e e') : WorkerOf sha256Hex w' e' p worker :=
  ⟨h.sequential, h.workerId, h.tracks.later hw he⟩

theorem workersOf_later {process : Option LoopProcess} {worker : Option WorkerLoop}
    (h : Option.Rel (WorkerOf sha256Hex w e) process worker) (hw : LaterWorld w w')
    (he : LaterStore e e') : Option.Rel (WorkerOf sha256Hex w' e') process worker := by
  cases h with
  | none => exact .none
  | some h => exact .some (h.later hw he)

end Tracks
end DurableRunner.Worker
