import DurableRunner.Worker.FleetSimulation

/-! # Worker loops refine the workers of the runtime -/
namespace DurableRunner.Guarantees
open Schema Operations Effects TransitionSystem Worker
open Sessions (World TxId Numbered)

section Advance
variable {s : Fleet} {i : ℕ} {p : LoopProcess} {action : LoopAction} {loop : LoopState}

theorem advance_sends (call : Call) (h : loop.trace = p.loop.trace ++ [.called call]) :
    s.advance i p action loop = s.send i call fun tx => ({ p.forget action with loop }).sent tx action := by
  simp [Fleet.advance, sentCall, h]

theorem advance_quiet {events : List LoopEvent} (h : loop.trace = p.loop.trace ++ events)
    (hquiet : ∀ call, events ≠ [.called call]) :
    s.advance i p action loop = s.setProcess i { p.forget action with loop } := by
  have hnone : sentCall p.loop.trace loop.trace = none := by
    unfold sentCall
    split
    · rename_i call hcall
      rw [h, List.drop_left] at hcall
      exact absurd hcall (hquiet call)
    · rfl
  rw [Fleet.advance, hnone]

theorem advance_silent (h : loop.trace = p.loop.trace) :
    s.advance i p action loop = s.setProcess i { p.forget action with loop } :=
  advance_quiet (h.trans (List.append_nil _).symm) (by simp)

end Advance

theorem admissible_of_credential {call : Call} {cred : Credential} (h : call.credential? = some cred) :
    call.admissible = true := by
  cases call with
  | renewStepLease | completeStepSuccess | recordStepFailure => rfl
  | claimNextStep | recoverExpiredSteps | promoteDueRetries | lockRows => cases h

section Runtime
variable {sha256Hex : String → String} {r : Runtime} {i : ℕ} {worker : WorkerLoop}

theorem setWorker_self (h : r.workers i = some worker) : r.setWorker i worker = r := by
  rw [Runtime.setWorker, ← h, Function.update_eq_self]

/-- A worker's action is a move of its loop. -/
theorem reaches_of_move {a : Worker.Action} {r' : Runtime} (ha : a.worker? = some i)
    (hworker : r.workers i = some worker) (hmove : r.move sha256Hex i worker a = some r') :
    Reaches (Worker.step sha256Hex) r r' := by
  have hstep : Worker.step sha256Hex r a =
      a.worker?.bind fun i => (r.workers i).bind fun worker => r.move sha256Hex i worker a := by
    cases a with
    | database | effects | spawn => cases ha
    | claim | claimAnswered | execute | effectAnswered | renew | report | reportAnswered | crash => rfl
  refine .single (hstep.trans ?_)
  rw [ha, Option.bind_some, hworker, Option.bind_some, hmove]

end Runtime

/-- The fleet and the runtime agree on both stores and all processes but one. -/
structure MatchesBut (sha256Hex : String → String) (i : ℕ) (s : Fleet) (r : Runtime) : Prop where
  world : r.world = s.world
  effects : r.effects = s.effects
  numbered : Numbered s.world
  sound : Effects.Sound s.effects
  others : ∀ j, j ≠ i →
    Option.Rel (WorkerOf sha256Hex s.world s.effects) (s.processes j) (r.workers j)

structure Matches (sha256Hex : String → String) (s : Fleet) (r : Runtime) : Prop where
  world : r.world = s.world
  effects : r.effects = s.effects
  numbered : Numbered s.world
  sound : Effects.Sound s.effects
  processes : ∀ j, Option.Rel (WorkerOf sha256Hex s.world s.effects) (s.processes j) (r.workers j)

section Others
variable {sha256Hex : String → String} {s : Fleet} {r : Runtime} {i : ℕ} {p : LoopProcess}
  {worker : WorkerLoop}

theorem Matches.but (h : Matches sha256Hex s r) (i : ℕ) : MatchesBut sha256Hex i s r :=
  ⟨h.world, h.effects, h.numbered, h.sound, fun j _ => h.processes j⟩

theorem MatchesBut.set (h : MatchesBut sha256Hex i s r)
    (hp : WorkerOf sha256Hex s.world s.effects p worker) :
    Matches sha256Hex (s.setProcess i p) (r.setWorker i worker) := by
  refine ⟨h.world, h.effects, h.numbered, h.sound, fun j => ?_⟩
  by_cases hj : j = i
  · subst hj
    simp only [Fleet.setProcess, Runtime.setWorker, Function.update_self]
    exact .some hp
  · simp only [Fleet.setProcess, Runtime.setWorker, Function.update_of_ne hj]
    exact h.others j hj

theorem MatchesBut.later_world {world : World} {a : Sessions.Action} (h : MatchesBut sha256Hex i s r)
    (hstep : Sessions.step s.world a = some world) :
    MatchesBut sha256Hex i { s with world } { r with world } :=
  ⟨rfl, h.effects, h.numbered.step hstep, h.sound, fun j hj =>
    workersOf_later (h.others j hj) (.of_step hstep) (.refl _)⟩

theorem MatchesBut.later_effects {effects : EffectStore} {a : StoreAction}
    (h : MatchesBut sha256Hex i s r) (hstep : s.effects.step a = some effects) :
    MatchesBut sha256Hex i { s with effects } { r with effects } :=
  ⟨h.world, rfl, h.numbered, h.sound.step hstep, fun j hj =>
    workersOf_later (h.others j hj) (.refl _) (.of_step h.sound hstep)⟩

/-- The process moves on and its worker with it, or not. -/
theorem MatchesBut.turn (h : MatchesBut sha256Hex i s r) (worker' : WorkerLoop)
    (hworker : r.workers i = some worker)
    (hmove : worker' = worker ∨ ∃ a : Worker.Action, a.worker? = some i ∧
      r.move sha256Hex i worker a = some (r.setWorker i worker'))
    (hp : WorkerOf sha256Hex s.world s.effects p worker') :
    ∃ r', Reaches (Worker.step sha256Hex) r r' ∧ Matches sha256Hex (s.setProcess i p) r' := by
  refine ⟨r.setWorker i worker', ?_, h.set hp⟩
  rcases hmove with rfl | ⟨a, ha, hmove⟩
  · rw [setWorker_self hworker]
    exact .refl r
  · exact reaches_of_move ha hworker hmove

theorem MatchesBut.send {call : Call} {sent : Option TxId → LoopProcess}
    (h : MatchesBut sha256Hex i s r) (worker' : WorkerLoop) (hworker : r.workers i = some worker)
    (hadmissible : call.admissible = true)
    (hmove : ∃ a : Worker.Action, a.worker? = some i ∧
      r.move sha256Hex i worker a = r.send i call worker')
    (hp : WorkerOf sha256Hex (s.world.begin call) s.effects (sent (some s.world.nextTx)) worker') :
    ∃ r', Reaches (Worker.step sha256Hex) r r' ∧ Matches sha256Hex (s.send i call sent) r' := by
  obtain ⟨a, ha, hmove⟩ := hmove
  have hstep : Sessions.step s.world (.start call) = some (s.world.begin call) := by
    rw [Sessions.step, if_pos hadmissible]
  refine ⟨({ r with world := s.world.begin call }).setWorker i worker', ?_, ?_⟩
  · refine reaches_of_move ha hworker ?_
    rw [hmove, Runtime.send, h.world, hstep, Option.map_some]
  · rw [Fleet.send, hstep]
    exact (h.later_world hstep).set hp

theorem MatchesBut.head (h : MatchesBut sha256Hex i s r) (hworker : r.workers i = some worker)
    (hid : worker.workerId = p.options.workerId) (hidle : worker.phase = .idle)
    (hsequential : IsSequential p.options (p.loop.head p.options)) :
    ∃ r', Reaches (Worker.step sha256Hex) r r' ∧
      Matches sha256Hex (s.advance i p .resume (p.loop.head p.options)) r' := by
  obtain ⟨workerId, phase, renewal⟩ := worker
  obtain rfl : phase = .idle := hidle
  obtain rfl : workerId = p.options.workerId := hid
  by_cases haborted : p.loop.aborted = true
  · have hhead : p.loop.head p.options = { p.loop with phase := .returned } := if_pos haborted
    rw [advance_silent (by rw [hhead])]
    exact h.turn _ hworker (.inl rfl) ⟨hsequential, rfl, .idle (by simp [hhead, LoopPhase.isIdle])⟩
  · have hhead : p.loop.head p.options =
      { p.loop.call p.options.claim with phase := .claiming none } := if_neg haborted
    rw [advance_sends p.options.claim (by rw [hhead, LoopState.call])]
    cases hadmissible : p.options.claim.admissible with
    | false =>
      have hstep : Sessions.step s.world (.start p.options.claim) = none := by
        rw [Sessions.step, hadmissible]
        rfl
      rw [Fleet.send, hstep]
      exact h.turn _ hworker (.inl rfl) ⟨hsequential, rfl, .refused (by rw [hhead]; rfl) rfl⟩
    | true =>
      refine h.send _ hworker hadmissible ⟨.claim i p.options.leaseDurationMs, rfl, rfl⟩ ?_
      refine ⟨hsequential, rfl, ?_⟩
      rw [h.world]
      exact .claiming (by rw [hhead]; rfl) rfl

end Others

section Moves
variable {sha256Hex : String → String} {s : Fleet} {r : Runtime} {i : ℕ} {p : LoopProcess}
  {worker : WorkerLoop} {loop : LoopState}

theorem claimAnswer_of_claimed {call : Option TxId} {step : ClaimedStep} (hworld : r.world = s.world)
    (h : answersClaim s.world call (.claimed step) = true) :
    ∃ tx, call = some tx ∧ r.claimAnswer tx = some (.claimed step) := by
  unfold answersClaim at h
  obtain ⟨-, hanswer⟩ := (Bool.and_eq_true _ _).mp h
  split at hanswer
  · rename_i step' step'' hsame houtcome
    obtain rfl := ClaimAnswer.claimed.inj hsame
    obtain rfl := of_decide_eq_true hanswer
    obtain ⟨tx, rfl, houtcome⟩ := Option.bind_eq_some_iff.mp houtcome
    obtain ⟨c, hfind, houtcome⟩ := Option.map_eq_some_iff.mp houtcome
    exact ⟨tx, rfl, by simp [Runtime.claimAnswer, hworld, hfind, houtcome]⟩
  · rename_i hsame _
    cases hsame
  · rename_i hsame
    cases hsame
  · cases hanswer

theorem claimAnswer_of_notClaimed {call : Option TxId} (hworld : r.world = s.world)
    (h : answersClaim s.world call .notClaimed = true) :
    ∃ tx, call = some tx ∧ r.claimAnswer tx = some .idle := by
  unfold answersClaim at h
  obtain ⟨-, hanswer⟩ := (Bool.and_eq_true _ _).mp h
  split at hanswer
  · rename_i hsame _
    cases hsame
  · rename_i houtcome
    obtain ⟨tx, rfl, houtcome⟩ := Option.bind_eq_some_iff.mp houtcome
    obtain ⟨c, hfind, houtcome⟩ := Option.map_eq_some_iff.mp houtcome
    exact ⟨tx, rfl, by simp [Runtime.claimAnswer, hworld, hfind, houtcome]⟩
  · rename_i hsame
    cases hsame
  · cases hanswer

/-- An answered claim. -/
theorem MatchesBut.claimAnswered {answer : ClaimAnswer} (h : MatchesBut sha256Hex i s r)
    (hworker : r.workers i = some worker) (hp : WorkerOf sha256Hex s.world s.effects p worker)
    (hcrashed : p.crashed = false) (hawaited : answersClaim s.world p.call answer = true)
    (hstep : p.loop.step p.options (.claimAnswered answer) = some loop) :
    ∃ r', Reaches (Worker.step sha256Hex) r r' ∧
      Matches sha256Hex (s.advance i p (.claimAnswered answer) loop) r' := by
  have hsequential := hp.sequential.step hstep
  simp only [LoopState.step] at hstep
  split at hstep
  case h_2 => cases hstep
  rename_i hphase
  obtain rfl := Option.some.inj hstep
  rw [advance_quiet rfl (by simp)]
  obtain ⟨workerId, phase, renewal⟩ := worker
  have hclaiming : ∀ tx, p.call = some tx → phase = .claiming tx := by
    intro tx hcall
    obtain ⟨-, -, htracks⟩ := hp
    cases htracks with
    | claiming _ hcall' => rw [Option.some.inj (hcall.symm.trans hcall')]
    | refused _ hcall' => simp [hcall] at hcall'
    | stopped hstopped => simp [hcrashed, hphase] at hstopped
    | idle hidle => simp [hphase, LoopPhase.isIdle] at hidle
    | claimed hphase' | executing hphase' | draining hphase' | reporting hphase' =>
      simp [hphase] at hphase'
  cases answer with
  | threw =>
    exact h.turn _ hworker (.inr ⟨.crash i, rfl, rfl⟩)
      ⟨hsequential, hp.workerId, .stopped (.inr (.inl rfl))⟩
  | notClaimed =>
    obtain ⟨tx, hcall, hanswer⟩ := claimAnswer_of_notClaimed h.world hawaited
    obtain rfl := hclaiming tx hcall
    refine h.turn ⟨workerId, .idle, none⟩ hworker (.inr ⟨.claimAnswered i, rfl, ?_⟩)
      ⟨hsequential, hp.workerId, .idle rfl⟩
    simp [Runtime.move, hanswer]
  | claimed step =>
    obtain ⟨tx, hcall, hanswer⟩ := claimAnswer_of_claimed h.world hawaited
    obtain rfl := hclaiming tx hcall
    refine h.turn ⟨workerId, .claimed step, none⟩ hworker (.inr ⟨.claimAnswered i, rfl, ?_⟩)
      ⟨hsequential, hp.workerId, .claimed rfl rfl rfl⟩
    simp [Runtime.move, hanswer]

theorem MatchesBut.reportAnswered {answer : ReportAnswer} (h : MatchesBut sha256Hex i s r)
    (hworker : r.workers i = some worker) (hp : WorkerOf sha256Hex s.world s.effects p worker)
    (hcrashed : p.crashed = false) (hawaited : answersReport s.world p.call answer = true)
    (hstep : p.loop.step p.options (.reportAnswered answer) = some loop) :
    ∃ r', Reaches (Worker.step sha256Hex) r r' ∧
      Matches sha256Hex (s.advance i p (.reportAnswered answer) loop) r' := by
  have hsequential := hp.sequential.step hstep
  simp only [LoopState.step] at hstep
  split at hstep
  case h_2 => cases hstep
  rename_i step outcome hphase
  obtain rfl := Option.some.inj hstep
  rw [advance_quiet rfl (by simp)]
  unfold answersReport at hawaited
  obtain ⟨hover, -⟩ := (Bool.and_eq_true _ _).mp hawaited
  obtain ⟨workerId, phase, renewal⟩ := worker
  obtain ⟨-, hid, htracks⟩ := hp
  cases htracks with
  | @reporting _ step' outcome' tx _ hcall =>
    refine h.turn ⟨workerId, .idle, renewal⟩ hworker (.inr ⟨.reportAnswered i, rfl, ?_⟩)
      ⟨hsequential, hid, .idle rfl⟩
    have hended : (s.world.txs tx).isSome = false := by simpa [isOver, hcall] using hover
    simp [Runtime.move, h.world, hended]
  | stopped hstopped => simp [hcrashed, hphase] at hstopped
  | idle hidle => simp [hphase, LoopPhase.isIdle] at hidle
  | claimed hphase' | executing hphase' | draining hphase' | claiming hphase' | refused hphase' =>
    simp [hphase] at hphase'

theorem MatchesBut.executorSettled {outcome : ExecutorOutcome} (h : MatchesBut sha256Hex i s r)
    (hworker : r.workers i = some worker) (hp : WorkerOf sha256Hex s.world s.effects p worker)
    (hcrashed : p.crashed = false)
    (hawaited : s.awaited sha256Hex p (.executorSettled outcome) = true)
    (hstep : p.loop.step p.options (.executorSettled outcome) = some loop) :
    ∃ r', Reaches (Worker.step sha256Hex) r r' ∧
      Matches sha256Hex (s.advance i p (.executorSettled outcome) loop) r' := by
  have hsequential := hp.sequential.step hstep
  simp only [LoopState.step] at hstep
  split at hstep
  case h_2 => cases hstep
  rename_i step j hphase
  have hloop := Option.some.inj hstep
  rw [advance_silent (by rw [← hloop])]
  subst hloop
  rw [Fleet.awaited, hphase] at hawaited
  refine h.turn _ hworker (.inl rfl) ⟨hsequential, hp.workerId, ?_⟩
  have htracks := hp.tracks
  generalize worker.phase = phase at htracks ⊢
  generalize worker.renewal = renewal at htracks ⊢
  cases htracks with
  | executing hphase' hasks hends hrenewal =>
    obtain ⟨rfl, rfl, rfl⟩ := LoopPhase.executing.inj (hphase.symm.trans hphase')
    refine .executing (p := { p with loop := _ }) rfl hasks ?_ hrenewal
    rintro _ ⟨⟩
    exact endsAs_of_executorEnds hawaited
  | stopped hstopped => simp [hcrashed, hphase] at hstopped
  | idle hidle => simp [hphase, LoopPhase.isIdle] at hidle
  | claimed hphase' | reporting hphase' | draining hphase' | claiming hphase' | refused hphase' =>
    simp [hphase] at hphase'

theorem MatchesBut.abort (h : MatchesBut sha256Hex i s r) (hworker : r.workers i = some worker)
    (hp : WorkerOf sha256Hex s.world s.effects p worker)
    (hstep : p.loop.step p.options .abort = some loop) :
    ∃ r', Reaches (Worker.step sha256Hex) r r' ∧ Matches sha256Hex (s.advance i p .abort loop) r' := by
  have hsequential := hp.sequential.step hstep
  have hloop := Option.some.inj hstep
  rw [advance_silent (by rw [← hloop])]
  refine h.turn _ hworker (.inl rfl) ⟨hsequential, hp.workerId, hp.tracks.moved ?_ fun j renewal hget => ?_⟩
  · rw [← hloop]
  · rw [← hloop] at hget
    exact .inl hget

/-- The coroutine that is not done belongs to the step that is executed or drained. -/
theorem current_of_ne_done {o : LoopOptions} {j : ℕ} {renewal : LeaseRenewal}
    (hsequential : IsSequential o loop) (hget : loop.renewals[j]? = some renewal)
    (hne : renewal.phase ≠ .done) :
    (renewal.stopped = false ∧ ∃ outcome?, loop.phase = .executing renewal.step j outcome?) ∨
      renewal.stopped = true ∧ ∃ outcome, loop.phase = .draining renewal.step j outcome := by
  obtain ⟨blocks, rest, outcomes, -, hrest, -, -⟩ := hsequential
  cases hrest with
  | claiming _ hdone | claimAnswered _ _ hdone | polling _ hdone | reporting _ hdone | reported _ hdone
  | returned _ hdone | rejected _ hdone => exact absurd (hdone renewal (List.mem_of_getElem? hget)) hne
  | executing hphase hrenewals hdone =>
    obtain ⟨rfl, rfl⟩ := eq_of_getElem? (hrenewals ▸ hget) hdone hne
    exact .inl ⟨rfl, _, hphase⟩
  | draining hphase hrenewals hdone =>
    obtain ⟨rfl, rfl⟩ := eq_of_getElem? (hrenewals ▸ hget) hdone hne
    exact .inr ⟨rfl, _, hphase⟩

theorem renewalStands_of_tracks {phase : WorkerPhase} {tx : Option TxId} {j : ℕ}
    {renewal : LeaseRenewal} (hsequential : IsSequential p.options p.loop)
    (htracks : Tracks sha256Hex s.world s.effects p phase tx) (hcrashed : p.crashed = false)
    (hget : p.loop.renewals[j]? = some renewal) (hne : renewal.phase ≠ .done) :
    tx = p.renewal ∧ RenewalStands s.world p.renewal renewal.phase := by
  have hcurrent := current_of_ne_done hsequential hget hne
  cases htracks with
  | executing hphase _ _ hrenewal =>
    rcases hcurrent with ⟨-, _, hphase'⟩ | ⟨-, _, hphase'⟩
    · obtain ⟨-, rfl, -⟩ := LoopPhase.executing.inj (hphase.symm.trans hphase')
      exact ⟨rfl, hrenewal renewal hget⟩
    · simp [hphase] at hphase'
  | draining hphase _ hrenewal =>
    rcases hcurrent with ⟨-, _, hphase'⟩ | ⟨-, _, hphase'⟩
    · simp [hphase] at hphase'
    · obtain ⟨-, rfl, -⟩ := LoopPhase.draining.inj (hphase.symm.trans hphase')
      exact ⟨rfl, hrenewal renewal hget⟩
  | stopped hstopped =>
    rcases hcurrent with ⟨-, _, hphase⟩ | ⟨-, _, hphase⟩ <;> simp [hcrashed, hphase] at hstopped
  | idle hidle =>
    rcases hcurrent with ⟨-, _, hphase⟩ | ⟨-, _, hphase⟩ <;> simp [hphase, LoopPhase.isIdle] at hidle
  | claimed hphase' | reporting hphase' | claiming hphase' | refused hphase' =>
    rcases hcurrent with ⟨-, _, hphase⟩ | ⟨-, _, hphase⟩ <;> simp [hphase] at hphase'

/-- A coroutine of the process has moved on, and its worker has not. -/
theorem tracks_setRenewal {phase : WorkerPhase} {tx : Option TxId} (j : ℕ) (renewal : LeaseRenewal)
    (htracks : Tracks sha256Hex s.world s.effects p phase tx)
    (hstands : RenewalStands s.world p.renewal renewal.phase) :
    Tracks sha256Hex s.world s.effects { p with loop := p.loop.setRenewal j renewal } phase tx := by
  refine htracks.moved rfl fun k r hget => ?_
  simp only [LoopState.setRenewal, List.getElem?_set] at hget
  split at hget
  · split at hget
    · obtain rfl := Option.some.inj hget
      exact .inr hstands
    · cases hget
  · exact .inl hget

theorem MatchesBut.renewalAnswered {j : ℕ} {answer : RenewalAnswer} (h : MatchesBut sha256Hex i s r)
    (hworker : r.workers i = some worker) (hp : WorkerOf sha256Hex s.world s.effects p worker)
    (hcrashed : p.crashed = false) (hawaited : answersRenewal s.world p.renewal answer = true)
    (hstep : p.loop.step p.options (.renewalAnswered j answer) = some loop) :
    ∃ r', Reaches (Worker.step sha256Hex) r r' ∧
      Matches sha256Hex (s.advance i p (.renewalAnswered j answer) loop) r' := by
  have hsequential := hp.sequential.step hstep
  obtain ⟨renewal, hget, hloop⟩ := Option.bind_eq_some_iff.mp hstep
  split at hloop
  case isFalse => cases hloop
  rename_i hphase
  obtain rfl := Option.some.inj hloop
  have hne : renewal.phase ≠ .done := by rw [hphase]; nofun
  obtain ⟨-, hstands⟩ := renewalStands_of_tracks hp.sequential hp.tracks hcrashed hget hne
  rw [hphase] at hstands
  rw [advance_quiet rfl (by simp)]
  refine h.turn _ hworker (.inl rfl) ⟨hsequential, hp.workerId, ?_⟩
  have htracks := tracks_setRenewal j { renewal with phase := .renewing (some answer) } hp.tracks
    (hstands.answer h.numbered hawaited)
  exact htracks.moved rfl fun k r hr => .inl hr

theorem renewalDrained_of_drained (hworld : r.world = s.world) (hrenewal : worker.renewal = p.renewal)
    (h : Drained s.world p.renewal) : r.renewalDrained worker = true := by
  simp only [Runtime.renewalDrained, Option.all_eq_true, hworld, hrenewal, Option.isNone_iff_eq_none]
  exact fun tx htx => (h tx htx).1

theorem mayRenew_of_drained (hworld : r.world = s.world) (hrenewal : worker.renewal = p.renewal)
    (h : Drained s.world p.renewal) (hkept : NotRejected s.world p.renewal) :
    r.mayRenew worker = true := by
  rw [Runtime.mayRenew, renewalDrained_of_drained hworld hrenewal h, Bool.true_and, hrenewal, hworld]
  simp only [Option.all_eq_true, List.all_eq_true, Bool.or_eq_true, decide_eq_true_eq]
  intro tx htx c hc
  by_cases hctx : c.tx = tx
  · exact .inr (hkept tx htx c hc hctx)
  · exact .inl hctx

theorem eq_of_getElem?_setRenewal {j : ℕ} {renewal current : LeaseRenewal}
    (h : (loop.setRenewal j renewal).renewals[j]? = some current) : renewal = current := by
  rw [LoopState.setRenewal, List.getElem?_set, if_pos rfl] at h
  split at h
  · exact Option.some.inj h
  · cases h

theorem MatchesBut.renews {j : ℕ} {renewal : LeaseRenewal} {outcome? : Option ExecutorOutcome}
    (h : MatchesBut sha256Hex i s r) (hworker : r.workers i = some worker)
    (hp : WorkerOf sha256Hex s.world s.effects p worker) (hcrashed : p.crashed = false)
    (hphase : p.loop.phase = .executing renewal.step j outcome?)
    (hrenewal : worker.renewal = p.renewal) (hdrained : Drained s.world p.renewal)
    (hkept : NotRejected s.world p.renewal)
    (hsequential : IsSequential p.options ((p.loop.call (p.options.renew renewal.step)).setRenewal j
      { renewal with phase := .renewing none })) :
    ∃ r', Reaches (Worker.step sha256Hex) r r' ∧
      Matches sha256Hex (s.advance i p (.renewalResumes j)
        ((p.loop.call (p.options.renew renewal.step)).setRenewal j
          { renewal with phase := .renewing none })) r' := by
  rw [advance_sends (p.options.renew renewal.step) (by rfl)]
  have hmay := mayRenew_of_drained h.world hrenewal hdrained hkept
  obtain ⟨workerId, phase, tx⟩ := worker
  obtain ⟨-, rfl, htracks⟩ := hp
  cases htracks with
  | executing hphase' hasks hends =>
    obtain ⟨rfl, rfl, rfl⟩ := LoopPhase.executing.inj (hphase.symm.trans hphase')
    refine h.send ⟨p.options.workerId, phase, some s.world.nextTx⟩ hworker
      (admissible_of_credential rfl) ⟨.renew i p.options.leaseDurationMs, rfl, ?_⟩
      ⟨hsequential, rfl, ?_⟩
    · cases hasks <;> simp [Runtime.move, hmay, h.world, Runtime.credential,
        LoopOptions.renew, LoopOptions.credential]
    · refine .executing (p := { p with loop := _, renewal := some s.world.nextTx }) hphase hasks hends ?_
      intro current hget
      obtain rfl := eq_of_getElem?_setRenewal hget
      rintro _ ⟨⟩
      exact Nat.lt_succ_self _
  | stopped hstopped => simp [hcrashed, hphase] at hstopped
  | idle hidle => simp [hphase, LoopPhase.isIdle] at hidle
  | claimed hphase' | reporting hphase' | draining hphase' | claiming hphase' | refused hphase' =>
    simp [hphase] at hphase'

/-- A coroutine goes on: it sends its next renewal, or it sleeps or is done. -/
theorem MatchesBut.renewalResumes {j : ℕ} (h : MatchesBut sha256Hex i s r)
    (hworker : r.workers i = some worker) (hp : WorkerOf sha256Hex s.world s.effects p worker)
    (hcrashed : p.crashed = false)
    (hstep : p.loop.step p.options (.renewalResumes j) = some loop) :
    ∃ r', Reaches (Worker.step sha256Hex) r r' ∧
      Matches sha256Hex (s.advance i p (.renewalResumes j) loop) r' := by
  have hsequential := hp.sequential.step hstep
  obtain ⟨renewal, hget, hloop⟩ := Option.bind_eq_some_iff.mp hstep
  have hne : renewal.phase ≠ .done := by
    intro hdone
    simp [LoopState.renewalResumes, hdone] at hloop
  obtain ⟨hrenewal, hstands⟩ := renewalStands_of_tracks hp.sequential hp.tracks hcrashed hget hne
  have hquiet : ∀ phase, RenewalStands s.world p.renewal phase →
      loop = p.loop.setRenewal j { renewal with phase } →
      ∃ r', Reaches (Worker.step sha256Hex) r r' ∧
        Matches sha256Hex (s.advance i p (.renewalResumes j) loop) r' := by
    rintro phase hphase rfl
    rw [advance_silent (by rfl)]
    exact h.turn _ hworker (.inl rfl) ⟨hsequential, hp.workerId, tracks_setRenewal j _ hp.tracks hphase⟩
  unfold LoopState.renewalResumes at hloop
  split at hloop
  · rename_i hphase
    rw [hphase] at hstands
    split at hloop
    · exact hquiet .done hstands.1 (Option.some.inj hloop).symm
    · rename_i hstopped
      obtain rfl := Option.some.inj hloop
      obtain ⟨-, outcome?, hexecuting⟩ :=
        (current_of_ne_done hp.sequential hget hne).resolve_right (by simp [hstopped])
      exact h.renews hworker hp hcrashed hexecuting hrenewal hstands.1 hstands.2 hsequential
  · rename_i hphase
    rw [hphase] at hstands
    exact hquiet .done hstands (Option.some.inj hloop).symm
  · rename_i answer hrejected hphase
    rw [hphase] at hstands
    have hboth : Drained s.world p.renewal ∧ NotRejected s.world p.renewal := by
      cases answer with
      | renewed | threw => exact hstands
      | rejected => exact absurd rfl hrejected
    refine hquiet _ ?_ (Option.some.inj hloop).symm
    split
    · exact hboth.1
    · exact hboth
  · cases hloop
  · cases hloop

theorem MatchesBut.stops {step : ClaimedStep} {j : ℕ} {outcome : ExecutorOutcome}
    {renewal : LeaseRenewal} (h : MatchesBut sha256Hex i s r) (hworker : r.workers i = some worker)
    (hp : WorkerOf sha256Hex s.world s.effects p worker) (hcrashed : p.crashed = false)
    (hphase : p.loop.phase = .executing step j (some outcome))
    (hget : p.loop.renewals[j]? = some renewal)
    (hloop : { p.loop.setRenewal j { renewal with stopped := true } with
      phase := .draining step j outcome } = loop)
    (hsequential : IsSequential p.options loop) :
    ∃ r', Reaches (Worker.step sha256Hex) r r' ∧
      Matches sha256Hex (s.advance i p .resume loop) r' := by
  rw [advance_silent (by rw [← hloop]; rfl)]
  obtain ⟨workerId, phase, tx⟩ := worker
  obtain ⟨-, hid, htracks⟩ := hp
  cases htracks with
  | executing hphase' hasks hends hrenewal =>
    obtain ⟨rfl, rfl, rfl⟩ := LoopPhase.executing.inj (hphase.symm.trans hphase')
    have hstands : ∀ current, loop.renewals[j]? = some current →
        RenewalStands s.world p.renewal current.phase := by
      intro current hcurrent
      rw [← hloop] at hcurrent
      obtain rfl := eq_of_getElem?_setRenewal hcurrent
      exact hrenewal renewal hget
    have hdraining : ∀ phase', Took step outcome phase' → Tracks sha256Hex s.world s.effects
        { p.forget .resume with loop } phase' p.renewal := fun phase' htook =>
      .draining (p := { p with loop }) (by rw [← hloop]) htook hstands
    have hends := hends outcome rfl
    cases hasks with
    | begun heffect =>
      cases hends with
      | @resolves output hexecute =>
        refine h.turn ⟨workerId, .resolved step output, p.renewal⟩ hworker
          (.inr ⟨.execute i "", rfl, ?_⟩) ⟨hsequential, hid, hdraining _ .resolved⟩
        simp only [execution] at hexecute
        simp only [Runtime.move, Runtime.begin, hexecute]
      | @throws error _ hexecute hcaught =>
        refine h.turn ⟨workerId, .threw step error, p.renewal⟩ hworker
          (.inr ⟨.execute i "", rfl, ?_⟩) ⟨hsequential, hid, hdraining _ (.threw hcaught)⟩
        simp only [execution] at hexecute
        simp only [Runtime.move, Runtime.begin, hexecute]
      | returned _ hcalled | failed _ hcalled => simp [heffect] at hcalled
    | @applying c request heffect hexecute =>
      cases hends with
      | resolves hexecute' | throws hexecute' => simp [hexecute] at hexecute'
      | @returned _ c' call answer _ heffect' hcall hstate =>
        obtain rfl := Option.some.inj (heffect.symm.trans heffect')
        refine h.turn ⟨workerId, .resolved step answer.result, p.renewal⟩ hworker
          (.inr ⟨.effectAnswered i, rfl, ?_⟩) ⟨hsequential, hid, hdraining _ .resolved⟩
        obtain ⟨asked, effectId, state⟩ := call
        obtain rfl : state = .returned answer := hstate
        simp [Runtime.move, Runtime.effectAnswer, h.effects, hcall]
      | @failed _ c' call error _ _ heffect' hcall hstate hcaught =>
        obtain rfl := Option.some.inj (heffect.symm.trans heffect')
        refine h.turn ⟨workerId, .threw step (.effect error), p.renewal⟩ hworker
          (.inr ⟨.effectAnswered i, rfl, ?_⟩) ⟨hsequential, hid, hdraining _ (.threw hcaught)⟩
        obtain ⟨asked, effectId, state⟩ := call
        obtain rfl : state = .failed error := hstate
        simp [Runtime.move, Runtime.effectAnswer, h.effects, hcall]
  | stopped hstopped => simp [hcrashed, hphase] at hstopped
  | idle hidle => simp [hphase, LoopPhase.isIdle] at hidle
  | claimed hphase' | reporting hphase' | draining hphase' | claiming hphase' | refused hphase' =>
    simp [hphase] at hphase'

/-- With its renewals drained, the loop sends its report. -/
theorem MatchesBut.reports {step : ClaimedStep} {j : ℕ} {outcome : ExecutorOutcome}
    {renewal : LeaseRenewal} (h : MatchesBut sha256Hex i s r) (hworker : r.workers i = some worker)
    (hp : WorkerOf sha256Hex s.world s.effects p worker) (hcrashed : p.crashed = false)
    (hphase : p.loop.phase = .draining step j outcome)
    (hget : p.loop.renewals[j]? = some renewal) (hdone : renewal.phase = .done)
    (hloop : { p.loop.call (p.options.report step outcome) with
      phase := .reporting step outcome none } = loop)
    (hsequential : IsSequential p.options loop) :
    ∃ r', Reaches (Worker.step sha256Hex) r r' ∧
      Matches sha256Hex (s.advance i p .resume loop) r' := by
  rw [advance_sends (p.options.report step outcome) (by rw [← hloop]; rfl)]
  obtain ⟨workerId, phase, tx⟩ := worker
  obtain ⟨-, rfl, htracks⟩ := hp
  cases htracks with
  | draining hphase' htook hrenewal =>
    obtain ⟨rfl, rfl, rfl⟩ := LoopPhase.draining.inj (hphase.symm.trans hphase')
    have hstands := hrenewal renewal hget
    rw [hdone] at hstands
    have hdrained : r.renewalDrained ⟨p.options.workerId, phase, p.renewal⟩ = true :=
      renewalDrained_of_drained h.world rfl hstands
    have hreporting : Tracks sha256Hex (s.world.begin (p.options.report step outcome)) s.effects
        (LoopProcess.sent { p.forget .resume with loop } (some s.world.nextTx) .resume)
        (.reporting step s.world.nextTx) p.renewal := .reporting (by rw [← hloop]; rfl) rfl
    cases htook with
    | @resolved output =>
      refine h.send ⟨p.options.workerId, .reporting step s.world.nextTx, p.renewal⟩ hworker
        (admissible_of_credential rfl) ⟨.report i [], rfl, ?_⟩ ⟨hsequential, rfl, hreporting⟩
      simp [Runtime.move, hdrained, h.world, Runtime.credential, LoopOptions.report,
        LoopOptions.credential]
    | @threw error _ hcaught =>
      cases outcome with
      | resolved => cases hcaught
      | threw errorText isInvalidTask =>
        obtain ⟨hcarries, hinvalid⟩ := (Bool.and_eq_true _ _).mp hcaught
        obtain rfl := of_decide_eq_true hinvalid
        refine h.send ⟨p.options.workerId, .reporting step s.world.nextTx, p.renewal⟩ hworker
          (admissible_of_credential rfl) ⟨.report i errorText, rfl, ?_⟩ ⟨hsequential, rfl, hreporting⟩
        simp [Runtime.move, hdrained, hcarries, h.world, Runtime.credential, LoopOptions.report,
          LoopOptions.credential]
  | stopped hstopped => simp [hcrashed, hphase] at hstopped
  | idle hidle => simp [hphase, LoopPhase.isIdle] at hidle
  | claimed hphase' | reporting hphase' | executing hphase' | claiming hphase' | refused hphase' =>
    simp [hphase] at hphase'

theorem idle_of_tracks (hp : WorkerOf sha256Hex s.world s.effects p worker)
    (hcrashed : p.crashed = false) (hidle : p.loop.phase.isIdle = true) : worker.phase = .idle := by
  obtain ⟨-, -, htracks⟩ := hp
  generalize worker.phase = phase at htracks ⊢
  generalize worker.renewal = renewal at htracks
  cases htracks with
  | idle | refused => rfl
  | stopped hstopped =>
    rcases hstopped with h | h | h
    · simp [hcrashed] at h
    · simp [h, LoopPhase.isIdle] at hidle
    · simp [h, LoopPhase.isIdle] at hidle
  | claimed h | reporting h | executing h | claiming h | draining h =>
    simp [h, LoopPhase.isIdle] at hidle

/-- A claimed step is executed, with a renewal that sleeps. -/
theorem MatchesBut.executes {step : ClaimedStep} (h : MatchesBut sha256Hex i s r)
    (hworker : r.workers i = some worker) (hp : WorkerOf sha256Hex s.world s.effects p worker)
    (hcrashed : p.crashed = false) (hphase : p.loop.phase = .claiming (some (.claimed step)))
    (hloop : p.loop.afterClaim (.claimed step) = loop) (hsequential : IsSequential p.options loop) :
    ∃ r', Reaches (Worker.step sha256Hex) r r' ∧
      Matches sha256Hex (s.advance i p .resume loop) r' := by
  rw [advance_silent (by rw [← hloop]; rfl)]
  obtain ⟨workerId, phase, tx⟩ := worker
  obtain ⟨-, hid, htracks⟩ := hp
  cases htracks with
  | claimed hphase' heffect hrenewal =>
    obtain rfl := ClaimAnswer.claimed.inj (Option.some.inj (LoopPhase.claiming.inj (hphase.symm.trans hphase')))
    have htracks : ∀ tx, p.renewal = tx →
        Tracks sha256Hex s.world s.effects { p with loop } (.claimed step) tx := by
      rintro _ rfl
      refine .executing (p := { p with loop }) (by rw [← hloop]; rfl) (.begun heffect) (by simp) ?_
      intro renewal hget
      obtain rfl : ⟨step, false, .sleeping⟩ = renewal := by
        simpa [← hloop, LoopState.afterClaim] using hget
      have hnone : ∀ tx, tx ∉ p.renewal := by simp [hrenewal]
      exact ⟨fun tx htx => absurd htx (hnone tx), fun tx htx => absurd htx (hnone tx)⟩
    exact h.turn _ hworker (.inl rfl) ⟨hsequential, hid, htracks none hrenewal⟩
  | stopped hstopped => simp [hcrashed, hphase] at hstopped
  | idle hidle => simp [hphase, LoopPhase.isIdle] at hidle
  | draining hphase' | reporting hphase' | executing hphase' | claiming hphase' | refused hphase' =>
    simp [hphase] at hphase'

theorem MatchesBut.rejects (h : MatchesBut sha256Hex i s r) (hworker : r.workers i = some worker)
    (hp : WorkerOf sha256Hex s.world s.effects p worker)
    (hphase : p.loop.phase = .claiming (some .threw)) (hloop : p.loop.afterClaim .threw = loop)
    (hsequential : IsSequential p.options loop) :
    ∃ r', Reaches (Worker.step sha256Hex) r r' ∧
      Matches sha256Hex (s.advance i p .resume loop) r' := by
  rw [advance_silent (by rw [← hloop]; rfl)]
  obtain ⟨workerId, phase, tx⟩ := worker
  obtain ⟨-, hid, htracks⟩ := hp
  cases htracks with
  | stopped =>
    exact h.turn _ hworker (.inl rfl)
      ⟨hsequential, hid, .stopped (.inr (.inr (by rw [← hloop]; rfl)))⟩
  | idle hidle => simp [hphase, LoopPhase.isIdle] at hidle
  | claimed hphase' | draining hphase' | reporting hphase' | executing hphase' | claiming hphase'
  | refused hphase' => simp [hphase] at hphase'

theorem MatchesBut.resume (h : MatchesBut sha256Hex i s r) (hworker : r.workers i = some worker)
    (hp : WorkerOf sha256Hex s.world s.effects p worker) (hcrashed : p.crashed = false)
    (hstep : p.loop.step p.options .resume = some loop) :
    ∃ r', Reaches (Worker.step sha256Hex) r r' ∧
      Matches sha256Hex (s.advance i p .resume loop) r' := by
  have hsequential := hp.sequential.step hstep
  have hstep : p.loop.resume p.options = some loop := hstep
  unfold LoopState.resume at hstep
  split at hstep
  · rename_i answer hphase
    have hloop := Option.some.inj hstep
    cases answer with
    | claimed step => exact h.executes hworker hp hcrashed hphase hloop hsequential
    | threw => exact h.rejects hworker hp hphase hloop hsequential
    | notClaimed =>
      have hidle := idle_of_tracks hp hcrashed (by rw [hphase]; rfl)
      rw [advance_silent (by rw [← hloop]; rfl)]
      refine h.turn _ hworker (.inl rfl) ⟨hsequential, hp.workerId, ?_⟩
      rw [hidle]
      exact .idle (by rw [← hloop]; rfl)
  · rename_i hphase
    obtain rfl := Option.some.inj hstep
    exact h.head hworker hp.workerId (idle_of_tracks hp hcrashed (by rw [hphase]; rfl)) hsequential
  · rename_i step j outcome hphase
    obtain ⟨renewal, hget, hloop⟩ := Option.map_eq_some_iff.mp hstep
    exact h.stops hworker hp hcrashed hphase hget hloop hsequential
  · rename_i step j outcome hphase
    obtain ⟨renewal, hget, hloop⟩ := Option.bind_eq_some_iff.mp hstep
    obtain ⟨hdone, hloop⟩ := Option.ite_none_right_eq_some.mp hloop
    exact h.reports hworker hp hcrashed hphase hget hdone (Option.some.inj hloop) hsequential
  · rename_i hphase
    obtain rfl := Option.some.inj hstep
    exact h.head hworker hp.workerId (idle_of_tracks hp hcrashed (by rw [hphase]; rfl)) hsequential
  all_goals cases hstep

end Moves

section Steps
variable {sha256Hex : String → String} {s s' : Fleet} {r : Runtime}

theorem Matches.database {a : Sessions.Action} {world : World} (h : Matches sha256Hex s r)
    (hforeign : isForeign a = true) (hstep : Sessions.step s.world a = some world) :
    ∃ r', Reaches (Worker.step sha256Hex) r r' ∧ Matches sha256Hex { s with world } r' := by
  refine ⟨{ r with world }, .single (a := .database a) ?_, rfl, h.effects, h.numbered.step hstep, h.sound,
    fun j => workersOf_later (h.processes j) (.of_step hstep) (.refl _)⟩
  rw [Worker.step, if_pos hforeign, h.world, hstep, Option.map_some]

theorem Matches.store {a : StoreAction} {effects : EffectStore} (h : Matches sha256Hex s r)
    (hadmits : s.admits a = true) (hstep : s.effects.step a = some effects) :
    ∃ r', Reaches (Worker.step sha256Hex) r r' ∧ Matches sha256Hex { s with effects } r' := by
  refine ⟨{ r with effects }, .single (a := .effects a) ?_, h.world, rfl, h.numbered, h.sound.step hstep,
    fun j => workersOf_later (h.processes j) (.refl _) (.of_step h.sound hstep)⟩
  have hadmits : r.admits a = true := by
    rw [← hadmits]
    cases a <;> simp [Runtime.admits, Fleet.admits, h.world]
  rw [Worker.step, if_pos hadmits, h.effects, hstep, Option.map_some]

theorem Matches.spawn {i : ℕ} {options : LoopOptions} {aborted : Bool} (h : Matches sha256Hex s r)
    (hnone : s.processes i = none) : ∃ r', Reaches (Worker.step sha256Hex) r r' ∧
      Matches sha256Hex (s.advance i (Fleet.fresh options aborted) .resume (.start options aborted)) r' := by
  have hnone : r.workers i = none := by
    have hrel := h.processes i
    rw [hnone] at hrel
    generalize r.workers i = worker? at hrel
    cases hrel
    rfl
  let worker : WorkerLoop := ⟨options.workerId, .idle, none⟩
  have hspawn : Worker.step sha256Hex r (.spawn i options.workerId) = some (r.setWorker i worker) := by
    rw [Worker.step, hnone]
    rfl
  have hbut : MatchesBut sha256Hex i s (r.setWorker i worker) := by
    refine ⟨h.world, h.effects, h.numbered, h.sound, fun j hj => ?_⟩
    simp only [Runtime.setWorker, Function.update_of_ne hj]
    exact h.processes j
  obtain ⟨rest, hstart⟩ := sequential_start options aborted
  obtain ⟨r', hr', hmatches⟩ := hbut.head (p := Fleet.fresh options aborted) (Function.update_self _ _ _)
    rfl rfl ⟨[], rest, [], hstart⟩
  exact ⟨r', (Reaches.single hspawn).trans hr', hmatches⟩

theorem Matches.worker {i : ℕ} {p : LoopProcess} (h : Matches sha256Hex s r) (hp : s.alive i = some p) :
    p.crashed = false ∧ ∃ worker, r.workers i = some worker ∧
      WorkerOf sha256Hex s.world s.effects p worker := by
  obtain ⟨hprocess, hcrashed⟩ := Option.filter_eq_some_iff.mp hp
  have hrel := h.processes i
  rw [hprocess] at hrel
  generalize r.workers i = worker? at hrel
  cases hrel with
  | some hworker => exact ⟨by simpa using hcrashed, _, rfl, hworker⟩

theorem Matches.applyEffect {i : ℕ} {p : LoopProcess} {effectId : String} (h : Matches sha256Hex s r)
    (hp : s.alive i = some p) (hstep : s.applyEffect sha256Hex i p effectId = some s') :
    ∃ r', Reaches (Worker.step sha256Hex) r r' ∧ Matches sha256Hex s' r' := by
  obtain ⟨hcrashed, ⟨workerId, phase, tx⟩, hworker, hsequential, hid, htracks⟩ := h.worker hp
  unfold Fleet.applyEffect at hstep
  split at hstep
  case h_2 => cases hstep
  rename_i step j hphase heffect
  split at hstep
  case h_2 => cases hstep
  rename_i request hexecute
  obtain ⟨effects, hmoved, rfl⟩ := Option.map_eq_some_iff.mp hstep
  cases htracks with
  | executing hphase' hasks _ hrenewal =>
    obtain ⟨rfl, rfl, rfl⟩ := LoopPhase.executing.inj (hphase.symm.trans hphase')
    cases hasks with
    | applying heffect' => simp [heffect] at heffect'
    | begun =>
      refine ⟨({ r with effects }).setWorker i
        ⟨workerId, .applying step s.effects.nextCall, p.renewal⟩, ?_, ?_⟩
      · refine reaches_of_move (a := .execute i effectId) rfl hworker ?_
        simp [Runtime.move, Runtime.begin, hexecute, h.effects, hmoved]
      · refine ((h.but i).later_effects hmoved).set ⟨hsequential, hid, ?_⟩
        exact .executing (p := { p with effect := some s.effects.nextCall }) hphase
          (.applying rfl hexecute) (by simp) hrenewal
  | stopped hstopped => simp [hcrashed, hphase] at hstopped
  | idle hidle => simp [hphase, LoopPhase.isIdle] at hidle
  | claimed hphase' | reporting hphase' | draining hphase' | claiming hphase' | refused hphase' =>
    simp [hphase] at hphase'

theorem Matches.loop {i : ℕ} {p : LoopProcess} {action : LoopAction} {loop : LoopState}
    (h : Matches sha256Hex s r) (hp : s.alive i = some p)
    (hawaited : s.awaited sha256Hex p action = true)
    (hstep : p.loop.step p.options action = some loop) :
    ∃ r', Reaches (Worker.step sha256Hex) r r' ∧ Matches sha256Hex (s.advance i p action loop) r' := by
  obtain ⟨hcrashed, worker, hworker, htracks⟩ := h.worker hp
  have hbut := h.but i
  cases action with
  | abort => exact hbut.abort hworker htracks hstep
  | claimAnswered answer => exact hbut.claimAnswered hworker htracks hcrashed hawaited hstep
  | executorSettled outcome => exact hbut.executorSettled hworker htracks hcrashed hawaited hstep
  | reportAnswered answer => exact hbut.reportAnswered hworker htracks hcrashed hawaited hstep
  | renewalAnswered j answer => exact hbut.renewalAnswered hworker htracks hcrashed hawaited hstep
  | resume => exact hbut.resume hworker htracks hcrashed hstep
  | renewalResumes j => exact hbut.renewalResumes hworker htracks hcrashed hstep

theorem Matches.step {a : FleetAction} (h : Matches sha256Hex s r)
    (hstep : s.step sha256Hex a = some s') :
    ∃ r', Reaches (Worker.step sha256Hex) r r' ∧ Matches sha256Hex s' r' := by
  cases a with
  | database a =>
    obtain ⟨hforeign, hstep⟩ := Option.ite_none_right_eq_some.mp hstep
    obtain ⟨world, hmoved, rfl⟩ := Option.map_eq_some_iff.mp hstep
    exact h.database hforeign hmoved
  | effects a =>
    obtain ⟨hadmits, hstep⟩ := Option.ite_none_right_eq_some.mp hstep
    obtain ⟨effects, hmoved, rfl⟩ := Option.map_eq_some_iff.mp hstep
    exact h.store hadmits hmoved
  | spawn i options aborted =>
    obtain ⟨hnone, hstep⟩ := Option.ite_none_left_eq_some.mp hstep
    obtain rfl := Option.some.inj hstep
    exact h.spawn (by simpa using hnone)
  | loop i action =>
    obtain ⟨p, hp, hstep⟩ := Option.bind_eq_some_iff.mp hstep
    obtain ⟨hawaited, hstep⟩ := Option.ite_none_right_eq_some.mp hstep
    obtain ⟨loop, hmoved, rfl⟩ := Option.map_eq_some_iff.mp hstep
    exact h.loop hp hawaited hmoved
  | applyEffect i effectId =>
    obtain ⟨p, hp, hstep⟩ := Option.bind_eq_some_iff.mp hstep
    exact h.applyEffect hp hstep
  | crash i =>
    obtain ⟨p, hp, rfl⟩ := Option.map_eq_some_iff.mp hstep
    obtain ⟨hcrashed, worker, hworker, htracks⟩ := h.worker hp
    exact (h.but i).turn { worker with phase := .stopped } hworker (.inr ⟨.crash i, rfl, rfl⟩)
      ⟨htracks.sequential, htracks.workerId, .stopped (.inl rfl)⟩

theorem Matches.reaches (h : Matches sha256Hex s r) (hreach : Reaches (Fleet.step sha256Hex) s s') :
    ∃ r', Reaches (Worker.step sha256Hex) r r' ∧ Matches sha256Hex s' r' :=
  hreach.simulated (fun _ _ _ _ hs hstep => hs.step hstep) h

theorem Matches.of_initial (h : s.Initial) : Matches sha256Hex s s.runtime := by
  refine ⟨rfl, rfl, .of_initial h.world, .of_initial h.effects, fun j => ?_⟩
  rw [h.noProcess j]
  exact .none

end Steps

/-- Whatever any number of worker loops do over the two stores, workers of the runtime do. -/
theorem worker_loops_refine_runtime {sha256Hex : String → String} {s₀ s : Fleet} (h₀ : s₀.Initial)
    (h : Reaches (Fleet.step sha256Hex) s₀ s) :
    ∃ r, Reaches (Worker.step sha256Hex) s₀.runtime r ∧ Matches sha256Hex s r := by
  have hmatches : Matches sha256Hex s₀ s₀.runtime := .of_initial h₀
  exact hmatches.reaches h

def idleFleet : Fleet := ⟨.singleStep, ⟨[], fun _ => none, 0⟩, fun _ => none⟩

theorem initial_idleFleet : idleFleet.Initial where
  world := World.initial_singleStep
  effects := ⟨List.nodup_nil, fun _ => rfl⟩
  noKey := nofun
  noProcess _ := rfl

def claimedMalformed : ClaimedStep where
  id := 7
  workerId := some "worker"
  leaseVersion := ⟨1, Int4.inRange_one⟩
  attemptCount := ⟨1, Int4.inRange_one⟩
  leaseExpiresAt := some 30000000
  priority := ⟨0, Int4.inRange_zero⟩
  availableAt := 0
  taskType := "hash_after_delay"
  payload := .null

def throughEnd (tx : TxId) (moves : ℕ) : List FleetAction :=
  List.replicate moves (.database (.run tx)) ++ [.database (.commit tx)]

/-- A worker claims the step, renews its lease once, reports the failure and is shut down. -/
def malformedShift : List FleetAction :=
  [.spawn 0 ⟨"worker", 30000⟩ false] ++ throughEnd 0 6 ++
    [.loop 0 (.claimAnswered (.claimed claimedMalformed)), .loop 0 .resume,
      .loop 0 (.renewalResumes 0)] ++ throughEnd 1 3 ++
    [.loop 0 (.executorSettled
        (.threw (.ofString "hash_after_delay payload must be an object, got null") true)), .loop 0 .resume,
      .loop 0 (.renewalAnswered 0 .renewed), .loop 0 (.renewalResumes 0), .loop 0 .resume] ++
    throughEnd 2 4 ++ [.loop 0 (.reportAnswered .accepted), .loop 0 .abort, .loop 0 .resume]

theorem worker_loops_refine_runtime_shift : ∃ s r,
    run (Fleet.step id) idleFleet malformedShift = some s ∧
      Reaches (Worker.step id) idleFleet.runtime r ∧ Matches id s r ∧
      (r.world.steps.find? 7).any (fun row => row.status = .deadLettered) = true := by
  have hrun : (run (Fleet.step id) idleFleet malformedShift).any (fun s =>
      (s.world.steps.find? 7).any fun row => row.status = .deadLettered) = true := by
    decide +kernel
  obtain ⟨s, hs, hdead⟩ := (Option.any_eq_true _ _).mp hrun
  obtain ⟨r, hr, hmatches⟩ := worker_loops_refine_runtime initial_idleFleet ⟨_, hs⟩
  exact ⟨s, r, hs, hr, hmatches, by rw [hmatches.world]; exact hdead⟩

end DurableRunner.Guarantees
