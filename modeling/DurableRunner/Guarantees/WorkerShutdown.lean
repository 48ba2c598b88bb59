import DurableRunner.Processes.Worker
import DurableRunner.Worker.LoopEnds

/-! # The end of a worker process -/
namespace DurableRunner.Guarantees
open Operations TransitionSystem Worker Processes
open Schema (WorkerId)

def reason? : WorkerAction → Option StopReason
  | .stop reason => some reason
  | _ => none

def firstReason (as : List WorkerAction) : Option StopReason := as.findSome? reason?

/-- Registered, no claim threw, the pool has been closed, and a signal was what stopped the worker. -/
def EndsWell (as : List WorkerAction) : Prop :=
  .registered true ∈ as ∧ .loop (.claimAnswered .threw) ∉ as ∧ .closed true ∈ as ∧
    firstReason as = some .signal

def inFlightIn (p : WorkerProcess) : Prop :=
  p.main = .registering none ∨ p.loop.phase = .claiming none ∨
    (∃ step outcome, p.loop.phase = .reporting step outcome none) ∨
    (∃ r ∈ p.loop.renewals, r.phase = .renewing none) ∨
    ∃ rest, p.heartbeat.phase = .calling rest false

structure EndsInOrder (o : LoopOptions) (as : List WorkerAction) (p : WorkerProcess) : Prop where
  /-- Its worker loop follows the protocol of worker loops. -/
  protocol : p.main = .working → FollowsProtocol o p.loop
  /-- The heartbeat is not told to stop before the worker loop has ended. -/
  beats : p.main = .working → p.heartbeat.aborted = false ∧ p.heartbeat.phase ≠ .returned
  /-- Whatever a registered process has claimed is reported, and the report answered, when it goes. -/
  reported : (∃ threw, p.main = .stopping threw) ∨ (∃ closed, p.main = .closing closed) ∨
      (∃ code, p.main = .exited code) ∧ .registered true ∈ as →
    ∃ blocks : List Block, (∀ b ∈ blocks, b.WellFormed) ∧
      p.loop.trace = blocks.flatMap (Block.events o) ++
        if threwClaim p.loop.phase then [.called (.claimNextStep o.workerId o.leaseDurationMs), .claimAnswered .threw] else []
  /-- The pool is closed with nothing in flight, and nothing is sent after. -/
  quiet : ∀ closed, p.main = .closing closed → ¬ inFlightIn p ∧
    ∀ q, Reaches (WorkerProcess.step o) p q → ¬ inFlightIn q ∧
      q.loop.trace = p.loop.trace ∧ q.heartbeat.sent = p.heartbeat.sent
  /-- The exit code tells whether the process has ended well. -/
  exits : ∀ code, p.main = .exited code → (code = 0 ∧ EndsWell as) ∨ (code = 1 ∧ ¬ EndsWell as)
  /-- It never exits of its own accord. -/
  asked : ∀ code, p.main = .exited code →
    .registered true ∉ as ∨ .loop (.claimAnswered .threw) ∈ as ∨ (firstReason as).isSome = true

section Safety
variable {o : LoopOptions} {as : List WorkerAction} {a : WorkerAction} {p q : WorkerProcess}

/-- Which of the answers that matter for the exit code have come. -/
structure Happened (as : List WorkerAction) (registered threw closed : Prop) : Prop where
  registered : .registered true ∈ as ↔ registered
  threw : .loop (.claimAnswered .threw) ∈ as ↔ threw
  closed : .closed true ∈ as ↔ closed

theorem Happened.concat {registered threw closed registered' threw' closed' : Prop}
    (h : Happened as registered threw closed) (hregistered : registered ∨ .registered true = a ↔ registered')
    (hthrew : threw ∨ .loop (.claimAnswered .threw) = a ↔ threw')
    (hclosed : closed ∨ .closed true = a ↔ closed') : Happened (as ++ [a]) registered' threw' closed' where
  registered := by rw [List.mem_append, h.registered, List.mem_singleton, hregistered]
  threw := by rw [List.mem_append, h.threw, List.mem_singleton, hthrew]
  closed := by rw [List.mem_append, h.closed, List.mem_singleton, hclosed]

theorem Happened.quiet {registered threw closed : Prop} (h : Happened as registered threw closed)
    (ha : .registered true ≠ a) (ha' : .loop (.claimAnswered .threw) ≠ a) (ha'' : .closed true ≠ a) :
    Happened (as ++ [a]) registered threw closed :=
  h.concat (by simp [ha]) (by simp [ha']) (by simp [ha''])

inductive Standing (o : LoopOptions) (as : List WorkerAction) (p : WorkerProcess) : Prop
  | registering {registered} (hmain : p.main = .registering registered)
      (hloop : p.loop.phase = .returned) (hrenewals : p.loop.renewals = [])
      (hheartbeat : p.heartbeat.phase = .returned)
      (h : Happened as (registered = some true) False False)
  | working (hmain : p.main = .working) (hloop : IsSequential o p.loop)
      (hreturned : p.loop.phase = .returned → p.loop.aborted = true)
      (hbeats : p.heartbeat.aborted = false ∧ p.heartbeat.phase ≠ .returned)
      (h : Happened as True (threwClaim p.loop.phase = true) False)
  | stopping {threw} (hmain : p.main = .stopping threw) (hloop : IsSequential o p.loop)
      (hover : p.loop.phase = if threw then .rejected else .returned)
      (hreturned : p.loop.phase = .returned → p.loop.aborted = true)
      (hbeats : p.heartbeat.aborted = true) (h : Happened as True (threw = true) False)
  | closing {closed} (hmain : p.main = .closing closed) (hloop : IsSequential o p.loop)
      (hreturned : p.loop.phase = .returned) (haborted : p.loop.aborted = true)
      (hheartbeat : p.heartbeat.phase = .returned) (h : Happened as True False (closed = some true))
  | exited {code} (hmain : p.main = .exited code)
      (hloop : .registered true ∈ as → IsSequential o p.loop ∧ p.loop.Over)
      (hcode : (code = 0 ∧ EndsWell as) ∨ (code = 1 ∧ ¬ EndsWell as))
      (hasked : .registered true ∉ as ∨ .loop (.claimAnswered .threw) ∈ as ∨
        (firstReason as).isSome = true)

/-- Where a process stands, its signal as the requests have left it. -/
structure StandsAt (o : LoopOptions) (as : List WorkerAction) (p : WorkerProcess) : Prop where
  standing : Standing o as p
  stop : p.stop = .requested (firstReason as)
  aborted : p.loop.aborted = p.stop.aborted

theorem standsAt_start (o : LoopOptions) : StandsAt o [] (.start o) where
  standing := .registering rfl rfl rfl rfl ⟨by split <;> simp, by simp, by simp⟩
  stop := rfl
  aborted := rfl

theorem firstReason_concat_stop (as : List WorkerAction) (reason : StopReason) :
    firstReason (as ++ [.stop reason]) = (firstReason as).or (some reason) := by
  simp [firstReason, List.findSome?_append, reason?]

theorem firstReason_concat (h : reason? a = none) : firstReason (as ++ [a]) = firstReason as := by
  simp [firstReason, List.findSome?_append, h]

theorem isSequential_request {s : LoopState} (h : IsSequential o s) :
    IsSequential o { s with aborted := true } :=
  h.step (show s.step o .abort = some _ from rfl)

theorem StandsAt.request (h : StandsAt o as p) (hrunning : p.isRunning = true) (reason : StopReason) :
    StandsAt o (as ++ [.stop reason]) (p.request reason) where
  standing := by
    cases h.standing with
    | registering hmain hloop hrenewals hheartbeat h =>
      exact .registering hmain hloop hrenewals hheartbeat (h.quiet nofun nofun nofun)
    | working hmain hloop hreturned hbeats h =>
      exact .working hmain (isSequential_request hloop) (fun _ => rfl) hbeats (h.quiet nofun nofun nofun)
    | stopping hmain hloop hover hreturned hbeats h =>
      exact .stopping hmain (isSequential_request hloop) hover (fun _ => rfl) hbeats (h.quiet nofun nofun nofun)
    | closing hmain hloop hreturned haborted hheartbeat h =>
      exact .closing hmain (isSequential_request hloop) hreturned rfl hheartbeat (h.quiet nofun nofun nofun)
    | exited hmain => simp [WorkerProcess.isRunning, hmain] at hrunning
  stop := by
    show p.stop.request reason = _
    rw [h.stop, StopSignal.request_requested, firstReason_concat_stop]
  aborted := (StopSignal.aborted_request _ _).symm

structure Quiet (p : WorkerProcess) : Prop where
  main : (∃ closed, p.main = .closing closed) ∨ ∃ code, p.main = .exited code
  loop : p.loop.phase = .returned
  renewals : AllDone p.loop.renewals
  heartbeat : p.heartbeat.phase = .returned

theorem Quiet.not_inFlight (h : Quiet p) : ¬ inFlightIn p := by
  rintro (hmain | hloop | ⟨_, _, hloop⟩ | ⟨r, hr, hphase⟩ | ⟨_, hheartbeat⟩)
  · rcases h.main with ⟨_, hmain'⟩ | ⟨_, hmain'⟩ <;> simp [hmain'] at hmain
  · simp [h.loop] at hloop
  · simp [h.loop] at hloop
  · simp [h.renewals r hr] at hphase
  · simp [h.heartbeat] at hheartbeat

theorem Quiet.step (h : Quiet p) (hstep : p.step o a = some q) :
    Quiet q ∧ q.loop.trace = p.loop.trace ∧ q.heartbeat.sent = p.heartbeat.sent := by
  have hmain := h.main
  cases (workerMove_of_step hstep).2 with
  | stop reason => exact ⟨⟨h.main, h.loop, h.renewals, h.heartbeat⟩, rfl, rfl⟩
  | loop ha hloop => simp [step_of_over (.inl h.loop) h.renewals ha] at hloop
  | heartbeat ha hheartbeat => simp [step_of_returned h.heartbeat ha] at hheartbeat
  | closed => exact ⟨⟨.inl ⟨_, rfl⟩, h.loop, h.renewals, h.heartbeat⟩, rfl, rfl⟩
  | exited => exact ⟨⟨.inr ⟨_, rfl⟩, h.loop, h.renewals, h.heartbeat⟩, rfl, rfl⟩
  | registered hmain' | worked hmain' | unregistered hmain' | loopEnded hmain' | heartbeatEnded hmain'
  | gaveUp hmain' => simp [hmain'] at hmain

theorem Quiet.reaches (h : Quiet p) (hreach : Reaches (WorkerProcess.step o) p q) :
    Quiet q ∧ q.loop.trace = p.loop.trace ∧ q.heartbeat.sent = p.heartbeat.sent := by
  refine hreach.rec_tail (motive := fun q => Quiet q ∧ q.loop.trace = p.loop.trace ∧
    q.heartbeat.sent = p.heartbeat.sent) ⟨h, rfl, rfl⟩ ?_
  rintro m a q - ⟨hm, htrace, hsent⟩ hstep
  obtain ⟨hq, htrace', hsent'⟩ := hm.step hstep
  exact ⟨hq, htrace'.trans htrace, hsent'.trans hsent⟩

/-- A move of the worker loop leaves `main` where it is. -/
theorem Standing.loop (h : Standing o as p) (hrunning : p.isRunning = true) {action : LoopAction}
    {loop : LoopState} (ha : action ≠ .abort) (hstep : p.loop.step o action = some loop) :
    Standing o (as ++ [.loop action]) { p with loop } := by
  have hnot : p.loop.Over → AllDone p.loop.renewals → False := by
    intro hover hdone
    simp [step_of_over hover hdone ha] at hstep
  cases h with
  | registering hmain hloop hrenewals => exact (hnot (.inl hloop) (by simp [AllDone, hrenewals])).elim
  | working hmain hloop hreturned hbeats h =>
    obtain ⟨haborted, hreturns⟩ := aborted_of_step hstep ha
    refine .working hmain (hloop.step hstep) (fun hphase => ?_) hbeats (h.concat (by simp) ?_ (by simp))
    · rw [haborted]
      exact (hreturns hphase).elim hreturned id
    · rw [threwClaim_of_move (loopMove_of_step hstep), WorkerAction.loop.injEq]
      exact or_congr_right eq_comm
  | @stopping threw hmain hloop hover =>
    have hover' : p.loop.Over := by
      cases threw
      · exact .inl hover
      · exact .inr hover
    exact (hnot hover' (allDone_of_over hloop hover')).elim
  | closing hmain hloop hreturned =>
    exact (hnot (.inl hreturned) (allDone_of_over hloop (.inl hreturned))).elim
  | exited hmain => simp [WorkerProcess.isRunning, hmain] at hrunning

theorem Standing.heartbeat (h : Standing o as p) (hrunning : p.isRunning = true)
    {action : IntervalAction} {heartbeat : IntervalState WorkerId} (ha : action ≠ .abort)
    (hstep : p.heartbeat.step (heartbeatLoop o.workerId) action = some heartbeat) :
    Standing o (as ++ [.heartbeat action]) { p with heartbeat } := by
  have hnot : p.heartbeat.phase ≠ .returned := by
    intro hphase
    simp [step_of_returned hphase ha] at hstep
  cases h with
  | registering hmain hloop hrenewals hheartbeat => exact absurd hheartbeat hnot
  | working hmain hloop hreturned hbeats h =>
    exact .working hmain hloop hreturned (not_returned_of_step hbeats.1 hstep ha) (h.quiet nofun nofun nofun)
  | stopping hmain hloop hover hreturned hbeats h =>
    exact .stopping hmain hloop hover hreturned (owed_of_step hbeats hstep).1 (h.quiet nofun nofun nofun)
  | closing hmain hloop hreturned haborted hheartbeat => exact absurd hheartbeat hnot
  | exited hmain => simp [WorkerProcess.isRunning, hmain] at hrunning

/-- What the actions so far say about the exit. -/
theorem endsWell_concat_resume : EndsWell (as ++ [.resume]) ↔ EndsWell as := by
  unfold EndsWell
  rw [firstReason_concat rfl]
  simp

/-- A process that closes its pool exits with what its first stop request was. -/
theorem exitCode_of_closed {ok : Bool} (h : Happened as True False (some ok = some true))
    (hstop : p.stop = .requested (firstReason as)) (haborted : p.stop.aborted = true) :
    ((if ok then p.stop.exitCode else 1) = 0 ∧ EndsWell as) ∨
      ((if ok then p.stop.exitCode else 1) = 1 ∧ ¬ EndsWell as) := by
  have hregistered : .registered true ∈ as := h.registered.mpr trivial
  have hthrew : .loop (.claimAnswered .threw) ∉ as := h.threw.mp
  cases ok with
  | false => exact .inr ⟨rfl, fun hends => by simpa using h.closed.mp hends.2.2.1⟩
  | true =>
    have hclosed : .closed true ∈ as := h.closed.mpr rfl
    rw [hstop, StopSignal.aborted_requested, Option.isSome_iff_exists] at haborted
    obtain ⟨reason, hreason⟩ := haborted
    rw [hstop, hreason]
    cases reason with
    | signal => exact .inl ⟨rfl, hregistered, hthrew, hclosed, hreason⟩
    | credentialRejected => exact .inr ⟨rfl, fun hends => by simpa [hreason] using hends.2.2.2⟩

theorem StandsAt.step (h : StandsAt o as p) (hstep : p.step o a = some q) :
    StandsAt o (as ++ [a]) q := by
  obtain ⟨hrunning, hmove⟩ := workerMove_of_step hstep
  obtain ⟨hstanding, hstop, haborted⟩ := h
  cases hmove with
  | stop reason => exact StandsAt.request ⟨hstanding, hstop, haborted⟩ hrunning reason
  | loop ha hloop =>
    refine ⟨hstanding.loop hrunning ha hloop, ?_, (aborted_of_step hloop ha).1.trans haborted⟩
    rw [firstReason_concat rfl, ← hstop]
  | heartbeat ha hheartbeat =>
    refine ⟨hstanding.heartbeat hrunning ha hheartbeat, ?_, haborted⟩
    rw [firstReason_concat rfl, ← hstop]
  | @registered ok hmain =>
    refine ⟨?_, by rw [firstReason_concat rfl, ← hstop], haborted⟩
    cases hstanding with
    | registering hmain' hloop hrenewals hheartbeat h =>
      obtain rfl := WorkerMain.registering.inj (hmain.symm.trans hmain')
      refine .registering rfl hloop hrenewals hheartbeat (h.concat ?_ (by simp) (by simp))
      cases ok <;> simp
    | working hmain' | stopping hmain' | closing hmain' | exited hmain' => simp [hmain] at hmain'
  | @closed ok hmain =>
    refine ⟨?_, by rw [firstReason_concat rfl, ← hstop], haborted⟩
    cases hstanding with
    | closing hmain' hloop hreturned haborted' hheartbeat h =>
      obtain rfl := WorkerMain.closing.inj (hmain.symm.trans hmain')
      refine .closing rfl hloop hreturned haborted' hheartbeat (h.concat (by simp) (by simp) ?_)
      cases ok <;> simp
    | working hmain' | stopping hmain' | registering hmain' | exited hmain' => simp [hmain] at hmain'
  | worked hmain =>
    refine ⟨?_, by rw [firstReason_concat rfl]; exact hstop, aborted_head _⟩
    cases hstanding with
    | registering hmain' _ _ _ h =>
      obtain rfl := WorkerMain.registering.inj (hmain.symm.trans hmain')
      obtain ⟨rest, hstart⟩ := sequential_start o p.stop.aborted
      refine .working rfl ⟨_, _, _, hstart⟩ ?_ ⟨rfl, not_returned_proceed rfl []⟩
        (h.concat (by simp) ?_ (by simp))
      · exact fun hreturned => (aborted_head _).trans (aborted_of_head hreturned)
      · show _ ↔ threwClaim (LoopState.head o _).phase = true
        rw [threwClaim_head]
        simp
    | working hmain' | stopping hmain' | closing hmain' | exited hmain' => simp [hmain] at hmain'
  | unregistered hmain =>
    refine ⟨?_, by rw [firstReason_concat rfl]; exact hstop, haborted⟩
    cases hstanding with
    | registering hmain' _ _ _ h =>
      obtain rfl := WorkerMain.registering.inj (hmain.symm.trans hmain')
      have hnot : .registered true ∉ as := by simp [h.registered]
      refine .exited rfl (fun hmem => ?_) (.inr ⟨rfl, ?_⟩) (.inl (by simpa using hnot))
      · simp [hnot] at hmem
      · rw [endsWell_concat_resume]
        exact fun hends => hnot hends.1
    | working hmain' | stopping hmain' | closing hmain' | exited hmain' => simp [hmain] at hmain'
  | @loopEnded threw hmain hphase =>
    refine ⟨?_, by rw [firstReason_concat rfl]; exact hstop, haborted⟩
    cases hstanding with
    | working hmain' hloop hreturned hbeats h =>
      refine .stopping rfl hloop hphase hreturned rfl (h.concat (by simp) ?_ (by simp))
      cases threw <;> simp [hphase, threwClaim]
    | registering hmain' | stopping hmain' | closing hmain' | exited hmain' => simp [hmain] at hmain'
  | heartbeatEnded hmain hphase =>
    refine ⟨?_, by rw [firstReason_concat rfl]; exact hstop, haborted⟩
    cases hstanding with
    | stopping hmain' hloop hover hreturned hbeats h =>
      obtain rfl := WorkerMain.stopping.inj (hmain.symm.trans hmain')
      exact .closing rfl hloop hover (hreturned hover) hphase (h.concat (by simp) (by simp) (by simp))
    | registering hmain' | working hmain' | closing hmain' | exited hmain' => simp [hmain] at hmain'
  | gaveUp hmain hphase =>
    refine ⟨?_, by rw [firstReason_concat rfl]; exact hstop, haborted⟩
    cases hstanding with
    | stopping hmain' hloop hover hreturned hbeats h =>
      obtain rfl := WorkerMain.stopping.inj (hmain.symm.trans hmain')
      refine .exited rfl (fun _ => ⟨hloop, .inr hover⟩) (.inr ⟨rfl, ?_⟩)
        (.inr (.inl (by simp [h.threw])))
      rw [endsWell_concat_resume]
      exact fun hends => hends.2.1 (h.threw.mpr rfl)
    | registering hmain' | working hmain' | closing hmain' | exited hmain' => simp [hmain] at hmain'
  | @exited ok hmain =>
    refine ⟨?_, by rw [firstReason_concat rfl]; exact hstop, haborted⟩
    cases hstanding with
    | closing hmain' hloop hreturned haborted' hheartbeat h =>
      obtain rfl := WorkerMain.closing.inj (hmain.symm.trans hmain')
      have hasked : (firstReason as).isSome = true := by
        rw [← StopSignal.aborted_requested, ← hstop, ← haborted, haborted']
      refine .exited rfl (fun _ => ⟨hloop, .inl hreturned⟩) ?_
        (.inr (.inr (by rwa [firstReason_concat rfl])))
      rw [endsWell_concat_resume]
      exact exitCode_of_closed h hstop (haborted ▸ haborted')
    | registering hmain' | working hmain' | stopping hmain' | exited hmain' => simp [hmain] at hmain'

theorem standsAt_of_run (h : run (WorkerProcess.step o) (.start o) as = some p) :
    StandsAt o as p := by
  induction as using List.reverseRecOn generalizing p with
  | nil =>
    obtain rfl := Option.some.inj h
    exact standsAt_start o
  | append_singleton as a ih =>
    obtain ⟨m, hm, hstep⟩ := (run_concat_eq_some _).mp h
    exact (ih hm).step hstep

theorem StandsAt.quiet (h : StandsAt o as p) {closed : Option Bool} (hmain : p.main = .closing closed) :
    Quiet p := by
  cases h.standing with
  | closing hmain' hloop hreturned haborted hheartbeat =>
    exact ⟨.inl ⟨_, hmain'⟩, hreturned, allDone_of_over hloop (.inl hreturned), hheartbeat⟩
  | registering hmain' | working hmain' | stopping hmain' | exited hmain' => simp [hmain] at hmain'

theorem StandsAt.over (h : StandsAt o as p) (hgone : (∃ threw, p.main = .stopping threw) ∨
    (∃ closed, p.main = .closing closed) ∨ (∃ code, p.main = .exited code) ∧ .registered true ∈ as) :
    IsSequential o p.loop ∧ p.loop.Over := by
  cases h.standing with
  | @stopping threw hmain hloop hover =>
    cases threw
    · exact ⟨hloop, .inl hover⟩
    · exact ⟨hloop, .inr hover⟩
  | closing hmain hloop hreturned => exact ⟨hloop, .inl hreturned⟩
  | exited hmain hloop =>
    refine hloop ?_
    simpa [hmain] using hgone
  | registering hmain | working hmain => simp [hmain] at hgone

theorem endsInOrder_of_standsAt (h : StandsAt o as p) : EndsInOrder o as p where
  protocol hmain := by
    cases h.standing with
    | working _ hloop => exact followsProtocol_of_sequential hloop
    | registering hmain' | stopping hmain' | closing hmain' | exited hmain' => simp [hmain] at hmain'
  beats hmain := by
    cases h.standing with
    | working _ _ _ hbeats => exact hbeats
    | registering hmain' | stopping hmain' | closing hmain' | exited hmain' => simp [hmain] at hmain'
  reported hgone := by
    obtain ⟨hloop, hover⟩ := h.over hgone
    exact trace_of_over hloop hover
  quiet closed hmain := by
    have hquiet := h.quiet hmain
    refine ⟨hquiet.not_inFlight, fun q hreach => ?_⟩
    obtain ⟨hq, htrace, hsent⟩ := hquiet.reaches hreach
    exact ⟨hq.not_inFlight, htrace, hsent⟩
  exits code hmain := by
    cases h.standing with
    | exited hmain' _ hcode =>
      obtain rfl := WorkerMain.exited.inj (hmain.symm.trans hmain')
      exact hcode
    | registering hmain' | working hmain' | stopping hmain' | closing hmain' => simp [hmain] at hmain'
  asked code hmain := by
    cases h.standing with
    | exited _ _ _ hasked => exact hasked
    | registering hmain' | working hmain' | stopping hmain' | closing hmain' => simp [hmain] at hmain'

end Safety

/-- A worker process goes in order, whatever happens and whenever it is told to stop. -/
theorem worker_process_ends_in_order {o : LoopOptions} {as : List WorkerAction} {p : WorkerProcess}
    (h : run (WorkerProcess.step o) (.start o) as = some p) : EndsInOrder o as p :=
  endsInOrder_of_standsAt (standsAt_of_run h)

/-- SIGTERM while a claimed step is executed; its password is rejected after that. -/
def terminatedMidStep : List WorkerAction :=
  [.registered true, .resume, .loop (.claimAnswered (.claimed claimedOnce)), .loop .resume,
    .loop (.renewalResumes 0), .heartbeat .resume, .stop .signal, .loop (.executorSettled (.threw [] true)),
    .loop .resume, .loop (.renewalAnswered 0 .renewed), .loop (.renewalResumes 0), .loop .resume,
    .loop (.reportAnswered .accepted), .stop .credentialRejected, .loop .resume, .resume,
    .heartbeat .answered, .heartbeat .resume, .resume, .closed true, .resume]

theorem worker_process_ends_in_order_terminated : ∃ p,
    run (WorkerProcess.step ⟨"worker-a", 30000⟩) (.start ⟨"worker-a", 30000⟩) terminatedMidStep = some p ∧
      p.main = .exited 0 ∧ EndsWell terminatedMidStep := by
  have hrun : (run (WorkerProcess.step ⟨"worker-a", 30000⟩) (.start ⟨"worker-a", 30000⟩)
      terminatedMidStep).map WorkerProcess.main = some (.exited 0) := by decide +kernel
  obtain ⟨p, hp, hmain⟩ := Option.map_eq_some_iff.mp hrun
  have horder := worker_process_ends_in_order hp
  rcases horder.exits 0 hmain with ⟨-, hends⟩ | ⟨hcode, -⟩
  · exact ⟨p, hp, hmain, hends⟩
  · cases hcode
end DurableRunner.Guarantees
