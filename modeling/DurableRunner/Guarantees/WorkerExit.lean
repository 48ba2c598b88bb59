import DurableRunner.Guarantees.WorkerShutdown

/-! # A worker process that is told to stop exits -/
namespace DurableRunner.Guarantees
open Operations TransitionSystem Worker Processes
open Schema (WorkerId)

/-- Every statement is answered, executors end, and whatever can go on does. -/
structure FairWorker {o : LoopOptions} (e : Execution (WorkerProcess.step o)) : Prop where
  resumes : e.WeaklyFair fun a => a = .resume
  registers : e.WeaklyFair fun a => ∃ ok, a = .registered ok
  closes : e.WeaklyFair fun a => ∃ ok, a = .closed ok
  loops : e.WeaklyFair fun a => a = .loop .resume
  executors : e.WeaklyFair fun a => ∃ outcome, a = .loop (.executorSettled outcome)
  claims : e.WeaklyFair fun a => ∃ answer, a = .loop (.claimAnswered answer)
  reports : e.WeaklyFair fun a => ∃ answer, a = .loop (.reportAnswered answer)
  answers : ∀ i, e.WeaklyFair fun a => ∃ answer, a = .loop (.renewalAnswered i answer)
  renewals : ∀ i, e.WeaklyFair fun a => a = .loop (.renewalResumes i)
  beats : e.WeaklyFair fun a => a = .heartbeat .answered
  wakes : e.WeaklyFair fun a => a = .heartbeat .resume

/-- What makes the process end: a stop request, a failed registration or a claim that threw. -/
def IsEnding (p : WorkerProcess) : Prop :=
  p.stop.aborted = true ∨ p.main = .registering (some false) ∨
    p.main = .working ∧ threwClaim p.loop.phase = true

def Exited (p : WorkerProcess) : Prop := ∃ code, p.main = .exited code

section Liveness
variable {o : LoopOptions} {p q : WorkerProcess} {a : WorkerAction}

theorem isRunning_of_main {main : WorkerMain} (hmain : p.main = main) (hnot : ∀ code, main ≠ .exited code) :
    p.isRunning = true := by
  unfold WorkerProcess.isRunning
  split
  · rename_i code h
    exact absurd (hmain.symm.trans h) (hnot code)
  · rfl

theorem isRunning_of_not_exited (h : ¬ Exited p) : p.isRunning = true := by
  unfold WorkerProcess.isRunning
  split
  · rename_i code hmain
    exact absurd ⟨code, hmain⟩ h
  · rfl

theorem aborted_kept (p : WorkerProcess) (a : WorkerAction) (q : WorkerProcess)
    (h : p.stop.aborted = true) (hstep : p.step o a = some q) : q.stop.aborted = true := by
  cases (workerMove_of_step hstep).2 with
  | stop reason => exact StopSignal.aborted_request _ _
  | loop | heartbeat | registered | closed | worked | unregistered | loopEnded | heartbeatEnded | gaveUp
  | exited => exact h

def loopPart : WorkerAction → Option LoopAction
  | .stop _ => some .abort
  | .loop action => some action
  | _ => none

theorem loop_of_step (hmain : p.main ≠ .registering (some true)) (hstep : p.step o a = some q) :
    (loopPart a).elim (some p.loop) (p.loop.step o) = some q.loop := by
  cases (workerMove_of_step hstep).2 with
  | loop ha hloop => exact hloop
  | worked hmain' => exact absurd hmain' hmain
  | stop | heartbeat | registered | closed | unregistered | loopEnded | heartbeatEnded | gaveUp
  | exited => rfl

/-- What an action is to the heartbeat, once it has been told to stop. -/
def heartbeatPart : WorkerAction → Option IntervalAction
  | .heartbeat action => some action
  | _ => none

def LoopIsOver (p : WorkerProcess) : Prop :=
  p.main ≠ .working ∧ ∀ registered, p.main ≠ .registering registered

theorem heartbeat_of_step (hover : LoopIsOver p) (hstep : p.step o a = some q) :
    (heartbeatPart a).elim (some p.heartbeat) (p.heartbeat.step (heartbeatLoop o.workerId)) =
      some q.heartbeat := by
  cases (workerMove_of_step hstep).2 with
  | heartbeat ha hheartbeat => exact hheartbeat
  | worked hmain => exact absurd hmain (hover.2 _)
  | loopEnded hmain => exact absurd hmain hover.1
  | stop | loop | registered | closed | unregistered | heartbeatEnded | gaveUp | exited => rfl

theorem registered_kept (p : WorkerProcess) (a : WorkerAction) (q : WorkerProcess)
    (h : ∀ registered, p.main ≠ .registering registered) (hstep : p.step o a = some q) :
    ∀ registered, q.main ≠ .registering registered := by
  cases (workerMove_of_step hstep).2 with
  | stop | loop | heartbeat => exact h
  | registered hmain => exact absurd hmain (h _)
  | closed | worked | unregistered | loopEnded | heartbeatEnded | gaveUp | exited => nofun

theorem loopIsOver_kept (p : WorkerProcess) (a : WorkerAction) (q : WorkerProcess) (h : LoopIsOver p)
    (hstep : p.step o a = some q) : LoopIsOver q := by
  refine ⟨?_, registered_kept p a q h.2 hstep⟩
  cases (workerMove_of_step hstep).2 with
  | stop | loop | heartbeat => exact h.1
  | worked hmain => exact absurd hmain (h.2 _)
  | registered | closed | unregistered | loopEnded | heartbeatEnded | gaveUp | exited => nofun

theorem step_loop {action : LoopAction} {loop : LoopState} (hrunning : p.isRunning = true)
    (ha : action ≠ .abort) (hstep : p.loop.step o action = some loop) :
    p.step o (.loop action) = some { p with loop } := by
  have hadvance : p.advance o (.loop action) = (p.loop.step o action).map fun loop => { p with loop } := by
    cases action with
    | abort => exact absurd rfl ha
    | claimAnswered | executorSettled | reportAnswered | renewalAnswered | resume | renewalResumes => rfl
  rw [WorkerProcess.step, if_pos hrunning, hadvance, hstep, Option.map_some]

theorem step_heartbeat {action : IntervalAction} {heartbeat : IntervalState WorkerId}
    (hrunning : p.isRunning = true) (ha : action ≠ .abort)
    (hstep : p.heartbeat.step (heartbeatLoop o.workerId) action = some heartbeat) :
    p.step o (.heartbeat action) = some { p with heartbeat } := by
  have hadvance : p.advance o (.heartbeat action) =
      (p.heartbeat.step (heartbeatLoop o.workerId) action).map fun heartbeat => { p with heartbeat } := by
    cases action with
    | abort => exact absurd rfl ha
    | answered | resume => rfl
  rw [WorkerProcess.step, if_pos hrunning, hadvance, hstep, Option.map_some]

section Parts
variable (e : Execution (WorkerProcess.step o)) (n : ℕ)

def loopOf (h : ∀ m, (e.state (n + m)).main ≠ .registering (some true)) :
    Execution (LoopState.step o) :=
  (e.drop n).component (fun p => p.loop) loopPart fun m _ ha =>
    loop_of_step (h m) ((e.drop n).step_of_action ha)

def heartbeatOf (h : ∀ m, LoopIsOver (e.state (n + m))) :
    Execution (IntervalState.step (heartbeatLoop o.workerId)) :=
  (e.drop n).component (fun p => p.heartbeat) heartbeatPart fun m _ ha =>
    heartbeat_of_step (h m) ((e.drop n).step_of_action ha)

end Parts

variable {e : Execution (WorkerProcess.step o)} {n : ℕ}

/-- The worker loop of a fair process is fair. -/
theorem fairCalls_loopOf (hfair : FairWorker e)
    (h : ∀ m, (e.state (n + m)).main ≠ .registering (some true)) (hruns : ∀ m, ¬ Exited (e.state (n + m))) :
    FairCalls (loopOf e n h) where
  resumes := by
    refine (hfair.loops.drop n).component (fun _ ha => ⟨_, ha ▸ rfl, rfl⟩) ?_
    rintro m ⟨_, t, rfl, hstep⟩
    exact ⟨_, _, rfl, step_loop (isRunning_of_not_exited (hruns m)) nofun hstep⟩
  executors := by
    refine (hfair.executors.drop n).component (fun _ ⟨outcome, ha⟩ => ⟨_, ha ▸ rfl, outcome, rfl⟩) ?_
    rintro m ⟨_, t, ⟨outcome, rfl⟩, hstep⟩
    exact ⟨_, _, ⟨outcome, rfl⟩, step_loop (isRunning_of_not_exited (hruns m)) nofun hstep⟩
  answers i := by
    refine ((hfair.answers i).drop n).component (fun _ ⟨answer, ha⟩ => ⟨_, ha ▸ rfl, answer, rfl⟩) ?_
    rintro m ⟨_, t, ⟨answer, rfl⟩, hstep⟩
    exact ⟨_, _, ⟨answer, rfl⟩, step_loop (isRunning_of_not_exited (hruns m)) nofun hstep⟩
  renewals i := by
    refine ((hfair.renewals i).drop n).component (fun _ ha => ⟨_, ha ▸ rfl, rfl⟩) ?_
    rintro m ⟨_, t, rfl, hstep⟩
    exact ⟨_, _, rfl, step_loop (isRunning_of_not_exited (hruns m)) nofun hstep⟩
  claims := by
    refine (hfair.claims.drop n).component (fun _ ⟨answer, ha⟩ => ⟨_, ha ▸ rfl, answer, rfl⟩) ?_
    rintro m ⟨_, t, ⟨answer, rfl⟩, hstep⟩
    exact ⟨_, _, ⟨answer, rfl⟩, step_loop (isRunning_of_not_exited (hruns m)) nofun hstep⟩
  reports := by
    refine (hfair.reports.drop n).component (fun _ ⟨answer, ha⟩ => ⟨_, ha ▸ rfl, answer, rfl⟩) ?_
    rintro m ⟨_, t, ⟨answer, rfl⟩, hstep⟩
    exact ⟨_, _, ⟨answer, rfl⟩, step_loop (isRunning_of_not_exited (hruns m)) nofun hstep⟩

theorem fairInterval_heartbeatOf (hfair : FairWorker e) (h : ∀ m, LoopIsOver (e.state (n + m)))
    (hruns : ∀ m, ¬ Exited (e.state (n + m))) : FairInterval (heartbeatOf e n h) where
  answers := by
    refine (hfair.beats.drop n).component (fun _ ha => ⟨_, ha ▸ rfl, rfl⟩) ?_
    rintro m ⟨_, t, rfl, hstep⟩
    exact ⟨_, _, rfl, step_heartbeat (isRunning_of_not_exited (hruns m)) nofun hstep⟩
  resumes := by
    refine (hfair.wakes.drop n).component (fun _ ha => ⟨_, ha ▸ rfl, rfl⟩) ?_
    rintro m ⟨_, t, rfl, hstep⟩
    exact ⟨_, _, rfl, step_heartbeat (isRunning_of_not_exited (hruns m)) nofun hstep⟩

/-- `main` goes on when what it awaits is settled, while something else is kept. -/
theorem resumed_leadsTo (main : WorkerMain) {r q : WorkerProcess → Prop} (hfair : FairWorker e)
    (hkept : ∀ p a p', r p → p.step o a = some p' → r p')
    (hresume : ∀ p, p.main = main → r p → ∃ p', p.resume o = some p' ∧ q p') :
    e.LeadsTo (fun p => p.main = main ∧ r p) fun p => q p ∧ r p := by
  have hstep : ∀ p, p.main = main → r p → p.step o .resume = p.resume o := by
    intro p hmain hr
    obtain ⟨p', hp', -⟩ := hresume p hmain hr
    refine if_pos (isRunning_of_main rfl fun code hcode => ?_)
    simp [WorkerProcess.resume, hcode] at hp'
  refine .of_weaklyFair hfair.resumes ?_ ?_ ?_
  · rintro p ⟨hmain, hr⟩
    obtain ⟨p', hp', -⟩ := hresume p hmain hr
    exact ⟨_, p', rfl, (hstep p hmain hr).trans hp'⟩
  · rintro p a p'' ⟨hmain, hr⟩ hmoved
    obtain ⟨p', hp', hq⟩ := hresume p hmain hr
    by_cases ha : a = .resume
    · subst ha
      obtain rfl := Option.some.inj (hmoved.symm.trans ((hstep p hmain hr).trans hp'))
      exact .inr ⟨hq, hkept _ _ _ hr hmoved⟩
    · refine .inl ⟨?_, hkept _ _ _ hr hmoved⟩
      cases (workerMove_of_step hmoved).2 with
      | stop | loop | heartbeat => exact hmain
      | registered hnone | closed hnone => simp [WorkerProcess.resume, hnone] at hp'
      | worked | unregistered | loopEnded | heartbeatEnded | gaveUp | exited => exact absurd rfl ha
  · rintro p a p'' ⟨hmain, hr⟩ rfl hmoved
    obtain ⟨p', hp', hq⟩ := hresume p hmain hr
    obtain rfl := Option.some.inj (hmoved.symm.trans ((hstep p hmain hr).trans hp'))
    exact ⟨hq, hkept _ _ _ hr hmoved⟩

theorem kept_true (p : WorkerProcess) (a : WorkerAction) (q : WorkerProcess) (_ : True)
    (_ : p.step o a = some q) : True := trivial

theorem closing_leadsTo (hfair : FairWorker e) (closed : Option Bool) :
    e.LeadsTo (fun p => p.main = .closing closed) Exited := by
  have hresume : ∀ ok (p : WorkerProcess), p.main = .closing (some ok) →
      p.step o .resume = some (p.exit (if ok then p.stop.exitCode else 1)) := by
    intro ok p hmain
    cases ok <;>
      simp [WorkerProcess.step, WorkerProcess.isRunning, WorkerProcess.advance, WorkerProcess.resume, hmain]
  refine .of_answered (fun closed p => p.main = .closing closed) hfair.closes hfair.resumes
    ?_ (fun ok p hmain => ⟨_, _, rfl, hresume ok p hmain⟩) ?_ ?_ closed
  · intro p hmain
    refine ⟨.closed true, { p with main := .closing (some true) }, ⟨true, rfl⟩, ?_⟩
    rw [WorkerProcess.step, if_pos (isRunning_of_main hmain (by simp)), WorkerProcess.advance, hmain]
  · intro p a p' hmain hstep
    cases (workerMove_of_step hstep).2 with
    | stop | loop | heartbeat => exact .inl ⟨hmain, by simp⟩
    | closed => exact .inr ⟨_, rfl⟩
    | registered hmain' | worked hmain' | unregistered hmain' | loopEnded hmain' | heartbeatEnded hmain'
    | gaveUp hmain' | exited hmain' => simp [hmain] at hmain'
  · intro ok p a p' hmain hstep
    by_cases ha : a = .resume
    · subst ha
      obtain rfl := Option.some.inj ((hresume ok p hmain).symm.trans hstep)
      exact .inr ⟨_, rfl⟩
    · cases (workerMove_of_step hstep).2 with
      | stop | loop | heartbeat => exact .inl ⟨hmain, ha⟩
      | registered hmain' | closed hmain' => simp [hmain] at hmain'
      | worked | unregistered | loopEnded | heartbeatEnded | gaveUp | exited => exact absurd rfl ha

/-- Told to stop, the heartbeat is awaited, and then the pool is closed or the process exits. -/
def Leaving (threw : Bool) (p : WorkerProcess) : Prop :=
  (p.main = .stopping threw ∧ p.heartbeat.aborted = true) ∨ (∃ closed, p.main = .closing closed) ∨ Exited p

theorem leaving_kept {threw : Bool} (p : WorkerProcess) (a : WorkerAction) (q : WorkerProcess)
    (h : Leaving threw p) (hstep : p.step o a = some q) : Leaving threw q := by
  obtain ⟨hrunning, hmove⟩ := workerMove_of_step hstep
  have hnot : ¬ Exited p := by
    rintro ⟨code, hmain⟩
    simp [WorkerProcess.isRunning, hmain] at hrunning
  rcases h with ⟨hmain, haborted⟩ | ⟨closed, hmain⟩ | hexited
  · cases hmove with
    | stop | loop => exact .inl ⟨hmain, haborted⟩
    | heartbeat ha hheartbeat => exact .inl ⟨hmain, (owed_of_step haborted hheartbeat).1⟩
    | heartbeatEnded => exact .inr (.inl ⟨_, rfl⟩)
    | gaveUp => exact .inr (.inr ⟨_, rfl⟩)
    | registered hmain' | worked hmain' | unregistered hmain' | loopEnded hmain' | closed hmain'
    | exited hmain' => simp [hmain] at hmain'
  · cases hmove with
    | stop | loop | heartbeat => exact .inr (.inl ⟨_, hmain⟩)
    | closed => exact .inr (.inl ⟨_, rfl⟩)
    | exited => exact .inr (.inr ⟨_, rfl⟩)
    | registered hmain' | worked hmain' | unregistered hmain' | loopEnded hmain' | heartbeatEnded hmain'
    | gaveUp hmain' => simp [hmain] at hmain'
  · exact absurd hexited hnot

theorem heartbeat_returned_kept (p : WorkerProcess) (a : WorkerAction) (q : WorkerProcess)
    (h : p.heartbeat.phase = .returned ∧ LoopIsOver p) (hstep : p.step o a = some q) :
    q.heartbeat.phase = .returned ∧ LoopIsOver q := by
  refine ⟨?_, loopIsOver_kept p a q h.2 hstep⟩
  cases (workerMove_of_step hstep).2 with
  | heartbeat ha hheartbeat => simp [step_of_returned h.1 ha] at hheartbeat
  | worked hmain => exact absurd hmain (h.2.2 _)
  | stop | loop | registered | closed | unregistered | loopEnded | heartbeatEnded | gaveUp | exited => exact h.1

theorem heartbeatEnded_leadsTo (hfair : FairWorker e) {threw : Bool} :
    e.LeadsTo (fun p => p.main = .stopping threw ∧ p.heartbeat.phase = .returned) Exited := by
  rintro n ⟨hmain, hphase⟩
  have hnext := resumed_leadsTo (.stopping threw)
    (q := fun p => (∃ closed, p.main = .closing closed) ∨ Exited p) hfair heartbeat_returned_kept
    fun p hmain hr => by
      cases threw with
      | false => exact ⟨{ p with main := .closing none }, by simp [WorkerProcess.resume, hmain, hr.1], .inl ⟨_, rfl⟩⟩
      | true => exact ⟨p.exit 1, by simp [WorkerProcess.resume, hmain, hr.1], .inr ⟨_, rfl⟩⟩
  have hover : LoopIsOver (e.state n) := by
    rw [LoopIsOver, hmain]
    exact ⟨nofun, nofun⟩
  obtain ⟨m, hm, ⟨closed, hclosing⟩ | hexited, -⟩ := hnext n ⟨hmain, hphase, hover⟩
  · obtain ⟨k, hk, hexited⟩ := closing_leadsTo hfair _ m hclosing
    exact ⟨k, hm.trans hk, hexited⟩
  · exact ⟨m, hm, hexited⟩

/-- A heartbeat that has been told to stop returns, and the process exits. -/
theorem stopping_leadsTo (hfair : FairWorker e) {threw : Bool} :
    e.LeadsTo (fun p => p.main = .stopping threw ∧ p.heartbeat.aborted = true) Exited := by
  rintro n ⟨hmain, haborted⟩
  by_contra hnever
  simp only [not_exists, not_and] at hnever
  have hover : LoopIsOver (e.state n) := by
    rw [LoopIsOver, hmain]
    exact ⟨nofun, nofun⟩
  have hovers : ∀ m, LoopIsOver (e.state (n + m)) := fun m =>
    Execution.kept loopIsOver_kept hover (Nat.le_add_right n m)
  have hruns : ∀ m, ¬ Exited (e.state (n + m)) := fun m => hnever _ (Nat.le_add_right n m)
  have hheartbeat := fairInterval_heartbeatOf hfair hovers hruns
  obtain ⟨m, -, hreturned⟩ := aborted_leadsTo_returned hheartbeat 0 haborted
  have hleaving : Leaving threw (e.state n) := .inl ⟨hmain, haborted⟩
  have hthere := Execution.kept leaving_kept hleaving (Nat.le_add_right n m)
  obtain ⟨k, hk, hexited⟩ : ∃ k, n + m ≤ k ∧ Exited (e.state k) := by
    rcases hthere with ⟨hmain', -⟩ | ⟨closed, hclosing⟩ | hexited
    · exact heartbeatEnded_leadsTo hfair _ ⟨hmain', hreturned⟩
    · exact closing_leadsTo hfair _ _ hclosing
    · exact ⟨_, le_rfl, hexited⟩
  exact hnever k (by omega) hexited

theorem exists_standsAt (h₀ : e.state 0 = .start o) (n : ℕ) : ∃ as, StandsAt o as (e.state n) := by
  obtain ⟨as, has⟩ := e.reaches n
  exact ⟨as, standsAt_of_run (h₀ ▸ has)⟩

structure LoopSettled (p : WorkerProcess) : Prop where
  ended : p.loop.Over
  done : AllDone p.loop.renewals
  registered : ∀ registered, p.main ≠ .registering registered

theorem loopSettled_kept (p : WorkerProcess) (a : WorkerAction) (q : WorkerProcess) (h : LoopSettled p)
    (hstep : p.step o a = some q) : LoopSettled q := by
  have hregistered := registered_kept p a q h.registered hstep
  cases (workerMove_of_step hstep).2 with
  | loop ha hloop => simp [step_of_over h.ended h.done ha] at hloop
  | worked hmain => exact absurd hmain (h.registered _)
  | stop | heartbeat | registered | closed | unregistered | loopEnded | heartbeatEnded | gaveUp | exited =>
    exact ⟨h.ended, h.done, hregistered⟩

theorem settled_leadsTo (hfair : FairWorker e) :
    e.LeadsTo (fun p => p.main = .working ∧ LoopSettled p) Exited := by
  intro n hn
  have hnext := resumed_leadsTo .working (r := LoopSettled)
    (q := fun p => ∃ threw, p.main = .stopping threw ∧ p.heartbeat.aborted = true) hfair loopSettled_kept
    fun p hmain hr => by
      rcases hr.ended with hphase | hphase
      · exact ⟨p.stopHeartbeat false, by simp [WorkerProcess.resume, hmain, hphase], false, rfl, rfl⟩
      · exact ⟨p.stopHeartbeat true, by simp [WorkerProcess.resume, hmain, hphase], true, rfl, rfl⟩
  obtain ⟨m, hm, ⟨threw, hstopping⟩, -⟩ := hnext n hn
  obtain ⟨k, hk, hexited⟩ := stopping_leadsTo hfair m hstopping
  exact ⟨k, hm.trans hk, hexited⟩

/-- A working process that is told to stop, or whose claim throws, exits. -/
theorem working_leadsTo (h₀ : e.state 0 = .start o) (hfair : FairWorker e) :
    e.LeadsTo (fun p => p.main = .working ∧ (p.stop.aborted = true ∨ threwClaim p.loop.phase = true))
      Exited := by
  rintro n ⟨hmain, hends⟩
  by_contra hnever
  simp only [not_exists, not_and] at hnever
  have hregistered : ∀ m, n ≤ m → ∀ registered, (e.state m).main ≠ .registering registered := by
    have hnot : ∀ registered, (e.state n).main ≠ .registering registered := by
      rw [hmain]
      nofun
    exact fun m hm => Execution.kept registered_kept hnot hm
  have hruns : ∀ m, ¬ Exited (e.state (n + m)) := fun m => hnever _ (Nat.le_add_right n m)
  have hcalls := fairCalls_loopOf hfair (fun m => hregistered _ (Nat.le_add_right n m) (some true)) hruns
  obtain ⟨as, hstands⟩ := exists_standsAt h₀ n
  obtain ⟨m, -, hover⟩ : ∃ m, 0 ≤ m ∧ (e.state (n + m)).loop.Over := by
    rcases hends with haborted | hthrew
    · cases hstands.standing with
      | working _ hloop =>
        exact stopped_leadsTo_over hcalls 0 ⟨hstands.aborted.trans haborted, hloop⟩
      | registering hmain' | stopping hmain' | closing hmain' | exited hmain' => simp [hmain] at hmain'
    · exact threwClaim_leadsTo_over hcalls 0 hthrew
  obtain ⟨as', hstands'⟩ := exists_standsAt h₀ (n + m)
  obtain ⟨k, hk, hexited⟩ : ∃ k, n + m ≤ k ∧ Exited (e.state k) := by
    have hnot := hregistered _ (Nat.le_add_right n m)
    cases hstands'.standing with
    | registering hmain' => exact absurd hmain' (hnot _)
    | working hmain' hloop =>
      exact settled_leadsTo hfair _ ⟨hmain', hover, allDone_of_over hloop hover, hnot⟩
    | stopping hmain' _ _ _ hbeats => exact stopping_leadsTo hfair _ ⟨hmain', hbeats⟩
    | closing hmain' => exact closing_leadsTo hfair _ _ hmain'
    | exited hmain' => exact ⟨_, le_rfl, _, hmain'⟩
  exact hnever k (by omega) hexited

theorem unregistered_leadsTo (hfair : FairWorker e) :
    e.LeadsTo (fun p => p.main = .registering (some false)) Exited := by
  intro n hmain
  have hexits := resumed_leadsTo (.registering (some false)) (q := Exited) hfair kept_true
    fun p hmain _ => ⟨p.exit 1, by simp [WorkerProcess.resume, hmain], 1, rfl⟩
  obtain ⟨m, hm, hexited, -⟩ := hexits n ⟨hmain, trivial⟩
  exact ⟨m, hm, hexited⟩

/-- A process that is told to stop before it is registered exits as well. -/
theorem registering_leadsTo (h₀ : e.state 0 = .start o) (hfair : FairWorker e) {registered : Option Bool} :
    e.LeadsTo (fun p => p.main = .registering registered ∧ p.stop.aborted = true) Exited := by
  have hanswered : ∀ ok, e.LeadsTo
      (fun p => p.main = .registering (some ok) ∧ p.stop.aborted = true) Exited := by
    rintro (_ | _) n ⟨hmain, haborted⟩
    · exact unregistered_leadsTo hfair n hmain
    · have hworks := resumed_leadsTo (.registering (some true)) (q := fun p => p.main = .working)
        hfair aborted_kept fun p hmain _ => ⟨p.work o, by simp [WorkerProcess.resume, hmain], rfl⟩
      obtain ⟨m, hm, hworking, haborted⟩ := hworks n ⟨hmain, haborted⟩
      obtain ⟨k, hk, hexited⟩ := working_leadsTo h₀ hfair m ⟨hworking, .inl haborted⟩
      exact ⟨k, hm.trans hk, hexited⟩
  cases registered with
  | some ok => exact hanswered ok
  | none =>
    refine Execution.LeadsTo.trans (q := fun p => ∃ ok, p.main = .registering (some ok) ∧
      p.stop.aborted = true) ?_ (.exists hanswered)
    refine .of_weaklyFair hfair.registers ?_ ?_ ?_
    · rintro p ⟨hmain, -⟩
      refine ⟨.registered true, { p with main := .registering (some true) }, ⟨true, rfl⟩, ?_⟩
      rw [WorkerProcess.step, if_pos (isRunning_of_main hmain (by simp)), WorkerProcess.advance, hmain]
    · rintro p a p' ⟨hmain, haborted⟩ hstep
      have haborted' := aborted_kept p a p' haborted hstep
      cases (workerMove_of_step hstep).2 with
      | stop | loop | heartbeat => exact .inl ⟨hmain, haborted'⟩
      | registered => exact .inr ⟨_, rfl, haborted'⟩
      | closed hmain' | worked hmain' | unregistered hmain' | loopEnded hmain' | heartbeatEnded hmain'
      | gaveUp hmain' | exited hmain' => simp [hmain] at hmain'
    · rintro p a p' ⟨hmain, haborted⟩ ⟨ok, rfl⟩ hstep
      have haborted' := aborted_kept p _ p' haborted hstep
      cases (workerMove_of_step hstep).2 with
      | registered => exact ⟨_, rfl, haborted'⟩

end Liveness

/-- A worker process that is told to stop, cannot register or whose claim throws exits, whatever it
is doing then. -/
theorem ending_worker_exits {o : LoopOptions} {e : Execution (WorkerProcess.step o)}
    (h₀ : e.state 0 = .start o) (hfair : FairWorker e) {n : ℕ} (hends : IsEnding (e.state n)) :
    ∃ m code, n ≤ m ∧ (e.state m).main = .exited code := by
  have hexits : ∃ m, n ≤ m ∧ Exited (e.state m) := by
    rcases hends with haborted | hmain | ⟨hmain, hthrew⟩
    · obtain ⟨as, hstands⟩ := exists_standsAt h₀ n
      cases hstands.standing with
      | registering hmain => exact registering_leadsTo h₀ hfair n ⟨hmain, haborted⟩
      | working hmain => exact working_leadsTo h₀ hfair n ⟨hmain, .inl haborted⟩
      | stopping hmain _ _ _ hbeats => exact stopping_leadsTo hfair n ⟨hmain, hbeats⟩
      | closing hmain => exact closing_leadsTo hfair _ n hmain
      | exited hmain => exact ⟨n, le_rfl, _, hmain⟩
    · exact unregistered_leadsTo hfair n hmain
    · exact working_leadsTo h₀ hfair n ⟨hmain, .inr hthrew⟩
  obtain ⟨m, hm, code, hmain⟩ := hexits
  exact ⟨m, code, hm, hmain⟩

theorem step_of_exited {o : LoopOptions} {p : WorkerProcess} {code : ℕ} (hmain : p.main = .exited code)
    (a : WorkerAction) : p.step o a = none := by
  simp [WorkerProcess.step, WorkerProcess.isRunning, hmain]

theorem fairWorker_of_exited {o : LoopOptions} {p q : WorkerProcess} {as : List WorkerAction} {code : ℕ}
    (h : run (WorkerProcess.step o) p as = some q) (hmain : q.main = .exited code) :
    FairWorker (Execution.ofRun h) := by
  have hfair : ∀ kind : WorkerAction → Prop, (Execution.ofRun h).WeaklyFair kind := by
    intro kind
    refine Execution.ofRun_weaklyFair h ?_
    rintro ⟨a, t, -, hstep⟩
    rw [step_of_exited hmain] at hstep
    cases hstep
  exact ⟨hfair _, hfair _, hfair _, hfair _, hfair _, hfair _, hfair _, fun _ => hfair _, fun _ => hfair _,
    hfair _, hfair _⟩

theorem ending_worker_exits_terminated : ∃ p,
    ∃ h : run (WorkerProcess.step ⟨"worker-a", 30000⟩) (.start ⟨"worker-a", 30000⟩) terminatedMidStep = some p,
      ((Execution.ofRun h).state 7).main = .working ∧ IsEnding ((Execution.ofRun h).state 7) ∧
      ∃ m code, 7 ≤ m ∧ ((Execution.ofRun h).state m).main = .exited code := by
  have hrun : (run (WorkerProcess.step ⟨"worker-a", 30000⟩) (.start ⟨"worker-a", 30000⟩)
      terminatedMidStep).map WorkerProcess.main = some (.exited 0) := by decide +kernel
  have hstopped : (run (WorkerProcess.step ⟨"worker-a", 30000⟩) (.start ⟨"worker-a", 30000⟩)
      (terminatedMidStep.take 7)).map (fun p => (p.main, p.stop.aborted)) = some (.working, true) := by
    decide +kernel
  obtain ⟨p, h, hmain⟩ := Option.map_eq_some_iff.mp hrun
  obtain ⟨m, hm, hstate⟩ := Option.map_eq_some_iff.mp hstopped
  obtain ⟨hworking, haborted⟩ := Prod.mk.inj hstate
  have hat : (Execution.ofRun h).state 7 = m := by simp [Execution.ofRun, hm]
  have hends : IsEnding ((Execution.ofRun h).state 7) := .inl (hat ▸ haborted)
  exact ⟨p, h, hat ▸ hworking, hends, ending_worker_exits rfl (fairWorker_of_exited h hmain) hends⟩

end DurableRunner.Guarantees
