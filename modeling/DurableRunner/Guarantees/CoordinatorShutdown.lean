import DurableRunner.Processes.Coordinator
import DurableRunner.TransitionSystem.Components

/-! # The sweeps of a coordinator process, and its end -/
namespace DurableRunner.Guarantees
open Operations TransitionSystem Processes

def sweepRound : List Call := [.recoverExpiredSteps, .promoteDueRetries]

theorem calls_recoveryLoop : recoveryLoop.calls = sweepRound := rfl

def stopReason? : CoordinatorAction → Option StopReason
  | .stop reason => some reason
  | _ => none

def firstStop (as : List CoordinatorAction) : Option StopReason := as.findSome? stopReason?

/-- A signal was what stopped the coordinator, and the pool has been closed. -/
def SweptWell (as : List CoordinatorAction) : Prop := firstStop as = some .signal ∧ .closed true ∈ as

structure SweepsInOrder (as : List CoordinatorAction) (p : CoordinatorProcess) : Prop where
  /-- Every recovery sweep is followed by a promotion, however it ended. -/
  rounds : ∃ n, p.loop.sent = (List.replicate n sweepRound).flatten ∨
    p.loop.sent = (List.replicate n sweepRound).flatten ++ [.recoverExpiredSteps]
  /-- Told to stop, the process finishes its round and sends nothing else. -/
  finishes : p.stop.aborted = true → ∀ q, Reaches CoordinatorProcess.step p q →
    ∃ calls, calls <+: [.promoteDueRetries] ∧ q.loop.sent = p.loop.sent ++ calls
  /-- The pool is closed for a stop request only, after whole rounds and with no sweep in flight, and
  nothing is sent after. -/
  quiet : p.main ≠ .sweeping → p.stop.aborted = true ∧ p.loop.phase = .returned ∧
    (∃ n, p.loop.sent = (List.replicate n sweepRound).flatten) ∧
    ∀ q, Reaches CoordinatorProcess.step p q → q.loop.sent = p.loop.sent
  /-- The exit code tells whether the coordinator has ended well. -/
  exits : ∀ code, p.main = .exited code → (code = 0 ∧ SweptWell as) ∨ (code = 1 ∧ ¬ SweptWell as)

section Safety
variable {as : List CoordinatorAction} {a : CoordinatorAction} {p q : CoordinatorProcess}

structure SweepStanding (as : List CoordinatorAction) (p : CoordinatorProcess) : Prop where
  stop : p.stop = .requested (firstStop as)
  aborted : p.loop.aborted = p.stop.aborted
  inRounds : InRounds recoveryLoop p.loop
  returned : p.loop.phase = .returned → p.loop.aborted = true
  swept : p.main ≠ .sweeping → p.loop.phase = .returned
  open_ : p.main = .sweeping ∨ p.main = .closing none → .closed true ∉ as
  closed : ∀ ok, p.main = .closing (some ok) → (.closed true ∈ as ↔ ok = true)
  exited : ∀ code, p.main = .exited code → (code = 0 ∧ SweptWell as) ∨ (code = 1 ∧ ¬ SweptWell as)

theorem not_leaves_recoveryLoop : .sleep true ∉ recoveryLoop.round := by decide

theorem sweepStanding_start : SweepStanding [] .start where
  stop := rfl
  aborted := rfl
  inRounds := inRounds_of_reaches not_leaves_recoveryLoop (.refl (IntervalState.start recoveryLoop false))
  returned := nofun
  swept := by simp [CoordinatorProcess.start]
  open_ _ := List.not_mem_nil
  closed := nofun
  exited := nofun

theorem firstStop_concat_stop (as : List CoordinatorAction) (reason : StopReason) :
    firstStop (as ++ [.stop reason]) = (firstStop as).or (some reason) := by
  simp [firstStop, List.findSome?_append, stopReason?]

theorem firstStop_concat (h : stopReason? a = none) : firstStop (as ++ [a]) = firstStop as := by
  simp [firstStop, List.findSome?_append, h]

theorem returned_of_loop {s t : IntervalState Call} {action : IntervalAction} (ha : action ≠ .abort)
    (hstep : s.step recoveryLoop action = some t) :
    t.aborted = s.aborted ∧ (t.phase = .returned → s.aborted = true) := by
  cases hs : s.aborted with
  | true => exact ⟨(owed_of_step hs hstep).1, fun _ => rfl⟩
  | false =>
    obtain ⟨ht, hphase⟩ := not_returned_of_step hs hstep ha
    exact ⟨ht, fun h => absurd h hphase⟩

theorem SweepStanding.step (h : SweepStanding as p) (hstep : p.step a = some q) :
    SweepStanding (as ++ [a]) q := by
  obtain ⟨hrunning, hmove⟩ := coordinatorMove_of_step hstep
  have hnot : ∀ code, p.main ≠ .exited code := by
    rintro code hmain
    simp [CoordinatorProcess.isRunning, hmain] at hrunning
  cases hmove with
  | stop reason =>
    exact {
      stop := by
        show p.stop.request reason = _
        rw [h.stop, StopSignal.request_requested, firstStop_concat_stop]
      aborted := (StopSignal.aborted_request _ _).symm
      inRounds := h.inRounds
      returned := fun _ => rfl
      swept := h.swept
      open_ := fun hmain => by simpa using h.open_ hmain
      closed := fun ok hmain => by simpa using h.closed ok hmain
      exited := fun code hmain => absurd hmain (hnot code) }
  | loop ha hloop =>
    obtain ⟨haborted, hreturned⟩ := returned_of_loop ha hloop
    have hphase : p.loop.phase ≠ .returned := by
      intro hphase
      simp [step_of_returned hphase ha] at hloop
    have hmain : p.main = .sweeping := by
      by_contra hmain
      exact hphase (h.swept hmain)
    exact {
      stop := by rw [firstStop_concat rfl]; exact h.stop
      aborted := haborted.trans h.aborted
      inRounds := h.inRounds.step not_leaves_recoveryLoop hloop
      returned := fun hphase => haborted.trans (hreturned hphase)
      swept := fun hover => absurd hmain hover
      open_ := fun hmain => by simpa using h.open_ hmain
      closed := fun ok hmain => by simpa using h.closed ok hmain
      exited := fun code hmain => absurd hmain (hnot code) }
  | @closed ok hmain =>
    have hnone := h.open_ (.inr hmain)
    exact {
      stop := by rw [firstStop_concat rfl]; exact h.stop
      aborted := h.aborted
      inRounds := h.inRounds
      returned := h.returned
      swept := fun _ => h.swept (by simp [hmain])
      open_ := by simp
      closed := by
        rintro ok' hok
        obtain rfl : ok = ok' := by simpa using hok
        cases ok <;> simp [hnone]
      exited := nofun }
  | swept hmain hphase =>
    exact {
      stop := by rw [firstStop_concat rfl]; exact h.stop
      aborted := h.aborted
      inRounds := h.inRounds
      returned := h.returned
      swept := fun _ => hphase
      open_ := fun _ => by simpa using h.open_ (.inl hmain)
      closed := nofun
      exited := nofun }
  | @exited ok hmain =>
    have hclosed := h.closed ok hmain
    have hphase := h.swept (by simp [hmain])
    have haborted : p.stop.aborted = true := h.aborted ▸ h.returned hphase
    refine {
      stop := by rw [firstStop_concat rfl]; exact h.stop
      aborted := h.aborted
      inRounds := h.inRounds
      returned := h.returned
      swept := fun _ => hphase
      open_ := nofun
      closed := nofun
      exited := ?_ }
    rintro code hcode
    obtain rfl : (if ok then p.stop.exitCode else 1) = code := CoordinatorMain.exited.inj hcode
    rw [SweptWell, firstStop_concat rfl, List.mem_append]
    rw [h.stop, StopSignal.aborted_requested, Option.isSome_iff_exists] at haborted
    obtain ⟨reason, hreason⟩ := haborted
    rw [h.stop, hreason]
    cases ok <;> cases reason <;> simp [hclosed, StopSignal.requested]

theorem sweepStanding_of_run (h : run CoordinatorProcess.step .start as = some p) :
    SweepStanding as p := by
  induction as using List.reverseRecOn generalizing p with
  | nil =>
    obtain rfl := Option.some.inj h
    exact sweepStanding_start
  | append_singleton as a ih =>
    obtain ⟨m, hm, hstep⟩ := (run_concat_eq_some _).mp h
    exact (ih hm).step hstep

theorem owed_recoveryLoop {phase : IntervalPhase Call} (h : phase.Within recoveryLoop) :
    phase.owed = [] ∨ phase.owed = [.promoteDueRetries] := by
  cases phase with
  | returned => exact .inl rfl
  | calling rest answered =>
    have hrest : rest <:+ [.call .promoteDueRetries, .sleep false] := h
    simp only [List.suffix_cons_iff, List.suffix_nil] at hrest
    rcases hrest with rfl | rfl | rfl
    · exact .inr rfl
    · exact .inl rfl
    · exact .inl rfl
  | sleeping leaves rest =>
    have hrest : .sleep leaves :: rest <:+
        [.call .recoverExpiredSteps, .call .promoteDueRetries, .sleep false] := h
    simp only [List.suffix_cons_iff, List.cons.injEq, reduceCtorEq, Await.sleep.injEq, false_and,
      List.suffix_nil, false_or, or_false] at hrest
    obtain ⟨rfl, rfl⟩ := hrest
    exact .inl rfl

theorem owed_of_coordinator (haborted : p.loop.aborted = true)
    (hreach : Reaches CoordinatorProcess.step p q) : q.loop.aborted = true ∧
      ∃ calls, q.loop.sent = p.loop.sent ++ calls ∧ calls ++ q.loop.phase.owed = p.loop.phase.owed := by
  refine hreach.rec_tail (motive := fun q => q.loop.aborted = true ∧
    ∃ calls, q.loop.sent = p.loop.sent ++ calls ∧ calls ++ q.loop.phase.owed = p.loop.phase.owed)
    ⟨haborted, [], (List.append_nil _).symm, rfl⟩ ?_
  rintro m a u - ⟨hm, calls, hsent, howed⟩ hstep
  cases (coordinatorMove_of_step hstep).2 with
  | stop => exact ⟨rfl, calls, hsent, howed⟩
  | closed | swept | exited => exact ⟨hm, calls, hsent, howed⟩
  | loop ha hloop =>
    obtain ⟨hu, more, hsent', howed'⟩ := owed_of_step hm hloop
    refine ⟨hu, calls ++ more, by rw [hsent', hsent, List.append_assoc], ?_⟩
    rw [List.append_assoc, howed', howed]

theorem sweepsInOrder_of_standing (h : SweepStanding as p) : SweepsInOrder as p where
  rounds := by
    obtain ⟨hwithin, n, hsent⟩ := h.inRounds
    rcases owed_recoveryLoop hwithin with howed | howed
    · exact ⟨n, .inl (by simpa [howed, calls_recoveryLoop] using hsent)⟩
    · cases n with
      | zero => simp [howed] at hsent
      | succ n =>
        refine ⟨n, .inr ?_⟩
        rw [howed, List.replicate_succ', List.flatten_append] at hsent
        have hround : [recoveryLoop.calls].flatten = [.recoverExpiredSteps] ++ [.promoteDueRetries] := rfl
        rw [hround, ← List.append_assoc] at hsent
        exact List.append_cancel_right hsent
  finishes haborted q hreach := by
    obtain ⟨-, calls, hsent, howed⟩ := owed_of_coordinator (h.aborted.trans haborted) hreach
    refine ⟨calls, ?_, hsent⟩
    rcases owed_recoveryLoop h.inRounds.1 with hnone | hone
    · rw [hnone, List.append_eq_nil_iff] at howed
      exact howed.1 ▸ List.nil_prefix
    · exact ⟨_, howed.trans hone⟩
  quiet hmain := by
    have hphase := h.swept hmain
    obtain ⟨-, n, hsent⟩ := h.inRounds
    rw [hphase] at hsent
    refine ⟨h.aborted ▸ h.returned hphase, hphase, ⟨n, by simpa [IntervalPhase.owed, calls_recoveryLoop] using hsent⟩, ?_⟩
    intro q hreach
    obtain ⟨-, calls, hsent', howed⟩ := owed_of_coordinator (h.returned hphase) hreach
    rw [hphase, IntervalPhase.owed, List.append_eq_nil_iff] at howed
    rw [hsent', howed.1, List.append_nil]
  exits := h.exited

end Safety

/-- A coordinator process sweeps in whole rounds, whatever happens and whenever it is told to stop. -/
theorem coordinator_sweeps_in_order {as : List CoordinatorAction} {p : CoordinatorProcess}
    (h : run CoordinatorProcess.step .start as = some p) : SweepsInOrder as p :=
  sweepsInOrder_of_standing (sweepStanding_of_run h)

/-- SIGTERM during a recovery sweep; the password is rejected while it promotes. -/
def terminatedMidRound : List CoordinatorAction :=
  [.loop .answered, .loop .resume, .loop .answered, .loop .resume, .loop .resume, .stop .signal,
    .loop .answered, .loop .resume, .stop .credentialRejected, .loop .answered, .loop .resume, .loop .resume,
    .resume, .closed true, .resume]

theorem coordinator_sweeps_in_order_terminated : ∃ p,
    run CoordinatorProcess.step .start terminatedMidRound = some p ∧ p.main = .exited 0 ∧
      p.loop.sent = sweepRound ++ sweepRound ∧ SweptWell terminatedMidRound := by
  have hrun : (run CoordinatorProcess.step .start terminatedMidRound).map
      (fun p => (p.main, p.loop.sent)) = some (.exited 0, sweepRound ++ sweepRound) := by decide
  obtain ⟨p, hp, hstate⟩ := Option.map_eq_some_iff.mp hrun
  obtain ⟨hmain, hsent⟩ := Prod.mk.inj hstate
  rcases (coordinator_sweeps_in_order hp).exits 0 hmain with ⟨-, hends⟩ | ⟨hcode, -⟩
  · exact ⟨p, hp, hmain, hsent, hends⟩
  · cases hcode

/-- Sweeps return or throw, the pool closes or fails to, and whatever can go on does. -/
structure FairCoordinator (e : Execution CoordinatorProcess.step) : Prop where
  resumes : e.WeaklyFair fun a => a = .resume
  closes : e.WeaklyFair fun a => ∃ ok, a = .closed ok
  answers : e.WeaklyFair fun a => a = .loop .answered
  wakes : e.WeaklyFair fun a => a = .loop .resume

section Liveness
variable {p q : CoordinatorProcess} {a : CoordinatorAction} {e : Execution CoordinatorProcess.step}

def sweepPart : CoordinatorAction → Option IntervalAction
  | .stop _ => some .abort
  | .loop action => some action
  | _ => none

theorem sweep_of_step (hstep : p.step a = some q) :
    (sweepPart a).elim (some p.loop) (p.loop.step recoveryLoop) = some q.loop := by
  cases (coordinatorMove_of_step hstep).2 with
  | loop ha hloop => exact hloop
  | stop | closed | swept | exited => rfl

def sweepsOf (e : Execution CoordinatorProcess.step) : Execution (IntervalState.step recoveryLoop) :=
  e.component (fun p => p.loop) sweepPart fun _ _ ha => sweep_of_step (Execution.step_of_action ha)

theorem standing_of_execution (h₀ : e.state 0 = .start) (n : ℕ) : ∃ as, SweepStanding as (e.state n) := by
  obtain ⟨as, has⟩ := e.reaches n
  exact ⟨as, sweepStanding_of_run (h₀ ▸ has)⟩

theorem isRunning_of_sweeping (hmain : p.main = .sweeping) : p.isRunning = true := by
  rw [CoordinatorProcess.isRunning, hmain]

theorem step_sweep {action : IntervalAction} {loop : IntervalState Call} (hmain : p.main = .sweeping)
    (ha : action ≠ .abort) (hstep : p.loop.step recoveryLoop action = some loop) :
    p.step (.loop action) = some { p with loop } := by
  have hadvance : p.advance (.loop action) =
      (p.loop.step recoveryLoop action).map fun loop => { p with loop } := by
    cases action with
    | abort => exact absurd rfl ha
    | answered | resume => rfl
  rw [step_of_advance (isRunning_of_sweeping hmain), hadvance, hstep, Option.map_some]

/-- The loop of a fair coordinator is fair: where it can move, the process is sweeping. -/
theorem fairInterval_sweepsOf (h₀ : e.state 0 = .start) (hfair : FairCoordinator e) :
    FairInterval (sweepsOf e) := by
  have hsweeping : ∀ n action t, (e.state n).loop.step recoveryLoop action = some t →
      action ≠ .abort → (e.state n).main = .sweeping := by
    intro n action t hstep ha
    obtain ⟨as, hstanding⟩ := standing_of_execution h₀ n
    by_contra hmain
    simp [step_of_returned (hstanding.swept hmain) ha] at hstep
  refine ⟨hfair.answers.component (fun _ ha => ⟨_, ha ▸ rfl, rfl⟩) ?_,
    hfair.wakes.component (fun _ ha => ⟨_, ha ▸ rfl, rfl⟩) ?_⟩
  · rintro n ⟨_, t, rfl, hstep⟩
    exact ⟨_, _, rfl, step_sweep (hsweeping n _ t hstep nofun) nofun hstep⟩
  · rintro n ⟨_, t, rfl, hstep⟩
    exact ⟨_, _, rfl, step_sweep (hsweeping n _ t hstep nofun) nofun hstep⟩

theorem closingPool_leadsTo (hfair : FairCoordinator e) (closed : Option Bool) :
    e.LeadsTo (fun p => p.main = .closing closed) fun p => ∃ code, p.main = .exited code := by
  have hresume : ∀ ok (p : CoordinatorProcess), p.main = .closing (some ok) →
      p.step .resume = some (p.exit (if ok then p.stop.exitCode else 1)) := by
    intro ok p hmain
    simp [CoordinatorProcess.step, CoordinatorProcess.isRunning, CoordinatorProcess.advance,
      CoordinatorProcess.resume, hmain]
  refine .of_answered (fun closed p => p.main = .closing closed) hfair.closes hfair.resumes
    ?_ (fun ok p hmain => ⟨_, _, rfl, hresume ok p hmain⟩) ?_ ?_ closed
  · intro p hmain
    refine ⟨.closed true, { p with main := .closing (some true) }, ⟨true, rfl⟩, ?_⟩
    simp [CoordinatorProcess.step, CoordinatorProcess.isRunning, CoordinatorProcess.advance, hmain]
  · intro p a p' hmain hstep
    cases (coordinatorMove_of_step hstep).2 with
    | stop | loop => exact .inl ⟨hmain, by simp⟩
    | closed => exact .inr ⟨_, rfl⟩
    | swept hmain' | exited hmain' => simp [hmain] at hmain'
  · intro ok p a p' hmain hstep
    cases (coordinatorMove_of_step hstep).2 with
    | stop | loop => exact .inl ⟨hmain, by simp⟩
    | exited => exact .inr ⟨_, rfl⟩
    | closed hmain' | swept hmain' => simp [hmain] at hmain'

/-- A loop that has returned is followed by the end of the pool. -/
theorem swept_leadsTo (hfair : FairCoordinator e) :
    e.LeadsTo (fun p => p.main = .sweeping ∧ p.loop.phase = .returned)
      fun p => ∃ code, p.main = .exited code := by
  have hresume : ∀ p : CoordinatorProcess, p.main = .sweeping → p.loop.phase = .returned →
      p.step .resume = some { p with main := .closing none } := by
    intro p hmain hphase
    simp [CoordinatorProcess.step, CoordinatorProcess.isRunning, CoordinatorProcess.advance,
      CoordinatorProcess.resume, hmain, hphase]
  refine Execution.LeadsTo.trans (q := fun p => p.main = .closing none) ?_ (closingPool_leadsTo hfair none)
  refine .of_weaklyFair hfair.resumes (fun p hp => ⟨_, _, rfl, hresume p hp.1 hp.2⟩) ?_ ?_
  · rintro p a p' ⟨hmain, hphase⟩ hstep
    cases (coordinatorMove_of_step hstep).2 with
    | stop => exact .inl ⟨hmain, hphase⟩
    | swept => exact .inr rfl
    | loop ha hloop => simp [step_of_returned hphase ha] at hloop
    | closed hmain' | exited hmain' => simp [hmain] at hmain'
  · rintro p a p' ⟨hmain, hphase⟩ rfl hstep
    obtain rfl := Option.some.inj ((hresume p hmain hphase).symm.trans hstep)
    rfl

theorem rounds_prefix {sent owed : List Call} {n k : ℕ}
    (hsent : sent ++ owed = (List.replicate n sweepRound).flatten) (hk : 2 * k ≤ sent.length) :
    (List.replicate k sweepRound).flatten <+: sent := by
  have hlength : ∀ n, (List.replicate n sweepRound).flatten.length = 2 * n := by
    intro n
    simp [sweepRound, Nat.mul_comm]
  have hkn : k ≤ n := by
    have htotal := congrArg List.length hsent
    rw [List.length_append, hlength] at htotal
    omega
  have hmore : (List.replicate k sweepRound).flatten <+: (List.replicate n sweepRound).flatten := by
    rw [← Nat.add_sub_of_le hkn, List.replicate_add, List.flatten_append]
    exact List.prefix_append _ _
  refine List.prefix_of_prefix_length_le hmore ⟨owed, hsent⟩ ?_
  rw [hlength]
  exact hk

end Liveness

/-- A coordinator that is told to stop exits; one that is not sweeps again and again. -/
theorem coordinator_sweeps_until_stopped {e : Execution CoordinatorProcess.step} (h₀ : e.state 0 = .start)
    (hfair : FairCoordinator e) :
    (∀ n, (e.state n).stop.aborted = true → ∃ m code, n ≤ m ∧ (e.state m).main = .exited code) ∧
    ((∀ n, (e.state n).stop.aborted = false) →
      ∀ k, ∃ m, (List.replicate k sweepRound).flatten <+: (e.state m).loop.sent) := by
  have hloop := fairInterval_sweepsOf h₀ hfair
  refine ⟨fun n hstop => ?_, fun hnever k => ?_⟩
  · obtain ⟨as, hstanding⟩ := standing_of_execution h₀ n
    obtain ⟨m, hm, hreturned⟩ := aborted_leadsTo_returned hloop n (hstanding.aborted.trans hstop)
    obtain ⟨as', hstanding'⟩ := standing_of_execution h₀ m
    obtain ⟨j, hj, code, hexited⟩ : ∃ j, m ≤ j ∧ ∃ code, (e.state j).main = .exited code := by
      cases hmain : (e.state m).main with
      | sweeping => exact swept_leadsTo hfair m ⟨hmain, hreturned⟩
      | closing closed => exact closingPool_leadsTo hfair _ m hmain
      | exited code => exact ⟨m, le_rfl, code, hmain⟩
    exact ⟨j, code, hm.trans hj, hexited⟩
  · have hclear : ∀ n, (e.state n).loop.aborted = false := by
      intro n
      obtain ⟨as, hstanding⟩ := standing_of_execution h₀ n
      exact hstanding.aborted.trans (hnever n)
    have hphase : ∀ n, (e.state n).loop.phase ≠ .returned := by
      intro n hreturned
      obtain ⟨as, hstanding⟩ := standing_of_execution h₀ n
      have haborted := hstanding.returned hreturned
      simp [hclear n] at haborted
    have hmany : ∀ k, ∃ m, k ≤ (e.state m).loop.sent.length := by
      intro k
      induction k with
      | zero => exact ⟨0, Nat.zero_le _⟩
      | succ k ih =>
        obtain ⟨n, hn⟩ := ih
        obtain ⟨m, -, hmore⟩ := sends_again hloop (by decide) (hphase n) fun m _ => hclear m
        exact ⟨m, Nat.succ_le_of_lt (hn.trans_lt hmore)⟩
    obtain ⟨m, hm⟩ := hmany (2 * k)
    obtain ⟨as, hstanding⟩ := standing_of_execution h₀ m
    obtain ⟨-, n, hsent⟩ := hstanding.inRounds
    exact ⟨m, rounds_prefix hsent hm⟩

/-- What a coordinator that nobody stops does next: its call is answered, or it goes on. -/
def unattended (p : CoordinatorProcess) : Option CoordinatorAction :=
  match p.loop.phase with
  | .calling _ false => some (.loop .answered)
  | .calling _ true | .sleeping _ _ => some (.loop .resume)
  | .returned => none

structure Sweeping (p : CoordinatorProcess) : Prop where
  main : p.main = .sweeping
  stop : p.stop.aborted = false
  loop : p.loop.aborted = false
  phase : p.loop.phase ≠ .returned

section Unattended
variable {p : CoordinatorProcess}

/-- The loop has one action, and that is the one chosen. -/
theorem Sweeping.chosen (h : Sweeping p) : ∃ action loop, action ≠ .abort ∧
    p.loop.step recoveryLoop action = some loop ∧ unattended p = some (.loop action) ∧
    ∀ other, other ≠ .abort → (p.loop.step recoveryLoop other).isSome = true → other = action := by
  unfold unattended
  cases hphase : p.loop.phase with
  | returned => exact absurd hphase h.phase
  | calling rest answered =>
    cases answered with
    | false =>
      refine ⟨.answered, _, by simp, by rw [IntervalState.step, hphase], rfl, fun other hother henabled => ?_⟩
      cases other with
      | abort => exact absurd rfl hother
      | answered => rfl
      | resume => simp [IntervalState.step, hphase] at henabled
    | true =>
      refine ⟨.resume, _, by simp, by rw [IntervalState.step, hphase], rfl, fun other hother henabled => ?_⟩
      cases other with
      | abort => exact absurd rfl hother
      | answered => simp [IntervalState.step, hphase] at henabled
      | resume => rfl
  | sleeping leaves rest =>
    refine ⟨.resume, _, by simp, by rw [IntervalState.step, hphase], rfl, fun other hother henabled => ?_⟩
    cases other with
    | abort => exact absurd rfl hother
    | answered => simp [IntervalState.step, hphase] at henabled
    | resume => rfl

theorem Sweeping.next (h : Sweeping p) :
    Sweeping (Execution.scheduledNext CoordinatorProcess.step unattended p) := by
  obtain ⟨action, loop, ha, hstep, hchosen, -⟩ := h.chosen
  rw [Execution.scheduledNext, hchosen, Option.bind_some, step_sweep h.main ha hstep, Option.getD_some]
  obtain ⟨haborted, hphase⟩ := not_returned_of_step h.loop hstep ha
  exact ⟨h.main, h.stop, haborted, hphase⟩

def unattendedRun : Execution CoordinatorProcess.step := .scheduled _ unattended .start

theorem sweeping_unattendedRun (n : ℕ) : Sweeping (unattendedRun.state n) := by
  induction n with
  | zero => exact ⟨rfl, rfl, rfl, nofun⟩
  | succ n ih => exact (Execution.scheduled_succ n).symm ▸ ih.next

theorem fairCoordinator_unattendedRun : FairCoordinator unattendedRun := by
  have hloop : ∀ action, action ≠ .abort → unattendedRun.WeaklyFair fun a => a = .loop action := by
    intro action ha
    refine Execution.scheduled_weaklyFair ?_
    rintro n ⟨_, t, rfl, hstep⟩
    have hsweeping := sweeping_unattendedRun n
    obtain ⟨chosen, loop, hnot, hmoves, hchosen, honly⟩ := hsweeping.chosen
    cases (coordinatorMove_of_step hstep).2 with
    | loop _ hmoved =>
      obtain rfl := honly action ha (Option.isSome_iff_exists.mpr ⟨_, hmoved⟩)
      exact ⟨_, _, rfl, hchosen, hstep⟩
  have hnone : ∀ kind : CoordinatorAction → Prop, (∀ n, ¬Execution.Enabled CoordinatorProcess.step kind
      (unattendedRun.state n)) → unattendedRun.WeaklyFair kind := fun kind hnot =>
    Execution.scheduled_weaklyFair fun n henabled => absurd henabled (hnot n)
  refine ⟨hnone _ ?_, hnone _ ?_, hloop _ nofun, hloop _ nofun⟩
  · rintro n ⟨_, t, rfl, hstep⟩
    have hsweeping := sweeping_unattendedRun n
    cases (coordinatorMove_of_step hstep).2 with
    | swept _ hphase => exact hsweeping.phase hphase
    | exited hmain => simp [hsweeping.main] at hmain
  · rintro n ⟨_, t, ⟨ok, rfl⟩, hstep⟩
    cases (coordinatorMove_of_step hstep).2 with
    | closed hmain => simp [(sweeping_unattendedRun n).main] at hmain

end Unattended

/-- Stopped in the middle of a round, a coordinator exits; left to itself, it does round after
round. -/
theorem coordinator_sweeps_until_stopped_terminated :
    (∃ p, ∃ h : run CoordinatorProcess.step .start terminatedMidRound = some p,
      ((Execution.ofRun h).state 6).main = .sweeping ∧
      ∃ m code, 6 ≤ m ∧ ((Execution.ofRun h).state m).main = .exited code) ∧
    ∀ k, ∃ m, (List.replicate k sweepRound).flatten <+: (unattendedRun.state m).loop.sent := by
  refine ⟨?_, (coordinator_sweeps_until_stopped rfl fairCoordinator_unattendedRun).2
    fun n => (sweeping_unattendedRun n).stop⟩
  have hrun : (run CoordinatorProcess.step .start terminatedMidRound).map CoordinatorProcess.main =
      some (.exited 0) := by decide
  have hstopped : (run CoordinatorProcess.step .start (terminatedMidRound.take 6)).map
      (fun p => (p.main, p.stop.aborted)) = some (.sweeping, true) := by decide
  obtain ⟨p, h, hmain⟩ := Option.map_eq_some_iff.mp hrun
  obtain ⟨m, hm, hstate⟩ := Option.map_eq_some_iff.mp hstopped
  obtain ⟨hsweeping, haborted⟩ := Prod.mk.inj hstate
  have hat : (Execution.ofRun h).state 6 = m := by simp [Execution.ofRun, hm]
  have hfair : ∀ kind : CoordinatorAction → Prop, (Execution.ofRun h).WeaklyFair kind := by
    intro kind
    refine Execution.ofRun_weaklyFair h ?_
    rintro ⟨a, t, -, hstep⟩
    simp [CoordinatorProcess.step, CoordinatorProcess.isRunning, hmain] at hstep
  have hends := coordinator_sweeps_until_stopped rfl ⟨hfair _, hfair _, hfair _, hfair _⟩
  exact ⟨p, h, hat ▸ hsweeping, hends.1 6 (hat ▸ haborted)⟩

end DurableRunner.Guarantees
