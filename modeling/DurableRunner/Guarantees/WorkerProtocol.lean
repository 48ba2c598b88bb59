import DurableRunner.TransitionSystem.Fairness
import DurableRunner.Worker.LoopBlocks

/-! # The protocol of a worker loop -/
namespace DurableRunner.Guarantees
open Schema Operations TransitionSystem Worker

def isReport : Call → Bool
  | .completeStepSuccess _ _ | .recordStepFailure _ _ _ => true
  | _ => false

/-- The beginning of a block whose report, once sent, is about what the executor did; or a claim
that threw. -/
def Unfinished (o : LoopOptions) (rest : List LoopEvent)
    (outcomes : List (ClaimedStep × ExecutorOutcome)) : Prop :=
  (∃ b : Block, b.WellFormed ∧ rest <+: b.events o ∧ outcomes <+: b.outcomes ∧
    ((∃ call, isReport call = true ∧ .called call ∈ rest) → outcomes = b.outcomes)) ∨
  rest = [.called (.claimNextStep o.workerId o.leaseDurationMs), .claimAnswered .threw] ∧ outcomes = []

def isClaim : Call → Bool
  | .claimNextStep _ _ => true
  | _ => false

def inBlock (s : LoopState) (_ : LoopAction) : Bool :=
  match s.phase with
  | .executing _ _ _ | .draining _ _ _ | .reporting _ _ none => true
  | _ => false

def afterAbort (s : LoopState) : LoopState := { s with aborted := true }

/-- What holds of a worker loop wherever it stands. -/
structure FollowsProtocol (o : LoopOptions) (s : LoopState) : Prop where
  /-- The calls are those of whole blocks and of one that is under way. -/
  inBlocks : ∃ (blocks : List Block) (rest : List LoopEvent)
    (outcomes : List (ClaimedStep × ExecutorOutcome)), (∀ b ∈ blocks, b.WellFormed) ∧
    s.trace = blocks.flatMap (Block.events o) ++ rest ∧
    s.outcomes = blocks.flatMap Block.outcomes ++ outcomes ∧ Unfinished o rest outcomes ∧
    (s.phase = .returned → rest = [])
  /-- A renewal that threw may be followed by another. -/
  retries : ∀ (i : ℕ) (step : ClaimedStep),
    s.renewals[i]? = some ⟨step, false, .renewing (some .threw)⟩ →
      ∃ t, run (LoopState.step o) s [.renewalResumes i, .renewalResumes i] = some t ∧
        t.trace = s.trace ++
          [.called (.renewStepLease ⟨step.id, o.workerId, step.leaseVersion⟩ o.leaseDurationMs)]
  /-- After an abort no claim is sent. -/
  claimsNoMore : s.aborted = true → ∀ t, Reaches (LoopState.step o) s t →
    ∃ events, t.trace = s.trace ++ events ∧ ∀ call, isClaim call = true → .called call ∉ events
  /-- Until a claimed step has its report answered, an abort changes nothing. -/
  finishesBlock : ∀ as, run (guarded (LoopState.step o) inBlock) (afterAbort s) as =
    (run (guarded (LoopState.step o) inBlock) s as).map afterAbort
  /-- Only a claim that threw ends the loop with an error, and it does. -/
  rejects : s.phase = .rejected → ∃ events, s.trace = events ++
    [.called (.claimNextStep o.workerId o.leaseDurationMs), .claimAnswered .threw]
  ends : .claimAnswered .threw ∈ s.trace → s.phase = .claiming (some .threw) ∨ s.phase = .rejected

section Protocol
variable {o : LoopOptions} {s t : LoopState} {blocks : List Block} {rest : List LoopEvent}
  {outcomes : List (ClaimedStep × ExecutorOutcome)} {action : LoopAction}

theorem not_isReport_of_mem_begun {step : ClaimedStep} {answers : List RenewalAnswer} {call : Call}
    (h : .called call ∈ begun o step answers) : isReport call = false := by
  simp only [begun, renewalEvents, List.mem_append, List.mem_cons, LoopEvent.called.injEq, reduceCtorEq,
    List.not_mem_nil, or_false, List.mem_flatMap] at h
  rcases h with rfl | ⟨_, -, rfl⟩ <;> rfl

theorem not_isReport_of_mem_inFlight {step : ClaimedStep} {phase : RenewalPhase} {call : Call}
    (h : .called call ∈ inFlight o step phase) : isReport call = false := by
  unfold inFlight at h
  split at h
  · obtain rfl := LoopEvent.called.inj (List.mem_singleton.mp h)
    rfl
  · cases h

/-- A block under way continues to a whole one. -/
theorem unfinished_begun {step : ClaimedStep} {phase : RenewalPhase} {answers : List RenewalAnswer}
    (hrenewed : Renewed phase answers) (outcome : Option ExecutorOutcome) :
    Unfinished o (begun o step answers ++ inFlight o step phase) (outcome.toList.map (Prod.mk step)) := by
  have hnone : ∀ {call}, .called call ∈ begun o step answers ++ inFlight o step phase →
      isReport call = false := by
    intro call hmem
    rcases List.mem_append.mp hmem with hmem | hmem
    · exact not_isReport_of_mem_begun hmem
    · exact not_isReport_of_mem_inFlight hmem
  obtain ⟨answers', hrejected, hprefix⟩ : ∃ answers', RenewalAnswer.rejected ∉ answers'.dropLast ∧
      begun o step answers ++ inFlight o step phase <+: begun o step answers' := by
    by_cases hphase : phase = .renewing none
    · subst hphase
      cases hrenewed with
      | renewing h =>
        refine ⟨answers ++ [.renewed], by simpa using h, [.renewalAnswered .renewed], ?_⟩
        simp [begun, inFlight, renewalEvents]
    · rw [inFlight_of_ne hphase, List.append_nil]
      exact ⟨answers, hrenewed.rejected_last, List.prefix_refl _⟩
  refine .inl ⟨.worked step answers' (outcome.getD (.resolved .null)) .threw, hrejected,
    hprefix.trans (List.prefix_append _ _), ?_, ?_⟩
  · cases outcome with
    | none => exact List.nil_prefix
    | some outcome => exact List.prefix_refl _
  · rintro ⟨call, hreport, hmem⟩
    rw [hnone hmem] at hreport
    cases hreport

theorem unfinished_of_rest (h : Rest o s rest outcomes) : Unfinished o rest outcomes := by
  cases h with
  | claiming =>
    refine .inl ⟨.idle, trivial, ⟨[.claimAnswered .notClaimed], rfl⟩, List.nil_prefix, ?_⟩
    rintro -
    rfl
  | polling | returned => exact .inl ⟨.idle, trivial, List.nil_prefix, List.nil_prefix, fun _ => rfl⟩
  | rejected => exact .inr ⟨rfl, rfl⟩
  | claimAnswered answer =>
    cases answer with
    | notClaimed =>
      exact .inl ⟨.idle, trivial, List.prefix_refl _, List.nil_prefix, fun _ => rfl⟩
    | threw => exact .inr ⟨rfl, rfl⟩
    | claimed step =>
      have hrenewed : Renewed .sleeping [] := .sleeping (by simp)
      exact unfinished_begun hrenewed none
  | executing _ _ _ hrenewed => exact unfinished_begun hrenewed _
  | @draining step outcome _ _ _ _ _ _ hrenewed => exact unfinished_begun hrenewed (some outcome)
  | @reporting step outcome answers _ _ hrejected =>
    refine .inl ⟨.worked step answers outcome .threw, hrejected, ?_, List.prefix_refl _, fun _ => rfl⟩
    exact ⟨[.reportAnswered .threw], by simp [Block.events]⟩
  | @reported step outcome answers answer _ _ hrejected =>
    exact .inl ⟨.worked step answers outcome answer, hrejected, List.prefix_refl _, List.prefix_refl _, fun _ => rfl⟩

theorem inBlocks_of_sequential (h : IsSequential o s) : ∃ (blocks : List Block) (rest : List LoopEvent)
    (outcomes : List (ClaimedStep × ExecutorOutcome)), (∀ b ∈ blocks, b.WellFormed) ∧
    s.trace = blocks.flatMap (Block.events o) ++ rest ∧
    s.outcomes = blocks.flatMap Block.outcomes ++ outcomes ∧ Unfinished o rest outcomes ∧
    (s.phase = .returned → rest = []) := by
  obtain ⟨blocks, rest, outcomes, hblocks, hrest, htrace, houtcomes⟩ := h
  refine ⟨blocks, rest, outcomes, hblocks, htrace, houtcomes, unfinished_of_rest hrest, fun hreturned => ?_⟩
  cases hrest with
  | polling | returned => rfl
  | claiming hphase | claimAnswered _ hphase | executing hphase | draining hphase | reporting hphase
  | reported hphase | rejected hphase => simp [hphase] at hreturned

theorem retries_of_threw {i : ℕ} {step : ClaimedStep}
    (hget : s.renewals[i]? = some ⟨step, false, .renewing (some .threw)⟩) :
    ∃ t, run (LoopState.step o) s [.renewalResumes i, .renewalResumes i] = some t ∧
      t.trace = s.trace ++
        [.called (.renewStepLease ⟨step.id, o.workerId, step.leaseVersion⟩ o.leaseDurationMs)] := by
  have hlt := (List.getElem?_eq_some_iff.mp hget).1
  have hfirst : s.step o (.renewalResumes i) = some (s.setRenewal i ⟨step, false, .sleeping⟩) := by
    simp [LoopState.step, hget, LoopState.renewalResumes]
  have hget' : (s.setRenewal i ⟨step, false, .sleeping⟩).renewals[i]? = some ⟨step, false, .sleeping⟩ := by
    simp [LoopState.setRenewal, hlt]
  have hsecond := show (s.setRenewal i ⟨step, false, .sleeping⟩).step o (.renewalResumes i) = some _ by
    simp only [LoopState.step, hget', Option.bind_some, LoopState.renewalResumes]
    rfl
  exact ⟨_, (run_cons_eq_some _).mpr ⟨_, hfirst, (run_cons_eq_some _).mpr ⟨_, hsecond, rfl⟩⟩, rfl⟩

/-- What a step adds to the trace; nothing clears the signal, and no claim is sent under it. -/
theorem trace_of_step (hstep : s.step o action = some t) : ∃ events, t.trace = s.trace ++ events ∧
    (s.aborted = true → t.aborted = true ∧ ∀ call, isClaim call = true → .called call ∉ events) := by
  have hhead : ∀ u : LoopState, u.trace = s.trace → u.aborted = s.aborted →
      ∃ events, (u.head o).trace = s.trace ++ events ∧
        (s.aborted = true → (u.head o).aborted = true ∧ ∀ call, isClaim call = true → .called call ∉ events) := by
    intro u htrace haborted
    unfold LoopState.head
    split
    · exact ⟨[], by simp [htrace], fun h => ⟨haborted.trans h, by simp⟩⟩
    · rename_i hnot
      exact ⟨[.called o.claim], by simp [LoopState.call, htrace], fun h => absurd (haborted.trans h) hnot⟩
  cases action with
  | abort =>
    obtain rfl := Option.some.inj hstep
    exact ⟨[], by simp, fun _ => ⟨rfl, by simp⟩⟩
  | claimAnswered answer | executorSettled outcome | reportAnswered answer =>
    simp only [LoopState.step] at hstep
    split at hstep
    · obtain rfl := Option.some.inj hstep
      first
        | exact ⟨_, rfl, fun h => ⟨h, by simp⟩⟩
        | exact ⟨[], by simp, fun h => ⟨h, by simp⟩⟩
    · cases hstep
  | renewalAnswered i answer =>
    simp only [LoopState.step, Option.bind_eq_some_iff, Option.ite_none_right_eq_some,
      Option.some.injEq] at hstep
    obtain ⟨r, -, -, rfl⟩ := hstep
    exact ⟨[.renewalAnswered answer], rfl, fun h => ⟨h, by simp⟩⟩
  | renewalResumes i =>
    simp only [LoopState.step, Option.bind_eq_some_iff] at hstep
    obtain ⟨r, -, hstep⟩ := hstep
    unfold LoopState.renewalResumes at hstep
    split at hstep
    · split at hstep <;> obtain rfl := Option.some.inj hstep
      · exact ⟨[], by simp [LoopState.setRenewal], fun h => ⟨h, by simp⟩⟩
      · refine ⟨[.called (o.renew r.step)], rfl, fun h => ⟨h, fun call hclaim hmem => ?_⟩⟩
        obtain rfl := LoopEvent.called.inj (List.mem_singleton.mp hmem)
        cases hclaim
    · obtain rfl := Option.some.inj hstep
      exact ⟨[], by simp [LoopState.setRenewal], fun h => ⟨h, by simp⟩⟩
    · obtain rfl := Option.some.inj hstep
      exact ⟨[], by simp [LoopState.setRenewal], fun h => ⟨h, by simp⟩⟩
    · cases hstep
    · cases hstep
  | resume =>
    simp only [LoopState.step, LoopState.resume] at hstep
    split at hstep
    · rename_i answer _
      obtain rfl := Option.some.inj hstep
      cases answer <;> exact ⟨[], by simp [LoopState.afterClaim], fun h => ⟨h, by simp⟩⟩
    · obtain rfl := Option.some.inj hstep
      exact hhead s rfl rfl
    · obtain ⟨r, -, rfl⟩ := Option.map_eq_some_iff.mp hstep
      exact ⟨[], by simp [LoopState.setRenewal], fun h => ⟨h, by simp⟩⟩
    · rename_i step i outcome _
      simp only [Option.bind_eq_some_iff, Option.ite_none_right_eq_some, Option.some.injEq] at hstep
      obtain ⟨r, -, -, rfl⟩ := hstep
      refine ⟨[.called (o.report step outcome)], rfl, fun h => ⟨h, fun call hclaim hmem => ?_⟩⟩
      obtain rfl := LoopEvent.called.inj (List.mem_singleton.mp hmem)
      cases outcome <;> cases hclaim
    · obtain rfl := Option.some.inj hstep
      exact hhead s rfl rfl
    all_goals cases hstep

theorem claimsNoMore_of_aborted (haborted : s.aborted = true) (h : Reaches (LoopState.step o) s t) :
    ∃ events, t.trace = s.trace ++ events ∧ ∀ call, isClaim call = true → .called call ∉ events := by
  have hboth : t.aborted = true ∧ ∃ events, t.trace = s.trace ++ events ∧ ∀ call, isClaim call = true → .called call ∉ events := by
    refine h.rec_tail (motive := fun t => t.aborted = true ∧
      ∃ events, t.trace = s.trace ++ events ∧ ∀ call, isClaim call = true → .called call ∉ events) ⟨haborted, [], by simp, by simp⟩ ?_
    rintro m a u - ⟨hm, events, htrace, hnone⟩ hstep
    obtain ⟨more, htrace', hmore⟩ := trace_of_step hstep
    obtain ⟨hu, hnone'⟩ := hmore hm
    refine ⟨hu, events ++ more, by rw [htrace', htrace, List.append_assoc], fun call hclaim hmem => ?_⟩
    rcases List.mem_append.mp hmem with hmem | hmem
    · exact hnone call hclaim hmem
    · exact hnone' call hclaim hmem
  exact hboth.2

theorem step_afterAbort (hblock : inBlock s action = true) :
    (afterAbort s).step o action = (s.step o action).map afterAbort := by
  obtain ⟨phase, renewals, aborted, trace, outcomes⟩ := s
  cases action with
  | abort => rfl
  | claimAnswered answer | executorSettled outcome | reportAnswered answer =>
    simp only [LoopState.step, afterAbort]
    split <;> rfl
  | renewalAnswered i answer =>
    simp only [LoopState.step, afterAbort]
    cases renewals[i]? with
    | none => rfl
    | some r =>
      simp only [Option.bind_some]
      split <;> rfl
  | renewalResumes i =>
    simp only [LoopState.step, afterAbort]
    cases renewals[i]? with
    | none => rfl
    | some r =>
      simp only [Option.bind_some, LoopState.renewalResumes]
      split
      · split <;> rfl
      all_goals rfl
  | resume =>
    cases phase with
    | claiming | polling | returned | rejected => cases hblock
    | executing step i outcome =>
      cases outcome with
      | none => rfl
      | some outcome =>
        simp only [LoopState.step, LoopState.resume, afterAbort]
        cases renewals[i]? <;> rfl
    | draining step i outcome =>
      simp only [LoopState.step, LoopState.resume, afterAbort]
      cases renewals[i]? with
      | none => rfl
      | some r =>
        simp only [Option.bind_some]
        split <;> rfl
    | reporting step outcome answer =>
      cases answer with
      | none => rfl
      | some answer => cases hblock

theorem run_afterAbort (as : List LoopAction) :
    run (guarded (LoopState.step o) inBlock) (afterAbort s) as =
      (run (guarded (LoopState.step o) inBlock) s as).map afterAbort := by
  induction as generalizing s with
  | nil => rfl
  | cons action as ih =>
    have hsame : inBlock (afterAbort s) action = inBlock s action := rfl
    rw [run_cons, run_cons, guarded, guarded, hsame]
    split
    · rename_i hblock
      rw [step_afterAbort hblock]
      cases s.step o action with
      | none => rfl
      | some t => exact ih
    · rfl

theorem not_threw_mem_events (b : Block) : .claimAnswered .threw ∉ b.events o := by
  cases b <;> simp [Block.events, begun, renewalEvents]

theorem rejects_of_sequential (h : IsSequential o s) (hrejected : s.phase = .rejected) :
    ∃ events, s.trace = events ++
      [.called (.claimNextStep o.workerId o.leaseDurationMs), .claimAnswered .threw] := by
  obtain ⟨blocks, rest, outcomes, -, hrest, htrace, -⟩ := h
  cases hrest with
  | rejected => exact ⟨_, htrace⟩
  | claiming hphase | claimAnswered _ hphase | polling hphase | executing hphase | draining hphase
  | reporting hphase | reported hphase | returned hphase => simp [hphase] at hrejected

theorem ends_of_sequential (h : IsSequential o s) (hthrew : .claimAnswered .threw ∈ s.trace) :
    s.phase = .claiming (some .threw) ∨ s.phase = .rejected := by
  obtain ⟨blocks, rest, outcomes, -, hrest, htrace, -⟩ := h
  rw [htrace, List.mem_append, List.mem_flatMap] at hthrew
  rcases hthrew with ⟨b, -, hb⟩ | hmem
  · exact absurd hb (not_threw_mem_events b)
  · have hbegun : ∀ {step answers events}, LoopEvent.claimAnswered .threw ∈ begun o step answers ++ events →
        .claimAnswered .threw ∈ events := by
      intro step answers events hmem
      simpa [begun, renewalEvents] using hmem
    cases hrest with
    | claimAnswered answer hphase =>
      obtain rfl : ClaimAnswer.threw = answer := by simpa using hmem
      exact .inl hphase
    | rejected hphase => exact .inr hphase
    | claiming | polling | returned => simp at hmem
    | executing _ _ _ hrenewed | draining _ _ _ hrenewed =>
      have hmem := hbegun hmem
      unfold inFlight at hmem
      split at hmem <;> simp at hmem
    | reporting => simpa using hbegun hmem
    | reported => exact absurd hmem (not_threw_mem_events _)

theorem followsProtocol_of_sequential (h : IsSequential o s) : FollowsProtocol o s where
  inBlocks := inBlocks_of_sequential h
  retries _ _ hget := retries_of_threw hget
  claimsNoMore haborted _ hreaches := claimsNoMore_of_aborted haborted hreaches
  finishesBlock := run_afterAbort
  rejects := rejects_of_sequential h
  ends := ends_of_sequential h

end Protocol

/-- Executors end, renewals are answered, and whatever can go on does. -/
structure FairLoop {o : LoopOptions} (e : Execution (LoopState.step o)) : Prop where
  resumes : e.WeaklyFair fun action => action = .resume
  executors : e.WeaklyFair fun action => ∃ outcome, action = .executorSettled outcome
  answers : ∀ i, e.WeaklyFair fun action => ∃ answer, action = .renewalAnswered i answer
  renewals : ∀ i, e.WeaklyFair fun action => action = .renewalResumes i

def Executing (step : ClaimedStep) (i : ℕ) (outcome : Option ExecutorOutcome) (o : LoopOptions)
    (s : LoopState) : Prop := IsSequential o s ∧ s.phase = .executing step i outcome

def Stopping (step : ClaimedStep) (i : ℕ) (outcome : ExecutorOutcome) (phase : RenewalPhase)
    (s : LoopState) : Prop :=
  ∃ before, before.length = i ∧ s.phase = .draining step i outcome ∧
    s.renewals = before ++ [⟨step, true, phase⟩] ∧ AllDone before

def ReportSent (step : ClaimedStep) (s : LoopState) : Prop :=
  ∃ outcome, s.phase = .reporting step outcome none

section Liveness
variable {o : LoopOptions} {s t : LoopState} {action : LoopAction} {step : ClaimedStep} {i : ℕ}
  {outcome : ExecutorOutcome} {phase : RenewalPhase}

/-- In a block only the end of the executor and the resumption after it change the phase. -/
theorem executing_step {outcome? : Option ExecutorOutcome} (hs : Executing step i outcome? o s)
    (hstep : s.step o action = some t) :
      (action ≠ .resume ∧ (∀ outcome, action ≠ .executorSettled outcome) ∧ Executing step i outcome? o t) ∨
      (outcome? = none ∧ ∃ outcome, action = .executorSettled outcome ∧
        Executing step i (some outcome) o t) ∨
      ∃ outcome phase, outcome? = some outcome ∧ action = .resume ∧ Stopping step i outcome phase t := by
  obtain ⟨hsequential, hphase⟩ := hs
  have hsequential' := hsequential.step hstep
  cases action with
  | abort =>
    obtain rfl := Option.some.inj hstep
    exact .inl ⟨by simp, by simp, hsequential', hphase⟩
  | claimAnswered | reportAnswered => simp [LoopState.step, hphase] at hstep
  | executorSettled outcome =>
    cases outcome? with
    | some _ => simp [LoopState.step, hphase] at hstep
    | none =>
      simp only [LoopState.step, hphase, Option.some.injEq] at hstep
      subst hstep
      exact .inr (.inl ⟨rfl, outcome, rfl, hsequential', rfl⟩)
  | renewalAnswered j answer =>
    simp only [LoopState.step, Option.bind_eq_some_iff, Option.ite_none_right_eq_some,
      Option.some.injEq] at hstep
    obtain ⟨r, -, -, rfl⟩ := hstep
    exact .inl ⟨by simp, by simp, hsequential', hphase⟩
  | renewalResumes j =>
    refine .inl ⟨by simp, by simp, hsequential', ?_⟩
    simp only [LoopState.step, Option.bind_eq_some_iff] at hstep
    obtain ⟨r, -, hstep⟩ := hstep
    unfold LoopState.renewalResumes at hstep
    split at hstep
    · split at hstep <;> obtain rfl := Option.some.inj hstep <;> exact hphase
    · obtain rfl := Option.some.inj hstep
      exact hphase
    · obtain rfl := Option.some.inj hstep
      exact hphase
    all_goals cases hstep
  | resume =>
    cases outcome? with
    | none => simp [LoopState.step, LoopState.resume, hphase] at hstep
    | some outcome =>
      simp only [LoopState.step, LoopState.resume, hphase, Option.map_eq_some_iff] at hstep
      obtain ⟨r, hget, rfl⟩ := hstep
      obtain ⟨blocks, rest, outcomes, -, hrest, -, -⟩ := hsequential
      cases hrest with
      | @executing step' _ before phase _ hphase' hrenewals hdone _ =>
        obtain ⟨rfl, rfl, -⟩ := LoopPhase.executing.inj (hphase.symm.trans hphase')
        have hr : s.renewals[before.length]? = some ⟨step, false, phase⟩ := by simp [hrenewals]
        obtain rfl := Option.some.inj (hget.symm.trans hr)
        refine .inr (.inr ⟨outcome, phase, rfl, rfl, before, rfl, rfl, ?_, hdone⟩)
        simp only [LoopState.setRenewal, hrenewals, set_current]
      | claiming hphase' | claimAnswered _ hphase' | polling hphase' | draining hphase'
      | reporting hphase' | reported hphase' | returned hphase' | rejected hphase' =>
        simp [hphase] at hphase'

theorem draining_step (hs : Stopping step i outcome phase s) (hstep : s.step o action = some t) :
    (action = .abort ∧ Stopping step i outcome phase t) ∨
    (action = .resume ∧ phase = .done ∧ ReportSent step t) ∨
    (action = .renewalResumes i ∧ (phase = .sleeping ∨ ∃ answer, phase = .renewing (some answer)) ∧
      Stopping step i outcome .done t) ∨
    ∃ answer, action = .renewalAnswered i answer ∧ phase = .renewing none ∧
      Stopping step i outcome (.renewing (some answer)) t := by
  obtain ⟨before, hi, hphase, hrenewals, hdone⟩ := hs
  cases action with
  | abort =>
    obtain rfl := Option.some.inj hstep
    exact .inl ⟨rfl, before, hi, hphase, hrenewals, hdone⟩
  | claimAnswered | executorSettled | reportAnswered => simp [LoopState.step, hphase] at hstep
  | resume =>
    have hr : s.renewals[i]? = some ⟨step, true, phase⟩ := by simp [hrenewals, ← hi]
    simp only [LoopState.step, LoopState.resume, hphase, hr, Option.bind_some,
      Option.ite_none_right_eq_some, Option.some.injEq] at hstep
    obtain ⟨rfl, rfl⟩ := hstep
    exact .inr (.inl ⟨rfl, rfl, outcome, rfl⟩)
  | renewalAnswered j answer =>
    simp only [LoopState.step, Option.bind_eq_some_iff, Option.ite_none_right_eq_some,
      Option.some.injEq] at hstep
    obtain ⟨r, hget, hrenewing, rfl⟩ := hstep
    obtain ⟨hj, rfl⟩ := eq_of_getElem? (hrenewals ▸ hget) hdone (by simp [hrenewing])
    obtain rfl : j = i := hj.trans hi
    obtain rfl : phase = .renewing none := hrenewing
    refine .inr (.inr (.inr ⟨answer, rfl, rfl, before, hi, hphase, ?_, hdone⟩))
    simp only [LoopState.setRenewal, hrenewals, ← hi, set_current]
  | renewalResumes j =>
    simp only [LoopState.step, Option.bind_eq_some_iff] at hstep
    obtain ⟨r, hget, hstep⟩ := hstep
    have hr : r.phase ≠ .done := by
      intro hphase
      simp [LoopState.renewalResumes, hphase] at hstep
    obtain ⟨hj, rfl⟩ := eq_of_getElem? (hrenewals ▸ hget) hdone hr
    obtain rfl : j = i := hj.trans hi
    have hends : (phase = .sleeping ∨ ∃ answer, phase = .renewing (some answer)) ∧
        t = s.setRenewal j ⟨step, true, .done⟩ := by
      cases phase with
      | sleeping => exact ⟨.inl rfl, (Option.some.inj hstep).symm⟩
      | done => exact absurd rfl hr
      | renewing answer =>
        cases answer with
        | none => cases hstep
        | some answer =>
          refine ⟨.inr ⟨answer, rfl⟩, ?_⟩
          cases answer <;> exact (Option.some.inj hstep).symm
    obtain ⟨hends, rfl⟩ := hends
    refine .inr (.inr (.inl ⟨rfl, hends, before, hi, hphase, ?_, hdone⟩))
    simp only [LoopState.setRenewal, hrenewals, ← hi, set_current]

variable {e : Execution (LoopState.step o)}

theorem drained_leadsTo (hfair : FairLoop e) :
    e.LeadsTo (Stopping step i outcome .done) (ReportSent step) := by
  refine .of_weaklyFair hfair.resumes ?_ ?_ ?_
  · rintro s ⟨before, hi, hphase, hrenewals, -⟩
    have hr : s.renewals[i]? = some ⟨step, true, .done⟩ := by simp [hrenewals, ← hi]
    refine ⟨.resume, { s.call (o.report step outcome) with phase := .reporting step outcome none }, rfl, ?_⟩
    simp [LoopState.step, LoopState.resume, hphase, hr]
  · intro s action t hs hstep
    rcases draining_step hs hstep with ⟨-, hsame⟩ | ⟨-, -, hreported⟩ | ⟨-, h | ⟨_, h⟩, -⟩ | ⟨_, -, h, -⟩
    · exact .inl hsame
    · exact .inr hreported
    all_goals cases h
  · rintro s action t hs rfl hstep
    rcases draining_step hs hstep with ⟨h, -⟩ | ⟨-, -, hreported⟩ | ⟨h, -⟩ | ⟨_, h, -⟩
    · cases h
    · exact hreported
    all_goals cases h

theorem stopped_leadsTo (hfair : FairLoop e)
    (hphase : phase = .sleeping ∨ ∃ answer, phase = .renewing (some answer)) :
    e.LeadsTo (Stopping step i outcome phase) (Stopping step i outcome .done) := by
  have hnotDone : phase ≠ .done := by
    rintro rfl
    rcases hphase with h | ⟨_, h⟩ <;> cases h
  have hnotNone : phase ≠ .renewing none := by
    rintro rfl
    rcases hphase with h | ⟨_, h⟩ <;> cases h
  refine .of_weaklyFair (hfair.renewals i) ?_ ?_ ?_
  · rintro s ⟨before, hi, -, hrenewals, -⟩
    have hr : s.renewals[i]? = some ⟨step, true, phase⟩ := by simp [hrenewals, ← hi]
    refine ⟨.renewalResumes i, s.setRenewal i ⟨step, true, .done⟩, rfl, ?_⟩
    simp only [LoopState.step, hr, Option.bind_some]
    rcases hphase with rfl | ⟨answer, rfl⟩
    · rfl
    · cases answer <;> rfl
  · intro s action t hs hstep
    rcases draining_step hs hstep with ⟨-, hsame⟩ | ⟨-, h, -⟩ | ⟨-, -, hdone⟩ | ⟨_, -, h, -⟩
    · exact .inl hsame
    · exact absurd h hnotDone
    · exact .inr hdone
    · exact absurd h hnotNone
  · rintro s action t hs rfl hstep
    rcases draining_step hs hstep with ⟨h, -⟩ | ⟨h, -⟩ | ⟨-, -, hdone⟩ | ⟨_, h, -⟩
    · cases h
    · cases h
    · exact hdone
    · cases h

theorem inFlight_leadsTo (hfair : FairLoop e) : e.LeadsTo (Stopping step i outcome (.renewing none))
    fun s => ∃ answer, Stopping step i outcome (.renewing (some answer)) s := by
  refine .of_weaklyFair (hfair.answers i) ?_ ?_ ?_
  · rintro s ⟨before, hi, -, hrenewals, -⟩
    have hr : s.renewals[i]? = some ⟨step, true, .renewing none⟩ := by simp [hrenewals, ← hi]
    refine ⟨.renewalAnswered i .renewed, { s.setRenewal i ⟨step, true, .renewing (some .renewed)⟩ with
      trace := s.trace ++ [.renewalAnswered .renewed] }, ⟨_, rfl⟩, ?_⟩
    simp [LoopState.step, hr]
  · intro s action t hs hstep
    rcases draining_step hs hstep with ⟨-, hsame⟩ | ⟨-, h, -⟩ | ⟨-, h | ⟨_, h⟩, -⟩ | ⟨answer, -, -, ht⟩
    · exact .inl hsame
    · cases h
    · cases h
    · cases h
    · exact .inr ⟨answer, ht⟩
  · rintro s action t hs ⟨answer, rfl⟩ hstep
    rcases draining_step hs hstep with ⟨h, -⟩ | ⟨h, -⟩ | ⟨h, -⟩ | ⟨answer, -, -, ht⟩
    · cases h
    · cases h
    · cases h
    · exact ⟨answer, ht⟩

theorem draining_leadsTo (hfair : FairLoop e) :
    e.LeadsTo (Stopping step i outcome phase) (ReportSent step) := by
  have hanswered : ∀ answer, e.LeadsTo (Stopping step i outcome (.renewing (some answer))) (ReportSent step) :=
    fun answer => (stopped_leadsTo hfair (.inr ⟨answer, rfl⟩)).trans (drained_leadsTo hfair)
  cases phase with
  | sleeping => exact (stopped_leadsTo hfair (.inl rfl)).trans (drained_leadsTo hfair)
  | done => exact drained_leadsTo hfair
  | renewing answer =>
    cases answer with
    | some answer => exact hanswered answer
    | none =>
      refine (inFlight_leadsTo hfair).trans fun n hn => ?_
      obtain ⟨answer, hn⟩ := hn
      exact hanswered answer n hn

theorem executed_leadsTo (hfair : FairLoop e) : e.LeadsTo (Executing step i (some outcome) o)
    fun s => ∃ phase, Stopping step i outcome phase s := by
  refine .of_weaklyFair hfair.resumes ?_ ?_ ?_
  · rintro s ⟨⟨blocks, rest, outcomes, -, hrest, -, -⟩, hphase⟩
    cases hrest with
    | @executing step' _ before phase _ hphase' hrenewals _ _ =>
      obtain ⟨rfl, rfl, -⟩ := LoopPhase.executing.inj (hphase.symm.trans hphase')
      have hr : s.renewals[before.length]? = some ⟨step, false, phase⟩ := by simp [hrenewals]
      refine ⟨.resume, { s.setRenewal before.length ⟨step, true, phase⟩ with
        phase := .draining step before.length outcome }, rfl, ?_⟩
      simp [LoopState.step, LoopState.resume, hphase, hr]
    | claiming hphase' | claimAnswered _ hphase' | polling hphase' | draining hphase'
    | reporting hphase' | reported hphase' | returned hphase' | rejected hphase' =>
      simp [hphase] at hphase'
  · intro s action t hs hstep
    rcases executing_step hs hstep with ⟨-, -, hsame⟩ | ⟨h, -⟩ | ⟨outcome', phase, h, -, hdraining⟩
    · exact .inl hsame
    · cases h
    · obtain rfl := Option.some.inj h
      exact .inr ⟨phase, hdraining⟩
  · rintro s action t hs rfl hstep
    rcases executing_step hs hstep with ⟨h, -⟩ | ⟨h, -⟩ | ⟨outcome', phase, h, -, hdraining⟩
    · exact absurd rfl h
    · cases h
    · obtain rfl := Option.some.inj h
      exact ⟨phase, hdraining⟩

theorem executing_leadsTo (hfair : FairLoop e) : e.LeadsTo (Executing step i none o)
    fun s => ∃ outcome, Executing step i (some outcome) o s := by
  refine .of_weaklyFair hfair.executors ?_ ?_ ?_
  · rintro s ⟨-, hphase⟩
    refine ⟨.executorSettled (.resolved .null), { s with
      phase := .executing step i (some (.resolved .null))
      outcomes := s.outcomes ++ [(step, .resolved .null)] }, ⟨_, rfl⟩, ?_⟩
    simp [LoopState.step, hphase]
  · intro s action t hs hstep
    rcases executing_step hs hstep with ⟨-, -, hsame⟩ | ⟨-, outcome, -, hsettled⟩ | ⟨outcome, _, h, -⟩
    · exact .inl hsame
    · exact .inr ⟨outcome, hsettled⟩
    · cases h
  · rintro s action t hs ⟨outcome, rfl⟩ hstep
    rcases executing_step hs hstep with ⟨-, h, -⟩ | ⟨-, outcome', -, hsettled⟩ | ⟨outcome, _, h, -⟩
    · exact absurd rfl (h outcome)
    · exact ⟨outcome', hsettled⟩
    · cases h

/-- A claimed step gets its report, aborted or not. -/
theorem claimed_leadsTo (hfair : FairLoop e) {outcome? : Option ExecutorOutcome} :
    e.LeadsTo (Executing step i outcome? o) (ReportSent step) := by
  have hsettled : ∀ outcome, e.LeadsTo (Executing step i (some outcome) o) (ReportSent step) := by
    intro outcome
    refine (executed_leadsTo hfair).trans fun n hn => ?_
    obtain ⟨phase, hn⟩ := hn
    exact draining_leadsTo hfair n hn
  cases outcome? with
  | some outcome => exact hsettled outcome
  | none =>
    refine (executing_leadsTo hfair).trans fun n hn => ?_
    obtain ⟨outcome, hn⟩ := hn
    exact hsettled outcome n hn

end Liveness

/-- Every run of a worker loop follows the protocol, and in every fair execution a claimed step gets
its final report. -/
theorem worker_loop_protocol (o : LoopOptions) (aborted : Bool) :
    (∀ as s, run (LoopState.step o) (.start o aborted) as = some s → FollowsProtocol o s) ∧
    ∀ e : Execution (LoopState.step o), e.state 0 = .start o aborted → FairLoop e →
      ∀ n step i outcome, (e.state n).phase = .executing step i outcome →
        ∃ m, n ≤ m ∧ ∃ outcome, (e.state m).phase = .reporting step outcome none := by
  refine ⟨fun as s h => followsProtocol_of_sequential (isSequential_of_run h), ?_⟩
  intro e hstart hfair n step i outcome hphase
  obtain ⟨as, has⟩ := e.reaches n
  have hsequential : IsSequential o (e.state n) := isSequential_of_run (hstart ▸ has)
  exact claimed_leadsTo hfair n ⟨hsequential, hphase⟩

theorem fairLoop_of_returned {o : LoopOptions} {s t : LoopState} {as : List LoopAction}
    (h : run (LoopState.step o) s as = some t) (hphase : t.phase = .returned)
    (hdone : AllDone t.renewals) : FairLoop (Execution.ofRun h) where
  resumes := Execution.ofRun_weaklyFair h <| by
    rintro ⟨action, u, rfl, hstep⟩
    simp [LoopState.step, LoopState.resume, hphase] at hstep
  executors := Execution.ofRun_weaklyFair h <| by
    rintro ⟨action, u, ⟨outcome, rfl⟩, hstep⟩
    simp [LoopState.step, hphase] at hstep
  answers i := Execution.ofRun_weaklyFair h <| by
    rintro ⟨action, u, ⟨answer, rfl⟩, hstep⟩
    rw [no_renewal_of_allDone hdone rfl] at hstep
    cases hstep
  renewals i := Execution.ofRun_weaklyFair h <| by
    rintro ⟨action, u, rfl, hstep⟩
    rw [no_renewal_of_allDone hdone rfl] at hstep
    cases hstep

def claimedOnce : ClaimedStep where
  id := 0
  workerId := some "worker-a"
  leaseVersion := ⟨1, Int4.inRange_one⟩
  attemptCount := ⟨1, Int4.inRange_one⟩
  leaseExpiresAt := some 30000000
  priority := ⟨0, Int4.inRange_zero⟩
  availableAt := 0
  taskType := "hash_after_delay"
  payload := .null

def shutdownError : JsString := .ofString "hash_after_delay payload must be an object, got null"

/-- A shutdown while the step is executed and its renewal is in flight. -/
def shutdownMidStep : List LoopAction :=
  [.claimAnswered (.claimed claimedOnce), .resume, .renewalResumes 0, .abort,
    .executorSettled (.threw shutdownError true), .resume, .renewalAnswered 0 .renewed, .renewalResumes 0,
    .resume, .reportAnswered .accepted, .resume]

theorem worker_loop_protocol_shutdown : ∃ s,
    ∃ h : run (LoopState.step ⟨"worker-a", 30000⟩) (.start ⟨"worker-a", 30000⟩ false) shutdownMidStep = some s,
      FollowsProtocol ⟨"worker-a", 30000⟩ s ∧
      s.trace = [.called (.claimNextStep "worker-a" 30000), .claimAnswered (.claimed claimedOnce),
        .called (.renewStepLease ⟨0, "worker-a", ⟨1, Int4.inRange_one⟩⟩ 30000), .renewalAnswered .renewed,
        .called (.recordStepFailure ⟨0, "worker-a", ⟨1, Int4.inRange_one⟩⟩ shutdownError false),
        .reportAnswered .accepted] ∧
      ∃ m, 2 ≤ m ∧ ∃ outcome, ((Execution.ofRun h).state m).phase = .reporting claimedOnce outcome none := by
  have hrun : (run (LoopState.step ⟨"worker-a", 30000⟩) (.start ⟨"worker-a", 30000⟩ false)
      shutdownMidStep).map (fun s => (s.phase, s.renewals, s.trace)) =
        some (.returned, [⟨claimedOnce, true, .done⟩],
          [.called (.claimNextStep "worker-a" 30000), .claimAnswered (.claimed claimedOnce),
            .called (.renewStepLease ⟨0, "worker-a", ⟨1, Int4.inRange_one⟩⟩ 30000), .renewalAnswered .renewed,
            .called (.recordStepFailure ⟨0, "worker-a", ⟨1, Int4.inRange_one⟩⟩ shutdownError false),
            .reportAnswered .accepted]) := by decide +kernel
  have hclaimed : (run (LoopState.step ⟨"worker-a", 30000⟩) (.start ⟨"worker-a", 30000⟩ false)
      (shutdownMidStep.take 2)).map LoopState.phase = some (.executing claimedOnce 0 none) := by
    decide +kernel
  obtain ⟨s, h, hstate⟩ := Option.map_eq_some_iff.mp hrun
  obtain ⟨m, hm, hexecuting⟩ := Option.map_eq_some_iff.mp hclaimed
  obtain ⟨hphase, hrest⟩ := Prod.mk.inj hstate
  obtain ⟨hrenewals, htrace⟩ := Prod.mk.inj hrest
  obtain ⟨hprotocol, hreports⟩ := worker_loop_protocol ⟨"worker-a", 30000⟩ false
  have hfair : FairLoop (Execution.ofRun h) :=
    fairLoop_of_returned h hphase (by simp [AllDone, hrenewals])
  refine ⟨s, h, hprotocol _ s h, htrace, hreports _ rfl hfair 2 claimedOnce 0 none ?_⟩
  simpa [Execution.ofRun, hm] using hexecuting

end DurableRunner.Guarantees
