import DurableRunner.Worker.Loop

/-! # The calls of a worker loop, block by block -/
namespace DurableRunner.Worker
open Schema Operations TransitionSystem

/-- One turn of the loop: a claim that found nothing, or a claimed step with the answers to its
renewals, what its executor did and the answer to its report. -/
inductive Block where
  | idle
  | worked (step : ClaimedStep) (renewals : List RenewalAnswer) (outcome : ExecutorOutcome)
      (answer : ReportAnswer)

/-- One renewal, answered before anything else is sent. -/
def renewalEvents (o : LoopOptions) (step : ClaimedStep) (answer : RenewalAnswer) : List LoopEvent :=
  [.called (.renewStepLease ⟨step.id, o.workerId, step.leaseVersion⟩ o.leaseDurationMs),
    .renewalAnswered answer]

/-- A claimed step with its answered renewals. -/
def begun (o : LoopOptions) (step : ClaimedStep) (renewals : List RenewalAnswer) : List LoopEvent :=
  [.called (.claimNextStep o.workerId o.leaseDurationMs), .claimAnswered (.claimed step)] ++
    renewals.flatMap (renewalEvents o step)

def finalReport (workerId : WorkerId) (step : ClaimedStep) : ExecutorOutcome → Call
  | .resolved output => .completeStepSuccess ⟨step.id, workerId, step.leaseVersion⟩ output
  | .threw errorText isInvalidTask =>
    .recordStepFailure ⟨step.id, workerId, step.leaseVersion⟩ errorText (!isInvalidTask)

namespace Block

def events (o : LoopOptions) : Block → List LoopEvent
  | .idle => [.called (.claimNextStep o.workerId o.leaseDurationMs), .claimAnswered .notClaimed]
  | .worked step renewals outcome answer =>
    begun o step renewals ++
      [.called (finalReport o.workerId step outcome), .reportAnswered answer]

def outcomes : Block → List (ClaimedStep × ExecutorOutcome)
  | .idle => []
  | .worked step _ outcome _ => [(step, outcome)]

/-- A rejected renewal is the last one. -/
def WellFormed : Block → Prop
  | .idle => True
  | .worked _ renewals _ _ => .rejected ∉ renewals.dropLast

end Block

/-- What a coroutine has been answered, by what it awaits. -/
inductive Renewed : RenewalPhase → List RenewalAnswer → Prop
  | sleeping {answers} (h : .rejected ∉ answers) : Renewed .sleeping answers
  | renewing {answers} (h : .rejected ∉ answers) : Renewed (.renewing none) answers
  | answered {answers} (h : .rejected ∉ answers) (answer) :
    Renewed (.renewing (some answer)) (answers ++ [answer])
  | done {answers} (h : .rejected ∉ answers.dropLast) : Renewed .done answers

theorem Renewed.rejected_last {phase : RenewalPhase} {answers : List RenewalAnswer}
    (h : Renewed phase answers) : .rejected ∉ answers.dropLast := by
  cases h with
  | sleeping h | renewing h => exact fun hmem => h (List.dropLast_subset _ hmem)
  | answered h => simpa using h
  | done h => exact h

/-- The renewal that is not answered yet. -/
def inFlight (o : LoopOptions) (step : ClaimedStep) : RenewalPhase → List LoopEvent
  | .renewing none =>
    [.called (.renewStepLease ⟨step.id, o.workerId, step.leaseVersion⟩ o.leaseDurationMs)]
  | _ => []

theorem inFlight_of_ne {o : LoopOptions} {step : ClaimedStep} {phase : RenewalPhase}
    (h : phase ≠ .renewing none) : inFlight o step phase = [] := by
  cases phase with
  | sleeping | done => rfl
  | renewing answer =>
    cases answer with
    | none => exact absurd rfl h
    | some answer => rfl

def AllDone (renewals : List LeaseRenewal) : Prop := ∀ r ∈ renewals, r.phase = .done

/-- What the trace and the outcomes hold after the last whole block. -/
inductive Rest (o : LoopOptions) (s : LoopState) :
    List LoopEvent → List (ClaimedStep × ExecutorOutcome) → Prop
  | claiming (hphase : s.phase = .claiming none) (hdone : AllDone s.renewals) :
    Rest o s [.called (.claimNextStep o.workerId o.leaseDurationMs)] []
  | claimAnswered (answer : ClaimAnswer) (hphase : s.phase = .claiming (some answer))
      (hdone : AllDone s.renewals) :
    Rest o s [.called (.claimNextStep o.workerId o.leaseDurationMs), .claimAnswered answer] []
  | polling (hphase : s.phase = .polling) (hdone : AllDone s.renewals) : Rest o s [] []
  | executing {step outcome before phase answers}
      (hphase : s.phase = .executing step before.length outcome)
      (hrenewals : s.renewals = before ++ [⟨step, false, phase⟩]) (hdone : AllDone before)
      (hrenewed : Renewed phase answers) :
    Rest o s (begun o step answers ++ inFlight o step phase) (outcome.toList.map (Prod.mk step))
  | draining {step outcome before phase answers}
      (hphase : s.phase = .draining step before.length outcome)
      (hrenewals : s.renewals = before ++ [⟨step, true, phase⟩]) (hdone : AllDone before)
      (hrenewed : Renewed phase answers) :
    Rest o s (begun o step answers ++ inFlight o step phase) [(step, outcome)]
  | reporting {step outcome answers} (hphase : s.phase = .reporting step outcome none)
      (hdone : AllDone s.renewals) (hrejected : .rejected ∉ answers.dropLast) :
    Rest o s (begun o step answers ++ [.called (finalReport o.workerId step outcome)]) [(step, outcome)]
  | reported {step outcome answers answer} (hphase : s.phase = .reporting step outcome (some answer))
      (hdone : AllDone s.renewals) (hrejected : .rejected ∉ answers.dropLast) :
    Rest o s ((Block.worked step answers outcome answer).events o) [(step, outcome)]
  | returned (hphase : s.phase = .returned) (hdone : AllDone s.renewals) : Rest o s [] []
  | rejected (hphase : s.phase = .rejected) (hdone : AllDone s.renewals) :
    Rest o s [.called (.claimNextStep o.workerId o.leaseDurationMs), .claimAnswered .threw] []

/-- The trace is a sequence of whole blocks and the rest. -/
structure Sequential (o : LoopOptions) (s : LoopState) (blocks : List Block)
    (rest : List LoopEvent) (outcomes : List (ClaimedStep × ExecutorOutcome)) : Prop where
  wellFormed : ∀ b ∈ blocks, b.WellFormed
  rests : Rest o s rest outcomes
  trace : s.trace = blocks.flatMap (Block.events o) ++ rest
  executed : s.outcomes = blocks.flatMap Block.outcomes ++ outcomes

section Steps
variable {o : LoopOptions} {s t : LoopState} {blocks : List Block} {rest : List LoopEvent}
  {outcomes : List (ClaimedStep × ExecutorOutcome)} {action : LoopAction}

theorem report_eq_finalReport (step : ClaimedStep) (outcome : ExecutorOutcome) :
    o.report step outcome = finalReport o.workerId step outcome := by
  cases outcome <;> rfl

theorem Rest.congr (h : Rest o s rest outcomes) (hphase : t.phase = s.phase)
    (hrenewals : t.renewals = s.renewals) : Rest o t rest outcomes := by
  cases h with
  | claiming h hdone => exact .claiming (hphase.trans h) (hrenewals ▸ hdone)
  | claimAnswered answer h hdone => exact .claimAnswered answer (hphase.trans h) (hrenewals ▸ hdone)
  | polling h hdone => exact .polling (hphase.trans h) (hrenewals ▸ hdone)
  | executing h hr hdone hrenewed => exact .executing (hphase.trans h) (hrenewals.trans hr) hdone hrenewed
  | draining h hr hdone hrenewed => exact .draining (hphase.trans h) (hrenewals.trans hr) hdone hrenewed
  | reporting h hdone hrejected => exact .reporting (hphase.trans h) (hrenewals ▸ hdone) hrejected
  | reported h hdone hrejected => exact .reported (hphase.trans h) (hrenewals ▸ hdone) hrejected
  | returned h hdone => exact .returned (hphase.trans h) (hrenewals ▸ hdone)
  | rejected h hdone => exact .rejected (hphase.trans h) (hrenewals ▸ hdone)

theorem sequential_head (hblocks : ∀ b ∈ blocks, b.WellFormed) (hdone : AllDone s.renewals)
    (htrace : s.trace = blocks.flatMap (Block.events o))
    (houtcomes : s.outcomes = blocks.flatMap Block.outcomes) :
    ∃ rest, Sequential o (s.head o) blocks rest [] := by
  unfold LoopState.head
  split
  · exact ⟨[], hblocks, .returned rfl hdone, by simp [htrace], by simp [houtcomes]⟩
  · exact ⟨_, hblocks, .claiming rfl hdone, by simp [LoopState.call, LoopOptions.claim, htrace], by simp [LoopState.call, houtcomes]⟩

theorem sequential_start (o : LoopOptions) (aborted : Bool) :
    ∃ rest, Sequential o (.start o aborted) [] rest [] :=
  sequential_head (by simp) (by simp [AllDone]) rfl rfl

/-- Only the coroutine that is not done can move, and it is the last. -/
theorem eq_of_getElem? {before : List LeaseRenewal} {current r : LeaseRenewal} {i : ℕ}
    (hget : (before ++ [current])[i]? = some r) (hdone : AllDone before) (hr : r.phase ≠ .done) :
    i = before.length ∧ r = current := by
  rw [List.getElem?_append] at hget
  split at hget
  · exact absurd (hdone r (List.mem_of_getElem? hget)) hr
  · rename_i hge
    have hlt := (List.getElem?_eq_some_iff.mp hget).1
    have hi : i = before.length := by
      simp only [List.length_singleton] at hlt
      omega
    subst hi
    simp only [Nat.sub_self, List.getElem?_cons_zero, Option.some.injEq] at hget
    exact ⟨rfl, hget.symm⟩

theorem set_current {before : List LeaseRenewal} {current next : LeaseRenewal} :
    (before ++ [current]).set before.length next = before ++ [next] := by
  simp

def LoopAction.isRenewal : LoopAction → Bool
  | .renewalAnswered _ _ | .renewalResumes _ => true
  | _ => false

theorem no_renewal_of_allDone (hdone : AllDone s.renewals) (haction : action.isRenewal = true) :
    s.step o action = none := by
  cases action with
  | renewalAnswered i answer =>
    simp only [LoopState.step, Option.bind_eq_none_iff]
    intro r hget
    simp [hdone r (List.mem_of_getElem? hget)]
  | renewalResumes i =>
    simp only [LoopState.step, Option.bind_eq_none_iff]
    intro r hget
    simp [LoopState.renewalResumes, hdone r (List.mem_of_getElem? hget)]
  | abort | claimAnswered | executorSettled | reportAnswered | resume => cases haction

/-- What the moves of the current coroutine add to the trace. -/
theorem renewal_step {before : List LeaseRenewal} {step : ClaimedStep} {stopped : Bool}
    {phase : RenewalPhase} {answers : List RenewalAnswer}
    (hrenewals : s.renewals = before ++ [⟨step, stopped, phase⟩]) (hdone : AllDone before)
    (hrenewed : Renewed phase answers) (haction : action.isRenewal = true)
    (hstep : s.step o action = some t) : ∃ phase' answers' events,
      t.renewals = before ++ [⟨step, stopped, phase'⟩] ∧ Renewed phase' answers' ∧
      t.phase = s.phase ∧ t.outcomes = s.outcomes ∧ t.trace = s.trace ++ events ∧
      begun o step answers ++ inFlight o step phase ++ events =
        begun o step answers' ++ inFlight o step phase' := by
  cases action with
  | abort | claimAnswered | executorSettled | reportAnswered | resume => cases haction
  | renewalAnswered i answer =>
    simp only [LoopState.step, Option.bind_eq_some_iff, Option.ite_none_right_eq_some,
      Option.some.injEq] at hstep
    obtain ⟨r, hget, hphase, rfl⟩ := hstep
    obtain ⟨rfl, rfl⟩ := eq_of_getElem? (hrenewals ▸ hget) hdone (by simp [hphase])
    obtain rfl : phase = .renewing none := hphase
    cases hrenewed with
    | renewing hrejected =>
      refine ⟨.renewing (some answer), answers ++ [answer], [.renewalAnswered answer], ?_,
        .answered hrejected answer, rfl, rfl, rfl, ?_⟩
      · simp only [LoopState.setRenewal, hrenewals, set_current]
      · simp [begun, inFlight, renewalEvents]
  | renewalResumes i =>
    simp only [LoopState.step, Option.bind_eq_some_iff] at hstep
    obtain ⟨r, hget, hstep⟩ := hstep
    have hr : r.phase ≠ .done := by
      intro hphase
      simp [LoopState.renewalResumes, hphase] at hstep
    obtain ⟨rfl, rfl⟩ := eq_of_getElem? (hrenewals ▸ hget) hdone hr
    cases hrenewed with
    | sleeping hrejected =>
      simp only [LoopState.renewalResumes] at hstep
      split at hstep <;> obtain rfl := Option.some.inj hstep
      · refine ⟨.done, answers, [], ?_, .done fun hmem => hrejected (List.dropLast_subset _ hmem), rfl, rfl,
          (List.append_nil _).symm, by simp [inFlight]⟩
        simp only [LoopState.setRenewal, hrenewals, set_current]
      · refine ⟨.renewing none, answers, [.called (o.renew step)], ?_, .renewing hrejected, rfl, rfl, rfl,
          by simp [inFlight, LoopOptions.renew, LoopOptions.credential]⟩
        simp only [LoopState.setRenewal, LoopState.call, hrenewals, set_current]
    | renewing => simp [LoopState.renewalResumes] at hstep
    | done => exact absurd rfl hr
    | @answered answers hrejected answer =>
      have hnext : ∃ phase', Renewed phase' (answers ++ [answer]) ∧ phase' ≠ .renewing none ∧
          t = s.setRenewal before.length ⟨step, stopped, phase'⟩ := by
        cases answer with
        | rejected =>
          exact ⟨.done, .done (by simpa using hrejected), nofun, (Option.some.inj hstep).symm⟩
        | renewed | threw =>
          refine ⟨if stopped then .done else .sleeping, ?_, by cases stopped <;> simp, (Option.some.inj hstep).symm⟩
          cases stopped with
          | true => exact .done (by simpa using hrejected)
          | false => exact .sleeping (by simpa using hrejected)
      obtain ⟨phase', hrenewed', hphase', rfl⟩ := hnext
      refine ⟨phase', _, [], ?_, hrenewed', rfl, rfl, (List.append_nil _).symm, ?_⟩
      · simp only [LoopState.setRenewal, hrenewals, set_current]
      · rw [inFlight_of_ne hphase', inFlight_of_ne (by simp)]
        simp

def IsSequential (o : LoopOptions) (s : LoopState) : Prop :=
  ∃ blocks rest outcomes, Sequential o s blocks rest outcomes

theorem Sequential.renewal (h : Sequential o s blocks rest outcomes)
    (haction : action.isRenewal = true) (hstep : s.step o action = some t) : IsSequential o t := by
  obtain ⟨hblocks, hrest, htrace, houtcomes⟩ := h
  cases hrest with
  | claiming _ hdone | claimAnswered _ _ hdone | polling _ hdone | reporting _ hdone | reported _ hdone
  | returned _ hdone | rejected _ hdone =>
    rw [no_renewal_of_allDone hdone haction] at hstep
    cases hstep
  | executing hphase hrenewals hdone hrenewed =>
    obtain ⟨phase', answers', events, hrenewals', hrenewed', hphase', houtcomes', htrace', hevents⟩ :=
      renewal_step hrenewals hdone hrenewed haction hstep
    refine ⟨blocks, _, _, hblocks, .executing (hphase'.trans hphase) hrenewals' hdone hrenewed', ?_,
      houtcomes'.trans houtcomes⟩
    rw [htrace', htrace, List.append_assoc, hevents]
  | draining hphase hrenewals hdone hrenewed =>
    obtain ⟨phase', answers', events, hrenewals', hrenewed', hphase', houtcomes', htrace', hevents⟩ :=
      renewal_step hrenewals hdone hrenewed haction hstep
    refine ⟨blocks, _, _, hblocks, .draining (hphase'.trans hphase) hrenewals' hdone hrenewed', ?_,
      houtcomes'.trans houtcomes⟩
    rw [htrace', htrace, List.append_assoc, hevents]

theorem Sequential.resume (h : Sequential o s blocks rest outcomes) (hstep : s.resume o = some t) :
    IsSequential o t := by
  obtain ⟨hblocks, hrest, htrace, houtcomes⟩ := h
  cases hrest with
  | claiming hphase | returned hphase | rejected hphase | reporting hphase =>
    simp [LoopState.resume, hphase] at hstep
  | polling hphase hdone =>
    simp only [LoopState.resume, hphase, Option.some.injEq] at hstep
    subst hstep
    obtain ⟨rest, hhead⟩ := sequential_head hblocks hdone (by simpa using htrace) (by simpa using houtcomes)
    exact ⟨_, rest, _, hhead⟩
  | claimAnswered answer hphase hdone =>
    simp only [LoopState.resume, hphase, Option.some.injEq] at hstep
    subst hstep
    cases answer with
    | notClaimed =>
      refine ⟨blocks ++ [.idle], [], [], ?_, .polling rfl hdone, ?_, ?_⟩
      · simpa [or_imp, forall_and] using ⟨hblocks, trivial⟩
      · simp [LoopState.afterClaim, htrace, Block.events]
      · simp [LoopState.afterClaim, houtcomes, Block.outcomes]
    | claimed step =>
      have hrenewed : Renewed .sleeping [] := .sleeping (by simp)
      refine ⟨blocks, _, _, hblocks, .executing rfl rfl hdone hrenewed, ?_, ?_⟩
      · simp [LoopState.afterClaim, htrace, begun, inFlight]
      · simp [LoopState.afterClaim, houtcomes]
    | threw => exact ⟨blocks, _, _, hblocks, .rejected rfl hdone, htrace, houtcomes⟩
  | @executing step outcome before phase answers hphase hrenewals hdone hrenewed =>
    cases outcome with
    | none => simp [LoopState.resume, hphase] at hstep
    | some outcome =>
      have hget : s.renewals[before.length]? = some ⟨step, false, phase⟩ := by simp [hrenewals]
      simp only [LoopState.resume, hphase, hget, Option.map_some, Option.some.injEq] at hstep
      subst hstep
      refine ⟨blocks, _, _, hblocks, .draining rfl ?_ hdone hrenewed, htrace, houtcomes⟩
      simp only [LoopState.setRenewal, hrenewals, set_current]
  | @draining step outcome before phase answers hphase hrenewals hdone hrenewed =>
    have hget : s.renewals[before.length]? = some ⟨step, true, phase⟩ := by simp [hrenewals]
    simp only [LoopState.resume, hphase, hget, Option.bind_some, Option.ite_none_right_eq_some,
      Option.some.injEq] at hstep
    obtain ⟨rfl, rfl⟩ := hstep
    have hall : AllDone s.renewals := by
      intro r hr
      rw [hrenewals] at hr
      rcases List.mem_append.mp hr with hr | hr
      · exact hdone r hr
      · rw [List.mem_singleton.mp hr]
    refine ⟨blocks, _, _, hblocks, .reporting rfl hall hrenewed.rejected_last, ?_, houtcomes⟩
    simp [LoopState.call, htrace, inFlight, report_eq_finalReport]
  | @reported step outcome answers answer hphase hdone hrejected =>
    simp only [LoopState.resume, hphase, Option.some.injEq] at hstep
    subst hstep
    obtain ⟨rest, hhead⟩ : ∃ rest, Sequential o (s.head o)
        (blocks ++ [.worked step answers outcome answer]) rest [] := by
      refine sequential_head ?_ hdone ?_ ?_
      · simpa [or_imp, forall_and] using ⟨hblocks, hrejected⟩
      · simpa using htrace
      · simpa [Block.outcomes] using houtcomes
    exact ⟨_, rest, _, hhead⟩

theorem Sequential.step (h : Sequential o s blocks rest outcomes) (hstep : s.step o action = some t) :
    IsSequential o t := by
  cases action with
  | renewalAnswered | renewalResumes => exact h.renewal rfl hstep
  | resume => exact h.resume hstep
  | abort =>
    obtain rfl := Option.some.inj hstep
    exact ⟨blocks, rest, outcomes, h.wellFormed, h.rests.congr rfl rfl, h.trace, h.executed⟩
  | claimAnswered answer =>
    obtain ⟨hblocks, hrest, htrace, houtcomes⟩ := h
    cases hrest with
    | claiming hphase hdone =>
      simp only [LoopState.step, hphase, Option.some.injEq] at hstep
      subst hstep
      refine ⟨blocks, _, _, hblocks, .claimAnswered answer rfl hdone, ?_, houtcomes⟩
      simp [htrace]
    | claimAnswered _ hphase | polling hphase | executing hphase | draining hphase | reporting hphase
    | reported hphase | returned hphase | rejected hphase => simp [LoopState.step, hphase] at hstep
  | executorSettled outcome =>
    obtain ⟨hblocks, hrest, htrace, houtcomes⟩ := h
    cases hrest with
    | @executing step outcome? before phase answers hphase hrenewals hdone hrenewed =>
      cases outcome? with
      | some _ => simp [LoopState.step, hphase] at hstep
      | none =>
        simp only [LoopState.step, hphase, Option.some.injEq] at hstep
        subst hstep
        refine ⟨blocks, _, _, hblocks, .executing rfl hrenewals hdone hrenewed, htrace, ?_⟩
        simp [houtcomes]
    | claiming hphase | claimAnswered _ hphase | polling hphase | draining hphase | reporting hphase
    | reported hphase | returned hphase | rejected hphase => simp [LoopState.step, hphase] at hstep
  | reportAnswered answer =>
    obtain ⟨hblocks, hrest, htrace, houtcomes⟩ := h
    cases hrest with
    | reporting hphase hdone hrejected =>
      simp only [LoopState.step, hphase, Option.some.injEq] at hstep
      subst hstep
      refine ⟨blocks, _, _, hblocks, .reported rfl hdone hrejected, ?_, houtcomes⟩
      simp [htrace, Block.events]
    | claiming hphase | claimAnswered _ hphase | polling hphase | executing hphase | draining hphase
    | reported hphase | returned hphase | rejected hphase => simp [LoopState.step, hphase] at hstep

theorem IsSequential.step (h : IsSequential o s) (hstep : s.step o action = some t) :
    IsSequential o t := by
  obtain ⟨blocks, rest, outcomes, h⟩ := h
  exact h.step hstep

theorem isSequential_of_run {aborted : Bool} {as : List LoopAction}
    (h : run (LoopState.step o) (.start o aborted) as = some s) : IsSequential o s := by
  obtain ⟨rest, hstart⟩ := sequential_start o aborted
  exact Reaches.invariant (fun _ _ _ hs hstep => hs.step hstep) ⟨as, h⟩ ⟨[], rest, [], hstart⟩

end Steps
end DurableRunner.Worker
