import DurableRunner.Guarantees.WorkerProtocol
import DurableRunner.TransitionSystem.Components

/-! # The end of a worker loop whose signal has aborted -/
namespace DurableRunner.Worker
open Schema Operations TransitionSystem Guarantees

/-- The promise of `runWorkerLoop` is settled. -/
def LoopState.Over (s : LoopState) : Prop := s.phase = .returned ∨ s.phase = .rejected

/-- Every call is answered, and whatever can go on does. -/
structure FairCalls {o : LoopOptions} (e : TransitionSystem.Execution (LoopState.step o)) : Prop extends FairLoop e where
  claims : e.WeaklyFair fun action => ∃ answer, action = .claimAnswered answer
  reports : e.WeaklyFair fun action => ∃ answer, action = .reportAnswered answer

section Ends
variable {o : LoopOptions} {s t : LoopState} {action : LoopAction}

inductive LoopMove (o : LoopOptions) (s t : LoopState) : LoopAction → Prop
  | waits {a} (ha : a = .abort ∨ a.isRenewal = true) (hphase : t.phase = s.phase) : LoopMove o s t a
  | claimAnswered {answer} (hphase : s.phase = .claiming none)
      (hphase' : t.phase = .claiming (some answer)) : LoopMove o s t (.claimAnswered answer)
  | executorSettled {step i outcome} (hphase : s.phase = .executing step i none)
      (hphase' : t.phase = .executing step i (some outcome)) : LoopMove o s t (.executorSettled outcome)
  | reportAnswered {step outcome answer} (hphase : s.phase = .reporting step outcome none)
      (hphase' : t.phase = .reporting step outcome (some answer)) : LoopMove o s t (.reportAnswered answer)
  | resumed (h : s.resume o = some t) : LoopMove o s t .resume

theorem loopMove_of_step (hstep : s.step o action = some t) : LoopMove o s t action := by
  cases action with
  | abort =>
    obtain rfl := Option.some.inj hstep
    exact .waits (.inl rfl) rfl
  | claimAnswered answer =>
    simp only [LoopState.step] at hstep
    split at hstep
    · rename_i hphase
      obtain rfl := Option.some.inj hstep
      exact .claimAnswered hphase rfl
    · cases hstep
  | executorSettled outcome =>
    simp only [LoopState.step] at hstep
    split at hstep
    · rename_i hphase
      obtain rfl := Option.some.inj hstep
      exact .executorSettled hphase rfl
    · cases hstep
  | reportAnswered answer =>
    simp only [LoopState.step] at hstep
    split at hstep
    · rename_i hphase
      obtain rfl := Option.some.inj hstep
      exact .reportAnswered hphase rfl
    · cases hstep
  | renewalAnswered i answer =>
    simp only [LoopState.step, Option.bind_eq_some_iff, Option.ite_none_right_eq_some,
      Option.some.injEq] at hstep
    obtain ⟨r, -, -, rfl⟩ := hstep
    exact .waits (.inr rfl) rfl
  | resume => exact .resumed hstep
  | renewalResumes i =>
    simp only [LoopState.step, Option.bind_eq_some_iff] at hstep
    obtain ⟨r, -, hstep⟩ := hstep
    refine .waits (.inr rfl) ?_
    unfold LoopState.renewalResumes at hstep
    split at hstep
    · split at hstep <;> obtain rfl := Option.some.inj hstep <;> rfl
    · obtain rfl := Option.some.inj hstep
      rfl
    · obtain rfl := Option.some.inj hstep
      rfl
    all_goals cases hstep

theorem aborted_head (s : LoopState) : (s.head o).aborted = s.aborted := by
  unfold LoopState.head
  split <;> rfl

theorem aborted_of_head {s : LoopState} (h : (s.head o).phase = .returned) : s.aborted = true := by
  by_contra hnot
  rw [LoopState.head, if_neg hnot] at h
  cases h

/-- Only an abort sets the signal, and the loop returns only under it. -/
theorem aborted_of_step (hstep : s.step o action = some t)
    (ha : action ≠ .abort) :
    t.aborted = s.aborted ∧ (t.phase = .returned → s.phase = .returned ∨ s.aborted = true) := by
  cases action with
  | abort => exact absurd rfl ha
  | claimAnswered | executorSettled | reportAnswered =>
    simp only [LoopState.step] at hstep
    split at hstep
    · obtain rfl := Option.some.inj hstep
      exact ⟨rfl, fun h => by cases h⟩
    · cases hstep
  | renewalAnswered i answer =>
    simp only [LoopState.step, Option.bind_eq_some_iff, Option.ite_none_right_eq_some,
      Option.some.injEq] at hstep
    obtain ⟨r, -, -, rfl⟩ := hstep
    exact ⟨rfl, .inl⟩
  | renewalResumes i =>
    simp only [LoopState.step, Option.bind_eq_some_iff] at hstep
    obtain ⟨r, -, hstep⟩ := hstep
    unfold LoopState.renewalResumes at hstep
    split at hstep
    · split at hstep <;> obtain rfl := Option.some.inj hstep <;> exact ⟨rfl, .inl⟩
    · obtain rfl := Option.some.inj hstep
      exact ⟨rfl, .inl⟩
    · obtain rfl := Option.some.inj hstep
      exact ⟨rfl, .inl⟩
    all_goals cases hstep
  | resume =>
    have hhead : (s.head o).aborted = s.aborted ∧
        ((s.head o).phase = .returned → s.phase = .returned ∨ s.aborted = true) :=
      ⟨aborted_head s, fun hreturned => .inr (aborted_of_head hreturned)⟩
    simp only [LoopState.step, LoopState.resume] at hstep
    split at hstep
    · rename_i answer _
      obtain rfl := Option.some.inj hstep
      cases answer <;> exact ⟨rfl, fun h => by cases h⟩
    · obtain rfl := Option.some.inj hstep
      exact hhead
    · obtain ⟨r, -, rfl⟩ := Option.map_eq_some_iff.mp hstep
      exact ⟨rfl, fun h => by cases h⟩
    · simp only [Option.bind_eq_some_iff, Option.ite_none_right_eq_some, Option.some.injEq] at hstep
      obtain ⟨r, -, -, rfl⟩ := hstep
      exact ⟨rfl, fun h => by cases h⟩
    · obtain rfl := Option.some.inj hstep
      exact hhead
    all_goals cases hstep

def Stopped (o : LoopOptions) (s : LoopState) : Prop := s.aborted = true ∧ IsSequential o s

theorem stopped_step (s : LoopState) (action : LoopAction) (t : LoopState) (h : Stopped o s)
    (hstep : s.step o action = some t) : Stopped o t := by
  obtain ⟨events, -, hkept⟩ := trace_of_step hstep
  exact ⟨(hkept h.1).1, h.2.step hstep⟩

theorem head_of_aborted (h : s.aborted = true) : s.head o = { s with phase := .returned } :=
  if_pos h

def threwClaim : LoopPhase → Bool
  | .claiming (some .threw) | .rejected => true
  | _ => false

theorem threwClaim_head (s : LoopState) : threwClaim (s.head o).phase = false := by
  unfold LoopState.head
  split <;> rfl

theorem threwClaim_of_move (h : LoopMove o s t action) :
    threwClaim t.phase = true ↔ threwClaim s.phase = true ∨ action = .claimAnswered .threw := by
  cases h with
  | waits ha hphase =>
    have hnot : action ≠ .claimAnswered .threw := by
      rintro rfl
      simp [LoopAction.isRenewal] at ha
    simp [hphase, hnot]
  | @claimAnswered answer hphase hphase' =>
    cases answer <;> simp [hphase, hphase', threwClaim]
  | executorSettled hphase hphase' | reportAnswered hphase hphase' =>
    simp [hphase, hphase', threwClaim]
  | resumed h =>
    simp only [reduceCtorEq, or_false, Bool.coe_iff_coe]
    unfold LoopState.resume at h
    split at h
    · rename_i answer hphase
      obtain rfl := Option.some.inj h
      cases answer <;> simp [LoopState.afterClaim, hphase, threwClaim]
    · rename_i hphase
      obtain rfl := Option.some.inj h
      rw [threwClaim_head, hphase]
      rfl
    · rename_i hphase
      obtain ⟨r, -, rfl⟩ := Option.map_eq_some_iff.mp h
      simp [hphase, threwClaim]
    · rename_i hphase
      simp only [Option.bind_eq_some_iff, Option.ite_none_right_eq_some, Option.some.injEq] at h
      obtain ⟨r, -, -, rfl⟩ := h
      simp [hphase, threwClaim]
    · rename_i hphase
      obtain rfl := Option.some.inj h
      rw [threwClaim_head, hphase]
      rfl
    all_goals cases h

theorem allDone_of_over (h : IsSequential o s) (hover : s.Over) : AllDone s.renewals := by
  obtain ⟨blocks, rest, outcomes, -, hrest, -, -⟩ := h
  cases hrest with
  | returned _ hdone | rejected _ hdone => exact hdone
  | claiming hphase | claimAnswered _ hphase | polling hphase | executing hphase | draining hphase
  | reporting hphase | reported hphase =>
    rcases hover with hover | hover <;> simp [hphase] at hover

theorem step_of_over (hover : s.Over) (hdone : AllDone s.renewals) (ha : action ≠ .abort) :
    s.step o action = none := by
  cases action with
  | abort => exact absurd rfl ha
  | renewalAnswered | renewalResumes => exact no_renewal_of_allDone hdone rfl
  | claimAnswered | executorSettled | reportAnswered => rcases hover with h | h <;> simp [LoopState.step, h]
  | resume => rcases hover with h | h <;> simp [LoopState.step, LoopState.resume, h]

/-- A loop that is over has sent whole blocks, perhaps with a claim that threw after them. -/
theorem trace_of_over (h : IsSequential o s) (hover : s.Over) : ∃ blocks : List Block,
    (∀ b ∈ blocks, b.WellFormed) ∧ s.trace = blocks.flatMap (Block.events o) ++
      if threwClaim s.phase then [.called (.claimNextStep o.workerId o.leaseDurationMs), .claimAnswered .threw] else [] := by
  obtain ⟨blocks, rest, outcomes, hblocks, hrest, htrace, -⟩ := h
  refine ⟨blocks, hblocks, ?_⟩
  cases hrest with
  | returned hphase => simp [htrace, hphase, threwClaim]
  | rejected hphase => simp [htrace, hphase, threwClaim]
  | claiming hphase | claimAnswered _ hphase | polling hphase | executing hphase | draining hphase
  | reporting hphase | reported hphase =>
    rcases hover with hover | hover <;> simp [hphase] at hover

variable {e : TransitionSystem.Execution (LoopState.step o)}

/-- What the loop awaits comes to pass, while something else is kept. -/
theorem awaited_leadsTo {phase : LoopPhase} {kind : LoopAction → Prop} {r q : LoopState → Prop}
    (hfair : e.WeaklyFair kind) (hkept : ∀ s action t, r s → s.step o action = some t → r t)
    (henabled : ∀ s, s.phase = phase → Execution.Enabled (LoopState.step o) kind s)
    (hnext : ∀ s action t, s.phase = phase → r s → LoopMove o s t action →
      (¬ kind action ∧ t.phase = phase) ∨ q t) :
    e.LeadsTo (fun s => s.phase = phase ∧ r s) fun s => q s ∧ r s := by
  refine .of_weaklyFair hfair (fun s hs => henabled s hs.1) ?_ ?_
  · rintro s action t ⟨hphase, hs⟩ hstep
    rcases hnext s action t hphase hs (loopMove_of_step hstep) with ⟨-, hsame⟩ | hq
    · exact .inl ⟨hsame, hkept _ _ _ hs hstep⟩
    · exact .inr ⟨hq, hkept _ _ _ hs hstep⟩
  · rintro s action t ⟨hphase, hs⟩ hkind hstep
    rcases hnext s action t hphase hs (loopMove_of_step hstep) with ⟨hnot, -⟩ | hq
    · exact absurd hkind hnot
    · exact ⟨hq, hkept _ _ _ hs hstep⟩

theorem head_leadsTo (hfair : FairCalls e) {phase : LoopPhase}
    (hresume : ∀ s : LoopState, s.phase = phase → s.resume o = some (s.head o)) :
    e.LeadsTo (fun s => s.phase = phase ∧ Stopped o s) LoopState.Over := by
  refine (awaited_leadsTo (q := LoopState.Over) hfair.resumes stopped_step ?_ ?_).trans (.of_imp fun s hs => hs.1)
  · intro s hphase
    exact ⟨_, _, rfl, hresume s hphase⟩
  · intro s action t hphase hs hmove
    have hhead := hresume s hphase
    rw [head_of_aborted hs.1] at hhead
    cases hmove with
    | waits ha hsame =>
      refine .inl ⟨?_, hsame.trans hphase⟩
      rintro rfl
      simp [LoopAction.isRenewal] at ha
    | claimAnswered h | executorSettled h | reportAnswered h => simp [LoopState.resume, h] at hhead
    | resumed h =>
      obtain rfl := Option.some.inj (h.symm.trans hhead)
      exact .inr (.inl rfl)

theorem resume_of_reported {step : ClaimedStep} {outcome : ExecutorOutcome} {answer : ReportAnswer}
    (s : LoopState) (hphase : s.phase = .reporting step outcome (some answer)) :
    s.resume o = some (s.head o) := by
  simp [LoopState.resume, hphase]

theorem resume_of_polling (s : LoopState) (hphase : s.phase = .polling) :
    s.resume o = some (s.head o) := by
  simp [LoopState.resume, hphase]

theorem reporting_leadsTo (hfair : FairCalls e) {step : ClaimedStep} {outcome : ExecutorOutcome}
    {answer? : Option ReportAnswer} :
    e.LeadsTo (fun s => s.phase = .reporting step outcome answer? ∧ Stopped o s) LoopState.Over := by
  cases answer? with
  | some answer => exact head_leadsTo hfair resume_of_reported
  | none =>
    have hanswered : e.LeadsTo (fun s => s.phase = .reporting step outcome none ∧ Stopped o s)
        fun s => (∃ answer, s.phase = .reporting step outcome (some answer)) ∧ Stopped o s := by
      refine awaited_leadsTo hfair.reports stopped_step ?_ ?_
      · intro s hphase
        exact ⟨.reportAnswered .accepted, _, ⟨_, rfl⟩, by simp [LoopState.step, hphase]; rfl⟩
      · intro s action t hphase hs hmove
        cases hmove with
        | waits ha hsame =>
          refine .inl ⟨?_, hsame.trans hphase⟩
          rintro ⟨answer, rfl⟩
          simp [LoopAction.isRenewal] at ha
        | claimAnswered h | executorSettled h => simp [hphase] at h
        | reportAnswered h h' =>
          obtain ⟨rfl, rfl, -⟩ := LoopPhase.reporting.inj (hphase.symm.trans h)
          exact .inr ⟨_, h'⟩
        | resumed h => simp [LoopState.resume, hphase] at h
    refine hanswered.trans ?_
    rintro n ⟨⟨answer, hphase⟩, hs⟩
    exact head_leadsTo hfair resume_of_reported n ⟨hphase, hs⟩

theorem block_leadsTo (hfair : FairCalls e) {step : ClaimedStep} {i : ℕ}
    {outcome? : Option ExecutorOutcome} :
    e.LeadsTo (fun s => s.phase = .executing step i outcome? ∧ Stopped o s) LoopState.Over := by
  have hreport : e.LeadsTo (fun s => Executing step i outcome? o s ∧ Stopped o s)
      fun s => ReportSent step s ∧ Stopped o s :=
    (claimed_leadsTo hfair.toFairLoop).and_kept stopped_step
  intro n hn
  obtain ⟨m, hm, ⟨outcome, hphase⟩, hs⟩ := hreport n ⟨⟨hn.2.2, hn.1⟩, hn.2⟩
  obtain ⟨k, hk, hover⟩ := reporting_leadsTo hfair m ⟨hphase, hs⟩
  exact ⟨k, hm.trans hk, hover⟩

theorem draining_leadsTo_over (hfair : FairCalls e) {step : ClaimedStep} {i : ℕ}
    {outcome : ExecutorOutcome} :
    e.LeadsTo (fun s => s.phase = .draining step i outcome ∧ Stopped o s) LoopState.Over := by
  rintro n ⟨hphase, hs⟩
  obtain ⟨blocks, rest, outcomes, -, hrest, -, -⟩ := hs.2
  cases hrest with
  | @draining _ _ before phase _ hphase' hrenewals hdone _ =>
    obtain ⟨rfl, rfl, rfl⟩ := LoopPhase.draining.inj (hphase.symm.trans hphase')
    have hreport : e.LeadsTo
        (fun s => Stopping step before.length outcome phase s ∧ Stopped o s)
        fun s => ReportSent step s ∧ Stopped o s :=
      (draining_leadsTo hfair.toFairLoop).and_kept stopped_step
    obtain ⟨m, hm, ⟨outcome, hphase⟩, hs⟩ := hreport n ⟨⟨before, rfl, hphase, hrenewals, hdone⟩, hs⟩
    obtain ⟨k, hk, hover⟩ := reporting_leadsTo hfair m ⟨hphase, hs⟩
    exact ⟨k, hm.trans hk, hover⟩
  | claiming hphase' | claimAnswered _ hphase' | polling hphase' | executing hphase'
  | reporting hphase' | reported hphase' | returned hphase' | rejected hphase' =>
    simp [hphase] at hphase'

theorem claimAnswered_leadsTo (hfair : FairCalls e) {answer : ClaimAnswer} :
    e.LeadsTo (fun s => s.phase = .claiming (some answer) ∧ Stopped o s) LoopState.Over := by
  have hresumed : e.LeadsTo (fun s => s.phase = .claiming (some answer) ∧ Stopped o s)
      fun s => (s.phase = .polling ∨ (∃ step i, s.phase = .executing step i none) ∨
        s.phase = .rejected) ∧ Stopped o s := by
    refine awaited_leadsTo hfair.resumes stopped_step ?_ ?_
    · intro s hphase
      exact ⟨_, _, rfl, by simp [LoopState.step, LoopState.resume, hphase]; rfl⟩
    · intro s action t hphase hs hmove
      have hafter : ∀ u, s.resume o = some u → u.phase = .polling ∨
          (∃ step i, u.phase = .executing step i none) ∨ u.phase = .rejected := by
        intro u hu
        simp only [LoopState.resume, hphase, Option.some.injEq] at hu
        subst hu
        cases answer with
        | notClaimed => exact .inl rfl
        | claimed step => exact .inr (.inl ⟨_, _, rfl⟩)
        | threw => exact .inr (.inr rfl)
      cases hmove with
      | waits ha hsame =>
        refine .inl ⟨?_, hsame.trans hphase⟩
        rintro rfl
        simp [LoopAction.isRenewal] at ha
      | claimAnswered h | executorSettled h | reportAnswered h => simp [hphase] at h
      | resumed h => exact .inr (hafter t h)
  refine hresumed.trans ?_
  rintro n ⟨hpolling | ⟨step, i, hexecuting⟩ | hrejected, hs⟩
  · exact head_leadsTo hfair resume_of_polling n ⟨hpolling, hs⟩
  · exact block_leadsTo hfair n ⟨hexecuting, hs⟩
  · exact ⟨n, le_rfl, .inr hrejected⟩

theorem claiming_leadsTo (hfair : FairCalls e) :
    e.LeadsTo (fun s => s.phase = .claiming none ∧ Stopped o s) LoopState.Over := by
  have hanswered : e.LeadsTo (fun s => s.phase = .claiming none ∧ Stopped o s)
      fun s => (∃ answer, s.phase = .claiming (some answer)) ∧ Stopped o s := by
    refine awaited_leadsTo hfair.claims stopped_step ?_ ?_
    · intro s hphase
      exact ⟨.claimAnswered .notClaimed, _, ⟨_, rfl⟩, by simp [LoopState.step, hphase]; rfl⟩
    · intro s action t hphase hs hmove
      cases hmove with
      | waits ha hsame =>
        refine .inl ⟨?_, hsame.trans hphase⟩
        rintro ⟨answer, rfl⟩
        simp [LoopAction.isRenewal] at ha
      | claimAnswered h h' => exact .inr ⟨_, h'⟩
      | executorSettled h | reportAnswered h => simp [hphase] at h
      | resumed h => simp [LoopState.resume, hphase] at h
  refine hanswered.trans ?_
  rintro n ⟨⟨answer, hphase⟩, hs⟩
  exact claimAnswered_leadsTo hfair n ⟨hphase, hs⟩

/-- A worker loop whose signal has aborted comes to its end. -/
theorem stopped_leadsTo_over (hfair : FairCalls e) : e.LeadsTo (Stopped o) LoopState.Over := by
  intro n hs
  cases hphase : (e.state n).phase with
  | claiming answer? =>
    cases answer? with
    | none => exact claiming_leadsTo hfair n ⟨hphase, hs⟩
    | some answer => exact claimAnswered_leadsTo hfair n ⟨hphase, hs⟩
  | polling => exact head_leadsTo hfair resume_of_polling n ⟨hphase, hs⟩
  | executing step i outcome? => exact block_leadsTo hfair n ⟨hphase, hs⟩
  | draining step i outcome => exact draining_leadsTo_over hfair n ⟨hphase, hs⟩
  | reporting step outcome answer? => exact reporting_leadsTo hfair n ⟨hphase, hs⟩
  | returned => exact ⟨n, le_rfl, .inl hphase⟩
  | rejected => exact ⟨n, le_rfl, .inr hphase⟩

theorem threwClaim_leadsTo_over (hfair : FairCalls e) :
    e.LeadsTo (fun s => threwClaim s.phase = true) LoopState.Over := by
  intro n hthrew
  have hrejects : e.LeadsTo (fun s => s.phase = .claiming (some .threw) ∧ True)
      fun s => s.phase = .rejected ∧ True := by
    refine awaited_leadsTo hfair.resumes (fun _ _ _ _ _ => trivial) ?_ ?_
    · intro s hphase
      exact ⟨_, _, rfl, by simp [LoopState.step, LoopState.resume, hphase]; rfl⟩
    · intro s action t hphase _ hmove
      cases hmove with
      | waits ha hsame =>
        refine .inl ⟨?_, hsame.trans hphase⟩
        rintro rfl
        simp [LoopAction.isRenewal] at ha
      | claimAnswered h | executorSettled h | reportAnswered h => simp [hphase] at h
      | resumed h =>
        simp only [LoopState.resume, hphase, Option.some.injEq] at h
        subst h
        exact .inr rfl
  unfold threwClaim at hthrew
  split at hthrew
  · rename_i hphase
    obtain ⟨m, hm, hrejected, -⟩ := hrejects n ⟨hphase, trivial⟩
    exact ⟨m, hm, .inr hrejected⟩
  · exact ⟨n, le_rfl, .inr ‹_›⟩
  · cases hthrew

end Ends
end DurableRunner.Worker
