import DurableRunner.Guarantees.Lifecycle
import DurableRunner.Guarantees.Service
import DurableRunner.TransitionSystem.Fairness
import DurableRunner.Worker.ExecutedStep

/-! # Steps that are kept served

Attempts are reported or lost, and every one of them counts. A step that is kept
served ends: with the first attempt that is not lost and leaves nothing to
retry, or with the budget.
-/
namespace DurableRunner.Guarantees
open Schema Operations Effects Worker TransitionSystem
open Sessions hiding step

def Ended (id : StepId) (w : World) : Prop :=
  ∃ r, w.steps.find? id = some r ∧ r.status.isTerminalStepStatus = true

/-- The worker of the attempt crashes or loses its lease: no report is ever accepted, and the
lease is not extended for ever. -/
structure LostAttempt (w : ℕ → World) (id : StepId) (k : ℤ) : Prop where
  unreported : ∀ n, k ∉ reportedOn (w n).history id
  lapses : ∃ n₀ last, ∀ n r, n₀ ≤ n → (w n).steps.find? id = some r → r.status = .running →
    r.attemptCount.val = k → ∃ d, r.leaseExpiresAt = some d ∧ d ≤ last

/-- Once claimed, the attempt executes and its report is accepted. -/
def ReportedAttempt (w : ℕ → World) (id : StepId) (k : ℤ) : Prop :=
  ∀ n, (∃ s ∈ claimsOf (w n).history id, s.attemptCount.val = k) →
    ∃ m, k ∈ reportedOn (w m).history id

/-- Coordinators keep sweeping, workers keep claiming, and time passes. -/
structure KeptServed (w : ℕ → World) (id : StepId) : Prop where
  recovers : ∀ n, Serves w id (fun call => call = .recoverExpiredSteps) n
  promotes : ∀ n, Serves w id (fun call => call = .promoteDueRetries) n
  claims : ∀ n, Serves w id (fun call => ∃ workerId ms, call = .claimNextStep workerId ms) n
  time : ∀ bound, ∃ n, ∀ m, n ≤ m → bound ≤ (w m).clock

def Execution.Settles : Worker.Execution → Prop
  | .resolves _ => True
  | .throws error => error.retryable = false
  | .applies _ => False

/-- The attempts within the budget that settle the step unless they are lost. -/
def Settling (sha256Hex : String → String) (lost : Set ℤ) (r₀ : StepRow) : Set ℤ :=
  {k | 1 ≤ k ∧ k ≤ r₀.maxAttempts.val ∧ k ∉ lost ∧ Execution.Settles (attemptAt sha256Hex r₀ k)}

/-- The attempts made that threw and were not lost. -/
def Thrown (sha256Hex : String → String) (lost : Set ℤ) (r₀ r : StepRow) : Set ℤ :=
  {j | 1 ≤ j ∧ j ≤ r.attemptCount.val ∧ j ∉ lost ∧ ∃ error, attemptAt sha256Hex r₀ j = .throws error}

/-- The message of the last of the attempts that threw. -/
inductive LastThrown (sha256Hex : String → String) (r₀ : StepRow) (thrown : Set ℤ) :
    Option JsString → Prop
  | none (hempty : thrown = ∅) : LastThrown sha256Hex r₀ thrown none
  | some {j : ℤ} {error : ExecutorError} {message : JsString} (hgreatest : IsGreatest thrown j)
      (hthrows : attemptAt sha256Hex r₀ j = .throws error)
      (hmessage : error.message? = some message) :
      LastThrown sha256Hex r₀ thrown (some message.toWellFormed)

/-- The row in which a step without an effect ends. -/
structure StepOutcome (sha256Hex : String → String) (lost : Set ℤ) (r₀ r : StepRow) : Prop where
  resolved : ∀ k result, IsLeast (Settling sha256Hex lost r₀) k →
    attemptAt sha256Hex r₀ k = .resolves result →
      r.status = .succeeded ∧ r.attemptCount.val = k ∧ r.result = some result.jsonb
  rejected : ∀ k error, IsLeast (Settling sha256Hex lost r₀) k →
    attemptAt sha256Hex r₀ k = .throws error →
      r.status = .deadLettered ∧ r.attemptCount.val = k ∧ r.result = none
  spent : Settling sha256Hex lost r₀ = ∅ →
    r.status = .deadLettered ∧ r.attemptCount.val = r₀.maxAttempts.val ∧ r.result = none
  lastError : LastThrown sha256Hex r₀ (Thrown sha256Hex lost r₀ r) r.lastError

section Timeline
variable {w : ℕ → World} {id : StepId}

/-- What was accepted stays accepted. -/
theorem Timeline.acceptedOn_prefix (h : Timeline w) {m n : ℕ} (hmn : m ≤ n) :
    acceptedOn (w m).history id <+: acceptedOn (w n).history id := by
  induction n, hmn using Nat.le_induction with
  | base => exact List.prefix_rfl
  | succ n hmn ih =>
    rcases h.follows n with hsame | ⟨a, hstep⟩
    · rwa [hsame]
    · rcases acceptedOn_step (.reaches h.initial (h.reaches n)) hstep id with ⟨haccepted, -⟩ |
        ⟨c, ch, haccepted, -⟩
      · rwa [haccepted]
      · rw [haccepted]
        exact ih.trans (List.prefix_append _ _)

theorem Timeline.reportedOn_mono (h : Timeline w) {m n : ℕ} (hmn : m ≤ n) {k : ℤ}
    (hk : k ∈ reportedOn (w m).history id) : k ∈ reportedOn (w n).history id :=
  ((h.acceptedOn_prefix hmn).filterMap _).subset hk

/-- Nothing is accepted on a step that has ended. -/
theorem Timeline.frozen (h : Timeline w) {m n : ℕ} (hmn : m ≤ n) {r : StepRow}
    (hr : (w m).steps.find? id = some r) (hterminal : r.status.isTerminalStepStatus = true) :
    (w n).steps.find? id = some r ∧
      acceptedOn (w n).history id = acceptedOn (w m).history id := by
  induction n, hmn using Nat.le_induction with
  | base => exact ⟨hr, rfl⟩
  | succ n hmn ih =>
    obtain ⟨hrow, hops⟩ := ih
    rcases h.follows n with hsame | ⟨a, hstep⟩
    · rw [hsame]
      exact ⟨hrow, hops⟩
    · rcases acceptedOn_step (.reaches h.initial (h.reaches n)) hstep id with ⟨haccepted, hkept⟩ |
        ⟨c, ch, -, hbefore, -, hperforms, hch, -⟩
      · exact ⟨hkept.trans hrow, haccepted.trans hops⟩
      · obtain rfl := Option.some.inj (hrow.symm.trans hbefore)
        exact absurd (hperforms.transition hch) (not_transition_of_terminal hterminal)

/-- All that happens to a row between two changes of its status. -/
def Renewed (r r' : StepRow) : Prop :=
  r' = r ∨ r.status = .running ∧ r'.status = .running ∧ r'.attemptCount = r.attemptCount

variable {r r' r'' : StepRow}

theorem Renewed.trans (h : Renewed r r') (h' : Renewed r' r'') :
    Renewed r r'' := by
  rcases h' with rfl | ⟨hrunning, hrunning', hattempt'⟩
  · exact h
  · rcases h with rfl | ⟨hstart, -, hattempt⟩
    · exact .inr ⟨hrunning, hrunning', hattempt'⟩
    · exact .inr ⟨hstart, hrunning', hattempt'.trans hattempt⟩

theorem Renewed.eq (h : Renewed r r') (hwaits : r.status ≠ .running) : r' = r :=
  h.resolve_right fun hrenewed => hwaits hrenewed.1

theorem Renewed.running (h : Renewed r r') (hrunning : r.status = .running) :
    r'.status = .running ∧ r'.attemptCount = r.attemptCount := by
  rcases h with rfl | ⟨-, hstill, hattempt⟩
  · exact ⟨hrunning, rfl⟩
  · exact ⟨hstill, hattempt⟩

theorem renewed_of_transition {call : Call} {start instant checkedAt : Timestamp} {r r' : StepRow}
    (h : Transition start instant checkedAt r r' call) (hsame : r'.status = r.status) :
    Renewed r r' := by
  cases hwrites : writesEvents call with
  | true => exact absurd hsame (status_ne_of_transition h hwrites)
  | false =>
    cases h with
    | renew hlive hcols =>
      have hrunning := (holdsLiveLease_iff.mp hlive).2.1
      exact .inr ⟨hrunning, hsame.trans hrunning, by rw [hcols]⟩
    | claim | complete | fail | recover | promote => cases hwrites

/-- While no life gets shorter, a row is at most renewed. -/
theorem Timeline.renewed (h : Timeline w) {n : ℕ}
    (hstill : ∀ m, n ≤ m → ¬ totalMeasure (w (m + 1)).steps < totalMeasure (w m).steps) {r : StepRow}
    (hr : (w n).steps.find? id = some r) {m : ℕ} (hnm : n ≤ m) :
    ∃ r', (w m).steps.find? id = some r' ∧ Renewed r r' := by
  induction m, hnm using Nat.le_induction with
  | base => exact ⟨r, hr, .inl rfl⟩
  | succ m hnm ih =>
    obtain ⟨r', hr', hrenewed⟩ := ih
    rcases h.follows m with hsame | ⟨a, hstep⟩
    · rw [hsame]
      exact ⟨r', hr', hrenewed⟩
    · rcases acceptedOn_step (.reaches h.initial (h.reaches m)) hstep id with ⟨-, hkept⟩ |
        ⟨c, ch, -, hbefore, hafter, hperforms, hch, hsteps⟩
      · exact ⟨r', hkept.trans hr', hrenewed⟩
      · obtain rfl := Option.some.inj (hr'.symm.trans hbefore)
        refine ⟨ch.after, hafter, hrenewed.trans (renewed_of_transition (hperforms.transition hch) ?_)⟩
        by_contra hchanged
        refine hstill m hnm ?_
        rw [hsteps]
        exact totalMeasure_lt hperforms hch hchanged

/-- While no life gets shorter, no call is served that would take the row. -/
theorem Timeline.not_serves (h : Timeline w) {n due : ℕ} {r : StepRow}
    (hstill : ∀ m, n ≤ m → ¬ totalMeasure (w (m + 1)).steps < totalMeasure (w m).steps)
    (hpresent : ∀ m, ∃ r, (w m).steps.find? id = some r) (hr : (w n).steps.find? id = some r)
    {kind : Call → Prop} (hkind : ∀ call, kind call → call.credential? = none ∧ call ≠ .lockRows)
    (heligible : ∀ i l call r', due ≤ i → due ≤ l → (w l).steps.find? id = some r' → Renewed r r' →
      kind call → call.eligible (w i).clock (w l).clock r' = true) :
    ¬ Serves w id kind (max n due) := by
  intro hserves
  obtain ⟨m, hm, hless⟩ := h.shrinks_of_serves hkind hpresent
    (fun i l r' call hi hl hcall hr' => by
      obtain ⟨r'', hr'', hrenewed⟩ := h.renewed hstill hr (by omega : n ≤ l)
      obtain rfl := Option.some.inj (hr'.symm.trans hr'')
      exact heligible i l call r' (by omega) (by omega) hr' hrenewed hcall) hserves
  exact hstill m (by omega) hless

end Timeline

/-- The database during an execution of the whole system. -/
theorem timeline_of_execution {sha256Hex : String → String}
    {e : Execution (Worker.step sha256Hex)} (h₀ : (e.state 0).Initial) :
    Timeline fun n => (e.state n).world := by
  refine ⟨h₀.world, fun n => ?_⟩
  have hfollows := e.follows n
  cases haction : e.action n with
  | none =>
    rw [haction] at hfollows
    exact .inl (by rw [← Option.some.inj hfollows])
  | some a =>
    rw [haction] at hfollows
    dsimp only [Option.elim_some] at hfollows
    generalize e.state (n + 1) = s at hfollows
    cases runtime_cases hfollows with
    | database hforeign hmoved => exact .inr ⟨_, hmoved⟩
    | send hworker hsends hmoved => exact .inr ⟨_, hmoved⟩
    | effects | spawn | turn | apply => exact .inl rfl

section Outcome
variable {sha256Hex : String → String} {w : ℕ → World} {rows : ℕ → List EffectRow} {r₀ : StepRow}
  {lost : Set ℤ} (hw : Timeline w)
  (hsteps : ∀ n, ∃ r, ExecutedStep sha256Hex (rows n) r₀ (w n) r)
include hw hsteps

/-- A step that does not end is served again and again, and every time some life gets shorter. -/
theorem exists_ended (hlost : ∀ k ∈ lost, LostAttempt w r₀.id k)
    (hreported : ∀ k, k ∉ lost → ReportedAttempt w r₀.id k)
    (hserved : (∀ n, ¬ Ended r₀.id (w n)) → KeptServed w r₀.id) : ∃ n, Ended r₀.id (w n) := by
  refine exists_of_measure (f := fun w => totalMeasure w.steps) hw.totalMeasure_le
    fun hnever n => ?_
  have hserved := hserved hnever
  have hpresent : ∀ l, ∃ r, (w l).steps.find? r₀.id = some r := fun l => (hsteps l).imp fun _ h => h.found
  by_contra hno
  have hstill : ∀ m, n ≤ m → ¬ totalMeasure (w (m + 1)).steps < totalMeasure (w m).steps :=
    fun m hm hless => hno ⟨m, hm, hless⟩
  obtain ⟨r, hstep⟩ := hsteps n
  have hrow := hstep.row
  cases hstatus : r.status with
  | pending => exact hrow.budgeted.inserted.1 hstatus
  | cancelled => exact hrow.budgeted.inserted.2 hstatus
  | succeeded | deadLettered => exact hnever n ⟨r, hstep.found, by rw [hstatus]; rfl⟩
  | ready =>
    obtain ⟨due, hdue⟩ := hserved.time r.availableAt
    have hbudget := hrow.budgeted.claimable (.inl hstatus)
    refine hw.not_serves hstill hpresent hstep.found ?_ ?_ (hserved.claims (max n due))
    · rintro call ⟨workerId, ms, rfl⟩
      exact ⟨rfl, nofun⟩
    · rintro i l call r' hi - - hrenewed ⟨workerId, ms, rfl⟩
      obtain rfl := hrenewed.eq (by simp [hstatus])
      exact claimEligible_iff.mpr ⟨hstatus, hdue i hi, hbudget⟩
  | retryWait =>
    obtain ⟨due, hdue⟩ := hserved.time r.availableAt
    refine hw.not_serves hstill hpresent hstep.found ?_ ?_ (hserved.promotes (max n due))
    · rintro call rfl
      exact ⟨rfl, nofun⟩
    · rintro i l call r' hi hl - hrenewed rfl
      obtain rfl := hrenewed.eq (by simp [hstatus])
      exact promoteEligible_iff.mpr ⟨hstatus, hdue l (by omega)⟩
  | running =>
    by_cases hmine : r.attemptCount.val ∈ lost
    · obtain ⟨n₀, last, hlast⟩ := (hlost _ hmine).lapses
      obtain ⟨due, hdue⟩ := hserved.time last
      refine hw.not_serves hstill hpresent hstep.found ?_ ?_ (hserved.recovers (max n (max n₀ due)))
      · rintro call rfl
        exact ⟨rfl, nofun⟩
      · rintro i l call r' hi hl hr' hrenewed rfl
        obtain ⟨hrunning, hattempt⟩ := hrenewed.running hstatus
        obtain ⟨d, hd, hle⟩ := hlast l r' (by omega) hr' hrunning (by rw [hattempt])
        exact recoverEligible_iff.mpr ⟨hrunning, d, hd, hle.trans (hdue l (by omega))⟩
    · obtain ⟨m, hm⟩ := hreported _ hmine n
        (hstep.exists_claim ⟨hrow.wellFormed.claimed (.inl hstatus), le_rfl⟩)
      have hlater := hw.reportedOn_mono (le_max_right n m) hm
      obtain ⟨r', hr', hrenewed⟩ := hw.renewed hstill hstep.found (le_max_left n m)
      obtain ⟨hrunning, hattempt⟩ := hrenewed.running hstatus
      obtain ⟨r'', hstep'⟩ := hsteps (max n m)
      obtain rfl := Option.some.inj (hr'.symm.trans hstep'.found)
      exact hstep'.row.running hrunning (by rw [hattempt]; exact hlater)

/-- Of the attempts made until the step ends, the reported ones are those that are not lost. -/
theorem reported_iff (hlost : ∀ k ∈ lost, LostAttempt w r₀.id k)
    (hreported : ∀ k, k ∉ lost → ReportedAttempt w r₀.id k) {n : ℕ} {r : StepRow}
    (hr : (w n).steps.find? r₀.id = some r) (hterminal : r.status.isTerminalStepStatus = true) {k : ℤ} :
    k ∈ reportedOn (w n).history r₀.id ↔ 1 ≤ k ∧ k ≤ r.attemptCount.val ∧ k ∉ lost := by
  obtain ⟨r', hstep⟩ := hsteps n
  obtain rfl := Option.some.inj (hr.symm.trans hstep.found)
  constructor
  · intro hk
    obtain ⟨hpos, hle⟩ := hstep.row.numbered k hk
    exact ⟨hpos, hle, fun hmem => (hlost k hmem).unreported n hk⟩
  · rintro ⟨hpos, hle, hmine⟩
    obtain ⟨m, hm⟩ := hreported k hmine n (hstep.exists_claim ⟨hpos, hle⟩)
    have hlater := hw.reportedOn_mono (le_max_right n m) hm
    rwa [reportedOn, (hw.frozen (le_max_left n m) hr hterminal).2] at hlater

theorem stepOutcome_of_ended (heffect : parseTaskType r₀.taskType ≠ some .idempotentEffect)
    (hlost : ∀ k ∈ lost, LostAttempt w r₀.id k)
    (hreported : ∀ k, k ∉ lost → ReportedAttempt w r₀.id k) {n : ℕ} {r : StepRow}
    (hr : (w n).steps.find? r₀.id = some r) (hterminal : r.status.isTerminalStepStatus = true) :
    StepOutcome sha256Hex lost r₀ r := by
  have hreports : ∀ k, k ∈ reportedOn (w n).history r₀.id ↔
      1 ≤ k ∧ k ≤ r.attemptCount.val ∧ k ∉ lost :=
    fun k => reported_iff hw hsteps hlost hreported hr hterminal
  obtain ⟨r', hstep⟩ := hsteps n
  obtain rfl := Option.some.inj (hr.symm.trans hstep.found)
  have hrow := hstep.row
  have hmax : r.maxAttempts.val = r₀.maxAttempts.val := by rw [hrow.task.maxAttempts]
  have hbudget : r.attemptCount.val ≤ r₀.maxAttempts.val := hmax ▸ hrow.budgeted.budget
  have hends : r.status = .succeeded ∨ r.status = .deadLettered := by
    cases hstatus : r.status with
    | succeeded => exact .inl rfl
    | deadLettered => exact .inr rfl
    | cancelled => exact absurd hstatus hrow.budgeted.inserted.2
    | pending | ready | running | retryWait =>
      rw [hstatus] at hterminal
      cases hterminal
  have hunset : r.status = .deadLettered → r.result = none := fun hdead => by
    rw [← Option.not_isSome_iff_eq_none, hrow.wellFormed.result, hdead]
    nofun
  -- the last attempt settles the step unless it spent the budget
  have hlast : r.attemptCount.val ∈ Settling sha256Hex lost r₀ ∨
      r.status = .deadLettered ∧ r.attemptCount.val = r₀.maxAttempts.val := by
    rcases hends with hsucceeded | hdead
    · obtain ⟨hmine, result, hresolve, -⟩ := hrow.succeeded hsucceeded
      obtain ⟨hpos, -, hkept⟩ := (hreports _).mp hmine
      refine .inl ⟨hpos, hbudget, hkept, ?_⟩
      rw [(resolvesWith_iff heffect).mp hresolve]
      trivial
    · rcases hrow.deadLettered hdead with hspent | ⟨hmine, error, hthrow, hfinal⟩
      · exact .inr ⟨hdead, hspent.trans hmax⟩
      · obtain ⟨hpos, -, hkept⟩ := (hreports _).mp hmine
        refine .inl ⟨hpos, hbudget, hkept, ?_⟩
        rw [(throwsError_iff heffect).mp hthrow]
        exact hfinal
  -- and no attempt before the last one does
  have hfirst : ∀ k, IsLeast (Settling sha256Hex lost r₀) k → k = r.attemptCount.val ∧
      (r.status = .succeeded ∨
        r.status = .deadLettered ∧ ∃ error, attemptAt sha256Hex r₀ k = .throws error) := by
    rintro k ⟨⟨hpos, hle, hkept, hsettles⟩, hleast⟩
    have hreached : k ≤ r.attemptCount.val := by
      rcases hlast with hmine | ⟨-, hspent⟩
      · exact hleast hmine
      · rwa [hspent]
    rcases hrow.earlier k ((hreports k).mpr ⟨hpos, hreached, hkept⟩) with
      ⟨error, hthrow, hretryable⟩ | ⟨hcount, hstatus⟩
    · rw [(throwsError_iff heffect).mp hthrow] at hsettles
      exact absurd hsettles (by simp [Execution.Settles, hretryable])
    · refine ⟨hcount, hstatus.imp_right fun ⟨hdead, error, hthrow⟩ => ?_⟩
      exact ⟨hdead, error, (throwsError_iff heffect).mp hthrow⟩
  refine ⟨fun k result hk hresolves => ?_, fun k error hk hthrows => ?_, fun hnone => ?_,
    ?_⟩
  · obtain ⟨rfl, hsucceeded | ⟨-, error, hthrows⟩⟩ := hfirst k hk
    · obtain ⟨-, result', hresolve, hresult⟩ := hrow.succeeded hsucceeded
      have hsame := hresolves.symm.trans ((resolvesWith_iff heffect).mp hresolve)
      rw [Worker.Execution.resolves.inj hsame]
      exact ⟨hsucceeded, rfl, hresult⟩
    · cases hresolves.symm.trans hthrows
  · obtain ⟨rfl, hsucceeded | ⟨hdead, -⟩⟩ := hfirst k hk
    · obtain ⟨-, result, hresolve, -⟩ := hrow.succeeded hsucceeded
      cases hthrows.symm.trans ((resolvesWith_iff heffect).mp hresolve)
    · exact ⟨hdead, rfl, hunset hdead⟩
  · obtain ⟨hdead, hspent⟩ := hlast.resolve_left (by simp [hnone])
    exact ⟨hdead, hspent, hunset hdead⟩
  · have hfailed : failedReports r (acceptedOn (w n).history r₀.id) =
        Thrown sha256Hex lost r₀ r := by
      ext j
      constructor
      · rintro ⟨hj, hother⟩
        obtain ⟨hpos, hle, hkept⟩ := (hreports j).mp hj
        refine ⟨hpos, hle, hkept, ?_⟩
        rcases hrow.earlier j hj with ⟨error, hthrows, -⟩ | ⟨hmine, hsucceeded | ⟨-, error, hthrows⟩⟩
        · exact ⟨error, (throwsError_iff heffect).mp hthrows⟩
        · exact absurd hmine (hother hsucceeded)
        · exact ⟨error, (throwsError_iff heffect).mp hthrows⟩
      · rintro ⟨hpos, hle, hkept, error, hthrows⟩
        refine ⟨(hreports j).mpr ⟨hpos, hle, hkept⟩, ?_⟩
        rintro hsucceeded rfl
        obtain ⟨-, result, hresolve, -⟩ := hrow.succeeded hsucceeded
        cases hthrows.symm.trans ((resolvesWith_iff heffect).mp hresolve)
    have hlast := hrow.lastError
    rw [hfailed] at hlast
    generalize r.lastError = lastError at hlast
    cases hlast with
    | none hempty => exact .none hempty
    | some hgreatest hthrow hcarries =>
      have hthrows := (throwsError_iff heffect).mp hthrow
      exact .some hgreatest hthrows (carries_of_throws hthrows hcarries)

end Outcome
end DurableRunner.Guarantees
