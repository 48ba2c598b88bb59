import DurableRunner.Guarantees.Atomicity
import DurableRunner.Guarantees.WellFormedRows
import DurableRunner.Operations.Lifetime
import DurableRunner.Sessions.Accepted
import DurableRunner.Sessions.Origins

/-! # A step can neither loop forever nor be stranded

The claims and status changes of a step are bounded by its budget, and until it
ends exactly one operation is always about to be possible.
-/
namespace DurableRunner.Guarantees
open Schema Operations Sessions TransitionSystem

/-- The accepted operations that changed the status of the row. -/
def transitionsOf (history : List Commit) (id : StepId) : List (Commit × Change) :=
  (acceptedOn history id).filter fun p => p.2.after.status ≠ p.2.before.status

/-- A transaction of the call that begins now finds the row unlocked among the
candidates of its select, and its UPDATE accepts it. -/
structure Enabled (w : World) (id : StepId) (call : Call) : Prop where
  admissible : call.admissible = true
  unlocked : w.holder id = none
  candidate : ∃ r ∈ w.candidates call w.clock, r.id = id ∧
    ∃ r', call.update w.clock w.clock r = .ok (some r')

/-- An operation writes one event for a status change and none otherwise. -/
theorem length_event_of_transition {call : Call} {start instant checkedAt : Timestamp}
    {r r' : StepRow} (h : Transition start instant checkedAt r r' call) :
    (call.event r r').toList.length = if r'.status ≠ r.status then 1 else 0 := by
  cases hwrites : writesEvents call with
  | true =>
    obtain ⟨e, he, -⟩ := event_of_transition h hwrites
    rw [if_pos (status_ne_of_transition h hwrites), he]
    rfl
  | false =>
    cases h with
    | renew _ hcols => simp [Call.event, hcols]
    | _ => cases hwrites

/-- The budget, and the measure with the status changes made so far. -/
structure Spends (r₀ r : StepRow) (ops : List (Commit × Change)) : Prop where
  budgeted : Budgeted r
  max : r.maxAttempts = r₀.maxAttempts
  spent : (ops.filter fun p => p.2.after.status ≠ p.2.before.status).length + lifetimeMeasure r ≤
    lifetimeMeasure r₀
  decreasing : ∀ p ∈ ops, p.2.after.status ≠ p.2.before.status →
    lifetimeMeasure p.2.after < lifetimeMeasure p.2.before

theorem Spends.next {r₀ : StepRow} {ops : List (Commit × Change)} {c : Commit} {ch : Change}
    (h : Spends r₀ ch.before ops)
    (ht : Transition c.start c.decision.instant ch.checkedAt ch.before ch.after c.call) :
    Spends r₀ ch.after (ops ++ [(c, ch)]) := by
  have hspent := h.spent
  refine ⟨h.budgeted.transition ht, (sameTask_of_transition ht).maxAttempts.trans h.max, ?_,
    fun p hp hchanged => ?_⟩
  · rw [List.filter_append, List.length_append]
    by_cases hchanged : ch.after.status ≠ ch.before.status
    · have hless := lifetimeMeasure_lt ht hchanged
      rw [List.filter_cons_of_pos (by simpa using hchanged), List.filter_nil, List.length_singleton]
      omega
    · have hequal := lifetimeMeasure_of_unchanged ht (not_not.mp hchanged)
      rw [List.filter_cons_of_neg (by simpa using hchanged), List.filter_nil, List.length_nil]
      omega
  · rcases List.mem_append.mp hp with hp | hp
    · exact h.decreasing p hp hchanged
    · obtain rfl := List.mem_singleton.mp hp
      exact lifetimeMeasure_lt ht hchanged

theorem Spends.of_life {r₀ r : StepRow} {ops : List (Commit × Change)} (h : Life r₀ ops r)
    (h₀ : Budgeted r₀) : Spends r₀ r ops := by
  induction h with
  | nil => exact ⟨h₀, rfl, by simp, by simp⟩
  | snoc life transition ih => exact ih.next transition

theorem length_events_of_accepted {ops : List (Commit × Change)}
    (h : ∀ p ∈ ops, Transition p.1.start p.1.decision.instant p.2.checkedAt p.2.before p.2.after
      p.1.call) :
    (ops.flatMap fun p => (p.1.call.event p.2.before p.2.after).toList).length =
      (ops.filter fun p => p.2.after.status ≠ p.2.before.status).length := by
  induction ops with
  | nil => rfl
  | cons p ops ih =>
    have hrest := ih fun q hq => h q (List.mem_cons_of_mem _ hq)
    have hfirst := length_event_of_transition (h p List.mem_cons_self)
    rw [List.flatMap_cons, List.length_append, hrest, hfirst, List.filter_cons]
    by_cases hchanged : p.2.after.status ≠ p.2.before.status
    · simp [hchanged, Nat.add_comm]
    · simp [hchanged]

section Progress
variable {w : World} {id : StepId} {r : StepRow}

theorem Enabled.status {call : Call} (h : Enabled w id call) (hr : w.steps.find? id = some r) :
    call.eligible w.clock w.clock r = true := by
  obtain ⟨r', hr', hid, -⟩ := h.candidate
  obtain ⟨hmem, heligible⟩ := mem_candidates.mp hr'
  have hfind : w.steps.find? r'.id = some r' := Relational.Table.mem_iff_find?.mp hmem
  rw [hid, hr] at hfind
  rw [Option.some.inj hfind]
  exact heligible

/-- A claim can succeed only if the generation it would write can be stored. -/
theorem Enabled.nextGenerationFits {workerId : WorkerId} {leaseDurationMs : ℤ}
    (h : Enabled w id (.claimNextStep workerId leaseDurationMs)) (hr : w.steps.find? id = some r) :
    NextGenerationFits r := by
  obtain ⟨row, hrow, hid, r', hupdate⟩ := h.candidate
  obtain ⟨hmem, -⟩ := mem_candidates.mp hrow
  have hfind : w.steps.find? row.id = some row := Relational.Table.mem_iff_find?.mp hmem
  rw [hid, hr] at hfind
  rw [Option.some.inj hfind]
  exact nextGenerationFits_of_claimCandidate hupdate

theorem Enabled.of_eligible {call : Call} {r' : StepRow} (hadmissible : call.admissible = true)
    (hr : w.steps.find? id = some r) (hfree : w.holder id = none)
    (heligible : call.eligible w.clock w.clock r = true)
    (hupdate : call.update w.clock w.clock r = .ok (some r')) : Enabled w id call where
  admissible := hadmissible
  unlocked := hfree
  candidate := ⟨r, mem_candidates.mpr ⟨Relational.Table.mem_of_find? hr, heligible⟩,
    id_of_find? hr, r', hupdate⟩

/-- A row that has not ended, whose time has come and that nobody locks, is what
exactly one of the operations is waiting for, unless it is READY and out of generations. -/
theorem existsUnique_enabled_iff {workerId : WorkerId} {leaseDurationMs : ℤ}
    (harguments : ClaimArguments workerId leaseDurationMs) (hbudgeted : Budgeted r)
    (hr : w.steps.find? id = some r) (hfree : w.holder id = none)
    (hlive : r.status.isTerminalStepStatus = false)
    (hexpired : r.status = .running → ∀ d, r.leaseExpiresAt = some d → d ≤ w.clock)
    (havailable : r.status ≠ .running → r.availableAt ≤ w.clock) :
    (∃! call, call ∈ [.claimNextStep workerId leaseDurationMs, .promoteDueRetries,
      .recoverExpiredSteps] ∧ Enabled w id call) ↔ (r.status = .ready → NextGenerationFits r) := by
  have hexclusive : ∀ call, call ∈ [.claimNextStep workerId leaseDurationMs, .promoteDueRetries,
      .recoverExpiredSteps] → Enabled w id call →
      (r.status = .ready ∧ call = .claimNextStep workerId leaseDurationMs) ∨
        (r.status = .retryWait ∧ call = .promoteDueRetries) ∨
        (r.status = .running ∧ call = .recoverExpiredSteps) := by
    intro call hcall henabled
    have heligible := henabled.status hr
    simp only [List.mem_cons, List.not_mem_nil, or_false] at hcall
    rcases hcall with rfl | rfl | rfl
    · exact .inl ⟨(claimEligible_iff.mp heligible).1, rfl⟩
    · exact .inr (.inl ⟨(promoteEligible_iff.mp heligible).1, rfl⟩)
    · exact .inr (.inr ⟨(recoverEligible_iff.mp heligible).1, rfl⟩)
  refine ⟨fun ⟨call, ⟨hcall, henabled⟩, _⟩ hready => ?_, fun hversion => ?_⟩
  · rcases hexclusive call hcall henabled with ⟨-, rfl⟩ | ⟨hretry, -⟩ | ⟨hrunning, -⟩
    · exact henabled.nextGenerationFits hr
    · rw [hready] at hretry
      cases hretry
    · rw [hready] at hrunning
      cases hrunning
  cases hstatus : r.status with
  | ready =>
    have hbudget := hbudgeted.claimable (.inl hstatus)
    obtain ⟨r', hupdate⟩ := claimCandidate_of_ready w.clock w.clock harguments hstatus
      hbudget (hversion hstatus)
    have heligible : claimEligible w.clock r = true :=
      claimEligible_iff.mpr ⟨hstatus, havailable (by simp [hstatus]), hbudget⟩
    have hadmissible : Call.admissible (.claimNextStep workerId leaseDurationMs) = true := by
      simp [Call.admissible, harguments.worker, Call.staticTransitions]
    refine ⟨_, ⟨by simp, .of_eligible hadmissible hr hfree heligible hupdate⟩, fun call hcall => ?_⟩
    simpa [hstatus] using hexclusive call hcall.1 hcall.2
  | retryWait =>
    obtain ⟨r', hupdate⟩ := promoteUpdate_ok w.clock r
    have heligible : promoteEligible w.clock r = true :=
      promoteEligible_iff.mpr ⟨hstatus, havailable (by simp [hstatus])⟩
    have henabled : Enabled w id .promoteDueRetries :=
      .of_eligible (by decide) hr hfree heligible (except_map_eq_ok.mpr ⟨r', hupdate, rfl⟩)
    refine ⟨_, ⟨by simp, henabled⟩, fun call hcall => ?_⟩
    simpa [hstatus] using hexclusive call hcall.1 hcall.2
  | running =>
    obtain ⟨r', hupdate⟩ := recoverUpdate_ok w.clock r
    have howned := r.steps_running_requires_owner.resolve_left (not_not_intro hstatus)
    obtain ⟨d, hd⟩ := Option.isSome_iff_exists.mp howned.2.1
    have heligible : recoverEligible w.clock r = true :=
      recoverEligible_iff.mpr ⟨hstatus, d, hd, hexpired hstatus d hd⟩
    have henabled : Enabled w id .recoverExpiredSteps :=
      .of_eligible (by decide) hr hfree heligible (except_map_eq_ok.mpr ⟨r', hupdate, rfl⟩)
    refine ⟨_, ⟨by simp, henabled⟩, fun call hcall => ?_⟩
    simpa [hstatus] using hexclusive call hcall.1 hcall.2
  | pending => exact absurd hstatus hbudgeted.inserted.1
  | cancelled => exact absurd hstatus hbudgeted.inserted.2
  | succeeded | deadLettered =>
    rw [hstatus] at hlive
    cases hlive

end Progress

/-- A step inserted READY with budget `m` is claimed at most `m` times and changes its
status at most `3 m - 1` times, once for each of its events and each time at the
cost of the measure. Until it ends, once its time has come and nobody locks it,
exactly one operation is enabled on it, unless it is READY and its generations do
not go on, which cannot happen from the default 0. -/
theorem lifetime_bounded {w₀ w : World} (h₀ : w₀.Initial) (h : Reaches step w₀ w) {id : StepId}
    {r₀ : StepRow} (hr₀ : w₀.steps.find? id = some r₀) (hready : r₀.status = .ready)
    (hattempts : r₀.attemptCount.val = 0) :
    ((claimsOf w.history id).length : ℤ) ≤ r₀.maxAttempts.val ∧
    ((transitionsOf w.history id).length : ℤ) ≤ 3 * r₀.maxAttempts.val - 1 ∧
    (eventsOf w.events id).length =
      (eventsOf w₀.events id).length + (transitionsOf w.history id).length ∧
    (∀ p ∈ transitionsOf w.history id, lifetimeMeasure p.2.after < lifetimeMeasure p.2.before) ∧
    ∃ r, w.steps.find? id = some r ∧
      (0 ≤ r₀.leaseVersion.val → r₀.leaseVersion.val + r₀.maxAttempts.val ≤ 2147483647 →
        r.status = .ready → NextGenerationFits r) ∧
      (r.status.isTerminalStepStatus = false → w.holder id = none →
        (r.status = .running → ∀ d, r.leaseExpiresAt = some d → d ≤ w.clock) →
        (r.status ≠ .running → r.availableAt ≤ w.clock) →
        ∀ workerId leaseDurationMs, ClaimArguments workerId leaseDurationMs →
          ((∃! call, call ∈ [.claimNextStep workerId leaseDurationMs, .promoteDueRetries,
            .recoverExpiredSteps] ∧ Enabled w id call) ↔
              (r.status = .ready → NextGenerationFits r))) := by
  have hserial := serial_of_reaches h₀ h
  obtain ⟨r, hr, hlife⟩ := hserial.life hr₀
  have hspends := Spends.of_life hlife (.ready hready hattempts)
  obtain ⟨r', hr', hcounted⟩ := hserial.countedBy hr₀
  obtain rfl := Option.some.inj (hr.symm.trans hr')
  have hbudget := hspends.budgeted.budget
  have hcount := hcounted.attemptCount
  have hgenerations := hcounted.leaseVersion
  rw [hspends.max] at hbudget
  have hspent := hspends.spent
  have hpositive := hspends.budgeted.measure_pos
  have hstart := lifetimeMeasure_ready hready hattempts
  refine ⟨?_, ?_, ?_, fun p hp => ?_, r, hr, fun hnonneg hfits hready' => ?_,
    fun hlive hfree hexpired havailable workerId ms harguments =>
      existsUnique_enabled_iff harguments hspends.budgeted hr hfree hlive hexpired havailable⟩
  · omega
  · simp only [transitionsOf]
    omega
  · rw [hserial.eventsOf_accepted id, List.length_append, length_events_of_accepted]
    · rfl
    · exact hlife.transition
  · obtain ⟨hp, hchanged⟩ := List.mem_filter.mp hp
    exact hspends.decreasing p hp (by simpa using hchanged)
  · have hleft := hspends.budgeted.claimable (.inl hready')
    rw [hspends.max] at hleft
    exact ⟨by omega, by omega⟩

/-- The default budget used up by crashes takes six status changes, and a claim that has
run out on the way can be recovered and nothing else. -/
theorem lifetime_bounded_exhausted :
    (∃ w, run step .singleStep exhaustedBudget = some w ∧ (transitionsOf w.history 7).length = 6 ∧
      ((claimsOf w.history 7).length : ℤ) ≤ 3 ∧ ((transitionsOf w.history 7).length : ℤ) ≤ 8) ∧
    ∃ w, run step .singleStep (exhaustedBudget.take 9) = some w ∧
      ∃! call, call ∈ [.claimNextStep "worker" 1, .promoteDueRetries, .recoverExpiredSteps] ∧
        Enabled w 7 call := by
  have hinserted : World.singleStep.steps.find? 7 =
      some (.inserted 7 "hash_after_delay" .null 0) := rfl
  constructor
  · have hruns : (run step .singleStep exhaustedBudget).any
        (fun w => (transitionsOf w.history 7).length = 6) = true := by
      decide +kernel
    obtain ⟨w, hw, hend⟩ := (Option.any_eq_true _ _).mp hruns
    obtain ⟨hclaims, htransitions, -⟩ :=
      lifetime_bounded World.initial_singleStep ⟨_, hw⟩ hinserted rfl rfl
    exact ⟨w, hw, of_decide_eq_true hend, hclaims, htransitions⟩
  · have hruns : (run step .singleStep (exhaustedBudget.take 9)).any (fun w => w.holder 7 = none ∧
        (w.steps.find? 7).any fun r => r.status = .running ∧ r.leaseExpiresAt = some 1000 ∧
          1000 ≤ w.clock) = true := by
      decide +kernel
    obtain ⟨w, hw, hend⟩ := (Option.any_eq_true _ _).mp hruns
    obtain ⟨hfree, hrow⟩ := of_decide_eq_true hend
    obtain ⟨r, hr, hexpired⟩ := (Option.any_eq_true _ _).mp hrow
    obtain ⟨hrunning, hdeadline, hclock⟩ := of_decide_eq_true hexpired
    obtain ⟨-, -, -, -, r', hr', -, hprogress⟩ :=
      lifetime_bounded World.initial_singleStep ⟨_, hw⟩ hinserted rfl rfl
    obtain rfl := Option.some.inj (hr.symm.trans hr')
    have hlive : r.status.isTerminalStepStatus = false := by rw [hrunning]; rfl
    have hpassed : ∀ d, r.leaseExpiresAt = some d → d ≤ w.clock := by
      rintro d hd
      obtain rfl := Option.some.inj (hdeadline.symm.trans hd)
      exact hclock
    refine ⟨w, hw, (hprogress hlive hfree (fun _ => hpassed) (fun hne => absurd hrunning hne)
      "worker" 1 ⟨rfl, rfl, ⟨1, by decide⟩, rfl⟩).mpr fun hready => ?_⟩
    rw [hrunning] at hready
    cases hready

theorem inRange_last : -2147483648 ≤ (2147483647 : ℤ) ∧ (2147483647 : ℤ) ≤ 2147483647 := by decide

def lastGeneration : StepRow where
  toStepColumns := { (StepRow.inserted 7 "hash_after_delay" .null 0).toStepColumns with
    leaseVersion := ⟨2147483647, inRange_last⟩ }
  steps_attempt_count_nonnegative :=
    (StepRow.inserted 7 "hash_after_delay" .null 0).steps_attempt_count_nonnegative
  steps_max_attempts_positive :=
    (StepRow.inserted 7 "hash_after_delay" .null 0).steps_max_attempts_positive
  steps_running_requires_owner := .inl nofun

def lastGenerationWorld : World := .opening ⟨[lastGeneration], List.nodup_singleton _⟩ 0

/-- It is due, nobody locks it, and no operation is enabled on it. -/
theorem last_generation_is_stranded :
    lastGenerationWorld.Initial ∧ lastGenerationWorld.steps.find? 7 = some lastGeneration ∧
      lastGeneration.status = .ready ∧ lastGeneration.attemptCount.val = 0 ∧
      lastGeneration.maxAttempts.val = 3 ∧ lastGenerationWorld.holder 7 = none ∧
      lastGeneration.availableAt ≤ lastGenerationWorld.clock ∧
      ∀ workerId leaseDurationMs, ¬∃ call, call ∈ [.claimNextStep workerId leaseDurationMs,
        .promoteDueRetries, .recoverExpiredSteps] ∧ Enabled lastGenerationWorld 7 call := by
  have hfind : lastGenerationWorld.steps.find? 7 = some lastGeneration := rfl
  refine ⟨World.initial_opening _ _, hfind, rfl, rfl, rfl, rfl, le_refl 0, ?_⟩
  rintro workerId leaseDurationMs ⟨call, hcall, henabled⟩
  simp only [List.mem_cons, List.not_mem_nil, or_false] at hcall
  rcases hcall with rfl | rfl | rfl
  · exact absurd (henabled.nextGenerationFits hfind).2 (lt_irrefl _)
  · exact absurd (henabled.status hfind) (by decide)
  · exact absurd (henabled.status hfind) (by decide)

end DurableRunner.Guarantees
