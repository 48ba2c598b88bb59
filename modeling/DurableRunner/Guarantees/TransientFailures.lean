import DurableRunner.Guarantees.EveryStep
import DurableRunner.Schema.Surrogates

/-! # Where a transiently failing step ends

The executor of such a step looks at the attempt number and at nothing else. The
first attempt beyond the failures that is not lost succeeds; if the budget has
none, the step ends as a dead letter.
-/
namespace DurableRunner.Guarantees
open Schema Operations Worker TransitionSystem
open Sessions hiding step

/-- A freshly inserted `fail_then_hash` step with a valid payload. -/
structure FailsThenHashes (r₀ : StepRow) (parsed : FailThenHashPayload) : Prop extends r₀.Fresh where
  taskType : r₀.taskType = "fail_then_hash"
  payload : parseFailThenHashPayload r₀.payload = .ok parsed

/-- The message of the last of the failed attempts. -/
inductive LastMessage (failed : Set ℤ) : Option JsString → Prop
  | none (hempty : failed = ∅) : LastMessage failed none
  | some {j : ℤ} (hgreatest : IsGreatest failed j) :
      LastMessage failed
        (some (.ofString ("fail_then_hash deterministic failure on attempt " ++ toString j)))

/-- The attempts within the budget that succeed if they are made and not lost. -/
def Succeeding (parsed : FailThenHashPayload) (lost : Set ℤ) (r : StepRow) : Set ℤ :=
  {k | (parsed.failuresBeforeSuccess : ℤ) < k ∧ k ≤ r.maxAttempts.val ∧ k ∉ lost}

/-- The row in which the step ends. -/
structure TransientOutcome (sha256Hex : String → String) (parsed : FailThenHashPayload)
    (lost : Set ℤ) (r : StepRow) : Prop where
  succeeds : ∀ k, IsLeast (Succeeding parsed lost r) k → r.status = .succeeded ∧
    r.attemptCount.val = k ∧ r.leaseVersion.val = k ∧
    r.result = some (.obj [("hash", .str (sha256Hex parsed.input))])
  deadLetters : Succeeding parsed lost r = ∅ → r.status = .deadLettered ∧
    r.attemptCount.val = r.maxAttempts.val ∧ r.leaseVersion.val = r.maxAttempts.val ∧ r.result = none
  lastError : LastMessage {j | 1 ≤ j ∧ j ≤ min (parsed.failuresBeforeSuccess : ℤ) r.attemptCount.val ∧
    j ∉ lost} r.lastError

section Attempts
variable {sha256Hex : String → String} {r₀ r : StepRow} {parsed : FailThenHashPayload} {j : ℤ}
  {lost : Set ℤ}

theorem FailsThenHashes.attemptAt_eq (h : FailsThenHashes r₀ parsed) (hj : 1 ≤ j) :
    attemptAt sha256Hex r₀ j =
      if j ≤ parsed.failuresBeforeSuccess then .throws (.deterministicFailure j)
      else .resolves (hashResult sha256Hex parsed.input) := by
  have htask : parseTaskType r₀.taskType = some .failThenHash := by rw [h.taskType]; rfl
  simp only [attemptAt, executeStep, htask, if_neg (not_lt.mpr hj), failThenHash, h.payload]

theorem FailsThenHashes.effectless (h : FailsThenHashes r₀ parsed) :
    parseTaskType r₀.taskType ≠ some .idempotentEffect := by
  rw [h.taskType]
  decide

/-- An attempt settles the step beyond the failures. -/
theorem settling_eq (h : FailsThenHashes r₀ parsed) (hmax : r.maxAttempts = r₀.maxAttempts) :
    Settling sha256Hex lost r₀ = Succeeding parsed lost r := by
  ext k
  simp only [Settling, Succeeding, hmax, Set.mem_ofPred_eq]
  constructor
  · rintro ⟨hpos, hle, hkept, hsettles⟩
    refine ⟨not_le.mp fun hearly => ?_, hle, hkept⟩
    rw [h.attemptAt_eq hpos, if_pos hearly] at hsettles
    cases hsettles
  · rintro ⟨hlate, hle, hkept⟩
    have hpos : 1 ≤ k := by omega
    refine ⟨hpos, hle, hkept, ?_⟩
    rw [h.attemptAt_eq hpos, if_neg (not_le.mpr hlate)]
    trivial

theorem thrown_eq (h : FailsThenHashes r₀ parsed) : Thrown sha256Hex lost r₀ r =
    {j | 1 ≤ j ∧ j ≤ min (parsed.failuresBeforeSuccess : ℤ) r.attemptCount.val ∧ j ∉ lost} := by
  ext j
  simp only [Thrown, Set.mem_ofPred_eq]
  constructor
  · rintro ⟨hpos, hle, hkept, error, hthrows⟩
    refine ⟨hpos, le_min (not_lt.mp fun hlate => ?_) hle, hkept⟩
    rw [h.attemptAt_eq hpos, if_neg (not_le.mpr hlate)] at hthrows
    cases hthrows
  · rintro ⟨hpos, hle, hkept⟩
    obtain ⟨hearly, hmade⟩ := le_min_iff.mp hle
    exact ⟨hpos, hmade, hkept, _, by rw [h.attemptAt_eq hpos, if_pos hearly]⟩

/-- Where the step ends as any other step does. -/
theorem transientOutcome_of_stepOutcome (h : FailsThenHashes r₀ parsed)
    (hmax : r.maxAttempts = r₀.maxAttempts)
    (hgenerations : r.leaseVersion.val = r.attemptCount.val)
    (houtcome : StepOutcome sha256Hex lost r₀ r) : TransientOutcome sha256Hex parsed lost r := by
  refine ⟨fun k hk => ?_, fun hnone => ?_, ?_⟩
  · have hlate : (parsed.failuresBeforeSuccess : ℤ) < k := hk.1.1
    have hresolves : attemptAt sha256Hex r₀ k = .resolves (hashResult sha256Hex parsed.input) := by
      rw [h.attemptAt_eq (by omega), if_neg (not_le.mpr hlate)]
    rw [← settling_eq h hmax] at hk
    obtain ⟨hstatus, hcount, hresult⟩ := houtcome.resolved k _ hk hresolves
    exact ⟨hstatus, hcount, hgenerations.trans hcount, hresult⟩
  · rw [← settling_eq h hmax] at hnone
    obtain ⟨hstatus, hcount, hresult⟩ := houtcome.spent hnone
    rw [← hmax] at hcount
    exact ⟨hstatus, hcount, hgenerations.trans hcount, hresult⟩
  · have hlast := houtcome.lastError
    rw [thrown_eq h] at hlast
    generalize r.lastError = lastError at hlast
    cases hlast with
    | none hempty => exact .none hempty
    | @some j error message hgreatest hthrows hmessage =>
      obtain ⟨hpos, hle, -⟩ := hgreatest.1
      rw [h.attemptAt_eq hpos, if_pos (hle.trans (min_le_left _ _))] at hthrows
      obtain rfl := Worker.Execution.throws.inj hthrows
      obtain rfl : deterministicFailureMessage j = message := by
        simpa [ExecutorError.message?] using hmessage
      rw [deterministicFailureMessage,
        JsString.toWellFormed_of_isWellFormed (JsString.isWellFormed_ofString _)]
      exact .some hgreatest

end Attempts

/-- Whichever attempts are lost, a `fail_then_hash` step that is kept served ends: with its first
attempt beyond the failures that is neither lost nor over the budget, or else as a dead letter.
Its last error is that of the last failed attempt that was not lost, and every attempt up to the
last one has counted once. -/
theorem transient_failures_end {sha256Hex : String → String} {e : Execution (Worker.step sha256Hex)}
    (h₀ : (e.state 0).Initial) {r₀ : StepRow} {parsed : FailThenHashPayload}
    (hr₀ : (e.state 0).world.steps.find? r₀.id = some r₀) (htask : FailsThenHashes r₀ parsed)
    {lost : Set ℤ} (hlost : ∀ k ∈ lost, LostAttempt (fun n => (e.state n).world) r₀.id k)
    (hreported : ∀ k, k ∉ lost → ReportedAttempt (fun n => (e.state n).world) r₀.id k)
    (hserved : (∀ n, ¬ Ended r₀.id (e.state n).world) →
      KeptServed (fun n => (e.state n).world) r₀.id) :
    ∃ n₀ r, r.maxAttempts = r₀.maxAttempts ∧ TransientOutcome sha256Hex parsed lost r ∧
      ∀ n, n₀ ≤ n → (e.state n).world.steps.find? r₀.id = some r ∧
        (claimsOf (e.state n).world.history r₀.id).map (fun s => s.attemptCount.val) =
          generations 0 r.attemptCount.val := by
  have hw := timeline_of_execution h₀
  have hsteps : ∀ n, ∃ r, ExecutedStep sha256Hex (e.state n).effects.rows r₀ (e.state n).world r :=
    fun n => executedStep htask.toFresh h₀ hr₀ (e.reaches n)
  obtain ⟨n₀, r, hr, hterminal⟩ := exists_ended hw hsteps hlost hreported hserved
  obtain ⟨r', hstep⟩ := hsteps n₀
  obtain rfl := Option.some.inj (hr.symm.trans hstep.found)
  have hmax := hstep.row.task.maxAttempts
  have houtcome := stepOutcome_of_ended hw hsteps htask.effectless hlost hreported hr hterminal
  refine ⟨n₀, r, hmax, transientOutcome_of_stepOutcome htask hmax
    hstep.row.wellFormed.generations houtcome, fun n hn => ?_⟩
  have hfrozen := (hw.frozen hn hr hterminal).1
  obtain ⟨r', hstep'⟩ := hsteps n
  obtain rfl := Option.some.inj (hfrozen.symm.trans hstep'.found)
  exact ⟨hfrozen, hstep'.attempts⟩

def onceFailing : StepRow :=
  .inserted 7 "fail_then_hash" (.obj [("input", .str "hi"), ("failuresBeforeSuccess", .num 1)]) 0

theorem failsThenHashes_onceFailing : FailsThenHashes onceFailing ⟨"hi", 1⟩ where
  toFresh := StepRow.fresh_inserted _ _ _ _
  taskType := rfl
  payload := by
    have hparses : (parseFailThenHashPayload onceFailing.payload).toOption.any
        (fun p => p.input = "hi" ∧ p.failuresBeforeSuccess = 1) = true := by decide +kernel
    obtain ⟨⟨input, failures⟩, hparsed, hfields⟩ := (Option.any_eq_true _ _).mp hparses
    obtain ⟨rfl, rfl⟩ := of_decide_eq_true hfields
    exact toOption_eq_some.mp hparsed

def oneTransient : Runtime where
  world := .opening ⟨[onceFailing], List.nodup_singleton _⟩ 0
  effects := ⟨[], fun _ => none, 0⟩
  workers _ := none

theorem initial_oneTransient : oneTransient.Initial where
  world := World.initial_opening _ _
  effects := ⟨List.nodup_nil, fun _ => rfl⟩
  noKey := nofun
  noWorker _ := rfl

/-- The first attempt reports its failure, the second crashes, the third is another worker's. -/
def crashedSecondAttempt : List Worker.Action :=
  [.spawn 0 "worker", .claim 0 30000] ++ throughCommit 0 6 ++
    [.claimAnswered 0, .execute 0 "unused", .report 0 (deterministicFailureMessage 1)] ++
    throughCommit 1 4 ++
    [.reportAnswered 0, .database (.tick 500000), .database (.start .promoteDueRetries)] ++
    throughCommit 2 6 ++ [.claim 0 30000] ++ throughCommit 3 6 ++
    [.claimAnswered 0, .crash 0, .database (.tick 31000000),
      .database (.start .recoverExpiredSteps)] ++ throughCommit 4 6 ++
    [.spawn 1 "heir", .claim 1 30000] ++ throughCommit 5 6 ++
    [.claimAnswered 1, .execute 1 "unused", .report 1 []] ++ throughCommit 6 4

theorem transient_failures_end_crash : ∃ (s : Runtime) (r : StepRow),
    run (Worker.step sha256OfHi) oneTransient crashedSecondAttempt = some s ∧
      s.world.steps.find? 7 = some r ∧ r.status = .succeeded ∧ r.attemptCount.val = 3 ∧
      r.leaseVersion.val = 3 ∧
      r.result = some (.obj
        [("hash", .str "8f434346648f6b96df89dda901c5176b10a6d83961dd3c1ac88b59b2dc327aa4")]) ∧
      r.lastError = some (.ofString "fail_then_hash deterministic failure on attempt 1") := by
  have hruns : (run (Worker.step sha256OfHi) oneTransient crashedSecondAttempt).any (fun s =>
      reportedOn s.world.history 7 = [1, 3] ∧
        (s.world.steps.find? 7).any fun r => r.status = .succeeded) = true := by
    decide +kernel
  obtain ⟨s, hs, hend⟩ := (Option.any_eq_true _ _).mp hruns
  obtain ⟨hreports, hended⟩ := of_decide_eq_true hend
  obtain ⟨r, hr, hstatus⟩ := (Option.any_eq_true _ _).mp hended
  have hsucceeded : r.status = .succeeded := of_decide_eq_true hstatus
  let e := Execution.ofRun hs
  have h₀ : (e.state 0).Initial := initial_oneTransient
  have hlast : ∀ n, crashedSecondAttempt.length ≤ n → e.state n = s := fun n hn =>
    Execution.ofRun_state_of_le hs hn
  have hw := timeline_of_execution h₀
  have hfinal : ∀ n, ∀ k ∈ reportedOn (e.state n).world.history 7, k = 1 ∨ k = 3 := by
    intro n k hk
    have hlater := hw.reportedOn_mono (le_max_left n crashedSecondAttempt.length) hk
    rw [hlast _ (le_max_right _ _), hreports] at hlater
    simpa using hlater
  have hlost : ∀ k ∈ ({2} : Set ℤ), LostAttempt (fun n => (e.state n).world) 7 k := by
    intro k hk
    obtain rfl := Set.mem_singleton_iff.mp hk
    refine ⟨fun n hmem => ?_, crashedSecondAttempt.length, 0, fun n r'' hn hr'' hrunning => ?_⟩
    · rcases hfinal n 2 hmem with h | h <;> cases h
    · rw [hlast n hn] at hr''
      obtain rfl := Option.some.inj (hr.symm.trans hr'')
      rw [hsucceeded] at hrunning
      cases hrunning
  have hreported : ∀ k, k ∉ ({2} : Set ℤ) →
      ReportedAttempt (fun n => (e.state n).world) 7 k := by
    intro k hk n hclaimed
    obtain ⟨claimed, hmem, rfl⟩ := hclaimed
    obtain ⟨r'', hstep⟩ := executedStep failsThenHashes_onceFailing.toFresh h₀ rfl (e.reaches n)
    have hnumber : claimed.attemptCount.val ∈
        (claimsOf (e.state n).world.history onceFailing.id).map (fun s => s.attemptCount.val) :=
      List.mem_map_of_mem (f := fun s => s.attemptCount.val) hmem
    rw [hstep.attempts, mem_generations] at hnumber
    have hbudget := hstep.row.budgeted.budget
    rw [hstep.row.task.maxAttempts] at hbudget
    have hthree : onceFailing.maxAttempts.val = 3 := rfl
    have hne : claimed.attemptCount.val ≠ 2 := hk
    refine ⟨crashedSecondAttempt.length, ?_⟩
    show _ ∈ reportedOn (e.state crashedSecondAttempt.length).world.history 7
    rw [hlast _ le_rfl, hreports]
    simp only [List.mem_cons, List.not_mem_nil, or_false]
    omega
  obtain ⟨n₀, r', hmax, houtcome, hstays⟩ := transient_failures_end h₀ rfl
    failsThenHashes_onceFailing hlost hreported
    (fun hnever => absurd ⟨r, by rw [hlast _ le_rfl]; exact hr, by rw [hsucceeded]; rfl⟩
      (hnever crashedSecondAttempt.length))
  have hsame := (hstays (max n₀ crashedSecondAttempt.length) (le_max_left _ _)).1
  rw [hlast _ (le_max_right _ _)] at hsame
  obtain rfl := Option.some.inj (hr.symm.trans hsame)
  have hleast : IsLeast (Succeeding ⟨"hi", 1⟩ {2} r) 3 := by
    have hthree : r.maxAttempts.val = 3 := by rw [hmax]; rfl
    refine ⟨⟨by decide, hthree.ge, by decide⟩, fun k hk => ?_⟩
    obtain ⟨hbeyond, -, hne⟩ := hk
    have hne : k ≠ 2 := hne
    simp only [Nat.cast_one] at hbeyond
    omega
  obtain ⟨-, hattempts, hversion, hresult⟩ := houtcome.succeeds 3 hleast
  refine ⟨s, r, hs, hr, hsucceeded, hattempts, hversion, hresult, ?_⟩
  have herror := houtcome.lastError
  rw [hattempts] at herror
  generalize r.lastError = lastError at herror
  cases herror with
  | none hempty => exact absurd (hempty ▸ ⟨le_rfl, by decide, by decide⟩ : (1 : ℤ) ∈ (∅ : Set ℤ)) nofun
  | @some j hgreatest =>
    obtain ⟨hpos, hle, -⟩ := hgreatest.1
    have hone : j ≤ 1 := hle.trans (by decide)
    obtain rfl : j = 1 := by omega
    rfl

end DurableRunner.Guarantees
