import DurableRunner.Guarantees.OneEffect
import DurableRunner.Guarantees.ServedSteps

/-! # Where every step ends

Unless the task has an effect, the executor and the lost attempts decide the row
in which a step ends.
-/
namespace DurableRunner.Guarantees
open Schema Operations Worker TransitionSystem
open Sessions hiding step

/-- Whatever its task, and whichever of its attempts are lost, a step that is kept served ends and
never changes again. Unless the task has an effect, the executor and the lost attempts decide the
row in which it ends. -/
theorem every_step_ends {sha256Hex : String → String} {e : Execution (Worker.step sha256Hex)}
    (h₀ : (e.state 0).Initial) {r₀ : StepRow}
    (hr₀ : (e.state 0).world.steps.find? r₀.id = some r₀) (hfresh : r₀.Fresh) {lost : Set ℤ}
    (hlost : ∀ k ∈ lost, LostAttempt (fun n => (e.state n).world) r₀.id k)
    (hreported : ∀ k, k ∉ lost → ReportedAttempt (fun n => (e.state n).world) r₀.id k)
    (hserved : (∀ n, ¬ Ended r₀.id (e.state n).world) →
      KeptServed (fun n => (e.state n).world) r₀.id) :
    ∃ n₀ r, r.status.isTerminalStepStatus = true ∧
      (parseTaskType r₀.taskType ≠ some .idempotentEffect → StepOutcome sha256Hex lost r₀ r) ∧
      ∀ n, n₀ ≤ n → (e.state n).world.steps.find? r₀.id = some r := by
  have hw := timeline_of_execution h₀
  have hsteps : ∀ n, ∃ r, ExecutedStep sha256Hex (e.state n).effects.rows r₀ (e.state n).world r :=
    fun n => executedStep hfresh h₀ hr₀ (e.reaches n)
  obtain ⟨n₀, r, hr, hterminal⟩ := exists_ended hw hsteps hlost hreported hserved
  refine ⟨n₀, r, hterminal, fun heffect => ?_, fun n hn => (hw.frozen hn hr hterminal).1⟩
  exact stepOutcome_of_ended hw hsteps heffect hlost hreported hr hterminal

def hashOfHi : StepRow :=
  .inserted 7 "hash_after_delay" (.obj [("input", .str "hi"), ("delayMs", .num 0)]) 0

def oneHash : Runtime where
  world := .opening ⟨[hashOfHi], List.nodup_singleton _⟩ 0
  effects := ⟨[], fun _ => none, 0⟩
  workers _ := none

theorem initial_oneHash : oneHash.Initial where
  world := World.initial_opening _ _
  effects := ⟨List.nodup_nil, fun _ => rfl⟩
  noKey := nofun
  noWorker _ := rfl

/-- A digest function that gives the SHA-256 of "hi". -/
def sha256OfHi (input : String) : String :=
  if input = "hi" then "8f434346648f6b96df89dda901c5176b10a6d83961dd3c1ac88b59b2dc327aa4" else ""

/-- The first attempt crashes, the second is another worker's. -/
def crashedFirstAttempt : List Worker.Action :=
  [.spawn 0 "worker", .claim 0 30000] ++ throughCommit 0 6 ++
    [.claimAnswered 0, .crash 0, .database (.tick 31000000),
      .database (.start .recoverExpiredSteps)] ++ throughCommit 1 6 ++
    [.spawn 1 "heir", .claim 1 30000] ++ throughCommit 2 6 ++
    [.claimAnswered 1, .execute 1 "unused", .report 1 []] ++ throughCommit 3 4

theorem attemptAt_hashOfHi {k : ℤ} (hk : 1 ≤ k) :
    attemptAt sha256OfHi hashOfHi k = .resolves (hashResult sha256OfHi "hi") := by
  have hparses : (parseHashAfterDelayPayload hashOfHi.payload).toOption.any
      (fun p => p.input = "hi") = true := by decide +kernel
  obtain ⟨⟨input, delayMs⟩, hparsed, hinput⟩ := (Option.any_eq_true _ _).mp hparses
  obtain rfl : input = "hi" := of_decide_eq_true hinput
  have hpositive : ¬ k < 1 := by omega
  have htask : parseTaskType hashOfHi.taskType = some .hashAfterDelay := by decide
  simp only [attemptAt, executeStep, htask, hpositive, if_false, runHashAfterDelay,
    toOption_eq_some.mp hparsed]

theorem every_step_ends_crash : ∃ (s : Runtime) (r : StepRow),
    run (Worker.step sha256OfHi) oneHash crashedFirstAttempt = some s ∧
      s.world.steps.find? 7 = some r ∧ r.status = .succeeded ∧ r.attemptCount.val = 2 ∧
      r.result = some (.obj
        [("hash", .str "8f434346648f6b96df89dda901c5176b10a6d83961dd3c1ac88b59b2dc327aa4")]) := by
  have hruns : (run (Worker.step sha256OfHi) oneHash crashedFirstAttempt).any (fun s =>
      reportedOn s.world.history 7 = [2] ∧
        (s.world.steps.find? 7).any fun r => r.status = .succeeded) = true := by
    decide +kernel
  obtain ⟨s, hs, hend⟩ := (Option.any_eq_true _ _).mp hruns
  obtain ⟨hreports, hended⟩ := of_decide_eq_true hend
  obtain ⟨r, hr, hstatus⟩ := (Option.any_eq_true _ _).mp hended
  have hsucceeded : r.status = .succeeded := of_decide_eq_true hstatus
  let e := Execution.ofRun hs
  have h₀ : (e.state 0).Initial := initial_oneHash
  have hlast : ∀ n, crashedFirstAttempt.length ≤ n → e.state n = s := fun n hn =>
    Execution.ofRun_state_of_le hs hn
  have hw := timeline_of_execution h₀
  have hfresh : hashOfHi.Fresh := StepRow.fresh_inserted _ _ _ _
  have hlost : ∀ k, k ∉ ({2} : Set ℤ) → LostAttempt (fun n => (e.state n).world) 7 k := by
    refine fun k hk => ⟨fun n hmem => hk ?_, crashedFirstAttempt.length, 0, fun n r'' hn hr'' hrunning => ?_⟩
    · have hlater := hw.reportedOn_mono (le_max_left n crashedFirstAttempt.length) hmem
      rw [hlast _ (le_max_right _ _), hreports] at hlater
      exact List.mem_singleton.mp hlater
    · rw [hlast n hn] at hr''
      obtain rfl := Option.some.inj (hr.symm.trans hr'')
      rw [hsucceeded] at hrunning
      cases hrunning
  have hreported : ∀ k, k ∉ ({2} : Set ℤ)ᶜ → ReportedAttempt (fun n => (e.state n).world) 7 k := by
    intro k hk n hclaimed
    obtain rfl : k = 2 := by simpa using hk
    refine ⟨crashedFirstAttempt.length, ?_⟩
    simp only [hlast _ le_rfl, hreports, List.mem_singleton]
  obtain ⟨n₀, r', -, houtcome, hstays⟩ := every_step_ends h₀ rfl hfresh hlost hreported
    (fun hnever => absurd ⟨r, by rw [hlast _ le_rfl]; exact hr, by rw [hsucceeded]; rfl⟩
      (hnever crashedFirstAttempt.length))
  have hsame := hstays (max n₀ crashedFirstAttempt.length) (le_max_left _ _)
  rw [hlast _ (le_max_right _ _)] at hsame
  obtain rfl := Option.some.inj (hr.symm.trans hsame)
  have hleast : IsLeast (Settling sha256OfHi ({2} : Set ℤ)ᶜ hashOfHi) 2 := by
    constructor
    · refine ⟨by decide, by decide, by simp, ?_⟩
      rw [attemptAt_hashOfHi (by decide)]
      trivial
    · rintro k ⟨-, -, hkept, -⟩
      obtain rfl : k = 2 := by simpa using hkept
      exact le_rfl
  obtain ⟨-, hattempts, hresult⟩ := (houtcome (by decide)).resolved 2 _ hleast
    (attemptAt_hashOfHi (by decide))
  exact ⟨s, r, hs, hr, hsucceeded, hattempts, hresult⟩

end DurableRunner.Guarantees
