import DurableRunner.Guarantees.LoopRefinement
import DurableRunner.Worker.ExecutedStep

/-! # What the executors have written into the rows -/
namespace DurableRunner.Guarantees
open Schema Operations Effects TransitionSystem Worker
open Sessions (World SameTask)

/-- A row holds what its own executor gave rise to, and the table of effects one row for a key. -/
structure ExecutedAs (sha256Hex : String → String) (rows : List EffectRow) (r₀ r : StepRow) :
    Prop where
  task : SameTask r r₀
  keys : (rows.map EffectRow.idempotencyKey).Nodup
  succeeded : r.status = .succeeded → ∃ result,
    ResolvesWith sha256Hex rows r₀ r.attemptCount.val result ∧ r.result = some result.jsonb
  unfinished : r.status ≠ .succeeded → r.result = none
  deadLettered : r.status = .deadLettered → r.attemptCount.val = r.maxAttempts.val ∨
    ∃ reason, attemptAt sha256Hex r₀ r.attemptCount.val = .throws (.invalidTask reason)
  lastError : ∀ text, r.lastError = some text → ∃ j error message, 1 ≤ j ∧ j ≤ r.attemptCount.val ∧
    ThrowsError sha256Hex r₀ j error ∧ (error.message? = some message ∨ error = .effect .database) ∧
    text = message.toWellFormed

theorem invalidTask_of_throws {sha256Hex : String → String} {r₀ : StepRow} {k : ℤ}
    {error : ExecutorError} (h : ThrowsError sha256Hex r₀ k error) (hfinal : error.retryable = false) :
    ∃ reason, attemptAt sha256Hex r₀ k = .throws (.invalidTask reason) := by
  cases h with
  | thrown hthrows =>
    rcases executeStep_throws hthrows with ⟨reason, rfl⟩ | rfl
    · exact ⟨reason, hthrows⟩
    · cases hfinal
  | statement => cases hfinal

/-- Whichever processes claimed, renewed, crashed and reported, a row holds what the executor of
its own task, run on one of its own attempts, gave rise to. -/
theorem rows_hold_what_was_executed {sha256Hex : String → String} {s₀ s : Fleet} (h₀ : s₀.Initial)
    {r₀ : StepRow} (hfresh : r₀.Fresh) (hr₀ : s₀.world.steps.find? r₀.id = some r₀)
    (h : Reaches (Fleet.step sha256Hex) s₀ s) :
    ∃ r, s.world.steps.find? r₀.id = some r ∧ ExecutedAs sha256Hex s.effects.rows r₀ r := by
  have hstart : Matches sha256Hex s₀ s₀.runtime := .of_initial h₀
  obtain ⟨runtime, hreach, hmatches⟩ := hstart.reaches h
  have hinitial : s₀.runtime.Initial := ⟨h₀.world, h₀.effects, h₀.noKey, fun _ => rfl⟩
  obtain ⟨r, hstep⟩ := executedStep hfresh hinitial hr₀ hreach
  have hrow := hstep.row
  have hkeys := (Consistent.of_reaches hinitial hreach).sound.distinct
  rw [hmatches.effects] at hrow hkeys
  refine ⟨r, hmatches.world ▸ hstep.found, hrow.task, hkeys, fun hsucceeded => ?_, fun hopen => ?_,
    fun hdead => ?_, fun text htext => ?_⟩
  · exact (hrow.succeeded hsucceeded).2
  · rw [← Option.not_isSome_iff_eq_none, hrow.wellFormed.result]
    exact hopen
  · refine (hrow.deadLettered hdead).imp_right fun ⟨_, error, hthrows, hfinal⟩ => ?_
    exact invalidTask_of_throws hthrows hfinal
  · have hlast := hrow.lastError
    rw [htext] at hlast
    cases hlast with
    | @some j error message hgreatest hthrows hcarries =>
      obtain ⟨hpos, hle⟩ := hrow.numbered j hgreatest.1.1
      exact ⟨j, error, message, hpos, hle, hthrows, hthrows.message_of_carries hcarries, rfl⟩

def receiptOfV : StepRow :=
  .inserted 7 "idempotent_effect" (.obj [("value", .str "v"), ("delayAfterEffectMs", .num 0)]) 0

def receiptFleet : Fleet :=
  ⟨.opening ⟨[receiptOfV], List.nodup_singleton _⟩ 0, ⟨[], fun _ => none, 0⟩, fun _ => none⟩

theorem initial_receiptFleet : receiptFleet.Initial where
  world := World.initial_opening _ _
  effects := ⟨List.nodup_nil, fun _ => rfl⟩
  noKey := nofun
  noProcess _ := rfl

def claimedReceipt : ClaimedStep where
  id := 7
  workerId := some "worker"
  leaseVersion := ⟨1, Int4.inRange_one⟩
  attemptCount := ⟨1, Int4.inRange_one⟩
  leaseExpiresAt := some 30000000
  priority := ⟨0, Int4.inRange_zero⟩
  availableAt := 0
  taskType := "idempotent_effect"
  payload := receiptOfV.payload

/-- A worker claims the effect step, applies its effect and reports the row's result. -/
def receiptShift : List FleetAction :=
  [.spawn 0 ⟨"worker", 30000⟩ false] ++ throughEnd 0 6 ++
    [.loop 0 (.claimAnswered (.claimed claimedReceipt)), .loop 0 .resume, .applyEffect 0 "minted",
      .effects (.insert 0 0), .effects (.commit 0), .effects (.respond 0),
      .loop 0 (.executorSettled
        (.resolved (.obj [("value", .str "v"), ("effectId", .str "minted")]))),
      .loop 0 .resume, .loop 0 (.renewalResumes 0), .loop 0 .resume] ++
    throughEnd 1 4

theorem rows_hold_what_was_executed_shifts :
    (∃ (s : Fleet) (r : StepRow) (reason : InvalidTask) (error : ExecutorError) (message : JsString),
      run (Fleet.step id) idleFleet malformedShift = some s ∧ s.world.steps.find? 7 = some r ∧
        r.status = .deadLettered ∧ r.attemptCount.val = 1 ∧
        attemptAt id (.inserted 7 "hash_after_delay" .null 0) 1 = .throws (.invalidTask reason) ∧
        ThrowsError id (.inserted 7 "hash_after_delay" .null 0) 1 error ∧
        (error.message? = some message ∨ error = .effect .database) ∧
        r.lastError = some message.toWellFormed ∧
        r.lastError = some (.ofString "hash_after_delay payload must be an object, got null")) ∧
    ∃ (s : Fleet) (r : StepRow) (row : EffectRow),
      run (Fleet.step id) receiptFleet receiptShift = some s ∧ s.world.steps.find? 7 = some r ∧
        r.status = .succeeded ∧ row ∈ s.effects.rows ∧
        row.idempotencyKey = "step:00000000-0000-0000-0000-000000000007:demo_receipt" ∧
        r.result = some row.result := by
  constructor
  · have hruns : (run (Fleet.step id) idleFleet malformedShift).any (fun s =>
        (s.world.steps.find? 7).any fun r => r.status = .deadLettered ∧ r.attemptCount.val = 1 ∧
          r.maxAttempts.val = 3 ∧
          r.lastError = some (.ofString "hash_after_delay payload must be an object, got null")) =
        true := by decide +kernel
    obtain ⟨s, hs, hend⟩ := (Option.any_eq_true _ _).mp hruns
    obtain ⟨r, hr, hrow⟩ := (Option.any_eq_true _ _).mp hend
    obtain ⟨hdead, hcount, hmax, herror⟩ := of_decide_eq_true hrow
    have hfresh : (StepRow.inserted 7 "hash_after_delay" .null 0).Fresh :=
      StepRow.fresh_inserted _ _ _ _
    obtain ⟨r', hr', hexecuted⟩ := rows_hold_what_was_executed initial_idleFleet hfresh rfl ⟨_, hs⟩
    obtain rfl := Option.some.inj (hr.symm.trans hr')
    have hnotSpent : r.attemptCount.val ≠ r.maxAttempts.val := by rw [hcount, hmax]; decide
    obtain ⟨reason, hreason⟩ := (hexecuted.deadLettered hdead).resolve_left hnotSpent
    obtain ⟨j, error, message, hpos, hle, hthrows, hmessage, htext⟩ := hexecuted.lastError _ herror
    rw [hcount] at hreason hle
    obtain rfl : j = 1 := le_antisymm hle hpos
    exact ⟨s, r, reason, error, message, hs, hr, hdead, hcount, hreason, hthrows, hmessage,
      herror.trans (congrArg some htext), herror⟩
  · have hruns : (run (Fleet.step id) receiptFleet receiptShift).any (fun s =>
        (s.world.steps.find? 7).any fun r => r.status = .succeeded ∧ r.attemptCount.val = 1) =
        true := by decide +kernel
    obtain ⟨s, hs, hend⟩ := (Option.any_eq_true _ _).mp hruns
    obtain ⟨r, hr, hrow⟩ := (Option.any_eq_true _ _).mp hend
    obtain ⟨hsucceeded, hcount⟩ := of_decide_eq_true hrow
    have hfresh : receiptOfV.Fresh := StepRow.fresh_inserted _ _ _ _
    obtain ⟨r', hr', hexecuted⟩ := rows_hold_what_was_executed initial_receiptFleet hfresh rfl ⟨_, hs⟩
    obtain rfl := Option.some.inj (hr.symm.trans hr')
    obtain ⟨result, hresolves, hresult⟩ := hexecuted.succeeded hsucceeded
    have htask : parseTaskType receiptOfV.taskType = some .idempotentEffect := by decide
    cases hresolves with
    | computed hown => exact absurd hown (executeStep_effect_not_resolves htask)
    | @effect request row happlies hrow hkey htype hrequest =>
      refine ⟨s, r, row, hs, hr, hsucceeded, hrow, ?_, hresult.trans (congrArg some row.result_stored)⟩
      have hmine := effectRequest_eq_ok (executeStep_applies happlies).2
      rw [stepEffectKey_uuidText] at hmine
      rw [hkey, ← Except.ok.inj hmine]
      decide +kernel

end DurableRunner.Guarantees
