import DurableRunner.Worker.Consistent

/-! # One effect per logical step -/
namespace DurableRunner.Guarantees
open Schema Operations Effects Worker TransitionSystem
open Sessions (World TxId)

def effectRowsOf (rows : List EffectRow) (id : StepId) : List EffectRow :=
  rows.filter fun row => stepEffectKey (uuidText id) = .ok row.idempotencyKey

/-- The effect of a step is one, permanent, and what everybody gets to see of it. -/
structure OneEffect (sha256Hex : String → String) (s₀ s : Runtime) (id : StepId) : Prop where
  atMostOne : (effectRowsOf s.effects.rows id).length ≤ 1
  permanent : ∀ s', Reaches (step sha256Hex) s s' → ∀ row ∈ effectRowsOf s.effects.rows id,
    effectRowsOf s'.effects.rows id = [row]
  returned : ∀ i worker step result, s.workers i = some worker →
    worker.phase = .resolved step result → step.id = id →
      ∃ row, effectRowsOf s.effects.rows id = [row] ∧ result = row.result
  thrown : ∀ i worker step error, s.workers i = some worker →
    worker.phase = .threw step error → step.id = id →
      ∀ key, error ≠ .effect (.idempotencyConflict key) ∧ error ≠ .effect (.effectState key)
  succeeded : ∀ r₀ r, s₀.world.steps.find? id = some r₀ → r₀.status ≠ .succeeded →
    s.world.steps.find? id = some r → r.status = .succeeded →
      ∃ row, effectRowsOf s.effects.rows id = [row] ∧ r.result = some row.result
  separate : ∀ row ∈ effectRowsOf s.effects.rows id, ∀ stepId,
    stepEffectKey stepId = .ok row.idempotencyKey → toLowerCase stepId = toLowerCase (uuidText id)

section
variable {rows : List EffectRow} {id : StepId} {row : EffectRow}

theorem mem_effectRowsOf :
    row ∈ effectRowsOf rows id ↔
      row ∈ rows ∧ stepEffectKey (uuidText id) = .ok row.idempotencyKey := by
  rw [effectRowsOf, List.mem_filter, decide_eq_true_eq]

theorem effectRowsOf_eq (hdistinct : (rows.map EffectRow.idempotencyKey).Nodup)
    (hrow : row ∈ effectRowsOf rows id) : effectRowsOf rows id = [row] := by
  obtain ⟨hmem, hkey⟩ := mem_effectRowsOf.mp hrow
  have hfilter : effectRowsOf rows id = rows.filter (fun row' => row' = row) := by
    refine List.filter_congr fun row' hrow' => ?_
    rw [decide_eq_decide, hkey, Except.ok.injEq]
    exact ⟨fun e => (List.inj_on_of_nodup_map hdistinct hmem hrow' e).symm, fun e => e ▸ rfl⟩
  rw [hfilter, List.filter_eq, List.count_eq_one_of_mem (.of_map _ hdistinct) hmem]
  rfl

end

theorem rows_prefix_of_reaches {sha256Hex : String → String} {s s' : Runtime}
    (h : Reaches (step sha256Hex) s s') : s.effects.rows <+: s'.effects.rows := by
  refine Reaches.rec_tail (motive := fun s' => s.effects.rows <+: s'.effects.rows)
    List.prefix_rfl (fun m a u _ hm hstep => hm.trans ?_) h
  cases runtime_cases hstep with
  | effects hadmits hmoved => exact rows_prefix_of_step hmoved
  | apply hworker hphase hexecute hmoved => exact rows_prefix_of_step hmoved
  | _ => exact List.prefix_rfl

/-- A backed result of an effect step is the result of its only row. -/
theorem row_of_backed {steps : StepsTable} {rows : List EffectRow} {id : StepId} {result : Json}
    (hdistinct : (rows.map EffectRow.idempotencyKey).Nodup) (hid : IsEffectStep steps id)
    (h : Backed steps rows id result) : ∃ row, effectRowsOf rows id = [row] ∧ result = row.result := by
  obtain ⟨row, hrow, hkey, hresult⟩ := h hid
  exact ⟨row, effectRowsOf_eq hdistinct (mem_effectRowsOf.mpr ⟨hrow, hkey⟩), hresult.symm⟩

/-- Whatever becomes of workers, leases and statements, an effect step has at most
one effect, it stays as it is, and every execution that returns and a step that
succeeds report its result. -/
theorem one_effect_per_step {sha256Hex : String → String} {s₀ s : Runtime} (h₀ : s₀.Initial)
    (h : Reaches (step sha256Hex) s₀ s) {id : StepId} (hid : IsEffectStep s₀.world.steps id) :
    OneEffect sha256Hex s₀ s id := by
  have hs := Consistent.of_reaches h₀ h
  refine ⟨?_, fun s' hreach row hrow => ?_, fun i worker step result hworker hphase hstep => ?_,
    fun i worker step error hworker hphase hstep key => ?_,
    fun r₀ r hr₀ hstart hr hsucceeded => ?_, fun row hrow stepId hkey => ?_⟩
  · cases hrows : effectRowsOf s.effects.rows id with
    | nil => simp
    | cons row rest =>
      have hmem : row ∈ effectRowsOf s.effects.rows id := by simp [hrows]
      rw [← hrows, effectRowsOf_eq hs.sound.distinct hmem, List.length_singleton]
  · have hs' := Consistent.of_reaches h₀ (h.trans hreach)
    obtain ⟨hmem, hkey⟩ := mem_effectRowsOf.mp hrow
    exact effectRowsOf_eq hs'.sound.distinct
      (mem_effectRowsOf.mpr ⟨(rows_prefix_of_reaches hreach).subset hmem, hkey⟩)
  · have hholds := hs.workers i worker hworker
    rw [hphase] at hholds
    exact row_of_backed hs.sound.distinct hid (hstep ▸ hholds.2)
  · have hholds := hs.workers i worker hworker
    rw [hphase] at hholds
    refine ⟨fun herror => ?_, fun herror => ?_⟩ <;> cases hholds _ herror
  · rcases (Sessions.serial_of_reaches h₀.world hs.reaches).completion hr hsucceeded with
      hsame | ⟨c, hc, cred, result, hcall, hcred, hresult⟩
    · obtain rfl := Option.some.inj (hr₀.symm.trans hsame)
      exact absurd hsucceeded hstart
    · have hbacked := hs.issued cred result (.inr ⟨c, hc, hcall⟩)
      obtain ⟨row, hrows, hreported⟩ := row_of_backed hs.sound.distinct hid (hcred ▸ hbacked)
      exact ⟨row, hrows, by rw [hresult, hreported, row.result_stored]⟩
  · exact toLowerCase_eq_of_key hkey (mem_effectRowsOf.mp hrow).2

def oneReceipt : Runtime where
  world := .opening ⟨[.inserted 7 "idempotent_effect"
    (.obj [("value", .str "v"), ("delayAfterEffectMs", .num 0)]) 0], List.nodup_singleton _⟩ 0
  effects := ⟨[], fun _ => none, 0⟩
  workers _ := none

theorem initial_oneReceipt : oneReceipt.Initial where
  world := World.initial_opening _ _
  effects := ⟨List.nodup_nil, fun _ => rfl⟩
  noKey := nofun
  noWorker _ := rfl

def throughCommit (tx : TxId) (moves : ℕ) : List Worker.Action :=
  List.replicate moves (.database (.run tx)) ++ [.database (.commit tx)]

/-- The first worker's effect commits and its lease runs out. A second worker
claims, executes and completes the step before the first one reports. -/
def lostCompletion : List Worker.Action :=
  [.spawn 0 "first", .spawn 1 "second", .claim 0 5] ++ throughCommit 0 6 ++
    [.claimAnswered 0, .execute 0 "applied", .effects (.insert 0 0), .effects (.commit 0),
      .database (.tick 5000), .database (.start .recoverExpiredSteps)] ++ throughCommit 1 6 ++
    [.claim 1 30000] ++ throughCommit 2 6 ++
    [.claimAnswered 1, .execute 1 "discarded", .effects (.insert 1 5000), .effects (.read 1),
      .effects (.respond 0), .effectAnswered 0, .effectAnswered 1, .report 1 []] ++
    throughCommit 3 4 ++ [.report 0 []]

theorem one_effect_per_step_lost_completion :
    ∃ s row r, run (step id) oneReceipt lostCompletion = some s ∧
      effectRowsOf s.effects.rows 7 = [row] ∧ s.world.steps.find? 7 = some r ∧
      r.attemptCount.val = 2 ∧ r.result = some row.result := by
  have hruns : (run (step id) oneReceipt lostCompletion).any
      (fun s => (s.world.steps.find? 7).any fun r =>
        r.status = .succeeded ∧ r.attemptCount.val = 2) = true := by
    decide +kernel
  obtain ⟨s, hs, hend⟩ := (Option.any_eq_true _ _).mp hruns
  obtain ⟨r, hr, hrow⟩ := (Option.any_eq_true _ _).mp hend
  obtain ⟨hsucceeded, hattempts⟩ := of_decide_eq_true hrow
  have htask : IsEffectStep oneReceipt.world.steps 7 := ⟨_, rfl, by decide +kernel⟩
  have heffect := one_effect_per_step initial_oneReceipt ⟨_, hs⟩ htask
  obtain ⟨row, hrows, hresult⟩ := heffect.succeeded _ r rfl nofun hr hsucceeded
  exact ⟨s, row, r, hs, hrows, hr, hattempts, hresult⟩

end DurableRunner.Guarantees
