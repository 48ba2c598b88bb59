import DurableRunner.Operations.WellFormed
import DurableRunner.Sessions.Claims

/-! # Every reachable row is well formed

The columns of a row agree with its status and with the committed claims, and no
statement of an operation ever meets a constraint of the table.
-/
namespace DurableRunner.Guarantees
open Schema Operations Sessions TransitionSystem

/-- No statement of a live transaction has met a constraint. -/
def Unconstrained (w : World) : Prop :=
  ∀ tx t e, w.txs tx = some t → t.phase = .aborted e → isConstraintError e = false

theorem wellFormed_of_reaches {w₀ w : World} (h₀ : w₀.Initial)
    (hfresh : ∀ r ∈ w₀.steps.rows, r.Fresh) (h : Reaches step w₀ w) {id : StepId} {r : StepRow}
    (hr : w.steps.find? id = some r) : WellFormed r := by
  obtain ⟨r₀, hr₀, hreach⟩ := row_of_reaches h₀ h hr
  exact wellFormed_of_run hreach (.fresh (hfresh r₀ (Relational.Table.mem_of_find? hr₀)))

theorem insert_error {e : NewEvent} {err : DbError} (h : recordStepEvent e = .error err) :
    isConstraintError err = false := by
  unfold recordStepEvent at h
  split at h
  · cases h
  · obtain rfl := Except.error.inj h
    rfl

/-- A statement that errs on well-formed rows does not err on a constraint. -/
theorem unconstrained_of_move {w : World} {tx : TxId} {t t' : Tx} {m : Move} {e : DbError}
    (hrows : ∀ id r, w.steps.find? id = some r → WellFormed r) (hm : MoveCase w tx t m)
    (ht' : (w.apply tx t m).txs tx = some t') (he : t'.phase = .aborted e) :
    isConstraintError e = false := by
  cases hm with
  | updateError hphase hupdate =>
    obtain rfl := eq_of_enter ht'
    obtain rfl := Phase.aborted.inj he
    obtain ⟨p, hp, herror⟩ := updateAll_error hupdate
    obtain ⟨q, -, hfind, -⟩ := mem_rowsOf.mp hp
    exact (hrows q.id p.1 hfind).update_error herror
  | insertError hphase hrecord =>
    obtain rfl := eq_of_enter ht'
    obtain rfl := Phase.aborted.inj he
    exact insert_error hrecord
  | release | missing | lockOwner | scan | finishSelect | skip | pick | keepLock | update
  | finishInsert | insert =>
    obtain rfl : _ = t' := by simpa [World.apply, World.setTx] using ht'
    cases he

theorem Unconstrained.step {w w' : World} {a : Action} (h : Unconstrained w)
    (hrows : ∀ id r, w.steps.find? id = some r → WellFormed r)
    (hstep : Sessions.step w a = some w') : Unconstrained w' := by
  intro other t' e ht' he
  cases step_cases hstep with
  | tick clock => exact h other t' e ht' he
  | start call hadmissible =>
    rcases begin_txs_cases ht' with ⟨rfl, rfl⟩ | ⟨hother, ht⟩
    · cases he
    · exact h other t' e ht he
  | @run tx t m ht hmove =>
    rcases apply_txs_cases ht' with ⟨rfl, ht'⟩ | ⟨hother, ht'⟩
    · exact unconstrained_of_move hrows hmove ht' he
    · exact h other t' e ht' he
  | @lockRow tx t id ht hcall hphase hpresent hfree =>
    rcases apply_txs_cases ht' with ⟨rfl, ht'⟩ | ⟨hother, ht'⟩
    · obtain rfl := eq_of_lock ht'
      cases he
    · exact h other t' e ht' he
  | @fault tx t ht =>
    rcases apply_txs_cases ht' with ⟨rfl, ht'⟩ | ⟨hother, ht'⟩
    · obtain rfl := eq_of_enter ht'
      obtain rfl := Phase.aborted.inj he
      rfl
    · exact h other t' e ht' he
  | @rollback tx t ht =>
    obtain ⟨hother, ht'⟩ := finish_txs_cases ht'
    exact h other t' e ht' he
  | @commit tx t d inserted ht hphase =>
    exact h other t' e (finish_txs_cases ht').2 he

theorem Unconstrained.reaches {w₀ w : World} (h₀ : w₀.Initial)
    (hfresh : ∀ r ∈ w₀.steps.rows, r.Fresh) (h : Reaches Sessions.step w₀ w) :
    Unconstrained w := by
  refine h.rec_tail (motive := Unconstrained) ?_ ?_
  · intro tx t e ht
    simp [h₀.noTx tx] at ht
  · intro v a v' hreach ih hstep
    exact ih.step (fun id r => wellFormed_of_reaches h₀ hfresh hreach) hstep

/-- In every reachable state each row is well formed, its two counters are the
number of its committed claims, a claimable row has room for one more in both,
and no operation has been stopped by a CHECK constraint or an integer overflow. -/
theorem reachable_rows_wellFormed {w₀ w : World} (h₀ : w₀.Initial)
    (hfresh : ∀ r ∈ w₀.steps.rows, r.Fresh) (h : Reaches step w₀ w) :
    (∀ id r, w.steps.find? id = some r → WellFormed r ∧
      r.leaseVersion.val = (claimsOf w.history id).length ∧
      r.attemptCount.val = (claimsOf w.history id).length ∧
      (r.status = .ready → (∃ v, r.leaseVersion.succ = .ok v) ∧ ∃ a, r.attemptCount.succ = .ok a)) ∧
    ∀ tx t, w.txs tx = some t →
      t.phase ≠ .aborted .checkViolation ∧ t.phase ≠ .aborted .integerOutOfRange := by
  refine ⟨fun id r hr => ?_, fun tx t ht => ?_⟩
  · have hwell := wellFormed_of_reaches h₀ hfresh h hr
    obtain ⟨r₀, hr₀, -⟩ := row_of_reaches h₀ h hr
    obtain ⟨r', hr', hcounted⟩ := (serial_of_reaches h₀ h).countedBy hr₀
    obtain rfl := Option.some.inj (hr.symm.trans hr')
    have hfresh₀ := hfresh r₀ (Relational.Table.mem_of_find? hr₀)
    refine ⟨hwell, ?_, ?_, fun hready => ?_⟩
    · simpa [hfresh₀.leaseVersion] using hcounted.leaseVersion
    · simpa [hfresh₀.attemptCount] using hcounted.attemptCount
    · have hbudget := hwell.claimable (.inl hready)
      exact ⟨Int4.succ_of_lt (hwell.generations ▸ hbudget), Int4.succ_of_lt hbudget⟩
  · have hnone := Unconstrained.reaches h₀ hfresh h tx t
    exact ⟨fun hphase => absurd (hnone _ ht hphase) (by decide),
      fun hphase => absurd (hnone _ ht hphase) (by decide)⟩

def exhaustedBudget : List Action :=
  callAlone 0 (.claimNextStep "worker" 1) 6 ++ [.tick 2000] ++ callAlone 1 .recoverExpiredSteps 6 ++
    callAlone 2 (.claimNextStep "worker" 1) 6 ++ [.tick 4000] ++
    callAlone 3 .recoverExpiredSteps 6 ++ callAlone 4 (.claimNextStep "worker" 1) 6 ++
    [.tick 6000] ++ callAlone 5 .recoverExpiredSteps 6

theorem reachable_rows_wellFormed_exhausted :
    ∃ w r, run step .singleStep exhaustedBudget = some w ∧ w.steps.find? 7 = some r ∧
      r.status = .deadLettered ∧ WellFormed r ∧
      r.attemptCount.val = (claimsOf w.history 7).length := by
  have hruns : (run step .singleStep exhaustedBudget).any
      (fun w => (w.steps.find? 7).any fun r => r.status = .deadLettered) = true := by
    decide +kernel
  obtain ⟨w, hw, hend⟩ := (Option.any_eq_true _ _).mp hruns
  obtain ⟨r, hr, hdead⟩ := (Option.any_eq_true _ _).mp hend
  obtain ⟨hrows, -⟩ :=
    reachable_rows_wellFormed World.initial_singleStep World.fresh_singleStep ⟨_, hw⟩
  obtain ⟨hwell, -, hattempts, -⟩ := hrows 7 r hr
  exact ⟨w, r, hw, hr, of_decide_eq_true hdead, hwell, hattempts⟩

end DurableRunner.Guarantees
