import DurableRunner.Operations.Calls
import Mathlib.Order.Defs.Unbundled

/-! # The orders of the candidate selects

Each is a total order up to the step id, and a row that a select has taken is
out of its selection for good.
-/
namespace DurableRunner.Operations
open Schema

instance : Std.Total claimOrder where
  total a b := by
    unfold claimOrder
    grind

instance : IsTrans StepRow claimOrder where
  trans a b c hab hbc := by
    unfold claimOrder at *
    grind

theorem id_of_claimOrder {a b : StepRow} (hab : claimOrder a b) (hba : claimOrder b a) :
    a.id = b.id := by
  unfold claimOrder at *
  grind

instance : Std.Total promoteOrder where
  total a b := by
    unfold promoteOrder
    grind

instance : IsTrans StepRow promoteOrder where
  trans a b c hab hbc := by
    unfold promoteOrder at *
    grind

theorem id_of_promoteOrder {a b : StepRow} (hab : promoteOrder a b) (hba : promoteOrder b a) :
    a.id = b.id := by
  unfold promoteOrder at *
  grind

instance : Std.Total recoverOrder where
  total a b := by
    unfold recoverOrder
    cases a.leaseExpiresAt <;> cases b.leaseExpiresAt <;> simp only [or_true, true_or] <;> grind

instance : IsTrans StepRow recoverOrder where
  trans a b c hab hbc := by
    unfold recoverOrder at *
    cases ha : a.leaseExpiresAt <;> cases hb : b.leaseExpiresAt <;> cases hc : c.leaseExpiresAt <;>
      simp only [ha, hb, hc] at hab hbc ⊢ <;> grind

theorem id_of_recoverOrder {a b : StepRow} (hab : recoverOrder a b) (hba : recoverOrder b a) :
    a.id = b.id := by
  unfold recoverOrder at *
  cases ha : a.leaseExpiresAt <;> cases hb : b.leaseExpiresAt <;> simp only [ha, hb] at hab hba <;>
    grind

namespace Call

instance (call : Call) : Std.Total call.order := by
  cases call <;> unfold order <;> first | infer_instance | exact ⟨fun _ _ => .inl trivial⟩

instance (call : Call) : IsTrans StepRow call.order := by
  cases call <;> unfold order <;> first | infer_instance | exact ⟨fun _ _ _ _ _ => trivial⟩

theorem id_of_order {call : Call} (hcred : call.credential? = none) (hcall : call ≠ .lockRows)
    {a b : StepRow} (hab : call.order a b) (hba : call.order b a) : a.id = b.id := by
  cases call with
  | claimNextStep => exact id_of_claimOrder hab hba
  | recoverExpiredSteps => exact id_of_recoverOrder hab hba
  | promoteDueRetries => exact id_of_promoteOrder hab hba
  | renewStepLease | completeStepSuccess | recordStepFailure => cases hcred
  | lockRows => exact absurd rfl hcall

/-- A row that a claim or a sweep has updated is not a candidate any more, at any time. -/
theorem not_eligible_of_update {call : Call} (hcred : call.credential? = none)
    {now clock : Timestamp} {r r' : StepRow} (h : call.update now clock r = .ok (some r'))
    (now' clock' : Timestamp) : call.eligible now' clock' r' = false := by
  rw [Bool.eq_false_iff]
  intro heligible
  cases call with
  | claimNextStep workerId ms =>
    obtain ⟨_, he, hu⟩ := claimCandidate_eq_ok h
    obtain rfl := Option.some.inj he
    obtain ⟨-, -, -, -, hcols⟩ := claimUpdate_eq_some hu
    have hready := (claimEligible_iff.mp heligible).1
    rw [hcols] at hready
    cases hready
  | recoverExpiredSteps =>
    obtain ⟨_, hu, he⟩ := except_map_eq_ok.mp h
    obtain rfl := Option.some.inj he
    obtain ⟨-, d, hd, -⟩ := recoverEligible_iff.mp heligible
    rw [recoverUpdate_eq_ok.mp hu] at hd
    cases hd
  | promoteDueRetries =>
    obtain ⟨_, hu, he⟩ := except_map_eq_ok.mp h
    obtain rfl := Option.some.inj he
    have hwaiting := (promoteEligible_iff.mp heligible).1
    rw [promoteUpdate_eq_ok.mp hu] at hwaiting
    cases hwaiting
  | renewStepLease | completeStepSuccess | recordStepFailure => cases hcred
  | lockRows => cases h

theorem update_ne_none {call : Call} (hcred : call.credential? = none) (hcall : call ≠ .lockRows)
    {now clock : Timestamp} {r : StepRow} : call.update now clock r ≠ .ok none := by
  intro h
  cases call with
  | claimNextStep =>
    obtain ⟨_, he, -⟩ := claimCandidate_eq_ok h
    cases he
  | recoverExpiredSteps | promoteDueRetries =>
    obtain ⟨_, -, he⟩ := except_map_eq_ok.mp h
    cases he
  | renewStepLease | completeStepSuccess | recordStepFailure => cases hcred
  | lockRows => exact absurd rfl hcall

theorem updateAll_before {call : Call} (hcred : call.credential? = none) (hcall : call ≠ .lockRows)
    {now clock : Timestamp} {rows : List (StepRow × Timestamp)} {changes : List Change}
    (h : call.updateAll now clock rows = .ok changes) :
    changes.map (fun c => (c.before, c.checkedAt)) = rows := by
  induction rows generalizing changes with
  | nil =>
    obtain rfl := Except.ok.inj h
    rfl
  | cons p rows ih =>
    unfold updateAll at h
    split at h
    · cases h
    · cases h
    · rename_i hnone hrest
      exact absurd hnone (update_ne_none hcred hcall)
    · rename_i r' rest hrow hrest
      obtain rfl := Except.ok.inj h
      simp [ih hrest]

end Call
end DurableRunner.Operations
