import DurableRunner.Guarantees.EventHistory
import DurableRunner.Schema.Surrogates
import DurableRunner.Sessions.Provenance

/-! # Every column is explained by the accepted operations -/
namespace DurableRunner.Guarantees
open Schema Operations Sessions TransitionSystem

theorem change_isSome_iff_accepted {steps : StepsTable} {c : Commit} {cred : Credential}
    (h : Performs steps c.call c.start c.decision) (hcred : c.call.credential? = some cred) :
    (c.change? cred.id).isSome = true ↔ isRejection c.outcome = false := by
  constructor
  · intro hchanged
    refine Bool.eq_false_iff.mpr fun hrejected => ?_
    rw [Commit.change?, changes_of_isRejection h hrejected] at hchanged
    cases hchanged
  · intro haccepted
    cases hchanges : c.decision.changes with
    | nil =>
      rw [Commit.outcome, hchanges, isRejection_of_unchanged hcred] at haccepted
      cases haccepted
    | cons ch rest =>
      have hmem : ch ∈ c.decision.changes := by simp [hchanges]
      have hid := (holdsLiveLease_iff.mp (live_of_owner_change hcred (h.transition hmem))).1
      rw [Commit.change?, List.find?_isSome]
      exact ⟨ch, hmem, by simpa using hid⟩

/-- In every reachable state the columns of every step are explained by the
operations accepted on it, and `last_error` is the last reported text whenever
that is well-formed Unicode. -/
theorem columns_explained_by_history {w₀ w : World} (h₀ : w₀.Initial) (h : Reaches step w₀ w)
    {id : StepId} {r₀ : StepRow} (hr₀ : w₀.steps.find? id = some r₀) :
    (∃ r, w.steps.find? id = some r ∧ Provenance r₀ r (acceptedOn w.history id) ∧
      ∀ error, ((acceptedOn w.history id).filterMap reportedError).getLast? = some error →
        error.isWellFormed = true → r.lastError = some error) ∧
    ∀ c ∈ w.history, ∀ cred, c.call.credential? = some cred →
      ((c.change? cred.id).isSome = true ↔ isRejection c.outcome = false) := by
  have hserial := serial_of_reaches h₀ h
  have hperformed := fun c hc => (hserial.performs c hc).1
  refine ⟨?_, fun c hc cred hcred => ?_⟩
  · obtain ⟨r, hr, hlife⟩ := hserial.life hr₀
    have hprovenance : Provenance r₀ r (acceptedOn w.history id) := .of_life hlife fun p hp hlimit => by
      obtain ⟨hc, hchange⟩ := mem_acceptedOn.mp hp
      obtain ⟨steps, hperforms⟩ := hperformed p.1 hc
      exact hperforms.changes_eq hlimit hchange
    refine ⟨r, hr, hprovenance, fun error hlast hwellFormed => ?_⟩
    rw [hprovenance.lastError, hlast]
    exact congrArg some (JsString.toWellFormed_of_isWellFormed hwellFormed)
  · obtain ⟨steps, hperforms⟩ := hperformed c hc
    exact change_isSome_iff_accepted hperforms hcred

theorem columns_explained_by_history_eventful_life :
    ∃ w r, run step .singleStep eventfulLife = some w ∧ w.steps.find? 7 = some r ∧
      r.lastError = some [0x45] := by
  have hruns : (run step .singleStep eventfulLife).any
      (fun w => ((acceptedOn w.history 7).filterMap reportedError).getLast? = some [0x45]) = true := by
    decide +kernel
  obtain ⟨w, hw, hend⟩ := (Option.any_eq_true _ _).mp hruns
  have hinserted : World.singleStep.steps.find? 7 =
      some (.inserted 7 "hash_after_delay" .null 0) := rfl
  obtain ⟨⟨r, hr, -, hlast⟩, -⟩ :=
    columns_explained_by_history World.initial_singleStep ⟨_, hw⟩ hinserted
  exact ⟨w, r, hw, hr, hlast _ (of_decide_eq_true hend) rfl⟩

/-- A long error text that ends in half a surrogate pair: the excerpt of the event
does not reach it. -/
def unpairedError : JsString := List.replicate 200 0x61 ++ [0xD800]

def unpairedReport : List Action :=
  callAlone 0 (.claimNextStep "worker" 30000) 6 ++
    callAlone 1 (.recordStepFailure ⟨7, "worker", ⟨1, Int4.inRange_one⟩⟩ unpairedError true) 4

theorem last_error_is_not_the_reported_text :
    ∃ w r, run step .singleStep unpairedReport = some w ∧ w.steps.find? 7 = some r ∧
      ((acceptedOn w.history 7).filterMap reportedError).getLast? = some unpairedError ∧
      r.lastError ≠ some unpairedError := by
  have hruns : (run step .singleStep unpairedReport).any
      (fun w => (w.steps.find? 7).any fun r =>
        ((acceptedOn w.history 7).filterMap reportedError).getLast? = some unpairedError ∧
          r.lastError ≠ some unpairedError) = true := by
    decide +kernel
  obtain ⟨w, hw, hend⟩ := (Option.any_eq_true _ _).mp hruns
  obtain ⟨r, hr, hend⟩ := (Option.any_eq_true _ _).mp hend
  obtain ⟨hreported, hstored⟩ := of_decide_eq_true hend
  exact ⟨w, r, hw, hr, hreported, hstored⟩

end DurableRunner.Guarantees
