import DurableRunner.Guarantees.Fencing
import DurableRunner.Operations.RowHistory

/-! # The event history always explains the row -/
namespace DurableRunner.Guarantees
open Schema Operations Sessions TransitionSystem

theorem changes_of_isRejection {steps : StepsTable} {call : Call} {start : Timestamp} {d : Decision}
    (h : Performs steps call start d) (hrejected : isRejection (call.outcome d.instant d.changes) = true) :
    d.changes = [] := by
  have hbounded := h.bounded
  obtain ⟨instant, changes⟩ := d
  simp only at hrejected hbounded ⊢
  cases call with
  | claimNextStep | renewStepLease | recordStepFailure =>
    cases changes with
    | nil => rfl
    | cons c changes => cases hrejected
  | completeStepSuccess cred result =>
    have hlength : changes.length ≤ 1 := hbounded
    rw [Call.outcome] at hrejected
    split at hrejected
    · cases hrejected
    · exact List.length_eq_zero_iff.mp (by omega)
  | recoverExpiredSteps | promoteDueRetries | lockRows => cases hrejected

/-- Renewals and rejected writes contribute no event. -/
theorem events_eq_nil_of_silent {steps : StepsTable} {c : Commit}
    (h : Performs steps c.call c.start c.decision)
    (hwritten : c.call.events c.decision.changes = c.events.map EventRow.toNewEvent)
    (hsilent : (∃ cred ms, c.call = .renewStepLease cred ms) ∨ isRejection c.outcome = true) :
    c.events = [] := by
  rcases hsilent with ⟨cred, ms, hcall⟩ | hrejected
  · rw [hcall] at hwritten
    have hnone : Call.events (.renewStepLease cred ms) c.decision.changes = [] := by
      simp [Call.events, Call.event]
    rw [hnone] at hwritten
    exact List.map_eq_nil_iff.mp hwritten.symm
  · rw [changes_of_isRejection h hrejected] at hwritten
    exact List.map_eq_nil_iff.mp hwritten.symm

/-- In every reachable state the committed events of a step, in commit order, form
a history word, count the claims, name the claiming workers, and fold to the row.
The event table is what the committed calls wrote, and renewals and rejected
writes wrote nothing. -/
theorem history_explains_row {w₀ w : World} (h₀ : w₀.Initial)
    (hunclaimed : ∀ r ∈ w₀.steps.rows, r.Unclaimed) (hnoEvents : w₀.events = [])
    (h : Reaches step w₀ w) :
    (∀ id r, w.steps.find? id = some r →
      ((eventsOf w.events id).map fun e => e.eventType) ∈ historyWord.matches' ∧
      Numbered (eventsOf w.events id) ∧ Attributed (eventsOf w.events id) ∧
      foldEvents (eventsOf w.events id) = viewOf r) ∧
    w.events = w.history.flatMap Commit.events ∧
    ∀ c ∈ w.history,
      ((∃ cred ms, c.call = .renewStepLease cred ms) ∨ isRejection c.outcome = true) →
        c.events = [] := by
  have hserial := serial_of_reaches h₀ h
  refine ⟨fun id r hr => ?_, ?_, fun c hc hsilent => ?_⟩
  · obtain ⟨r₀, hr₀, hreach⟩ := row_of_reaches h₀ h hr
    have hnone : eventsOf w₀.events id = [] := by simp [eventsOf, hnoEvents]
    rw [hnone] at hreach
    have hexplains := explains_of_run hreach
      (Explains.unclaimed (hunclaimed r₀ (Relational.Table.mem_of_find? hr₀)))
    exact ⟨hexplains.word.historyWord, hexplains.numbered, hexplains.attributed, hexplains.folds⟩
  · simpa [hnoEvents] using hserial.events_eq
  · obtain ⟨⟨before, hperforms⟩, hwritten⟩ := hserial.performs c hc
    exact events_eq_nil_of_silent hperforms hwritten hsilent

/-- A step is claimed, recovered, claimed again, fails, and is promoted; another
worker's late renewal is turned down in between. -/
def eventfulLife : List Action :=
  callAlone 0 (.claimNextStep "first" 1) 6 ++ [.tick 2000] ++ callAlone 1 .recoverExpiredSteps 6 ++
    callAlone 2 (.claimNextStep "second" 30000) 6 ++
    callAlone 3 (.renewStepLease ⟨7, "first", ⟨1, Int4.inRange_one⟩⟩ 30000) 3 ++
    callAlone 4 (.recordStepFailure ⟨7, "second", ⟨2, by decide⟩⟩ [0x45] true) 4 ++
    [.tick 2000000] ++ callAlone 5 .promoteDueRetries 6

theorem history_explains_row_eventful_life :
    ∃ w r, run step .singleStep eventfulLife = some w ∧
      w.steps.find? 7 = some r ∧ (eventsOf w.events 7).length = 5 ∧
      ((eventsOf w.events 7).map fun e => e.eventType) ∈ historyWord.matches' ∧
      foldEvents (eventsOf w.events 7) = viewOf r := by
  have hruns : (run step .singleStep eventfulLife).any
      (fun w => (w.steps.find? 7).isSome ∧ (eventsOf w.events 7).length = 5) = true := by
    decide +kernel
  obtain ⟨w, hw, hend⟩ := (Option.any_eq_true _ _).mp hruns
  obtain ⟨hpresent, hlength⟩ := of_decide_eq_true hend
  obtain ⟨r, hr⟩ := Option.isSome_iff_exists.mp hpresent
  obtain ⟨hrows, -⟩ := history_explains_row World.initial_singleStep
    (fun r hr => (World.fresh_singleStep r hr).toUnclaimed) rfl ⟨_, hw⟩
  obtain ⟨hword, -, -, hfolds⟩ := hrows 7 r hr
  exact ⟨w, r, hw, hr, hlength, hword, hfolds⟩

end DurableRunner.Guarantees
