import Mathlib.Data.List.Basic

/-! # The legal step lifecycle graph

Only the shape of a transition is decided here. Ownership, attempt budgets and
the clock are the business of the statements that perform it.
-/
namespace DurableRunner.Schema

inductive StepStatus where
  | pending | ready | running | retryWait | succeeded | deadLettered | cancelled
deriving DecidableEq, Repr

namespace StepStatus

def legalTransitions : StepStatus → List StepStatus
  | .pending => [.ready, .cancelled]
  | .ready => [.running, .cancelled]
  | .running => [.succeeded, .retryWait, .deadLettered, .ready]
  | .retryWait => [.ready, .cancelled]
  | .succeeded => []
  | .deadLettered => []
  | .cancelled => []

def isTerminalStepStatus : StepStatus → Bool
  | .succeeded | .deadLettered | .cancelled => true
  | _ => false

def isLegalStepTransition (source target : StepStatus) : Bool :=
  target ∈ source.legalTransitions

/-- `none` stands for the thrown `IllegalStepTransitionError`. -/
def transitionStepStatus (source target : StepStatus) : Option StepStatus :=
  if isLegalStepTransition source target then some target else none

/-- The two descriptions of a terminal status agree. -/
theorem isTerminal_iff_no_transition (s : StepStatus) :
    s.isTerminalStepStatus = true ↔ ∀ t, transitionStepStatus s t = none := by
  cases s
  case succeeded | deadLettered | cancelled =>
    exact ⟨fun _ t => rfl, fun _ => rfl⟩
  all_goals
    refine ⟨nofun, fun h => ?_⟩
    first
    | exact absurd (h .ready) (by decide)
    | exact absurd (h .running) (by decide)

end StepStatus
end DurableRunner.Schema
