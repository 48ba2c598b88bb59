import DurableRunner.Operations.Calls
import DurableRunner.Processes.Stopping
import DurableRunner.TransitionSystem.IntervalLoop

/-! # The coordinator process -/
namespace DurableRunner.Processes
open Operations TransitionSystem

/-- `runRecoveryLoop`. Each sweep has its own `try`. -/
def recoveryLoop : IntervalLoop Call where
  first := .call .recoverExpiredSteps
  others := [.call .promoteDueRetries, .sleep false]

inductive CoordinatorMain where
  /-- `runRecoveryLoop`. -/
  | sweeping
  /-- `pool.end()`. -/
  | closing (closed : Option Bool)
  /-- `process.exit`. -/
  | exited (code : ℕ)
deriving DecidableEq

structure CoordinatorProcess where
  main : CoordinatorMain
  /-- `controller` and `exitCode`. -/
  stop : StopSignal
  loop : IntervalState Call
deriving DecidableEq

inductive CoordinatorAction where
  | stop (reason : StopReason)
  | loop (action : IntervalAction)
  | closed (ok : Bool)
  /-- The promise chain goes on. -/
  | resume
deriving DecidableEq

namespace CoordinatorProcess
variable (p : CoordinatorProcess)

def start : CoordinatorProcess := ⟨.sweeping, .start, .start recoveryLoop false⟩

def request (reason : StopReason) : CoordinatorProcess :=
  { p with stop := p.stop.request reason, loop := { p.loop with aborted := true } }

def exit (code : ℕ) : CoordinatorProcess := { p with main := .exited code }

def resume : Option CoordinatorProcess :=
  match p.main with
  | .sweeping => if p.loop.phase = .returned then some { p with main := .closing none } else none
  | .closing (some ok) => some (p.exit (if ok then p.stop.exitCode else 1))
  | .closing none | .exited _ => none

def isRunning : Bool :=
  match p.main with
  | .exited _ => false
  | _ => true

def advance : CoordinatorAction → Option CoordinatorProcess
  | .stop reason => some (p.request reason)
  | .loop .abort => none
  | .loop action => (p.loop.step recoveryLoop action).map fun loop => { p with loop }
  | .closed ok =>
    match p.main with
    | .closing none => some { p with main := .closing (some ok) }
    | _ => none
  | .resume => p.resume

def step (action : CoordinatorAction) : Option CoordinatorProcess :=
  if p.isRunning then p.advance action else none

end CoordinatorProcess

inductive CoordinatorMove (p : CoordinatorProcess) : CoordinatorAction → CoordinatorProcess → Prop
  | stop (reason : StopReason) : CoordinatorMove p (.stop reason) (p.request reason)
  | loop {action loop} (ha : action ≠ .abort) (hstep : p.loop.step recoveryLoop action = some loop) :
    CoordinatorMove p (.loop action) { p with loop }
  | closed {ok} (hmain : p.main = .closing none) :
    CoordinatorMove p (.closed ok) { p with main := .closing (some ok) }
  | swept (hmain : p.main = .sweeping) (hphase : p.loop.phase = .returned) :
    CoordinatorMove p .resume { p with main := .closing none }
  | exited {ok : Bool} (hmain : p.main = .closing (some ok)) :
    CoordinatorMove p .resume (p.exit (if ok then p.stop.exitCode else 1))

section Steps
variable {p q : CoordinatorProcess} {a : CoordinatorAction}

theorem coordinatorMove_of_step (h : p.step a = some q) : p.isRunning = true ∧ CoordinatorMove p a q := by
  obtain ⟨hrunning, h⟩ := Option.ite_none_right_eq_some.mp h
  refine ⟨hrunning, ?_⟩
  cases a with
  | stop reason =>
    obtain rfl := Option.some.inj h
    exact .stop reason
  | loop action =>
    by_cases ha : action = .abort
    · subst ha
      cases h
    · have hmap : (p.loop.step recoveryLoop action).map (fun loop => { p with loop }) = some q := by
        cases action <;> first
          | exact absurd rfl ha
          | exact h
      obtain ⟨loop, hstep, rfl⟩ := Option.map_eq_some_iff.mp hmap
      exact .loop ha hstep
  | closed ok =>
    simp only [CoordinatorProcess.advance] at h
    split at h
    · rename_i hmain
      obtain rfl := Option.some.inj h
      exact .closed hmain
    · cases h
  | resume =>
    simp only [CoordinatorProcess.advance, CoordinatorProcess.resume] at h
    split at h
    · rename_i hmain
      obtain ⟨hphase, h⟩ := Option.ite_none_right_eq_some.mp h
      obtain rfl := Option.some.inj h
      exact .swept hmain hphase
    · rename_i hmain
      obtain rfl := Option.some.inj h
      exact .exited hmain
    all_goals cases h

theorem step_of_advance (hrunning : p.isRunning = true) : p.step a = p.advance a := if_pos hrunning

end Steps
end DurableRunner.Processes
