import Mathlib.Order.Basic

/-! # How a process is told to stop -/
namespace DurableRunner.Processes

/-- SIGTERM and SIGINT, or a connection for which PostgreSQL rejects the password. -/
inductive StopReason where
  | signal
  | credentialRejected
deriving DecidableEq

/-- The abort controller of a process with its `exitCode`. -/
structure StopSignal where
  aborted : Bool
  exitCode : ℕ
deriving DecidableEq

namespace StopSignal

def start : StopSignal := ⟨false, 0⟩

/-- The handler of a request. Only a rejected password that comes first is an error. -/
def request (stop : StopSignal) : StopReason → StopSignal
  | .signal => { stop with aborted := true }
  | .credentialRejected => if stop.aborted then stop else ⟨true, 1⟩

/-- What the requests so far have made of the signal: the first one decides. -/
def requested : Option StopReason → StopSignal
  | none => start
  | some .signal => ⟨true, 0⟩
  | some .credentialRejected => ⟨true, 1⟩

theorem request_requested (first : Option StopReason) (reason : StopReason) :
    (requested first).request reason = requested (first.or (some reason)) := by
  cases first with
  | none => cases reason <;> rfl
  | some first => cases first <;> cases reason <;> rfl

theorem aborted_requested (first : Option StopReason) : (requested first).aborted = first.isSome := by
  cases first with
  | none => rfl
  | some reason => cases reason <;> rfl

theorem aborted_request (stop : StopSignal) (reason : StopReason) :
    (stop.request reason).aborted = true := by
  cases reason with
  | signal => rfl
  | credentialRejected =>
    show (if stop.aborted then stop else ⟨true, 1⟩ : StopSignal).aborted = true
    split
    · assumption
    · rfl

end StopSignal
end DurableRunner.Processes
