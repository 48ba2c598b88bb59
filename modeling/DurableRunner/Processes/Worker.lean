import DurableRunner.Processes.Stopping
import DurableRunner.TransitionSystem.IntervalLoop
import DurableRunner.Worker.Loop

/-! # The worker process

Registration, the worker loop with the heartbeat beside it, and the end of both
before the pool is closed.
-/
namespace DurableRunner.Processes
open Operations TransitionSystem Worker
open Schema (WorkerId)

/-- `runHeartbeatLoop`; its only call is `recordWorkerHeartbeat`. -/
def heartbeatLoop (workerId : WorkerId) : IntervalLoop WorkerId where
  first := .sleep true
  others := [.call workerId]

/-- What `main` of the worker awaits; a promise with its end once there is one. -/
inductive WorkerMain where
  /-- `registerWorker`. -/
  | registering (registered : Option Bool)
  /-- `runWorkerLoop`. -/
  | working
  /-- The heartbeat, after the loop has returned or thrown. -/
  | stopping (threw : Bool)
  /-- `pool.end()`. -/
  | closing (closed : Option Bool)
  /-- `process.exit`. -/
  | exited (code : ℕ)
deriving DecidableEq

structure WorkerProcess where
  main : WorkerMain
  /-- `workController` and `exitCode`. -/
  stop : StopSignal
  loop : LoopState
  /-- `heartbeatController` is its signal. -/
  heartbeat : IntervalState WorkerId
deriving DecidableEq

deriving instance DecidableEq for LoopAction

inductive WorkerAction where
  | stop (reason : StopReason)
  | registered (ok : Bool)
  | loop (action : LoopAction)
  | heartbeat (action : IntervalAction)
  | closed (ok : Bool)
  /-- `main` goes on after its await. -/
  | resume
deriving DecidableEq

namespace WorkerProcess
variable (o : LoopOptions) (p : WorkerProcess)

/-- Neither loop runs yet, and no statement is sent for a blank ID. -/
def start : WorkerProcess where
  main := .registering (if isBlank o.workerId then some false else none)
  stop := .start
  loop := { phase := .returned, renewals := [], aborted := false, trace := [], outcomes := [] }
  heartbeat := ⟨.returned, false, []⟩

/-- The signal of the loop is that of the process. -/
def request (reason : StopReason) : WorkerProcess :=
  { p with stop := p.stop.request reason, loop := { p.loop with aborted := true } }

def work : WorkerProcess := { p with
  main := .working
  loop := .start o p.stop.aborted
  heartbeat := .start (heartbeatLoop o.workerId) false }

/-- `finally`. -/
def stopHeartbeat (threw : Bool) : WorkerProcess := { p with
  main := .stopping threw
  heartbeat := { p.heartbeat with aborted := true } }

def exit (code : ℕ) : WorkerProcess := { p with main := .exited code }

def resume : Option WorkerProcess :=
  match p.main with
  | .registering (some true) => some (p.work o)
  | .registering (some false) => some (p.exit 1)
  | .working =>
    match p.loop.phase with
    | .returned => some (p.stopHeartbeat false)
    | .rejected => some (p.stopHeartbeat true)
    | _ => none
  | .stopping threw =>
    if p.heartbeat.phase = .returned then
      some (if threw then p.exit 1 else { p with main := .closing none })
    else none
  | .closing (some true) => some (p.exit p.stop.exitCode)
  | .closing (some false) => some (p.exit 1)
  | .registering none | .closing none | .exited _ => none

def isRunning : Bool :=
  match p.main with
  | .exited _ => false
  | _ => true

/-- What can happen while the process runs. The signals of the loops are left to `main`. -/
def advance : WorkerAction → Option WorkerProcess
  | .stop reason => some (p.request reason)
  | .registered ok =>
    match p.main with
    | .registering none => some { p with main := .registering (some ok) }
    | _ => none
  | .loop .abort | .heartbeat .abort => none
  | .loop action => (p.loop.step o action).map fun loop => { p with loop }
  | .heartbeat action =>
    (p.heartbeat.step (heartbeatLoop o.workerId) action).map fun heartbeat => { p with heartbeat }
  | .closed ok =>
    match p.main with
    | .closing none => some { p with main := .closing (some ok) }
    | _ => none
  | .resume => p.resume o

def step (action : WorkerAction) : Option WorkerProcess :=
  if p.isRunning then p.advance o action else none

end WorkerProcess

inductive WorkerMove (o : LoopOptions) (p : WorkerProcess) : WorkerAction → WorkerProcess → Prop
  | stop (reason : StopReason) : WorkerMove o p (.stop reason) (p.request reason)
  | registered {ok} (hmain : p.main = .registering none) :
    WorkerMove o p (.registered ok) { p with main := .registering (some ok) }
  | loop {action loop} (ha : action ≠ .abort) (hstep : p.loop.step o action = some loop) :
    WorkerMove o p (.loop action) { p with loop }
  | heartbeat {action heartbeat} (ha : action ≠ .abort)
      (hstep : p.heartbeat.step (heartbeatLoop o.workerId) action = some heartbeat) :
    WorkerMove o p (.heartbeat action) { p with heartbeat }
  | closed {ok} (hmain : p.main = .closing none) :
    WorkerMove o p (.closed ok) { p with main := .closing (some ok) }
  | worked (hmain : p.main = .registering (some true)) : WorkerMove o p .resume (p.work o)
  | unregistered (hmain : p.main = .registering (some false)) : WorkerMove o p .resume (p.exit 1)
  | loopEnded {threw : Bool} (hmain : p.main = .working)
      (hphase : p.loop.phase = if threw then .rejected else .returned) :
    WorkerMove o p .resume (p.stopHeartbeat threw)
  | heartbeatEnded (hmain : p.main = .stopping false) (hphase : p.heartbeat.phase = .returned) :
    WorkerMove o p .resume { p with main := .closing none }
  | gaveUp (hmain : p.main = .stopping true) (hphase : p.heartbeat.phase = .returned) :
    WorkerMove o p .resume (p.exit 1)
  | exited {ok : Bool} (hmain : p.main = .closing (some ok)) :
    WorkerMove o p .resume (p.exit (if ok then p.stop.exitCode else 1))

section Steps
variable {o : LoopOptions} {p q : WorkerProcess} {a : WorkerAction}

theorem workerMove_of_resume (h : p.resume o = some q) : WorkerMove o p .resume q := by
  unfold WorkerProcess.resume at h
  split at h
  · rename_i hmain
    obtain rfl := Option.some.inj h
    exact .worked hmain
  · rename_i hmain
    obtain rfl := Option.some.inj h
    exact .unregistered hmain
  · rename_i hmain
    split at h
    · rename_i hphase
      obtain rfl := Option.some.inj h
      exact @WorkerMove.loopEnded _ _ false hmain hphase
    · rename_i hphase
      obtain rfl := Option.some.inj h
      exact @WorkerMove.loopEnded _ _ true hmain hphase
    · cases h
  · rename_i threw hmain
    obtain ⟨hphase, h⟩ := Option.ite_none_right_eq_some.mp h
    obtain rfl := Option.some.inj h
    cases threw with
    | false => exact .heartbeatEnded hmain hphase
    | true => exact .gaveUp hmain hphase
  · rename_i hmain
    obtain rfl := Option.some.inj h
    exact @WorkerMove.exited _ _ true hmain
  · rename_i hmain
    obtain rfl := Option.some.inj h
    exact @WorkerMove.exited _ _ false hmain
  all_goals cases h

theorem workerMove_of_step (h : p.step o a = some q) : p.isRunning = true ∧ WorkerMove o p a q := by
  obtain ⟨hrunning, h⟩ := Option.ite_none_right_eq_some.mp h
  refine ⟨hrunning, ?_⟩
  cases a with
  | stop reason =>
    obtain rfl := Option.some.inj h
    exact .stop reason
  | registered ok =>
    simp only [WorkerProcess.advance] at h
    split at h
    · rename_i hmain
      obtain rfl := Option.some.inj h
      exact .registered hmain
    · cases h
  | loop action =>
    by_cases ha : action = .abort
    · subst ha
      cases h
    · have hmap : (p.loop.step o action).map (fun loop => { p with loop }) = some q := by
        cases action <;> first
          | exact absurd rfl ha
          | exact h
      obtain ⟨loop, hstep, rfl⟩ := Option.map_eq_some_iff.mp hmap
      exact .loop ha hstep
  | heartbeat action =>
    by_cases ha : action = .abort
    · subst ha
      cases h
    · have hmap : (p.heartbeat.step (heartbeatLoop o.workerId) action).map
          (fun heartbeat => { p with heartbeat }) = some q := by
        cases action <;> first
          | exact absurd rfl ha
          | exact h
      obtain ⟨heartbeat, hstep, rfl⟩ := Option.map_eq_some_iff.mp hmap
      exact .heartbeat ha hstep
  | closed ok =>
    simp only [WorkerProcess.advance] at h
    split at h
    · rename_i hmain
      obtain rfl := Option.some.inj h
      exact .closed hmain
    · cases h
  | resume => exact workerMove_of_resume h

end Steps
end DurableRunner.Processes
