import DurableRunner.Events.Api
import DurableRunner.TransitionSystem.Runs
import Mathlib.Data.Finset.Card

/-! # The event streams of one API process

Every `GET /api/events/stream` handler with its client, and the shutdown, one
move at a time. Anything may happen while a handler awaits, and the database
answers with the table of any moment, or not at all.
-/
namespace DurableRunner.Events
open Schema Relational TransitionSystem

inductive Frame where
  | connected
  | event (event : StepEvent)
  | keepalive
deriving DecidableEq

/-- The 400 answers, the errors left to Fastify, and `reply.raw.end()`. -/
inductive StreamEnd where
  | badRequest (error : BadRequest)
  | thrown
  | ended
deriving DecidableEq

inductive StreamPhase where
  /-- `cursorFor`. -/
  | resolving (stepId : Option StepId) (afterId : Option ℕ)
  /-- `listStepEvents`. -/
  | reading (stream : StreamState)
  /-- `abortableSleep`. -/
  | sleeping (stream : StreamState)
  | finished (outcome : StreamEnd)
deriving DecidableEq

structure AbortController where
  aborted : Bool
deriving DecidableEq

def AbortController.abort (_ : AbortController) : AbortController := ⟨true⟩

structure StreamHandler where
  phase : StreamPhase
  /-- Made, tracked and given to the `close` listener without an await in between. -/
  controller : Option AbortController
  connected : Bool
  written : List Frame
deriving DecidableEq

namespace StreamHandler

def isResolving (h : StreamHandler) : Bool :=
  match h.phase with
  | .resolving _ _ => true
  | _ => false

def isPolling (h : StreamHandler) : Bool :=
  match h.phase with
  | .reading _ | .sleeping _ => true
  | _ => false

def isFinished (h : StreamHandler) : Bool :=
  match h.phase with
  | .finished _ => true
  | _ => false

/-- `signal.aborted`. -/
def isAborted (h : StreamHandler) : Bool := h.controller.any AbortController.aborted

def abort (h : StreamHandler) : StreamHandler :=
  { h with controller := h.controller.map AbortController.abort }

def finish (h : StreamHandler) (outcome : StreamEnd) : StreamHandler :=
  { h with phase := .finished outcome }

end StreamHandler

/-- What the handler makes of its request before it first awaits. -/
def parseStream (request : EventsRequest) : Except BadRequest (Option StepId × Option ℕ) := do
  let parsed ← parseQuery request streamPageSize
  let afterId ← resumeId request.lastEventId parsed.afterId
  return (parsed.stepId, afterId)

theorem openStream_eq (table : EventLog) (request : EventsRequest) :
    openStream table request = (parseStream request).bind fun (stepId, afterId) =>
      (cursorFor table afterId).map fun cursor => { stepId, cursor } := by
  simp only [openStream, parseStream]
  cases parseQuery request streamPageSize with
  | error e => rfl
  | ok parsed =>
    simp only [bind, Except.bind]
    cases resumeId request.lastEventId parsed.afterId with
    | error e => rfl
    | ok afterId => cases hcursor : cursorFor table afterId <;> simp [hcursor, pure, Except.pure, Except.map]

def beginStream (request : EventsRequest) : StreamHandler where
  phase :=
    match parseStream request with
    | .error e => .finished (.badRequest e)
    | .ok (stepId, afterId) => .resolving stepId afterId
  controller := none
  connected := true
  written := []

def needsLookup (afterId : Option ℕ) : Bool := afterId.any (· ≠ 0)

def pageFrames (events : List StepEvent) : List Frame :=
  if events = [] then [.keepalive] else events.map .event

/-- What a stream handler may wait for, and its client's disconnect. -/
inductive StreamEvent where
  /-- The answer of the database; `none` when it failed. -/
  | cursorAnswered (answer : Option EventLog)
  | pageAnswered (answer : Option EventLog)
  | woken
  /-- The `close` event of the request. -/
  | disconnect

namespace StreamHandler

/-- After `cursorFor`. -/
def cursorAnswered (h : StreamHandler) (stepId : Option StepId) (afterId : Option ℕ) :
    Option EventLog → Option StreamHandler
  | none => if needsLookup afterId then some (h.finish .thrown) else none
  | some table =>
    match cursorFor table afterId with
    | .error e => some (h.finish (.badRequest e))
    | .ok cursor => some { h with
        phase := .reading { stepId, cursor }
        controller := some ⟨false⟩
        written := h.written ++ [.connected] }

/-- After `listStepEvents`. A failed read ends the stream. -/
def pageAnswered (h : StreamHandler) (stream : StreamState) : Option EventLog → StreamHandler
  | none => h.finish .ended
  | some table =>
    match pollStream table stream with
    | .error _ => h.finish .ended
    | .ok (events, next) =>
      if h.isAborted then h.finish .ended
      else { h with phase := .sleeping next, written := h.written ++ pageFrames events }

/-- After `abortableSleep`, at the head of the loop. -/
def woken (h : StreamHandler) (stream : StreamState) : StreamHandler :=
  if h.isAborted then h.finish .ended else { h with phase := .reading stream }

/-- The `close` event is emitted once, and reaches the controller if its listener is there. -/
def disconnected (h : StreamHandler) : StreamHandler := { h.abort with connected := false }

def react (h : StreamHandler) : StreamEvent → Option StreamHandler
  | .cursorAnswered answer =>
    match h.phase with
    | .resolving stepId afterId => h.cursorAnswered stepId afterId answer
    | _ => none
  | .pageAnswered answer =>
    match h.phase with
    | .reading stream => some (h.pageAnswered stream answer)
    | _ => none
  | .woken =>
    match h.phase with
    | .sleeping stream => some (h.woken stream)
    | _ => none
  | .disconnect => if h.connected then some h.disconnected else none

end StreamHandler

inductive ShutdownPhase where
  | running
  /-- `app.close` waits for the handlers. -/
  | closing
  | closed
deriving DecidableEq

structure Api where
  handlers : List StreamHandler
  /-- The tracked controllers, by the handler each belongs to. -/
  streamControllers : Finset ℕ
  shutdown : ShutdownPhase

inductive ApiAction where
  /-- A request reaches its handler, also one that was accepted before the shutdown. -/
  | arrive (request : EventsRequest)
  | handler (i : ℕ) (event : StreamEvent)
  /-- A signal, or a rejected credential. -/
  | startShutdown
  /-- `app.close` resolves. -/
  | appClosed

def ApiAction.moves (i : ℕ) : ApiAction → Bool
  | .handler _ .disconnect => false
  | .handler j _ => i = j
  | _ => false

namespace Api

def start : Api := ⟨[], ∅, .running⟩

def openEventStreamCount (s : Api) : ℕ := s.streamControllers.card

def closeOpenEventStreams (s : Api) : Api :=
  { s with handlers := s.handlers.mapIdx fun i h => if i ∈ s.streamControllers then h.abort else h }

/-- Tracked on entering the loop, and no longer in its `finally`. -/
def track (controllers : Finset ℕ) (i : ℕ) (before after : StreamHandler) : Finset ℕ :=
  if !before.isPolling && after.isPolling then insert i controllers
  else if before.isPolling && !after.isPolling then controllers.erase i
  else controllers

def setHandler (s : Api) (i : ℕ) (before after : StreamHandler) : Api :=
  { s with
    handlers := s.handlers.set i after
    streamControllers := track s.streamControllers i before after }

def step (s : Api) : ApiAction → Option Api
  | .arrive request =>
    if s.shutdown = .closed then none
    else some { s with handlers := s.handlers ++ [beginStream request] }
  | .handler i event =>
    (s.handlers[i]?).bind fun h => (h.react event).map fun h' => s.setHandler i h h'
  | .startShutdown =>
    -- a second signal does not start a competing shutdown
    if s.shutdown = .running then some { s.closeOpenEventStreams with shutdown := .closing }
    else some s
  | .appClosed =>
    if s.shutdown = .closing ∧ s.handlers.all StreamHandler.isFinished then
      some { s with shutdown := .closed }
    else none

end Api
end DurableRunner.Events
