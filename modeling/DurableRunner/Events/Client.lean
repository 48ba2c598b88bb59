import DurableRunner.Events.Api
import DurableRunner.TransitionSystem.Runs

/-! # One client and its connections

The client opens one request at a time. A stream may be cut with frames still
on their way, a page may be lost as a whole, and writers act at any moment.
-/
namespace DurableRunner.Events
open Schema Relational TransitionSystem

inductive Endpoint where
  | stream
  | page
deriving DecidableEq

def Endpoint.maxLimit : Endpoint → ℕ
  | .stream => streamPageSize
  | .page => maxEventPageSize

inductive Connection where
  | idle
  /-- An open stream, with the frames written and not yet received. -/
  | streaming (state : StreamState) (sent : List StepEvent)
  | paging (state : PageState)
  | answered (body : PageBody)

structure ClientSession where
  log : EventLog
  connection : Connection
  received : List StepEvent
  /-- The requests answered 400. -/
  rejections : List BadRequest

inductive ClientAction where
  | write (a : Write EventRow)
  /-- The client drops what it has open and sends a request. -/
  | request (endpoint : Endpoint) (request : EventsRequest)
  /-- The open stream polls the table and writes the frames. -/
  | poll
  /-- The page is listed and sent. -/
  | answer
  /-- The client gets the next frame, or the whole page. -/
  | receive
  /-- The connection breaks. -/
  | cut

def accept (table : EventLog) (request : EventsRequest) : Endpoint → Except BadRequest Connection
  | .stream => (openStream table request).map fun state => .streaming state []
  | .page => (openPage table request).map .paging

namespace ClientSession

def start : ClientSession := ⟨.migrated, .idle, [], []⟩

def step (s : ClientSession) : ClientAction → Option ClientSession
  | .write a => (s.log.write a).map fun log => { s with log }
  | .request endpoint request =>
    match accept s.log request endpoint with
    | .error e => some { s with connection := .idle, rejections := s.rejections ++ [e] }
    | .ok connection => some { s with connection }
  | .poll =>
    match s.connection with
    | .streaming state sent =>
      match pollStream s.log state with
      | .error _ => some { s with connection := .idle }
      | .ok (frames, state) => some { s with connection := .streaming state (sent ++ frames) }
    | _ => none
  | .answer =>
    match s.connection with
    | .paging state =>
      match answerPage s.log state with
      | .error _ => some { s with connection := .idle }
      | .ok body => some { s with connection := .answered body }
    | _ => none
  | .receive =>
    match s.connection with
    | .streaming state (frame :: sent) =>
      some { s with connection := .streaming state sent, received := s.received ++ [frame] }
    | .answered body => some { s with connection := .idle, received := s.received ++ body.events }
    | _ => none
  | .cut => some { s with connection := .idle }

end ClientSession

def lastId (s : ClientSession) : Option String := s.received.getLast?.map fun e => toString e.id

def EventsRequest.fromStart (request : EventsRequest) : Bool :=
  given request.afterId = none &&
    (request.lastEventId.bind HeaderValue.first?).filter (· ≠ "") = none

def EventsRequest.keepsFilter (request : EventsRequest) (stepId : Option QueryValue)
    (endpoint : Endpoint) : Bool :=
  request.stepId = stepId && (parseLimit request.limit endpoint.maxLimit).isOk

/-- The client sends its last id, in the header or as `afterId`. -/
def sendsLastId (stepId : Option QueryValue) (s : ClientSession) : ClientAction → Bool
  | .request endpoint request =>
    request.keepsFilter stepId endpoint &&
      match lastId s with
      | none => request.fromStart
      | some id =>
        request.lastEventId = some (.one id) ||
          (request.lastEventId = none && request.afterId = some (.one id))
  | _ => true

/-- The client sends its last id where the endpoint reads it: in the header of a
stream, whatever acceptable `afterId` is there as well, or as `afterId`. -/
def resumes (stepId : Option QueryValue) (s : ClientSession) : ClientAction → Bool
  | .request endpoint request =>
    request.keepsFilter stepId endpoint &&
      match lastId s with
      | none => request.fromStart
      | some id =>
        match endpoint with
        | .stream =>
          request.lastEventId = some (.one id) && (parseAfterId request.afterId).isOk ||
            request.lastEventId = none && request.afterId = some (.one id)
        | .page => request.afterId = some (.one id)
  | _ => true

abbrev resumingStep (stepId : Option QueryValue) : ClientSession → ClientAction → Option ClientSession :=
  guarded ClientSession.step (resumes stepId)

end DurableRunner.Events
