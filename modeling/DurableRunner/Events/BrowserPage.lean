import DurableRunner.Events.Client
import DurableRunner.Events.Wire

/-! # The page that shows the stream

One browser page with its `EventSource`. What the server writes arrives in
chunks of any length, and the connection may break between any two code units.
The browser reconnects with the last id it dispatched.
-/
namespace DurableRunner.Events
open Schema Relational TransitionSystem Text
open EventStream (Reader Message)

def maxPageEvents : ℕ := 50

abbrev PageEvent := JsonText.Value JsNumber

structure BrowserPage where
  log : EventLog
  /-- The open stream, as the server remembers it. -/
  stream : Option StreamState
  /-- What the server has written and the browser has not received. -/
  inFlight : JsString
  reader : Reader
  /-- The `events` of the component, newest first. -/
  events : List PageEvent
  /-- The 400 answers. -/
  rejections : List BadRequest
  /-- Any answer but 200 closes the `EventSource` for good. -/
  closed : Bool

inductive PageAction where
  | write (a : Write EventRow)
  /-- The `EventSource` connects, for the first time or again. -/
  | connect
  /-- The lookup of the cursor fails, and the answer is 500. -/
  | connectFailed
  /-- The stream polls the table and writes the frames. -/
  | poll
  /-- The next `n` code units arrive. -/
  | deliver (n : ℕ)
  | cut

def streamRequest (lastEventId : JsString) : EventsRequest where
  lastEventId :=
    if lastEventId = [] then none else some (.one (String.ofList lastEventId.characters))

/-- The listener of `step-event`. -/
def onStepEvent (events : List PageEvent) (m : Message) : List PageEvent :=
  if m.eventType = stepEventType then
    match JsonText.parse integerNumerals.read m.data with
    | none => events
    | some parsed => (parsed :: events).take maxPageEvents
  else events

namespace BrowserPage

def start : BrowserPage := ⟨.migrated, none, [], .resting [] none, [], [], false⟩

def step (timestampText : Timestamp → String) (s : BrowserPage) : PageAction → Option BrowserPage
  | .write a => (s.log.write a).map fun log => { s with log }
  | .connect =>
    if s.stream.isSome ∨ s.closed = true then none
    else
      match openStream s.log (streamRequest s.reader.lastEventId) with
      | .error e => some { s with rejections := s.rejections ++ [e], closed := true }
      | .ok stream => some { s with
          stream := some stream
          inFlight := Frame.connected.units timestampText
          reader := .resting s.reader.lastEventId s.reader.fields.reconnectionTime }
  | .connectFailed =>
    if s.stream.isSome ∨ s.closed = true then none else some { s with closed := true }
  | .poll =>
    s.stream.bind fun stream =>
      match pollStream s.log stream with
      | .error _ => some { s with stream := none, inFlight := [] }
      | .ok (events, stream) => some { s with
          stream := some stream
          inFlight := s.inFlight ++ (pageFrames events).flatMap (Frame.units timestampText) }
  | .deliver n =>
    let received := s.reader.feed (s.inFlight.take n)
    some { s with
      inFlight := s.inFlight.drop n
      reader := received.1
      events := received.2.foldl onStepEvent s.events }
  | .cut => some { s with stream := none, inFlight := [] }

end BrowserPage
end DurableRunner.Events
