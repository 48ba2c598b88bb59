import DurableRunner.Events.Streams
import DurableRunner.Schema.JsonNumber
import DurableRunner.Schema.Utf16
import DurableRunner.Text.EventStream

/-! # What an event stream puts on the wire

The JSON of one event and the text of each frame. The texts that PostgreSQL
prints for timestamps are a parameter.
-/
namespace DurableRunner.Events
open Schema Text

def eventTypeText : StepEventType → String
  | .stepClaimed => "STEP_CLAIMED"
  | .stepSucceeded => "STEP_SUCCEEDED"
  | .stepRetryScheduled => "STEP_RETRY_SCHEDULED"
  | .stepDeadLettered => "STEP_DEAD_LETTERED"
  | .leaseRecovered => "LEASE_RECOVERED"
  | .retryReady => "RETRY_READY"

def reasonText : DeadLetterReason → String
  | .attemptBudgetExhausted => "attempt_budget_exhausted"
  | .nonRetryableFailure => "non_retryable_failure"
  | .leaseExpiredAttemptBudgetExhausted => "lease_expired_attempt_budget_exhausted"

section Json
open JsonText JsString

def textOrNull : Option String → Value ℤ
  | none => .null
  | some text => .str (ofString text)

def optionalMember (key : String) : Option (Value ℤ) → List (JsString × Value ℤ)
  | none => []
  | some value => [(ofString key, value)]

variable (timestampText : Timestamp → String)

/-- The `data` column, its members in the order of `jsonb`. -/
def apiData (d : EventData) : Value ℤ :=
  .obj (optionalMember "error" (d.error.map .str) ++
    optionalMember "reason" (d.reason.map fun reason => .str (ofString (reasonText reason))) ++
    optionalMember "availableAt" (d.availableAt.map fun t => .str (ofString (timestampText t))) ++
    [(ofString "attemptCount", .num d.attemptCount.val),
      (ofString "leaseVersion", .num d.leaseVersion.val)] ++
    optionalMember "previousWorkerId" (d.previousWorkerId.map textOrNull))

def toApiEvent (event : StepEvent) : Value ℤ :=
  .obj [(ofString "id", .num event.id),
    (ofString "stepId", .str (ofString (uuidText event.stepId))),
    (ofString "workerId", textOrNull event.workerId),
    (ofString "eventType", .str (ofString (eventTypeText event.eventType))),
    (ofString "data", apiData timestampText event.data),
    (ofString "createdAt", .str (ofString (timestampText event.createdAt)))]

/-- What `JSON.parse` makes of an event. -/
def parsedEvent (event : StepEvent) : Value JsNumber :=
  (toApiEvent timestampText event).map JsNumber.ofInt

/-- What is given to `reply.raw.write`. -/
def Frame.text : Frame → JsString
  | .connected => ofString ": connected\n\n"
  | .event e =>
    ofString "id: " ++ integerUnits e.id ++ ofString "\nevent: step-event\ndata: " ++
      stringify integerUnits (toApiEvent timestampText e) ++ ofString "\n\n"
  | .keepalive => ofString ": keepalive\n\n"

/-- The frame as the client decodes its UTF-8. -/
def Frame.units (frame : Frame) : JsString := (frame.text timestampText).toWellFormed

end Json

section Pieces
open JsonText EventStream

theorem isText_stringify (v : Value ℤ) : IsText (stringify integerUnits v) := by
  intro u hu
  have hcontrol := not_control_stringify integerNumerals v u hu
  refine ⟨?_, ?_⟩
  all_goals
    rintro rfl
    exact absurd hcontrol (by decide)

theorem isPrintable_integerUnits (z : ℤ) : ∀ u ∈ integerUnits z, isPrintable u = true := by
  intro u hu
  obtain ⟨c, hc, rfl⟩ := List.mem_map.mp hu
  rcases mem_integerText hc with rfl | hdigit
  · decide
  · obtain ⟨hlower, hupper⟩ := toNat_of_isDigit hdigit
    simp only [isPrintable, Bool.and_eq_true, decide_eq_true_eq, UInt16.le_iff_toNat_le,
      UInt16.lt_iff_toNat_lt, JsString.toNat_ofAscii (show c.toNat < 0x80 by omega), UInt16.reduceToNat]
    omega

theorem isText_integerUnits (z : ℤ) : IsText (integerUnits z) ∧ 0 ∉ integerUnits z := by
  refine ⟨fun u hu => ⟨?_, ?_⟩, fun hu => ?_⟩
  · rintro rfl
    exact absurd (isPrintable_integerUnits z _ hu) (by decide)
  · rintro rfl
    exact absurd (isPrintable_integerUnits z _ hu) (by decide)
  · exact absurd (isPrintable_integerUnits z _ hu) (by decide)

end Pieces

open EventStream

def stepEventType : JsString := JsString.ofString "step-event"

theorem isText_stepEventType : IsText stepEventType ∧ stepEventType ≠ [] := by decide

section Frames
variable (timestampText : Timestamp → String)

def eventMessage (e : StepEvent) : Message where
  eventType := stepEventType
  data := JsonText.stringify integerUnits (toApiEvent timestampText e)
  lastEventId := integerUnits e.id

def Frame.block : Frame → Block
  | .connected => .comment (JsString.ofString "connected") (by decide)
  | .event e => .event (eventMessage timestampText e) (isText_integerUnits _) isText_stepEventType
      (isText_stringify _)
  | .keepalive => .comment (JsString.ofString "keepalive") (by decide)

theorem parse_eventMessage (e : StepEvent) :
    JsonText.parse integerNumerals.read (eventMessage timestampText e).data =
      some (parsedEvent timestampText e) :=
  JsonText.parse_stringify integerNumerals (toApiEvent timestampText e)

def Frame.event? : Frame → Option StepEvent
  | .event e => some e
  | _ => none

theorem event?_pageFrames (events : List StepEvent) :
    (pageFrames events).filterMap Frame.event? = events := by
  unfold pageFrames
  split_ifs with hnone
  · simp [Frame.event?, hnone]
  · rw [List.filterMap_map]
    exact List.filterMap_some

theorem messages_block (frames : List Frame) :
    Block.messages (frames.map (Frame.block timestampText)) =
      (frames.filterMap Frame.event?).map (eventMessage timestampText) := by
  induction frames with
  | nil => rfl
  | cons frame frames ih =>
    rw [List.map_cons, Block.messages_cons, ih]
    cases frame <;> rfl

theorem Frame.isWellFormed_text (frame : Frame) :
    (frame.text timestampText).isWellFormed = true := by
  cases frame with
  | connected => exact JsString.isWellFormed_ofString _
  | event e =>
    refine JsString.isWellFormed_append (JsString.isWellFormed_append (JsString.isWellFormed_append
      (JsString.isWellFormed_append (JsString.isWellFormed_ofString _) ?_)
      (JsString.isWellFormed_ofString _)) ?_) (JsString.isWellFormed_ofString _)
    · exact JsString.isWellFormed_of_printable (isPrintable_integerUnits _)
    · exact JsString.isWellFormed_stringify integerNumerals _
  | keepalive => exact JsString.isWellFormed_ofString _

/-- UTF-8 carries a frame as it is, and it is one block. -/
theorem Frame.units_eq (frame : Frame) :
    frame.units timestampText = (frame.block timestampText).units := by
  rw [Frame.units, JsString.toWellFormed_of_isWellFormed (frame.isWellFormed_text timestampText)]
  cases frame with
  | connected => rfl
  | event e =>
    have hid : JsString.ofString "id: " = Fields.idField ++ [EventStream.colon, EventStream.space] := by
      decide
    have hevent : JsString.ofString "\nevent: step-event\ndata: " = lineFeed ::
        (Fields.eventField ++ EventStream.colon :: EventStream.space :: stepEventType ++
          lineFeed :: (Fields.dataField ++ [EventStream.colon, EventStream.space])) := by decide
    have hend : JsString.ofString "\n\n" = [lineFeed, lineFeed] := by decide
    rw [Frame.text, hid, hevent, hend]
    simp [Frame.block, Block.event, Block.units, blockUnits, Line.units, Line.field, eventMessage]
  | keepalive => rfl

theorem flatMap_units (frames : List Frame) :
    frames.flatMap (Frame.units timestampText) =
      (frames.map (Frame.block timestampText)).flatMap Block.units := by
  rw [List.flatMap_map]
  exact congrArg (frames.flatMap ·) (funext (Frame.units_eq timestampText))

end Frames
end DurableRunner.Events
