import DurableRunner.Relational.CommitLog
import DurableRunner.Schema.JsNumber
import DurableRunner.Schema.StepEvents

/-! # Reading the event history

`listStepEvents` and `resolveEventCursor`, each one statement over one snapshot
of the `step_events` table.
-/
namespace DurableRunner.Events
open Schema Relational

def maxEventPageSize : ℕ := 500

def defaultEventPageSize : ℕ := 100

/-- Event ids stay where `Number` represents them exactly. -/
def maxEventId : ℕ := 2 ^ 53 - 1

/-- The `step_events` table with the transactions that write it. -/
abbrev EventLog := CommitLog EventRow

/-- The table right after its migration. The first ordinary transaction id is 3. -/
def EventLog.migrated : EventLog := CommitLog.empty 3 1

def EventLog.write (l : EventLog) (a : Write EventRow) : Option EventLog :=
  CommitLog.write EventRow.xid EventRow.id maxEventId l a

@[ext] structure StepEvent where
  id : ℕ
  stepId : StepId
  workerId : Option WorkerId
  eventType : StepEventType
  data : EventData
  createdAt : Timestamp
deriving DecidableEq

def toStepEvent (row : EventRow) : StepEvent where
  id := row.id
  stepId := row.stepId
  workerId := row.workerId
  eventType := row.eventType
  data := row.data
  createdAt := row.createdAt

/-- Where a reader is in the total (xid, id) order. -/
@[ext] structure EventCursor where
  xid : ℕ
  id : ℕ
deriving DecidableEq

def eventCursorStart : EventCursor := ⟨0, 0⟩

def EventCursor.key (c : EventCursor) : ℕ ×ₗ ℕ := toLex (c.xid, c.id)

def position (row : EventRow) : EventCursor := ⟨row.xid, row.id⟩

/-- `and step_id = …`, when a step is asked for. -/
def matchesStep (stepId : Option StepId) (row : EventRow) : Bool :=
  stepId.all fun id => row.stepId = id

structure ListStepEventsOptions where
  after : Option EventCursor := none
  stepId : Option StepId := none
  limit : Option JsNumber := none

@[ext] structure ListStepEventsResult where
  events : List StepEvent
  cursor : EventCursor
deriving DecidableEq

/-- `listStepEvents limit must be a positive integer, got …`. -/
inductive ListStepEventsError where
  | limitNotPositiveInteger (requested : JsNumber)

def pageRows (table : EventLog) (after : EventCursor) (stepId : Option StepId) (limit : ℕ) :
    List EventRow :=
  (table.visible EventRow.xid EventRow.id (matchesStep stepId) after.key).take limit

def cursorAfter (after : EventCursor) (rows : List EventRow) : EventCursor :=
  match rows.getLast? with
  | some lastRow => position lastRow
  | none => after

def listStepEvents (table : EventLog) (options : ListStepEventsOptions) :
    Except ListStepEventsError ListStepEventsResult :=
  let after := options.after.getD eventCursorStart
  let requested := options.limit.getD (.finite defaultEventPageSize)
  match requested.toInt? with
  | none => .error (.limitNotPositiveInteger requested)
  | some n =>
    if n < 1 then .error (.limitNotPositiveInteger requested)
    else
      let limit := min n.toNat maxEventPageSize
      let rows := pageRows table after options.stepId limit
      .ok { events := rows.map toStepEvent, cursor := cursorAfter after rows }

def resolveEventCursor (table : EventLog) (eventId : ℤ) : Option EventCursor :=
  if eventId ≤ 0 then some eventCursorStart
  else (table.committed.find? fun row => row.id = eventId).map position

/-- The tables show a reader the same. -/
structure SameSnapshot (table table' : EventLog) : Prop where
  committed : table.committed = table'.committed
  xmin : table.xmin = table'.xmin

section Snapshot
variable {table table' : EventLog} (h : SameSnapshot table table')
include h

theorem listStepEvents_congr : listStepEvents table = listStepEvents table' := by
  funext options
  simp only [listStepEvents, pageRows, CommitLog.visible, h.committed, h.xmin]

theorem resolveEventCursor_congr : resolveEventCursor table = resolveEventCursor table' := by
  funext eventId
  simp only [resolveEventCursor, h.committed]

end Snapshot

theorem listStepEvents_eq_ok {table : EventLog} {options : ListStepEventsOptions}
    {r : ListStepEventsResult} :
    listStepEvents table options = .ok r ↔
      ∃ n : ℤ, (options.limit.getD (.finite defaultEventPageSize)).toInt? = some n ∧ 1 ≤ n ∧
        let rows := pageRows table (options.after.getD eventCursorStart) options.stepId
          (min n.toNat maxEventPageSize)
        r = ⟨rows.map toStepEvent, cursorAfter (options.after.getD eventCursorStart) rows⟩ := by
  unfold listStepEvents
  dsimp only
  constructor
  · intro h
    split at h
    · cases h
    · rename_i n hn
      split at h
      · cases h
      · rename_i hpos
        exact ⟨n, hn, not_lt.mp hpos, (Except.ok.inj h).symm⟩
  · rintro ⟨n, hn, hpos, rfl⟩
    rw [hn]
    simp [not_lt.mpr hpos]

/-- Whatever the limit, the answer is a page behind the given cursor. -/
theorem page_of_listStepEvents {table : EventLog} {options : ListStepEventsOptions}
    {r : ListStepEventsResult} (h : listStepEvents table options = .ok r) :
    ∃ rows, rows <+: table.visible EventRow.xid EventRow.id (matchesStep options.stepId)
        (options.after.getD eventCursorStart).key ∧
      r = ⟨rows.map toStepEvent, cursorAfter (options.after.getD eventCursorStart) rows⟩ := by
  obtain ⟨n, -, -, rfl⟩ := listStepEvents_eq_ok.mp h
  exact ⟨_, List.take_prefix _ _, rfl⟩

theorem key_cursorAfter (after : EventCursor) (rows : List EventRow) :
    (cursorAfter after rows).key =
      CommitLog.lastKey EventRow.xid EventRow.id after.key rows := by
  unfold cursorAfter CommitLog.lastKey
  cases rows.getLast? <;> rfl

theorem cursorAfter_append (after : EventCursor) (rows page : List EventRow) :
    cursorAfter (cursorAfter after rows) page = cursorAfter after (rows ++ page) := by
  rcases List.eq_nil_or_concat' page with rfl | ⟨front, last, rfl⟩ <;> simp [cursorAfter]

theorem pageRows_isPrefix (table : EventLog) (after : EventCursor) (stepId : Option StepId)
    (limit : ℕ) : pageRows table after stepId limit <+:
      table.visible EventRow.xid EventRow.id (matchesStep stepId) after.key :=
  List.take_prefix _ _

/-- A page below its limit is everything its snapshot shows. -/
theorem pageRows_of_short {table : EventLog} {after : EventCursor} {stepId : Option StepId}
    {limit : ℕ} (h : (pageRows table after stepId limit).length < limit) :
    pageRows table after stepId limit =
      table.visible EventRow.xid EventRow.id (matchesStep stepId) after.key := by
  refine List.take_of_length_le ?_
  rw [pageRows, List.length_take] at h
  omega

end DurableRunner.Events
