import DurableRunner.Events.Listing
import DurableRunner.Schema.Uuid

/-! # The two event endpoints

Query and header parsing, the resolution of a wire cursor, and what each
request answers.
-/
namespace DurableRunner.Events
open Schema

def streamPageSize : ℕ := 200

/-- A query parameter; a repeated one arrives as an array. -/
inductive QueryValue where
  | one (text : String)
  | many (texts : List String)
deriving DecidableEq

/-- `String(value)`. -/
def QueryValue.text : QueryValue → String
  | .one text => text
  | .many texts => ",".intercalate texts

/-- `value !== undefined && value !== ""`. -/
def given (value : Option QueryValue) : Option QueryValue := value.filter (· ≠ .one "")

inductive HeaderValue where
  | one (text : String)
  | many (texts : List String)
deriving DecidableEq

def HeaderValue.first? : HeaderValue → Option String
  | .one text => some text
  | .many texts => texts.head?

structure EventsRequest where
  afterId : Option QueryValue := none
  stepId : Option QueryValue := none
  limit : Option QueryValue := none
  lastEventId : Option HeaderValue := none

/-- The body of a 400 answer. -/
inductive BadRequest where
  | afterIdNotANonNegativeInteger
  | stepIdNotAUuid
  | limitOutOfRange (maxLimit : ℕ)
  | lastEventIdNotANonNegativeInteger
  | unknownAfterId (afterId : ℕ)
deriving DecidableEq

def BadRequest.message : BadRequest → String
  | .afterIdNotANonNegativeInteger => "afterId must be a non-negative integer"
  | .stepIdNotAUuid => "stepId must be a uuid"
  | .limitOutOfRange maxLimit => "limit must be an integer between 1 and " ++ toString maxLimit
  | .lastEventIdNotANonNegativeInteger => "Last-Event-ID must be a non-negative integer"
  | .unknownAfterId afterId => "afterId " ++ toString afterId ++ " does not match a known event"

@[ext] structure ParsedQuery where
  afterId : Option ℕ
  stepId : Option StepId
  limit : Option ℕ
deriving DecidableEq

def safeInteger? (text : String) (lower : ℕ) (upper : Option ℕ) : Option ℕ :=
  let value := JsNumber.ofText text
  if value.isSafeInteger then
    value.toInt?.bind fun z =>
      if (lower : ℤ) ≤ z ∧ upper.all (fun u => z ≤ (u : ℤ)) then some z.toNat else none
  else none

/-- The check admits the integers from 0 to 2^53 - 1, however they are written. -/
theorem safeInteger?_eq_some {text : String} {n : ℕ} : safeInteger? text 0 none = some n ↔
    JsNumber.ofText text = .finite n ∧ n ≤ maxEventId := by
  unfold safeInteger?
  cases JsNumber.ofText text with
  | nan | infinity _ => simp [JsNumber.isSafeInteger]
  | finite q =>
    have hmax : ((maxEventId : ℕ) : ℚ) = 2 ^ 53 - 1 := by norm_num [maxEventId]
    simp only [JsNumber.isSafeInteger, JsNumber.toInt?, JsNumber.finite.injEq, ← hmax]
    constructor
    · intro h
      split at h
      · rename_i hsafe
        simp only [Bool.and_eq_true, decide_eq_true_eq] at hsafe
        obtain ⟨hint, hle⟩ := hsafe
        rw [if_pos hint, Option.bind_some] at h
        split at h
        · rename_i hnonneg
          obtain rfl := Option.some.inj h
          have hq : q = (q.num.toNat : ℚ) := by
            have hden : (q.num : ℚ) = q := (Rat.den_eq_one_iff q).mp (by simpa [Rat.isInt] using hint)
            rw [← Int.cast_natCast, Int.toNat_of_nonneg (by simpa using hnonneg), hden]
          refine ⟨hq, ?_⟩
          have hle : (q.num.toNat : ℚ) ≤ maxEventId := hq ▸ (le_abs_self q).trans hle
          exact_mod_cast hle
        · cases h
      · cases h
    · rintro ⟨rfl, hle⟩
      have hle : (n : ℚ) ≤ maxEventId := by exact_mod_cast hle
      simp [Rat.isInt, hle]

def parseAfterId (value : Option QueryValue) : Except BadRequest (Option ℕ) :=
  match given value with
  | none => .ok none
  | some v =>
    match safeInteger? v.text 0 none with
    | none => .error .afterIdNotANonNegativeInteger
    | some n => .ok (some n)

def parseStepId (value : Option QueryValue) : Except BadRequest (Option StepId) :=
  match given value with
  | none => .ok none
  | some v =>
    match uuidValue v.text with
    | none => .error .stepIdNotAUuid
    | some id => .ok (some id)

def parseLimit (value : Option QueryValue) (maxLimit : ℕ) : Except BadRequest (Option ℕ) :=
  match given value with
  | none => .ok none
  | some v =>
    match safeInteger? v.text 1 (some maxLimit) with
    | none => .error (.limitOutOfRange maxLimit)
    | some n => .ok (some n)

def parseQuery (request : EventsRequest) (maxLimit : ℕ) : Except BadRequest ParsedQuery := do
  let afterId ← parseAfterId request.afterId
  let stepId ← parseStepId request.stepId
  let limit ← parseLimit request.limit maxLimit
  return { afterId, stepId, limit }

theorem parseQuery_eq_ok {request : EventsRequest} {maxLimit : ℕ} {parsed : ParsedQuery} :
    parseQuery request maxLimit = .ok parsed ↔ parseAfterId request.afterId = .ok parsed.afterId ∧
      parseStepId request.stepId = .ok parsed.stepId ∧
      parseLimit request.limit maxLimit = .ok parsed.limit := by
  simp only [parseQuery, except_bind_eq_ok, pure, Except.pure, Except.ok.injEq]
  constructor
  · rintro ⟨afterId, hafter, stepId, hstep, limit, hlimit, rfl⟩
    exact ⟨hafter, hstep, hlimit⟩
  · rintro ⟨hafter, hstep, hlimit⟩
    exact ⟨_, hafter, _, hstep, _, hlimit, rfl⟩

/-- The header wins over the query parameter. -/
def resumeId (header : Option HeaderValue) (afterId : Option ℕ) : Except BadRequest (Option ℕ) :=
  match (header.bind HeaderValue.first?).filter (· ≠ "") with
  | none => .ok afterId
  | some text =>
    match safeInteger? text 0 none with
    | none => .error .lastEventIdNotANonNegativeInteger
    | some n => .ok (some n)

def cursorFor (table : EventLog) (afterId : Option ℕ) : Except BadRequest EventCursor :=
  match afterId with
  | none => .ok eventCursorStart
  | some n =>
    if n = 0 then .ok eventCursorStart
    else
      match resolveEventCursor table n with
      | none => .error (.unknownAfterId n)
      | some cursor => .ok cursor

theorem cursorFor_eq_ok {table : EventLog} {cursor : EventCursor} {n : ℕ} :
    cursorFor table (some n) = .ok cursor ↔ (n = 0 ∧ cursor = eventCursorStart) ∨
      (0 < n ∧ ∃ e, table.committed.find? (fun row => (row.id : ℤ) = n) = some e ∧
        cursor = position e) := by
  rcases Nat.eq_zero_or_pos n with rfl | hpos
  · simp [cursorFor, eq_comm]
  · have hne : n ≠ 0 := hpos.ne'
    have hgt : ¬(n : ℤ) ≤ 0 := by omega
    simp only [cursorFor, hne, if_false, resolveEventCursor, hgt, false_and, false_or, hpos, true_and]
    cases table.committed.find? (fun row => (row.id : ℤ) = n) <;> simp [eq_comm]

def logWith (id : ℕ) : EventLog where
  nextXid := 4
  nextId := id + 1
  running := []
  pending := []
  committed := [⟨⟨0, none, .retryReady, { leaseVersion := ⟨1, Int4.inRange_one⟩, attemptCount := ⟨1, Int4.inRange_one⟩ }⟩,
    id, 0, 3⟩]

theorem exists_table_of_position (n : ℕ) : ∃ table cursor, cursorFor table (some n) = .ok cursor := by
  rcases Nat.eq_zero_or_pos n with rfl | hpos
  · exact ⟨.migrated, eventCursorStart, rfl⟩
  · have hfound : (logWith n).committed.find? (fun row => (row.id : ℤ) = n) =
        (logWith n).committed.head? := by simp [logWith]
    exact ⟨logWith n, ⟨3, n⟩, cursorFor_eq_ok.mpr (.inr ⟨hpos, _, hfound, rfl⟩)⟩

theorem exists_cursor (afterId : Option ℕ) : ∃ table cursor, cursorFor table afterId = .ok cursor := by
  cases afterId with
  | none => exact ⟨.migrated, _, rfl⟩
  | some n => exact exists_table_of_position n

/-- What an open stream remembers between two polls. -/
@[ext] structure StreamState where
  stepId : Option StepId
  cursor : EventCursor
deriving DecidableEq

/-- A page request between its two statements. -/
@[ext] structure PageState where
  stepId : Option StepId
  cursor : EventCursor
  afterId : Option ℕ
  limit : ℕ
deriving DecidableEq

/-- `GET /api/events/stream`, up to the first poll. -/
def openStream (table : EventLog) (request : EventsRequest) : Except BadRequest StreamState := do
  let parsed ← parseQuery request streamPageSize
  let afterId ← resumeId request.lastEventId parsed.afterId
  let cursor ← cursorFor table afterId
  return { stepId := parsed.stepId, cursor }

theorem openStream_eq_ok {table : EventLog} {request : EventsRequest} {s : StreamState} :
    openStream table request = .ok s ↔ ∃ parsed afterId,
      parseQuery request streamPageSize = .ok parsed ∧
      resumeId request.lastEventId parsed.afterId = .ok afterId ∧
      cursorFor table afterId = .ok s.cursor ∧ s.stepId = parsed.stepId := by
  simp only [openStream, except_bind_eq_ok, pure, Except.pure, Except.ok.injEq]
  constructor
  · rintro ⟨parsed, hparsed, afterId, hresume, cursor, hcursor, rfl⟩
    exact ⟨parsed, afterId, hparsed, hresume, hcursor, rfl⟩
  · rintro ⟨parsed, afterId, hparsed, hresume, hcursor, hstep⟩
    exact ⟨parsed, hparsed, afterId, hresume, _, hcursor, StreamState.ext hstep.symm rfl⟩

/-- One poll of an open stream: the frames it writes, and the state after them. -/
def pollStream (table : EventLog) (s : StreamState) :
    Except ListStepEventsError (List StepEvent × StreamState) :=
  match listStepEvents table
      { after := some s.cursor, stepId := s.stepId, limit := some (.finite streamPageSize) } with
  | .error e => .error e
  | .ok result => .ok (result.events, { s with cursor := result.cursor })

theorem exists_pollStream (table : EventLog) (s : StreamState) :
    ∃ events next, pollStream table s = .ok (events, next) := by
  have hlimit : (JsNumber.finite streamPageSize).toInt? = some 200 := by
    norm_num [JsNumber.toInt?, Rat.isInt, streamPageSize]
  have hlist : listStepEvents table
      { after := some s.cursor, stepId := s.stepId, limit := some (.finite streamPageSize) } = .ok _ :=
    listStepEvents_eq_ok.mpr ⟨200, hlimit, by norm_num, rfl⟩
  simp only [pollStream, hlist]
  exact ⟨_, _, rfl⟩

/-- `GET /api/events`, up to the listing. -/
def openPage (table : EventLog) (request : EventsRequest) : Except BadRequest PageState := do
  let parsed ← parseQuery request maxEventPageSize
  let cursor ← cursorFor table parsed.afterId
  return {
    stepId := parsed.stepId
    cursor
    afterId := parsed.afterId
    limit := parsed.limit.getD defaultEventPageSize }

theorem openPage_eq_ok {table : EventLog} {request : EventsRequest} {p : PageState} :
    openPage table request = .ok p ↔ ∃ parsed, parseQuery request maxEventPageSize = .ok parsed ∧
      cursorFor table parsed.afterId = .ok p.cursor ∧ p.stepId = parsed.stepId ∧
      p.afterId = parsed.afterId ∧ p.limit = parsed.limit.getD defaultEventPageSize := by
  simp only [openPage, except_bind_eq_ok, pure, Except.pure, Except.ok.injEq]
  constructor
  · rintro ⟨parsed, hparsed, cursor, hcursor, rfl⟩
    exact ⟨parsed, hparsed, hcursor, rfl, rfl, rfl⟩
  · rintro ⟨parsed, hparsed, hcursor, hstep, hafter, hlimit⟩
    exact ⟨parsed, hparsed, _, hcursor, PageState.ext hstep.symm rfl hafter.symm hlimit.symm⟩

@[ext] structure PageBody where
  events : List StepEvent
  nextAfterId : Option ℕ
deriving DecidableEq

def answerPage (table : EventLog) (p : PageState) : Except ListStepEventsError PageBody :=
  match listStepEvents table
      { after := some p.cursor, stepId := p.stepId, limit := some (.finite p.limit) } with
  | .error e => .error e
  | .ok result =>
    .ok {
      events := result.events
      nextAfterId :=
        match result.events.getLast? with
        | some last => some last.id
        | none => p.afterId }

end DurableRunner.Events
