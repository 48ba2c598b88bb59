import DurableRunner.Schema.StepEvents
import DurableRunner.Schema.JsNumber
import Mathlib.Logic.Function.Basic

/-! # The idempotent effect store

`applyIdempotentEffect` as its two autocommit statements, with any number of
calls in flight. An insert waits for an uncommitted insert of the same key; the
read that follows an insert without a row takes a fresh snapshot.
-/
namespace DurableRunner.Effects
open Schema

def maxIdempotencyKeyLength : ℕ := 200

def demoEffectType : String := "demo_receipt"

@[ext] structure EffectRequest where
  idempotencyKey : String
  effectType : String
  request : Json
deriving DecidableEq

/-- A row of `idempotent_effects`; its two `jsonb` columns are in normal form. -/
@[ext] structure EffectRow where
  idempotencyKey : String
  effectType : String
  request : Json
  result : Json
  createdAt : Timestamp
  request_stored : request.jsonb = request
  result_stored : result.jsonb = result
deriving DecidableEq

@[ext] structure EffectOutcome where
  applied : Bool
  result : Json
  createdAt : Timestamp
deriving DecidableEq

inductive EffectError where
  | emptyKey
  | keyTooLong (length : ℕ)
  | emptyEffectType
  | effectState (key : String)
  | idempotencyConflict (key : String)
  /-- A statement failed or its connection was lost. -/
  | database
deriving DecidableEq

/-- `error.message`; none for a failed statement, whose text is the driver's. -/
def EffectError.message? : EffectError → Option JsString
  | .emptyKey => some (.ofString "applyIdempotentEffect requires a non-empty idempotencyKey")
  | .keyTooLong length => some (.ofString
      ("applyIdempotentEffect idempotencyKey must be at most " ++ toString maxIdempotencyKeyLength ++
        " characters, got " ++ toString length))
  | .emptyEffectType => some (.ofString "applyIdempotentEffect requires a non-empty effectType")
  | .effectState key => some (.ofString
      ("effect " ++ key ++ " was neither inserted nor found; nothing in this system deletes effects"))
  | .idempotencyConflict key => some (.ofString ("idempotency key " ++ key ++
      " was already used for a different effect type or request"))
  | .database => none

/-- `text.length`, in UTF-16 code units. -/
def utf16Length (text : String) : ℕ :=
  (text.toList.map fun c => if c.toNat < 0x10000 then 1 else 2).sum

/-- `text.trim().length === 0`. -/
def isBlankText (text : String) : Bool := text.toList.all isTrimmed

/-- The argument checks that throw before any statement is sent. -/
def checkRequest (r : EffectRequest) : Option EffectError :=
  if isBlankText r.idempotencyKey then some .emptyKey
  else if maxIdempotencyKeyLength < utf16Length r.idempotencyKey then
    some (.keyTooLong (utf16Length r.idempotencyKey))
  else if isBlankText r.effectType then some .emptyEffectType
  else none

/-- The result minted by a call; durable only if its insert wins. -/
def candidate (r : EffectRequest) (effectId : String) : Json :=
  .obj (("effectId", .str effectId) ::
    ((r.request.get? "value").map fun v => ("value", v)).toList)

def EffectRequest.storable (r : EffectRequest) : Bool :=
  !r.idempotencyKey.toList.contains '\x00' && !r.effectType.toList.contains '\x00' &&
    r.request.storable

def EffectRequest.row (r : EffectRequest) (effectId : String) (now : Timestamp) : EffectRow where
  idempotencyKey := r.idempotencyKey
  effectType := r.effectType
  request := r.request.jsonb
  result := (candidate r effectId).jsonb
  createdAt := now
  request_stored := Json.jsonb_jsonb _
  result_stored := Json.jsonb_jsonb _

/-- `effect_type = … and request = …::jsonb`. -/
def EffectRow.matchesRequest (row : EffectRow) (r : EffectRequest) : Bool :=
  row.effectType = r.effectType && row.request = r.request.jsonb

inductive CallState where
  /-- The INSERT is sent. -/
  | sent
  /-- The row is inserted and not yet committed. -/
  | inserted (row : EffectRow)
  /-- The INSERT committed and returned its row. -/
  | applied (row : EffectRow)
  /-- The INSERT returned no row. -/
  | conflicted
  | returned (outcome : EffectOutcome)
  | failed (error : EffectError)
deriving DecidableEq

structure EffectCall where
  request : EffectRequest
  /-- The UUID this call minted. -/
  effectId : String
  state : CallState
deriving DecidableEq

abbrev CallId := ℕ

structure EffectStore where
  /-- Committed rows, in commit order. -/
  rows : List EffectRow
  calls : CallId → Option EffectCall
  nextCall : CallId

inductive StoreAction where
  /-- `applyIdempotentEffect(request)`, with the UUID it mints. -/
  | apply (request : EffectRequest) (effectId : String)
  /-- The INSERT runs, at the given clock reading. -/
  | insert (call : CallId) (now : Timestamp)
  | commit (call : CallId)
  /-- The committed insert answers its caller. -/
  | respond (call : CallId)
  /-- The read after an INSERT without a row. -/
  | read (call : CallId)
  /-- The statement fails or the connection is lost. -/
  | lose (call : CallId)

namespace EffectStore

def setState (s : EffectStore) (c : CallId) (call : EffectCall) (state : CallState) : EffectStore :=
  { s with calls := Function.update s.calls c (some { call with state }) }

def addCall (s : EffectStore) (call : EffectCall) : EffectStore :=
  { s with
    calls := Function.update s.calls s.nextCall (some call)
    nextCall := s.nextCall + 1 }

/-- Another call has inserted the key and not committed. -/
def heldByOther (s : EffectStore) (c : CallId) (key : String) : Bool :=
  (List.range s.nextCall).any fun other =>
    other ≠ c &&
      match s.calls other with
      | some { state := .inserted row, .. } => row.idempotencyKey = key
      | _ => false

def holdsKey (s : EffectStore) (key : String) : Bool :=
  s.rows.any fun row => row.idempotencyKey = key

/-- The INSERT statement; `none` while it waits. -/
def insertStatement (s : EffectStore) (c : CallId) (call : EffectCall) (now : Timestamp) :
    Option EffectStore :=
  if !call.request.storable then some (s.setState c call (.failed .database))
  else if s.holdsKey call.request.idempotencyKey then some (s.setState c call .conflicted)
  else if s.heldByOther c call.request.idempotencyKey then none
  else some (s.setState c call (.inserted (call.request.row call.effectId now)))

def readStatement (s : EffectStore) (c : CallId) (call : EffectCall) : EffectStore :=
  match s.rows.find? fun row => row.idempotencyKey = call.request.idempotencyKey with
  | none => s.setState c call (.failed (.effectState call.request.idempotencyKey))
  | some row =>
    if row.matchesRequest call.request then
      s.setState c call (.returned { applied := false, result := row.result, createdAt := row.createdAt })
    else s.setState c call (.failed (.idempotencyConflict call.request.idempotencyKey))

def step (s : EffectStore) : StoreAction → Option EffectStore
  | .apply request effectId =>
    let state :=
      match checkRequest request with
      | some e => .failed e
      | none => .sent
    some (s.addCall ⟨request, effectId, state⟩)
  | .insert c now =>
    match s.calls c with
    | some ⟨request, effectId, .sent⟩ => s.insertStatement c ⟨request, effectId, .sent⟩ now
    | _ => none
  | .commit c =>
    match s.calls c with
    | some ⟨request, effectId, .inserted row⟩ =>
      some { s.setState c ⟨request, effectId, .inserted row⟩ (.applied row) with
        rows := s.rows ++ [row] }
    | _ => none
  | .respond c =>
    match s.calls c with
    | some ⟨request, effectId, .applied row⟩ =>
      some (s.setState c ⟨request, effectId, .applied row⟩
        (.returned { applied := true, result := row.result, createdAt := row.createdAt }))
    | _ => none
  | .read c =>
    match s.calls c with
    | some ⟨request, effectId, .conflicted⟩ =>
      some (s.readStatement c ⟨request, effectId, .conflicted⟩)
    | _ => none
  | .lose c =>
    match s.calls c with
    | some ⟨_, _, .returned _⟩ | some ⟨_, _, .failed _⟩ | none => none
    | some call => some (s.setState c call (.failed .database))

structure Initial (s : EffectStore) : Prop where
  distinct : (s.rows.map EffectRow.idempotencyKey).Nodup
  noCalls : ∀ c, s.calls c = none

end EffectStore
end DurableRunner.Effects
