import DurableRunner.Effects.Store
import DurableRunner.Schema.Stringify
import DurableRunner.Schema.Uuid

/-! # The executor

`executeStep` up to its first suspension: the payload validators with the texts
of their errors, and the one request that an effect step sends.
-/
namespace DurableRunner.Worker
open Schema Effects

inductive TaskType where
  | hashAfterDelay
  | failThenHash
  | idempotentEffect
deriving DecidableEq

def TaskType.name : TaskType → String
  | .hashAfterDelay => "hash_after_delay"
  | .failThenHash => "fail_then_hash"
  | .idempotentEffect => "idempotent_effect"

def parseTaskType (value : String) : Option TaskType :=
  [TaskType.hashAfterDelay, .failThenHash, .idempotentEffect].find? fun t => t.name = value

def maxTaskDelayMs : ℕ := 60000

/-- What an `InvalidTaskError` complains about. -/
inductive InvalidTask where
  | unsupportedTaskType (taskType : String)
  | attemptCountNotPositive
  | payloadNotAnObject (task : TaskType) (payload : Json)
  | notANonEmptyString (task : TaskType) (field : String) (value : Option Json)
  | notADelay (task : TaskType) (field : String) (value : Option Json)
  | notAFailureCount
  | applicationOwnedKey
  | stepIdNotAUuid
deriving DecidableEq

/-- `error.message` of an `InvalidTaskError`. The checks of `failThenHash` do not quote the payload. -/
def InvalidTask.message : InvalidTask → JsString
  | .unsupportedTaskType taskType =>
    .ofString "Not a supported task type: " ++ Json.stringify (.str taskType)
  | .attemptCountNotPositive => .ofString "execution requires a positive claimed attemptCount"
  | .payloadNotAnObject .failThenHash _ => .ofString "fail_then_hash payload must be an object"
  | .payloadNotAnObject task payload =>
    .ofString (task.name ++ " payload must be an object, got ") ++ payload.stringify
  | .notANonEmptyString .failThenHash field _ =>
    .ofString ("fail_then_hash payload." ++ field ++ " must be a non-empty string")
  | .notANonEmptyString task field value =>
    .ofString (task.name ++ " payload." ++ field ++ " must be a non-empty string, got ") ++
      Json.template value
  | .notADelay task field value =>
    .ofString (task.name ++ " payload." ++ field ++ " must be an integer in [0, " ++
      toString maxTaskDelayMs ++ "], got ") ++ Json.template value
  | .notAFailureCount =>
    .ofString "fail_then_hash payload.failuresBeforeSuccess must be a nonnegative safe integer"
  | .applicationOwnedKey =>
    .ofString "idempotent_effect keys are application-owned; omit payload.idempotencyKey"
  | .stepIdNotAUuid => .ofString "idempotent_effect requires a UUID step identity"

inductive ExecutorError where
  | invalidTask (reason : InvalidTask)
  | deterministicFailure (attempt : ℤ)
  | effect (error : EffectError)
deriving DecidableEq

/-- `!(error instanceof InvalidTaskError)`. -/
def ExecutorError.retryable : ExecutorError → Bool
  | .invalidTask _ => false
  | _ => true

/-- The message of the error that `failThenHash` throws on purpose. -/
def deterministicFailureMessage (attemptCount : ℤ) : JsString :=
  .ofString ("fail_then_hash deterministic failure on attempt " ++ toString attemptCount)

/-- `error.message`; none where it is the database's. -/
def ExecutorError.message? : ExecutorError → Option JsString
  | .invalidTask reason => some reason.message
  | .deterministicFailure attempt => some (deterministicFailureMessage attempt)
  | .effect error => error.message?

/-- `errorText` is what the error says; a failed statement may say anything. -/
def ExecutorError.carries (error : ExecutorError) (errorText : JsString) : Bool :=
  error.message?.all fun message => message = errorText

/-- `typeof payload === "object" && payload !== null`. -/
def isObject : Json → Bool
  | .arr _ | .obj _ => true
  | _ => false

/-- `payload[field]` where it is a non-empty string. -/
def nonEmptyString? (task : TaskType) (payload : Json) (field : String) : Except InvalidTask String :=
  match payload.get? field with
  | some (.str s) => if s = "" then .error (.notANonEmptyString task field (some (.str s))) else .ok s
  | value => .error (.notANonEmptyString task field value)

/-- `payload[field]` where it is an integer, as `JSON.parse` reads numbers. -/
def integer? (payload : Json) (field : String) : Option ℤ :=
  match payload.get? field with
  | some (.num q) => (JsNumber.ofRat q).toInt?
  | _ => none

/-- `payload[field]` where it is an integer in `[0, MAX_TASK_DELAY_MS]`. -/
def delay? (task : TaskType) (payload : Json) (field : String) : Except InvalidTask ℕ :=
  match integer? payload field with
  | some n =>
    if 0 ≤ n ∧ n ≤ maxTaskDelayMs then .ok n.toNat
    else .error (.notADelay task field (payload.get? field))
  | none => .error (.notADelay task field (payload.get? field))

structure HashAfterDelayPayload where
  input : String
  delayMs : ℕ

def parseHashAfterDelayPayload (payload : Json) : Except InvalidTask HashAfterDelayPayload := do
  if !isObject payload then .error (.payloadNotAnObject .hashAfterDelay payload)
  let input ← nonEmptyString? .hashAfterDelay payload "input"
  let delayMs ← delay? .hashAfterDelay payload "delayMs"
  return { input, delayMs }

structure FailThenHashPayload where
  input : String
  failuresBeforeSuccess : ℕ

def parseFailThenHashPayload (payload : Json) : Except InvalidTask FailThenHashPayload := do
  if !isObject payload then .error (.payloadNotAnObject .failThenHash payload)
  let input ← nonEmptyString? .failThenHash payload "input"
  match integer? payload "failuresBeforeSuccess" with
  | some n =>
    if JsNumber.isSafeInteger (.finite n) ∧ 0 ≤ n then
      return { input, failuresBeforeSuccess := n.toNat }
    else .error .notAFailureCount
  | none => .error .notAFailureCount

@[ext] structure IdempotentEffectPayload where
  value : String
  delayAfterEffectMs : ℕ
deriving DecidableEq

def parseIdempotentEffectPayload (payload : Json) : Except InvalidTask IdempotentEffectPayload := do
  if !isObject payload then .error (.payloadNotAnObject .idempotentEffect payload)
  if (payload.get? "idempotencyKey").isSome then .error .applicationOwnedKey
  let value ← nonEmptyString? .idempotentEffect payload "value"
  let delayAfterEffectMs ← delay? .idempotentEffect payload "delayAfterEffectMs"
  return { value, delayAfterEffectMs }

/-- `text.toLowerCase()` of a text in ASCII. -/
def toLowerCase (text : String) : String := String.ofList (text.toList.map Char.toLower)

def stepEffectKey (stepId : String) : Except InvalidTask String :=
  if isUuidText stepId then .ok ("step:" ++ toLowerCase stepId ++ ":demo_receipt")
  else .error .stepIdNotAUuid

/-- `key` has the form `step:<uuid>:demo_receipt`. -/
def isStepEffectKey (key : String) : Bool :=
  key.toList.take 5 = "step:".toList && key.toList.drop 41 = ":demo_receipt".toList &&
    isUuidText (String.ofList ((key.toList.drop 5).take 36))

/-- The request of `runIdempotentEffect`. -/
def effectRequest (stepId : String) (payload : Json) : Except InvalidTask EffectRequest := do
  let parsed ← parseIdempotentEffectPayload payload
  let idempotencyKey ← stepEffectKey stepId
  return {
    idempotencyKey
    effectType := demoEffectType
    request := .obj [("stepId", .str (toLowerCase stepId)), ("value", .str parsed.value)] }

/-- How an execution begins. -/
inductive Execution where
  | resolves (result : Json)
  | throws (error : ExecutorError)
  | applies (request : EffectRequest)

section
variable (sha256Hex : String → String)

def hashResult (input : String) : Json := .obj [("hash", .str (sha256Hex input))]

def runHashAfterDelay (payload : Json) : Execution :=
  match parseHashAfterDelayPayload payload with
  | .error reason => .throws (.invalidTask reason)
  | .ok parsed => .resolves (hashResult sha256Hex parsed.input)

def failThenHash (payload : Json) (attemptCount : ℤ) : Execution :=
  match parseFailThenHashPayload payload with
  | .error reason => .throws (.invalidTask reason)
  | .ok parsed =>
    if attemptCount ≤ parsed.failuresBeforeSuccess then
      .throws (.deterministicFailure attemptCount)
    else .resolves (hashResult sha256Hex parsed.input)

def runIdempotentEffect (stepId : String) (payload : Json) : Execution :=
  match effectRequest stepId payload with
  | .error reason => .throws (.invalidTask reason)
  | .ok request => .applies request

def executeStep (stepId taskType : String) (payload : Json) (attemptCount : ℤ) : Execution :=
  match parseTaskType taskType with
  | none => .throws (.invalidTask (.unsupportedTaskType taskType))
  | some task =>
    if attemptCount < 1 then .throws (.invalidTask .attemptCountNotPositive)
    else
      match task with
      | .hashAfterDelay => runHashAfterDelay sha256Hex payload
      | .failThenHash => failThenHash sha256Hex payload attemptCount
      | .idempotentEffect => runIdempotentEffect stepId payload

end

theorem effectRequest_cases {stepId : String} {payload : Json} {request : EffectRequest}
    (h : effectRequest stepId payload = .ok request) :
    stepEffectKey stepId = .ok request.idempotencyKey ∧ request.effectType = demoEffectType := by
  unfold effectRequest at h
  cases hparse : parseIdempotentEffectPayload payload with
  | error reason => simp [hparse, bind, Except.bind] at h
  | ok parsed =>
    cases hkey : stepEffectKey stepId with
    | error reason => simp [hparse, hkey, bind, Except.bind] at h
    | ok key =>
      simp only [hparse, hkey, bind, Except.bind, pure, Except.pure, Except.ok.injEq] at h
      rw [← h]
      exact ⟨rfl, rfl⟩

theorem effectRequest_eq_ok {stepId : String} {payload : Json} {request : EffectRequest}
    (h : effectRequest stepId payload = .ok request) :
    stepEffectKey stepId = .ok request.idempotencyKey :=
  (effectRequest_cases h).1

theorem executeStep_applies {sha256Hex : String → String} {stepId taskType : String}
    {payload : Json} {attemptCount : ℤ} {request : EffectRequest}
    (h : executeStep sha256Hex stepId taskType payload attemptCount = .applies request) :
    parseTaskType taskType = some .idempotentEffect ∧ effectRequest stepId payload = .ok request := by
  unfold executeStep at h
  split at h
  · cases h
  · rename_i task htask
    split at h
    · cases h
    · cases task with
      | hashAfterDelay =>
        simp only [runHashAfterDelay] at h
        split at h <;> cases h
      | failThenHash =>
        simp only [failThenHash] at h
        split at h
        · cases h
        · split at h <;> cases h
      | idempotentEffect =>
        refine ⟨htask, ?_⟩
        simp only [runIdempotentEffect] at h
        split at h
        · cases h
        · rename_i request' hrequest
          obtain rfl := Execution.applies.inj h
          exact hrequest

theorem executeStep_throws {sha256Hex : String → String} {stepId taskType : String} {payload : Json}
    {attemptCount : ℤ} {error : ExecutorError}
    (h : executeStep sha256Hex stepId taskType payload attemptCount = .throws error) :
    (∃ reason, error = .invalidTask reason) ∨ error = .deterministicFailure attemptCount := by
  unfold executeStep at h
  split at h
  · exact .inl ⟨_, (Execution.throws.inj h).symm⟩
  · rename_i task htask
    split at h
    · exact .inl ⟨_, (Execution.throws.inj h).symm⟩
    · cases task with
      | hashAfterDelay =>
        simp only [runHashAfterDelay] at h
        split at h
        · exact .inl ⟨_, (Execution.throws.inj h).symm⟩
        · cases h
      | failThenHash =>
        simp only [failThenHash] at h
        split at h
        · exact .inl ⟨_, (Execution.throws.inj h).symm⟩
        · split at h
          · exact .inr (Execution.throws.inj h).symm
          · cases h
      | idempotentEffect =>
        simp only [runIdempotentEffect] at h
        split at h
        · exact .inl ⟨_, (Execution.throws.inj h).symm⟩
        · cases h

theorem carries_of_throws {sha256Hex : String → String} {stepId taskType : String} {payload : Json}
    {attemptCount : ℤ} {error : ExecutorError} {text : JsString}
    (h : executeStep sha256Hex stepId taskType payload attemptCount = .throws error)
    (hcarries : error.carries text = true) : error.message? = some text := by
  rcases executeStep_throws h with ⟨reason, rfl⟩ | rfl <;>
    simpa [ExecutorError.carries, ExecutorError.message?] using hcarries

/-- An effect step never resolves before its effect. -/
theorem executeStep_effect_not_resolves {sha256Hex : String → String} {stepId taskType : String}
    {payload : Json} {attemptCount : ℤ} {result : Json}
    (htask : parseTaskType taskType = some .idempotentEffect) :
    executeStep sha256Hex stepId taskType payload attemptCount ≠ .resolves result := by
  unfold executeStep
  rw [htask]
  dsimp only
  split
  · exact nofun
  · simp only [runIdempotentEffect]
    split <;> exact nofun

/-- Keys differ as soon as the ids differ in more than letter case. -/
theorem toLowerCase_eq_of_key {stepId stepId' : String} {key : String}
    (h : stepEffectKey stepId = .ok key) (h' : stepEffectKey stepId' = .ok key) :
    toLowerCase stepId = toLowerCase stepId' := by
  unfold stepEffectKey at h h'
  split at h
  · split at h'
    · have hsame := (Except.ok.inj h).trans (Except.ok.inj h').symm
      have hlist := congrArg String.toList hsame
      simp only [String.toList_append, List.append_assoc, List.append_cancel_left_eq,
        List.append_cancel_right_eq] at hlist
      exact String.toList_inj.mp hlist
    · cases h'
  · cases h

theorem mem_joinGroups {ns : List ℕ} {cs : List Char} {c : Char} (h : c ∈ joinGroups ns cs) :
    c = '-' ∨ c ∈ cs := by
  induction ns generalizing cs with
  | nil => exact .inr h
  | cons n ns ih =>
    cases ns with
    | nil => exact .inr h
    | cons m ns =>
      rcases List.mem_append.mp h with h | h
      · exact .inr (List.mem_of_mem_take h)
      · rcases List.mem_cons.mp h with rfl | h
        · exact .inl rfl
        · exact (ih h).imp_right List.mem_of_mem_drop

theorem toLower_of_mem_nibbles {k n : ℕ} {c : Char} (h : c ∈ nibbles k n) : c.toLower = c := by
  induction k generalizing n with
  | zero => cases h
  | succ k ih =>
    rcases List.mem_append.mp h with h | h
    · exact ih h
    · have hall : ∀ d : Fin 16, (Nat.digitChar d.val).toLower = Nat.digitChar d.val := by decide
      rw [List.mem_singleton.mp h]
      exact hall ⟨n % 16, Nat.mod_lt n (by decide)⟩

theorem toLowerCase_uuidText (stepId : StepId) : toLowerCase (uuidText stepId) = uuidText stepId := by
  have hfixed : ∀ c ∈ joinGroups uuidGroups (nibbles 32 stepId.val), c.toLower = c := by
    intro c hc
    rcases mem_joinGroups hc with rfl | hc
    · rfl
    · exact toLower_of_mem_nibbles hc
  have hmap : (joinGroups uuidGroups (nibbles 32 stepId.val)).map Char.toLower =
      joinGroups uuidGroups (nibbles 32 stepId.val) :=
    (List.map_congr_left hfixed).trans (List.map_id' _)
  rw [toLowerCase, uuidText, String.toList_ofList, hmap]

/-- Stored steps with one key are one step. -/
theorem stepEffectKey_injective {id id' : StepId} {key : String}
    (h : stepEffectKey (uuidText id) = .ok key) (h' : stepEffectKey (uuidText id') = .ok key) :
    id = id' := by
  have hsame := toLowerCase_eq_of_key h h'
  rw [toLowerCase_uuidText, toLowerCase_uuidText] at hsame
  exact uuidText_injective hsame

theorem length_of_matchesGroups {ns : List ℕ} {cs : List Char} (hne : ns ≠ [])
    (h : matchesGroups ns cs = true) : cs.length + 1 = ns.sum + ns.length := by
  induction ns generalizing cs with
  | nil => exact absurd rfl hne
  | cons n ns ih =>
    cases ns with
    | nil =>
      simp only [matchesGroups, Bool.and_eq_true, decide_eq_true_eq] at h
      simp [h.1]
    | cons m ns =>
      simp only [matchesGroups, Bool.and_eq_true, decide_eq_true_eq] at h
      obtain ⟨⟨hgroup, -⟩, hrest⟩ := h
      split at hrest
      · rename_i rest hdrop
        have hlength := ih (List.cons_ne_nil _ _) hrest
        have hsplit := congrArg List.length (List.take_append_drop n cs)
        rw [hdrop, List.length_append, hgroup, List.length_cons] at hsplit
        simp only [List.sum_cons, List.length_cons] at hlength ⊢
        omega
      · cases hrest

theorem stepEffectKey_uuidText (id : StepId) :
    stepEffectKey (uuidText id) = .ok ("step:" ++ uuidText id ++ ":demo_receipt") := by
  rw [stepEffectKey, if_pos (isUuidText_uuidText id), toLowerCase_uuidText]

theorem length_uuidText (id : StepId) : (uuidText id).toList.length = 36 := by
  have := length_of_matchesGroups (by decide) (isUuidText_uuidText id)
  simp only [uuidGroups, List.sum_cons, List.sum_nil, List.length_cons, List.length_nil] at this
  omega

theorem isStepEffectKey_of_step {id : StepId} {key : String}
    (h : stepEffectKey (uuidText id) = .ok key) : isStepEffectKey key = true := by
  rw [stepEffectKey_uuidText] at h
  obtain rfl := Except.ok.inj h
  have hlength := length_uuidText id
  have hprefix : "step:".toList.length = 5 := rfl
  have hfront : ("step:".toList ++ (uuidText id).toList).length = 41 := by simp [hlength]
  simp only [isStepEffectKey, String.toList_append]
  rw [List.drop_left' hfront, List.append_assoc, List.take_left' hprefix,
    List.drop_left' hprefix, List.take_left' hlength, String.ofList_toList, isUuidText_uuidText]
  simp

theorem utf16Length_le (text : String) : utf16Length text ≤ text.toList.length * 2 := by
  have hunits : ∀ n ∈ text.toList.map (fun c => if c.toNat < 0x10000 then 1 else 2), n ≤ 2 := by
    intro n hn
    obtain ⟨c, -, rfl⟩ := List.mem_map.mp hn
    split <;> decide
  simpa [utf16Length] using List.sum_le_card_nsmul _ 2 hunits

theorem checkRequest_of_step {id : StepId} {payload : Json} {request : EffectRequest}
    (h : effectRequest (uuidText id) payload = .ok request) : checkRequest request = none := by
  obtain ⟨hkey, htype⟩ := effectRequest_cases h
  rw [stepEffectKey_uuidText] at hkey
  have hsame := Except.ok.inj hkey
  have hlength : request.idempotencyKey.toList.length = 54 := by
    rw [← hsame]
    simp [length_uuidText]
  have hshort : ¬ maxIdempotencyKeyLength < utf16Length request.idempotencyKey := by
    have hle := utf16Length_le request.idempotencyKey
    simp only [maxIdempotencyKeyLength]
    omega
  have hblank : isBlankText request.idempotencyKey = false := by
    rw [← hsame, isBlankText, String.toList_append, String.toList_append]
    rfl
  have hnamed : isBlankText request.effectType = false := by
    rw [htype]
    decide
  simp [checkRequest, hblank, hshort, hnamed]

end DurableRunner.Worker
