import DurableRunner.Events.Wire
import DurableRunner.Guarantees.Reconnection

/-! # Events survive the wire

The frame of an event is one message of the stream, its data is JSON, and what
the page parses from it is the event and no other.
-/
namespace DurableRunner.Guarantees
open Schema Events Text
open EventStream (Reader Message)
open JsonText (Value)
open JsString (ofString ofString_injective)

section Numbers

theorem ofInt_injOn {a b : ℤ} (ha : a.natAbs < 2 ^ 53) (hb : b.natAbs < 2 ^ 53)
    (h : JsNumber.ofInt a = JsNumber.ofInt b) : a = b := by
  rw [JsNumber.ofInt_of_lt ha, JsNumber.ofInt_of_lt hb] at h
  exact_mod_cast JsNumber.finite.inj h

theorem natAbs_int4 (n : Int4) : n.val.natAbs < 2 ^ 53 := by
  have hrange := n.inRange
  omega

end Numbers

section Members
variable (timestampText : Timestamp → String)

theorem lastMember_optional (key key' : String) (v : Option (Value ℤ)) :
    Value.lastMember (ofString key') (optionalMember key v) = if key = key' then v else none := by
  cases v with
  | none => simp [optionalMember, Value.lastMember]
  | some v => simp [optionalMember, Value.lastMember, ofString_injective.eq_iff]

theorem member_apiData (d : EventData) :
    (apiData timestampText d).member (ofString "error") = d.error.map .str ∧
    (apiData timestampText d).member (ofString "reason") =
      d.reason.map (fun reason => .str (ofString (reasonText reason))) ∧
    (apiData timestampText d).member (ofString "availableAt") =
      d.availableAt.map (fun t => .str (ofString (timestampText t))) ∧
    (apiData timestampText d).member (ofString "attemptCount") = some (.num d.attemptCount.val) ∧
    (apiData timestampText d).member (ofString "leaseVersion") = some (.num d.leaseVersion.val) ∧
    (apiData timestampText d).member (ofString "previousWorkerId") =
      d.previousWorkerId.map textOrNull := by
  simp [apiData, Value.member, Value.lastMember_append, lastMember_optional, Value.lastMember,
    ofString_injective.eq_iff]

theorem member_toApiEvent (e : StepEvent) :
    (toApiEvent timestampText e).member (ofString "id") = some (.num e.id) ∧
    (toApiEvent timestampText e).member (ofString "stepId") =
      some (.str (ofString (uuidText e.stepId))) ∧
    (toApiEvent timestampText e).member (ofString "workerId") = some (textOrNull e.workerId) ∧
    (toApiEvent timestampText e).member (ofString "eventType") =
      some (.str (ofString (eventTypeText e.eventType))) ∧
    (toApiEvent timestampText e).member (ofString "data") = some (apiData timestampText e.data) ∧
    (toApiEvent timestampText e).member (ofString "createdAt") =
      some (.str (ofString (timestampText e.createdAt))) := by
  simp [toApiEvent, Value.member, Value.lastMember, ofString_injective.eq_iff]

end Members
section Injective
variable {timestampText : Timestamp → String}

theorem eventTypeText_injective : Function.Injective eventTypeText := by
  intro a b h
  cases a <;> cases b <;> first | rfl | exact absurd h (by decide)

theorem reasonText_injective : Function.Injective reasonText := by
  intro a b h
  cases a <;> cases b <;> first | rfl | exact absurd h (by decide)

theorem str_map_inj {a b : JsString} (h : (Value.str a).map JsNumber.ofInt = (Value.str b).map JsNumber.ofInt) :
    a = b := by
  simpa [Value.map] using h

theorem num_map_inj {a b : ℤ} (ha : a.natAbs < 2 ^ 53) (hb : b.natAbs < 2 ^ 53)
    (h : (Value.num a).map JsNumber.ofInt = (Value.num b).map JsNumber.ofInt) : a = b :=
  ofInt_injOn ha hb (by simpa [Value.map] using h)

theorem textOrNull_map_injective :
    Function.Injective fun text => (textOrNull text).map JsNumber.ofInt := by
  rintro (_ | a) (_ | b) h
  · rfl
  · simp [textOrNull, Value.map] at h
  · simp [textOrNull, Value.map] at h
  · exact congrArg some (ofString_injective (str_map_inj h))

theorem member_eq {a b : Value ℤ} (h : a.map JsNumber.ofInt = b.map JsNumber.ofInt) (key : JsString) :
    (a.member key).map (Value.map JsNumber.ofInt) = (b.member key).map (Value.map JsNumber.ofInt) := by
  rw [← Value.member_map, h, Value.member_map]

theorem optional_inj {α : Type} {f : α → JsString} (hf : Function.Injective f) {a b : Option α}
    (h : (a.map fun x => Value.str (f x)).map (Value.map JsNumber.ofInt) =
      (b.map fun x => Value.str (f x)).map (Value.map JsNumber.ofInt)) : a = b := by
  rw [Option.map_map, Option.map_map] at h
  exact Option.map_injective (fun x y hxy => hf (str_map_inj hxy)) h

theorem apiData_injective (htext : Function.Injective timestampText) {d d' : EventData}
    (h : (apiData timestampText d).map JsNumber.ofInt = (apiData timestampText d').map JsNumber.ofInt) :
    d = d' := by
  have hmembers := member_eq h
  obtain ⟨herror, hreason, havailable, hattempt, hlease, hprevious⟩ := member_apiData timestampText d
  obtain ⟨herror', hreason', havailable', hattempt', hlease', hprevious'⟩ :=
    member_apiData timestampText d'
  ext1
  · have hsame := hmembers (ofString "leaseVersion")
    rw [hlease, hlease'] at hsame
    exact Int4.ext (num_map_inj (natAbs_int4 _) (natAbs_int4 _) (Option.some.inj hsame))
  · have hsame := hmembers (ofString "attemptCount")
    rw [hattempt, hattempt'] at hsame
    exact Int4.ext (num_map_inj (natAbs_int4 _) (natAbs_int4 _) (Option.some.inj hsame))
  · have hsame := hmembers (ofString "availableAt")
    rw [havailable, havailable'] at hsame
    exact optional_inj (ofString_injective.comp htext) hsame
  · have hsame := hmembers (ofString "error")
    rw [herror, herror'] at hsame
    exact optional_inj (f := id) Function.injective_id hsame
  · have hsame := hmembers (ofString "reason")
    rw [hreason, hreason'] at hsame
    exact optional_inj (ofString_injective.comp reasonText_injective) hsame
  · have hsame := hmembers (ofString "previousWorkerId")
    rw [hprevious, hprevious', Option.map_map, Option.map_map] at hsame
    exact Option.map_injective textOrNull_map_injective hsame

/-- The parsed object determines the event. -/
theorem parsedEvent_injOn (htext : Function.Injective timestampText) {e e' : StepEvent}
    (he : e.id ≤ maxEventId) (he' : e'.id ≤ maxEventId)
    (h : parsedEvent timestampText e = parsedEvent timestampText e') : e = e' := by
  have hmembers := member_eq h
  obtain ⟨hid, hstep, hworker, htype, hdata, hcreated⟩ := member_toApiEvent timestampText e
  obtain ⟨hid', hstep', hworker', htype', hdata', hcreated'⟩ := member_toApiEvent timestampText e'
  have hsafe : ∀ n : ℕ, n ≤ maxEventId → (n : ℤ).natAbs < 2 ^ 53 := fun n hn => by
    unfold maxEventId at hn
    omega
  ext1
  · have hsame := hmembers (ofString "id")
    rw [hid, hid'] at hsame
    exact_mod_cast num_map_inj (hsafe _ he) (hsafe _ he') (Option.some.inj hsame)
  · have hsame := hmembers (ofString "stepId")
    rw [hstep, hstep'] at hsame
    exact uuidText_injective (ofString_injective (str_map_inj (Option.some.inj hsame)))
  · have hsame := hmembers (ofString "workerId")
    rw [hworker, hworker'] at hsame
    exact textOrNull_map_injective (Option.some.inj hsame)
  · have hsame := hmembers (ofString "eventType")
    rw [htype, htype'] at hsame
    exact eventTypeText_injective (ofString_injective (str_map_inj (Option.some.inj hsame)))
  · have hsame := hmembers (ofString "data")
    rw [hdata, hdata'] at hsame
    exact apiData_injective htext (Option.some.inj hsame)
  · have hsame := hmembers (ofString "createdAt")
    rw [hcreated, hcreated'] at hsame
    exact htext (ofString_injective (str_map_inj (Option.some.inj hsame)))

end Injective

theorem parsedEvents_injOn {timestampText : Timestamp → String}
    (htext : Function.Injective timestampText) {events events' : List StepEvent}
    (hsafe : ∀ e ∈ events, e.id ≤ maxEventId) (hsafe' : ∀ e ∈ events', e.id ≤ maxEventId)
    (h : events.map (parsedEvent timestampText) = events'.map (parsedEvent timestampText)) :
    events = events' := by
  induction events generalizing events' with
  | nil => exact (List.map_eq_nil_iff.mp h.symm).symm
  | cons e events ih =>
    obtain ⟨e', rest, rfl, he, hrest⟩ := List.map_eq_cons_iff.mp h.symm
    obtain ⟨hsafe, hall⟩ := List.forall_mem_cons.mp hsafe
    obtain ⟨hsafe', hall'⟩ := List.forall_mem_cons.mp hsafe'
    rw [parsedEvent_injOn htext hsafe hsafe' he.symm, ih hall hall' hrest.symm]

/-- What the client reads of one page of events. -/
structure ReadBack (timestampText : Timestamp → String) (events : List StepEvent)
    (messages : List Message) : Prop where
  types : ∀ m ∈ messages, m.eventType = stepEventType
  /-- The id that the client would resume with is the event's. -/
  ids : messages.map (fun m => safeInteger? (String.ofList (JsString.characters m.lastEventId)) 0 none) =
    events.map fun e => some e.id
  parsed : messages.map (fun m => JsonText.parse integerNumerals.read m.data) =
    events.map fun e => some (parsedEvent timestampText e)

/-- The frames that a poll writes are read back as the events of the page, in order, and as the
events of no other page. -/
theorem event_frames_round_trip {timestampText : Timestamp → String}
    (htext : Function.Injective timestampText) {events : List StepEvent}
    (hsafe : ∀ e ∈ events, e.id ≤ maxEventId) (id : JsString) (time : Option ℕ) :
    ∃ messages, ((Reader.resting id time).feed
        ((pageFrames events).flatMap (Frame.units timestampText))).2 = messages ∧
      ReadBack timestampText events messages ∧
      ∀ events', (∀ e ∈ events', e.id ≤ maxEventId) → ReadBack timestampText events' messages →
        events' = events := by
  have hfeed : ((Reader.resting id time).feed
      ((pageFrames events).flatMap (Frame.units timestampText))).2 =
        events.map (eventMessage timestampText) := by
    rw [flatMap_units, EventStream.Block.feed_blocks, messages_block, event?_pageFrames]
  refine ⟨_, hfeed, ⟨?_, ?_, ?_⟩, fun events' hsafe' hback => ?_⟩
  · simp [eventMessage]
  · rw [List.map_map]
    refine List.map_congr_left fun e he => ?_
    have hunits : (eventMessage timestampText e).lastEventId = integerUnits e.id := rfl
    rw [Function.comp_apply, hunits, characters_integerUnits, safeInteger?_toString (hsafe e he)]
  · rw [List.map_map]
    exact List.map_congr_left fun e _ => parse_eventMessage timestampText e
  · have hparsed := hback.parsed
    rw [List.map_map] at hparsed
    have hvalues : events.map (some ∘ parsedEvent timestampText) =
        events'.map (some ∘ parsedEvent timestampText) := by
      refine Eq.trans (List.map_congr_left fun e _ => ?_) hparsed
      exact (parse_eventMessage timestampText e).symm
    rw [← List.map_map, ← List.map_map] at hvalues
    have hsame := List.map_injective_iff.mpr (Option.some_injective _) hvalues
    exact (parsedEvents_injOn htext hsafe hsafe' hsame).symm

/-- The text of the instant that the column type counts from, and a text of its own for any other. -/
def originTimestampText (t : Timestamp) : String :=
  if t = 0 then "2000-01-01 00:00:00+00" else String.ofList ('t' :: JsNumber.integerText t)

theorem integerText_injective : Function.Injective JsNumber.integerText := by
  have hdigits : Function.Injective (Nat.toDigits 10) := fun n m h => by
    rw [← Nat.ofDigitChars_ten_toDigits (n := n), h, Nat.ofDigitChars_ten_toDigits]
  have hsign : ∀ n m, Nat.toDigits 10 n ≠ '-' :: Nat.toDigits 10 m := fun n m h =>
    absurd (JsNumber.isDigit_toDigits (n := n) '-' (h ▸ List.mem_cons_self)) (by decide)
  rintro (n | n) (m | m) h
  · exact congrArg Int.ofNat (hdigits h)
  · exact absurd h (hsign n (m + 1))
  · exact absurd h.symm (hsign m (n + 1))
  · exact congrArg Int.negSucc (Nat.succ.inj (hdigits (List.cons.inj h).2))

theorem originTimestampText_injective : Function.Injective originTimestampText := by
  have hother : ∀ t, "2000-01-01 00:00:00+00" ≠ String.ofList ('t' :: JsNumber.integerText t) := by
    intro t h
    have hlist := congrArg String.toList h
    rw [String.toList_ofList] at hlist
    exact absurd (congrArg List.head? hlist) (by simp)
  intro t t' h
  unfold originTimestampText at h
  split_ifs at h with ht ht' ht'
  · rw [ht, ht']
  · exact absurd h (hother t')
  · exact absurd h.symm (hother t)
  · have hlist := congrArg String.toList h
    rw [String.toList_ofList, String.toList_ofList] at hlist
    exact integerText_injective (List.cons.inj hlist).2

/-- A dead letter whose excerpt ends in the first half of a surrogate pair. -/
def splitPairEvent : StepEvent where
  id := 42
  stepId := 7
  workerId := some "worker-1"
  eventType := .stepDeadLettered
  data := {
    leaseVersion := ⟨1, Int4.inRange_one⟩
    attemptCount := ⟨1, Int4.inRange_one⟩
    error := some [0x22, 0x0A, 0xD83D]
    reason := some .nonRetryableFailure }
  createdAt := 0

theorem event_frames_round_trip_split_pair :
    ∃ messages, ((Reader.resting [] none).feed
        ((pageFrames [splitPairEvent]).flatMap (Frame.units originTimestampText))).2 = messages ∧
      ReadBack originTimestampText [splitPairEvent] messages ∧
      ∀ events', (∀ e ∈ events', e.id ≤ maxEventId) →
        ReadBack originTimestampText events' messages → events' = [splitPairEvent] :=
  event_frames_round_trip originTimestampText_injective (by decide) [] none

end DurableRunner.Guarantees
