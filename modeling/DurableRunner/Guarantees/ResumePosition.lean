import DurableRunner.Events.Api
import DurableRunner.Schema.NumberSpellings

/-! # What a resume position may be -/
namespace DurableRunner.Guarantees
open Schema Relational Events

/-- The string is a decimal numeral for this number. -/
def Denotes (s : String) (n : ℕ) : Prop := JsNumber.natural? s.toList = some n

/-- Where a position resumes: nothing given and 0 are the start, any other numeral is the
event with that id. -/
inductive ResumesAt (table : EventLog) (s : String) : EventCursor → Prop
  | absent (habsent : s = "") : ResumesAt table s eventCursorStart
  | start (hzero : Denotes s 0) : ResumesAt table s eventCursorStart
  | event {e : EventRow} (he : e ∈ table.committed) (hid : Denotes s e.id) (hpos : 0 < e.id)
      (hmax : e.id ≤ maxEventId) : ResumesAt table s (position e)

/-- The requests that carry a position to an endpoint, and what else of them must parse. -/
structure Carrier where
  opens : EventLog → EventsRequest → Except BadRequest EventCursor
  carries : EventsRequest → String → Prop
  valid : EventsRequest → Prop

def ValidFilters (maxLimit : ℕ) (request : EventsRequest) : Prop :=
  (∃ stepId, parseStepId request.stepId = .ok stepId) ∧
    ∃ limit, parseLimit request.limit maxLimit = .ok limit

def pageCursor (table : EventLog) (request : EventsRequest) : Except BadRequest EventCursor :=
  (openPage table request).map PageState.cursor

def streamCursor (table : EventLog) (request : EventsRequest) : Except BadRequest EventCursor :=
  (openStream table request).map StreamState.cursor

def pageQuery : Carrier where
  opens := pageCursor
  carries request s := request.afterId = some (.one s)
  valid := ValidFilters maxEventPageSize

/-- `afterId` of `GET /api/events/stream`, without a header. -/
def streamQuery : Carrier where
  opens := streamCursor
  carries request s := request.afterId = some (.one s) ∧
    (request.lastEventId = none ∨ request.lastEventId = some (.one ""))
  valid := ValidFilters streamPageSize

/-- The `Last-Event-ID` header of `GET /api/events/stream`; an empty one is as good as none. -/
def streamHeader : Carrier where
  opens := streamCursor
  carries request s := request.lastEventId = some (.one s) ∧
    (s = "" → request.afterId = none)
  valid request := ValidFilters streamPageSize request ∧
    ∃ afterId, parseAfterId request.afterId = .ok afterId

/-- The endpoint takes the string for what it says: it resumes where the string says, and
answers 400 if that is nowhere. -/
structure TakenLiterally (carrier : Carrier) (s : String) : Prop where
  refuses : ∀ table request cursor, carrier.carries request s →
    carrier.opens table request = .ok cursor → ResumesAt table s cursor
  replays : ∀ table request, carrier.carries request s →
    carrier.opens table request = .ok eventCursorStart → s = "" ∨ Denotes s 0
  serves : ∀ table request cursor, carrier.carries request s → carrier.valid request →
    ResumesAt table s cursor → ∃ cursor', carrier.opens table request = .ok cursor'

/-- The string is read literally wherever it may be given, and also where the header overrides
it. -/
structure HonestPosition (s : String) : Prop where
  page : TakenLiterally pageQuery s
  stream : TakenLiterally streamQuery s
  header : TakenLiterally streamHeader s
  overridden : ∀ table request cursor, request.afterId = some (.one s) →
    streamCursor table request = .ok cursor → s = "" ∨ ∃ n ≤ maxEventId, Denotes s n

/-- The string is empty, a decimal numeral, or no other spelling of an integer from 0 to
2^53 - 1: not white space alone, nor a number that has white space around it, a sign, a point, an
exponent or a base prefix and is rounded to such an integer. -/
def PlainPosition (s : String) : Prop :=
  s = "" ∨ (∃ n, Denotes s n) ∨ ∀ n ≤ maxEventId, ¬JsNumber.Spells s (n : ℕ)

/-- What the check makes of the string: refused, nothing given, or a number. -/
def admitted (s : String) : Option (Option ℕ) :=
  if s = "" then some none else (safeInteger? s 0 none).map some

section Check
variable {s : String} {n : ℕ}

theorem Denotes.ne_empty (h : Denotes s n) : s ≠ "" := by
  rintro rfl
  cases h

theorem safeInteger?_of_denotes (h : Denotes s n) (hmax : n ≤ maxEventId) :
    safeInteger? s 0 none = some n := by
  have hlt : n < 2 ^ 53 := by
    unfold maxEventId at hmax
    omega
  exact safeInteger?_eq_some.mpr ⟨(JsNumber.ofText_natural h).trans (JsNumber.ofRat_natCast hlt), hmax⟩

theorem denotes_of_safeInteger? (h : safeInteger? s 0 none = some n) {m : ℕ} (hm : Denotes s m) :
    m = n := by
  rcases Nat.lt_or_ge m (2 ^ 53) with hsmall | hlarge
  · have hmax : m ≤ maxEventId := by
      unfold maxEventId
      omega
    exact Option.some.inj ((safeInteger?_of_denotes hm hmax).symm.trans h)
  · obtain ⟨hvalue, -⟩ := safeInteger?_eq_some.mp h
    have hunsafe := JsNumber.not_isSafeInteger_ofRat hlarge
    rw [safeInteger?, JsNumber.ofText_natural hm, hunsafe] at h
    cases h

/-- A plain position is admitted for what it says. -/
theorem denotes_of_plain (hplain : PlainPosition s) (h : safeInteger? s 0 none = some n)
    (hne : s ≠ "") : Denotes s n := by
  rcases hplain with hempty | ⟨m, hm⟩ | hnone
  · exact absurd hempty hne
  · rwa [← denotes_of_safeInteger? h hm]
  · obtain ⟨hvalue, hmax⟩ := safeInteger?_eq_some.mp h
    exact absurd (JsNumber.ofText_eq_finite.mp hvalue) (hnone n hmax)

theorem le_maxEventId_of_safeInteger? (h : safeInteger? s 0 none = some n) : n ≤ maxEventId :=
  (safeInteger?_eq_some.mp h).2

end Check

section Cursor
variable {table : EventLog} {s : String} {cursor : EventCursor}

/-- The cursor of an admitted plain position is where the position resumes. -/
theorem resumesAt_of_cursorFor (hplain : PlainPosition s) {afterId : Option ℕ}
    (hadmitted : admitted s = some afterId) (hcursor : cursorFor table afterId = .ok cursor) :
    ResumesAt table s cursor := by
  unfold admitted at hadmitted
  split at hadmitted
  · rename_i hempty
    obtain rfl := Option.some.inj hadmitted
    obtain rfl : eventCursorStart = cursor := Except.ok.inj hcursor
    exact .absent hempty
  · rename_i hne
    obtain ⟨n, hn, rfl⟩ := Option.map_eq_some_iff.mp hadmitted
    have hdenotes := denotes_of_plain hplain hn hne
    rcases cursorFor_eq_ok.mp hcursor with ⟨rfl, rfl⟩ | ⟨hpos, e, he, rfl⟩
    · exact .start hdenotes
    · obtain rfl : e.id = n := by simpa using List.find?_some he
      exact .event (List.mem_of_find?_eq_some he) hdenotes hpos (le_maxEventId_of_safeInteger? hn)

/-- Where a position resumes, the check and the lookup find a cursor. -/
theorem exists_cursorFor (h : ResumesAt table s cursor) :
    ∃ afterId, admitted s = some afterId ∧ ∃ cursor', cursorFor table afterId = .ok cursor' := by
  have hadmitted : ∀ {n}, Denotes s n → n ≤ maxEventId → admitted s = some (some n) := by
    intro n hn hmax
    rw [admitted, if_neg hn.ne_empty, safeInteger?_of_denotes hn hmax, Option.map_some]
  cases h with
  | absent habsent => exact ⟨none, if_pos habsent, _, rfl⟩
  | start hzero => exact ⟨some 0, hadmitted hzero (Nat.zero_le _), _, rfl⟩
  | @event e he hid hpos hmax =>
    obtain ⟨found, hfound⟩ : ∃ found,
        table.committed.find? (fun row => (row.id : ℤ) = e.id) = some found :=
      Option.isSome_iff_exists.mp (List.find?_isSome.mpr ⟨e, he, by simp⟩)
    exact ⟨some e.id, hadmitted hid hmax, _, cursorFor_eq_ok.mpr (.inr ⟨hpos, found, hfound, rfl⟩)⟩

theorem start_of_resumesAt (h : ResumesAt table s eventCursorStart) : s = "" ∨ Denotes s 0 := by
  generalize hstart : eventCursorStart = cursor at h
  cases h with
  | absent habsent => exact .inl habsent
  | start hzero => exact .inr hzero
  | event he hid hpos hmax => exact absurd (congrArg EventCursor.id hstart) hpos.ne

end Cursor

def Reads (carrier : Carrier) (s : String) : Prop :=
  ∀ table request cursor, carrier.carries request s →
    (carrier.opens table request = .ok cursor ↔ carrier.valid request ∧
      ∃ afterId, admitted s = some afterId ∧ cursorFor table afterId = .ok cursor)

theorem takenLiterally_of_reads {carrier : Carrier} {s : String} (hreads : Reads carrier s)
    (hplain : PlainPosition s) : TakenLiterally carrier s where
  refuses table request cursor hcarries hopens := by
    obtain ⟨-, afterId, hadmitted, hcursor⟩ := (hreads table request cursor hcarries).mp hopens
    exact resumesAt_of_cursorFor hplain hadmitted hcursor
  replays table request hcarries hopens := by
    obtain ⟨-, afterId, hadmitted, hcursor⟩ := (hreads table request _ hcarries).mp hopens
    exact start_of_resumesAt (resumesAt_of_cursorFor hplain hadmitted hcursor)
  serves table request cursor hcarries hvalid hresumes := by
    obtain ⟨afterId, hadmitted, cursor', hcursor⟩ := exists_cursorFor hresumes
    exact ⟨cursor', (hreads table request cursor' hcarries).mpr ⟨hvalid, afterId, hadmitted, hcursor⟩⟩

section Endpoints
variable {s : String} {request : EventsRequest}

theorem parseAfterId_eq_ok {afterId : Option ℕ} :
    parseAfterId (some (.one s)) = .ok afterId ↔ admitted s = some afterId := by
  unfold parseAfterId admitted
  by_cases hempty : s = ""
  · have hgiven : given (some (.one "")) = none := rfl
    rw [hempty, hgiven, if_pos rfl]
    simp
  · have hgiven : given (some (.one s)) = some (.one s) := Option.filter_some_pos (by simpa using hempty)
    rw [hgiven, if_neg hempty]
    simp only [QueryValue.text]
    cases safeInteger? s 0 none <;> simp

theorem resumeId_absent (h : request.lastEventId = none ∨ request.lastEventId = some (.one ""))
    (afterId : Option ℕ) : resumeId request.lastEventId afterId = .ok afterId := by
  rcases h with h | h <;> rw [h] <;> rfl

theorem resumeId_eq_ok {afterId resumed : Option ℕ} (hne : s ≠ "") :
    resumeId (some (.one s)) afterId = .ok resumed ↔ admitted s = some resumed := by
  have hgiven : ((some (HeaderValue.one s)).bind HeaderValue.first?).filter (· ≠ "") = some s :=
    Option.filter_some_pos (by simpa using hne)
  rw [resumeId, hgiven, admitted, if_neg hne]
  dsimp only
  cases safeInteger? s 0 none <;> simp

theorem validFilters_of_parse {maxLimit : ℕ} {parsed : ParsedQuery}
    (h : parseQuery request maxLimit = .ok parsed) : ValidFilters maxLimit request :=
  ⟨⟨_, (parseQuery_eq_ok.mp h).2.1⟩, _, (parseQuery_eq_ok.mp h).2.2⟩

theorem reads_pageQuery (s : String) : Reads pageQuery s := by
  intro table request cursor hcarries
  simp only [pageQuery, pageCursor, except_map_eq_ok, openPage_eq_ok]
  simp only [pageQuery] at hcarries
  constructor
  · rintro ⟨p, ⟨parsed, hparsed, hcursor, -⟩, rfl⟩
    have hafter := (parseQuery_eq_ok.mp hparsed).1
    rw [hcarries, parseAfterId_eq_ok] at hafter
    exact ⟨validFilters_of_parse hparsed, _, hafter, hcursor⟩
  · rintro ⟨⟨⟨stepId, hstep⟩, limit, hlimit⟩, afterId, hadmitted, hcursor⟩
    refine ⟨⟨stepId, cursor, afterId, limit.getD defaultEventPageSize⟩, ⟨⟨afterId, stepId, limit⟩, ?_,
      hcursor, rfl, rfl, rfl⟩, rfl⟩
    refine parseQuery_eq_ok.mpr ⟨?_, hstep, hlimit⟩
    rw [hcarries, parseAfterId_eq_ok]
    exact hadmitted

theorem streamCursor_eq_ok {table : EventLog} {cursor : EventCursor} :
    streamCursor table request = .ok cursor ↔ ValidFilters streamPageSize request ∧
      ∃ afterId resumed, parseAfterId request.afterId = .ok afterId ∧
        resumeId request.lastEventId afterId = .ok resumed ∧ cursorFor table resumed = .ok cursor := by
  simp only [streamCursor, except_map_eq_ok, openStream_eq_ok]
  constructor
  · rintro ⟨st, ⟨parsed, resumed, hparsed, hresume, hcursor, -⟩, rfl⟩
    exact ⟨validFilters_of_parse hparsed, _, resumed, (parseQuery_eq_ok.mp hparsed).1, hresume, hcursor⟩
  · rintro ⟨⟨⟨stepId, hstep⟩, limit, hlimit⟩, afterId, resumed, hafter, hresume, hcursor⟩
    exact ⟨⟨stepId, cursor⟩, ⟨⟨afterId, stepId, limit⟩, resumed,
      parseQuery_eq_ok.mpr ⟨hafter, hstep, hlimit⟩, hresume, hcursor, rfl⟩, rfl⟩

theorem reads_streamQuery (s : String) : Reads streamQuery s := by
  rintro table request cursor ⟨hcarries, habsent⟩
  simp only [streamQuery, streamCursor_eq_ok, hcarries, parseAfterId_eq_ok, resumeId_absent habsent,
    Except.ok.injEq, exists_and_left, exists_eq_left']

theorem reads_streamHeader (s : String) : Reads streamHeader s := by
  rintro table request cursor ⟨hcarries, halone⟩
  simp only [streamHeader, streamCursor_eq_ok]
  by_cases hempty : s = ""
  · have habsent : request.lastEventId = none ∨ request.lastEventId = some (.one "") :=
      .inr (hempty ▸ hcarries)
    have hnone : parseAfterId request.afterId = .ok none := by
      rw [halone hempty]
      rfl
    simp [hnone, resumeId_absent habsent, admitted, hempty]
  · simp only [hcarries, resumeId_eq_ok hempty]
    constructor
    · rintro ⟨hvalid, afterId, resumed, hafter, hadmitted, hcursor⟩
      exact ⟨⟨hvalid, afterId, hafter⟩, resumed, hadmitted, hcursor⟩
    · rintro ⟨⟨hvalid, afterId, hafter⟩, resumed, hadmitted, hcursor⟩
      exact ⟨hvalid, afterId, resumed, hafter, hadmitted, hcursor⟩

end Endpoints

def pageBehind (s : String) : EventsRequest := { afterId := some (.one s) }

theorem carries_pageBehind (s : String) : pageQuery.carries (pageBehind s) s := rfl

theorem valid_pageBehind (s : String) : pageQuery.valid (pageBehind s) := ⟨⟨none, rfl⟩, none, rfl⟩

/-- A position is taken literally by every endpoint exactly when it is plain. -/
theorem resume_position_honest_iff (s : String) : HonestPosition s ↔ PlainPosition s := by
  constructor
  · intro h
    by_contra hplain
    simp only [PlainPosition, not_or, not_exists, not_forall, not_not] at hplain
    obtain ⟨hne, hdigits, n, hmax, hvalue⟩ := hplain
    have hadmitted : admitted s = some (some n) := by
      rw [admitted, if_neg hne, safeInteger?_eq_some.mpr ⟨JsNumber.ofText_eq_finite.mpr hvalue, hmax⟩,
        Option.map_some]
    obtain ⟨table, cursor, hcursor⟩ := exists_table_of_position n
    have hopens := (reads_pageQuery s table (pageBehind s) cursor (carries_pageBehind s)).mpr
      ⟨valid_pageBehind s, some n, hadmitted, hcursor⟩
    cases h.page.refuses table _ cursor (carries_pageBehind s) hopens with
    | absent habsent => exact hne habsent
    | start hzero => exact hdigits 0 hzero
    | event he hid => exact hdigits _ hid
  · intro hplain
    refine ⟨takenLiterally_of_reads (reads_pageQuery s) hplain,
      takenLiterally_of_reads (reads_streamQuery s) hplain,
      takenLiterally_of_reads (reads_streamHeader s) hplain, fun table request cursor hcarries hopens => ?_⟩
    obtain ⟨-, afterId, -, hafter, -⟩ := streamCursor_eq_ok.mp hopens
    rw [hcarries, parseAfterId_eq_ok, admitted] at hafter
    split at hafter
    · rename_i hempty
      exact .inl hempty
    · rename_i hne
      obtain ⟨n, hn, -⟩ := Option.map_eq_some_iff.mp hafter
      exact .inr ⟨n, le_maxEventId_of_safeInteger? hn, denotes_of_plain hplain hn hne⟩

/-- A blank position replays the history, on every table. -/
theorem blank_position_replays :
    (∀ table, pageCursor table (pageBehind " ") = .ok eventCursorStart) ∧ ¬HonestPosition " " := by
  have hadmitted : admitted " " = some (some 0) := by decide +kernel
  have hpage : ∀ table, pageCursor table (pageBehind " ") = .ok eventCursorStart := fun table =>
    (reads_pageQuery " " table (pageBehind " ") eventCursorStart (carries_pageBehind " ")).mpr
      ⟨valid_pageBehind " ", some 0, hadmitted, rfl⟩
  refine ⟨hpage, fun h => ?_⟩
  rcases h.page.replays .migrated _ (carries_pageBehind " ") (hpage .migrated) with hempty | hzero
  · exact absurd hempty (by decide)
  · cases hzero

end DurableRunner.Guarantees
