import DurableRunner.Events.Client
import DurableRunner.Guarantees.WatermarkCursor

/-! # Reconnecting is transparent

A client that resumes by the last id it received sees one unbroken history,
over any mixture of streams and pages.
-/
namespace DurableRunner.Guarantees
open Schema Relational TransitionSystem Events

/-- The committed events the client asked for, in reading order. -/
def orderedHistory (log : EventLog) (stepId : Option StepId) : List EventRow :=
  log.ordered EventRow.xid EventRow.id (matchesStep stepId)

/-- What the client is owed, with `rows` the stored events it received. -/
structure Transparent (stepId : Option StepId) (s : ClientSession) (rows : List EventRow) : Prop where
  received : s.received = rows.map toStepEvent
  isPrefix : rows <+: orderedHistory s.log stepId
  resolves : ∀ e ∈ rows, resolveEventCursor s.log e.id = some (position e)
  accepted : s.rejections = []

def Continues (stepId : Option StepId) (rows ahead : List EventRow) : Connection → Prop
  | .idle => ahead = []
  | .streaming state sent =>
    state.stepId = stepId ∧ sent = ahead.map toStepEvent ∧
      state.cursor = cursorAfter eventCursorStart (rows ++ ahead)
  | .paging state =>
    ahead = [] ∧ state.stepId = stepId ∧ state.cursor = cursorAfter eventCursorStart rows
  | .answered body => body.events = ahead.map toStepEvent

/-- The invariant of a resuming client: `rows` are received, `ahead` is on its way. -/
structure Resumed (stepId : Option StepId) (s : ClientSession) (rows ahead : List EventRow) : Prop where
  sound : CommitLog.Sound EventRow.xid EventRow.id s.log
  inRange : CommitLog.InRange EventRow.id 1 maxEventId s.log
  received : s.received = rows.map toStepEvent
  abreast : CommitLog.Abreast EventRow.xid EventRow.id s.log (matchesStep stepId)
    (cursorAfter eventCursorStart (rows ++ ahead)).key (rows ++ ahead)
  continues : Continues stepId rows ahead s.connection
  accepted : s.rejections = []

/-- A committed event is found under its id. -/
theorem resolve_of_committed {log : EventLog} (hsound : CommitLog.Sound EventRow.xid EventRow.id log)
    (hrange : CommitLog.InRange EventRow.id 1 maxEventId log) {e : EventRow}
    (he : e ∈ log.committed) : resolveEventCursor log e.id = some (position e) := by
  have hpos : ¬ (e.id : ℤ) ≤ 0 := by
    have hmin := (hrange.rows e (List.mem_append_left _ he)).1
    omega
  have hfind : log.committed.find? (fun row => (row.id : ℤ) = e.id) = some e := by
    obtain ⟨found, hfound⟩ : ∃ found, log.committed.find? (fun row => (row.id : ℤ) = e.id) = some found :=
      Option.isSome_iff_exists.mp (List.find?_isSome.mpr ⟨e, he, by simp⟩)
    have hsame : found.id = e.id := by simpa using List.find?_some hfound
    have hnodup : (log.committed.map EventRow.id).Nodup := hsound.distinct.sublist (by simp)
    rw [hfound, List.inj_on_of_nodup_map hnodup (List.mem_of_find?_eq_some hfound) he hsame]
  rw [resolveEventCursor, if_neg hpos, hfind, Option.map_some]

/-- The server reads back the id it printed. -/
theorem safeInteger?_toString {n : ℕ} (h : n ≤ maxEventId) :
    safeInteger? (toString n) 0 none = some n := by
  have hlt : n < 2 ^ 53 := by
    unfold maxEventId at h
    omega
  exact safeInteger?_eq_some.mpr ⟨JsNumber.ofText_toString hlt, h⟩

/-- The last id of a client leads to its own position. -/
theorem cursorFor_last {log : EventLog} (hsound : CommitLog.Sound EventRow.xid EventRow.id log)
    (hrange : CommitLog.InRange EventRow.id 1 maxEventId log) {rows : List EventRow}
    (hrows : ∀ e ∈ rows, e ∈ log.committed) :
    cursorFor log (rows.getLast?.map EventRow.id) = .ok (cursorAfter eventCursorStart rows) := by
  cases hlast : rows.getLast? with
  | none => simp [cursorFor, cursorAfter, hlast]
  | some e =>
    have he := hrows e (List.mem_of_getLast? hlast)
    have hmin := (hrange.rows e (List.mem_append_left _ he)).1
    have hne : e.id ≠ 0 := Nat.ne_of_gt hmin
    simp only [Option.map_some, cursorFor, hne, if_false, resolve_of_committed hsound hrange he]
    simp [cursorAfter, hlast]

theorem parseAfterId_toString {n : ℕ} (hn : n ≤ maxEventId) :
    parseAfterId (some (.one (toString n))) = .ok (some n) := by
  have hgiven : given (some (.one (toString n))) = some (.one (toString n)) :=
    Option.filter_some_pos (by simp)
  rw [parseAfterId, hgiven]
  simp only [QueryValue.text, safeInteger?_toString hn]

theorem resumeId_toString {n : ℕ} (hn : n ≤ maxEventId) (afterId : Option ℕ) :
    resumeId (some (.one (toString n))) afterId = .ok (some n) := by
  have hgiven : (some (toString n)).filter (· ≠ "") = some (toString n) :=
    Option.filter_some_pos (by simp)
  have hfirst : (some (HeaderValue.one (toString n))).bind HeaderValue.first? = some (toString n) :=
    rfl
  rw [resumeId, hfirst, hgiven]
  simp only [safeInteger?_toString hn]

theorem parseAfterId_of_absent {value : Option QueryValue} (h : given value = none) :
    parseAfterId value = .ok none := by
  rw [parseAfterId, h]

theorem resumeId_of_absent {header : Option HeaderValue} {afterId : Option ℕ}
    (h : (header.bind HeaderValue.first?).filter (· ≠ "") = none) :
    resumeId header afterId = .ok afterId := by
  rw [resumeId, h]

/-- Where a resuming request makes each endpoint continue. -/
theorem resume_parts {stepIdQuery : Option QueryValue} {s : ClientSession} {endpoint : Endpoint}
    {request : EventsRequest} (hids : ∀ e ∈ s.received, e.id ≤ maxEventId)
    (h : resumes stepIdQuery s (.request endpoint request) = true) :
    request.stepId = stepIdQuery ∧ (∃ limit, parseLimit request.limit endpoint.maxLimit = .ok limit) ∧
      ∃ afterId, parseAfterId request.afterId = .ok afterId ∧
        match endpoint with
        | .stream => resumeId request.lastEventId afterId = .ok (s.received.getLast?.map StepEvent.id)
        | .page => afterId = s.received.getLast?.map StepEvent.id := by
  simp only [resumes, EventsRequest.keepsFilter, Bool.and_eq_true, decide_eq_true_eq] at h
  obtain ⟨⟨hfilter, hlimit⟩, hlast⟩ := h
  refine ⟨hfilter, ?_, ?_⟩
  · cases hparse : parseLimit request.limit endpoint.maxLimit with
    | ok limit => exact ⟨limit, rfl⟩
    | error e => simp [hparse, Except.isOk, Except.toBool] at hlimit
  · cases hreceived : s.received.getLast? with
    | none =>
      simp only [lastId, hreceived, Option.map_none, EventsRequest.fromStart, Bool.and_eq_true,
        decide_eq_true_eq] at hlast
      refine ⟨none, parseAfterId_of_absent hlast.1, ?_⟩
      cases endpoint with
      | stream => exact resumeId_of_absent hlast.2
      | page => rfl
    | some e =>
      have he := hids e (List.mem_of_getLast? hreceived)
      simp only [lastId, hreceived, Option.map_some] at hlast
      cases endpoint with
      | stream =>
        simp only [Bool.or_eq_true, Bool.and_eq_true, decide_eq_true_eq] at hlast
        rcases hlast with ⟨hheader, hafter⟩ | ⟨hheader, hafter⟩
        · cases hparse : parseAfterId request.afterId with
          | ok afterId =>
            rw [hheader]
            exact ⟨afterId, rfl, resumeId_toString he afterId⟩
          | error e => simp [hparse, Except.isOk, Except.toBool] at hafter
        · rw [hheader, hafter]
          exact ⟨some e.id, parseAfterId_toString he, resumeId_of_absent rfl⟩
      | page =>
        rw [of_decide_eq_true hlast]
        exact ⟨some e.id, parseAfterId_toString he, rfl⟩

/-- No resuming request is rejected, and it continues where the client stands. -/
theorem accept_of_resumes {stepIdQuery : Option QueryValue} {stepId : Option StepId}
    {s : ClientSession} {rows ahead : List EventRow} {endpoint : Endpoint} {request : EventsRequest}
    (hfilter : parseStepId stepIdQuery = .ok stepId) (hs : Resumed stepId s rows ahead)
    (h : resumes stepIdQuery s (.request endpoint request) = true) :
    ∃ connection, accept s.log request endpoint = .ok connection ∧
      Continues stepId rows [] connection := by
  have hcommitted : ∀ e ∈ rows, e ∈ s.log.committed := fun e he =>
    ((hs.abreast.complete e).mp (List.mem_append_left _ he)).1
  have hids : ∀ e ∈ s.received, e.id ≤ maxEventId := by
    rw [hs.received]
    intro e he
    obtain ⟨row, hrow, rfl⟩ := List.mem_map.mp he
    exact (hs.inRange.rows row (List.mem_append_left _ (hcommitted row hrow))).2
  have hlast : s.received.getLast?.map StepEvent.id = rows.getLast?.map EventRow.id := by
    rw [hs.received, List.getLast?_map, Option.map_map]
    rfl
  have hcursor := cursorFor_last hs.sound hs.inRange hcommitted
  obtain ⟨hsame, ⟨limit, hlimit⟩, afterId, hafter, htarget⟩ := resume_parts hids h
  rw [hlast] at htarget
  have hquery : parseQuery request endpoint.maxLimit = .ok ⟨afterId, stepId, limit⟩ :=
    parseQuery_eq_ok.mpr ⟨hafter, hsame ▸ hfilter, hlimit⟩
  cases endpoint with
  | stream =>
    refine ⟨.streaming ⟨stepId, cursorAfter eventCursorStart rows⟩ [], ?_, rfl, rfl, by simp⟩
    simp only [Endpoint.maxLimit] at hquery
    simp only [accept, openStream, hquery, htarget, hcursor, bind, Except.bind, pure, Except.pure,
      Except.map]
  | page =>
    refine ⟨.paging ⟨stepId, cursorAfter eventCursorStart rows, afterId,
      limit.getD defaultEventPageSize⟩, ?_, rfl, rfl, rfl⟩
    simp only [Endpoint.maxLimit] at hquery
    rw [← htarget] at hcursor
    simp only [accept, openPage, hquery, hcursor, bind, Except.bind, pure, Except.pure, Except.map]

theorem inRange_migrated : CommitLog.InRange EventRow.id 1 maxEventId EventLog.migrated where
  next := le_refl 1
  rows r hr := by cases hr

theorem Resumed.start (stepId : Option StepId) : Resumed stepId .start [] [] where
  sound := sound_migrated
  inRange := inRange_migrated
  received := rfl
  abreast := .first sound_migrated
  continues := rfl
  accepted := rfl

theorem Resumed.drop {stepId : Option StepId} {s : ClientSession} {rows ahead : List EventRow}
    {connection : Connection} (h : Resumed stepId s rows ahead)
    (hconnection : Continues stepId rows [] connection) :
    Resumed stepId { s with connection } rows [] where
  sound := h.sound
  inRange := h.inRange
  received := h.received
  abreast := by
    rw [List.append_nil, key_cursorAfter]
    exact h.abreast.back h.sound
  continues := hconnection
  accepted := h.accepted

/-- A listing behind the client's position extends what is on its way. -/
theorem Resumed.list {stepId : Option StepId} {s : ClientSession}
    {rows ahead page : List EventRow} {connection : Connection} (h : Resumed stepId s rows ahead)
    (hpage : page <+: s.log.visible EventRow.xid EventRow.id (matchesStep stepId)
      (cursorAfter eventCursorStart (rows ++ ahead)).key)
    (hconnection : Continues stepId rows (ahead ++ page) connection) :
    Resumed stepId { s with connection } rows (ahead ++ page) where
  sound := h.sound
  inRange := h.inRange
  received := h.received
  abreast := by
    rw [← List.append_assoc, ← cursorAfter_append, key_cursorAfter]
    exact h.abreast.append h.sound hpage
  continues := hconnection
  accepted := h.accepted

theorem Resumed.receive {stepId : Option StepId} {s : ClientSession}
    {rows front ahead : List EventRow} {connection : Connection}
    (h : Resumed stepId s rows (front ++ ahead))
    (hconnection : Continues stepId (rows ++ front) ahead connection) :
    Resumed stepId { s with connection, received := s.received ++ front.map toStepEvent }
      (rows ++ front) ahead where
  sound := h.sound
  inRange := h.inRange
  received := by simp [h.received]
  abreast := by
    rw [List.append_assoc]
    exact h.abreast
  continues := hconnection
  accepted := h.accepted

theorem Resumed.step {stepIdQuery : Option QueryValue} {stepId : Option StepId}
    {s s' : ClientSession} {a : ClientAction} {rows ahead : List EventRow}
    (hfilter : parseStepId stepIdQuery = .ok stepId) (h : Resumed stepId s rows ahead)
    (hstep : resumingStep stepIdQuery s a = some s') :
    ∃ rows' ahead', rows <+: rows' ∧ Resumed stepId s' rows' ahead' := by
  obtain ⟨hresumes, hstep⟩ := guarded_eq_some.mp hstep
  have hcontinues := h.continues
  cases a with
  | write a =>
    obtain ⟨log, hlog, rfl⟩ := Option.map_eq_some_iff.mp hstep
    exact ⟨rows, ahead, List.prefix_rfl, h.sound.write hlog, h.inRange.write hlog, h.received,
      h.abreast.settles (.write hlog), h.continues, h.accepted⟩
  | request endpoint request =>
    obtain ⟨connection, haccept, hconnection⟩ := accept_of_resumes hfilter h hresumes
    simp only [ClientSession.step, haccept] at hstep
    obtain rfl := Option.some.inj hstep
    exact ⟨rows, [], List.prefix_rfl, h.drop hconnection⟩
  | poll =>
    simp only [ClientSession.step] at hstep
    split at hstep
    · rename_i state sent hconnection
      rw [hconnection] at hcontinues
      obtain ⟨hstepId, hsent, hcursor⟩ := hcontinues
      unfold pollStream at hstep
      split at hstep
      · obtain rfl := Option.some.inj hstep
        exact ⟨rows, [], List.prefix_rfl, h.drop rfl⟩
      · rename_i frames state' hpoll
        obtain rfl := Option.some.inj hstep
        split at hpoll
        · cases hpoll
        · rename_i result hresult
          obtain ⟨page, hpage, rfl⟩ := page_of_listStepEvents hresult
          obtain ⟨rfl, rfl⟩ := Prod.mk.inj (Except.ok.inj hpoll)
          simp only [Option.getD_some, hcursor, hstepId] at hpage ⊢
          refine ⟨rows, ahead ++ page, List.prefix_rfl, h.list hpage ⟨rfl, by simp [hsent], ?_⟩⟩
          rw [← List.append_assoc]
          exact cursorAfter_append _ _ _
    · cases hstep
  | answer =>
    simp only [ClientSession.step] at hstep
    split at hstep
    · rename_i state hconnection
      rw [hconnection] at hcontinues
      obtain ⟨rfl, hstepId, hcursor⟩ := hcontinues
      unfold answerPage at hstep
      split at hstep
      · obtain rfl := Option.some.inj hstep
        exact ⟨rows, [], List.prefix_rfl, h.drop rfl⟩
      · rename_i body hanswer
        obtain rfl := Option.some.inj hstep
        split at hanswer
        · cases hanswer
        · rename_i result hresult
          obtain ⟨page, hpage, rfl⟩ := page_of_listStepEvents hresult
          obtain rfl := Except.ok.inj hanswer
          simp only [Option.getD_some, hcursor, hstepId] at hpage
          rw [← List.append_nil rows] at hpage
          exact ⟨rows, [] ++ page, List.prefix_rfl, h.list hpage rfl⟩
    · cases hstep
  | receive =>
    simp only [ClientSession.step] at hstep
    split at hstep
    · rename_i state frame sent hconnection
      rw [hconnection] at hcontinues
      obtain ⟨hstepId, hsent, hcursor⟩ := hcontinues
      obtain rfl := Option.some.inj hstep
      obtain ⟨e, ahead, rfl, rfl, rfl⟩ := List.map_eq_cons_iff.mp hsent.symm
      have hfront : Resumed stepId s rows ([e] ++ ahead) := h
      exact ⟨rows ++ [e], ahead, List.prefix_append _ _, hfront.receive ⟨hstepId, rfl, hcursor.trans (by simp)⟩⟩
    · rename_i body hconnection
      rw [hconnection] at hcontinues
      obtain rfl := Option.some.inj hstep
      have hbody : body.events = ahead.map toStepEvent := hcontinues
      rw [← List.append_nil ahead] at h
      rw [hbody]
      exact ⟨rows ++ ahead, [], List.prefix_append _ _, h.receive rfl⟩
    · cases hstep
  | cut =>
    obtain rfl := Option.some.inj hstep
    exact ⟨rows, [], List.prefix_rfl, h.drop rfl⟩

theorem Resumed.grows {stepIdQuery : Option QueryValue} {stepId : Option StepId} {s t : ClientSession}
    {rows ahead : List EventRow} (hfilter : parseStepId stepIdQuery = .ok stepId)
    (h : Resumed stepId s rows ahead) (hreach : Reaches (resumingStep stepIdQuery) s t) :
    ∃ rows' ahead', rows <+: rows' ∧ Resumed stepId t rows' ahead' := by
  refine hreach.rec_tail (motive := fun t => ∃ rows' ahead', rows <+: rows' ∧ Resumed stepId t rows' ahead')
    ⟨rows, ahead, List.prefix_rfl, h⟩ ?_
  rintro m a u - ⟨rows', ahead', hprefix, hm⟩ hstep
  obtain ⟨rows'', ahead'', hmore, hu⟩ := hm.step hfilter hstep
  exact ⟨rows'', ahead'', hprefix.trans hmore, hu⟩

theorem Resumed.reaches {stepIdQuery : Option QueryValue} {stepId : Option StepId}
    {s : ClientSession} (hfilter : parseStepId stepIdQuery = .ok stepId)
    (h : Reaches (resumingStep stepIdQuery) .start s) : ∃ rows ahead, Resumed stepId s rows ahead := by
  obtain ⟨rows, ahead, -, hs⟩ := (Resumed.start stepId).grows hfilter h
  exact ⟨rows, ahead, hs⟩

def threeEvents : List ClientAction :=
  [.write .begin, .write .begin, .write (.insert (sampleEvent 3 1)),
    .write (.insert (sampleEvent 4 2)), .write (.insert (sampleEvent 3 3)), .write (.commit 4),
    .write (.commit 3)]

/-- A stream cut after one frame, a stream resumed by the header, a page. -/
def cutStream : List ClientAction :=
  threeEvents ++
    [.request .stream { stepId := some (.one "00000000-0000-0000-0000-000000000007") }, .poll,
      .receive, .cut,
      .request .stream {
        stepId := some (.one "00000000-0000-0000-0000-000000000007")
        lastEventId := some (.one "1")
        afterId := some (.one "999") }, .poll, .receive, .cut,
      .request .page {
        stepId := some (.one "00000000-0000-0000-0000-000000000007")
        afterId := some (.one "3")
        limit := some (.one "5") }, .answer, .receive]

/-- The header of a stream does not excuse a malformed `afterId`. -/
def malformedAfterId : List ClientAction :=
  threeEvents ++ [.request .stream {}, .poll, .receive, .cut,
    .request .stream { lastEventId := some (.one "1"), afterId := some (.one "abc") }]

/-- A page request does not read the header. -/
def headerOnPage : List ClientAction :=
  threeEvents ++ [.request .stream {}, .poll, .receive, .cut,
    .request .page { lastEventId := some (.one "1") }, .answer, .receive]

end DurableRunner.Guarantees
