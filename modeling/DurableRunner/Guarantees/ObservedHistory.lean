import DurableRunner.Guarantees.DeliveryOrder
import DurableRunner.Guarantees.Reconnection
import DurableRunner.Sessions.EventWriters

/-! # The events API over the running step tables

Readers poll, and clients come back, while the calls of coordinator and workers
write the events they read.
-/
namespace DurableRunner.Guarantees
open Schema Relational TransitionSystem Events Sessions

/-- The committed events that a reader asks for, in delivery order. -/
def deliveredEvents (w : World) (stepId : Option StepId) : List EventRow :=
  (w.events.filter (matchesStep stepId)).insertionSort deliveryOrder

/-- No open transaction has an xid. -/
def NoWriter (w : World) : Prop := ∀ tx x, ¬Holds w tx x

section Tables
variable {w : World} {l : EventLog} {stepId : Option StepId}

theorem precedes_eq_deliveryOrder : CommitLog.Precedes EventRow.xid EventRow.id = deliveryOrder := by
  funext a b
  exact propext Prod.Lex.toLex_le_toLex

theorem orderedHistory_of_mirrors (h : Mirrors w l) : orderedHistory l stepId = deliveredEvents w stepId := by
  rw [orderedHistory, CommitLog.ordered, h.committed, deliveredEvents]
  congr!
  exact precedes_eq_deliveryOrder

/-- On a quiet table every committed event is below the watermark. -/
theorem xid_lt_xmin_of_quiet (h : Mirrors w l) (hquiet : NoWriter w) {e : EventRow} (he : e ∈ l.committed) :
    e.xid < l.xmin := by
  refine CommitLog.lt_xmin_iff.mpr ⟨(h.sound.committed e he).2.1, fun x hx => ?_⟩
  obtain ⟨tx, hheld⟩ := (h.running x).mp hx
  exact absurd hheld (hquiet tx x)

/-- A reader that has got all a quiet table shows it has got the whole history. -/
theorem eq_delivered_of_abreast {cursor : ℕ ×ₗ ℕ} {rows : List EventRow} (h : Mirrors w l)
    (hquiet : NoWriter w)
    (habreast : CommitLog.Abreast EventRow.xid EventRow.id l (matchesStep stepId) cursor rows) :
    rows ++ l.visible EventRow.xid EventRow.id (matchesStep stepId) cursor = deliveredEvents w stepId := by
  have hall := habreast.append h.sound List.prefix_rfl
  rw [← orderedHistory_of_mirrors h]
  refine (hall.isPrefix h.sound).eq_of_length_le ?_
  have hnodup : (orderedHistory l stepId).Nodup :=
    (h.sound.sorted_filter (matchesStep stepId)).imp fun {a b} hlt (hab : a = b) => (hab ▸ hlt).ne rfl
  refine (List.subperm_of_subset hnodup fun e he => ?_).length_le
  obtain ⟨hcommitted, hmatch⟩ := List.mem_filter.mp ((List.mem_insertionSort _).mp he)
  exact habreast.caught_up hcommitted hmatch (xid_lt_xmin_of_quiet h hquiet hcommitted)

end Tables

abbrev PollNotes := EventCursor × List (List StepEvent)

def polling (stepId : Option StepId) (table : EventLog) (notes : PollNotes) (limit : Option JsNumber) :
    Option PollNotes :=
  (Reading.step stepId ⟨table, notes.1, notes.2⟩ (.poll limit)).map fun s => (s.cursor, s.pages)

/-- What a client keeps: its connection, the events it received, and its rejections. -/
abbrev ClientNotes := Connection × List StepEvent × List BadRequest

def ClientNotes.session (notes : ClientNotes) (table : EventLog) : ClientSession :=
  ⟨table, notes.1, notes.2.1, notes.2.2⟩

def ClientNotes.ofSession (s : ClientSession) : ClientNotes := (s.connection, s.received, s.rejections)

/-- One action of a client that resumes by its last id, and of the server for it. -/
def resuming (stepIdQuery : Option QueryValue) (table : EventLog) (notes : ClientNotes) :
    ClientAction → Option ClientNotes
  | .write _ => none
  | a => (resumingStep stepIdQuery (notes.session table) a).map .ofSession

section Readers
variable {stepId : Option StepId} {stepIdQuery : Option QueryValue} {table table' : EventLog}

theorem pollStream_congr (h : SameSnapshot table table') : pollStream table = pollStream table' := by
  funext state
  simp only [pollStream, listStepEvents_congr h]

/-- A stream that finds nothing has nothing more to send. -/
theorem visible_of_pollStream_nil {state state' : StreamState}
    (h : pollStream table state = .ok ([], state')) :
    table.visible EventRow.xid EventRow.id (matchesStep state.stepId) state.cursor.key = [] := by
  unfold pollStream at h
  split at h
  · cases h
  · rename_i result hresult
    obtain ⟨n, hn, hpos, rfl⟩ := listStepEvents_eq_ok.mp hresult
    have hempty := List.map_eq_nil_iff.mp (congrArg Prod.fst (Except.ok.inj h))
    refine (List.take_eq_nil_iff.mp hempty).resolve_left ?_
    have hpage : 0 < maxEventPageSize := by decide
    omega

theorem polling_congr (h : SameSnapshot table table') : polling stepId table = polling stepId table' := by
  funext notes limit
  simp only [polling, Reading.step, Reading.options, listStepEvents_congr h]
  split <;> rfl

theorem reading_of_polling {s t : EventLog × PollNotes}
    (h : Reaches (observed EventLog.write (polling stepId)) s t) :
    Reaches (Reading.step stepId) ⟨s.1, s.2.1, s.2.2⟩ ⟨t.1, t.2.1, t.2.2⟩ := by
  refine h.rec_tail (motive := fun t => Reaches (Reading.step stepId) ⟨s.1, s.2.1, s.2.2⟩
    ⟨t.1, t.2.1, t.2.2⟩) (.refl _) fun m a u _ hm hstep => ?_
  cases a with
  | inl a =>
    obtain ⟨l, hl, rfl⟩ := Option.map_eq_some_iff.mp hstep
    exact hm.tail (a := .write a) (Option.map_eq_some_iff.mpr ⟨l, hl, rfl⟩)
  | inr limit =>
    obtain ⟨notes, hnotes, rfl⟩ := Option.map_eq_some_iff.mp hstep
    obtain ⟨r, hr, rfl⟩ := Option.map_eq_some_iff.mp hnotes
    have hlog : r.log = m.1 := by
      simp only [Reading.step] at hr
      split at hr <;> (obtain rfl := Option.some.inj hr; rfl)
    refine hm.tail (a := .poll limit) (hr.trans ?_)
    rw [← hlog]

/-- A client sees no more of the table than a snapshot shows. -/
theorem step_session_congr (h : SameSnapshot table table') (notes : ClientNotes) {a : ClientAction}
    (ha : ∀ write, a ≠ .write write) :
    ((notes.session table).step a).map ClientNotes.ofSession =
      ((notes.session table').step a).map ClientNotes.ofSession := by
  obtain ⟨connection, received, rejections⟩ := notes
  have hcursor : ∀ afterId, cursorFor table afterId = cursorFor table' afterId := fun afterId => by
    simp only [cursorFor, resolveEventCursor_congr h]
  cases a with
  | write a => exact absurd rfl (ha a)
  | request endpoint request =>
    have haccept : accept table request endpoint = accept table' request endpoint := by
      cases endpoint <;> simp only [accept, openStream, openPage, hcursor]
    simp only [ClientNotes.session, ClientSession.step, haccept]
    cases accept table' request endpoint <;> rfl
  | poll =>
    cases connection with
    | streaming state sent =>
      simp only [ClientNotes.session, ClientSession.step, pollStream_congr h]
      split <;> rfl
    | idle | paging | answered => rfl
  | answer =>
    cases connection with
    | paging state =>
      simp only [ClientNotes.session, ClientSession.step, answerPage, listStepEvents_congr h]
      split <;> rfl
    | idle | streaming | answered => rfl
  | receive =>
    cases connection with
    | streaming state sent => cases sent <;> rfl
    | idle | paging | answered => rfl
  | cut => rfl

theorem resuming_congr (h : SameSnapshot table table') :
    resuming stepIdQuery table = resuming stepIdQuery table' := by
  funext notes a
  have hresumes : resumes stepIdQuery (notes.session table) a = resumes stepIdQuery (notes.session table') a :=
    rfl
  by_cases ha : ∃ write, a = .write write
  · obtain ⟨write, rfl⟩ := ha
    rfl
  · have hstep := step_session_congr h notes fun write hwrite => ha ⟨write, hwrite⟩
    have hguarded : (resumingStep stepIdQuery (notes.session table) a).map ClientNotes.ofSession =
        (resumingStep stepIdQuery (notes.session table') a).map ClientNotes.ofSession := by
      unfold resumingStep guarded
      rw [hresumes]
      split
      · exact hstep
      · rfl
    cases a with
    | write a => exact absurd ⟨a, rfl⟩ ha
    | request | poll | answer | receive | cut => exact hguarded

theorem log_of_step {s s' : ClientSession} {a : ClientAction} (ha : ∀ write, a ≠ .write write)
    (h : s.step a = some s') : s'.log = s.log := by
  cases a with
  | write a => exact absurd rfl (ha a)
  | request endpoint request =>
    simp only [ClientSession.step] at h
    split at h <;> (obtain rfl := Option.some.inj h; rfl)
  | poll | answer =>
    simp only [ClientSession.step] at h
    split at h
    · split at h <;> (obtain rfl := Option.some.inj h; rfl)
    · cases h
  | receive =>
    simp only [ClientSession.step] at h
    split at h
    · obtain rfl := Option.some.inj h
      rfl
    · obtain rfl := Option.some.inj h
      rfl
    · cases h
  | cut =>
    obtain rfl := Option.some.inj h
    rfl

/-- What the client does with the log is what the session does. -/
theorem session_of_resuming {s t : EventLog × ClientNotes}
    (h : Reaches (observed EventLog.write (resuming stepIdQuery)) s t) :
    Reaches (resumingStep stepIdQuery) (s.2.session s.1) (t.2.session t.1) := by
  refine h.rec_tail (motive := fun t => Reaches (resumingStep stepIdQuery) (s.2.session s.1)
    (t.2.session t.1)) (.refl _) fun m a u _ hm hstep => ?_
  cases a with
  | inl a =>
    obtain ⟨l, hl, rfl⟩ := Option.map_eq_some_iff.mp hstep
    refine hm.tail (a := .write a) (guarded_eq_some.mpr ⟨rfl, ?_⟩)
    exact Option.map_eq_some_iff.mpr ⟨l, hl, rfl⟩
  | inr a =>
    obtain ⟨notes, hnotes, rfl⟩ := Option.map_eq_some_iff.mp hstep
    have hwrite : ∀ write, a ≠ .write write := by
      rintro write rfl
      cases hnotes
    obtain ⟨r, hr, rfl⟩ : ∃ r, resumingStep stepIdQuery (m.2.session m.1) a = some r ∧
        ClientNotes.ofSession r = notes := by
      cases a with
      | write a => exact absurd rfl (hwrite a)
      | request | poll | answer | receive | cut => exact Option.map_eq_some_iff.mp hnotes
    refine hm.tail (a := a) (hr.trans ?_)
    have hlog : r.log = m.1 := log_of_step hwrite (guarded_eq_some.mp hr).2
    rw [← hlog]
    rfl

end Readers

/-- What a reader has got that polls the running step tables, `rows` being the stored events
behind its pages. -/
structure PolledHistory (stepId : Option StepId) (s : World × PollNotes) (rows : List EventRow) : Prop where
  pages : s.2.2.flatten = rows.map toStepEvent
  /-- Nothing is ever delivered before or among these rows. -/
  final : ∀ t, Reaches (watched step (polling stepId)) s t → t.1.nextEventId ≤ maxEventId + 1 →
    rows <+: deliveredEvents t.1 stepId
  /-- On a quiet table a short page is the last one. -/
  complete : NoWriter s.1 → ∀ limit r,
    listStepEvents s.1.eventLog { after := some s.2.1, stepId, limit } = .ok r →
    r.events.length < effectiveLimit limit →
    s.2.2.flatten ++ r.events = (deliveredEvents s.1 stepId).map toStepEvent

/-- What a client has got that comes back to the running step tables. -/
structure FollowedHistory (stepIdQuery : Option QueryValue) (stepId : Option StepId)
    (s : World × ClientNotes) (rows : List EventRow) : Prop where
  received : s.2.2.1 = rows.map toStepEvent
  accepted : s.2.2.2 = []
  final : ∀ t, Reaches (watched step (resuming stepIdQuery)) s t → t.1.nextEventId ≤ maxEventId + 1 →
    rows <+: deliveredEvents t.1 stepId
  /-- On a quiet table a stream that finds nothing more has sent all there is. -/
  complete : NoWriter s.1 → ∀ state sent state', s.2.1 = .streaming state sent →
    pollStream s.1.eventLog state = .ok ([], state') →
    s.2.2.1 ++ sent = (deliveredEvents s.1 stepId).map toStepEvent

section Polls
variable {steps : StepsTable} {clock : Timestamp}

end Polls

/-- Two claims, of which the first one to write commits last. -/
def lateSlowClaim : List Action :=
  .start (.claimNextStep "slow" 30000) :: List.replicate 6 (.run 0) ++
    callAlone 1 (.claimNextStep "fast" 30000) 7

section Clients
variable {steps : StepsTable} {clock : Timestamp}

/-- Where no transaction picks a row behind its events, the delivery order of a step's events is
their commit order. -/
theorem deliveredEvents_of_orderly {Look Notes : Type*} {look : EventLog → Notes → Look → Option Notes}
    {notes : Notes} {s : World × Notes}
    (h : Reaches (watched orderlyStep look) (.opening steps clock, notes) s) (id : StepId) :
    deliveredEvents s.1 (some id) = committedEvents s.1 id := by
  have horderly := AllOrderly.reaches (World.initial_opening steps clock) rfl h.unobserved
  exact (horderly.deliveredInOrder id).1

end Clients

/-- A stream that opens before the late commit and is cut after one frame, and a page behind that
frame's id. -/
def claimsAndClient : List (Action ⊕ ClientAction) :=
  lateSlowClaim.map .inl ++
    [.inr (.request .stream {}), .inr .poll, .inl (.commit 0), .inr .poll, .inr .receive, .inr .cut,
      .inr (.request .page { afterId := some (.one "1") }), .inr .answer, .inr .receive]

end DurableRunner.Guarantees
