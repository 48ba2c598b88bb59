import DurableRunner.Events.BrowserPage
import DurableRunner.Guarantees.Reconnection
import DurableRunner.Guarantees.WireFormat

/-! # The page shows the history

However the stream is cut on its way to the browser, the page shows the newest
events of one unbroken history.
-/
namespace DurableRunner.Guarantees
open Schema Relational TransitionSystem Events Text
open EventStream (Reader Message Block)

section
variable (timestampText : Timestamp → String)

theorem onStepEvent_eventMessage (events : List PageEvent) (e : StepEvent) :
    onStepEvent events (eventMessage timestampText e) =
      (parsedEvent timestampText e :: events).take maxPageEvents := by
  have htype : (eventMessage timestampText e).eventType = stepEventType := rfl
  rw [onStepEvent, if_pos htype, parse_eventMessage]

def shown (received : List StepEvent) : List PageEvent :=
  (received.reverse.map (parsedEvent timestampText)).take maxPageEvents

theorem foldl_onStepEvent (received arriving : List StepEvent) :
    (arriving.map (eventMessage timestampText)).foldl onStepEvent (shown timestampText received) =
      shown timestampText (received ++ arriving) := by
  induction arriving generalizing received with
  | nil => simp
  | cons e arriving ih =>
    have hone : onStepEvent (shown timestampText received) (eventMessage timestampText e) =
        shown timestampText (received ++ [e]) := by
      rw [onStepEvent_eventMessage]
      simp [shown, maxPageEvents, List.take_take]
    rw [List.map_cons, List.foldl_cons, hone, ih, List.append_assoc]
    rfl

def idAfter (received : List StepEvent) : JsString :=
  Block.lastId [] (received.map (eventMessage timestampText))

theorem idAfter_append (received arriving : List StepEvent) :
    Block.lastId (idAfter timestampText received) (arriving.map (eventMessage timestampText)) =
      idAfter timestampText (received ++ arriving) := by
  rcases List.eq_nil_or_concat' arriving with rfl | ⟨front, last, rfl⟩
  · simp [Block.lastId]
  · simp [idAfter, Block.lastId, ← List.append_assoc]

/-- What the open connection of the page has in common with the client's. -/
def Carries (s : BrowserPage) (received : List StepEvent) : Connection → Prop
  | .idle => s.stream = none ∧ s.inFlight = []
  | .streaming state sent => s.stream = some state ∧ ∃ (pending : List Frame) (units : JsString) (time : Option ℕ),
      units ++ s.inFlight = pending.flatMap (Frame.units timestampText) ∧
      Block.Unfinished (pending.map (Frame.block timestampText)) units ∧
      s.reader = ((Reader.resting (idAfter timestampText received) time).feed units).1 ∧
      sent = pending.filterMap Frame.event?
  | _ => False

/-- The page is where a resuming client is. -/
structure Follows (s : BrowserPage) (c : ClientSession) : Prop where
  log : s.log = c.log
  rejections : s.rejections = c.rejections
  lastEventId : s.reader.lastEventId = idAfter timestampText c.received
  events : s.events = shown timestampText c.received
  connection : Carries timestampText s c.received c.connection

theorem Follows.start : Follows timestampText .start .start where
  log := rfl
  rejections := rfl
  lastEventId := rfl
  events := rfl
  connection := ⟨rfl, rfl⟩

variable {timestampText} {s : BrowserPage} {c : ClientSession}

theorem resumes_streamRequest (c : ClientSession) :
    resumes none c (.request .stream (streamRequest (idAfter timestampText c.received))) = true := by
  have hkeeps : ∀ id, (streamRequest id).keepsFilter none .stream = true := fun id => rfl
  rcases List.eq_nil_or_concat' c.received with hnil | ⟨front, last, hlast⟩
  · have hid : idAfter timestampText c.received = [] := by simp [idAfter, Block.lastId, hnil]
    have hlastId : lastId c = none := by simp [lastId, hnil]
    simp only [resumes, hid, hkeeps, hlastId, Bool.true_and]
    rfl
  · have hid : idAfter timestampText c.received = integerUnits last.id := by
      simp [idAfter, Block.lastId, hlast, eventMessage]
    have hafter : (parseAfterId (streamRequest (integerUnits last.id)).afterId).isOk = true := rfl
    have hheader : (streamRequest (integerUnits last.id)).lastEventId =
        some (.one (toString last.id)) := by
      rw [streamRequest, if_neg (integerUnits_ne_nil last.id), characters_integerUnits]
    have hlastId : lastId c = some (toString last.id) := by simp [lastId, hlast]
    simp only [resumes, hid, hkeeps, hlastId, hheader, hafter, decide_true, Bool.and_self,
      Bool.true_or]

theorem reaches_receive {state : StreamState} {arriving ahead : List StepEvent}
    (h : c.connection = .streaming state (arriving ++ ahead)) :
    Reaches (resumingStep none) c { c with
      connection := .streaming state ahead
      received := c.received ++ arriving } := by
  induction arriving generalizing c with
  | nil =>
    obtain ⟨log, connection, received, rejections⟩ := c
    obtain rfl : connection = .streaming state ahead := h
    simpa using Reaches.refl _
  | cons e arriving ih =>
    have hstep : resumingStep none c .receive = some { c with
        connection := .streaming state (arriving ++ ahead)
        received := c.received ++ [e] } := by
      refine guarded_eq_some.mpr ⟨rfl, ?_⟩
      simp [ClientSession.step, h]
    refine (Reaches.single hstep).trans ?_
    simpa using ih (c := { c with
      connection := .streaming state (arriving ++ ahead)
      received := c.received ++ [e] }) rfl

theorem Follows.idle (h : Follows timestampText s c) (hstream : s.stream = none) :
    s.inFlight = [] := by
  have hconnection := h.connection
  cases hc : c.connection with
  | idle => exact (hc ▸ hconnection).2
  | streaming state sent =>
    rw [hc] at hconnection
    exact absurd (hconnection.1.symm.trans hstream) (by simp)
  | paging state => exact (hc ▸ hconnection).elim
  | answered body => exact (hc ▸ hconnection).elim

theorem Follows.streaming (h : Follows timestampText s c) {stream : StreamState}
    (hstream : s.stream = some stream) : ∃ sent, c.connection = .streaming stream sent ∧
      Carries timestampText s c.received (.streaming stream sent) := by
  have hconnection := h.connection
  cases hc : c.connection with
  | idle => exact absurd (hstream.symm.trans (hc ▸ hconnection).1) (by simp)
  | streaming state sent =>
    rw [hc] at hconnection
    obtain rfl := Option.some.inj (hstream.symm.trans hconnection.1)
    exact ⟨sent, rfl, hconnection⟩
  | paging state => exact (hc ▸ hconnection).elim
  | answered body => exact (hc ▸ hconnection).elim

theorem Follows.connect {s' : BrowserPage} (h : Follows timestampText s c)
    (hstep : s.step timestampText .connect = some s') :
    ∃ c', Reaches (resumingStep none) c c' ∧ Follows timestampText s' c' := by
  have hresumes := @resumes_streamRequest timestampText c
  simp only [BrowserPage.step] at hstep
  split at hstep
  · cases hstep
  rename_i hopen
  have hstream : s.stream = none := by simpa using (not_or.mp hopen).1
  rw [h.lastEventId, h.log] at hstep
  split at hstep
  · rename_i e he
    obtain rfl := Option.some.inj hstep
    have hrequest : resumingStep none c (.request .stream (streamRequest (idAfter timestampText
        c.received))) = some { c with connection := .idle, rejections := c.rejections ++ [e] } := by
      refine guarded_eq_some.mpr ⟨hresumes, ?_⟩
      simp [ClientSession.step, accept, he, Except.map]
    exact ⟨_, .single hrequest, rfl, congrArg (· ++ [e]) h.rejections, h.lastEventId, h.events,
      hstream, h.idle hstream⟩
  · rename_i stream he
    obtain rfl := Option.some.inj hstep
    have hrequest : resumingStep none c (.request .stream (streamRequest (idAfter timestampText
        c.received))) = some { c with connection := .streaming stream [] } := by
      refine guarded_eq_some.mpr ⟨hresumes, ?_⟩
      simp [ClientSession.step, accept, he, Except.map]
    exact ⟨_, .single hrequest, rfl, h.rejections, rfl, h.events, rfl, [.connected], [],
      s.reader.fields.reconnectionTime, by simp, .inl rfl, rfl, rfl⟩

theorem Follows.poll {s' : BrowserPage} (h : Follows timestampText s c)
    (hstep : s.step timestampText .poll = some s') :
    ∃ c', Reaches (resumingStep none) c c' ∧ Follows timestampText s' c' := by
  simp only [BrowserPage.step] at hstep
  obtain ⟨stream, hstream, hstep⟩ := Option.bind_eq_some_iff.mp hstep
  obtain ⟨sent, hc, -, pending, units, time, hunits, hunfinished, hreader, hsent⟩ := h.streaming hstream
  obtain ⟨events, next, hpoll⟩ := exists_pollStream s.log stream
  rw [hpoll] at hstep
  obtain rfl := Option.some.inj hstep
  have hclient : resumingStep none c .poll =
      some { c with connection := .streaming next (sent ++ events) } := by
    refine guarded_eq_some.mpr ⟨rfl, ?_⟩
    simp [ClientSession.step, hc, ← h.log, hpoll]
  refine ⟨_, .single hclient, h.log, h.rejections, h.lastEventId, h.events, rfl,
    pending ++ pageFrames events, units, time, ?_, ?_, hreader, ?_⟩
  · rw [List.flatMap_append, ← List.append_assoc, hunits]
  · rw [List.map_append]
    exact hunfinished.append _
  · rw [List.filterMap_append, event?_pageFrames, hsent]

/-- A chunk completes some frames, and the client receives their events. -/
theorem Follows.deliver {n : ℕ} {s' : BrowserPage} (h : Follows timestampText s c)
    (hstep : s.step timestampText (.deliver n) = some s') :
    ∃ c', Reaches (resumingStep none) c c' ∧ Follows timestampText s' c' := by
  obtain rfl := Option.some.inj hstep
  cases hstream : s.stream with
  | none =>
    have hidle := h.idle hstream
    refine ⟨c, .refl c, h.log, h.rejections, ?_, ?_, ?_⟩
    · simpa [hidle] using h.lastEventId
    · simpa [hidle] using h.events
    · have hconnection := h.connection
      cases hc : c.connection <;> simp_all [Carries]
  | some stream =>
    obtain ⟨sent, hc, -, pending, units, time, hunits, hunfinished, hreader, hsent⟩ :=
      h.streaming hstream
    have hsplit : (units ++ s.inFlight.take n) ++ s.inFlight.drop n =
        pending.flatMap (Frame.units timestampText) := by
      rw [List.append_assoc, List.take_append_drop, hunits]
    have hfront : units ++ s.inFlight.take n <+:
        (pending.map (Frame.block timestampText)).flatMap Block.units :=
      ⟨_, hsplit.trans (flatMap_units timestampText pending)⟩
    obtain ⟨done, rest, units', hblocks, hdone, hunfinished', hfeed, hid⟩ :=
      Block.feed_cut hfront (idAfter timestampText c.received) time
    obtain ⟨arrived, ahead, rfl, rfl, rfl⟩ := List.map_eq_append_iff.mp hblocks
    have hsilent := hunfinished.feed (idAfter timestampText c.received) time
    rw [Reader.feed_append, ← hreader, hsilent.1, List.nil_append] at hfeed
    obtain ⟨hfeed, hmessages⟩ := Prod.mk.inj hfeed
    rw [messages_block] at hfeed hmessages hid
    rw [idAfter_append] at hfeed hid
    rw [Reader.feed_append, ← hreader] at hid
    rw [List.filterMap_append] at hsent
    refine ⟨_, reaches_receive (hc.trans (congrArg _ hsent)), h.log, h.rejections, hid, ?_, rfl,
      ahead, units', time, ?_, hunfinished', hfeed, rfl⟩
    · show (s.reader.feed (s.inFlight.take n)).2.foldl onStepEvent s.events = _
      rw [hmessages, h.events, foldl_onStepEvent]
    · rw [hdone, List.append_assoc, ← flatMap_units, List.flatMap_append] at hsplit
      exact List.append_cancel_left hsplit

theorem Follows.step {a : PageAction} {s' : BrowserPage} (h : Follows timestampText s c)
    (hstep : s.step timestampText a = some s') :
    ∃ c', Reaches (resumingStep none) c c' ∧ Follows timestampText s' c' := by
  cases a with
  | write a =>
    obtain ⟨log, hlog, rfl⟩ := Option.map_eq_some_iff.mp hstep
    have hwrite : resumingStep none c (.write a) = some { c with log } := by
      refine guarded_eq_some.mpr ⟨rfl, ?_⟩
      simp [ClientSession.step, ← h.log, hlog]
    exact ⟨_, .single hwrite, rfl, h.rejections, h.lastEventId, h.events, h.connection⟩
  | connect => exact h.connect hstep
  | connectFailed =>
    simp only [BrowserPage.step] at hstep
    split at hstep
    · cases hstep
    · obtain rfl := Option.some.inj hstep
      exact ⟨c, .refl c, h.log, h.rejections, h.lastEventId, h.events, h.connection⟩
  | poll => exact h.poll hstep
  | deliver n => exact h.deliver hstep
  | cut =>
    obtain rfl := Option.some.inj hstep
    have hcut : resumingStep none c .cut = some { c with connection := .idle } :=
      guarded_eq_some.mpr ⟨rfl, rfl⟩
    exact ⟨_, .single hcut, h.log, h.rejections, h.lastEventId, h.events, rfl, rfl⟩

theorem Follows.reaches (h : Reaches (BrowserPage.step timestampText) .start s) :
    ∃ c, Reaches (resumingStep none) .start c ∧ Follows timestampText s c :=
  h.simulated (fun _ _ _ _ hs hstep => hs.step hstep) (.start timestampText)

end

/-- What the page shows, with `rows` the stored events that reached it. -/
structure Shows (timestampText : Timestamp → String) (s : BrowserPage) (rows : List EventRow) :
    Prop where
  isPrefix : rows <+: orderedHistory s.log none
  events : s.events =
    (rows.reverse.map fun e => parsedEvent timestampText (toStepEvent e)).take maxPageEvents
  lastEventId : s.reader.lastEventId = (rows.getLast?.map fun e => integerUnits e.id).getD []
  accepted : s.rejections = []

def cutInsideEvent : List PageAction :=
  [.write .begin, .write (.insert (sampleEvent 3 1)), .write (.insert (sampleEvent 3 2)),
    .write (.commit 3), .connect, .poll, .deliver 40, .cut, .connect, .poll, .deliver 20,
    .deliver 250, .cut, .connect, .poll, .deliver 1000]

end DurableRunner.Guarantees
