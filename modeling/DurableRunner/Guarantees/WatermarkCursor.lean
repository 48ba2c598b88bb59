import DurableRunner.Events.Listing
import DurableRunner.TransitionSystem.Runs

/-! # The watermark cursor loses nothing

A reader that pages through the history from `EVENT_CURSOR_START` while any
number of transactions append to it.
-/
namespace DurableRunner.Guarantees
open Schema Relational TransitionSystem Events

structure Reading where
  log : EventLog
  cursor : EventCursor
  /-- The returned pages, in order. -/
  pages : List (List StepEvent)

inductive ReadingAction where
  | write (a : Write EventRow)
  | poll (limit : Option JsNumber)

namespace Reading

def start : Reading := ⟨.migrated, eventCursorStart, []⟩

def options (s : Reading) (stepId : Option StepId) (limit : Option JsNumber) :
    ListStepEventsOptions where
  after := some s.cursor
  stepId := stepId
  limit := limit

/-- A writer acts, or the reader polls. A poll that throws returns no page. -/
def step (stepId : Option StepId) (s : Reading) : ReadingAction → Option Reading
  | .write a => (s.log.write a).map fun log => { s with log }
  | .poll limit =>
    match listStepEvents s.log (s.options stepId limit) with
    | .ok r => some { s with cursor := r.cursor, pages := s.pages ++ [r.events] }
    | .error _ => some s

end Reading

/-- The largest page a request can get. -/
def effectiveLimit (limit : Option JsNumber) : ℕ :=
  min (((limit.getD (.finite defaultEventPageSize)).toInt?.getD 0).toNat) maxEventPageSize

/-- What the reader is owed, with `rows` the stored events behind its pages. -/
structure Delivered (stepId : Option StepId) (s : Reading) (rows : List EventRow) : Prop where
  pages : s.pages.flatten = rows.map toStepEvent
  increasing : rows.Pairwise fun e e' => (position e).key < (position e').key
  distinct : (s.pages.flatten.map StepEvent.id).Nodup
  committed : ∀ e ∈ rows, e ∈ s.log.committed ∧ matchesStep stepId e = true
  complete : ∀ s', Reaches (Reading.step stepId) s s' → ∀ e ∈ s'.log.committed,
    matchesStep stepId e = true → (position e).key ≤ s.cursor.key → e ∈ rows
  caughtUp : ∀ limit r, listStepEvents s.log (s.options stepId limit) = .ok r →
    r.events.length < effectiveLimit limit → ∀ e ∈ s.log.committed, matchesStep stepId e = true →
      e.xid < s.log.xmin → toStepEvent e ∈ s.pages.flatten ++ r.events

theorem result_of_poll {s : Reading} {stepId : Option StepId} {limit : Option JsNumber}
    {r : ListStepEventsResult} (h : listStepEvents s.log (s.options stepId limit) = .ok r) :
    r = ⟨(pageRows s.log s.cursor stepId (effectiveLimit limit)).map toStepEvent,
      cursorAfter s.cursor (pageRows s.log s.cursor stepId (effectiveLimit limit))⟩ := by
  obtain ⟨n, hn, -, rfl⟩ := listStepEvents_eq_ok.mp h
  have hlimit : effectiveLimit limit = min n.toNat maxEventPageSize := by
    have hrequested : (limit.getD (.finite defaultEventPageSize)).toInt? = some n := hn
    rw [effectiveLimit, hrequested]
    rfl
  rw [hlimit]
  rfl

structure Abreast (stepId : Option StepId) (s : Reading) (rows : List EventRow) : Prop where
  sound : CommitLog.Sound EventRow.xid EventRow.id s.log
  abreast : CommitLog.Abreast EventRow.xid EventRow.id s.log (matchesStep stepId) s.cursor.key rows
  pages : s.pages.flatten = rows.map toStepEvent

theorem sound_migrated : CommitLog.Sound EventRow.xid EventRow.id EventLog.migrated :=
  .empty _ _ (by decide)

theorem Abreast.start (stepId : Option StepId) : Abreast stepId .start [] where
  sound := sound_migrated
  abreast := .first sound_migrated
  pages := rfl

theorem settles_of_step {stepId : Option StepId} {s s' : Reading} {a : ReadingAction}
    (h : Reading.step stepId s a = some s') : CommitLog.Settles EventRow.xid s.log s'.log := by
  cases a with
  | write a =>
    obtain ⟨log, hlog, rfl⟩ := Option.map_eq_some_iff.mp h
    exact .write hlog
  | poll limit =>
    simp only [Reading.step] at h
    split at h <;> (obtain rfl := Option.some.inj h; exact .refl _)

theorem settles_of_reaches {stepId : Option StepId} {s s' : Reading}
    (h : Reaches (Reading.step stepId) s s') : CommitLog.Settles EventRow.xid s.log s'.log :=
  h.relation (R := fun s s' => CommitLog.Settles EventRow.xid s.log s'.log)
    (fun s => .refl s.log) (fun _ _ _ => .trans) fun _ _ _ => settles_of_step

/-- A step appends what the reader receives. -/
theorem Abreast.step {stepId : Option StepId} {s s' : Reading} {rows : List EventRow}
    {a : ReadingAction} (h : Abreast stepId s rows) (hstep : Reading.step stepId s a = some s') :
    ∃ page, Abreast stepId s' (rows ++ page) := by
  cases a with
  | write a =>
    obtain ⟨log, hlog, rfl⟩ := Option.map_eq_some_iff.mp hstep
    refine ⟨[], h.sound.write hlog, ?_, ?_⟩
    · rw [List.append_nil]
      exact h.abreast.settles (.write hlog)
    · rw [List.append_nil]
      exact h.pages
  | poll limit =>
    simp only [Reading.step] at hstep
    split at hstep
    · rename_i r hr
      obtain rfl := Option.some.inj hstep
      obtain rfl := result_of_poll hr
      refine ⟨pageRows s.log s.cursor stepId (effectiveLimit limit), h.sound, ?_, ?_⟩
      · rw [key_cursorAfter]
        exact h.abreast.append h.sound (pageRows_isPrefix _ _ _ _)
      · simp [h.pages]
    · obtain rfl := Option.some.inj hstep
      refine ⟨[], ?_⟩
      rw [List.append_nil]
      exact h

theorem Abreast.grows {stepId : Option StepId} {s t : Reading} {rows : List EventRow}
    (h : Abreast stepId s rows) (hreach : Reaches (Reading.step stepId) s t) :
    ∃ more, Abreast stepId t (rows ++ more) := by
  refine hreach.rec_tail (motive := fun t => ∃ more, Abreast stepId t (rows ++ more))
    ⟨[], (List.append_nil rows).symm ▸ h⟩ ?_
  rintro m a u - ⟨more, hm⟩ hstep
  obtain ⟨page, hpage⟩ := hm.step hstep
  exact ⟨more ++ page, List.append_assoc rows more page ▸ hpage⟩

theorem Abreast.reaches {stepId : Option StepId} {s : Reading}
    (h : Reaches (Reading.step stepId) .start s) : ∃ rows, Abreast stepId s rows :=
  (Abreast.start stepId).grows h

/-- Events of one page sequence have different ids. -/
theorem Abreast.distinct {stepId : Option StepId} {s : Reading} {rows : List EventRow}
    (h : Abreast stepId s rows) : (s.pages.flatten.map StepEvent.id).Nodup := by
  rw [h.pages, List.map_map]
  refine List.Nodup.map_on (fun e he e' he' hid => ?_) ?_
  · have hnodup : (s.log.committed.map EventRow.id).Nodup := h.sound.distinct.sublist (by simp)
    exact List.inj_on_of_nodup_map hnodup ((h.abreast.complete e).mp he).1
      ((h.abreast.complete e').mp he').1 hid
  · exact h.abreast.sorted.imp fun {e e'} hlt (he : e = e') => (he ▸ hlt).ne rfl

/-- A page below its limit brings the reader up to the watermark. -/
theorem Abreast.caughtUp {stepId : Option StepId} {s : Reading} {rows : List EventRow}
    (h : Abreast stepId s rows) {limit : Option JsNumber} {r : ListStepEventsResult}
    (hr : listStepEvents s.log (s.options stepId limit) = .ok r)
    (hshort : r.events.length < effectiveLimit limit) {e : EventRow}
    (he : e ∈ s.log.committed) (hmatch : matchesStep stepId e = true) (hlt : e.xid < s.log.xmin) :
    toStepEvent e ∈ s.pages.flatten ++ r.events := by
  obtain rfl := result_of_poll hr
  rw [List.length_map] at hshort
  have hall := h.abreast.caught_up he hmatch hlt
  rw [← pageRows_of_short hshort] at hall
  rw [h.pages, ← List.map_append]
  exact List.mem_map_of_mem hall

def sampleEvent (xid id : ℕ) : EventRow where
  stepId := 7
  workerId := none
  eventType := .retryReady
  data := { leaseVersion := ⟨1, Int4.inRange_one⟩, attemptCount := ⟨1, Int4.inRange_one⟩ }
  id := id
  createdAt := 0
  xid := xid

/-- Transaction 3 inserts first and commits last; two polls in between find nothing. -/
def lateCommit : List ReadingAction :=
  [.write .begin, .write .begin, .write (.insert (sampleEvent 3 1)),
    .write (.insert (sampleEvent 4 2)), .write (.commit 4), .poll none,
    .write (.insert (sampleEvent 3 3)), .poll (some (.finite 1)), .write (.commit 3),
    .poll (some (.finite 2)), .poll none]

end DurableRunner.Guarantees
