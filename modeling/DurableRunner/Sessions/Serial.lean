import DurableRunner.Sessions.Explained
import DurableRunner.Operations.RowLife

/-! # Commit-order serializability

The committed tables of any interleaving are those of running the committed
transactions one after another in commit order. Projected to one row, that is a
run of the row machine.
-/
namespace DurableRunner.Sessions
open Schema Operations TransitionSystem

/-- Committed transactions run one after another, each as one indivisible step. -/
inductive Serial (steps₀ : StepsTable) (events₀ : List EventRow) :
    List Commit → StepsTable → List EventRow → Prop
  | nil : Serial steps₀ events₀ [] steps₀ events₀
  | snoc {history : List Commit} {steps : StepsTable} {events : List EventRow} {c : Commit}
      (serial : Serial steps₀ events₀ history steps events)
      (performs : Performs steps c.call c.start c.decision)
      (written : c.call.events c.decision.changes = c.events.map EventRow.toNewEvent) :
      Serial steps₀ events₀ (history ++ [c])
        (steps.setAll (c.decision.changes.map Change.after)) (events ++ c.events)

/-- Every run is serial in its commit order. -/
theorem serial_of_reaches {w₀ w : World} (h₀ : w₀.Initial) (h : Reaches step w₀ w) :
    Serial w₀.steps w₀.events w.history w.steps w.events := by
  have hstart : Serial w₀.steps w₀.events w₀.history w₀.steps w₀.events := by
    rw [h₀.noHistory]
    exact .nil
  refine h.rec_tail (motive := fun w => Serial w₀.steps w₀.events w.history w.steps w.events)
    hstart fun w a w' hreach ih hstep => ?_
  have hexplained := AllExplained.reaches h₀ hreach
  cases step_cases hstep with
  | tick clock => exact ih
  | start call hadmissible => exact ih
  | run ht hmove => simpa using ih
  | lockRow ht hcall hphase hpresent hfree => simpa using ih
  | fault ht => simpa using ih
  | rollback ht => exact ih
  | @commit tx t d inserted ht hphase =>
    have hd := hexplained tx t ht
    simp only [Explained, hphase] at hd
    let c : Commit := ⟨tx, t.call, t.start, t.lockedAt, d, inserted, w.clock⟩
    have performs : Performs w.steps c.call c.start c.decision := hd.1.performs
    exact ih.snoc performs hd.2

/-- Every committed call was one execution on some table and wrote the events it owed. -/
theorem Serial.performs {steps₀ steps : StepsTable} {events₀ events : List EventRow}
    {history : List Commit} (h : Serial steps₀ events₀ history steps events) :
    ∀ c ∈ history, (∃ before, Performs before c.call c.start c.decision) ∧
      c.call.events c.decision.changes = c.events.map EventRow.toNewEvent := by
  induction h with
  | nil => simp
  | snoc serial performs written ih =>
    intro c hc
    rcases List.mem_append.mp hc with hc | hc
    · exact ih c hc
    · obtain rfl := List.mem_singleton.mp hc
      exact ⟨⟨_, performs⟩, written⟩

theorem Serial.events_eq {steps₀ steps : StepsTable} {events₀ events : List EventRow}
    {history : List Commit} (h : Serial steps₀ events₀ history steps events) :
    events = events₀ ++ history.flatMap Commit.events := by
  induction h with
  | nil => simp
  | snoc serial performs written ih => simp [ih]

/-- What one execution of a call leaves of a row: nothing new, or the after
version of the only change with its id. -/
theorem Performs.find? {steps : StepsTable} {call : Call} {start : Timestamp} {d : Decision}
    (h : Performs steps call start d) (id : StepId) :
    ((steps.setAll (d.changes.map Change.after)).find? id = steps.find? id ∧
        d.changes.filter (fun c => c.before.id = id) = []) ∨
      ∃ c ∈ d.changes, steps.find? id = some c.before ∧
        (steps.setAll (d.changes.map Change.after)).find? id = some c.after ∧
        d.changes.filter (fun c => c.before.id = id) = [c] := by
  by_cases hid : id ∈ d.changes.map fun c => c.before.id
  · obtain ⟨c, hc, rfl⟩ := List.mem_map.mp hid
    have hcurrent := h.current c hc
    have hafter : c.after.id = c.before.id := h.after_id c hc
    refine .inr ⟨c, hc, hcurrent, ?_, ?_⟩
    · rw [← hafter] at hcurrent ⊢
      refine Relational.Table.find?_setAll_of_mem _ ?_ (List.mem_map_of_mem hc) hcurrent
      rw [h.after_ids]
      exact h.distinct
    · have hinj := List.inj_on_of_nodup_map h.distinct
      have hnodup : d.changes.Nodup := List.Nodup.of_map _ h.distinct
      have hfilter : d.changes.filter (fun x => x.before.id = c.before.id) =
          d.changes.filter (fun x => x = c) := by
        refine List.filter_congr fun x hx => ?_
        simp only [decide_eq_decide]
        exact ⟨fun e => hinj hx hc e, fun e => e ▸ rfl⟩
      rw [hfilter, List.filter_eq, List.count_eq_one_of_mem hnodup hc]
      rfl
  · refine .inl ⟨?_, ?_⟩
    · refine Relational.Table.find?_setAll_of_not_mem _ fun hmem => hid ?_
      rw [h.after_ids] at hmem
      exact hmem
    · rw [List.filter_eq_nil_iff]
      intro c hc e
      exact hid (List.mem_map.mpr ⟨c, hc, by simpa using e⟩)

theorem Performs.transition {steps : StepsTable} {call : Call} {start : Timestamp} {d : Decision}
    (h : Performs steps call start d) {c : Change} (hc : c ∈ d.changes) :
    Transition start d.instant c.checkedAt c.before c.after call :=
  transition_of_update (h.eligible c hc) (h.updated c hc)

theorem Performs.events_filter {steps : StepsTable} {call : Call} {start : Timestamp}
    {d : Decision} (h : Performs steps call start d) (id : StepId) :
    (call.events d.changes).filter (fun e => e.stepId = id) =
      call.events (d.changes.filter fun c => c.before.id = id) := by
  unfold Call.events
  rw [List.filter_filterMap, List.filterMap_filter]
  refine List.filterMap_congr fun c hc => ?_
  cases he : call.event c.before c.after with
  | none => simp
  | some e =>
    have hstepId := event_stepId (h.transition hc) he
    simp [Option.filter, hstepId]

def Commit.written (c : Commit) : List StepId := c.decision.changes.map fun ch => ch.before.id

def Commit.rowOps (c : Commit) (id : StepId) : List RowOp :=
  (c.decision.changes.filter fun ch => ch.before.id = id).map fun ch =>
    ⟨c.call, c.start, ch.checkedAt, c.decision.instant⟩

/-- The life of one row, in commit order. -/
def rowOps (history : List Commit) (id : StepId) : List RowOp :=
  history.flatMap fun c => c.rowOps id

def eventsOf (events : List EventRow) (id : StepId) : List NewEvent :=
  (events.filter fun e => e.stepId = id).map EventRow.toNewEvent

theorem eventsOf_append (es es' : List EventRow) (id : StepId) :
    eventsOf (es ++ es') id = eventsOf es id ++ eventsOf es' id := by
  simp [eventsOf]

theorem eventsOf_eq_filter (es : List EventRow) (id : StepId) :
    eventsOf es id = (es.map EventRow.toNewEvent).filter fun e => e.stepId = id := by
  rw [eventsOf, List.filter_map]
  rfl

/-- Projection of a serial history to one row. -/
theorem Serial.row {steps₀ steps : StepsTable} {events₀ events : List EventRow}
    {history : List Commit} (h : Serial steps₀ events₀ history steps events) {id : StepId}
    {r₀ : StepRow} (hr₀ : steps₀.find? id = some r₀) :
    ∃ r, steps.find? id = some r ∧
      run rowStep ⟨r₀, eventsOf events₀ id⟩ (rowOps history id) = some ⟨r, eventsOf events id⟩ := by
  induction h with
  | nil => exact ⟨r₀, hr₀, rfl⟩
  | @snoc history steps events c serial performs written ih =>
    obtain ⟨r, hr, hrun⟩ := ih
    have hops : rowOps (history ++ [c]) id = rowOps history id ++ c.rowOps id := by
      simp [rowOps]
    have hevents : eventsOf c.events id =
        c.call.events (c.decision.changes.filter fun ch => ch.before.id = id) := by
      rw [eventsOf_eq_filter, ← written, performs.events_filter]
    rw [hops, eventsOf_append, hevents, Commit.rowOps]
    rcases performs.find? id with ⟨hfind, hnone⟩ | ⟨ch, hch, hbefore, hafter, hone⟩
    · rw [hfind, hnone]
      exact ⟨r, hr, by simpa [Call.events] using hrun⟩
    · obtain rfl := Option.some.inj (hr.symm.trans hbefore)
      rw [hone]
      refine ⟨ch.after, hafter, ?_⟩
      rw [List.map_singleton, run_concat_eq_some]
      refine ⟨_, hrun, rowStep_eq_some.mpr
        ⟨performs.eligible ch hch, performs.updated ch hch, ?_⟩⟩
      cases he : c.call.event ch.before ch.after <;> simp [Call.events, he]

theorem Serial.absent {steps₀ steps : StepsTable} {events₀ events : List EventRow}
    {history : List Commit} (h : Serial steps₀ events₀ history steps events) {id : StepId}
    (habsent : steps₀.find? id = none) : steps.find? id = none := by
  induction h with
  | nil => exact habsent
  | snoc serial performs written ih =>
    rw [← Option.not_isSome_iff_eq_none, Relational.Table.find?_setAll_isSome, ih]
    simp

/-- Every reachable row is the result of a run of the row machine, and the
committed events of its step are the events of that run. -/
theorem row_of_reaches {w₀ w : World} (h₀ : w₀.Initial) (h : Reaches step w₀ w) {id : StepId}
    {r : StepRow} (hr : w.steps.find? id = some r) :
    ∃ r₀, w₀.steps.find? id = some r₀ ∧
      Reaches rowStep ⟨r₀, eventsOf w₀.events id⟩ ⟨r, eventsOf w.events id⟩ := by
  have hserial := serial_of_reaches h₀ h
  cases hrow : w₀.steps.find? id with
  | none =>
    rw [hserial.absent hrow] at hr
    cases hr
  | some r₀ =>
    obtain ⟨r', hr', hrun⟩ := hserial.row hrow
    obtain rfl := Option.some.inj (hr.symm.trans hr')
    exact ⟨r₀, rfl, _, hrun⟩

end DurableRunner.Sessions
