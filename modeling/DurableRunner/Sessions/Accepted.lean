import DurableRunner.Sessions.Claims

/-! # The accepted operations on a step

A committed call is accepted on a row when it changed that row. What holds of a
row and the operations accepted on it is an induction on its life.
-/
namespace DurableRunner.Sessions
open Schema Operations TransitionSystem

def Commit.change? (c : Commit) (id : StepId) : Option Change :=
  c.decision.changes.find? fun ch => ch.before.id = id

/-- The accepted operations on one row, in commit order. -/
def acceptedOn (history : List Commit) (id : StepId) : List (Commit × Change) :=
  history.filterMap fun c => (c.change? id).map fun ch => (c, ch)

theorem acceptedOn_append (history later : List Commit) (id : StepId) :
    acceptedOn (history ++ later) id = acceptedOn history id ++ acceptedOn later id :=
  List.filterMap_append

theorem acceptedOn_concat (history : List Commit) (c : Commit) (id : StepId) :
    acceptedOn (history ++ [c]) id =
      acceptedOn history id ++ ((c.change? id).map fun ch => (c, ch)).toList := by
  rw [acceptedOn_append]
  cases hchange : c.change? id <;> simp [acceptedOn, hchange]

theorem mem_acceptedOn {history : List Commit} {id : StepId} {c : Commit} {ch : Change} :
    (c, ch) ∈ acceptedOn history id ↔ c ∈ history ∧ c.change? id = some ch := by
  simp [acceptedOn, List.mem_filterMap, Option.map_eq_some_iff]

theorem Commit.change?_eq_some {c : Commit} {id : StepId} {ch : Change} (h : c.change? id = some ch) :
    ch ∈ c.decision.changes ∧ ch.before.id = id :=
  ⟨List.mem_of_find?_eq_some h, by simpa using List.find?_some h⟩

/-- The row of a committed call: as it was, or the version the call made of it. -/
theorem Performs.change?_cases {steps : StepsTable} {c : Commit}
    (h : Performs steps c.call c.start c.decision) (id : StepId) :
    (c.change? id = none ∧
        (steps.setAll (c.decision.changes.map Change.after)).find? id = steps.find? id) ∨
      ∃ ch, c.change? id = some ch ∧ steps.find? id = some ch.before ∧
        (steps.setAll (c.decision.changes.map Change.after)).find? id = some ch.after ∧
        Transition c.start c.decision.instant ch.checkedAt ch.before ch.after c.call := by
  rcases h.find? id with ⟨hfind, hnone⟩ | ⟨ch, hch, hbefore, hafter, hone⟩
  · refine .inl ⟨?_, hfind⟩
    rw [Commit.change?, ← List.head?_filter, hnone]
    rfl
  · refine .inr ⟨ch, ?_, hbefore, hafter, h.transition hch⟩
    rw [Commit.change?, ← List.head?_filter, hone]
    rfl

theorem Performs.changes_eq {steps : StepsTable} {c : Commit}
    (h : Performs steps c.call c.start c.decision) (hlimit : c.call.limit = 1) {id : StepId}
    {ch : Change} (hch : c.change? id = some ch) : c.decision.changes = [ch] := by
  have hmem := (Commit.change?_eq_some hch).1
  have hbounded := h.bounded
  rw [hlimit] at hbounded
  obtain ⟨only, honly⟩ := List.length_eq_one_iff.mp
    (le_antisymm hbounded (List.length_pos_of_mem hmem))
  rw [honly, List.mem_singleton] at hmem
  rw [honly, hmem]

/-- The operations that lead from the inserted row to a later version of it. -/
inductive Life (r₀ : StepRow) : List (Commit × Change) → StepRow → Prop
  | nil : Life r₀ [] r₀
  | snoc {ops : List (Commit × Change)} {c : Commit} {ch : Change} (life : Life r₀ ops ch.before)
      (transition : Transition c.start c.decision.instant ch.checkedAt ch.before ch.after c.call) :
      Life r₀ (ops ++ [(c, ch)]) ch.after

/-- Every row has lived through the operations accepted on it. -/
theorem Serial.life {steps₀ steps : StepsTable} {events₀ events : List EventRow}
    {history : List Commit} (h : Serial steps₀ events₀ history steps events) {id : StepId}
    {r₀ : StepRow} (hr₀ : steps₀.find? id = some r₀) :
    ∃ r, steps.find? id = some r ∧ Life r₀ (acceptedOn history id) r := by
  induction h with
  | nil => exact ⟨r₀, hr₀, .nil⟩
  | @snoc history steps events c serial performs written ih =>
    obtain ⟨r, hr, hlife⟩ := ih
    rw [acceptedOn_concat]
    rcases performs.change?_cases id with ⟨hnone, hfind⟩ | ⟨ch, hsome, hbefore, hafter, htransition⟩
    · rw [hnone, hfind]
      exact ⟨r, hr, by simpa using hlife⟩
    · obtain rfl := Option.some.inj (hr.symm.trans hbefore)
      rw [hsome]
      exact ⟨ch.after, hafter, hlife.snoc htransition⟩

theorem Life.transition {r₀ r : StepRow} {ops : List (Commit × Change)} (h : Life r₀ ops r) :
    ∀ p ∈ ops, Transition p.1.start p.1.decision.instant p.2.checkedAt p.2.before p.2.after
      p.1.call := by
  induction h with
  | nil => simp
  | snoc life transition ih =>
    intro p hp
    rcases List.mem_append.mp hp with hp | hp
    · exact ih p hp
    · obtain rfl := List.mem_singleton.mp hp
      exact transition

theorem Serial.eventsOf_accepted {steps₀ steps : StepsTable} {events₀ events : List EventRow}
    {history : List Commit} (h : Serial steps₀ events₀ history steps events) (id : StepId) :
    eventsOf events id = eventsOf events₀ id ++
      (acceptedOn history id).flatMap fun p => (p.1.call.event p.2.before p.2.after).toList := by
  induction h with
  | nil => simp [acceptedOn]
  | @snoc history steps events c serial performs written ih =>
    have hevents : eventsOf c.events id =
        c.call.events (c.decision.changes.filter fun ch => ch.before.id = id) := by
      rw [eventsOf_eq_filter, ← written, performs.events_filter]
    rw [eventsOf_append, ih, hevents, acceptedOn_concat, Commit.change?, ← List.head?_filter]
    rcases performs.find? id with ⟨-, hnone⟩ | ⟨ch, -, -, -, hone⟩
    · simp [hnone, Call.events]
    · cases hevent : c.call.event ch.before ch.after <;> simp [hone, Call.events, hevent]

/-- What one step of the database does to one row and the operations accepted on it. -/
theorem acceptedOn_step {w w' : World} {a : Action} (hexplained : AllExplained w)
    (hstep : step w a = some w') (id : StepId) :
    (acceptedOn w'.history id = acceptedOn w.history id ∧ w'.steps.find? id = w.steps.find? id) ∨
      ∃ c ch, acceptedOn w'.history id = acceptedOn w.history id ++ [(c, ch)] ∧
        w.steps.find? id = some ch.before ∧ w'.steps.find? id = some ch.after ∧
        Performs w.steps c.call c.start c.decision ∧ ch ∈ c.decision.changes ∧
        w'.steps = w.steps.setAll (c.decision.changes.map Change.after) := by
  cases step_cases hstep with
  | @commit tx t d inserted ht hphase =>
    have hdone := hexplained tx t ht
    simp only [Explained, hphase] at hdone
    let c : Commit := ⟨tx, t.call, t.start, t.lockedAt, d, inserted, w.clock⟩
    have hperforms : Performs w.steps c.call c.start c.decision := hdone.1.performs
    have haccepted : acceptedOn (w.history ++ [c]) id =
        acceptedOn w.history id ++ ((c.change? id).map fun ch => (c, ch)).toList :=
      acceptedOn_concat _ _ _
    rcases hperforms.change?_cases id with ⟨hnone, hfind⟩ | ⟨ch, hsome, hbefore, hafter, -⟩
    · rw [hnone, Option.map_none, Option.toList_none, List.append_nil] at haccepted
      exact .inl ⟨haccepted, hfind⟩
    · rw [hsome, Option.map_some, Option.toList_some] at haccepted
      exact .inr ⟨c, ch, haccepted, hbefore, hafter, hperforms, (Commit.change?_eq_some hsome).1, rfl⟩
  | tick | start | rollback => exact .inl ⟨rfl, rfl⟩
  | run | lockRow | fault => exact .inl ⟨by rw [apply_history], by rw [apply_steps]⟩

/-- What one step of the database does to one row and its events: nothing, or one
committed transition. -/
theorem step_row_cases {w w' : World} {a : Action} (hexplained : AllExplained w)
    (hstep : step w a = some w') (id : StepId) :
    (w'.steps.find? id = w.steps.find? id ∧ eventsOf w'.events id = eventsOf w.events id) ∨
      ∃ tx t d inserted ch, a = .commit tx ∧ w.txs tx = some t ∧ t.phase = .done d inserted ∧
        ch ∈ d.changes ∧ w.steps.find? id = some ch.before ∧ w'.steps.find? id = some ch.after ∧
        Transition t.start d.instant ch.checkedAt ch.before ch.after t.call := by
  cases step_cases hstep with
  | @commit tx t d inserted ht hphase =>
    have hdone := hexplained tx t ht
    simp only [Explained, hphase] at hdone
    obtain ⟨hdecided, hwritten⟩ := hdone
    have hperforms := hdecided.performs
    rcases hperforms.find? id with ⟨hfind, hnone⟩ | ⟨ch, hch, hbefore, hafter, -⟩
    · refine .inl ⟨hfind, ?_⟩
      have hquiet : eventsOf inserted id = [] := by
        rw [eventsOf_eq_filter, ← hwritten, hperforms.events_filter, hnone]
        rfl
      show eventsOf (w.events ++ inserted) id = _
      rw [eventsOf_append, hquiet, List.append_nil]
    · exact .inr ⟨tx, t, d, inserted, ch, rfl, ht, hphase, hch, hbefore, hafter,
        hperforms.transition hch⟩
  | tick | start | rollback => exact .inl ⟨rfl, rfl⟩
  | run | lockRow | fault => exact .inl ⟨by simp, by simp⟩

end DurableRunner.Sessions
