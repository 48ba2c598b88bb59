import DurableRunner.Sessions.Accepted
import DurableRunner.Sessions.Readings

/-! # The persisted lifecycle refines the transition table

No statement consults the table for the row it writes, so legality rests on the
WHERE clauses. They are enough for any rows the CHECK constraints admit.
-/
namespace DurableRunner.Guarantees
open Schema Operations Sessions TransitionSystem

theorem legal_of_transition {call : Call} {start instant checkedAt : Timestamp} {r r' : StepRow}
    (h : Transition start instant checkedAt r r' call) :
    r'.status = r.status ∨ r.status.isLegalStepTransition r'.status = true := by
  cases h with
  | claim hready _ _ _ _ hcols =>
    rw [hcols, hready]
    exact .inr rfl
  | renew _ hcols =>
    rw [hcols]
    exact .inl rfl
  | complete hlive hcols =>
    rw [hcols, (holdsLiveLease_iff.mp hlive).2.1]
    exact .inr rfl
  | fail hlive hcols =>
    rw [hcols, (holdsLiveLease_iff.mp hlive).2.1]
    dsimp only
    split
    · exact .inr rfl
    · exact .inr rfl
  | recover hrunning _ _ hcols =>
    rw [hcols, hrunning]
    dsimp only
    split
    · exact .inr rfl
    · exact .inr rfl
  | promote hwaiting _ hcols =>
    rw [hcols, hwaiting]
    exact .inr rfl

theorem source_of_transition {call : Call} {start instant checkedAt : Timestamp} {r r' : StepRow}
    (h : Transition start instant checkedAt r r' call) :
    r.status = .ready ∨ r.status = .running ∨ r.status = .retryWait := by
  cases h with
  | claim hready => exact .inl hready
  | renew hlive | complete hlive | fail hlive => exact .inr (.inl (holdsLiveLease_iff.mp hlive).2.1)
  | recover hrunning => exact .inr (.inl hrunning)
  | promote hwaiting => exact .inr (.inr hwaiting)

theorem not_transition_of_terminal {call : Call} {start instant checkedAt : Timestamp}
    {r r' : StepRow} (hterminal : r.status.isTerminalStepStatus = true) :
    ¬ Transition start instant checkedAt r r' call := by
  intro h
  rcases source_of_transition h with hstatus | hstatus | hstatus <;>
    (rw [hstatus] at hterminal; cases hterminal)

/-- A row that goes from RUNNING to READY has been recovered. -/
theorem recovered_of_transition {call : Call} {start instant checkedAt : Timestamp} {r r' : StepRow}
    (h : Transition start instant checkedAt r r' call) (hrunning : r.status = .running)
    (hready : r'.status = .ready) :
    call = .recoverExpiredSteps ∧ ∃ deadline, r.leaseExpiresAt = some deadline ∧
      deadline ≤ checkedAt := by
  cases h with
  | recover _ hdeadline hexpired _ => exact ⟨rfl, _, hdeadline, hexpired⟩
  | claim hready' =>
    rw [hrunning] at hready'
    cases hready'
  | promote hwaiting =>
    rw [hrunning] at hwaiting
    cases hwaiting
  | renew _ hcols =>
    rw [hcols, hrunning] at hready
    cases hready
  | complete _ hcols =>
    rw [hcols] at hready
    cases hready
  | fail _ hcols =>
    rw [hcols] at hready
    dsimp only at hready
    split at hready <;> cases hready

/-- A RETRY_WAIT row changes by promotion only. -/
theorem promoted_of_transition {call : Call} {start instant checkedAt : Timestamp} {r r' : StepRow}
    (h : Transition start instant checkedAt r r' call) (hwaiting : r.status = .retryWait) :
    call = .promoteDueRetries ∧ r.availableAt ≤ checkedAt ∧ r'.status = .ready := by
  cases h with
  | promote _ hdue hcols => exact ⟨rfl, hdue, by rw [hcols]⟩
  | claim hready =>
    rw [hwaiting] at hready
    cases hready
  | recover hrunning =>
    rw [hwaiting] at hrunning
    cases hrunning
  | renew hlive | complete hlive | fail hlive =>
    have hrunning := (holdsLiveLease_iff.mp hlive).2.1
    rw [hwaiting] at hrunning
    cases hrunning

def Frozen (id : StepId) (w u : World) : Prop :=
  u.steps.find? id = w.steps.find? id ∧ eventsOf u.events id = eventsOf w.events id

/-- The commit of the call that read the row's deadline or availability on the
database clock, at a value no earlier than the bound. -/
def CommitsAfter (w₀ w : World) (as : List Action) (a : Action) (call : Call)
    (bound : Timestamp) : Prop :=
  ∃ tx t reading, a = .commit tx ∧ w.txs tx = some t ∧ t.call = call ∧ bound ≤ reading ∧
    Sampled w₀ as tx reading

theorem CommitsAfter.le_clock {w₀ w : World} {as : List Action} {a : Action} {call : Call}
    {bound : Timestamp} (h : CommitsAfter w₀ w as a call bound)
    (hrun : run forwardStep w₀ as = some w) : bound ≤ w.clock := by
  obtain ⟨tx, t, reading, -, -, -, hle, hsampled⟩ := h
  exact hle.trans (hsampled.le_clock hrun)

theorem frozen_of_terminal {w₀ w u : World} (h₀ : w₀.Initial) (hreach : Reaches step w₀ w)
    {id : StepId} {r : StepRow} (hr : w.steps.find? id = some r)
    (hterminal : r.status.isTerminalStepStatus = true) (h : Reaches step w u) : Frozen id w u := by
  refine h.rec_tail (motive := Frozen id w) ⟨rfl, rfl⟩ fun v a v' hv ih hstep => ?_
  have hexplained := AllExplained.reaches h₀ (hreach.trans hv)
  obtain ⟨hrow, hevents⟩ := ih
  rcases step_row_cases hexplained hstep id with ⟨hrow', hevents'⟩ |
    ⟨tx, t, d, inserted, ch, -, -, -, -, hbefore, -, htransition⟩
  · exact ⟨hrow'.trans hrow, hevents'.trans hevents⟩
  · rw [hrow, hr] at hbefore
    obtain rfl := Option.some.inj hbefore
    exact absurd htransition (not_transition_of_terminal hterminal)

/-- Whatever the initial rows, every committed change of a status is legal from the
status the row had, PENDING and CANCELLED rows never change, only the recovery
of an expired lease makes a RUNNING row READY, a RETRY_WAIT row changes only by
promotion once available, and terminal rows are frozen with their events. -/
theorem lifecycle_refines_transition_table {w₀ w w' : World} (h₀ : w₀.Initial) {as : List Action}
    (hrun : run step w₀ as = some w) {a : Action} (hstep : step w a = some w') {id : StepId}
    {r : StepRow} (hr : w.steps.find? id = some r) :
    ∃ r', w'.steps.find? id = some r' ∧
      (r'.status ≠ r.status → r.status.isLegalStepTransition r'.status = true) ∧
      (r.status = .pending ∨ r.status = .cancelled → r' = r) ∧
      (r.status = .running → r'.status = .ready → ∃ deadline, r.leaseExpiresAt = some deadline ∧
        CommitsAfter w₀ w as a .recoverExpiredSteps deadline ∧
        (run forwardStep w₀ as = some w → deadline ≤ w.clock)) ∧
      (r.status = .retryWait → r' ≠ r → r'.status = .ready ∧
        CommitsAfter w₀ w as a .promoteDueRetries r.availableAt ∧
        (run forwardStep w₀ as = some w → r.availableAt ≤ w.clock)) ∧
      (r.status.isTerminalStepStatus = true → ∀ u, Reaches step w u →
        u.steps.find? id = some r ∧ eventsOf u.events id = eventsOf w.events id) := by
  have hreach : Reaches step w₀ w := ⟨as, hrun⟩
  have hfrozen : r.status.isTerminalStepStatus = true → ∀ u, Reaches step w u →
      u.steps.find? id = some r ∧ eventsOf u.events id = eventsOf w.events id := by
    intro hterminal u hu
    obtain ⟨hrow, hevents⟩ := frozen_of_terminal h₀ hreach hr hterminal hu
    exact ⟨hrow.trans hr, hevents⟩
  rcases step_row_cases (AllExplained.reaches h₀ hreach) hstep id with ⟨hrow, -⟩ |
    ⟨tx, t, d, inserted, ch, rfl, ht, hphase, hch, hbefore, hafter, htransition⟩
  · refine ⟨r, hrow.trans hr, fun hne => absurd rfl hne, fun _ => rfl, fun hrunning hready => ?_,
      fun _ hne => absurd rfl hne, hfrozen⟩
    rw [hrunning] at hready
    cases hready
  · obtain rfl := Option.some.inj (hr.symm.trans hbefore)
    have hreading : ch.checkedAt ∈ t.phase.readings := by
      rw [hphase]
      exact List.mem_map_of_mem hch
    have hsampled := sampled_of_run h₀ hrun tx t ht _ hreading
    refine ⟨ch.after, hafter, fun hne => ?_, fun hstill => ?_, fun hrunning hready => ?_,
      fun hwaiting _ => ?_, hfrozen⟩
    · exact (legal_of_transition htransition).resolve_left hne
    · rcases source_of_transition htransition with hstatus | hstatus | hstatus <;>
        (rw [hstatus] at hstill; rcases hstill with hstill | hstill <;> cases hstill)
    · obtain ⟨hcall, deadline, hdeadline, hexpired⟩ :=
        recovered_of_transition htransition hrunning hready
      have hcommits : CommitsAfter w₀ w as (.commit tx) .recoverExpiredSteps deadline :=
        ⟨tx, t, ch.checkedAt, rfl, ht, hcall, hexpired, hsampled⟩
      exact ⟨deadline, hdeadline, hcommits, hcommits.le_clock⟩
    · obtain ⟨hcall, hdue, hready⟩ := promoted_of_transition htransition hwaiting
      have hcommits : CommitsAfter w₀ w as (.commit tx) .promoteDueRetries ch.before.availableAt :=
        ⟨tx, t, ch.checkedAt, rfl, ht, hcall, hdue, hsampled⟩
      exact ⟨hready, hcommits, hcommits.le_clock⟩

/-- A row as another program may have left it: not RUNNING, with an owner and an
expired deadline. -/
def staleRow (id : StepId) (status : StepStatus) (hstatus : status ≠ .running) : StepRow :=
  { StepRow.inserted id "hash_after_delay" .null 0 with
    status
    currentWorkerId := some "gone"
    leaseExpiresAt := some 1
    steps_running_requires_owner := .inl hstatus }

def staleSteps : StepsTable where
  rows := [staleRow 7 .retryWait nofun, staleRow 8 .cancelled nofun]
  nodup_keys := by decide

def promotionBeforeCommit : List Action :=
  .start .promoteDueRetries :: List.replicate 6 (.run 0)

theorem lifecycle_refines_transition_table_stale_rows :
    ∃ w w' r r', run step (.opening staleSteps 5) promotionBeforeCommit = some w ∧
      step w (.commit 0) = some w' ∧ w.steps.find? 7 = some r ∧ w'.steps.find? 7 = some r' ∧
      r'.status ≠ r.status ∧ r.status.isLegalStepTransition r'.status = true := by
  have hruns : (run step (.opening staleSteps 5) promotionBeforeCommit).any
      (fun w => (step w (.commit 0)).any fun w' => (w.steps.find? 7).any fun r =>
        (w'.steps.find? 7).any fun r' => r'.status ≠ r.status) = true := by
    decide +kernel
  obtain ⟨w, hw, hend⟩ := (Option.any_eq_true _ _).mp hruns
  obtain ⟨w', hw', hend⟩ := (Option.any_eq_true _ _).mp hend
  obtain ⟨r, hr, hend⟩ := (Option.any_eq_true _ _).mp hend
  obtain ⟨r', hr', hchanged⟩ := (Option.any_eq_true _ _).mp hend
  have hne : r'.status ≠ r.status := of_decide_eq_true hchanged
  obtain ⟨r'', hr'', hlegal, -⟩ :=
    lifecycle_refines_transition_table (World.initial_opening _ _) hw hw' hr
  obtain rfl := Option.some.inj (hr'.symm.trans hr'')
  exact ⟨w, w', r, r', hw, hw', hr, hr', hne, hlegal hne⟩

end DurableRunner.Guarantees
