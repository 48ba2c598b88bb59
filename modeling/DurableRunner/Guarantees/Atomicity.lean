import DurableRunner.Guarantees.Fencing
import DurableRunner.Sessions.Decisions

/-! # All-or-nothing operations

A transaction publishes nothing before COMMIT and cannot commit after an error.
COMMIT publishes exactly the rows the call changed and one event for each.
-/
namespace DurableRunner.Guarantees
open Schema Operations Sessions TransitionSystem

def writesEvents : Call → Bool
  | .renewStepLease _ _ | .lockRows => false
  | _ => true

/-- The reported outcome against the rows written and their new contents. -/
def Agrees (steps : StepsTable) (ids : List StepId) : Outcome → Prop
  | .claimed s => ids = [s.id] ∧ ∃ r, steps.find? s.id = some r ∧ r.currentWorkerId = s.workerId ∧
      r.leaseVersion = s.leaseVersion ∧ r.attemptCount = s.attemptCount ∧
      r.leaseExpiresAt = s.leaseExpiresAt ∧ r.priority = s.priority ∧
      r.availableAt = s.availableAt ∧ r.taskType = s.taskType ∧ r.payload = s.payload
  | .renewed deadline => ∃ id r, ids = [id] ∧ steps.find? id = some r ∧ r.leaseExpiresAt = deadline
  | .completed => ∃ id r, ids = [id] ∧ steps.find? id = some r ∧ r.status = .succeeded
  | .recorded status attemptCount leaseVersion availableAt _ =>
    ∃ id r, ids = [id] ∧ steps.find? id = some r ∧ r.status = status ∧
      r.attemptCount = attemptCount ∧ r.leaseVersion = leaseVersion ∧ r.availableAt = availableAt
  | .recovered listed => ids = listed.map RecoveredStep.id ∧
      ∀ s ∈ listed, ∃ r, steps.find? s.id = some r ∧ r.leaseVersion = s.leaseVersion ∧
        r.status = s.status
  | .promoted listed => ids = listed.map PromotedStep.id ∧
      ∀ s ∈ listed, ∃ r, steps.find? s.id = some r ∧ r.leaseVersion = s.leaseVersion ∧
        r.attemptCount = s.attemptCount
  | .notClaimed | .notRenewed | .completionConsistencyError | .notRecorded | .released => ids = []

/-- The whole effect of one COMMIT. -/
structure AllOrNothing (w : World) (c : Commit) (w' : World) : Prop where
  distinct : c.written.Nodup
  bounded : c.written.length ≤ c.call.limit
  untouched : ∀ id, id ∉ c.written → w'.steps.find? id = w.steps.find? id
  changed : writesEvents c.call = true → ∀ id ∈ c.written, w'.steps.find? id ≠ w.steps.find? id
  nothing : c.written = [] → w'.steps = w.steps ∧ w'.events = w.events
  appended : w'.events = w.events ++ c.events
  oneEvent : (c.events.map fun e => e.stepId) = if writesEvents c.call then c.written else []
  agrees : Agrees w'.steps c.written c.outcome

theorem status_ne_of_transition {call : Call} {start instant checkedAt : Timestamp} {r r' : StepRow}
    (h : Transition start instant checkedAt r r' call) (hcall : writesEvents call = true) :
    r'.status ≠ r.status := by
  cases h with
  | claim hready _ _ _ _ hcols => rw [hcols, hready]; simp
  | renew => cases hcall
  | complete hlive hcols => rw [hcols, (holdsLiveLease_iff.mp hlive).2.1]; simp
  | fail hlive hcols =>
    rw [hcols, (holdsLiveLease_iff.mp hlive).2.1]
    dsimp only
    split <;> simp
  | recover hrunning _ _ hcols =>
    rw [hcols, hrunning]
    dsimp only
    split <;> simp
  | promote hwaiting _ hcols => rw [hcols, hwaiting]; simp

/-- Every change of such an operation owes exactly one event, about its own row. -/
theorem event_of_transition {call : Call} {start instant checkedAt : Timestamp} {r r' : StepRow}
    (h : Transition start instant checkedAt r r' call) (hcall : writesEvents call = true) :
    ∃ e, call.event r r' = some e ∧ e.stepId = r.id := by
  obtain ⟨e, he⟩ : ∃ e, call.event r r' = some e := by
    cases call <;> first | exact ⟨_, rfl⟩ | cases hcall
  exact ⟨e, he, event_stepId h he⟩

theorem stepIds_of_events {call : Call} {start instant : Timestamp} {changes : List Change}
    (hcall : writesEvents call = true)
    (h : ∀ c ∈ changes, Transition start instant c.checkedAt c.before c.after call) :
    ((call.events changes).map fun e => e.stepId) = changes.map fun c => c.before.id := by
  induction changes with
  | nil => rfl
  | cons c changes ih =>
    obtain ⟨e, he, hid⟩ := event_of_transition (h c List.mem_cons_self) hcall
    have hrest := ih fun c hc => h c (List.mem_cons_of_mem _ hc)
    simp only [Call.events, List.filterMap_cons, he, List.map_cons, hid] at hrest ⊢
    rw [hrest]

theorem events_of_silent {call : Call} (hcall : writesEvents call = false) (changes : List Change) :
    call.events changes = [] := by
  cases call with
  | renewStepLease | lockRows => simp [Call.events, Call.event]
  | _ => cases hcall

section Effect
variable {steps : StepsTable} {call : Call} {start : Timestamp} {d : Decision}

/-- After COMMIT a changed row is its after version. -/
theorem find?_after (h : Performs steps call start d) {c : Change} (hc : c ∈ d.changes) :
    (steps.setAll (d.changes.map Change.after)).find? c.before.id = some c.after := by
  have hcurrent := h.current c hc
  rw [← h.after_id c hc] at hcurrent ⊢
  refine Relational.Table.find?_setAll_of_mem _ ?_ (List.mem_map_of_mem hc) hcurrent
  rw [h.after_ids]
  exact h.distinct

/-- A call that changes at most one row changes none or one. -/
theorem changes_of_limit_one (h : Performs steps call start d) (hlimit : call.limit = 1) :
    d.changes = [] ∨ ∃ c, d.changes = [c] := by
  have hbounded := h.bounded
  rw [hlimit] at hbounded
  rcases Nat.le_one_iff_eq_zero_or_eq_one.mp hbounded with hzero | hone
  · exact .inl (List.length_eq_zero_iff.mp hzero)
  · exact .inr (List.length_eq_one_iff.mp hone)

theorem agrees_of_performs (h : Performs steps call start d) :
    Agrees (steps.setAll (d.changes.map Change.after)) (d.changes.map fun c => c.before.id)
      (call.outcome d.instant d.changes) := by
  have hafter := fun c (hc : c ∈ d.changes) => find?_after h hc
  have hids := h.after_id
  have hlist := h.after_ids
  rw [List.map_map] at hlist
  cases call with
  | claimNextStep workerId ms =>
    rcases changes_of_limit_one h rfl with hnil | ⟨c, hone⟩
    · simp [hnil, Call.outcome, Agrees]
    · have hc : c ∈ d.changes := by simp [hone]
      have hfind := hafter c hc
      rw [← hids c hc] at hfind
      rw [hone] at hfind ⊢
      exact ⟨by simp [claimedStep, hids c hc], c.after, hfind, rfl, rfl, rfl, rfl, rfl, rfl, rfl, rfl⟩
  | renewStepLease cred ms =>
    rcases changes_of_limit_one h rfl with hnil | ⟨c, hone⟩
    · simp [hnil, Call.outcome, Agrees]
    · have hfind := hafter c (by simp [hone])
      rw [hone] at hfind ⊢
      exact ⟨c.before.id, c.after, rfl, hfind, rfl⟩
  | completeStepSuccess cred result =>
    rcases changes_of_limit_one h rfl with hnil | ⟨c, hone⟩
    · simp [hnil, Call.outcome, Agrees]
    · have hc : c ∈ d.changes := by simp [hone]
      have hfind := hafter c hc
      have htransition := h.transition hc
      rw [hone] at hfind ⊢
      refine ⟨c.before.id, c.after, rfl, hfind, ?_⟩
      cases htransition with
      | complete _ hcols => rw [hcols]
  | recordStepFailure cred error retryable =>
    rcases changes_of_limit_one h rfl with hnil | ⟨c, hone⟩
    · simp [hnil, Call.outcome, Agrees]
    · have hfind := hafter c (by simp [hone])
      rw [hone] at hfind ⊢
      exact ⟨c.before.id, c.after, rfl, hfind, rfl, rfl, rfl, rfl⟩
  | recoverExpiredSteps =>
    refine ⟨?_, fun s hs => ?_⟩
    · rw [List.map_map]
      exact hlist.symm
    · obtain ⟨c, hc, rfl⟩ := List.mem_map.mp hs
      have hfind := hafter c hc
      rw [← hids c hc] at hfind
      exact ⟨c.after, hfind, rfl, rfl⟩
  | promoteDueRetries =>
    refine ⟨?_, fun s hs => ?_⟩
    · rw [List.map_map]
      exact hlist.symm
    · obtain ⟨c, hc, rfl⟩ := List.mem_map.mp hs
      have hfind := hafter c hc
      rw [← hids c hc] at hfind
      exact ⟨c.after, hfind, rfl, rfl⟩
  | lockRows =>
    have hnil : d.changes = [] := List.eq_nil_iff_forall_not_mem.mpr fun c hc => by
      have heligible := h.eligible c hc
      cases heligible
    simp [hnil, Call.outcome, Agrees]

end Effect

theorem allOrNothing_of_publish {w : World} {tx : TxId} {t : Tx} {d : Decision}
    {inserted : List EventRow} (h : Performs w.steps t.call t.start d)
    (hwritten : t.call.events d.changes = inserted.map EventRow.toNewEvent) :
    AllOrNothing w ⟨tx, t.call, t.start, t.lockedAt, d, inserted, w.clock⟩
      (w.publish tx t d inserted) where
  distinct := h.distinct
  bounded := by
    rw [Commit.written, List.length_map]
    exact h.bounded
  untouched id hid := by
    refine Relational.Table.find?_setAll_of_not_mem _ fun hmem => hid ?_
    rw [h.after_ids] at hmem
    exact hmem
  changed hcall id hid := by
    obtain ⟨c, hc, rfl⟩ := List.mem_map.mp hid
    have hstatus := status_ne_of_transition (h.transition hc) hcall
    intro hsame
    have hafter := find?_after h hc
    rw [World.publish] at hsame
    rw [hafter, h.current c hc] at hsame
    rw [Option.some.inj hsame] at hstatus
    exact hstatus rfl
  nothing hnil := by
    have hchanges : d.changes = [] := List.map_eq_nil_iff.mp hnil
    have hinserted : inserted = [] := by
      simpa [hchanges, Call.events] using hwritten.symm
    simp [World.publish, hchanges, hinserted]
  appended := rfl
  oneEvent := by
    have hids : (inserted.map fun e => e.stepId) =
        (t.call.events d.changes).map fun e => e.stepId := by
      rw [hwritten, List.map_map]
      rfl
    show (inserted.map fun e => e.stepId) = _
    rw [hids]
    split
    · rename_i hcall
      exact stepIds_of_events hcall fun c hc => h.transition hc
    · rename_i hcall
      rw [events_of_silent (Bool.eq_false_iff.mpr hcall)]
      rfl
  agrees := agrees_of_performs h

/-- A transaction whose statement raised an error has not committed and will not. -/
structure Doomed (tx : TxId) (w : World) : Prop where
  aborted : ∀ t, w.txs tx = some t → ∃ e, t.phase = .aborted e
  numbered : tx < w.nextTx
  unpublished : ∀ c ∈ w.history, c.tx ≠ tx

theorem Doomed.step {tx : TxId} {w w' : World} {a : Action} (h : Doomed tx w)
    (hstep : Sessions.step w a = some w') : Doomed tx w' := by
  cases step_cases hstep with
  | tick clock => exact ⟨h.aborted, h.numbered, h.unpublished⟩
  | start call hadmissible =>
    refine ⟨fun t ht => ?_, Nat.lt_succ_of_lt h.numbered, h.unpublished⟩
    rcases begin_txs_cases ht with ⟨rfl, -⟩ | ⟨-, ht⟩
    · exact absurd h.numbered (lt_irrefl _)
    · exact h.aborted t ht
  | @run other t m ht hmove =>
    refine ⟨fun t' ht' => ?_, by simpa using h.numbered, by simpa using h.unpublished⟩
    rcases apply_txs_cases ht' with ⟨rfl, ht'⟩ | ⟨-, ht'⟩
    · obtain ⟨e, hphase⟩ := h.aborted t ht
      cases hmove <;> simp_all
    · exact h.aborted t' ht'
  | @lockRow other t id ht hcall hphase hpresent hfree =>
    refine ⟨fun t' ht' => ?_, by simpa using h.numbered, by simpa using h.unpublished⟩
    rcases apply_txs_cases ht' with ⟨rfl, ht'⟩ | ⟨-, ht'⟩
    · obtain ⟨e, haborted⟩ := h.aborted t ht
      rw [hphase] at haborted
      cases haborted
    · exact h.aborted t' ht'
  | @fault other t ht =>
    refine ⟨fun t' ht' => ?_, by simpa using h.numbered, by simpa using h.unpublished⟩
    rcases apply_txs_cases ht' with ⟨rfl, ht'⟩ | ⟨-, ht'⟩
    · obtain rfl := eq_of_enter ht'
      exact ⟨_, rfl⟩
    · exact h.aborted t' ht'
  | @rollback other t ht =>
    exact ⟨fun t' ht' => h.aborted t' (finish_txs_cases ht').2, h.numbered, h.unpublished⟩
  | @commit other t d inserted ht hphase =>
    have hother : tx ≠ other := fun e => by
      subst e
      obtain ⟨err, haborted⟩ := h.aborted t ht
      rw [hphase] at haborted
      cases haborted
    refine ⟨fun t' ht' => h.aborted t' (finish_txs_cases ht').2, h.numbered, fun c hc => ?_⟩
    rcases List.mem_append.mp hc with hc | hc
    · exact h.unpublished c hc
    · obtain rfl := List.mem_singleton.mp hc
      exact hother.symm

/-- Only COMMIT changes the contents of the two tables, a transaction that met an
error never commits, and COMMIT publishes exactly what the call reports. -/
theorem operations_all_or_nothing {w₀ w : World} (h₀ : w₀.Initial) (h : Reaches step w₀ w) :
    (∀ a w', step w a = some w' → (∀ tx, a ≠ .commit tx) →
      w'.steps = w.steps ∧ w'.events = w.events) ∧
    (∀ tx t e, w.txs tx = some t → t.phase = .aborted e →
      ∀ w', Reaches step w w' → ∀ c ∈ w'.history, c.tx ≠ tx) ∧
    ∀ tx t w', w.txs tx = some t → step w (.commit tx) = some w' →
      ∃ c, w'.history = w.history ++ [c] ∧ c.tx = tx ∧ c.call = t.call ∧ AllOrNothing w c w' := by
  refine ⟨fun a w' hstep ha => ?_, fun tx t e ht hphase w' hreach => ?_, fun tx t w' ht hstep => ?_⟩
  · obtain ⟨hsteps, hevents, -⟩ := step_unpublished hstep ha
    exact ⟨hsteps, hevents⟩
  · have hnumbered := (Numbered.reaches h₀ h).live tx (by simp [ht])
    have hdoomed : Doomed tx w := by
      refine ⟨fun t' ht' => ?_, hnumbered.1, hnumbered.2⟩
      obtain rfl := Option.some.inj (ht.symm.trans ht')
      exact ⟨e, hphase⟩
    exact (hreach.invariant (fun _ _ _ => Doomed.step) hdoomed).unpublished
  · cases step_cases hstep with
    | @commit _ t' d inserted ht' hphase =>
      obtain rfl := Option.some.inj (ht.symm.trans ht')
      have hexplained := AllExplained.reaches h₀ h tx t ht
      simp only [Explained, hphase] at hexplained
      exact ⟨_, rfl, rfl, rfl, allOrNothing_of_publish hexplained.1.performs hexplained.2⟩

def claimBeforeCommit : List Action :=
  .start (.claimNextStep "worker" 30000) :: List.replicate 6 (.run 0)

theorem operations_all_or_nothing_claim :
    ∃ w w', run step .singleStep claimBeforeCommit = some w ∧ w.steps = World.singleStep.steps ∧
      step w (.commit 0) = some w' ∧ ∃ c, w'.history = w.history ++ [c] ∧ AllOrNothing w c w' := by
  have hruns : (run step .singleStep claimBeforeCommit).any
      (fun w => (w.txs 0).isSome ∧ (step w (.commit 0)).isSome ∧
        w.steps.rows = World.singleStep.steps.rows) = true := by
    decide +kernel
  obtain ⟨w, hw, hend⟩ := (Option.any_eq_true _ _).mp hruns
  obtain ⟨hlive, hcommit, hrows⟩ := of_decide_eq_true hend
  obtain ⟨t, ht⟩ := Option.isSome_iff_exists.mp hlive
  obtain ⟨w', hw'⟩ := Option.isSome_iff_exists.mp hcommit
  obtain ⟨-, -, hcommits⟩ := operations_all_or_nothing World.initial_singleStep ⟨_, hw⟩
  obtain ⟨c, hhistory, -, -, heffect⟩ := hcommits 0 t w' ht hw'
  exact ⟨w, w', hw, Relational.Table.ext hrows, hw', c, hhistory, heffect⟩

end DurableRunner.Guarantees
