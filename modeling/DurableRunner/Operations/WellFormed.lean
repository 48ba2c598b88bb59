import DurableRunner.Operations.RowLife

/-! # Well-formed rows

The budget guards of claim, failure and recovery lean on each other: only their
conjunction is preserved, and it keeps every UPDATE inside the CHECK constraints.
-/
namespace DurableRunner.Operations
open Schema TransitionSystem

/-- The row invariant of the six operations. -/
structure WellFormed (r : StepRow) : Prop where
  owner : r.currentWorkerId.isSome ↔ r.status = .running
  deadline : r.leaseExpiresAt.isSome ↔ r.status = .running
  generations : r.leaseVersion.val = r.attemptCount.val
  budget : r.attemptCount.val ≤ r.maxAttempts.val
  claimable : r.status = .ready ∨ r.status = .retryWait → r.attemptCount.val < r.maxAttempts.val
  claimed : r.status = .running ∨ r.status = .retryWait ∨ r.status = .succeeded ∨
    r.status = .deadLettered → 1 ≤ r.attemptCount.val
  result : r.result.isSome ↔ r.status = .succeeded

theorem WellFormed.fresh {r : StepRow} (h : r.Fresh) : WellFormed r := by
  have hmax := r.steps_max_attempts_positive
  refine ⟨?_, ?_, ?_, ?_, ?_, ?_, ?_⟩
  · simp [h.owner, h.status]
  · simp [h.deadline, h.status]
  · rw [h.leaseVersion, h.attemptCount]
  · rw [h.attemptCount]
    omega
  · rw [h.attemptCount]
    omega
  · simp [h.status]
  · simp [h.result, h.status]

theorem WellFormed.settle {r r' : StepRow} (h : WellFormed r)
    (howner : r'.currentWorkerId = none) (hdeadline : r'.leaseExpiresAt = none)
    (hversion : r'.leaseVersion = r.leaseVersion) (hattempt : r'.attemptCount = r.attemptCount)
    (hmax : r'.maxAttempts = r.maxAttempts) (hstatus : r'.status ≠ .running)
    (hbudget : r'.status = .ready ∨ r'.status = .retryWait →
      r.attemptCount.val < r.maxAttempts.val)
    (hclaimed : 1 ≤ r.attemptCount.val)
    (hresult : r'.result.isSome ↔ r'.status = .succeeded) : WellFormed r' := by
  refine ⟨?_, ?_, ?_, ?_, ?_, ?_, hresult⟩
  · simp [howner, hstatus]
  · simp [hdeadline, hstatus]
  · rw [hversion, hattempt]
    exact h.generations
  · rw [hattempt, hmax]
    exact h.budget
  · rw [hattempt, hmax]
    exact hbudget
  · rw [hattempt]
    exact fun _ => hclaimed

/-- Every operation re-establishes the invariant. -/
theorem WellFormed.transition {start instant checkedAt : Timestamp} {r r' : StepRow} {call : Call}
    (h : WellFormed r) (ht : Transition start instant checkedAt r r' call) : WellFormed r' := by
  cases ht with
  | claim hready _ hbudget hversion hattempt hcols =>
    have hstatus : r'.status = .running := by rw [hcols]
    have howner : r'.currentWorkerId.isSome := by rw [hcols]; rfl
    have hdeadline : r'.leaseExpiresAt.isSome := by rw [hcols]; rfl
    have hmax : r'.maxAttempts = r.maxAttempts := by rw [hcols]
    have hresult : r'.result = r.result := by rw [hcols]
    have hcount := r.steps_attempt_count_nonnegative
    have hgenerations := h.generations
    refine ⟨?_, ?_, ?_, ?_, ?_, ?_, ?_⟩
    · simp [howner, hstatus]
    · simp [hdeadline, hstatus]
    · omega
    · rw [hattempt, hmax]
      omega
    · simp [hstatus]
    · intro _
      omega
    · rw [hresult, h.result, hready, hstatus]
      simp
  | renew hlive hcols =>
    obtain ⟨-, hrunning, -⟩ := holdsLiveLease_iff.mp hlive
    have hstatus : r'.status = r.status := by rw [hcols]
    have howner : r'.currentWorkerId = r.currentWorkerId := by rw [hcols]
    have hversion : r'.leaseVersion = r.leaseVersion := by rw [hcols]
    have hattempt : r'.attemptCount = r.attemptCount := by rw [hcols]
    have hmax : r'.maxAttempts = r.maxAttempts := by rw [hcols]
    have hresult : r'.result = r.result := by rw [hcols]
    refine ⟨?_, ?_, ?_, ?_, ?_, ?_, ?_⟩
    · rw [howner, hstatus]
      exact h.owner
    · simp [hcols, hrunning]
    · rw [hversion, hattempt]
      exact h.generations
    · rw [hattempt, hmax]
      exact h.budget
    · rw [hstatus, hattempt, hmax]
      exact h.claimable
    · rw [hstatus, hattempt]
      exact h.claimed
    · rw [hresult, hstatus]
      exact h.result
  | complete hlive hcols =>
    obtain ⟨-, hrunning, -⟩ := holdsLiveLease_iff.mp hlive
    exact h.settle (by rw [hcols]) (by rw [hcols]) (by rw [hcols]) (by rw [hcols]) (by rw [hcols])
      (by simp [hcols]) (by simp [hcols]) (h.claimed (.inl hrunning)) (by simp [hcols])
  | fail hlive hcols =>
    obtain ⟨-, hrunning, -⟩ := holdsLiveLease_iff.mp hlive
    have hnoResult := h.result
    rw [hrunning] at hnoResult
    refine h.settle (by rw [hcols]) (by rw [hcols]) (by rw [hcols]) (by rw [hcols]) (by rw [hcols])
      ?_ ?_ (h.claimed (.inl hrunning)) ?_
    · rw [hcols]
      dsimp only
      split <;> simp
    · rw [hcols]
      dsimp only
      split
      · rename_i hretry
        simp only [mayRetry, Bool.and_eq_true, decide_eq_true_eq] at hretry
        exact fun _ => hretry.2
      · simp
    · rw [hcols]
      dsimp only
      split <;> simpa using hnoResult
  | recover hrunning _ _ hcols =>
    have hnoResult := h.result
    rw [hrunning] at hnoResult
    refine h.settle (by rw [hcols]) (by rw [hcols]) (by rw [hcols]) (by rw [hcols]) (by rw [hcols])
      ?_ ?_ (h.claimed (.inl hrunning)) ?_
    · rw [hcols]
      dsimp only
      split <;> simp
    · rw [hcols]
      dsimp only
      split
      · rename_i hbudget
        exact fun _ => hbudget
      · simp
    · rw [hcols]
      dsimp only
      split <;> simpa using hnoResult
  | promote hwaiting _ hcols =>
    have howner := h.owner
    have hdeadline := h.deadline
    have hnoResult := h.result
    rw [hwaiting] at howner hdeadline hnoResult
    refine h.settle ?_ ?_ (by rw [hcols]) (by rw [hcols]) (by rw [hcols]) (by simp [hcols])
      (fun _ => h.claimable (.inr hwaiting)) (h.claimed (.inr (.inl hwaiting))) ?_
    · rw [hcols]
      simpa using howner
    · rw [hcols]
      simpa using hdeadline
    · rw [hcols]
      simpa using hnoResult

theorem wellFormed_of_run {s s' : RowState} (h : Reaches rowStep s s') (hs : WellFormed s.row) :
    WellFormed s'.row := by
  have preserved : ∀ s op t, WellFormed s.row → rowStep s op = some t → WellFormed t.row := by
    intro s op t hs hstep
    obtain ⟨heligible, hupdate, -⟩ := rowStep_eq_some.mp hstep
    exact hs.transition (transition_of_update heligible hupdate)
  exact h.invariant preserved hs

/-- The errors the table and its integer columns raise on an UPDATE. -/
def isConstraintError : DbError → Bool
  | .checkViolation | .integerOutOfRange => true
  | _ => false

theorem except_bind_eq_error {α β : Type} {x : Except DbError α} {f : α → Except DbError β}
    {e : DbError} :
    (x >>= f) = .error e ↔ x = .error e ∨ ∃ a, x = .ok a ∧ f a = .error e := by
  cases x <;> simp [bind, Except.bind]

theorem textParam_error {s : String} {e : DbError} (h : textParam s = .error e) :
    isConstraintError e = false := by
  unfold textParam at h
  split at h
  · obtain rfl := Except.error.inj h
    rfl
  · cases h

/-- An owner UPDATE passes the constraints when its SET list does. -/
theorem ownerUpdate_error {cred : Credential} {clock : Timestamp} {r : StepRow}
    {set : Except DbError StepColumns} {e : DbError}
    (hset : ∀ e, set = .error e → isConstraintError e = false)
    (hcheck : ∀ columns, set = .ok columns → r.status = .running → ∃ row, columns.check = .ok row)
    (h : ownerUpdate cred clock r set = .error e) : isConstraintError e = false := by
  simp only [ownerUpdate, except_bind_eq_error] at h
  rcases h with h | ⟨_, -, h | ⟨columns, hcolumns, h⟩⟩
  · exact textParam_error h
  · exact hset e h
  · split at h
    · rename_i hlive
      obtain ⟨row, hrow⟩ := hcheck columns hcolumns (holdsLiveLease_iff.mp hlive).2.1
      rw [hrow] at h
      cases h
    · cases h

/-- A claim of a well-formed row passes the constraints. -/
theorem WellFormed.claimUpdate_error {workerId : WorkerId} {leaseDurationMs : ℤ}
    {start clock : Timestamp} {r : StepRow} {e : DbError} (h : WellFormed r)
    (he : claimUpdate workerId leaseDurationMs start clock r = .error e) :
    isConstraintError e = false := by
  have hmax := r.steps_max_attempts_positive
  have hcount := r.steps_attempt_count_nonnegative
  simp only [claimUpdate, except_bind_eq_error] at he
  rcases he with he | ⟨worker, -, he | ⟨ms, -, he⟩⟩
  · exact textParam_error he
  · rw [Int4.cast_eq_error he]
    rfl
  · split at he
    · rename_i hguard
      have hgenerations := h.generations
      obtain ⟨v, hv⟩ : ∃ v, r.leaseVersion.succ = .ok v :=
        Int4.succ_of_lt (hgenerations ▸ hguard.2)
      obtain ⟨a, ha⟩ := Int4.succ_of_lt hguard.2
      have hvval := Int4.succ_eq_ok.mp hv
      have haval := Int4.succ_eq_ok.mp ha
      simp only [hv, ha, except_bind_eq_error, reduceCtorEq, Except.ok.injEq, false_or,
        exists_eq_left'] at he
      rcases he with he | ⟨row, -, he⟩
      · obtain ⟨row, hrow⟩ := StepColumns.check_of { r.toStepColumns with
          status := .running
          currentWorkerId := some worker
          leaseVersion := v
          attemptCount := a
          leaseExpiresAt := some (leaseDeadline clock ms)
          updatedAt := start }
          ⟨by dsimp only; omega, hmax, .inr ⟨rfl, rfl, by dsimp only; omega⟩⟩
        rw [hrow] at he
        cases he
      · cases he
    · cases he

/-- No operation on a well-formed row meets a constraint. -/
theorem WellFormed.update_error {call : Call} {start clock : Timestamp} {r : StepRow} {e : DbError}
    (h : WellFormed r) (he : call.update start clock r = .error e) : isConstraintError e = false := by
  have hattempts := r.steps_attempt_count_nonnegative
  have hmax := r.steps_max_attempts_positive
  cases call with
  | claimNextStep workerId ms =>
    simp only [Call.update, claimCandidate] at he
    split at he
    · obtain rfl := Except.error.inj he
      rfl
    · split at he
      · obtain rfl := Except.error.inj he
        rfl
      · exact h.claimUpdate_error he
  | renewStepLease cred ms =>
    refine ownerUpdate_error (fun e he => ?_) (fun columns hcolumns hrunning => ?_) he
    · rcases except_bind_eq_error.mp he with he | ⟨_, -, he⟩
      · rw [Int4.cast_eq_error he]
        rfl
      · cases he
    · obtain ⟨_, -, hcolumns⟩ := except_bind_eq_ok.mp hcolumns
      obtain rfl := Except.ok.inj hcolumns
      have howner := r.steps_running_requires_owner.resolve_left (not_not_intro hrunning)
      exact StepColumns.check_of _ ⟨hattempts, hmax, .inr ⟨howner.1, rfl, howner.2.2⟩⟩
  | completeStepSuccess cred result =>
    refine ownerUpdate_error (fun e he => ?_) (fun columns hcolumns hrunning => ?_) he
    · rcases except_bind_eq_error.mp he with he | ⟨_, -, he⟩
      · unfold jsonParam at he
        split at he
        · cases he
        · obtain rfl := Except.error.inj he
          rfl
      · cases he
    · obtain ⟨_, -, hcolumns⟩ := except_bind_eq_ok.mp hcolumns
      obtain rfl := Except.ok.inj hcolumns
      exact StepColumns.check_of _ ⟨hattempts, hmax, .inl (by simp)⟩
  | recordStepFailure cred error retryable =>
    refine ownerUpdate_error (fun e he => ?_) (fun columns hcolumns hrunning => ?_) he
    · rcases except_bind_eq_error.mp he with he | ⟨_, -, he⟩
      · unfold jsTextParam at he
        split at he
        · obtain rfl := Except.error.inj he
          rfl
        · cases he
      · cases he
    · obtain ⟨_, -, hcolumns⟩ := except_bind_eq_ok.mp hcolumns
      obtain rfl := Except.ok.inj hcolumns
      exact StepColumns.check_of _ ⟨hattempts, hmax, .inl (by dsimp only; split <;> simp)⟩
  | recoverExpiredSteps =>
    obtain ⟨row, hrow⟩ := StepColumns.check_of { r.toStepColumns with
      status := if r.attemptCount.val < r.maxAttempts.val then .ready else .deadLettered
      currentWorkerId := none
      leaseExpiresAt := none
      updatedAt := start } ⟨hattempts, hmax, .inl (by dsimp only; split <;> simp)⟩
    simp only [Call.update, recoverUpdate, hrow] at he
    cases he
  | promoteDueRetries =>
    obtain ⟨row, hrow⟩ := StepColumns.check_of { r.toStepColumns with
      status := .ready
      updatedAt := start } ⟨hattempts, hmax, .inl (by simp)⟩
    simp only [Call.update, promoteUpdate, hrow] at he
    cases he
  | lockRows => cases he

theorem updateAll_error {call : Call} {now clock : Timestamp} {rows : List (StepRow × Timestamp)}
    {e : DbError} (h : call.updateAll now clock rows = .error e) :
    ∃ p ∈ rows, call.update now clock p.1 = .error e := by
  induction rows with
  | nil => cases h
  | cons p rows ih =>
    unfold Call.updateAll at h
    split at h
    · rename_i e' hrow
      obtain rfl := Except.error.inj h
      exact ⟨p, List.mem_cons_self, hrow⟩
    · rename_i e' hrest _
      obtain rfl := Except.error.inj h
      obtain ⟨q, hq, herror⟩ := ih hrest
      exact ⟨q, List.mem_cons_of_mem _ hq, herror⟩
    · cases h
    · cases h

end DurableRunner.Operations
