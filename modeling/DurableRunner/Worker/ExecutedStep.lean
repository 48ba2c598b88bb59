import DurableRunner.Operations.Lifetime
import DurableRunner.Sessions.Accepted
import DurableRunner.Worker.Attempts
import Mathlib.Order.Bounds.Basic

/-! # What a row says of its executions

Every status, result and error of a row that was inserted fresh is one that its
executor gave rise to. An attempt that is never reported leaves nothing behind
but its number.
-/
namespace DurableRunner.Worker
open Schema Operations Effects TransitionSystem
open Sessions (World Commit Life Serial SameTask acceptedOn claimsOf generations
  sameTask_of_transition)

/-- The attempt whose completion or failure report was accepted. -/
def reportedIn (p : Commit × Change) : Option ℤ :=
  match p.1.call with
  | .completeStepSuccess _ _ | .recordStepFailure _ _ _ => some p.2.before.attemptCount.val
  | _ => none

/-- The attempts at a step whose reports were accepted, in commit order. -/
def reportedOn (history : List Commit) (id : StepId) : List ℤ :=
  (acceptedOn history id).filterMap reportedIn

/-- The attempts whose failure was reported; the attempt with which the row succeeded is not one. -/
def failedReports (r : StepRow) (ops : List (Commit × Change)) : Set ℤ :=
  {j | j ∈ ops.filterMap reportedIn ∧ (r.status = .succeeded → j ≠ r.attemptCount.val)}

inductive LastFailure (sha256Hex : String → String) (r₀ : StepRow) (failed : Set ℤ) :
    Option JsString → Prop
  | none (hempty : failed = ∅) : LastFailure sha256Hex r₀ failed none
  | some {j : ℤ} {error : ExecutorError} {message : JsString} (hgreatest : IsGreatest failed j)
      (hthrows : ThrowsError sha256Hex r₀ j error) (hcarries : error.carries message = true) :
      LastFailure sha256Hex r₀ failed (some message.toWellFormed)

/-- The row after the accepted operations. -/
structure ExecutedRow (sha256Hex : String → String) (rows : List EffectRow) (r₀ r : StepRow)
    (ops : List (Commit × Change)) : Prop where
  task : SameTask r r₀
  wellFormed : WellFormed r
  budgeted : Budgeted r
  numbered : ∀ j ∈ ops.filterMap reportedIn, 1 ≤ j ∧ j ≤ r.attemptCount.val
  earlier : ∀ j ∈ ops.filterMap reportedIn,
    (∃ error, ThrowsError sha256Hex r₀ j error ∧ error.retryable = true) ∨
      j = r.attemptCount.val ∧ (r.status = .succeeded ∨
        r.status = .deadLettered ∧ ∃ error, ThrowsError sha256Hex r₀ j error)
  running : r.status = .running → r.attemptCount.val ∉ ops.filterMap reportedIn
  succeeded : r.status = .succeeded → r.attemptCount.val ∈ ops.filterMap reportedIn ∧
    ∃ result, ResolvesWith sha256Hex rows r₀ r.attemptCount.val result ∧
      r.result = some result.jsonb
  deadLettered : r.status = .deadLettered → r.attemptCount.val = r.maxAttempts.val ∨
    r.attemptCount.val ∈ ops.filterMap reportedIn ∧
      ∃ error, ThrowsError sha256Hex r₀ r.attemptCount.val error ∧ error.retryable = false
  lastError : LastFailure sha256Hex r₀ (failedReports r ops) r.lastError

theorem filterMap_reportedIn_concat (ops : List (Commit × Change)) (p : Commit × Change) :
    (ops ++ [p]).filterMap reportedIn = ops.filterMap reportedIn ++ (reportedIn p).toList := by
  rw [List.filterMap_append]
  cases hreported : reportedIn p <;> simp [hreported]

theorem filterMap_reportedIn_report (ops : List (Commit × Change)) {p : Commit × Change}
    (hreported : reportedIn p = some p.2.before.attemptCount.val) :
    (ops ++ [p]).filterMap reportedIn =
      ops.filterMap reportedIn ++ [p.2.before.attemptCount.val] := by
  rw [filterMap_reportedIn_concat, hreported, Option.toList_some]

/-- Until a row succeeds, all its reports are of failures. -/
theorem failedReports_of_ne {r : StepRow} (h : r.status ≠ .succeeded)
    (ops : List (Commit × Change)) : failedReports r ops = {j | j ∈ ops.filterMap reportedIn} :=
  Set.ext fun _ => ⟨And.left, fun hj => ⟨hj, fun hsucceeded => absurd hsucceeded h⟩⟩

section Next
variable {sha256Hex : String → String} {rows : List EffectRow} {r₀ : StepRow}
  {ops : List (Commit × Change)} {c : Commit} {ch : Change}

theorem ExecutedRow.start (h : r₀.Fresh) : ExecutedRow sha256Hex rows r₀ r₀ [] where
  task := .refl r₀
  wellFormed := .fresh h
  budgeted := .ready h.status h.attemptCount
  numbered := by simp
  earlier := by simp
  running := by simp
  succeeded hsucceeded := by
    rw [h.status] at hsucceeded
    cases hsucceeded
  deadLettered hdead := by
    rw [h.status] at hdead
    cases hdead
  lastError := by
    rw [h.lastError]
    exact .none (by simp [failedReports])

/-- While the row is running, every report so far was of a failure that may be retried. -/
theorem ExecutedRow.earlier_of_running {r : StepRow} (h : ExecutedRow sha256Hex rows r₀ r ops)
    (hrunning : r.status = .running) : ∀ j ∈ ops.filterMap reportedIn,
      ∃ error, ThrowsError sha256Hex r₀ j error ∧ error.retryable = true := by
  intro j hj
  refine (h.earlier j hj).resolve_right fun hended => ?_
  rw [hrunning] at hended
  rcases hended.2 with hstatus | ⟨hstatus, -⟩ <;> cases hstatus

theorem ExecutedRow.numbered_report {r : StepRow} (h : ExecutedRow sha256Hex rows r₀ r ops)
    (hrunning : r.status = .running) :
    ∀ j ∈ ops.filterMap reportedIn ++ [r.attemptCount.val], 1 ≤ j ∧ j ≤ r.attemptCount.val := by
  intro j hj
  rcases List.mem_append.mp hj with hold | hnew
  · exact h.numbered j hold
  · obtain rfl := List.mem_singleton.mp hnew
    exact ⟨h.wellFormed.claimed (.inl hrunning), le_rfl⟩

theorem ExecutedRow.quiet (h : ExecutedRow sha256Hex rows r₀ ch.before ops)
    (ht : Transition c.start c.decision.instant ch.checkedAt ch.before ch.after c.call)
    (hquiet : reportedIn (c, ch) = none)
    (hbefore : ch.before.status.isTerminalStepStatus = false)
    (hafter : ch.after.status ≠ .succeeded)
    (hcount : ch.before.attemptCount.val ≤ ch.after.attemptCount.val)
    (hrunning : ch.after.status = .running → ch.after.attemptCount.val ∉ ops.filterMap reportedIn)
    (hdead : ch.after.status = .deadLettered → ch.after.attemptCount.val = ch.after.maxAttempts.val)
    (herror : ch.after.lastError = ch.before.lastError) :
    ExecutedRow sha256Hex rows r₀ ch.after (ops ++ [(c, ch)]) := by
  have hsame : (ops ++ [(c, ch)]).filterMap reportedIn = ops.filterMap reportedIn := by
    rw [filterMap_reportedIn_concat, hquiet, Option.toList_none, List.append_nil]
  refine ⟨(sameTask_of_transition ht).trans h.task, h.wellFormed.transition ht,
    h.budgeted.transition ht, ?_, ?_, ?_, fun hsucceeded => absurd hsucceeded hafter,
    fun hended => .inl (hdead hended), ?_⟩
  · rw [hsame]
    intro j hj
    obtain ⟨hpos, hle⟩ := h.numbered j hj
    exact ⟨hpos, hle.trans hcount⟩
  · rw [hsame]
    intro j hj
    refine .inl ((h.earlier j hj).resolve_right fun hended => ?_)
    rcases hended.2 with hstatus | ⟨hstatus, -⟩ <;>
    · rw [hstatus] at hbefore
      cases hbefore
  · rw [hsame]
    exact hrunning
  · have hopen : ch.before.status ≠ .succeeded := fun hended => by
      rw [hended] at hbefore
      cases hbefore
    rw [failedReports_of_ne hafter, hsame, herror, ← failedReports_of_ne hopen]
    exact h.lastError

theorem ExecutedRow.complete (h : ExecutedRow sha256Hex rows r₀ ch.before ops) {cred : Credential}
    {result : Json}
    (ht : Transition c.start c.decision.instant ch.checkedAt ch.before ch.after c.call)
    (hcall : c.call = .completeStepSuccess cred result)
    (hreport : ReportOf sha256Hex rows r₀ cred c.call) :
    ExecutedRow sha256Hex rows r₀ ch.after (ops ++ [(c, ch)]) := by
  have hreports := filterMap_reportedIn_report (p := (c, ch)) ops (by rw [reportedIn, hcall])
  have hwellFormed := h.wellFormed.transition ht
  have hbudgeted := h.budgeted.transition ht
  have htask := (sameTask_of_transition ht).trans h.task
  rw [hcall] at ht hreport
  cases hreport with
  | completes hresolve =>
    cases ht with
    | complete hlive hcols =>
      obtain ⟨-, hrunning, -, hversion, -⟩ := holdsLiveLease_iff.mp hlive
      rw [← hversion, h.wellFormed.generations] at hresolve
      have hcount : ch.after.attemptCount = ch.before.attemptCount := by rw [hcols]
      have hstatus : ch.after.status = .succeeded := by rw [hcols]
      refine ⟨htask, hwellFormed, hbudgeted, ?_, ?_, by simp [hstatus], fun _ => ⟨?_, result, ?_, ?_⟩,
        by simp [hstatus], ?_⟩
      · rw [hreports, hcount]
        exact h.numbered_report hrunning
      · rw [hreports, hcount]
        intro j hj
        rcases List.mem_append.mp hj with hold | hnew
        · exact .inl (h.earlier_of_running hrunning j hold)
        · exact .inr ⟨List.mem_singleton.mp hnew, .inl hstatus⟩
      · rw [hreports, hcount]
        simp
      · rwa [hcount]
      · rw [hcols]
      · have hopen : ch.before.status ≠ .succeeded := by simp [hrunning]
        have hfailed : failedReports ch.after (ops ++ [(c, ch)]) = failedReports ch.before ops := by
          rw [failedReports_of_ne hopen]
          ext j
          simp only [failedReports, hreports, hcount, hstatus, Set.mem_ofPred_eq, List.mem_append,
            List.mem_singleton, forall_const]
          constructor
          · rintro ⟨hold | hnew, hne⟩
            · exact hold
            · exact absurd hnew hne
          · rintro hold
            refine ⟨.inl hold, ?_⟩
            rintro rfl
            exact h.running hrunning hold
        rw [hfailed, hcols]
        exact h.lastError

theorem ExecutedRow.fail (h : ExecutedRow sha256Hex rows r₀ ch.before ops) {cred : Credential}
    {text : JsString} {retryable : Bool}
    (ht : Transition c.start c.decision.instant ch.checkedAt ch.before ch.after c.call)
    (hcall : c.call = .recordStepFailure cred text retryable)
    (hreport : ReportOf sha256Hex rows r₀ cred c.call) :
    ExecutedRow sha256Hex rows r₀ ch.after (ops ++ [(c, ch)]) := by
  have hreports := filterMap_reportedIn_report (p := (c, ch)) ops (by rw [reportedIn, hcall])
  have hwellFormed := h.wellFormed.transition ht
  have hbudgeted := h.budgeted.transition ht
  have htask := (sameTask_of_transition ht).trans h.task
  rw [hcall] at ht hreport
  cases hreport with
  | @fails error _ hcarries hthrow =>
    cases ht with
    | fail hlive hcols =>
      obtain ⟨-, hrunning, -, hversion, -⟩ := holdsLiveLease_iff.mp hlive
      rw [← hversion, h.wellFormed.generations] at hthrow
      have hbudget := h.budgeted.budget
      have hcount : ch.after.attemptCount = ch.before.attemptCount := by rw [hcols]
      have hmax : ch.after.maxAttempts = ch.before.maxAttempts := by rw [hcols]
      have hmine : ch.before.attemptCount.val ∈ (ops ++ [(c, ch)]).filterMap reportedIn := by
        rw [hreports]
        simp
      have hstatus : (ch.after.status = .retryWait ∧ error.retryable = true) ∨
          ch.after.status = .deadLettered ∧ (error.retryable = false ∨
            ch.before.attemptCount.val = ch.before.maxAttempts.val) := by
        rw [hcols]
        by_cases hretry : mayRetry error.retryable ch.before = true
        · have hboth := hretry
          simp only [mayRetry, Bool.and_eq_true] at hboth
          exact .inl ⟨by simp [hretry], hboth.1⟩
        · refine .inr ⟨by simp [hretry], ?_⟩
          cases hretryable : error.retryable with
          | false => exact .inl rfl
          | true =>
            refine .inr (le_antisymm hbudget ?_)
            simpa [mayRetry, hretryable] using hretry
      refine ⟨htask, hwellFormed, hbudgeted, ?_, ?_, ?_, ?_, ?_, ?_⟩
      · rw [hreports, hcount]
        exact h.numbered_report hrunning
      · rw [hreports, hcount]
        intro j hj
        rcases List.mem_append.mp hj with hold | hnew
        · exact .inl (h.earlier_of_running hrunning j hold)
        · obtain rfl := List.mem_singleton.mp hnew
          rcases hstatus with ⟨-, hretryable⟩ | ⟨hdead, -⟩
          · exact .inl ⟨error, hthrow, hretryable⟩
          · exact .inr ⟨rfl, .inr ⟨hdead, error, hthrow⟩⟩
      · rcases hstatus with ⟨hstatus, -⟩ | ⟨hstatus, -⟩ <;> simp [hstatus]
      · rcases hstatus with ⟨hstatus, -⟩ | ⟨hstatus, -⟩ <;> simp [hstatus]
      · intro hdead
        rcases hstatus with ⟨hstatus, -⟩ | ⟨-, hretryable | hspent⟩
        · rw [hstatus] at hdead
          cases hdead
        · rw [hcount]
          exact .inr ⟨hmine, error, hthrow, hretryable⟩
        · rw [hcount, hmax]
          exact .inl hspent
      · have hopen : ch.after.status ≠ .succeeded := by
          rcases hstatus with ⟨hstatus, -⟩ | ⟨hstatus, -⟩ <;> simp [hstatus]
        rw [failedReports_of_ne hopen, hcols]
        refine .some ⟨hmine, fun j hj => ?_⟩ hthrow hcarries
        rw [Set.mem_ofPred_eq, hreports] at hj
        exact (h.numbered_report hrunning j hj).2

theorem ExecutedRow.next (h : ExecutedRow sha256Hex rows r₀ ch.before ops)
    (ht : Transition c.start c.decision.instant ch.checkedAt ch.before ch.after c.call)
    (hreport : ReportsStep sha256Hex r₀ rows c.call) :
    ExecutedRow sha256Hex rows r₀ ch.after (ops ++ [(c, ch)]) := by
  cases hcall : c.call with
  | claimNextStep workerId ms =>
    have hclaim := ht
    rw [hcall] at hclaim
    cases hclaim with
    | claim hready _ _ _ hattempt hcols =>
      have hstatus : ch.after.status = .running := by rw [hcols]
      refine h.quiet ht (by simp [reportedIn, hcall]) (by rw [hready]; rfl) (by simp [hstatus])
        (by omega) (fun _ hreported => ?_) (by simp [hstatus]) (by rw [hcols])
      have hle := (h.numbered _ hreported).2
      omega
  | renewStepLease cred ms =>
    have hrenew := ht
    rw [hcall] at hrenew
    cases hrenew with
    | renew hlive hcols =>
      have hrunning := (holdsLiveLease_iff.mp hlive).2.1
      have hcount : ch.after.attemptCount = ch.before.attemptCount := by rw [hcols]
      refine h.quiet ht (by simp [reportedIn, hcall]) (by rw [hrunning]; rfl) (by simp [hcols, hrunning])
        (by rw [hcount]) (fun _ => ?_) (by simp [hcols, hrunning]) (by rw [hcols])
      rw [hcount]
      exact h.running hrunning
  | completeStepSuccess cred result =>
    have hlive := ht
    rw [hcall] at hlive
    cases hlive with
    | complete hlive =>
      have hid := (holdsLiveLease_iff.mp hlive).1.symm.trans h.task.id
      rcases hreport cred (by rw [hcall]; rfl) hid with ⟨ms, hrenew⟩ | hattempt
      · rw [hcall] at hrenew
        cases hrenew
      · exact h.complete ht hcall hattempt
  | recordStepFailure cred error retryable =>
    have hlive := ht
    rw [hcall] at hlive
    cases hlive with
    | fail hlive =>
      have hid := (holdsLiveLease_iff.mp hlive).1.symm.trans h.task.id
      rcases hreport cred (by rw [hcall]; rfl) hid with ⟨ms, hrenew⟩ | hattempt
      · rw [hcall] at hrenew
        cases hrenew
      · exact h.fail ht hcall hattempt
  | recoverExpiredSteps =>
    have hrecover := ht
    rw [hcall] at hrecover
    cases hrecover with
    | recover hrunning _ _ hcols =>
      have hbudget := h.budgeted.budget
      have hcount : ch.after.attemptCount = ch.before.attemptCount := by rw [hcols]
      have hmax : ch.after.maxAttempts = ch.before.maxAttempts := by rw [hcols]
      have hstatus : ch.after.status = .ready ∨ ch.after.status = .deadLettered ∧
          ¬ ch.before.attemptCount.val < ch.before.maxAttempts.val := by
        rw [hcols]
        by_cases hroom : ch.before.attemptCount.val < ch.before.maxAttempts.val <;> simp [hroom]
      refine h.quiet ht (by simp [reportedIn, hcall]) (by rw [hrunning]; rfl) ?_ (by rw [hcount]) ?_
        (fun hdead => ?_) (by rw [hcols])
      · rcases hstatus with hstatus | ⟨hstatus, -⟩ <;> simp [hstatus]
      · rcases hstatus with hstatus | ⟨hstatus, -⟩ <;> simp [hstatus]
      · rcases hstatus with hstatus | ⟨-, hspent⟩
        · rw [hstatus] at hdead
          cases hdead
        · rw [hcount, hmax]
          exact le_antisymm hbudget (not_lt.mp hspent)
  | promoteDueRetries =>
    have hpromote := ht
    rw [hcall] at hpromote
    cases hpromote with
    | promote hwaiting _ hcols =>
      exact h.quiet ht (by simp [reportedIn, hcall]) (by rw [hwaiting]; rfl) (by simp [hcols])
        (by rw [hcols]) (by simp [hcols]) (by simp [hcols]) (by rw [hcols])
  | lockRows =>
    rw [hcall] at ht
    cases ht

theorem ExecutedRow.of_life (h : r₀.Fresh) {r : StepRow} (hlife : Life r₀ ops r)
    (hreport : ∀ p ∈ ops, ReportsStep sha256Hex r₀ rows p.1.call) : ExecutedRow sha256Hex rows r₀ r ops := by
  induction hlife with
  | nil => exact .start h
  | @snoc ops c ch life transition ih =>
    have hbefore := ih fun p hp => hreport p (List.mem_append_left _ hp)
    exact hbefore.next transition
      (hreport (c, ch) (List.mem_append_right _ (List.mem_singleton_self _)))

end Next

/-- The step after its attempts, which are numbered one by one whether they are reported or not. -/
structure ExecutedStep (sha256Hex : String → String) (rows : List EffectRow) (r₀ : StepRow) (w : World)
    (r : StepRow) : Prop where
  found : w.steps.find? r₀.id = some r
  row : ExecutedRow sha256Hex rows r₀ r (acceptedOn w.history r₀.id)
  attempts : (claimsOf w.history r₀.id).map (fun s => s.attemptCount.val) =
    generations 0 r.attemptCount.val

theorem ExecutedStep.exists_claim {sha256Hex : String → String} {rows : List EffectRow}
    {r₀ r : StepRow} {w : World} (h : ExecutedStep sha256Hex rows r₀ w r) {k : ℤ}
    (hk : 1 ≤ k ∧ k ≤ r.attemptCount.val) :
    ∃ s ∈ claimsOf w.history r₀.id, s.attemptCount.val = k := by
  have hmem : k ∈ (claimsOf w.history r₀.id).map fun s => s.attemptCount.val := by
    rw [h.attempts]
    exact Sessions.mem_generations.mpr (by omega)
  exact List.mem_map.mp hmem

/-- A step that was inserted fresh, in every reachable state. -/
theorem executedStep {sha256Hex : String → String} {r₀ : StepRow} (h : r₀.Fresh) {s₀ s : Runtime}
    (h₀ : s₀.Initial) (hr₀ : s₀.world.steps.find? r₀.id = some r₀)
    (hreach : Reaches (Worker.step sha256Hex) s₀ s) :
    ∃ r, ExecutedStep sha256Hex s.effects.rows r₀ s.world r := by
  have hserial := Sessions.serial_of_reaches h₀.world (Consistent.of_reaches h₀ hreach).reaches
  obtain ⟨r, hr, hlife⟩ := hserial.life hr₀
  have hrow : ExecutedRow sha256Hex s.effects.rows r₀ r (acceptedOn s.world.history r₀.id) :=
    .of_life h hlife fun p hp =>
      reportsStep_of_issued h h₀ hr₀ hreach (.inr ⟨p.1, (Sessions.mem_acceptedOn.mp hp).1, rfl⟩)
  obtain ⟨r', hr', hcounted⟩ := hserial.countedBy hr₀
  obtain rfl := Option.some.inj (hr.symm.trans hr')
  refine ⟨r, hr, hrow, ?_⟩
  have hversions := hcounted.versions
  rw [h.leaseVersion, hrow.wellFormed.generations] at hversions
  rw [← hversions]
  refine List.map_congr_left fun claimed hclaimed => ?_
  obtain ⟨⟨c, hc, hclaims⟩, hid⟩ := Sessions.mem_claimsOf.mp hclaimed
  exact numbered_of_fresh h hserial hr₀ hc hclaims hid

end DurableRunner.Worker
