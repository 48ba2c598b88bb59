import DurableRunner.Sessions.Claims
import DurableRunner.Sessions.Numbering

/-! # Generations are unique and fence off their predecessors

The lease version of a row counts its committed claims. An owner write that
carries an earlier version finds no row to update.
-/
namespace DurableRunner.Guarantees
open Schema Operations Sessions TransitionSystem

def isRejection : Outcome → Bool
  | .notRenewed | .completionConsistencyError | .notRecorded => true
  | _ => false

theorem isRejection_of_unchanged {call : Call} {cred : Credential}
    (h : call.credential? = some cred) (clock : Timestamp) :
    isRejection (call.outcome clock []) = true := by
  cases call <;> first | rfl | cases h

/-- An owner write changes a row only while its credential holds a live lease on it. -/
theorem live_of_owner_change {call : Call} {cred : Credential} {start instant checkedAt : Timestamp}
    {r r' : StepRow} (hcred : call.credential? = some cred)
    (h : Transition start instant checkedAt r r' call) : holdsLiveLease cred instant r = true := by
  cases h with
  | claim | recover | promote => cases hcred
  | renew hlive | complete hlive | fail hlive =>
    obtain rfl := Option.some.inj hcred
    exact hlive

theorem changes_nil_of_superseded {steps : StepsTable} {call : Call} {cred : Credential}
    {start : Timestamp} {d : Decision} {r : StepRow} (h : Performs steps call start d)
    (hcred : call.credential? = some cred) (hr : steps.find? cred.id = some r)
    (hold : cred.leaseVersion.val < r.leaseVersion.val) : d.changes = [] := by
  rw [List.eq_nil_iff_forall_not_mem]
  intro c hc
  obtain ⟨hid, -, -, hversion, -⟩ :=
    holdsLiveLease_iff.mp (live_of_owner_change hcred (h.transition hc))
  have hcurrent := h.current c hc
  rw [hid, hr] at hcurrent
  obtain rfl := Option.some.inj hcurrent
  rw [hversion] at hold
  exact lt_irrefl _ hold

/-- A superseded owner write publishes nothing and reports its rejection. -/
theorem superseded_write_rejected {w w' : World} {a : Action} {tx : TxId} {t : Tx}
    {cred : Credential} {r : StepRow} (hexplained : AllExplained w) (hnumbered : Numbered w)
    (ht : w.txs tx = some t) (hcred : t.call.credential? = some cred)
    (hr : w.steps.find? cred.id = some r) (hold : cred.leaseVersion.val < r.leaseVersion.val)
    (hactor : a.actor? = some tx) (hstep : step w a = some w') :
    w'.steps = w.steps ∧ w'.events = w.events ∧
      ∀ c ∈ w'.history, c.tx = tx → isRejection c.outcome = true := by
  have hfresh := (hnumbered.live tx (by simp [ht])).2
  by_cases hcommit : ∃ other, a = .commit other
  · obtain ⟨other, rfl⟩ := hcommit
    obtain rfl : other = tx := Option.some.inj hactor
    cases step_cases hstep with
    | @commit _ t' d inserted ht' hphase =>
      obtain rfl := Option.some.inj (ht'.symm.trans ht)
      have hexplained := hexplained other t' ht
      simp only [Explained, hphase] at hexplained
      obtain ⟨hdecided, hwritten⟩ := hexplained
      have hnil := changes_nil_of_superseded hdecided.performs hcred hr hold
      have hnoEvents : inserted = [] := by
        simpa [hnil, Call.events] using hwritten.symm
      refine ⟨by simp [World.publish, hnil], by simp [World.publish, hnoEvents], ?_⟩
      intro c hc hself
      rcases List.mem_append.mp hc with hc | hc
      · exact absurd hself (hfresh c hc)
      · obtain rfl := List.mem_singleton.mp hc
        simpa [Commit.outcome, hnil] using isRejection_of_unchanged hcred d.instant
  · obtain ⟨hsteps, hevents, hhistory⟩ := step_unpublished hstep fun other h => hcommit ⟨other, h⟩
    refine ⟨hsteps, hevents, fun c hc hself => ?_⟩
    rw [hhistory] at hc
    exact absurd hself (hfresh c hc)

/-- Along every run the committed claims of a step return the generations after
its first one, each once and in order. No action of an owner write with an
earlier generation changes the tables, and such a write commits only as a
rejection. -/
theorem generations_unique_and_fencing {w₀ w : World} (h₀ : w₀.Initial)
    (h : Reaches step w₀ w) {id : StepId} {r₀ : StepRow} (hr₀ : w₀.steps.find? id = some r₀) :
    ∃ r, w.steps.find? id = some r ∧ r₀.leaseVersion.val ≤ r.leaseVersion.val ∧
      (claimsOf w.history id).map (fun s => s.leaseVersion.val) =
        generations r₀.leaseVersion.val r.leaseVersion.val ∧
      (w.history.map Commit.tx).Nodup ∧
      ∀ tx t cred, w.txs tx = some t → t.call.credential? = some cred → cred.id = id →
        cred.leaseVersion.val < r.leaseVersion.val →
        ∀ a w', a.actor? = some tx → step w a = some w' →
          w'.steps = w.steps ∧ w'.events = w.events ∧
            ∀ c ∈ w'.history, c.tx = tx → isRejection c.outcome = true := by
  obtain ⟨r, hr, hcounted⟩ := (serial_of_reaches h₀ h).countedBy hr₀
  have hnumbered := Numbered.reaches h₀ h
  refine ⟨r, hr, hcounted.le, hcounted.versions, hnumbered.once, ?_⟩
  rintro tx t cred ht hcred rfl hold a w' hactor hstep
  exact superseded_write_rejected (AllExplained.reaches h₀ h) hnumbered ht hcred hr hold hactor hstep

/-- A worker loses its first lease, claims the step again under the same id, and
completes it under the first generation. -/
def staleCompletion : List Action :=
  callAlone 0 (.claimNextStep "worker" 1) 6 ++ [.tick 2000] ++ callAlone 1 .recoverExpiredSteps 6 ++
    callAlone 2 (.claimNextStep "worker" 30000) 6 ++
    [.start (.completeStepSuccess ⟨7, "worker", ⟨1, Int4.inRange_one⟩⟩ .null), .run 3, .run 3, .run 3]

theorem generations_unique_and_fencing_stale_completion :
    ∃ w r, run step .singleStep staleCompletion = some w ∧
      w.steps.find? 7 = some r ∧
      (claimsOf w.history 7).map (fun s => s.leaseVersion.val) =
        generations 0 r.leaseVersion.val ∧
      ∀ w', step w (.commit 3) = some w' → w'.steps = w.steps := by
  have hruns : (run step .singleStep staleCompletion).any
      (fun w => (w.txs 3).map Tx.call =
          some (.completeStepSuccess ⟨7, "worker", ⟨1, by decide⟩⟩ .null) ∧
        (w.steps.find? 7).map (fun r => r.leaseVersion.val) = some 2) = true := by
    decide +kernel
  obtain ⟨w, hw, hend⟩ := (Option.any_eq_true _ _).mp hruns
  obtain ⟨hlive, hversion⟩ := of_decide_eq_true hend
  obtain ⟨t, ht, hcall⟩ := Option.map_eq_some_iff.mp hlive
  have hrow : World.singleStep.steps.find? 7 =
      some (.inserted 7 "hash_after_delay" .null 0) := by
    decide +kernel
  obtain ⟨r, hr, -, hclaims, -, hfenced⟩ :=
    generations_unique_and_fencing World.initial_singleStep ⟨_, hw⟩ hrow
  refine ⟨w, r, hw, hr, hclaims, fun w' hcommit => ?_⟩
  have hcred : t.call.credential? = some ⟨7, "worker", ⟨1, by decide⟩⟩ := by rw [hcall]; rfl
  have hversion : r.leaseVersion.val = 2 := by simpa [hr] using hversion
  have hold : (1 : ℤ) < r.leaseVersion.val := by omega
  exact (hfenced 3 t _ ht hcred rfl hold (.commit 3) w' rfl hcommit).1

end DurableRunner.Guarantees
