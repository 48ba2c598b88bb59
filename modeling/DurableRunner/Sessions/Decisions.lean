import DurableRunner.Sessions.Claims

/-! # Where decisions come from

A transaction that changes rows decided so at its UPDATE, in a state of the run
in which it held the locks of those rows.
-/
namespace DurableRunner.Sessions
open Schema Operations TransitionSystem

/-- In this state the next move of the transaction is the UPDATE with the given result. -/
structure Decides (u : World) (tx : TxId) (call : Call) (start : Timestamp) (d : Decision) : Prop where
  updates : ∃ t picked, u.txs tx = some t ∧ t.call = call ∧ t.start = start ∧
    t.phase = .selected picked ∧ call.updateAll start u.clock (u.rowsOf picked) = .ok d.changes
  instant : d.instant = u.clock

/-- The schedule contains the UPDATE that made the decision. -/
def Traced (w₀ : World) (as : List Action) (tx : TxId) (call : Call) (start : Timestamp)
    (d : Decision) : Prop :=
  ∃ as₁ as₂ u, as = as₁ ++ .run tx :: as₂ ∧ run step w₀ as₁ = some u ∧ Decides u tx call start d

theorem Traced.append {w₀ : World} {as bs : List Action} {tx : TxId} {call : Call}
    {start : Timestamp} {d : Decision} (h : Traced w₀ as tx call start d) :
    Traced w₀ (as ++ bs) tx call start d := by
  obtain ⟨as₁, as₂, u, rfl, hrun, hdecides⟩ := h
  exact ⟨as₁, as₂ ++ bs, u, by simp, hrun, hdecides⟩

/-- A decided transaction is traced until it ends. -/
theorem traced_of_move {w₀ w : World} {as : List Action} {tx : TxId} {t t' : Tx} {m : Move}
    (hrun : run step w₀ as = some w) (ht : w.txs tx = some t) (hm : MoveCase w tx t m)
    (ih : ∀ d, t.phase.decision? = some d → d.changes ≠ [] → Traced w₀ as tx t.call t.start d)
    (ht' : (w.apply tx t m).txs tx = some t') :
    ∀ d, t'.phase.decision? = some d → d.changes ≠ [] →
      Traced w₀ (as ++ [.run tx]) tx t'.call t'.start d := by
  intro d hd hne
  cases hm with
  | release hphase hcall | missing hphase hcred hfind =>
    obtain rfl := eq_of_enter ht'
    obtain rfl := Option.some.inj hd
    exact absurd rfl hne
  | update hphase hupdate =>
    obtain rfl := eq_of_enter ht'
    obtain rfl := Option.some.inj hd
    exact ⟨as, [], w, rfl, hrun, ⟨t, _, ht, rfl, rfl, hphase, hupdate⟩, rfl⟩
  | finishInsert hphase | insert hphase hrecord =>
    obtain rfl : _ = t' := by simpa [World.apply, World.setTx] using ht'
    exact (ih d (by rw [hphase]; exact hd) hne).append
  | lockOwner | scan | finishSelect | skip | pick | keepLock | updateError | insertError =>
    obtain rfl : _ = t' := by simpa [World.apply, World.setTx] using ht'
    cases hd

/-- Every change of a live or committed transaction goes back to its UPDATE. -/
theorem traced_of_run {w₀ w : World} (h₀ : w₀.Initial) {as : List Action}
    (hrun : run step w₀ as = some w) :
    (∀ tx t, w.txs tx = some t → ∀ d, t.phase.decision? = some d → d.changes ≠ [] →
      Traced w₀ as tx t.call t.start d) ∧
    ∀ c ∈ w.history, c.decision.changes ≠ [] → Traced w₀ as c.tx c.call c.start c.decision := by
  induction as using List.reverseRecOn generalizing w with
  | nil =>
    obtain rfl : w₀ = w := by simpa using hrun
    exact ⟨fun tx t ht => by simp [h₀.noTx tx] at ht, by simp [h₀.noHistory]⟩
  | append_singleton as a ih =>
    obtain ⟨v, hv, hstep⟩ := (run_concat_eq_some _).mp hrun
    obtain ⟨hlive, hpast⟩ := ih hv
    have hkeep : ∀ c ∈ v.history, c.decision.changes ≠ [] →
        Traced w₀ (as ++ [a]) c.tx c.call c.start c.decision := fun c hc hne => (hpast c hc hne).append
    cases step_cases hstep with
    | tick clock => exact ⟨fun tx t ht d hd hne => (hlive tx t ht d hd hne).append, hkeep⟩
    | start call hadmissible =>
      refine ⟨fun other t' ht' d hd hne => ?_, hkeep⟩
      rcases begin_txs_cases ht' with ⟨rfl, rfl⟩ | ⟨-, ht⟩
      · cases hd
      · exact (hlive other t' ht d hd hne).append
    | @run tx t m ht hmove =>
      refine ⟨fun other t' ht' d hd hne => ?_, by simpa using hkeep⟩
      rcases apply_txs_cases ht' with ⟨rfl, ht'⟩ | ⟨hother, ht'⟩
      · exact traced_of_move hv ht hmove (hlive other t ht) ht' d hd hne
      · exact (hlive other t' ht' d hd hne).append
    | @lockRow tx t id ht hcall hphase hpresent hfree =>
      refine ⟨fun other t' ht' d hd hne => ?_, by simpa using hkeep⟩
      rcases apply_txs_cases ht' with ⟨rfl, ht'⟩ | ⟨hother, ht'⟩
      · obtain rfl := eq_of_lock ht'
        cases hd
      · exact (hlive other t' ht' d hd hne).append
    | @fault tx t ht =>
      refine ⟨fun other t' ht' d hd hne => ?_, by simpa using hkeep⟩
      rcases apply_txs_cases ht' with ⟨rfl, ht'⟩ | ⟨hother, ht'⟩
      · obtain rfl := eq_of_enter ht'
        cases hd
      · exact (hlive other t' ht' d hd hne).append
    | @rollback tx t ht =>
      refine ⟨fun other t' ht' d hd hne => ?_, hkeep⟩
      exact (hlive other t' (finish_txs_cases ht').2 d hd hne).append
    | @commit tx t d inserted ht hphase =>
      refine ⟨fun other t' ht' d' hd' hne => ?_, fun c hc hne => ?_⟩
      · exact (hlive other t' (finish_txs_cases ht').2 d' hd' hne).append
      · rcases List.mem_append.mp hc with hc | hc
        · exact hkeep c hc hne
        · obtain rfl := List.mem_singleton.mp hc
          exact (hlive tx t ht d (by rw [hphase]; rfl) hne).append

/-- The UPDATE runs under the locks of the rows it changes. -/
theorem Decides.decided {u : World} {tx : TxId} {call : Call} {start : Timestamp} {d : Decision}
    (hexplained : AllExplained u) (h : Decides u tx call start d) :
    ∃ t, u.txs tx = some t ∧ t.call = call ∧ t.start = start ∧ Decided u tx t d := by
  obtain ⟨⟨t, picked, ht, rfl, rfl, hphase, hupdate⟩, hinstant⟩ := h
  have hselected := hexplained tx t ht
  simp only [Explained, hphase] at hselected
  obtain ⟨hpicked, hnodup, hcred⟩ := hselected
  have hdecided := Decided.of_update hpicked hnodup hcred hupdate
  rw [← hinstant] at hdecided
  exact ⟨t, ht, rfl, rfl, hdecided⟩

theorem Explained.decided {w : World} {tx : TxId} {t : Tx} {d : Decision}
    (h : Explained w tx t) (hd : t.phase.decision? = some d) : Decided w tx t d := by
  cases hphase : t.phase <;> simp only [hphase, Phase.decision?, reduceCtorEq] at hd
  all_goals
    obtain rfl := Option.some.inj hd
    simp only [Explained, hphase] at h
    exact h.1

/-- A move keeps the decision or makes one at the present clock. -/
theorem decision_now_or_before {w : World} {tx : TxId} {t t' : Tx} {m : Move} {d : Decision}
    (hm : MoveCase w tx t m) (ht' : (w.apply tx t m).txs tx = some t')
    (hd : t'.phase.decision? = some d) : t.phase.decision? = some d ∨ d.instant = w.clock := by
  cases hm with
  | release | missing | update =>
    obtain rfl := eq_of_enter ht'
    obtain rfl := Option.some.inj hd
    exact .inr rfl
  | finishInsert hphase | insert hphase hrecord =>
    obtain rfl : _ = t' := by simpa [World.apply, World.setTx] using ht'
    exact .inl (by rw [hphase]; exact hd)
  | lockOwner | scan | finishSelect | skip | pick | keepLock | updateError | insertError =>
    obtain rfl : _ = t' := by simpa [World.apply, World.setTx] using ht'
    cases hd

/-- A live decision holds the lock of every row it changes. -/
theorem Decided.holder_of_change {w : World} {tx : TxId} {t : Tx} {d : Decision}
    (h : Decided w tx t d) {c : Change} (hc : c ∈ d.changes) : w.holder c.before.id = some tx := by
  refine h.locked _ (List.mem_append_right _ (List.mem_map_of_mem hc)) ?_
  rw [h.performs.current c hc]
  rfl

end DurableRunner.Sessions
