import DurableRunner.Sessions.Clocks
import DurableRunner.Sessions.Decisions

/-! # Conflicting transactions are ordered by their instants

Two transactions that commit in one order and decided in the other have no row
in common that either of them wrote: the lock of such a row would have kept the
second decision behind the first COMMIT.
-/
namespace DurableRunner.Sessions
open Schema Operations TransitionSystem

/-- The commit wrote no row the decision is about, and conversely. -/
def Commit.Apart (c : Commit) (call : Call) (d : Decision) : Prop :=
  (∀ id ∈ c.written, id ∉ touched call d) ∧
    ∀ id ∈ d.changes.map fun ch => ch.before.id, id ∉ touched c.call c.decision

/-- Instants follow the commit order, except between transactions that are apart. -/
structure InstantOrder (w : World) : Prop where
  live : ∀ tx t d, w.txs tx = some t → t.phase.decision? = some d → ∀ c ∈ w.history,
    c.decision.instant ≤ d.instant ∨ c.Apart t.call d
  past : w.history.Pairwise fun c c' =>
    c.decision.instant ≤ c'.decision.instant ∨ c.Apart c'.call c'.decision

theorem not_touched_of_changed {w : World} {tx tx' : TxId} {t t' : Tx} {d d' : Decision}
    (hne : tx ≠ tx') (h : Decided w tx t d) (h' : Decided w tx' t' d') :
    ∀ id ∈ d.changes.map fun ch => ch.before.id, id ∉ touched t'.call d' := by
  intro id hid htouched
  obtain ⟨c, hc, rfl⟩ := List.mem_map.mp hid
  have hheld := h.holder_of_change hc
  have hheld' := h'.locked _ htouched (by rw [h.performs.current c hc]; rfl)
  rw [hheld] at hheld'
  exact hne (Option.some.inj hheld')

theorem InstantOrder.frame {w w' : World} (h : InstantOrder w) (hhistory : w'.history = w.history)
    (htxs : ∀ tx t' d, w'.txs tx = some t' → t'.phase.decision? = some d →
      (∃ t, w.txs tx = some t ∧ t.call = t'.call ∧ t.phase.decision? = some d) ∨
        ∀ c ∈ w.history, c.decision.instant ≤ d.instant) : InstantOrder w' where
  live tx t' d ht' hd c hc := by
    rw [hhistory] at hc
    rcases htxs tx t' d ht' hd with ⟨t, ht, hcall, hd⟩ | hnow
    · exact hcall ▸ h.live tx t d ht hd c hc
    · exact .inl (hnow c hc)
  past := hhistory ▸ h.past

theorem InstantOrder.step {w w' : World} {a : Action} (h : InstantOrder w)
    (hexplained : AllExplained w) (htimes : OnTime w) (hstep : Sessions.step w a = some w') :
    InstantOrder w' := by
  have hpresent : ∀ c ∈ w.history, c.decision.instant ≤ w.clock := fun c hc =>
    (htimes.past c hc).1.decided.trans (htimes.past c hc).2
  cases step_cases hstep with
  | tick clock => exact h.frame rfl fun tx t d ht hd => .inl ⟨t, ht, rfl, hd⟩
  | start call hadmissible =>
    refine h.frame rfl fun other t' d ht' hd => ?_
    rcases begin_txs_cases ht' with ⟨rfl, rfl⟩ | ⟨hother, ht⟩
    · cases hd
    · exact .inl ⟨t', ht, rfl, hd⟩
  | @run tx t m ht hmove =>
    refine h.frame (apply_history _ _ _ _) fun other t' d ht' hd => ?_
    rcases apply_txs_cases ht' with ⟨rfl, ht'⟩ | ⟨hother, ht'⟩
    · rcases decision_now_or_before hmove ht' hd with hold | hnow
      · exact .inl ⟨t, ht, (call_of_apply ht').symm, hold⟩
      · exact .inr fun c hc => hnow ▸ hpresent c hc
    · exact .inl ⟨t', ht', rfl, hd⟩
  | @lockRow tx t id ht hcall hphase _ hfree =>
    refine h.frame (apply_history _ _ _ _) fun other t' d ht' hd => ?_
    rcases apply_txs_cases ht' with ⟨rfl, ht'⟩ | ⟨hother, ht'⟩
    · obtain rfl := eq_of_lock ht'
      cases hd
    · exact .inl ⟨t', ht', rfl, hd⟩
  | @fault tx t ht =>
    refine h.frame (apply_history _ _ _ _) fun other t' d ht' hd => ?_
    rcases apply_txs_cases ht' with ⟨rfl, ht'⟩ | ⟨hother, ht'⟩
    · obtain rfl := eq_of_enter ht'
      cases hd
    · exact .inl ⟨t', ht', rfl, hd⟩
  | @rollback tx t ht =>
    refine h.frame rfl fun other t' d ht' hd => ?_
    obtain ⟨hother, ht'⟩ := finish_txs_cases ht'
    exact .inl ⟨t', ht', rfl, hd⟩
  | @commit tx t d inserted ht hphase =>
    have hd : t.phase.decision? = some d := by rw [hphase]; rfl
    have hdecided := (hexplained tx t ht).decided hd
    refine ⟨fun other t' d' ht' hd' c hc => ?_, ?_⟩
    · obtain ⟨hother, ht'⟩ := finish_txs_cases ht'
      rcases List.mem_append.mp hc with hc | hc
      · exact h.live other t' d' ht' hd' c hc
      · obtain rfl := List.mem_singleton.mp hc
        have hdecided' := (hexplained other t' ht').decided hd'
        exact .inr ⟨not_touched_of_changed hother.symm hdecided hdecided',
          not_touched_of_changed hother hdecided' hdecided⟩
    · refine List.pairwise_append.mpr ⟨h.past, List.pairwise_singleton _ _, fun c hc c' hc' => ?_⟩
      obtain rfl := List.mem_singleton.mp hc'
      exact h.live tx t d ht hd c hc

/-- In a forward run conflicting transactions decide in their commit order. -/
theorem InstantOrder.reaches {w₀ w : World} (h₀ : w₀.Initial) (h : Reaches forwardStep w₀ w) :
    InstantOrder w := by
  refine h.rec_tail (motive := InstantOrder) ⟨?_, ?_⟩ fun v a v' hreach ih hstep => ?_
  · intro tx t d ht
    simp [h₀.noTx tx] at ht
  · rw [h₀.noHistory]
    exact List.Pairwise.nil
  · exact ih.step (AllExplained.reaches h₀ hreach.of_guarded) (.reaches h₀ hreach)
      (guarded_eq_some.mp hstep).2

end DurableRunner.Sessions
