import DurableRunner.Sessions.Accepted
import DurableRunner.Sessions.Draining
import DurableRunner.Sessions.Numbering

/-! # A table that only claimers write

While only claims run and all of them commit, a row is claimed at most once, by
the transaction whose COMMIT wrote it; every other row is as it was.
-/
namespace DurableRunner.Sessions
open Schema Operations TransitionSystem

def IsClaim (call : Call) : Prop := ∃ workerId ms, call = .claimNextStep workerId ms

/-- Claims begin, move and commit; the clock passes no `available_at`. -/
def Contends (w₀ : World) : Action → Prop
  | .tick clock => SameAvailability w₀ clock
  | .start call => IsClaim call
  | .run _ | .commit _ => True
  | .lockRow _ _ | .fault _ | .rollback _ => False

def Taken (w : World) (id : StepId) : Prop := ∃ c ∈ w.history, id ∈ c.written

theorem Taken.of_history {w w' : World} (hhistory : w'.history = w.history) {id : StepId}
    (h : Taken w id) : Taken w' id := by
  unfold Taken
  rw [hhistory]
  exact h

/-- What claims leave behind: each row as it was, or as the one claim of it made it. -/
structure Contested (w₀ w : World) : Prop where
  reading : SameAvailability w₀ w.clock
  claims : ∀ tx t, w.txs tx = some t → IsClaim t.call ∧ SameAvailability w₀ t.start
  commits : ∀ c ∈ w.history, IsClaim c.call
  handed : ∀ c ∈ w.history, ∀ ch ∈ c.decision.changes,
    w₀.steps.find? ch.before.id = some ch.before ∧ claimEligible w₀.clock ch.before = true ∧
      w.steps.find? ch.before.id = some ch.after ∧ ch.after.status = .running
  kept : ∀ id, ¬ Taken w id → w.steps.find? id = w₀.steps.find? id
  once : w.history.Pairwise fun c c' => ∀ id ∈ c.written, id ∉ c'.written

theorem Contested.not_taken {w₀ w : World} (h : Contested w₀ w) {r : StepRow}
    (hr : w.steps.find? r.id = some r) (hready : r.status = .ready) :
    ¬ Taken w r.id ∧ w₀.steps.find? r.id = some r := by
  have hfree : ¬ Taken w r.id := by
    rintro ⟨c, hc, hwritten⟩
    obtain ⟨ch, hch, hid⟩ := List.mem_map.mp hwritten
    obtain ⟨-, -, hafter, hrunning⟩ := h.handed c hc ch hch
    rw [hid, hr] at hafter
    rw [← Option.some.inj hafter, hready] at hrunning
    cases hrunning
  exact ⟨hfree, (h.kept r.id hfree).symm.trans hr⟩

theorem Contested.taken_of_ne {w₀ w : World} (h : Contested w₀ w) {r newest : StepRow}
    (hr : w₀.steps.find? r.id = some r) (hnewest : w.steps.find? r.id = some newest)
    (hne : newest ≠ r) : Taken w r.id := by
  by_contra hfree
  rw [h.kept _ hfree, hr] at hnewest
  exact hne (Option.some.inj hnewest).symm

theorem Contested.present {w₀ w : World} (h : Contested w₀ w) {id : StepId} {r : StepRow}
    (hr : w₀.steps.find? id = some r) : w.steps.find? id ≠ none := by
  intro hnone
  by_cases htaken : Taken w id
  · obtain ⟨c, hc, hwritten⟩ := htaken
    obtain ⟨ch, hch, rfl⟩ := List.mem_map.mp hwritten
    rw [(h.handed c hc ch hch).2.2.1] at hnone
    cases hnone
  · rw [h.kept id htaken, hr] at hnone
    cases hnone

theorem claimEligible_of_sameAvailability {w₀ : World} {now : Timestamp} {r : StepRow}
    (hnow : SameAvailability w₀ now) (hr : w₀.steps.find? r.id = some r) :
    claimEligible now r = claimEligible w₀.clock r := by
  rw [claimEligible, claimEligible, decide_eq_decide.mpr (hnow r (Relational.Table.mem_iff_find?.mpr hr))]

theorem Contested.of_initial {w₀ : World} (h₀ : w₀.Initial) : Contested w₀ w₀ where
  reading _ _ := Iff.rfl
  claims tx t ht := by rw [h₀.noTx] at ht; cases ht
  commits := by simp [h₀.noHistory]
  handed := by simp [h₀.noHistory]
  kept _ _ := rfl
  once := by simp [h₀.noHistory]

theorem Contested.commit {w₀ w : World} {tx : TxId} {t : Tx} {d : Decision}
    {inserted : List EventRow} (h : Contested w₀ w) (ht : w.txs tx = some t)
    (hperforms : Performs w.steps t.call t.start d) : Contested w₀ (w.publish tx t d inserted) := by
  obtain ⟨⟨workerId, ms, hcall⟩, hstart⟩ := h.claims tx t ht
  let c : Commit := ⟨tx, t.call, t.start, t.lockedAt, d, inserted, w.clock⟩
  have hhistory : (w.publish tx t d inserted).history = w.history ++ [c] := rfl
  have hsteps : (w.publish tx t d inserted).steps =
      w.steps.setAll (d.changes.map Change.after) := rfl
  have hnew : ∀ ch ∈ d.changes, ¬ Taken w ch.before.id ∧
      w₀.steps.find? ch.before.id = some ch.before ∧ claimEligible w₀.clock ch.before = true ∧
      ch.after.status = .running := by
    intro ch hch
    have htransition := hperforms.transition hch
    rw [hcall] at htransition
    cases htransition with
    | claim hready havailable hbudget _ _ hcols =>
      obtain ⟨hfree, hfirst⟩ := h.not_taken (hperforms.current ch hch) hready
      refine ⟨hfree, hfirst, ?_, by rw [hcols]⟩
      rw [← claimEligible_of_sameAvailability hstart hfirst]
      exact claimEligible_iff.mpr ⟨hready, havailable, hbudget⟩
  have hdisjoint : ∀ c' ∈ w.history, ∀ id ∈ c'.written, id ∉ c.written := by
    intro c' hc' id hid hwritten
    obtain ⟨ch, hch, rfl⟩ := List.mem_map.mp hwritten
    exact (hnew ch hch).1 ⟨c', hc', hid⟩
  refine ⟨h.reading, fun other t' ht' => h.claims other t' (finish_txs_cases ht').2, ?_, ?_, ?_, ?_⟩
  · rw [hhistory]
    intro c' hc'
    rcases List.mem_append.mp hc' with hc' | hc'
    · exact h.commits c' hc'
    · obtain rfl := List.mem_singleton.mp hc'
      exact ⟨workerId, ms, hcall⟩
  · rw [hhistory, hsteps]
    intro c' hc' ch hch
    rcases List.mem_append.mp hc' with hc' | hc'
    · obtain ⟨hfirst, heligible, hafter, hrunning⟩ := h.handed c' hc' ch hch
      refine ⟨hfirst, heligible, ?_, hrunning⟩
      rw [Relational.Table.find?_setAll_of_not_mem, hafter]
      rw [hperforms.after_ids]
      exact hdisjoint c' hc' _ (List.mem_map_of_mem hch)
    · obtain rfl := List.mem_singleton.mp hc'
      obtain ⟨-, hfirst, heligible, hrunning⟩ := hnew ch hch
      refine ⟨hfirst, heligible, ?_, hrunning⟩
      have hold : w.steps.find? ch.after.id = some ch.before := by
        rw [hperforms.after_id ch hch]
        exact hperforms.current ch hch
      have hdistinct : ((d.changes.map Change.after).map fun r => r.id).Nodup := by
        rw [hperforms.after_ids]
        exact hperforms.distinct
      rw [← hperforms.after_id ch hch]
      exact Relational.Table.find?_setAll_of_mem _ hdistinct (List.mem_map_of_mem hch) hold
  · intro id hfree
    have hbefore : ¬ Taken w id := fun ⟨c', hc', hid⟩ =>
      hfree ⟨c', by rw [hhistory]; exact List.mem_append_left _ hc', hid⟩
    rw [hsteps, Relational.Table.find?_setAll_of_not_mem, h.kept id hbefore]
    rw [hperforms.after_ids]
    exact fun hid => hfree ⟨c, by rw [hhistory]; simp, hid⟩
  · rw [hhistory]
    refine List.pairwise_append.mpr ⟨h.once, List.pairwise_singleton _ _, fun c' hc' c'' hc'' => ?_⟩
    obtain rfl := List.mem_singleton.mp hc''
    exact hdisjoint c' hc'

theorem Contested.step {w₀ w w' : World} {a : Action} (h : Contested w₀ w)
    (hexplained : AllExplained w) (ha : Contends w₀ a) (hstep : Sessions.step w a = some w') :
    Contested w₀ w' := by
  cases step_cases hstep with
  | tick clock => exact ⟨ha, h.claims, h.commits, h.handed, h.kept, h.once⟩
  | start call hadmissible =>
    refine ⟨h.reading, fun tx t ht => ?_, h.commits, h.handed, h.kept, h.once⟩
    rcases begin_txs_cases ht with ⟨-, rfl⟩ | ⟨-, ht⟩
    · exact ⟨ha, h.reading⟩
    · exact h.claims tx t ht
  | @run tx t m ht hmove =>
    refine ⟨by simpa using h.reading, fun other t' ht' => ?_, by simpa using h.commits,
      by simpa using h.handed, fun id hfree => ?_, by simpa using h.once⟩
    · rcases apply_txs_cases ht' with ⟨-, ht'⟩ | ⟨-, ht'⟩
      · obtain ⟨t'', ht'', hcall, hstart, -⟩ := apply_txs_self w tx t m
        obtain rfl := Option.some.inj (ht'.symm.trans ht'')
        rw [hcall, hstart]
        exact h.claims tx t ht
      · exact h.claims other t' ht'
    · rw [apply_steps]
      exact h.kept id (by simpa [Taken] using hfree)
  | @commit tx t d inserted ht hphase =>
    have hdone := hexplained tx t ht
    simp only [Explained, hphase] at hdone
    exact h.commit ht hdone.1.performs
  | lockRow | fault | rollback => cases ha

end DurableRunner.Sessions
