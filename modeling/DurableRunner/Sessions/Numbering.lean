import DurableRunner.Sessions.StepCases

/-! # Transaction numbers and locks

A transaction number is used once, and a row lock belongs to a transaction that
is still running.
-/
namespace DurableRunner.Sessions
open Schema Operations TransitionSystem

/-- Transaction numbers are handed out in order and never again. -/
structure Numbered (w : World) : Prop where
  live : ∀ tx, (w.txs tx).isSome → tx < w.nextTx ∧ ∀ c ∈ w.history, c.tx ≠ tx
  past : ∀ c ∈ w.history, c.tx < w.nextTx
  once : (w.history.map Commit.tx).Nodup
  holders : ∀ id tx, w.holder id = some tx → (w.txs tx).isSome

theorem apply_txs_isSome {w : World} {tx : TxId} {t : Tx} {m : Move} (ht : w.txs tx = some t)
    (other : TxId) : ((w.apply tx t m).txs other).isSome = (w.txs other).isSome := by
  by_cases h : other = tx
  · subst h
    cases m <;> simp [World.apply, World.setTx, ht]
  · rw [apply_txs_of_ne _ _ _ _ h]

theorem apply_holder_cases {w : World} {tx other : TxId} {t : Tx} {m : Move} {id : StepId}
    (h : (w.apply tx t m).holder id = some other) : other = tx ∨ w.holder id = some other := by
  cases m with
  | enter phase => exact .inr h
  | insert e d owed inserted => exact .inr h
  | lock locked phase =>
    simp only [World.apply, Function.update_apply] at h
    split at h
    · exact .inl (Option.some.inj h).symm
    · exact .inr h

theorem finish_holder_cases {w : World} {tx other : TxId} {id : StepId}
    (h : (w.finish tx).holder id = some other) : other ≠ tx ∧ w.holder id = some other := by
  simp only [World.finish] at h
  split at h
  · cases h
  · rename_i hne
    exact ⟨fun e => hne (e ▸ h), h⟩

theorem Numbered.apply {w : World} {tx : TxId} {t : Tx} {m : Move} (h : Numbered w)
    (ht : w.txs tx = some t) : Numbered (w.apply tx t m) where
  live other := by
    rw [apply_txs_isSome ht, apply_nextTx, apply_history]
    exact h.live other
  past := by simpa using h.past
  once := by simpa using h.once
  holders id other hheld := by
    rw [apply_txs_isSome ht]
    rcases apply_holder_cases hheld with rfl | hheld
    · simp [ht]
    · exact h.holders id other hheld

theorem Numbered.finish {w : World} {tx : TxId} (h : Numbered w) : Numbered (w.finish tx) where
  live other hlive := by
    have hother : other ≠ tx := fun e => by simp [e] at hlive
    rw [finish_txs_of_ne _ _ hother] at hlive
    exact h.live other hlive
  past := h.past
  once := h.once
  holders id other hheld := by
    obtain ⟨hother, hheld⟩ := finish_holder_cases hheld
    rw [finish_txs_of_ne _ _ hother]
    exact h.holders id other hheld

theorem Numbered.step {w w' : World} {a : Action} (h : Numbered w)
    (hstep : Sessions.step w a = some w') : Numbered w' := by
  cases step_cases hstep with
  | tick clock => exact ⟨h.live, h.past, h.once, h.holders⟩
  | start call hadmissible =>
    refine ⟨fun other hlive => ?_, fun c hc => Nat.lt_succ_of_lt (h.past c hc), h.once,
      fun id other hheld => ?_⟩
    · by_cases hother : other = w.nextTx
      · subst hother
        exact ⟨Nat.lt_succ_self _, fun c hc => (h.past c hc).ne⟩
      · simp only [World.begin, World.setTx, Function.update_of_ne hother] at hlive ⊢
        exact ⟨Nat.lt_succ_of_lt (h.live other hlive).1, (h.live other hlive).2⟩
    · have hother := h.holders id other hheld
      simp only [World.begin, World.setTx, Function.update_of_ne (h.live other hother).1.ne]
      exact hother
  | run ht hmove => exact h.apply ht
  | lockRow ht hcall hphase hpresent hfree => exact h.apply ht
  | fault ht => exact h.apply ht
  | rollback ht => exact h.finish
  | @commit tx t d inserted ht hphase =>
    have htx := h.live tx (by simp [ht])
    have hfinish : Numbered (w.finish tx) := h.finish
    refine ⟨fun other hlive => ?_, ?_, ?_, hfinish.holders⟩
    · have hother : other ≠ tx := fun e => by simp [World.publish, e] at hlive
      refine ⟨(hfinish.live other hlive).1, fun c hc => ?_⟩
      rcases List.mem_append.mp hc with hc | hc
      · exact (hfinish.live other hlive).2 c hc
      · obtain rfl := List.mem_singleton.mp hc
        exact hother.symm
    · intro c hc
      rcases List.mem_append.mp hc with hc | hc
      · exact h.past c hc
      · obtain rfl := List.mem_singleton.mp hc
        exact htx.1
    · simp only [World.publish, List.map_append, List.map_singleton]
      refine h.once.append (List.nodup_singleton _) fun number hmem hself => ?_
      obtain ⟨c, hc, rfl⟩ := List.mem_map.mp hmem
      exact htx.2 c hc (by simpa using hself)

theorem Numbered.of_initial {w : World} (h : w.Initial) : Numbered w where
  live tx hlive := by simp [h.noTx tx] at hlive
  past := by simp [h.noHistory]
  once := by simp [h.noHistory]
  holders id tx hheld := by simp [h.noLock id] at hheld

theorem Numbered.reaches {w₀ w : World} (h₀ : w₀.Initial) (h : Reaches Sessions.step w₀ w) :
    Numbered w :=
  h.invariant (fun _ _ _ => Numbered.step) (.of_initial h₀)

/-- Every row is locked by a transaction that has begun. -/
theorem begun_of_reaches {w₀ w : World} (h₀ : w₀.Initial) (h : Reaches step w₀ w) :
    ∀ id tx, w.holder id = some tx → tx < w.nextTx := by
  have hnumbered := Numbered.reaches h₀ h
  exact fun id tx hheld => (hnumbered.live tx (hnumbered.holders id tx hheld)).1

end DurableRunner.Sessions
