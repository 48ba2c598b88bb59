import DurableRunner.TransitionSystem.Fairness

/-! # Executions of a component

What a system that interleaves its components does in an execution, one of them
does in an execution of its own, with a pause wherever another one moves.
-/
namespace DurableRunner.TransitionSystem.Execution

variable {State Action : Type*} {step : State → Action → Option State}
variable {Part PartAction : Type*} {partStep : Part → PartAction → Option Part}

/-- An execution from one of its states on. -/
def drop (e : Execution step) (n : ℕ) : Execution step where
  state m := e.state (n + m)
  action m := e.action (n + m)
  follows m := e.follows (n + m)

@[simp] theorem drop_state (e : Execution step) (n m : ℕ) : (e.drop n).state m = e.state (n + m) := rfl

theorem WeaklyFair.drop {e : Execution step} {kind : Action → Prop} (h : e.WeaklyFair kind) (n : ℕ) :
    (e.drop n).WeaklyFair kind := by
  intro k henabled
  obtain ⟨m, hm, a, hkind, haction⟩ := h (n + k) fun m hm => by
    have hlater := henabled (m - n) (by omega)
    rwa [drop_state, Nat.add_sub_of_le (by omega)] at hlater
  refine ⟨m - n, by omega, a, hkind, ?_⟩
  show e.action (n + (m - n)) = some a
  rwa [Nat.add_sub_of_le (by omega)]

/-- What one component does in an execution of the system. -/
def component (e : Execution step) (view : State → Part) (act : Action → Option PartAction)
    (h : ∀ n a, e.action n = some a →
      (act a).elim (some (view (e.state n))) (partStep (view (e.state n))) =
        some (view (e.state (n + 1)))) : Execution partStep where
  state n := view (e.state n)
  action n := (e.action n).bind act
  follows n := by
    cases haction : e.action n with
    | none =>
      have hpause := e.follows n
      rw [haction] at hpause
      rw [← Option.some.inj hpause]
      rfl
    | some a => exact h n a haction

/-- Fairness to the moves of a component, where the system lets it make them. -/
theorem WeaklyFair.component {e : Execution step} {view : State → Part}
    {act : Action → Option PartAction}
    {h : ∀ n a, e.action n = some a →
      (act a).elim (some (view (e.state n))) (partStep (view (e.state n))) =
        some (view (e.state (n + 1)))}
    {kind : Action → Prop} {partKind : PartAction → Prop} (hfair : e.WeaklyFair kind)
    (hacts : ∀ a, kind a → ∃ b, act a = some b ∧ partKind b)
    (henabled : ∀ n, Enabled partStep partKind (view (e.state n)) → Enabled step kind (e.state n)) :
    (e.component view act h).WeaklyFair partKind := by
  intro n hn
  obtain ⟨m, hm, a, hkind, haction⟩ := hfair n fun m hm => henabled m (hn m hm)
  obtain ⟨b, hb, hpart⟩ := hacts a hkind
  refine ⟨m, hm, b, hpart, ?_⟩
  show (e.action m).bind act = some b
  rw [haction]
  exact hb

section LeadsTo
variable {e : Execution step} {p q r : State → Prop}

theorem LeadsTo.of_imp (h : ∀ s, p s → q s) : e.LeadsTo p q := fun n hn => ⟨n, le_rfl, h _ hn⟩

theorem LeadsTo.exists {ι : Sort*} {p : ι → State → Prop} (h : ∀ i, e.LeadsTo (p i) q) :
    e.LeadsTo (fun s => ∃ i, p i s) q := fun n ⟨i, hn⟩ => h i n hn

/-- What is awaited is answered, and the answer is acted upon. -/
theorem LeadsTo.of_answered {Answer : Type*} (awaiting : Option Answer → State → Prop)
    {answers resumes : Action → Prop} (hanswers : e.WeaklyFair answers)
    (hresumes : e.WeaklyFair resumes) (hpending : ∀ s, awaiting none s → Enabled step answers s)
    (hready : ∀ answer s, awaiting (some answer) s → Enabled step resumes s)
    (hanswered : ∀ s a t, awaiting none s → step s a = some t →
      (awaiting none t ∧ ¬ answers a) ∨ ∃ answer, awaiting (some answer) t)
    (hresumed : ∀ answer s a t, awaiting (some answer) s → step s a = some t →
      (awaiting (some answer) t ∧ ¬ resumes a) ∨ q t) (answer : Option Answer) :
    e.LeadsTo (awaiting answer) q := by
  have hsome : ∀ answer, e.LeadsTo (awaiting (some answer)) q := fun answer =>
    .of_weaklyFair hresumes (hready answer)
      (fun s a t hs hstep => (hresumed answer s a t hs hstep).imp_left And.left)
      fun s a t hs ha hstep => (hresumed answer s a t hs hstep).resolve_left fun h => h.2 ha
  cases answer with
  | some answer => exact hsome answer
  | none =>
    refine LeadsTo.trans (q := fun s => ∃ answer, awaiting (some answer) s) ?_ (.exists hsome)
    exact .of_weaklyFair hanswers hpending
      (fun s a t hs hstep => (hanswered s a t hs hstep).imp_left And.left)
      fun s a t hs ha hstep => (hanswered s a t hs hstep).resolve_left fun h => h.2 ha

theorem kept (hkept : ∀ s a t, r s → step s a = some t → r t) {n : ℕ} (hr : r (e.state n)) {m : ℕ}
    (hm : n ≤ m) : r (e.state m) := by
  rcases keeps_or (q := fun _ => False) (fun s a t hs hstep => .inl (hkept s a t hs hstep)) hr with
    hall | ⟨_, _, h⟩
  · exact hall m hm
  · exact h.elim

theorem LeadsTo.and_kept (h : e.LeadsTo p q) (hkept : ∀ s a t, r s → step s a = some t → r t) :
    e.LeadsTo (fun s => p s ∧ r s) fun s => q s ∧ r s := by
  rintro n ⟨hp, hr⟩
  obtain ⟨m, hm, hq⟩ := h n hp
  exact ⟨m, hm, hq, kept hkept hr hm⟩

end LeadsTo
end DurableRunner.TransitionSystem.Execution
