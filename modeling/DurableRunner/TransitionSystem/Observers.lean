import DurableRunner.TransitionSystem.Runs

/-! # Observers

An observer looks at a system from time to time and takes notes. It never
changes the system.
-/
namespace DurableRunner.TransitionSystem

variable {State Action State' Action' Look Notes : Type*} {step : State → Action → Option State}
  {step' : State' → Action' → Option State'}

/-- The system moves, or the observer looks at it. -/
def observed (step : State → Action → Option State) (look : State → Notes → Look → Option Notes)
    (s : State × Notes) : Action ⊕ Look → Option (State × Notes)
  | .inl a => (step s.1 a).map fun t => (t, s.2)
  | .inr l => (look s.1 s.2 l).map fun notes => (s.1, notes)

variable {look : State → Notes → Look → Option Notes} {look' : State' → Notes → Look → Option Notes}
  {s t : State × Notes}

theorem Reaches.unobserved (h : Reaches (observed step look) s t) : Reaches step s.1 t.1 := by
  refine h.rec_tail (motive := fun t => Reaches step s.1 t.1) (.refl _) fun m a u _ hm hstep => ?_
  cases a with
  | inl a =>
    obtain ⟨u, hu, rfl⟩ := Option.map_eq_some_iff.mp hstep
    exact hm.tail hu
  | inr l =>
    obtain ⟨notes, -, rfl⟩ := Option.map_eq_some_iff.mp hstep
    exact hm

theorem Reaches.unnoticed {s t : State} (h : Reaches step s t) (notes : Notes) :
    Reaches (observed step look) (s, notes) (t, notes) :=
  h.rec_tail (motive := fun t => Reaches (observed step look) (s, notes) (t, notes)) (.refl _)
    fun m a u _ hm hstep => hm.tail (a := .inl a) (by simp [observed, hstep])

/-- Simulated by what looks the same, a system is seen to do what the other one does. `Good` is
what the simulation needs of a state, and what an earlier state has as well. -/
theorem Reaches.observed {R : State → State' → Prop} (Good : State → Prop)
    (hback : ∀ s a t, step s a = some t → Good t → Good s)
    (hmatched : ∀ s a t s', R s s' → step s a = some t → Good t → ∃ t', Reaches step' s' t' ∧ R t t')
    (hlook : ∀ s s', R s s' → look s = look' s') (h : Reaches (observed step look) s t) (hgood : Good t.1)
    {s' : State'} (hs : R s.1 s') :
    ∃ t', Reaches (TransitionSystem.observed step' look') (s', s.2) (t', t.2) ∧ R t.1 t' := by
  refine h.rec_tail (motive := fun t => Good t.1 →
    ∃ t', Reaches (TransitionSystem.observed step' look') (s', s.2) (t', t.2) ∧ R t.1 t')
    (fun _ => ⟨s', .refl _, hs⟩) (fun m a u _ ih hstep hu => ?_) hgood
  cases a with
  | inl a =>
    obtain ⟨u, hmoved, rfl⟩ := Option.map_eq_some_iff.mp hstep
    obtain ⟨m', hm', hm⟩ := ih (hback _ _ _ hmoved hu)
    obtain ⟨u', hu', hrelated⟩ := hmatched _ _ _ _ hm hmoved hu
    exact ⟨u', hm'.trans (hu'.unnoticed _), hrelated⟩
  | inr l =>
    obtain ⟨notes, hnotes, rfl⟩ := Option.map_eq_some_iff.mp hstep
    obtain ⟨m', hm', hm⟩ := ih hu
    refine ⟨m', hm'.tail (a := .inr l) ?_, hm⟩
    simp [TransitionSystem.observed, ← hlook _ _ hm, hnotes]

theorem Reaches.of_observed_guarded {admits : State → Action → Bool}
    (h : Reaches (TransitionSystem.observed (guarded step admits) look) s t) :
    Reaches (TransitionSystem.observed step look) s t := by
  refine h.rec_tail (.refl s) fun m a u _ hm hstep => hm.tail (a := a) ?_
  cases a with
  | inl a =>
    obtain ⟨u, hu, rfl⟩ := Option.map_eq_some_iff.mp hstep
    exact Option.map_eq_some_iff.mpr ⟨u, (guarded_eq_some.mp hu).2, rfl⟩
  | inr l => exact hstep

end DurableRunner.TransitionSystem
