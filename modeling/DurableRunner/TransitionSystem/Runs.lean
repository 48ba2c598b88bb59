import Mathlib.Data.List.Induction
import Mathlib.Logic.Function.Basic

/-! # Finite runs of a partial step function

A schedule is a list of actions. Executing it fails as soon as one action is
not enabled, so a run is exactly a schedule whose execution succeeds.
-/
namespace DurableRunner.TransitionSystem

variable {State Action : Type*} (step : State → Action → Option State)

def run : State → List Action → Option State
  | s, [] => some s
  | s, a :: as => (step s a).bind fun t => run t as

@[simp] theorem run_nil (s : State) : run step s [] = some s := rfl

theorem run_cons (s : State) (a : Action) (as : List Action) :
    run step s (a :: as) = (step s a).bind fun t => run step t as := rfl

theorem run_cons_eq_some {s u : State} {a : Action} {as : List Action} :
    run step s (a :: as) = some u ↔ ∃ t, step s a = some t ∧ run step t as = some u := by
  rw [run_cons, Option.bind_eq_some_iff]

theorem run_append (s : State) (as bs : List Action) :
    run step s (as ++ bs) = (run step s as).bind fun t => run step t bs := by
  induction as generalizing s with
  | nil => rfl
  | cons a as ih =>
    simp only [List.cons_append, run_cons, Option.bind_assoc]
    congr 1
    funext t
    exact ih t

theorem run_append_eq_some {s u : State} {as bs : List Action} :
    run step s (as ++ bs) = some u ↔
      ∃ t, run step s as = some t ∧ run step t bs = some u := by
  rw [run_append, Option.bind_eq_some_iff]

theorem run_concat_eq_some {s u : State} {as : List Action} {a : Action} :
    run step s (as ++ [a]) = some u ↔ ∃ t, run step s as = some t ∧ step t a = some u := by
  rw [run_append_eq_some]
  simp [run_cons]

theorem run_take {s u : State} {as : List Action} (h : run step s as = some u) (n : ℕ) :
    ∃ t, run step s (as.take n) = some t := by
  rw [← List.take_append_drop n as] at h
  obtain ⟨t, ht, -⟩ := (run_append_eq_some step).mp h
  exact ⟨t, ht⟩

theorem run_map {Source : Type*} (f : Source → Action) (s : State) (as : List Source) :
    run step s (as.map f) = run (fun s a => step s (f a)) s as := by
  induction as generalizing s with
  | nil => rfl
  | cons a as ih =>
    rw [List.map_cons, run_cons, run_cons]
    congr 1
    funext t
    exact ih t

def Reaches (s t : State) : Prop := ∃ as, run step s as = some t

variable {step}

theorem Reaches.refl (s : State) : Reaches step s s := ⟨[], rfl⟩

theorem Reaches.trans {s t u : State} (h : Reaches step s t) (h' : Reaches step t u) :
    Reaches step s u := by
  obtain ⟨as, has⟩ := h
  obtain ⟨bs, hbs⟩ := h'
  exact ⟨as ++ bs, (run_append_eq_some step).mpr ⟨t, has, hbs⟩⟩

theorem Reaches.single {s t : State} {a : Action} (h : step s a = some t) : Reaches step s t :=
  ⟨[a], by simp [run_cons, h]⟩

theorem Reaches.tail {s t u : State} {a : Action} (h : Reaches step s t)
    (ha : step t a = some u) : Reaches step s u := h.trans (.single ha)

/-- Induction on a run, one last action at a time. -/
theorem Reaches.rec_tail {s : State} {motive : State → Prop} (start : motive s)
    (tail : ∀ t a u, Reaches step s t → motive t → step t a = some u → motive u)
    {t : State} (h : Reaches step s t) : motive t := by
  obtain ⟨as, has⟩ := h
  induction as using List.reverseRecOn generalizing t with
  | nil =>
    obtain rfl : s = t := by simpa using has
    exact start
  | append_singleton as a ih =>
    obtain ⟨m, hm, hstep⟩ := (run_concat_eq_some step).mp has
    exact tail m a t ⟨as, hm⟩ (ih hm) hstep

/-- What every step preserves, every run preserves. -/
theorem Reaches.invariant {Inv : State → Prop}
    (preserved : ∀ s a t, Inv s → step s a = some t → Inv t)
    {s t : State} (h : Reaches step s t) (hs : Inv s) : Inv t :=
  h.rec_tail hs fun m a u _ hm hstep => preserved m a u hm hstep

/-- A reflexive and transitive relation that every step respects relates the
two ends of every run. -/
theorem Reaches.relation {R : State → State → Prop} (refl : ∀ s, R s s)
    (trans : ∀ s t u, R s t → R t u → R s u) (respects : ∀ s a t, step s a = some t → R s t)
    {s t : State} (h : Reaches step s t) : R s t :=
  h.rec_tail (refl s) fun m a u _ hm hstep => trans s m u hm (respects m a u hstep)

theorem Reaches.relation_of_invariant {Inv : State → Prop} {R : State → State → Prop}
    (preserved : ∀ s a t, Inv s → step s a = some t → Inv t) (refl : ∀ s, R s s)
    (trans : ∀ s t u, R s t → R t u → R s u)
    (respects : ∀ s a t, Inv s → step s a = some t → R s t)
    {s t : State} (h : Reaches step s t) (hs : Inv s) : R s t :=
  h.rec_tail (refl s) fun m a u hsm hm hstep =>
    trans s m u hm (respects m a u (hsm.invariant preserved hs) hstep)

/-- Forward simulation: what a run of another system does for every step, one does for every run. -/
theorem Reaches.simulated {State' Action' : Type*} {step' : State' → Action' → Option State'}
    {R : State → State' → Prop}
    (matched : ∀ s a t s', R s s' → step s a = some t → ∃ t', Reaches step' s' t' ∧ R t t')
    {s t : State} {s' : State'} (h : Reaches step s t) (hs : R s s') :
    ∃ t', Reaches step' s' t' ∧ R t t' := by
  refine h.rec_tail (motive := fun t => ∃ t', Reaches step' s' t' ∧ R t t') ⟨s', .refl s', hs⟩ ?_
  rintro m a u - ⟨m', hm', hm⟩ hstep
  obtain ⟨u', hu', hu⟩ := matched m a u m' hm hstep
  exact ⟨u', hm'.trans hu', hu⟩

variable (step)

def guarded (admits : State → Action → Bool) (s : State) (a : Action) : Option State :=
  if admits s a then step s a else none

variable {step}

theorem guarded_eq_some {admits : State → Action → Bool} {s t : State} {a : Action} :
    guarded step admits s a = some t ↔ admits s a = true ∧ step s a = some t := by
  unfold guarded
  split <;> simp_all

theorem run_of_guarded {admits : State → Action → Bool} {s t : State} {as : List Action}
    (h : run (guarded step admits) s as = some t) : run step s as = some t := by
  induction as generalizing s with
  | nil => exact h
  | cons a as ih =>
    obtain ⟨m, hstep, hrest⟩ := (run_cons_eq_some _).mp h
    exact (run_cons_eq_some _).mpr ⟨m, (guarded_eq_some.mp hstep).2, ih hrest⟩

theorem Reaches.of_guarded {admits : State → Action → Bool} {s t : State}
    (h : Reaches (guarded step admits) s t) : Reaches step s t :=
  h.imp fun _ => run_of_guarded

/-- Where every admitted step keeps an invariant and every other step spoils what the invariant
is for, a run consists of admitted steps exactly when nothing is spoilt along it. -/
theorem run_guarded_iff {admits : State → Action → Bool} (Inv Good : State → Prop)
    (good : ∀ s, Inv s → Good s)
    (preserved : ∀ s a t, Inv s → admits s a = true → step s a = some t → Inv t)
    (spoils : ∀ s a t, Inv s → admits s a = false → step s a = some t → ¬Good t)
    {s u : State} {as : List Action} (hs : Inv s) (h : run step s as = some u) :
    run (guarded step admits) s as = some u ↔
      ∀ bs t, bs <+: as → run step s bs = some t → Good t := by
  induction as generalizing s with
  | nil =>
    refine ⟨fun _ bs t hbs ht => ?_, fun _ => h⟩
    obtain rfl := List.prefix_nil.mp hbs
    obtain rfl : s = t := by simpa using ht
    exact good s hs
  | cons a as ih =>
    obtain ⟨m, hstep, hrest⟩ := (run_cons_eq_some step).mp h
    constructor
    · intro hguarded bs t hbs ht
      obtain ⟨m', hm', hrest'⟩ := (run_cons_eq_some _).mp hguarded
      obtain ⟨hadmits, hstep'⟩ := guarded_eq_some.mp hm'
      obtain rfl : m = m' := Option.some.inj (hstep.symm.trans hstep')
      cases bs with
      | nil =>
        obtain rfl : s = t := by simpa using ht
        exact good s hs
      | cons b bs =>
        obtain ⟨rfl, htail⟩ := List.cons_prefix_cons.mp hbs
        obtain ⟨m', hm', ht⟩ := (run_cons_eq_some step).mp ht
        obtain rfl : m = m' := Option.some.inj (hstep.symm.trans hm')
        exact (ih (preserved s b m hs hadmits hstep) hrest).mp hrest' bs t htail ht
    · intro hgood
      have hadmits : admits s a = true := by
        by_contra hnot
        refine spoils s a m hs (by simpa using hnot) hstep (hgood [a] m ?_ ?_)
        · exact List.cons_prefix_cons.mpr ⟨rfl, List.nil_prefix⟩
        · simp [run_cons, hstep]
      refine (run_cons_eq_some _).mpr ⟨m, guarded_eq_some.mpr ⟨hadmits, hstep⟩, ?_⟩
      refine (ih (preserved s a m hs hadmits hstep) hrest).mpr fun bs t hbs ht => ?_
      refine hgood (a :: bs) t (List.cons_prefix_cons.mpr ⟨rfl, hbs⟩) ?_
      exact (run_cons_eq_some step).mpr ⟨m, hstep, ht⟩

end DurableRunner.TransitionSystem
