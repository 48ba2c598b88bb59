import DurableRunner.TransitionSystem.Runs
import Mathlib.Data.Nat.Init
import Mathlib.Order.Monotone.Basic
import Mathlib.Order.Nat

/-! # Infinite runs and weak fairness

An execution may pause, so that a run that can go no further is one as well.
-/
namespace DurableRunner.TransitionSystem

variable {State Action : Type*} {step : State → Action → Option State}

/-- What keeps shrinking as long as something does not happen makes it happen. -/
theorem exists_of_measure {p : State → Prop} {u : ℕ → State} {f : State → ℕ}
    (hle : ∀ n, f (u (n + 1)) ≤ f (u n))
    (hless : (∀ n, ¬ p (u n)) → ∀ n, ∃ m, n ≤ m ∧ f (u (m + 1)) < f (u m)) : ∃ n, p (u n) := by
  by_contra hnever
  have hshrinks := hless fun n hn => hnever ⟨n, hn⟩
  have hantitone : Antitone fun n => f (u n) := antitone_nat_of_succ_le hle
  have hbounded : ∀ bound n, ¬ f (u n) ≤ bound := by
    intro bound
    induction bound with
    | zero =>
      intro n hn
      obtain ⟨m, hm, hlt⟩ := hshrinks n
      have hkept : f (u m) ≤ f (u n) := hantitone hm
      omega
    | succ bound ih =>
      intro n hn
      obtain ⟨m, hm, hlt⟩ := hshrinks n
      have hkept : f (u m) ≤ f (u n) := hantitone hm
      exact ih (m + 1) (by omega)
  exact hbounded (f (u 0)) 0 le_rfl

/-- An infinite run; `none` is a pause. -/
structure Execution (step : State → Action → Option State) where
  state : ℕ → State
  action : ℕ → Option Action
  follows : ∀ n, (action n).elim (some (state n)) (step (state n)) = some (state (n + 1))

namespace Execution
variable (e : Execution step)

def Enabled (step : State → Action → Option State) (kind : Action → Prop) (s : State) : Prop :=
  ∃ a t, kind a ∧ step s a = some t

/-- A kind of action that stays enabled is taken. -/
def WeaklyFair (kind : Action → Prop) : Prop :=
  ∀ n, (∀ m, n ≤ m → Enabled step kind (e.state m)) → ∃ m, n ≤ m ∧ ∃ a, kind a ∧ e.action m = some a

/-- Wherever the first holds, the second holds then or later. -/
def LeadsTo (p q : State → Prop) : Prop := ∀ n, p (e.state n) → ∃ m, n ≤ m ∧ q (e.state m)

variable {e} {p q r : State → Prop}

theorem step_of_action {n : ℕ} {a : Action} (h : e.action n = some a) :
    step (e.state n) a = some (e.state (n + 1)) := by
  have hfollows := e.follows n
  rwa [h] at hfollows

theorem reaches (n : ℕ) : Reaches step (e.state 0) (e.state n) := by
  induction n with
  | zero => exact .refl _
  | succ n ih =>
    cases h : e.action n with
    | none =>
      have hfollows := e.follows n
      rw [h] at hfollows
      rwa [← Option.some.inj hfollows]
    | some a => exact ih.tail (step_of_action h)

/-- What every step keeps until something else comes is kept until then. -/
theorem keeps_or (h : ∀ s a t, p s → step s a = some t → p t ∨ q t) {n : ℕ} (hn : p (e.state n)) :
    (∀ m, n ≤ m → p (e.state m)) ∨ ∃ m, n ≤ m ∧ q (e.state m) := by
  by_contra hnever
  simp only [not_or, not_forall, not_exists, not_and] at hnever
  obtain ⟨⟨m, hm, hnot⟩, hq⟩ := hnever
  refine hnot ?_
  induction m, hm using Nat.le_induction with
  | base => exact hn
  | succ m hm ih =>
    have hp : p (e.state m) := by
      by_contra hp
      exact hp (ih hp)
    cases haction : e.action m with
    | none =>
      have hfollows := e.follows m
      rw [haction] at hfollows
      rwa [← Option.some.inj hfollows]
    | some a => exact (h _ a _ hp (step_of_action haction)).resolve_right (hq (m + 1) (by omega))

theorem LeadsTo.trans (h : e.LeadsTo p q) (h' : e.LeadsTo q r) : e.LeadsTo p r := by
  intro n hn
  obtain ⟨m, hm, hq⟩ := h n hn
  obtain ⟨k, hk, hr⟩ := h' m hq
  exact ⟨k, hm.trans hk, hr⟩

/-- A fair kind of action that is enabled until it is taken leads to what it does. -/
theorem LeadsTo.of_weaklyFair {kind : Action → Prop} (hfair : e.WeaklyFair kind)
    (henabled : ∀ s, p s → Enabled step kind s)
    (hkeeps : ∀ s a t, p s → step s a = some t → p t ∨ q t)
    (hacts : ∀ s a t, p s → kind a → step s a = some t → q t) : e.LeadsTo p q := by
  intro n hn
  rcases keeps_or hkeeps hn with hp | hq
  · obtain ⟨m, hm, a, hkind, haction⟩ := hfair n fun m hm => henabled _ (hp m hm)
    exact ⟨m + 1, by omega, hacts _ a _ (hp m hm) hkind (step_of_action haction)⟩
  · exact hq

section OfRun
variable {s u : State} {as : List Action}

/-- A finite run that pauses at its end. -/
def ofRun (h : run step s as = some u) : Execution step where
  state n := (run step s (as.take n)).getD u
  action n := as[n]?
  follows n := by
    obtain ⟨t, ht⟩ := run_take step h n
    rcases Nat.lt_or_ge n as.length with hlt | hge
    · obtain ⟨t', ht'⟩ := run_take step h (n + 1)
      rw [List.take_add_one, List.getElem?_eq_getElem hlt, Option.toList_some,
        run_concat_eq_some] at ht'
      obtain ⟨m, hm, hstep⟩ := ht'
      obtain rfl := Option.some.inj (ht.symm.trans hm)
      have hnext : run step s (as.take (n + 1)) = some t' := by
        rw [List.take_add_one, List.getElem?_eq_getElem hlt, Option.toList_some]
        exact (run_concat_eq_some step).mpr ⟨t, ht, hstep⟩
      simp [ht, hnext, List.getElem?_eq_getElem hlt, hstep]
    · have hnone : as[n]? = none := List.getElem?_eq_none hge
      have hall : as.take n = as := List.take_of_length_le hge
      have hall' : as.take (n + 1) = as := List.take_of_length_le (by omega)
      simp [hnone, hall, hall', h]

theorem ofRun_state_of_le (h : run step s as = some u) {n : ℕ} (hn : as.length ≤ n) :
    (ofRun h).state n = u := by
  simp [ofRun, List.take_of_length_le hn, h]

theorem ofRun_weaklyFair (h : run step s as = some u) {kind : Action → Prop}
    (hnot : ¬Enabled step kind u) : (ofRun h).WeaklyFair kind := by
  intro n henabled
  have hlast := henabled (max n as.length) (le_max_left _ _)
  rw [ofRun_state_of_le h (le_max_right _ _)] at hlast
  exact absurd hlast hnot

end OfRun

section Scheduled
variable (step) (choose : State → Option Action)

def scheduledNext (s : State) : State := ((choose s).bind (step s)).getD s

/-- The execution that takes the action chosen for each state. -/
def scheduled (s : State) : Execution step where
  state n := (scheduledNext step choose)^[n] s
  action n := (choose ((scheduledNext step choose)^[n] s)).filter
    fun a => (step ((scheduledNext step choose)^[n] s) a).isSome
  follows n := by
    rw [Function.iterate_succ_apply', scheduledNext]
    generalize (scheduledNext step choose)^[n] s = t
    cases hchosen : choose t with
    | none => rfl
    | some a => cases hstep : step t a <;> simp [Option.filter, hstep]

variable {step choose} {s : State}

theorem scheduled_succ (n : ℕ) : (scheduled step choose s).state (n + 1) =
    scheduledNext step choose ((scheduled step choose s).state n) :=
  Function.iterate_succ_apply' _ _ _

/-- It is fair to a kind whenever it chooses it where it is enabled. -/
theorem scheduled_weaklyFair {kind : Action → Prop}
    (h : ∀ n, Enabled step kind ((scheduled step choose s).state n) →
      ∃ a t, kind a ∧ choose ((scheduled step choose s).state n) = some a ∧
        step ((scheduled step choose s).state n) a = some t) :
    (scheduled step choose s).WeaklyFair kind := by
  intro n henabled
  obtain ⟨a, t, hkind, hchosen, hstep⟩ := h n (henabled n le_rfl)
  refine ⟨n, le_rfl, a, hkind, ?_⟩
  show Option.filter _ (choose ((scheduled step choose s).state n)) = some a
  rw [hchosen]
  exact Option.filter_some_pos (Option.isSome_iff_exists.mpr ⟨t, hstep⟩)

end Scheduled
end Execution
end DurableRunner.TransitionSystem
