import DurableRunner.TransitionSystem.Runs
import Mathlib.Data.List.Sort

/-! # Reordering a run by a key

Sorting a schedule keeps its effect when every pair that the sort inverts can
be swapped. This is what turns a commit order into an order of instants.
-/
namespace DurableRunner.TransitionSystem

variable {State Action : Type*} (step : State → Action → Option State)

/-- Two consecutive actions whose order does not matter to any run. -/
def Swappable (a b : Action) : Prop :=
  ∀ s t, run step s [a, b] = some t → run step s [b, a] = some t

variable {step} {r : Action → Action → Prop} [DecidableRel r]

theorem run_swap {s t : State} {a b : Action} {rest : List Action} (h : Swappable step a b)
    (hrun : run step s (a :: b :: rest) = some t) : run step s (b :: a :: rest) = some t := by
  have hsplit : run step s ([a, b] ++ rest) = some t := hrun
  obtain ⟨m, hm, hrest⟩ := (run_append_eq_some step).mp hsplit
  have hjoin : run step s ([b, a] ++ rest) = some t :=
    (run_append_eq_some step).mpr ⟨m, h s m hm, hrest⟩
  exact hjoin

/-- Moving one action into a sorted tail passes only actions it inverts. -/
theorem run_orderedInsert {a : Action} {as : List Action}
    (hswap : ∀ b ∈ as, r a b ∨ Swappable step a b) {s t : State}
    (hrun : run step s (a :: as) = some t) : run step s (as.orderedInsert r a) = some t := by
  induction as generalizing s with
  | nil => exact hrun
  | cons b as ih =>
    by_cases hab : r a b
    · simpa [hab] using hrun
    · have hb : Swappable step a b := (hswap b List.mem_cons_self).resolve_left hab
      obtain ⟨m, hm, hrest⟩ := (run_cons_eq_some step).mp (run_swap hb hrun)
      rw [List.orderedInsert, if_neg hab]
      exact (run_cons_eq_some step).mpr
        ⟨m, hm, ih (fun c hc => hswap c (List.mem_cons_of_mem b hc)) hrest⟩

/-- Sorting a schedule whose inverted pairs swap keeps the state it reaches. -/
theorem run_insertionSort {as : List Action}
    (hswap : as.Pairwise fun a b => r a b ∨ Swappable step a b) {s t : State}
    (hrun : run step s as = some t) : run step s (as.insertionSort r) = some t := by
  induction as generalizing s with
  | nil => exact hrun
  | cons a as ih =>
    obtain ⟨ha, has⟩ := List.pairwise_cons.mp hswap
    obtain ⟨m, hm, hrest⟩ := (run_cons_eq_some step).mp hrun
    rw [List.insertionSort_cons]
    refine run_orderedInsert (fun b hb => ha b ?_) ((run_cons_eq_some step).mpr ⟨m, hm, ih has hrest⟩)
    exact (List.mem_insertionSort r).mp hb

end DurableRunner.TransitionSystem
