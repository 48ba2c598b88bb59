import DurableRunner.Operations.RowLife
import DurableRunner.TransitionSystem.Reordering
import Mathlib.Algebra.Order.Group.Multiset

/-! # Calls as single indivisible steps

What the operations are for, with no transactions in sight: each call happens at
one instant, on the rows it names, and reports what it did.
-/
namespace DurableRunner.Abstract
open Schema Operations TransitionSystem

/-- The contents of a stored event, without its id and xid. -/
@[ext] structure EventContent extends NewEvent where
  createdAt : Timestamp
deriving DecidableEq

/-- One call, the instant it happens at, the rows it returned, the times written
into its events, and the value it returned. -/
structure AtomicCall where
  tx : ℕ
  call : Call
  start : Timestamp
  instant : Timestamp
  rows : List StepId
  created : List Timestamp
  outcome : Outcome

@[ext] structure Contents where
  steps : StepsTable
  events : Multiset EventContent

namespace AtomicCall

/-- The rows the call is about: the one of its credential, or those it returned. -/
def targets (op : AtomicCall) : List StepId :=
  match op.call.credential? with
  | some cred => [cred.id]
  | none => op.rows

/-- The changes of the call at its instant. Every target must satisfy the predicate
of the call there, and the changed rows must be the returned ones. -/
def changes (op : AtomicCall) (steps : StepsTable) : Option (List Change) :=
  let rows := op.targets.filterMap steps.find?
  if rows.all fun r => op.call.eligible op.start op.instant r then
    match op.call.updateAll op.start op.instant (rows.map fun r => (r, op.instant)) with
    | .ok changes => if changes.map (fun c => c.before.id) = op.rows then some changes else none
    | .error _ => none
  else none

/-- The call as one step. It reports its own outcome. -/
def step (s : Contents) (op : AtomicCall) : Option Contents :=
  (op.changes s.steps).bind fun changes =>
    if op.rows.Nodup ∧ op.rows.length ≤ op.call.limit ∧
        op.call.outcome op.instant changes = op.outcome ∧
        op.created.length = (op.call.events changes).length then
      some ⟨s.steps.setAll (changes.map Change.after),
        s.events + ↑((op.call.events changes).zipWith EventContent.mk op.created)⟩
    else none

/-- Neither call writes a row that the other is about. -/
def Apart (a b : AtomicCall) : Prop :=
  (∀ id ∈ a.rows, id ∉ b.targets ++ b.rows) ∧ ∀ id ∈ b.rows, id ∉ a.targets ++ a.rows

theorem changes_eq_some {op : AtomicCall} {steps : StepsTable} {cs : List Change} :
    op.changes steps = some cs ↔
      (∀ r ∈ op.targets.filterMap steps.find?,
        op.call.eligible op.start op.instant r = true) ∧
      op.call.updateAll op.start op.instant
        ((op.targets.filterMap steps.find?).map fun r => (r, op.instant)) = .ok cs ∧
      cs.map (fun c => c.before.id) = op.rows := by
  unfold changes
  dsimp only
  constructor
  · intro h
    split at h
    · rename_i heligible
      split at h
      · rename_i cs' hupdate
        split at h
        · rename_i hrows
          obtain rfl := Option.some.inj h
          exact ⟨List.all_eq_true.mp heligible, hupdate, hrows⟩
        · cases h
      · cases h
    · cases h
  · rintro ⟨heligible, hupdate, hrows⟩
    rw [if_pos (List.all_eq_true.mpr heligible), hupdate]
    exact if_pos hrows

theorem after_ids {op : AtomicCall} {steps : StepsTable} {cs : List Change}
    (h : op.changes steps = some cs) : (cs.map Change.after).map StepRow.key = op.rows := by
  obtain ⟨-, hupdate, hrows⟩ := changes_eq_some.mp h
  rw [← hrows, List.map_map]
  exact List.map_congr_left fun c hc => Call.update_id (Call.updateAll_updated hupdate c hc)

theorem changes_congr {op : AtomicCall} {steps steps' : StepsTable}
    (h : ∀ id ∈ op.targets, steps'.find? id = steps.find? id) : op.changes steps' = op.changes steps := by
  have hrows : op.targets.filterMap steps'.find? = op.targets.filterMap steps.find? :=
    List.filterMap_congr h
  unfold changes
  rw [hrows]

theorem step_eq_some {s t : Contents} {op : AtomicCall} :
    step s op = some t ↔ ∃ cs, op.changes s.steps = some cs ∧
      (op.rows.Nodup ∧ op.rows.length ≤ op.call.limit ∧
        op.call.outcome op.instant cs = op.outcome ∧
        op.created.length = (op.call.events cs).length) ∧
      t = ⟨s.steps.setAll (cs.map Change.after),
        s.events + ↑((op.call.events cs).zipWith EventContent.mk op.created)⟩ := by
  rw [step, Option.bind_eq_some_iff]
  refine exists_congr fun cs => and_congr_right fun _ => ?_
  split
  · rename_i hguard
    rw [Option.some.injEq, eq_comm]
    exact ⟨fun h => ⟨hguard, h⟩, fun h => h.2⟩
  · rename_i hguard
    exact ⟨nofun, fun h => absurd h.1 hguard⟩

theorem swappable_of_apart {a b : AtomicCall} (h : a.Apart b) : Swappable step a b := by
  intro s t hrun
  obtain ⟨s₁, ha, hrun⟩ := (run_cons_eq_some _).mp hrun
  obtain ⟨s₂, hb, hrun⟩ := (run_cons_eq_some _).mp hrun
  obtain rfl : s₂ = t := by simpa using hrun
  obtain ⟨cs, hcs, hguard, rfl⟩ := step_eq_some.mp ha
  obtain ⟨ds, hds, hguard', rfl⟩ := step_eq_some.mp hb
  have hcsIds := after_ids hcs
  have hdsIds := after_ids hds
  have hds' : b.changes s.steps = some ds := by
    rw [← hds]
    refine (changes_congr fun id hid => ?_).symm
    refine Relational.Table.find?_setAll_of_not_mem _ fun hmem => ?_
    rw [hcsIds] at hmem
    exact h.1 id hmem (List.mem_append_left _ hid)
  have hcs' : a.changes (s.steps.setAll (ds.map Change.after)) = some cs := by
    rw [← hcs]
    refine changes_congr fun id hid => ?_
    refine Relational.Table.find?_setAll_of_not_mem _ fun hmem => ?_
    rw [hdsIds] at hmem
    exact h.2 id hmem (List.mem_append_left _ hid)
  refine (run_cons_eq_some _).mpr ⟨_, step_eq_some.mpr ⟨ds, hds', hguard', rfl⟩, ?_⟩
  refine (run_cons_eq_some _).mpr ⟨_, step_eq_some.mpr ⟨cs, hcs', hguard, rfl⟩, ?_⟩
  rw [run_nil, Option.some.injEq]
  refine Contents.ext ?_ (add_right_comm _ _ _)
  refine Relational.Table.setAll_comm _ fun r hr hmem => ?_
  rw [hcsIds] at hmem
  refine h.1 _ hmem (List.mem_append_right _ ?_)
  rw [← hdsIds]
  exact List.mem_map_of_mem hr

end AtomicCall
end DurableRunner.Abstract
