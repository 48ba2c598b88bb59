import DurableRunner.Benchmarks.Claimers
import DurableRunner.Operations.RowHistory
import Mathlib.Algebra.Group.Action.Defs
import Mathlib.Algebra.BigOperators.Ring.Finset

/-! # The committed claims

What the claims that have committed gave out, as the event log and the rows show
it.
-/
namespace DurableRunner.Benchmarks
open Schema Operations Relational TransitionSystem
open Sessions (World TxId Commit Serial Performs claimsOf generations mem_generations)

/-- What a claimer is told when its claim succeeds. -/
def ownershipOf (s : ClaimedStep) : Ownership := ⟨uuidText s.id, s.leaseVersion, s.workerId⟩

/-- What the committed claims gave out, in commit order. -/
def committed (history : List Commit) : List Ownership :=
  (history.filterMap Commit.claimed?).map ownershipOf

theorem committed_concat (history : List Commit) (c : Commit) :
    committed (history ++ [c]) = committed history ++ c.claimed?.toList.map ownershipOf := by
  cases h : c.claimed? <;> simp [committed, h]

/-! ## The event log -/

def recordedBy (e : NewEvent) : Ownership := ⟨uuidText e.stepId, e.data.leaseVersion, e.workerId⟩

theorem recorded_eq (events : List EventRow) : recorded (claimEventRows events) =
    ((events.map EventRow.toNewEvent).filter fun e => e.eventType = .stepClaimed).map recordedBy := by
  simp [recorded, claimEventRows, List.filter_map, Function.comp_def, recordedBy]

theorem eventType_ne_stepClaimed {call : Call} (hcall : ∀ workerId ms, call ≠ .claimNextStep workerId ms)
    {changes : List Change} {e : NewEvent} (he : e ∈ call.events changes) :
    e.eventType ≠ .stepClaimed := by
  obtain ⟨ch, -, hevent⟩ := List.mem_filterMap.mp he
  cases call with
  | claimNextStep workerId ms => exact absurd rfl (hcall workerId ms)
  | renewStepLease | lockRows => cases hevent
  | completeStepSuccess | promoteDueRetries =>
    obtain rfl := Option.some.inj hevent
    exact nofun
  | recordStepFailure =>
    obtain rfl := Option.some.inj hevent
    unfold failEvent
    split <;> exact nofun
  | recoverExpiredSteps =>
    obtain rfl := Option.some.inj hevent
    unfold recoverEvent
    split <;> exact nofun

theorem recorded_commit {steps : StepsTable} {c : Commit} (hperforms : Performs steps c.call c.start c.decision)
    (hwritten : c.call.events c.decision.changes = c.events.map EventRow.toNewEvent) :
    recorded (claimEventRows c.events) = c.claimed?.toList.map ownershipOf := by
  rw [recorded_eq, ← hwritten]
  cases hclaimed : c.claimed? with
  | some s =>
    obtain ⟨workerId, ms, ch, rest, hcall, hchanges, rfl⟩ := Commit.claimed?_eq_some.mp hclaimed
    have hbounded := hperforms.bounded
    obtain rfl : rest = [] := by
      rw [hcall, hchanges] at hbounded
      simpa [Call.limit] using hbounded
    rw [hcall, hchanges]
    rfl
  | none =>
    have hnone : (c.call.events c.decision.changes).filter (fun e => e.eventType = .stepClaimed) = [] := by
      refine List.filter_eq_nil_iff.mpr fun e he htype => ?_
      by_cases hclaim : ∃ workerId ms, c.call = .claimNextStep workerId ms
      · obtain ⟨workerId, ms, hcall⟩ := hclaim
        cases hchanges : c.decision.changes with
        | nil => simp [hchanges, Call.events] at he
        | cons ch rest =>
          rw [Commit.claimed?_eq_some.mpr ⟨workerId, ms, ch, rest, hcall, hchanges, rfl⟩] at hclaimed
          cases hclaimed
      · exact eventType_ne_stepClaimed (fun workerId ms h => hclaim ⟨workerId, ms, h⟩) he
          (of_decide_eq_true htype)
    rw [hnone]
    rfl

/-- The log records exactly what the committed claims gave out. -/
theorem recorded_of_serial {steps₀ steps : StepsTable} {events : List EventRow} {history : List Commit}
    (h : Serial steps₀ [] history steps events) : recorded (claimEventRows events) = committed history := by
  induction h with
  | nil => rfl
  | snoc serial performs written ih =>
    rw [committed_concat, ← recorded_commit performs written, ← ih]
    simp [recorded, claimEventRows]

/-! ## The rows -/

theorem generationsOf_committed (history : List Commit) (id : StepId) :
    generationsOf (committed history) (uuidText id) = (claimsOf history id).map fun s => s.leaseVersion.val := by
  simp [generationsOf, committed, claimsOf, ownershipOf, List.filter_map, Function.comp_def,
    uuidText_injective.eq_iff]

theorem nodup_generations (v : ℤ) : (generations 0 v).Nodup := by
  refine List.Nodup.map ?_ List.nodup_range
  intro i j hij
  simpa using hij

section Rows
variable {steps₀ steps : StepsTable} {events₀ events : List EventRow} {history : List Commit}
  (h : Serial steps₀ events₀ history steps events) (hunclaimed : ∀ r ∈ steps₀.rows, r.Unclaimed)
include h hunclaimed

theorem generationsOf_row {r : StepRow} (hr : steps.find? r.id = some r) :
    (claimsOf history r.id).length = r.leaseVersion.val ∧
      generationsOf (committed history) (uuidText r.id) = generations 0 r.leaseVersion.val := by
  cases hr₀ : steps₀.find? r.id with
  | none =>
    rw [h.absent hr₀] at hr
    cases hr
  | some r₀ =>
    obtain ⟨r', hr', hcounted⟩ := h.countedBy hr₀
    obtain rfl := Option.some.inj (hr.symm.trans hr')
    have hzero := (hunclaimed r₀ (Table.mem_of_find? hr₀)).leaseVersion
    have hversion := hcounted.leaseVersion
    refine ⟨by omega, ?_⟩
    rw [generationsOf_committed, hcounted.versions, hzero]

/-- No generation is given out twice. -/
theorem committed_once : ((committed history).map Ownership.key).Nodup := by
  have hone : ∀ id, ((claimsOf history id).map fun s => s.leaseVersion.val).Nodup := by
    intro id
    cases hr₀ : steps₀.find? id with
    | none => simp [h.claimsOf_absent hr₀]
    | some r₀ =>
      obtain ⟨r, -, hcounted⟩ := h.countedBy hr₀
      rw [hcounted.versions, (hunclaimed r₀ (Table.mem_of_find? hr₀)).leaseVersion]
      exact nodup_generations _
  rw [nodup_key_iff, List.nodup_iff_count_le_one]
  rintro ⟨stepId, generation⟩
  by_cases hmem : (stepId, generation) ∈ (committed history).map fun o => (o.stepId, o.generation)
  · obtain ⟨o, ho, heq⟩ := List.mem_map.mp hmem
    obtain ⟨s, -, rfl⟩ := List.mem_map.mp ho
    obtain ⟨rfl, rfl⟩ := Prod.mk.inj heq
    calc ((committed history).map fun o => (o.stepId, o.generation)).count (uuidText s.id, s.leaseVersion)
        = ((claimsOf history s.id).map fun s => s.leaseVersion.val).count s.leaseVersion.val := by
          rw [committed, claimsOf, List.map_map, List.count, List.count, List.countP_map, List.countP_map,
            List.countP_filter]
          refine List.countP_congr fun s' _ => ?_
          simp [ownershipOf, uuidText_injective.eq_iff, Int4.ext_iff, and_comm]
      _ ≤ 1 := List.nodup_iff_count_le_one.mp (hone s.id) _
  · rw [List.count_eq_zero_of_not_mem hmem]
    exact Nat.zero_le _

end Rows

/-- A weight that some elements of a list have. -/
theorem sum_map_ite {α M : Type*} [AddCommMonoid M] (p : α → Prop) [DecidablePred p] (m : M) (as : List α) :
    (as.map fun a => if p a then m else 0).sum = as.countP (fun a => p a) • m := by
  induction as with
  | nil => simp
  | cons a as ih => by_cases ha : p a <;> simp [ha, ih, succ_nsmul']

/-- Every list is counted once by the classes of a nodup list that covers it. -/
theorem sum_length_filter {α κ : Type*} [DecidableEq κ] {f : α → κ} {ks : List κ} (hnodup : ks.Nodup)
    {as : List α} (hcovered : ∀ a ∈ as, f a ∈ ks) :
    (ks.map fun k => (as.filter fun a => f a = k).length).sum = as.length := by
  induction as with
  | nil => simp
  | cons a as ih =>
    have hone : (ks.map fun k => if f a = k then 1 else 0).sum = 1 := by
      have hcount : ks.count (f a) = 1 := List.count_eq_one_of_mem hnodup (hcovered a List.mem_cons_self)
      rw [sum_map_ite, smul_eq_mul, mul_one, ← hcount, List.count]
      exact List.countP_congr fun k _ => by rw [decide_eq_true_iff, beq_iff_eq, eq_comm]
    have hsplit : ∀ k, ((a :: as).filter fun a => f a = k).length =
        (as.filter fun a => f a = k).length + if f a = k then 1 else 0 := by
      intro k
      by_cases hk : f a = k <;> simp [hk]
    simp only [hsplit, List.sum_map_add, hone, ih fun a ha => hcovered a (List.mem_cons_of_mem _ ha),
      List.length_cons]

section Reached
variable {w₀ w : World} (h₀ : w₀.Initial) (hunclaimed : ∀ r ∈ w₀.steps.rows, r.Unclaimed)
  (h : Reaches Sessions.step w₀ w)
include h₀ hunclaimed h

/-- The generations of all rows add up to the claims that have committed. -/
theorem sum_leaseVersion :
    (w.steps.rows.map fun r => r.leaseVersion.val).sum = ((committed w.history).length : ℤ) := by
  have hserial := Sessions.serial_of_reaches h₀ h
  have hcovered : ∀ s ∈ w.history.filterMap Commit.claimed?, s.id ∈ w.steps.rows.map fun r => r.id := by
    intro s hs
    have hmem : s ∈ claimsOf w.history s.id := List.mem_filter.mpr ⟨hs, decide_eq_true rfl⟩
    cases hr : w.steps.find? s.id with
    | some r => exact List.mem_map.mpr ⟨r, Table.mem_of_find? hr, id_of_find? hr⟩
    | none =>
      cases hr₀ : w₀.steps.find? s.id with
      | none => simp [hserial.claimsOf_absent hr₀] at hmem
      | some r₀ =>
        obtain ⟨r, hr', -⟩ := hserial.countedBy hr₀
        rw [hr] at hr'
        cases hr'
  have hsum := sum_length_filter w.steps.nodup_keys hcovered
  rw [List.map_map] at hsum
  rw [committed, List.length_map, ← hsum, Nat.cast_list_sum, List.map_map]
  refine congrArg List.sum (List.map_congr_left fun r hr => ?_)
  exact (generationsOf_row hserial hunclaimed (Table.mem_iff_find?.mp hr)).1.symm

theorem rowsFollow (hevents : w₀.events = []) {events : List ClaimEventRow} {rows : List OwnedRow}
    (hrecorded : (recorded events).Perm (committed w.history)) (hrows : rows.Perm (ownedRows w.steps)) :
    RowsFollow events rows where
  distinct := by
    rw [(hrows.map OwnedRow.id).nodup_iff, ownedRows, List.map_map]
    have hnodup := w.steps.nodup_keys.map uuidText_injective
    rwa [List.map_map] at hnodup
  numbered row hrow := by
    obtain ⟨r, hr, rfl⟩ := List.mem_map.mp (hrows.mem_iff.mp hrow)
    obtain ⟨hlength, hgenerations⟩ :=
      generationsOf_row (Sessions.serial_of_reaches h₀ h) hunclaimed (Table.mem_iff_find?.mp hr)
    refine ⟨hlength ▸ Int.natCast_nonneg _, ?_⟩
    rw [← hgenerations]
    exact (hrecorded.filter _).map _
  owned row hrow hrunning := by
    obtain ⟨r, hr, rfl⟩ := List.mem_map.mp (hrows.mem_iff.mp hrow)
    obtain ⟨r₀, hr₀, hlife⟩ := Sessions.row_of_reaches h₀ h (Table.mem_iff_find?.mp hr)
    have hfresh : Explains r₀ (Sessions.eventsOf w₀.events r.id) := by
      rw [hevents]
      exact .unclaimed (hunclaimed r₀ (Table.mem_of_find? hr₀))
    obtain ⟨e, he, htype, hversion, hworker⟩ := (explains_of_run hlife hfresh).owned hrunning
    rw [Sessions.eventsOf_eq_filter] at he
    obtain ⟨he, hid⟩ := List.mem_filter.mp he
    have hserial := Sessions.serial_of_reaches h₀ h
    rw [hevents] at hserial
    rw [hrecorded.mem_iff, ← recorded_of_serial hserial, recorded_eq]
    refine List.mem_map.mpr ⟨e, List.mem_filter.mpr ⟨he, decide_eq_true htype⟩, ?_⟩
    rw [recordedBy, hversion, hworker, of_decide_eq_true hid]

end Reached

end DurableRunner.Benchmarks
