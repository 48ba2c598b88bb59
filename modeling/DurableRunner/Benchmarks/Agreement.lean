import DurableRunner.Benchmarks.Ownership
import Mathlib.Data.List.Perm.Subperm

/-! # What the audit finds

The three sources as lists of ownerships, and what each count of the report says
when the events record every granted ownership beside some that were lost.
-/
namespace DurableRunner.Benchmarks
open Schema Relational
open Sessions (generations mem_generations)

/-- Somebody owns a generation of a step. -/
@[ext] structure Ownership where
  stepId : String
  generation : Int4
  owner : Option WorkerId
deriving DecidableEq

def Ownership.key (o : Ownership) : String := generationKey o.stepId o.generation

theorem Ownership.eq_of_key {o o' : Ownership} (hkey : o.key = o'.key) (howner : o.owner = o'.owner) :
    o = o' := by
  obtain ⟨hstep, hgeneration⟩ := generationKey_inj hkey
  exact Ownership.ext hstep hgeneration howner

/-- A key stands for its step and its generation. -/
theorem nodup_key_iff {ownerships : List Ownership} : (ownerships.map Ownership.key).Nodup ↔
    (ownerships.map fun o => (o.stepId, o.generation)).Nodup := by
  have hinjective : Function.Injective fun p : String × Int4 => generationKey p.1 p.2 := by
    rintro ⟨stepId, generation⟩ ⟨stepId', generation'⟩ h
    obtain ⟨rfl, rfl⟩ := generationKey_inj h
    rfl
  rw [← List.nodup_map_iff hinjective, List.map_map]
  rfl

/-- What the claimers were told. -/
def granted (records : List ClaimerRecord) : List Ownership :=
  records.flatMap fun record => record.grants.map fun grant =>
    ⟨grant.stepId, grant.leaseVersion, some record.id⟩

def recorded (events : List ClaimEventRow) : List Ownership :=
  events.map fun event => ⟨event.stepId, event.v, event.workerId⟩

def generationsOf (ownerships : List Ownership) (stepId : String) : List ℤ :=
  (ownerships.filter fun o => o.stepId = stepId).map fun o => o.generation.val

section Sources
variable {records : List ClaimerRecord} {events : List ClaimEventRow} {row : OwnedRow}

theorem successfulClaims_eq : successfulClaims records = (granted records).length := by
  simp [successfulClaims, granted, List.length_flatMap]

def grantEntries (records : List ClaimerRecord) : List (String × WorkerId) :=
  records.flatMap fun record => record.grants.map fun grant =>
    (generationKey grant.stepId grant.leaseVersion, record.id)

theorem map_grantEntries : (grantEntries records).map (fun e => (e.1, some e.2)) =
    (granted records).map fun o => (o.key, o.owner) := by
  simp [grantEntries, granted, List.map_flatMap, Function.comp_def, Ownership.key]

theorem keys_grantEntries : (grantEntries records).map Prod.fst = (granted records).map Ownership.key := by
  simp [grantEntries, granted, List.map_flatMap, Function.comp_def, Ownership.key]

theorem mem_grantEntries {k : String} {w : WorkerId} :
    (k, w) ∈ grantEntries records ↔ ∃ o ∈ granted records, o.key = k ∧ o.owner = some w := by
  have hmem : (k, w) ∈ grantEntries records ↔
      (k, some w) ∈ (grantEntries records).map fun e => (e.1, some e.2) := by simp
  rw [hmem, map_grantEntries]
  simp

theorem owner_of_granted {o : Ownership} (h : o ∈ granted records) : ∃ w, o.owner = some w := by
  obtain ⟨record, -, h⟩ := List.mem_flatMap.mp h
  obtain ⟨grant, -, rfl⟩ := List.mem_map.mp h
  exact ⟨record.id, rfl⟩

theorem length_grantEntries : (grantEntries records).length = (granted records).length := by
  simpa using congrArg List.length (@map_grantEntries records)

def eventEntries (events : List ClaimEventRow) : List (String × Option WorkerId) :=
  events.map fun event => (generationKey event.stepId event.v, event.workerId)

theorem eventEntries_eq : eventEntries events = (recorded events).map fun o => (o.key, o.owner) := by
  simp [eventEntries, recorded, Ownership.key]

theorem keys_eventEntries : (eventEntries events).map Prod.fst = (recorded events).map Ownership.key := by
  simp [eventEntries, recorded, Ownership.key]

theorem versions_eq (stepId : String) :
    ((versionsByStep records).values stepId).getD [] = generationsOf (granted records) stepId := by
  rw [versionsByStep, Grouping.getD_values_collect, Grouping.valuesOf, generationsOf, granted]
  simp only [List.filter_flatMap, List.map_flatMap, List.filter_map, List.map_map]
  rfl

/-! ## One row -/

theorem pairwise_generations (v : ℤ) : (generations 0 v).Pairwise (· ≤ ·) := by
  rw [generations, List.pairwise_map]
  exact List.pairwise_lt_range.imp fun h => by omega

theorem eq_generations_iff {versions : List ℤ} {v : ℤ} :
    ((versions.length : ℤ) = v ∧ ∀ p ∈ versions.zipIdx, p.1 = (p.2 : ℤ) + 1) ↔
      versions = generations 0 v ∧ 0 ≤ v := by
  constructor
  · rintro ⟨rfl, h⟩
    refine ⟨List.ext_getElem (by simp [generations]) fun i hi hi' => ?_, by omega⟩
    have hvalue := h (versions[i], i) (List.mem_zipIdx_iff_getElem?.mpr (List.getElem?_eq_getElem hi))
    simpa [generations] using hvalue
  · rintro ⟨rfl, hv⟩
    refine ⟨by simpa [generations] using hv, ?_⟩
    rintro ⟨version, i⟩ hmem
    have hget := List.mem_zipIdx_iff_getElem?.mp hmem
    obtain ⟨k, hk, hversion⟩ : ∃ k, (List.range (v - 0).toNat)[i]? = some k ∧ (0 : ℤ) + k + 1 = version := by
      simpa [generations, Option.map_eq_some_iff] using hget
    obtain ⟨hi, rfl⟩ := List.getElem?_eq_some_iff.mp hk
    simp at hversion
    omega

/-- A row matches when exactly the generations up to its own were granted. -/
theorem hasGenerationMismatch_eq_false : hasGenerationMismatch (versionsByStep records) row = false ↔
    (generationsOf (granted records) row.id).Perm (generations 0 row.leaseVersion.val) ∧
      0 ≤ row.leaseVersion.val := by
  unfold hasGenerationMismatch
  rw [versions_eq]
  have hperm := List.perm_insertionSort (· ≤ ·) (generationsOf (granted records) row.id)
  have hsorted := List.pairwise_insertionSort (· ≤ ·) (generationsOf (granted records) row.id)
  generalize (generationsOf (granted records) row.id).insertionSort (· ≤ ·) = sorted at hperm hsorted
  have hcounts : sorted = generations 0 row.leaseVersion.val ↔
      (generationsOf (granted records) row.id).Perm (generations 0 row.leaseVersion.val) := by
    constructor
    · rintro rfl
      exact hperm.symm
    · intro h
      exact (hperm.trans h).eq_of_pairwise (fun a b _ _ => le_antisymm) hsorted (pairwise_generations _)
  rw [← hcounts, ← eq_generations_iff]
  simp [Bool.or_eq_false_iff]

/-! ## Each count -/

theorem grant_duplicates_iff : ((granted records).map Ownership.key).Nodup ↔
    ((clientGrants records).rows.filter fun grant => 1 < grant.2.length) = [] := by
  rw [← keys_grantEntries, Grouping.nodup_iff, List.filter_eq_nil_iff]
  simp [clientGrants, grantEntries]

theorem event_duplicates_iff : ((recorded events).map Ownership.key).Nodup ↔
    ((eventOwners events).rows.filter fun event => 1 < event.2.length) = [] := by
  rw [← keys_eventEntries, Grouping.nodup_iff, List.filter_eq_nil_iff]
  simp [eventOwners, eventEntries]

theorem rows_clientGrants (h : ((granted records).map Ownership.key).Nodup) :
    (clientGrants records).rows = (grantEntries records).map fun e => (e.1, [e.2]) :=
  Grouping.rows_collect_of_nodup (keys_grantEntries ▸ h)

theorem rows_eventOwners (h : ((recorded events).map Ownership.key).Nodup) :
    (eventOwners events).rows = (recorded events).map fun o => (o.key, [o.owner]) := by
  rw [eventOwners, ← eventEntries, Grouping.rows_collect_of_nodup (keys_eventEntries ▸ h),
    eventEntries_eq, List.map_map]
  rfl

theorem hasMatchingEvent_iff (h : ((recorded events).map Ownership.key).Nodup) {k : String} {w : WorkerId} :
    hasMatchingEvent (eventOwners events) (k, [w]) = true ↔ (k, some w) ∈ eventEntries events := by
  unfold hasMatchingEvent
  constructor
  · intro hmatches
    split at hmatches
    · rename_i eventOwner owner hvalues howner
      obtain rfl := List.singleton_inj.mp howner
      obtain rfl := of_decide_eq_true hmatches
      have hvalues := (Grouping.values_collect_eq_some.mp hvalues).1
      exact Grouping.mem_valuesOf.mp (hvalues ▸ List.mem_singleton_self _)
    · cases hmatches
  · intro hmem
    have hvalues : (eventOwners events).values k = some [some w] :=
      Grouping.values_collect_eq_some.mpr
        ⟨(Grouping.valuesOf_of_nodup (keys_eventEntries ▸ h) hmem).symm, by simp⟩
    simp [hvalues]

theorem values_clientGrants_isNone {k : String} :
    ((clientGrants records).values k).isNone = true ↔ ∀ o ∈ granted records, o.key ≠ k := by
  rw [Option.isNone_iff_eq_none, clientGrants, ← grantEntries, Grouping.values_collect_eq_none]
  constructor
  · intro h o ho hkey
    obtain ⟨w, hw⟩ := owner_of_granted ho
    exact h w (mem_grantEntries.mpr ⟨o, ho, hkey, hw⟩)
  · intro h w hmem
    obtain ⟨o, ho, hkey, -⟩ := mem_grantEntries.mp hmem
    exact h o ho hkey

theorem hasWrongOwner_eq_false (h : ((granted records).map Ownership.key).Nodup) :
    hasWrongOwner (clientGrants records) row = false ↔ (row.status = .running →
      ⟨row.id, row.leaseVersion, row.currentWorkerId⟩ ∈ granted records) := by
  have hvalues : ∀ w, (generationKey row.id row.leaseVersion, w) ∈ grantEntries records →
      (clientGrants records).values (generationKey row.id row.leaseVersion) = some [w] := fun w hmem =>
    Grouping.values_collect_eq_some.mpr
      ⟨(Grouping.valuesOf_of_nodup (keys_grantEntries ▸ h) hmem).symm, by simp⟩
  unfold hasWrongOwner
  by_cases hrunning : row.status = .running
  · simp only [hrunning, decide_true, Bool.true_and, forall_const]
    constructor
    · intro howner
      split at howner
      · rename_i w rest hsome
        have hmem : (generationKey row.id row.leaseVersion, w) ∈ grantEntries records :=
          Grouping.mem_valuesOf.mp
            ((Grouping.values_collect_eq_some.mp hsome).1 ▸ List.mem_cons_self)
        obtain ⟨⟨stepId, generation, owner⟩, ho, hkey, hw⟩ := mem_grantEntries.mp hmem
        obtain ⟨hstep, hgeneration⟩ := generationKey_inj hkey
        have hcurrent : some w = row.currentWorkerId := by simpa using howner
        simp only at hstep hgeneration hw
        rw [← hcurrent, ← hw, ← hstep, ← hgeneration]
        exact ho
      · cases howner
    · intro ho
      obtain ⟨w, hw⟩ := owner_of_granted ho
      simp only at hw
      simp [hvalues w (mem_grantEntries.mpr ⟨_, ho, rfl, hw⟩), hw]
  · simp [hrunning]

end Sources

/-! ## The whole report -/

/-- The events record every grant once, and the lost ones besides. -/
structure Accounts (records : List ClaimerRecord) (events : List ClaimEventRow)
    (lost : List Ownership) : Prop where
  once : ((recorded events).map Ownership.key).Nodup
  balance : (recorded events).Perm (granted records ++ lost)

/-- The rows count the recorded generations, and name the latest owner. -/
structure RowsFollow (events : List ClaimEventRow) (rows : List OwnedRow) : Prop where
  distinct : (rows.map OwnedRow.id).Nodup
  numbered : ∀ row ∈ rows, 0 ≤ row.leaseVersion.val ∧
    (generationsOf (recorded events) row.id).Perm (generations 0 row.leaseVersion.val)
  owned : ∀ row ∈ rows, row.status = .running →
    ⟨row.id, row.leaseVersion, row.currentWorkerId⟩ ∈ recorded events

section Reports
variable {records : List ClaimerRecord} {events : List ClaimEventRow} {rows : List OwnedRow}
  {lost : List Ownership}

theorem Accounts.split (h : Accounts records events lost) :
    ((granted records).map Ownership.key).Nodup ∧
      ∀ o ∈ granted records, ∀ o' ∈ lost, o.key ≠ o'.key := by
  have hnodup := (h.balance.map Ownership.key).nodup_iff.mp h.once
  rw [List.map_append, List.nodup_append] at hnodup
  exact ⟨hnodup.1, fun o ho o' ho' =>
    hnodup.2.2 _ (List.mem_map_of_mem ho) _ (List.mem_map_of_mem ho')⟩

theorem Accounts.clientObservedGrants (h : Accounts records events lost) :
    (verifyOwnership records events rows).clientObservedGrants = (granted records).length := by
  simp [verifyOwnership, rows_clientGrants h.split.1, Function.comp_def, length_grantEntries]

theorem Accounts.durableClaimEvents (h : Accounts records events lost) :
    (verifyOwnership records events rows).durableClaimEvents = (granted records).length + lost.length := by
  simpa [verifyOwnership, recorded] using h.balance.length_eq

theorem Accounts.duplicates (h : Accounts records events lost) :
    (verifyOwnership records events rows).duplicateOwnershipGrants = 0 ∧
      (verifyOwnership records events rows).duplicateClaimEvents = 0 :=
  ⟨congrArg List.length (grant_duplicates_iff.mp h.split.1),
    congrArg List.length (event_duplicates_iff.mp h.once)⟩

theorem Accounts.matched (h : Accounts records events lost) :
    (verifyOwnership records events rows).clientGrantsWithoutMatchingEvent = 0 := by
  refine List.countP_eq_zero.mpr fun grant hgrant => ?_
  rw [rows_clientGrants h.split.1] at hgrant
  obtain ⟨⟨k, w⟩, hmem, rfl⟩ := List.mem_map.mp hgrant
  obtain ⟨o, ho, hkey, hw⟩ := mem_grantEntries.mp hmem
  have hevent : (k, some w) ∈ eventEntries events := by
    rw [eventEntries_eq]
    exact List.mem_map.mpr ⟨o, h.balance.mem_iff.mpr (List.mem_append_left _ ho), by rw [hkey, hw]⟩
  simp [(hasMatchingEvent_iff h.once).mpr hevent]

theorem Accounts.eventsWithoutClientGrant (h : Accounts records events lost) :
    (verifyOwnership records events rows).eventsWithoutClientGrant = lost.length := by
  have hgranted : (granted records).countP (fun o => ((clientGrants records).values o.key).isNone) = 0 :=
    List.countP_eq_zero.mpr fun o ho hnone => values_clientGrants_isNone.mp hnone o ho rfl
  have hlost : lost.countP (fun o => ((clientGrants records).values o.key).isNone) = lost.length :=
    List.countP_eq_length.mpr fun o ho =>
      values_clientGrants_isNone.mpr fun o' ho' => h.split.2 o' ho' o ho
  calc (verifyOwnership records events rows).eventsWithoutClientGrant
      = (recorded events).countP fun o => ((clientGrants records).values o.key).isNone := by
        simp [verifyOwnership, rows_eventOwners h.once, List.countP_map, Function.comp_def]
    _ = (granted records ++ lost).countP fun o => ((clientGrants records).values o.key).isNone :=
        h.balance.countP_eq _
    _ = lost.length := by rw [List.countP_append, hgranted, hlost, Nat.zero_add]

theorem countP_le_lost (hdistinct : (rows.map OwnedRow.id).Nodup) {p : OwnedRow → Bool}
    (hmisses : ∀ row ∈ rows, p row = true → ∃ o ∈ lost, o.stepId = row.id) :
    rows.countP p ≤ lost.length := by
  have hsubset : (rows.filter p).map OwnedRow.id ⊆ lost.map Ownership.stepId := by
    intro id hid
    obtain ⟨row, hrow, rfl⟩ := List.mem_map.mp hid
    obtain ⟨hrow, hp⟩ := List.mem_filter.mp hrow
    obtain ⟨o, ho, hstep⟩ := hmisses row hrow hp
    exact List.mem_map.mpr ⟨o, ho, hstep⟩
  have hnodup : ((rows.filter p).map OwnedRow.id).Nodup :=
    (List.filter_sublist.map OwnedRow.id).nodup hdistinct
  calc rows.countP p = ((rows.filter p).map OwnedRow.id).length := by
        rw [List.length_map, List.countP_eq_length_filter]
    _ ≤ (lost.map Ownership.stepId).length := (List.subperm_of_subset hnodup hsubset).length_le
    _ = lost.length := List.length_map _

theorem Accounts.rowsWithGenerationMismatch (h : Accounts records events lost)
    (hrows : RowsFollow events rows) :
    (verifyOwnership records events rows).rowsWithGenerationMismatch ≤ lost.length := by
  refine countP_le_lost hrows.distinct fun row hrow hmismatch => ?_
  by_contra hnone
  have hsame : (generationsOf (recorded events) row.id).Perm (generationsOf (granted records) row.id) := by
    have hlost : lost.filter (fun o => o.stepId = row.id) = [] :=
      List.filter_eq_nil_iff.mpr fun o ho hstep => hnone ⟨o, ho, of_decide_eq_true hstep⟩
    have hperm := (h.balance.filter fun o => o.stepId = row.id).map fun o => o.generation.val
    rw [List.filter_append, hlost, List.append_nil] at hperm
    exact hperm
  obtain ⟨hnonneg, hnumbered⟩ := hrows.numbered row hrow
  have hfalse := hasGenerationMismatch_eq_false.mpr ⟨hsame.symm.trans hnumbered, hnonneg⟩
  rw [hmismatch] at hfalse
  cases hfalse

theorem Accounts.runningRowsWithWrongOwner (h : Accounts records events lost)
    (hrows : RowsFollow events rows) :
    (verifyOwnership records events rows).runningRowsWithWrongOwner ≤ lost.length := by
  refine countP_le_lost hrows.distinct fun row hrow hwrong => ?_
  have hnot : ¬ (row.status = .running →
      ⟨row.id, row.leaseVersion, row.currentWorkerId⟩ ∈ granted records) := by
    rw [← hasWrongOwner_eq_false h.split.1, hwrong]
    exact Bool.noConfusion
  simp only [Classical.not_imp] at hnot
  have hmem := h.balance.mem_iff.mp (hrows.owned row hrow hnot.1)
  exact ⟨_, (List.mem_append.mp hmem).resolve_left hnot.2, rfl⟩

end Reports
end DurableRunner.Benchmarks
