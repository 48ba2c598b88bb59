import DurableRunner.Benchmarks.Agreement

/-! # What a clean audit means

`verifyOwnership` counts nothing exactly when the three sources tell the same
story of every ownership generation.
-/
namespace DurableRunner.Guarantees
open Schema Relational Benchmarks
open Sessions (generations)

/-- The report counts no disagreement. -/
structure IsClean (report : OwnershipReport) : Prop where
  duplicateOwnershipGrants : report.duplicateOwnershipGrants = 0
  duplicateClaimEvents : report.duplicateClaimEvents = 0
  clientGrantsWithoutMatchingEvent : report.clientGrantsWithoutMatchingEvent = 0
  eventsWithoutClientGrant : report.eventsWithoutClientGrant = 0
  rowsWithGenerationMismatch : report.rowsWithGenerationMismatch = 0
  runningRowsWithWrongOwner : report.runningRowsWithWrongOwner = 0

/-- No generation was granted twice, the grants are the recorded ones, the generations granted on a
row are `1 .. lease_version`, and a RUNNING row names the claimer that was granted its generation. -/
structure SourcesAgree (records : List ClaimerRecord) (events : List ClaimEventRow)
    (rows : List OwnedRow) : Prop where
  once : ((granted records).map fun o => (o.stepId, o.generation)).Nodup
  told : (granted records).Perm (recorded events)
  numbered : ∀ row ∈ rows, 0 ≤ row.leaseVersion.val ∧
    (generationsOf (granted records) row.id).Perm (generations 0 row.leaseVersion.val)
  owned : ∀ row ∈ rows, row.status = .running →
    ⟨row.id, row.leaseVersion, row.currentWorkerId⟩ ∈ granted records

section Audit
variable {records : List ClaimerRecord} {events : List ClaimEventRow} {rows : List OwnedRow}

theorem SourcesAgree.accounts (h : SourcesAgree records events rows) : Accounts records events [] where
  once := nodup_key_iff.mpr ((h.told.map _).nodup_iff.mp h.once)
  balance := by
    rw [List.append_nil]
    exact h.told.symm

theorem SourcesAgree.isClean (h : SourcesAgree records events rows) :
    IsClean (verifyOwnership records events rows) where
  duplicateOwnershipGrants := h.accounts.duplicates.1
  duplicateClaimEvents := h.accounts.duplicates.2
  clientGrantsWithoutMatchingEvent := h.accounts.matched
  eventsWithoutClientGrant := h.accounts.eventsWithoutClientGrant
  rowsWithGenerationMismatch := by
    refine List.countP_eq_zero.mpr fun row hrow => ?_
    obtain ⟨hnonneg, hnumbered⟩ := h.numbered row hrow
    simp [hasGenerationMismatch_eq_false.mpr ⟨hnumbered, hnonneg⟩]
  runningRowsWithWrongOwner := by
    refine List.countP_eq_zero.mpr fun row hrow => ?_
    simp [(hasWrongOwner_eq_false (nodup_key_iff.mpr h.once)).mpr (h.owned row hrow)]

namespace IsClean
variable (h : IsClean (verifyOwnership records events rows))
include h

theorem granted_once : ((granted records).map Ownership.key).Nodup :=
  grant_duplicates_iff.mpr (List.eq_nil_of_length_eq_zero h.duplicateOwnershipGrants)

theorem recorded_once : ((recorded events).map Ownership.key).Nodup :=
  event_duplicates_iff.mpr (List.eq_nil_of_length_eq_zero h.duplicateClaimEvents)

theorem granted_subset : granted records ⊆ recorded events := by
  intro o ho
  obtain ⟨w, hw⟩ := owner_of_granted ho
  have hrow : (o.key, [w]) ∈ (clientGrants records).rows := by
    rw [rows_clientGrants h.granted_once]
    exact List.mem_map.mpr ⟨_, mem_grantEntries.mpr ⟨o, ho, rfl, hw⟩, rfl⟩
  have hmatches := List.countP_eq_zero.mp h.clientGrantsWithoutMatchingEvent _ hrow
  simp only [Bool.not_eq_true', Bool.not_eq_false] at hmatches
  have hevent := (hasMatchingEvent_iff h.recorded_once).mp hmatches
  rw [eventEntries_eq] at hevent
  obtain ⟨o', ho', heq⟩ := List.mem_map.mp hevent
  obtain ⟨hkey, howner⟩ := Prod.mk.inj heq
  exact Ownership.eq_of_key hkey (howner.trans hw.symm) ▸ ho'

theorem recorded_subset : recorded events ⊆ granted records := by
  intro o ho
  have hrow : (o.key, [o.owner]) ∈ (eventOwners events).rows := by
    rw [rows_eventOwners h.recorded_once]
    exact List.mem_map_of_mem ho
  have hsome := List.countP_eq_zero.mp h.eventsWithoutClientGrant _ hrow
  rw [values_clientGrants_isNone] at hsome
  simp only [not_forall, not_not] at hsome
  obtain ⟨o', ho', hkey⟩ := hsome
  have hsame : o' = o := List.inj_on_of_nodup_map h.recorded_once (h.granted_subset ho') ho hkey
  exact hsame ▸ ho'

theorem sourcesAgree : SourcesAgree records events rows where
  once := nodup_key_iff.mp h.granted_once
  told := (List.perm_ext_iff_of_nodup h.granted_once.of_map h.recorded_once.of_map).mpr
    fun _ => ⟨fun ho => h.granted_subset ho, fun ho => h.recorded_subset ho⟩
  numbered := fun row hrow => by
    have hfalse := List.countP_eq_zero.mp h.rowsWithGenerationMismatch row hrow
    exact (hasGenerationMismatch_eq_false.mp (Bool.not_eq_true _ ▸ hfalse)).symm
  owned := fun row hrow => by
    have hfalse := List.countP_eq_zero.mp h.runningRowsWithWrongOwner row hrow
    exact (hasWrongOwner_eq_false h.granted_once).mp (Bool.not_eq_true _ ▸ hfalse)

end IsClean

theorem clean_audit_iff_sources_agree (records : List ClaimerRecord) (events : List ClaimEventRow)
    (rows : List OwnedRow) :
    IsClean (verifyOwnership records events rows) ↔ SourcesAgree records events rows :=
  ⟨fun h => h.sourcesAgree, fun h => h.isClean⟩

end Audit
end DurableRunner.Guarantees
