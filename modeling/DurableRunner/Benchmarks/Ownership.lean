import DurableRunner.Relational.Grouping
import DurableRunner.Sessions.Claims
import DurableRunner.Schema.Uuid

/-! # `verifyOwnership`

What concurrent claimers were told, what the `STEP_CLAIMED` events say and what
the step rows hold are compared generation by generation.
-/
namespace DurableRunner.Benchmarks
open Schema Relational Operations
open Sessions (generations mem_generations)

/-- `[step id, lease version, attempt count]` of a successful claim. -/
structure Grant where
  stepId : String
  leaseVersion : Int4
  attemptCount : Int4
deriving DecidableEq

structure ClaimerRecord where
  id : WorkerId
  attempts : ℕ
  empty : ℕ
  consistencyErrors : ℕ
  otherErrors : ℕ
  otherErrorSamples : List String
  grants : List Grant
deriving DecidableEq

/-- `select step_id::text, (data->>'leaseVersion')::int as v, worker_id`. -/
structure ClaimEventRow where
  stepId : String
  v : Int4
  workerId : Option WorkerId
deriving DecidableEq

/-- `select id::text, status::text, lease_version, current_worker_id`. -/
structure OwnedRow where
  id : String
  status : StepStatus
  leaseVersion : Int4
  currentWorkerId : Option WorkerId
deriving DecidableEq

/-- `${stepId}:${version}`. -/
def generationKey (stepId : String) (version : Int4) : String := stepId ++ ":" ++ toString version.val

/-- The owners each generation was granted to. -/
def clientGrants (records : List ClaimerRecord) : Grouping String WorkerId :=
  .collect (records.flatMap fun record => record.grants.map fun grant =>
    (generationKey grant.stepId grant.leaseVersion, record.id))

def versionsByStep (records : List ClaimerRecord) : Grouping String ℤ :=
  .collect (records.flatMap fun record => record.grants.map fun grant =>
    (grant.stepId, grant.leaseVersion.val))

def eventOwners (events : List ClaimEventRow) : Grouping String (Option WorkerId) :=
  .collect (events.map fun event => (generationKey event.stepId event.v, event.workerId))

/-- The one event of the generation names its one owner. -/
def hasMatchingEvent (events : Grouping String (Option WorkerId)) (grant : String × List WorkerId) : Bool :=
  match events.values grant.1, grant.2 with
  | some [eventOwner], [owner] => eventOwner = some owner
  | _, _ => false

/-- Not every generation up to `lease_version` was granted once, or another one was. -/
def hasGenerationMismatch (versionsByStep : Grouping String ℤ) (row : OwnedRow) : Bool :=
  let versions := ((versionsByStep.values row.id).getD []).insertionSort (· ≤ ·)
  decide ((versions.length : ℤ) ≠ row.leaseVersion.val) ||
    versions.zipIdx.any fun (version, index) => version ≠ (index : ℤ) + 1

/-- A RUNNING row names an owner that was not granted its generation first. -/
def hasWrongOwner (grants : Grouping String WorkerId) (row : OwnedRow) : Bool :=
  decide (row.status = .running) &&
    match grants.values (generationKey row.id row.leaseVersion) with
    | some (owner :: _) => some owner ≠ row.currentWorkerId
    | _ => true

structure OwnershipReport where
  clientObservedGrants : ℕ
  distinctGenerationsGranted : ℕ
  duplicateOwnershipGrants : ℕ
  duplicateGrantSamples : List (String × List WorkerId)
  durableClaimEvents : ℕ
  duplicateClaimEvents : ℕ
  clientGrantsWithoutMatchingEvent : ℕ
  eventsWithoutClientGrant : ℕ
  stepRows : ℕ
  rowsWithGenerationMismatch : ℕ
  runningRowsWithWrongOwner : ℕ
deriving DecidableEq

def verifyOwnership (records : List ClaimerRecord) (events : List ClaimEventRow)
    (rows : List OwnedRow) : OwnershipReport :=
  let grants := clientGrants records
  let owners := eventOwners events
  let duplicates := grants.rows.filter fun grant => 1 < grant.2.length
  { clientObservedGrants := (grants.rows.map fun grant => grant.2.length).sum
    distinctGenerationsGranted := grants.rows.length
    duplicateOwnershipGrants := duplicates.length
    duplicateGrantSamples := duplicates.take 5
    durableClaimEvents := events.length
    duplicateClaimEvents := (owners.rows.filter fun event => 1 < event.2.length).length
    clientGrantsWithoutMatchingEvent := grants.rows.countP fun grant => !hasMatchingEvent owners grant
    eventsWithoutClientGrant := owners.rows.countP fun event => (grants.values event.1).isNone
    stepRows := rows.length
    rowsWithGenerationMismatch := rows.countP (hasGenerationMismatch (versionsByStep records))
    runningRowsWithWrongOwner := rows.countP (hasWrongOwner grants) }

def successfulClaims (records : List ClaimerRecord) : ℕ :=
  (records.map fun record => record.grants.length).sum

def claimEventRows (events : List EventRow) : List ClaimEventRow :=
  (events.filter fun e => e.eventType = .stepClaimed).map fun e =>
    ⟨uuidText e.stepId, e.data.leaseVersion, e.workerId⟩

def ownedRows (steps : StepsTable) : List OwnedRow :=
  steps.rows.map fun r => ⟨uuidText r.id, r.status, r.leaseVersion, r.currentWorkerId⟩

/-! ## Generations as texts -/

theorem colon_not_mem_decimal (n : ℤ) : ':' ∉ (toString n).toList := by
  have hdigits : ∀ m : ℕ, ':' ∉ m.repr.toList := by
    intro m hmem
    rw [Nat.toList_repr] at hmem
    exact absurd (Nat.isDigit_of_mem_toDigits (by decide) (by decide) hmem) (by decide)
  rw [Int.toString_eq_repr, Int.repr_eq_if]
  split
  · exact hdigits _
  · rw [String.toList_append, List.mem_append]
    rintro (h | h)
    · exact absurd h (by decide)
    · exact hdigits _ h

theorem decimal_injective {m n : ℤ} (h : toString m = toString n) : m = n := by
  have hnat : ∀ a b : ℕ, a.repr = b.repr → a = b := by
    intro a b hab
    have hdigits : Nat.toDigits 10 a = Nat.toDigits 10 b := by
      rw [← Nat.toList_repr, ← Nat.toList_repr, hab]
    rw [← Nat.ofDigitChars_ten_toDigits (n := a), hdigits, Nat.ofDigitChars_ten_toDigits]
  have hsign : ∀ a b : ℕ, a.repr ≠ "-" ++ b.repr := by
    intro a b hab
    have hmem : '-' ∈ a.repr.toList := by rw [hab]; simp
    rw [Nat.toList_repr] at hmem
    exact absurd (Nat.isDigit_of_mem_toDigits (by decide) (by decide) hmem) (by decide)
  rw [Int.toString_eq_repr, Int.toString_eq_repr, Int.repr_eq_if, Int.repr_eq_if] at h
  split at h <;> split at h
  · have := hnat _ _ h
    omega
  · exact absurd h (hsign _ _)
  · exact absurd h.symm (hsign _ _)
  · have := hnat _ _ (String.append_right_inj _ |>.mp h)
    omega

theorem generationKey_inj {stepId stepId' : String} {version version' : Int4}
    (h : generationKey stepId version = generationKey stepId' version') :
    stepId = stepId' ∧ version = version' := by
  -- the last colon is the one before the generation
  have hlast : ∀ (s : List Char) (n : ℤ), ((s ++ ':' :: (toString n).toList).reverse).takeWhile
      (fun c => decide (c ≠ ':')) = (toString n).toList.reverse := by
    intro s n
    have hdigits : ∀ c ∈ (toString n).toList.reverse, decide (c ≠ ':') = true := by
      intro c hc
      refine decide_eq_true ?_
      rintro rfl
      exact colon_not_mem_decimal n (List.mem_reverse.mp hc)
    rw [List.reverse_append, List.reverse_cons, List.append_assoc, List.takeWhile_append_of_pos hdigits]
    simp
  have hlist : stepId.toList ++ ':' :: (toString version.val).toList =
      stepId'.toList ++ ':' :: (toString version'.val).toList := by
    simpa [generationKey] using congrArg String.toList h
  have hversion : (toString version.val).toList = (toString version'.val).toList := by
    have htail := (hlast stepId.toList version.val).symm.trans
      ((congrArg (fun cs => (List.reverse cs).takeWhile fun c => decide (c ≠ ':')) hlist).trans
        (hlast stepId'.toList version'.val))
    exact List.reverse_injective htail
  rw [hversion] at hlist
  exact ⟨String.toList_injective (List.append_cancel_right hlist),
    Int4.ext (decimal_injective (String.toList_injective hversion))⟩

end DurableRunner.Benchmarks
