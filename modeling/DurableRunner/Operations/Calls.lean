import DurableRunner.Operations.OwnerWrites
import DurableRunner.Operations.Sweeps

/-! # The step operations as one family

Every operation locks candidate rows and then applies one partial function to
each locked row. `Call` names an operation with its arguments; the functions
below dispatch to the statements of the operation's own module.
-/
namespace DurableRunner.Operations
open Schema

/-- One call of an operation. `lockRows` is a foreign transaction that only
locks step rows. -/
inductive Call where
  | claimNextStep (workerId : WorkerId) (leaseDurationMs : ℤ)
  | renewStepLease (cred : Credential) (leaseDurationMs : ℤ)
  | completeStepSuccess (cred : Credential) (result : Json)
  | recordStepFailure (cred : Credential) (error : JsString) (retryable : Bool)
  | recoverExpiredSteps
  | promoteDueRetries
  | lockRows
deriving DecidableEq

/-- The version of one row before and after an UPDATE, with the clock reading
at which the row passed the candidate predicate. -/
@[ext] structure Change where
  before : StepRow
  after : StepRow
  checkedAt : Timestamp
deriving DecidableEq

/-- What a call reports to its caller once its transaction has committed. -/
inductive Outcome where
  | claimed (step : ClaimedStep)
  | notClaimed
  | renewed (leaseExpiresAt : Option Timestamp)
  | notRenewed
  | completed
  | completionConsistencyError
  | recorded (status : StepStatus) (attemptCount leaseVersion : Int4)
      (availableAt decidedAt : Timestamp)
  | notRecorded
  | recovered (steps : List RecoveredStep)
  | promoted (steps : List PromotedStep)
  | released
deriving DecidableEq

namespace Call

def credential? : Call → Option Credential
  | .renewStepLease cred _ | .completeStepSuccess cred _ | .recordStepFailure cred _ _ => some cred
  | _ => none

/-- The lifecycle shapes an operation checks before it opens a transaction. -/
def staticTransitions : Call → List (StepStatus × StepStatus)
  | .completeStepSuccess _ _ => [(.running, .succeeded)]
  | .recordStepFailure _ _ _ => [(.running, .retryWait), (.running, .deadLettered)]
  | .recoverExpiredSteps => [(.running, .ready), (.running, .deadLettered)]
  | .promoteDueRetries => [(.retryWait, .ready)]
  | _ => []

/-- Argument checks that throw before any statement is sent. -/
def admissible (call : Call) : Bool :=
  (match call with
    | .claimNextStep workerId _ => !isBlank workerId
    | _ => true) &&
  call.staticTransitions.all fun p => (StepStatus.transitionStepStatus p.1 p.2).isSome

/-- The WHERE clause of the statement that locks rows. -/
def eligible (now clock : Timestamp) (r : StepRow) : Call → Bool
  | .claimNextStep _ _ => claimEligible now r
  | .renewStepLease cred _ => r.id = cred.id
  | .completeStepSuccess cred _ => r.id = cred.id
  | .recordStepFailure cred _ _ => r.id = cred.id
  | .recoverExpiredSteps => recoverEligible clock r
  | .promoteDueRetries => promoteEligible clock r
  | .lockRows => false

/-- The ORDER BY of a `SKIP LOCKED` select. -/
def order : Call → StepRow → StepRow → Prop
  | .claimNextStep _ _ => claimOrder
  | .recoverExpiredSteps => recoverOrder
  | .promoteDueRetries => promoteOrder
  | _ => fun _ _ => True

instance (call : Call) : DecidableRel call.order := fun a b => by
  cases call <;> unfold order <;> infer_instance

def limit : Call → ℕ
  | .claimNextStep _ _ => 1
  | .recoverExpiredSteps | .promoteDueRetries => sweepLimit
  | _ => 1

/-- The UPDATE on one locked row; `none` when its WHERE clause does not match. -/
def update (now clock : Timestamp) (r : StepRow) : Call → Except DbError (Option StepRow)
  | .claimNextStep workerId leaseDurationMs => claimCandidate workerId leaseDurationMs now clock r
  | .renewStepLease cred leaseDurationMs => renewUpdate cred leaseDurationMs now clock r
  | .completeStepSuccess cred result => completeUpdate cred result now clock r
  | .recordStepFailure cred error retryable => failUpdate cred error retryable now clock r
  | .recoverExpiredSteps => (recoverUpdate now r).map some
  | .promoteDueRetries => (promoteUpdate now r).map some
  | .lockRows => .ok none

def event (old new : StepRow) : Call → Option NewEvent
  | .claimNextStep _ _ => some (claimEvent new)
  | .renewStepLease _ _ => none
  | .completeStepSuccess cred _ => some (completeEvent cred new)
  | .recordStepFailure cred error retryable => some (failEvent cred error retryable new)
  | .recoverExpiredSteps => some (recoverEvent old new)
  | .promoteDueRetries => some (promoteEvent new)
  | .lockRows => none

def outcome (clock : Timestamp) (changes : List Change) : Call → Outcome
  | .claimNextStep _ _ =>
    match changes with
    | c :: _ => .claimed (claimedStep c.after)
    | [] => .notClaimed
  | .renewStepLease _ _ =>
    match changes with
    | c :: _ => .renewed c.after.leaseExpiresAt
    | [] => .notRenewed
  | .completeStepSuccess _ _ =>
    if changes.length = 1 then .completed else .completionConsistencyError
  | .recordStepFailure _ _ _ =>
    match changes with
    | c :: _ => .recorded c.after.status c.after.attemptCount c.after.leaseVersion
        c.after.availableAt clock
    | [] => .notRecorded
  | .recoverExpiredSteps => .recovered (changes.map fun c => recoveredStep c.after)
  | .promoteDueRetries => .promoted (changes.map fun c => promotedStep c.after)
  | .lockRows => .released

/-- The UPDATE over all locked rows, in lock order. -/
def updateAll (call : Call) (now clock : Timestamp) :
    List (StepRow × Timestamp) → Except DbError (List Change)
  | [] => .ok []
  | (r, checkedAt) :: rest =>
    match call.update now clock r, call.updateAll now clock rest with
    | .error e, _ => .error e
    | _, .error e => .error e
    | .ok none, .ok changes => .ok changes
    | .ok (some r'), .ok changes => .ok (⟨r, r', checkedAt⟩ :: changes)

def events (call : Call) (changes : List Change) : List NewEvent :=
  changes.filterMap fun c => call.event c.before c.after

theorem update_id {call : Call} {now clock : Timestamp} {r r' : StepRow}
    (h : call.update now clock r = .ok (some r')) : r'.id = r.id := by
  cases call with
  | claimNextStep workerId ms =>
    obtain ⟨_, he, hu⟩ := claimCandidate_eq_ok h
    obtain rfl := Option.some.inj he
    obtain ⟨-, -, -, -, hcols⟩ := claimUpdate_eq_some hu
    rw [hcols]
  | renewStepLease cred ms => rw [(renewUpdate_eq_some h).2]
  | completeStepSuccess cred result => rw [(completeUpdate_eq_some h).2]
  | recordStepFailure cred error retryable => rw [(failUpdate_eq_some h).2]
  | recoverExpiredSteps =>
    obtain ⟨_, hu, he⟩ := except_map_eq_ok.mp h
    obtain rfl := Option.some.inj he
    rw [recoverUpdate_eq_ok.mp hu]
  | promoteDueRetries =>
    obtain ⟨_, hu, he⟩ := except_map_eq_ok.mp h
    obtain rfl := Option.some.inj he
    rw [promoteUpdate_eq_ok.mp hu]
  | lockRows => cases h

/-- An owner write locks by id and judges nothing else while it does. -/
theorem eligible_of_credential {call : Call} {cred : Credential}
    (h : call.credential? = some cred) (now clock : Timestamp) (r : StepRow) :
    call.eligible now clock r = decide (r.id = cred.id) := by
  cases call <;> simp only [credential?, Option.some.injEq, reduceCtorEq] at h <;> subst h <;> rfl

theorem limit_of_credential {call : Call} {cred : Credential} (h : call.credential? = some cred) :
    call.limit = 1 := by
  cases call <;> first | rfl | cases h

theorem limit_pos (call : Call) : 0 < call.limit := by
  cases call <;> simp [limit, sweepLimit]

theorem updateAll_sublist {call : Call} {now clock : Timestamp} {rows : List (StepRow × Timestamp)}
    {changes : List Change} (h : call.updateAll now clock rows = .ok changes) :
    (changes.map fun c => (c.before, c.checkedAt)).Sublist rows := by
  induction rows generalizing changes with
  | nil =>
    obtain rfl := Except.ok.inj h
    exact List.Sublist.refl _
  | cons p rows ih =>
    unfold updateAll at h
    split at h
    · cases h
    · cases h
    · rename_i rest _ hrest
      obtain rfl := Except.ok.inj h
      exact (ih hrest).cons p
    · rename_i r' rest hrow hrest
      obtain rfl := Except.ok.inj h
      exact (ih hrest).cons_cons p

theorem updateAll_updated {call : Call} {now clock : Timestamp} {rows : List (StepRow × Timestamp)}
    {changes : List Change} (h : call.updateAll now clock rows = .ok changes) :
    ∀ c ∈ changes, call.update now clock c.before = .ok (some c.after) := by
  induction rows generalizing changes with
  | nil =>
    obtain rfl := Except.ok.inj h
    simp
  | cons p rows ih =>
    unfold updateAll at h
    split at h
    · cases h
    · cases h
    · rename_i rest _ hrest
      obtain rfl := Except.ok.inj h
      exact ih hrest
    · rename_i r' rest hrow hrest
      obtain rfl := Except.ok.inj h
      intro c hc
      rcases List.mem_cons.mp hc with rfl | hc
      · exact hrow
      · exact ih hrest c hc

theorem updateAll_of_updated {call : Call} {now clock : Timestamp} {changes : List Change}
    (h : ∀ c ∈ changes, call.update now clock c.before = .ok (some c.after)) :
    call.updateAll now clock (changes.map fun c => (c.before, c.checkedAt)) = .ok changes := by
  induction changes with
  | nil => rfl
  | cons c changes ih =>
    have hrow := h c List.mem_cons_self
    have hrest := ih fun c hc => h c (List.mem_cons_of_mem _ hc)
    simp only [List.map_cons, updateAll, hrow, hrest]

theorem eligible_mono {call : Call} {now clock clock' : Timestamp} {r : StepRow}
    (h : call.eligible now clock r = true) (hle : clock ≤ clock') :
    call.eligible now clock' r = true := by
  cases call with
  | recoverExpiredSteps =>
    obtain ⟨hrunning, deadline, hdeadline, hexpired⟩ := recoverEligible_iff.mp h
    exact recoverEligible_iff.mpr ⟨hrunning, deadline, hdeadline, hexpired.trans hle⟩
  | promoteDueRetries =>
    obtain ⟨hwaiting, hdue⟩ := promoteEligible_iff.mp h
    exact promoteEligible_iff.mpr ⟨hwaiting, hdue.trans hle⟩
  | _ => exact h

/-- A locked row that the UPDATE left out did not match its WHERE clause. -/
theorem updateAll_unmatched {call : Call} {now clock : Timestamp}
    {rows : List (StepRow × Timestamp)} {changes : List Change}
    (h : call.updateAll now clock rows = .ok changes) :
    ∀ p ∈ rows, call.update now clock p.1 = .ok none ∨ ∃ c ∈ changes, c.before = p.1 := by
  induction rows generalizing changes with
  | nil => simp
  | cons p rows ih =>
    unfold updateAll at h
    split at h
    · cases h
    · cases h
    · rename_i rest hrow hrest
      obtain rfl := Except.ok.inj h
      intro q hq
      rcases List.mem_cons.mp hq with rfl | hq
      · exact .inl hrow
      · exact ih hrest q hq
    · rename_i r' rest hrow hrest
      obtain rfl := Except.ok.inj h
      intro q hq
      rcases List.mem_cons.mp hq with rfl | hq
      · exact .inr ⟨_, List.mem_cons_self, rfl⟩
      · exact (ih hrest q hq).imp_right fun ⟨c, hc, he⟩ => ⟨c, List.mem_cons_of_mem _ hc, he⟩

end Call
end DurableRunner.Operations
