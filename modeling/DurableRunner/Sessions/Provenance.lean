import DurableRunner.Sessions.Accepted
import DurableRunner.Sessions.Origins

/-! # Where every column comes from

Each column is written by few operations. The last accepted one that writes it,
or the insert, explains its value.
-/
namespace DurableRunner.Sessions
open Schema Operations

def reportedError (p : Commit × Change) : Option JsString :=
  match p.1.call with
  | .recordStepFailure _ error _ => some error
  | _ => none

/-- `decided_at` plus the backoff, of a failure report that answered RETRY_WAIT. -/
def scheduledRetry (p : Commit × Change) : Option Timestamp :=
  match p.1.outcome with
  | .recorded .retryWait attemptCount _ _ decidedAt =>
    some (decidedAt + 1000 * retryBackoffMs attemptCount)
  | _ => none

def grantedCredential (p : Commit × Change) : Option Credential :=
  match p.1.call with
  | .claimNextStep workerId _ => some ⟨p.2.after.id, workerId, p.2.after.leaseVersion⟩
  | _ => none

/-- The generation an accepted claim or renewal leases, with the deadline it sets:
its clock reading plus the duration it passed. -/
def leasedUntil (p : Commit × Change) : Option (Int4 × Timestamp) :=
  match p.1.call with
  | .claimNextStep _ ms => some (p.2.after.leaseVersion, p.1.decision.instant + 1000 * ms)
  | .renewStepLease cred ms => some (cred.leaseVersion, p.1.decision.instant + 1000 * ms)
  | _ => none

def completedWith (p : Commit × Change) : Option (Credential × Json) :=
  match p.1.call with
  | .completeStepSuccess cred result => some (cred, result)
  | _ => none

/-- The credential was granted by the last accepted claim, or came with the insert. -/
def HeldBy (r₀ : StepRow) (ops : List (Commit × Change)) (cred : Credential) : Prop :=
  match (ops.filterMap grantedCredential).getLast? with
  | some granted => cred = granted
  | none => cred.id = r₀.id ∧ some cred.workerId = r₀.currentWorkerId ∧
      cred.leaseVersion = r₀.leaseVersion

/-- The columns of a row against the operations accepted since its insert. -/
structure Provenance (r₀ r : StepRow) (ops : List (Commit × Change)) : Prop where
  task : SameTask r r₀
  lastError : r.lastError =
    ((ops.filterMap reportedError).getLast?.map JsString.toWellFormed).or r₀.lastError
  availableAt : r.availableAt = (ops.filterMap scheduledRetry).getLast?.getD r₀.availableAt
  counters : ∀ p ∈ ops,
    p.2.after.leaseVersion.val =
      p.2.before.leaseVersion.val + (if (grantedCredential p).isSome then 1 else 0) ∧
    p.2.after.attemptCount.val =
      p.2.before.attemptCount.val + (if (grantedCredential p).isSome then 1 else 0)
  leaseVersion : r.leaseVersion.val =
    r₀.leaseVersion.val + (ops.filterMap grantedCredential).length
  attemptCount : r.attemptCount.val =
    r₀.attemptCount.val + (ops.filterMap grantedCredential).length
  holder : r.status = .running → ∀ cred : Credential, cred.id = r.id →
    some cred.workerId = r.currentWorkerId → cred.leaseVersion = r.leaseVersion →
      HeldBy r₀ ops cred
  deadline : r.status = .running →
    match (ops.filterMap leasedUntil).getLast? with
    | some lease => r.leaseVersion = lease.1 ∧ r.leaseExpiresAt = some lease.2
    | none => r.leaseVersion = r₀.leaseVersion ∧ r.leaseExpiresAt = r₀.leaseExpiresAt
  result : ops.filterMap completedWith = [] ∧ r.result = r₀.result ∨
    ∃ cred result, ops.filterMap completedWith = [(cred, result)] ∧ r.status = .succeeded ∧
      r.result = some result.jsonb ∧ cred.leaseVersion = r.leaseVersion ∧ HeldBy r₀ ops cred

theorem Provenance.start (r : StepRow) : Provenance r r [] where
  task := .refl r
  lastError := rfl
  availableAt := rfl
  counters := by simp
  leaseVersion := by simp
  attemptCount := by simp
  holder _ cred hid howner hversion := ⟨hid, howner, hversion⟩
  deadline _ := ⟨rfl, rfl⟩
  result := .inl ⟨rfl, rfl⟩

section Concat
variable {α β : Type}

theorem filterMap_concat (f : α → Option β) (l : List α) (a : α) :
    (l ++ [a]).filterMap f = l.filterMap f ++ (f a).toList := by
  rw [List.filterMap_append]
  cases h : f a <;> simp [h]

theorem getLast?_filterMap_concat (f : α → Option β) (l : List α) (a : α) :
    ((l ++ [a]).filterMap f).getLast? = (f a).or (l.filterMap f).getLast? := by
  rw [filterMap_concat, List.getLast?_append]
  cases f a <;> rfl

end Concat

theorem HeldBy.concat_of_none {r₀ : StepRow} {ops : List (Commit × Change)} {cred : Credential}
    {p : Commit × Change} (h : HeldBy r₀ ops cred) (hnone : grantedCredential p = none) :
    HeldBy r₀ (ops ++ [p]) cred := by
  unfold HeldBy at h ⊢
  rwa [getLast?_filterMap_concat, hnone, Option.none_or]

theorem HeldBy.concat_of_some {r₀ : StepRow} {ops : List (Commit × Change)} {cred : Credential}
    {p : Commit × Change} (hgranted : grantedCredential p = some cred) :
    HeldBy r₀ (ops ++ [p]) cred := by
  unfold HeldBy
  rw [getLast?_filterMap_concat, hgranted, Option.some_or]

theorem Provenance.concat {r₀ : StepRow} {ops : List (Commit × Change)} {c : Commit} {ch : Change}
    (h : Provenance r₀ ch.before ops) (hnone : grantedCredential (c, ch) = none)
    (htask : SameTask ch.after ch.before)
    (hlastError : ch.after.lastError =
      ((reportedError (c, ch)).map JsString.toWellFormed).or ch.before.lastError)
    (havailable : ch.after.availableAt = (scheduledRetry (c, ch)).getD ch.before.availableAt)
    (hversion : ch.after.leaseVersion = ch.before.leaseVersion)
    (hattempt : ch.after.attemptCount = ch.before.attemptCount)
    (hrunning : ch.after.status = .running → ch.before.status = .running ∧
      ch.after.currentWorkerId = ch.before.currentWorkerId ∧
      ∃ lease, leasedUntil (c, ch) = some lease ∧ ch.after.leaseVersion = lease.1 ∧
        ch.after.leaseExpiresAt = some lease.2)
    (hresult : (completedWith (c, ch) = none ∧ ch.before.status ≠ .succeeded ∧
        ch.after.result = ch.before.result) ∨
      ∃ cred result, completedWith (c, ch) = some (cred, result) ∧ ch.before.status = .running ∧
        ch.after.status = .succeeded ∧ ch.after.result = some result.jsonb ∧
        cred.id = ch.before.id ∧ some cred.workerId = ch.before.currentWorkerId ∧
        cred.leaseVersion = ch.before.leaseVersion) :
    Provenance r₀ ch.after (ops ++ [(c, ch)]) where
  task := htask.trans h.task
  lastError := by
    rw [hlastError, h.lastError, getLast?_filterMap_concat]
    cases reportedError (c, ch) <;> rfl
  availableAt := by
    rw [havailable, h.availableAt, getLast?_filterMap_concat]
    cases scheduledRetry (c, ch) <;> rfl
  counters p hp := by
    rcases List.mem_append.mp hp with hp | hp
    · exact h.counters p hp
    · obtain rfl := List.mem_singleton.mp hp
      simp [hnone, hversion, hattempt]
  leaseVersion := by
    rw [hversion, h.leaseVersion, filterMap_concat, hnone]
    simp
  attemptCount := by
    rw [hattempt, h.attemptCount, filterMap_concat, hnone]
    simp
  holder hstatus cred hid howner hcred := by
    obtain ⟨hbefore, hsame, -⟩ := hrunning hstatus
    refine (h.holder hbefore cred (hid.trans htask.id) (howner.trans hsame) ?_).concat_of_none hnone
    exact hcred.trans hversion
  deadline hstatus := by
    obtain ⟨-, -, lease, hlease, hgeneration, hdeadline⟩ := hrunning hstatus
    rw [getLast?_filterMap_concat, hlease]
    exact ⟨hgeneration, hdeadline⟩
  result := by
    rw [filterMap_concat]
    rcases hresult with ⟨hquiet, hlive, hkept⟩ |
      ⟨cred, result, hcompleted, hbefore, hsucceeded, hstored, hid, howner, hcred⟩
    · refine .inl ?_
      rcases h.result with ⟨hempty, hinserted⟩ | ⟨_, _, -, hsucceeded, -⟩
      · exact ⟨by simp [hempty, hquiet], hkept.trans hinserted⟩
      · exact absurd hsucceeded hlive
    · refine .inr ⟨cred, result, ?_, hsucceeded, hstored, hcred.trans hversion.symm, ?_⟩
      · rcases h.result with ⟨hempty, -⟩ | ⟨_, _, -, hdone, -⟩
        · simp [hempty, hcompleted]
        · rw [hbefore] at hdone
          cases hdone
      · exact (h.holder hbefore cred hid howner hcred).concat_of_none hnone

theorem Provenance.claim {r₀ : StepRow} {ops : List (Commit × Change)} {c : Commit} {ch : Change}
    {workerId : WorkerId} {ms : ℤ} (h : Provenance r₀ ch.before ops)
    (hcall : c.call = .claimNextStep workerId ms)
    (ht : Transition c.start c.decision.instant ch.checkedAt ch.before ch.after
      (.claimNextStep workerId ms)) :
    Provenance r₀ ch.after (ops ++ [(c, ch)]) := by
  have htask := sameTask_of_transition ht
  cases ht with
  | claim hready _ _ hversion hattempt hcols =>
    have hreported : reportedError (c, ch) = none := by simp [reportedError, hcall]
    have hscheduled : scheduledRetry (c, ch) = none := by
      cases hchanges : c.decision.changes <;>
        simp [scheduledRetry, Commit.outcome, hcall, Call.outcome, hchanges]
    have hcompleted : completedWith (c, ch) = none := by simp [completedWith, hcall]
    have hgranted : grantedCredential (c, ch) =
        some ⟨ch.after.id, workerId, ch.after.leaseVersion⟩ := by simp [grantedCredential, hcall]
    have hleased : leasedUntil (c, ch) =
        some (ch.after.leaseVersion, c.decision.instant + 1000 * ms) := by simp [leasedUntil, hcall]
    refine ⟨htask.trans h.task, ?_, ?_, fun p hp => ?_, ?_, ?_, fun _ cred hid howner hcred => ?_,
      fun _ => ?_, ?_⟩
    · rw [getLast?_filterMap_concat, hreported, Option.none_or, ← h.lastError, hcols]
    · rw [getLast?_filterMap_concat, hscheduled, Option.none_or, ← h.availableAt, hcols]
    · rcases List.mem_append.mp hp with hp | hp
      · exact h.counters p hp
      · obtain rfl := List.mem_singleton.mp hp
        simp [hgranted, hversion, hattempt]
    · rw [hversion, h.leaseVersion, filterMap_concat, hgranted]
      simp [add_assoc]
    · rw [hattempt, h.attemptCount, filterMap_concat, hgranted]
      simp [add_assoc]
    · refine HeldBy.concat_of_some (hgranted.trans ?_)
      have howner' : ch.after.currentWorkerId = some workerId := by rw [hcols]
      rw [howner'] at howner
      obtain ⟨id, worker, version⟩ := cred
      simp only [Option.some.injEq] at howner
      simp only at hid hcred
      rw [hid, howner, hcred]
    · rw [getLast?_filterMap_concat, hleased]
      refine ⟨rfl, ?_⟩
      rw [hcols]
    · refine .inl ?_
      rw [filterMap_concat, hcompleted]
      rcases h.result with ⟨hempty, hinserted⟩ | ⟨_, _, -, hsucceeded, -⟩
      · refine ⟨by simp [hempty], ?_⟩
        rw [← hinserted, hcols]
      · rw [hready] at hsucceeded
        cases hsucceeded

/-- Every accepted operation keeps the columns explained. -/
theorem Provenance.next {r₀ : StepRow} {ops : List (Commit × Change)} {c : Commit} {ch : Change}
    (h : Provenance r₀ ch.before ops) (hchanges : c.call.limit = 1 → c.decision.changes = [ch])
    (ht : Transition c.start c.decision.instant ch.checkedAt ch.before ch.after c.call) :
    Provenance r₀ ch.after (ops ++ [(c, ch)]) := by
  have htask := sameTask_of_transition ht
  generalize hcall : c.call = call at ht hchanges
  cases ht with
  | claim hready havailable hbudget hversion hattempt hcols =>
    exact h.claim hcall (.claim hready havailable hbudget hversion hattempt hcols)
  | renew hlive hcols =>
    obtain ⟨-, hrunning, -, hversion, -⟩ := holdsLiveLease_iff.mp hlive
    have hkept : ch.after.leaseVersion = ch.before.leaseVersion := by rw [hcols]
    refine h.concat ?_ htask ?_ ?_ hkept (by rw [hcols]) (fun _ => ?_) (.inl ⟨?_, ?_, by rw [hcols]⟩)
    · simp [grantedCredential, hcall]
    · simp [reportedError, hcall, hcols]
    · rw [scheduledRetry, Commit.outcome, hcall, hchanges rfl, hcols]
      rfl
    · refine ⟨hrunning, by rw [hcols], _, by simp only [leasedUntil, hcall]; rfl, ?_, by rw [hcols]⟩
      exact hkept.trans hversion
    · simp [completedWith, hcall]
    · simp [hrunning]
  | @complete cred result hlive hcols =>
    obtain ⟨hid, hrunning, howner, hversion, -⟩ := holdsLiveLease_iff.mp hlive
    refine h.concat ?_ htask ?_ ?_ (by rw [hcols]) (by rw [hcols]) (fun hstill => ?_)
      (.inr ⟨cred, result, ?_, hrunning, by rw [hcols], by rw [hcols], hid.symm, howner.symm,
        hversion.symm⟩)
    · simp [grantedCredential, hcall]
    · simp [reportedError, hcall, hcols]
    · rw [scheduledRetry, Commit.outcome, hcall, hchanges rfl, hcols]
      rfl
    · rw [hcols] at hstill
      cases hstill
    · simp [completedWith, hcall]
  | @fail cred error retryable hlive hcols =>
    obtain ⟨hid, hrunning, -, -, -⟩ := holdsLiveLease_iff.mp hlive
    have hstatus : ch.after.status ≠ .running := by
      rw [hcols]
      dsimp only
      split <;> simp
    refine h.concat ?_ htask ?_ ?_ (by rw [hcols]) (by rw [hcols])
      (fun hstill => absurd hstill hstatus) (.inl ⟨?_, by simp [hrunning], by rw [hcols]⟩)
    · simp [grantedCredential, hcall]
    · simp [reportedError, hcall, hcols]
    · rw [scheduledRetry, Commit.outcome, hcall, hchanges rfl]
      simp only [Call.outcome, hcols]
      split <;> simp
    · simp [completedWith, hcall]
  | recover hrunning hdeadline hexpired hcols =>
    have hstatus : ch.after.status ≠ .running := by
      rw [hcols]
      dsimp only
      split <;> simp
    refine h.concat ?_ htask ?_ ?_ (by rw [hcols]) (by rw [hcols])
      (fun hstill => absurd hstill hstatus) (.inl ⟨?_, by simp [hrunning], by rw [hcols]⟩)
    · simp [grantedCredential, hcall]
    · simp [reportedError, hcall, hcols]
    · simp [scheduledRetry, Commit.outcome, hcall, Call.outcome, hcols]
    · simp [completedWith, hcall]
  | promote hwaiting hdue hcols =>
    refine h.concat ?_ htask ?_ ?_ (by rw [hcols]) (by rw [hcols]) (fun hstill => ?_)
      (.inl ⟨?_, by simp [hwaiting], by rw [hcols]⟩)
    · simp [grantedCredential, hcall]
    · simp [reportedError, hcall, hcols]
    · simp [scheduledRetry, Commit.outcome, hcall, Call.outcome, hcols]
    · rw [hcols] at hstill
      cases hstill
    · simp [completedWith, hcall]

theorem Provenance.of_life {r₀ r : StepRow} {ops : List (Commit × Change)} (h : Life r₀ ops r)
    (hchanges : ∀ p ∈ ops, p.1.call.limit = 1 → p.1.decision.changes = [p.2]) :
    Provenance r₀ r ops := by
  induction h with
  | nil => exact .start r₀
  | snoc life transition ih =>
    refine (ih fun p hp => hchanges p (List.mem_append_left _ hp)).next ?_ transition
    exact hchanges _ (List.mem_append_right _ (List.mem_singleton_self _))

end DurableRunner.Sessions
