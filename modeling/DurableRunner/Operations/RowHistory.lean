import DurableRunner.Operations.RowLife
import Mathlib.Computability.RegularExpressions

/-! # The event history of one row

The events of a row are a word that can be folded into the visible part of the
row. The invariant below carries both the shape of the word and its data.
-/
namespace DurableRunner.Operations
open Schema TransitionSystem

/-- The part of a row that its events determine. -/
@[ext] structure View where
  status : StepStatus
  leaseVersion : ℤ
  attemptCount : ℤ
  owner : Option WorkerId
deriving DecidableEq

def View.fresh : View := ⟨.ready, 0, 0, none⟩

def viewOf (r : StepRow) : View :=
  ⟨r.status, r.leaseVersion.val, r.attemptCount.val, r.currentWorkerId⟩

def View.apply (v : View) (e : NewEvent) : View :=
  match e.eventType with
  | .stepClaimed => ⟨.running, v.leaseVersion + 1, v.attemptCount + 1, e.workerId⟩
  | .stepSucceeded => { v with status := .succeeded, owner := none }
  | .stepRetryScheduled => { v with status := .retryWait, owner := none }
  | .stepDeadLettered => { v with status := .deadLettered, owner := none }
  | .leaseRecovered => { v with status := .ready, owner := none }
  | .retryReady => { v with status := .ready }

def foldEvents (es : List NewEvent) : View := es.foldl View.apply .fresh

theorem foldEvents_concat (es : List NewEvent) (e : NewEvent) :
    foldEvents (es ++ [e]) = (foldEvents es).apply e := by simp [foldEvents]

def claimCount (es : List NewEvent) : ℕ := es.countP fun e => e.eventType = .stepClaimed

theorem foldEvents_counts (es : List NewEvent) :
    (foldEvents es).leaseVersion = claimCount es ∧ (foldEvents es).attemptCount = claimCount es := by
  induction es using List.reverseRecOn with
  | nil => exact ⟨rfl, rfl⟩
  | append_singleton es e ih =>
    rw [foldEvents_concat]
    cases he : e.eventType <;> simp [View.apply, claimCount, he, List.countP_append] at ih ⊢ <;>
      exact ih

open RegularExpression in
/-- One attempt that ended and left the step READY again:
`CLAIMED (LEASE_RECOVERED | RETRY_SCHEDULED RETRY_READY)`. -/
def closedAttempt : RegularExpression StepEventType :=
  char .stepClaimed * (char .leaseRecovered + char .stepRetryScheduled * char .retryReady)

open RegularExpression in
/-- `(CLAIMED (LEASE_RECOVERED | RETRY_SCHEDULED RETRY_READY))*
[CLAIMED [SUCCEEDED | DEAD_LETTERED | RETRY_SCHEDULED]]`. -/
def historyWord : RegularExpression StepEventType :=
  star closedAttempt *
    (1 + char .stepClaimed *
      (1 + (char .stepSucceeded + char .stepDeadLettered + char .stepRetryScheduled)))

/-- The events of the attempt that is still open, for a row of each status. -/
def openAttempt : StepStatus → Option (List StepEventType)
  | .ready => some []
  | .running => some [.stepClaimed]
  | .retryWait => some [.stepClaimed, .stepRetryScheduled]
  | .succeeded => some [.stepClaimed, .stepSucceeded]
  | .deadLettered => some [.stepClaimed, .stepDeadLettered]
  | .pending | .cancelled => none

def WordFor (status : StepStatus) (word : List StepEventType) : Prop :=
  ∃ closed current, closed ∈ (RegularExpression.star closedAttempt).matches' ∧
    openAttempt status = some current ∧ word = closed ++ current

section Words
open RegularExpression Language

theorem mem_char {event : StepEventType} {word : List StepEventType} :
    word ∈ (char event).matches' ↔ word = [event] := Iff.rfl

theorem mem_closedAttempt {word : List StepEventType} :
    word ∈ closedAttempt.matches' ↔
      word = [.stepClaimed, .leaseRecovered] ∨
        word = [.stepClaimed, .stepRetryScheduled, .retryReady] := by
  simp only [closedAttempt, matches'_mul, matches'_add, mem_mul, mem_add, mem_char]
  aesop

theorem star_concat {closed word : List StepEventType}
    (hclosed : closed ∈ (star closedAttempt).matches')
    (hword : word ∈ closedAttempt.matches') :
    closed ++ word ∈ (star closedAttempt).matches' := by
  rw [matches'_star, mem_kstar] at hclosed ⊢
  obtain ⟨parts, rfl, hparts⟩ := hclosed
  refine ⟨parts ++ [word], by simp, fun part hpart => ?_⟩
  rcases List.mem_append.mp hpart with hpart | hpart
  · exact hparts part hpart
  · rw [List.mem_singleton.mp hpart]
    exact hword

theorem WordFor.historyWord {status : StepStatus} {word : List StepEventType}
    (h : WordFor status word) : word ∈ historyWord.matches' := by
  obtain ⟨closed, current, hclosed, hcurrent, rfl⟩ := h
  refine mem_mul.mpr ⟨closed, hclosed, current, ?_, rfl⟩
  simp only [matches'_add, matches'_mul, matches'_epsilon, mem_add, mem_mul, mem_one, mem_char]
  cases status <;> simp only [openAttempt, Option.some.injEq, reduceCtorEq] at hcurrent
  case ready => exact .inl hcurrent.symm
  case running => exact .inr ⟨_, rfl, [], .inl rfl, hcurrent⟩
  case retryWait => exact .inr ⟨_, rfl, _, .inr (.inr rfl), hcurrent⟩
  case succeeded => exact .inr ⟨_, rfl, _, .inr (.inl (.inl rfl)), hcurrent⟩
  case deadLettered => exact .inr ⟨_, rfl, _, .inr (.inl (.inr rfl)), hcurrent⟩

end Words

/-- Every event carries the number of claims up to and including it. -/
def Numbered (es : List NewEvent) : Prop :=
  ∀ pre e post, es = pre ++ e :: post →
    e.data.leaseVersion.val = (claimCount (pre ++ [e]) : ℤ) ∧
      e.data.attemptCount.val = (claimCount (pre ++ [e]) : ℤ)

/-- Every event but RETRY_READY names the worker of the claim of its generation. -/
def Attributed (es : List NewEvent) : Prop :=
  ∀ e ∈ es, (e.eventType = .retryReady → e.workerId = none) ∧
    (e.eventType ≠ .retryReady → e.workerId.isSome ∧
      ∃ c ∈ es, c.eventType = .stepClaimed ∧ c.data.leaseVersion = e.data.leaseVersion ∧
        e.workerId = c.workerId)

structure Explains (r : StepRow) (es : List NewEvent) : Prop where
  word : WordFor r.status (es.map fun e => e.eventType)
  folds : foldEvents es = viewOf r
  numbered : Numbered es
  attributed : Attributed es
  owned : r.status = .running → ∃ c ∈ es, c.eventType = .stepClaimed ∧
    c.data.leaseVersion = r.leaseVersion ∧ c.workerId = r.currentWorkerId

theorem Explains.unclaimed {r : StepRow} (h : r.Unclaimed) : Explains r [] where
  word := by
    refine ⟨[], [], ?_, by rw [h.status]; rfl, rfl⟩
    rw [RegularExpression.matches'_star]
    exact Language.nil_mem_kstar _
  folds := by
    simp [foldEvents, viewOf, View.fresh, h.status, h.leaseVersion, h.attemptCount, h.owner]
  numbered pre e post h := by simp at h
  attributed := by simp [Attributed]
  owned hrunning := by simp [h.status] at hrunning

theorem Numbered.concat {es : List NewEvent} {e : NewEvent} (h : Numbered es)
    (hversion : e.data.leaseVersion.val = (claimCount (es ++ [e]) : ℤ))
    (hattempt : e.data.attemptCount.val = (claimCount (es ++ [e]) : ℤ)) : Numbered (es ++ [e]) := by
  intro pre e' post heq
  rcases List.eq_nil_or_concat' post with rfl | ⟨post, last, rfl⟩
  · obtain ⟨rfl, he⟩ := List.append_inj' heq rfl
    obtain rfl := List.singleton_inj.mp he
    exact ⟨hversion, hattempt⟩
  · rw [← List.cons_append, ← List.append_assoc] at heq
    exact h pre e' post (List.append_inj' heq rfl).1

theorem Attributed.concat {es : List NewEvent} {e : NewEvent} (h : Attributed es)
    (he : (e.eventType = .retryReady → e.workerId = none) ∧
      (e.eventType ≠ .retryReady → e.workerId.isSome ∧
        ∃ c ∈ es ++ [e], c.eventType = .stepClaimed ∧ c.data.leaseVersion = e.data.leaseVersion ∧
          e.workerId = c.workerId)) : Attributed (es ++ [e]) := by
  intro e' he'
  rcases List.mem_append.mp he' with he' | he'
  · refine ⟨(h e' he').1, fun hne => ?_⟩
    obtain ⟨howner, c, hc, hrest⟩ := (h e' he').2 hne
    exact ⟨howner, c, List.mem_append_left _ hc, hrest⟩
  · obtain rfl := List.mem_singleton.mp he'
    exact he

/-- A new event explains the changed row. Its worker is the one the claim of its
generation named, or it is that claim. -/
theorem Explains.concat {r r' : StepRow} {es : List NewEvent} {e : NewEvent} (h : Explains r es)
    (hword : WordFor r'.status ((es.map fun e => e.eventType) ++ [e.eventType]))
    (hfold : (viewOf r).apply e = viewOf r')
    (hversion : e.data.leaseVersion = r'.leaseVersion)
    (hattempt : e.data.attemptCount = r'.attemptCount)
    (hworker : (e.eventType = .retryReady ∧ e.workerId = none) ∨
      (e.eventType = .stepClaimed ∧ e.workerId = r'.currentWorkerId ∧ e.workerId.isSome) ∨
      (e.eventType ≠ .retryReady ∧ r.status = .running ∧ e.workerId = r.currentWorkerId ∧
        r'.leaseVersion = r.leaseVersion))
    (hrunning : r'.status = .running →
      e.eventType = .stepClaimed ∧ e.workerId = r'.currentWorkerId) :
    Explains r' (es ++ [e]) := by
  have hfolds : foldEvents (es ++ [e]) = viewOf r' := by
    rw [foldEvents_concat, h.folds, hfold]
  obtain ⟨hcountVersion, hcountAttempt⟩ := foldEvents_counts (es ++ [e])
  rw [hfolds] at hcountVersion hcountAttempt
  refine ⟨by simpa using hword, hfolds, h.numbered.concat ?_ ?_, h.attributed.concat ?_, ?_⟩
  · rw [hversion]
    exact hcountVersion
  · rw [hattempt]
    exact hcountAttempt
  · rcases hworker with ⟨htype, hnone⟩ | ⟨htype, howner, hsome⟩ | ⟨htype, hstatus, howner, hsame⟩
    · exact ⟨fun _ => hnone, fun hne => absurd htype hne⟩
    · exact ⟨fun hready => absurd (htype.symm.trans hready) nofun,
        fun _ => ⟨hsome, e, by simp, htype, rfl, rfl⟩⟩
    · refine ⟨fun hready => absurd hready htype, fun _ => ?_⟩
      obtain ⟨c, hc, hclaimed, hcversion, hcowner⟩ := h.owned hstatus
      have hsome : r.currentWorkerId.isSome :=
        (r.steps_running_requires_owner.resolve_left (not_not_intro hstatus)).1
      refine ⟨howner ▸ hsome, c, List.mem_append_left _ hc, hclaimed, ?_, howner.trans hcowner.symm⟩
      rw [hcversion, hversion, hsame]
  · intro hstatus
    obtain ⟨htype, howner⟩ := hrunning hstatus
    exact ⟨e, by simp, htype, hversion, howner⟩

theorem WordFor.extend {status status' : StepStatus} {word : List StepEventType}
    {event : StepEventType} {current : List StepEventType} (h : WordFor status word)
    (hcurrent : openAttempt status = some current)
    (hnext : openAttempt status' = some (current ++ [event])) : WordFor status' (word ++ [event]) := by
  obtain ⟨closed, current', hclosed, hcurrent', rfl⟩ := h
  obtain rfl := Option.some.inj (hcurrent.symm.trans hcurrent')
  exact ⟨closed, _, hclosed, hnext, List.append_assoc _ _ _⟩

theorem WordFor.close {status : StepStatus} {word : List StepEventType} {event : StepEventType}
    {current : List StepEventType} (h : WordFor status word)
    (hcurrent : openAttempt status = some current)
    (hclosed : current ++ [event] ∈ closedAttempt.matches') :
    WordFor .ready (word ++ [event]) := by
  obtain ⟨closed, current', hstar, hcurrent', rfl⟩ := h
  obtain rfl := Option.some.inj (hcurrent.symm.trans hcurrent')
  refine ⟨closed ++ (current ++ [event]), [], star_concat hstar hclosed, rfl, ?_⟩
  simp

theorem Explains.leave {r r' : StepRow} {es : List NewEvent} {e : NewEvent} (h : Explains r es)
    (hrunning : r.status = .running) (hstops : r'.status ≠ .running)
    (htype : e.eventType ≠ .retryReady)
    (hword : ∀ word, WordFor .running word → WordFor r'.status (word ++ [e.eventType]))
    (hfold : (viewOf r).apply e = viewOf r')
    (hdata : e.data.leaseVersion = r'.leaseVersion ∧ e.data.attemptCount = r'.attemptCount)
    (howner : e.workerId = r.currentWorkerId) (hversion : r'.leaseVersion = r.leaseVersion) :
    Explains r' (es ++ [e]) := by
  have hopen := h.word
  rw [hrunning] at hopen
  exact h.concat (hword _ hopen) hfold hdata.1 hdata.2
    (.inr (.inr ⟨htype, hrunning, howner, hversion⟩)) fun hstill => absurd hstill hstops

/-- Every operation extends the explanation by the event it writes. -/
theorem Explains.transition {start instant checkedAt : Timestamp} {r r' : StepRow} {call : Call}
    {es : List NewEvent} (h : Explains r es) (ht : Transition start instant checkedAt r r' call) :
    Explains r' (es ++ (call.event r r').toList) := by
  cases ht with
  | @claim workerId ms hready _ _ hversion hattempt hcols =>
    have hstatus : r'.status = .running := by rw [hcols]
    have howner : r'.currentWorkerId = some workerId := by rw [hcols]
    have hword := h.word
    rw [hready] at hword
    refine h.concat ?_ ?_ rfl rfl (.inr (.inl ⟨rfl, rfl, ?_⟩)) fun _ => ⟨rfl, rfl⟩
    · rw [hstatus]
      exact hword.extend rfl rfl
    · simp [View.apply, viewOf, claimEvent, hstatus, hversion, hattempt]
    · show r'.currentWorkerId.isSome
      rw [howner]
      rfl
  | renew hlive hcols =>
    have hstatus : r'.status = r.status := by rw [hcols]
    have howner : r'.currentWorkerId = r.currentWorkerId := by rw [hcols]
    have hversion : r'.leaseVersion = r.leaseVersion := by rw [hcols]
    have hattempt : r'.attemptCount = r.attemptCount := by rw [hcols]
    simp only [Call.event, Option.toList_none, List.append_nil]
    refine ⟨hstatus ▸ h.word, ?_, h.numbered, h.attributed, ?_⟩
    · rw [h.folds, viewOf, viewOf, hstatus, howner, hversion, hattempt]
    · rw [hstatus, howner, hversion]
      exact h.owned
  | @complete cred result hlive hcols =>
    obtain ⟨hid, hrunning, howner, -, -⟩ := holdsLiveLease_iff.mp hlive
    have hstatus : r'.status = .succeeded := by rw [hcols]
    refine h.leave hrunning (by simp [hstatus]) nofun (fun word hword => ?_) ?_ ⟨rfl, rfl⟩ howner.symm
      (by rw [hcols])
    · rw [hstatus]
      exact hword.extend rfl rfl
    · simp [View.apply, viewOf, completeEvent, hcols]
  | @fail cred error retryable hlive hcols =>
    obtain ⟨hid, hrunning, howner, -, -⟩ := holdsLiveLease_iff.mp hlive
    by_cases hretry : mayRetry retryable r = true
    · have hstatus : r'.status = .retryWait := by rw [hcols]; simp [hretry]
      have htype : (failEvent cred error retryable r').eventType = .stepRetryScheduled := by
        simp [failEvent, hstatus]
      refine h.leave hrunning (by simp [hstatus]) (by simp [htype]) (fun word hword => ?_) ?_
        (by simp [failEvent, hstatus]) howner.symm (by rw [hcols])
      · rw [hstatus, htype]
        exact hword.extend rfl rfl
      · simp [View.apply, viewOf, htype, hcols, hretry]
    · have hstatus : r'.status = .deadLettered := by rw [hcols]; simp [hretry]
      have htype : (failEvent cred error retryable r').eventType = .stepDeadLettered := by
        simp [failEvent, hstatus]
      refine h.leave hrunning (by simp [hstatus]) (by simp [htype]) (fun word hword => ?_) ?_
        (by simp [failEvent, hstatus]) howner.symm (by rw [hcols])
      · rw [hstatus, htype]
        exact hword.extend rfl rfl
      · simp [View.apply, viewOf, htype, hcols, hretry]
  | recover hrunning _ _ hcols =>
    by_cases hbudget : r.attemptCount.val < r.maxAttempts.val
    · have hstatus : r'.status = .ready := by rw [hcols]; simp [hbudget]
      have htype : (recoverEvent r r').eventType = .leaseRecovered := by
        simp [recoverEvent, hstatus]
      refine h.leave hrunning (by simp [hstatus]) (by simp [htype]) (fun word hword => ?_) ?_
        ⟨rfl, rfl⟩ rfl (by rw [hcols])
      · rw [hstatus, htype]
        exact hword.close rfl (mem_closedAttempt.mpr (.inl rfl))
      · simp [View.apply, viewOf, htype, hcols, hbudget]
    · have hstatus : r'.status = .deadLettered := by rw [hcols]; simp [hbudget]
      have htype : (recoverEvent r r').eventType = .stepDeadLettered := by
        simp [recoverEvent, hstatus]
      refine h.leave hrunning (by simp [hstatus]) (by simp [htype]) (fun word hword => ?_) ?_
        ⟨rfl, rfl⟩ rfl (by rw [hcols])
      · rw [hstatus, htype]
        exact hword.extend rfl rfl
      · simp [View.apply, viewOf, htype, hcols, hbudget]
  | promote hwaiting _ hcols =>
    have hstatus : r'.status = .ready := by rw [hcols]
    have hword := h.word
    rw [hwaiting] at hword
    refine h.concat ?_ ?_ rfl rfl (.inl ⟨rfl, rfl⟩) ?_
    · rw [hstatus]
      exact hword.close rfl (mem_closedAttempt.mpr (.inr rfl))
    · simp [View.apply, viewOf, promoteEvent, hcols]
    · intro hrunning'
      rw [hstatus] at hrunning'
      cases hrunning'

theorem explains_of_run {s s' : RowState} (h : Reaches rowStep s s')
    (hs : Explains s.row s.events) : Explains s'.row s'.events := by
  have preserved : ∀ s op t, Explains s.row s.events → rowStep s op = some t →
      Explains t.row t.events := by
    intro s op t hs hstep
    obtain ⟨heligible, hupdate, hevents⟩ := rowStep_eq_some.mp hstep
    rw [hevents]
    exact hs.transition (transition_of_update heligible hupdate)
  exact h.invariant preserved hs

end DurableRunner.Operations
