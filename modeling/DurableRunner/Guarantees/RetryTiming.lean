import DurableRunner.Guarantees.EventHistory
import DurableRunner.Sessions.Accepted
import DurableRunner.Sessions.Conflicts
import DurableRunner.Sessions.Origins

/-! # No retry runs early

The failure report, the promotion and the claim read three different clocks.
Row locks order their readings, so none of them precedes the scheduled instant.
-/
namespace DurableRunner.Guarantees
open Schema Operations Sessions TransitionSystem

def SchedulesRetry (p : Commit × Change) : Prop :=
  (∃ cred error retryable, p.1.call = .recordStepFailure cred error retryable) ∧
    p.2.after.status = .retryWait

/-- A claim that began, or a promotion that judged the row, no earlier than this instant. -/
def NotBefore (instant : Timestamp) (p : Commit × Change) : Prop :=
  match p.1.call with
  | .claimNextStep _ _ => instant ≤ p.1.start
  | .promoteDueRetries => instant ≤ p.2.checkedAt
  | _ => True

/-- The instants scheduled so far bound the row and everything that came after them. -/
structure Patient (ops : List (Commit × Change)) (r : StepRow) : Prop where
  scheduled : ∀ p ∈ ops, SchedulesRetry p → p.2.after.availableAt ≤ r.availableAt
  running : r.status = .running → ∀ p ∈ ops, SchedulesRetry p →
    ∃ q ∈ ops, p.2.after.availableAt ≤ q.1.decision.instant
  apart : ops.Pairwise fun p q => SchedulesRetry p → NotBefore p.2.after.availableAt q

theorem Patient.keep {ops : List (Commit × Change)} {c : Commit} {ch : Change}
    (h : Patient ops ch.before) (hquiet : ¬ SchedulesRetry (c, ch))
    (havailable : ch.after.availableAt = ch.before.availableAt)
    (hrunning : ch.after.status = .running →
      ch.before.status = .running ∨ ch.before.availableAt ≤ c.decision.instant)
    (hnotBefore : NotBefore ch.before.availableAt (c, ch)) : Patient (ops ++ [(c, ch)]) ch.after where
  scheduled p hp hretry := by
    rw [havailable]
    rcases List.mem_append.mp hp with hp | hp
    · exact h.scheduled p hp hretry
    · obtain rfl := List.mem_singleton.mp hp
      exact absurd hretry hquiet
  running hstatus p hp hretry := by
    rcases List.mem_append.mp hp with hp | hp
    · rcases hrunning hstatus with hbefore | hle
      · obtain ⟨q, hq, hle⟩ := h.running hbefore p hp hretry
        exact ⟨q, List.mem_append_left _ hq, hle⟩
      · refine ⟨(c, ch), List.mem_append_right _ (List.mem_singleton_self _), ?_⟩
        exact (h.scheduled p hp hretry).trans hle
    · obtain rfl := List.mem_singleton.mp hp
      exact absurd hretry hquiet
  apart := by
    refine List.pairwise_append.mpr ⟨h.apart, List.pairwise_singleton _ _, fun p hp q hq hretry => ?_⟩
    obtain rfl := List.mem_singleton.mp hq
    have hle := h.scheduled p hp hretry
    unfold NotBefore at hnotBefore ⊢
    split at hnotBefore
    · exact hle.trans hnotBefore
    · exact hle.trans hnotBefore
    · trivial

/-- Every accepted operation waits for the instants scheduled before it. -/
theorem Patient.next {ops : List (Commit × Change)} {c : Commit} {ch : Change}
    (h : Patient ops ch.before) (hstart : c.start ≤ c.decision.instant)
    (hordered : ∀ p ∈ ops, p.1.decision.instant ≤ c.decision.instant)
    (ht : Transition c.start c.decision.instant ch.checkedAt ch.before ch.after c.call) :
    Patient (ops ++ [(c, ch)]) ch.after := by
  generalize hcall : c.call = call at ht
  cases ht with
  | claim _ havailable _ _ _ hcols =>
    exact h.keep (by simp [SchedulesRetry, hcall]) (by rw [hcols])
      (fun _ => .inr (havailable.trans hstart)) (by simpa [NotBefore, hcall])
  | renew hlive hcols =>
    exact h.keep (by simp [SchedulesRetry, hcall]) (by rw [hcols])
      (fun _ => .inl (holdsLiveLease_iff.mp hlive).2.1) (by simp [NotBefore, hcall])
  | complete hlive hcols =>
    exact h.keep (by simp [SchedulesRetry, hcall]) (by rw [hcols])
      (fun _ => .inl (holdsLiveLease_iff.mp hlive).2.1) (by simp [NotBefore, hcall])
  | recover hrunning _ _ hcols =>
    exact h.keep (by simp [SchedulesRetry, hcall]) (by rw [hcols]) (fun _ => .inl hrunning)
      (by simp [NotBefore, hcall])
  | promote hwaiting hdue hcols =>
    refine h.keep (by simp [SchedulesRetry, hcall]) (by rw [hcols]) (fun hrunning => ?_)
      (by simpa [NotBefore, hcall])
    rw [hcols] at hrunning
    cases hrunning
  | @fail cred error retryable hlive hcols =>
    have hrunning := (holdsLiveLease_iff.mp hlive).2.1
    have hstatus : ch.after.status ≠ .running := by
      rw [hcols]
      dsimp only
      split <;> simp
    have hlater : ∀ p ∈ ops, SchedulesRetry p → p.2.after.availableAt ≤ ch.after.availableAt := by
      intro p hp hretry
      rw [hcols]
      dsimp only
      split
      · -- the claim of this attempt began after the earlier instant
        obtain ⟨q, hq, hle⟩ := h.running hrunning p hp hretry
        have hbackoff := (retryBackoffMs_pos ch.before.attemptCount).le
        have hinstant := hordered q hq
        linarith
      · exact h.scheduled p hp hretry
    refine ⟨fun p hp hretry => ?_, fun hstill => absurd hstill hstatus, ?_⟩
    · rcases List.mem_append.mp hp with hp | hp
      · exact hlater p hp hretry
      · obtain rfl := List.mem_singleton.mp hp
        exact le_refl _
    · refine List.pairwise_append.mpr ⟨h.apart, List.pairwise_singleton _ _,
        fun p hp q hq hretry => ?_⟩
      obtain rfl := List.mem_singleton.mp hq
      simp [NotBefore, hcall]

theorem Patient.of_life {r₀ r : StepRow} {ops : List (Commit × Change)} (h : Life r₀ ops r)
    (hstart : ∀ p ∈ ops, p.1.start ≤ p.1.decision.instant)
    (hordered : ops.Pairwise fun p q => p.1.decision.instant ≤ q.1.decision.instant) :
    Patient ops r := by
  induction h with
  | nil => exact ⟨by simp, by simp, List.Pairwise.nil⟩
  | @snoc ops c ch life transition ih =>
    obtain ⟨hearlier, -, hlast⟩ := List.pairwise_append.mp hordered
    have hlastStart := hstart (c, ch) (List.mem_append_right _ (List.mem_singleton_self _))
    refine (ih (fun p hp => hstart p (List.mem_append_left _ hp)) hearlier).next hlastStart ?_
      transition
    exact fun p hp => hlast p hp (c, ch) (List.mem_singleton_self _)

theorem attemptCount_le_of_transition {call : Call} {start instant checkedAt : Timestamp}
    {r r' : StepRow} (h : Transition start instant checkedAt r r' call) :
    r.attemptCount.val ≤ r'.attemptCount.val := by
  cases h with
  | claim _ _ _ _ hattempt _ =>
    rw [hattempt]
    omega
  | renew _ hcols | complete _ hcols | fail _ hcols | recover _ _ _ hcols | promote _ _ hcols =>
    rw [hcols]

theorem attempts_of_life {r₀ r : StepRow} {ops : List (Commit × Change)} (h : Life r₀ ops r) :
    (∀ p ∈ ops, p.2.after.attemptCount.val ≤ r.attemptCount.val) ∧
      ops.Pairwise fun p q => p.2.after.attemptCount.val ≤ q.2.before.attemptCount.val := by
  induction h with
  | nil => simp
  | @snoc ops c ch life transition ih =>
    obtain ⟨hle, hordered⟩ := ih
    refine ⟨fun p hp => ?_, List.pairwise_append.mpr ⟨hordered, List.pairwise_singleton _ _,
      fun p hp q hq => ?_⟩⟩
    · rcases List.mem_append.mp hp with hp | hp
      · exact (hle p hp).trans (attemptCount_le_of_transition transition)
      · obtain rfl := List.mem_singleton.mp hp
        exact le_refl _
    · obtain rfl := List.mem_singleton.mp hq
      exact hle p hp

/-- The operations accepted on one row decided in their commit order. -/
theorem acceptedOn_ordered {w : World} (h : InstantOrder w) (id : StepId) :
    (acceptedOn w.history id).Pairwise fun p q => p.1.decision.instant ≤ q.1.decision.instant := by
  refine List.Pairwise.filterMap _ (fun c c' hordered p hp q hq => ?_) h.past
  obtain ⟨ch, hch, rfl⟩ := Option.map_eq_some_iff.mp hp
  obtain ⟨ch', hch', rfl⟩ := Option.map_eq_some_iff.mp hq
  refine hordered.resolve_right fun hapart => ?_
  obtain ⟨hmem, hid⟩ := Commit.change?_eq_some hch
  obtain ⟨hmem', hid'⟩ := Commit.change?_eq_some hch'
  have hwritten : id ∈ c.written := hid ▸ List.mem_map_of_mem hmem
  refine hapart.1 id hwritten (List.mem_append_right _ ?_)
  exact hid' ▸ List.mem_map_of_mem hmem'

def handedOut (c : Commit) : List StepId :=
  match c.outcome with
  | .claimed s => [s.id]
  | .promoted steps => steps.map PromotedStep.id
  | _ => []

theorem change_of_handedOut {steps : StepsTable} {c : Commit}
    (h : Performs steps c.call c.start c.decision) {id : StepId} (hid : id ∈ handedOut c) :
    ∃ ch, c.change? id = some ch ∧ ((∃ workerId ms, c.call = .claimNextStep workerId ms ∧
      c.claimed? = some (claimedStep ch.after)) ∨ c.call = .promoteDueRetries) := by
  have hfound : ∀ ch ∈ c.decision.changes, ch.after.id = id → ∃ ch', c.change? id = some ch' := by
    intro ch hch hafter
    refine Option.isSome_iff_exists.mp (List.find?_isSome.mpr ⟨ch, hch, ?_⟩)
    simpa using (h.after_id ch hch).symm.trans hafter
  unfold handedOut at hid
  split at hid
  · rename_i s hout
    obtain rfl := List.mem_singleton.mp hid
    have hclaimed : c.claimed? = some s := by simp [Commit.claimed?, hout]
    obtain ⟨workerId, ms, ch, rest, hcall, hchanges, rfl⟩ := Commit.claimed?_eq_some.mp hclaimed
    obtain ⟨ch', hch'⟩ := hfound ch (by simp [hchanges]) rfl
    have hone := h.changes_eq (by rw [hcall]; rfl) hch'
    rw [hchanges] at hone
    obtain ⟨rfl, -⟩ := List.cons.inj hone
    exact ⟨ch, hch', .inl ⟨workerId, ms, hcall, hclaimed⟩⟩
  · rename_i listed hout
    obtain ⟨s, hs, rfl⟩ := List.mem_map.mp hid
    cases hcall : c.call with
    | promoteDueRetries =>
      rw [Commit.outcome, hcall] at hout
      obtain rfl := Outcome.promoted.inj hout
      obtain ⟨ch, hch, rfl⟩ := List.mem_map.mp hs
      obtain ⟨ch', hch'⟩ := hfound ch hch rfl
      exact ⟨ch', hch', .inr rfl⟩
    | completeStepSuccess cred result =>
      rw [Commit.outcome, hcall, Call.outcome] at hout
      split at hout <;> cases hout
    | recoverExpiredSteps | lockRows =>
      rw [Commit.outcome, hcall] at hout
      cases hout
    | claimNextStep | renewStepLease | recordStepFailure =>
      rw [Commit.outcome, hcall] at hout
      cases hchanges : c.decision.changes <;> (rw [hchanges] at hout; cases hout)
  · cases hid

/-- `500 * 2^(k-1)` milliseconds, at most 4000, with the exponent capped first. -/
theorem retryBackoffMs_eq (n : Int4) :
    retryBackoffMs n = min (500 * 2 ^ (n.val - 1).toNat) 4000 := by
  have hexponent : (min (max (n.val - 1) 0) 3).toNat = min (n.val - 1).toNat 3 := by omega
  rw [retryBackoffMs, hexponent]
  rcases le_or_gt (n.val - 1).toNat 3 with hsmall | hlarge
  · have hpower : (2 : ℤ) ^ (n.val - 1).toNat ≤ 2 ^ 3 := pow_le_pow_right₀ (by norm_num) hsmall
    rw [min_eq_left hsmall, min_eq_left (by linarith)]
  · have hpower : (2 : ℤ) ^ 3 ≤ 2 ^ (n.val - 1).toNat := pow_le_pow_right₀ (by norm_num) hlarge.le
    rw [min_eq_right hlarge.le, min_eq_right (by linarith)]
    norm_num

theorem call_of_claimed {c : Commit} {s : ClaimedStep} (h : c.claimed? = some s) :
    ∃ workerId ms, c.call = .claimNextStep workerId ms := by
  obtain ⟨workerId, ms, -, -, hcall, -⟩ := Commit.claimed?_eq_some.mp h
  exact ⟨workerId, ms, hcall⟩

theorem outcome_of_claimed {c : Commit} {s : ClaimedStep} (h : c.claimed? = some s) :
    c.outcome = .claimed s := by
  unfold Commit.claimed? at h
  split at h
  · rename_i s' hout
    rw [hout, Option.some.inj h]
  · cases h

theorem handedOut_notBefore {steps : StepsTable} {c : Commit} {id : StepId} {instant : Timestamp}
    (h : Performs steps c.call c.start c.decision) (htimely : c.Timely) (hid : id ∈ handedOut c)
    (hwait : ∀ ch, c.change? id = some ch → NotBefore instant (c, ch)) :
    instant ≤ c.committedAt ∧ ∀ s, c.claimed? = some s → instant ≤ c.start := by
  obtain ⟨ch, hch, hkind⟩ := change_of_handedOut h hid
  have hchange := hwait ch hch
  rcases hkind with ⟨workerId, ms, hcall, -⟩ | hcall
  · have hle : instant ≤ c.start := by simpa [NotBefore, hcall] using hchange
    exact ⟨hle.trans (htimely.started.trans htimely.decided), fun _ _ => hle⟩
  · have hle : instant ≤ ch.checkedAt := by simpa [NotBefore, hcall] using hchange
    have hjudged := htimely.judged ch (Commit.change?_eq_some hch).1
    refine ⟨hle.trans (hjudged.trans htimely.decided), fun s hs => ?_⟩
    obtain ⟨_, _, hclaim⟩ := call_of_claimed hs
    rw [hcall] at hclaim
    cases hclaim

/-- In a forward run, an accepted retryable failure of attempt `k` with budget left
schedules the retry `min (500 * 2^(k-1)) 4000` milliseconds after `decided_at`. Every
promotion or claim that returns the step later commits no earlier than that, every
such claim began no earlier, and so did the claim that makes attempt `k + 1`. -/
theorem no_retry_runs_early {w₀ w : World} (h₀ : w₀.Initial) (h : Reaches forwardStep w₀ w)
    {earlier later : List Commit} {c : Commit} (hsplit : w.history = earlier ++ c :: later)
    {cred : Credential} {error : JsString} (hcall : c.call = .recordStepFailure cred error true)
    {ch : Change} (hch : c.change? cred.id = some ch)
    (hbudget : ch.before.attemptCount.val < ch.before.maxAttempts.val) :
    ch.after.status = .retryWait ∧
    ch.after.availableAt = c.decision.instant +
      1000 * min (500 * 2 ^ (ch.before.attemptCount.val - 1).toNat) 4000 ∧
    c.outcome = .recorded .retryWait ch.before.attemptCount ch.before.leaseVersion
      ch.after.availableAt c.decision.instant ∧
    (w.clock < ch.after.availableAt → ∀ c' ∈ later, cred.id ∉ handedOut c') ∧
    (∀ c' ∈ later, cred.id ∈ handedOut c' → ch.after.availableAt ≤ c'.committedAt ∧
      ∀ s, c'.claimed? = some s → ch.after.availableAt ≤ c'.start) ∧
    ∀ c' ∈ w.history, ∀ s, c'.claimed? = some s → s.id = cred.id →
      s.attemptCount.val = ch.before.attemptCount.val + 1 → ch.after.availableAt ≤ c'.start := by
  have hserial := serial_of_reaches h₀ h.of_guarded
  have htimes := OnTime.reaches h₀ h
  have hmem : c ∈ w.history := by simp [hsplit]
  obtain ⟨⟨steps, hperforms⟩, -⟩ := hserial.performs c hmem
  have htransition := hperforms.transition (Commit.change?_eq_some hch).1
  have hone := hperforms.changes_eq (by rw [hcall]; rfl) hch
  rw [hcall] at htransition
  obtain ⟨hretry, havailable, hcounts⟩ : ch.after.status = .retryWait ∧ ch.after.availableAt =
      c.decision.instant + 1000 * retryBackoffMs ch.before.attemptCount ∧
      ch.after.attemptCount = ch.before.attemptCount ∧
      ch.after.leaseVersion = ch.before.leaseVersion := by
    cases htransition with
    | fail hlive hcols =>
      have hmay : mayRetry true ch.before = true := by simp [mayRetry, hbudget]
      simp [hcols, hmay]
  have hschedules : SchedulesRetry (c, ch) := ⟨⟨_, _, _, hcall⟩, hretry⟩
  -- the row exists from the start, and its life splits at the report
  obtain ⟨r₀, hr₀⟩ : ∃ r₀, w₀.steps.find? cred.id = some r₀ := by
    cases habsent : w₀.steps.find? cred.id with
    | some r₀ => exact ⟨r₀, rfl⟩
    | none =>
      obtain ⟨r₀, hr₀, -⟩ := hserial.sameTask.2 c hmem ch (Commit.change?_eq_some hch).1
      rw [(Commit.change?_eq_some hch).2, habsent] at hr₀
      cases hr₀
  obtain ⟨r, -, hlife⟩ := hserial.life hr₀
  have hpatient := Patient.of_life hlife
    (fun p hp => (htimes.past p.1 (mem_acceptedOn.mp hp).1).1.started)
    (acceptedOn_ordered (InstantOrder.reaches h₀ h) cred.id)
  have hattempts := (attempts_of_life hlife).2
  have hsplitOn : acceptedOn w.history cred.id =
      acceptedOn earlier cred.id ++ (c, ch) :: acceptedOn later cred.id := by
    rw [hsplit, acceptedOn_append]
    simp [acceptedOn, hch]
  have hapart := hpatient.apart
  rw [hsplitOn] at hapart hattempts
  obtain ⟨-, hafter, -⟩ := List.pairwise_append.mp hapart
  obtain ⟨-, -, hbefore⟩ := List.pairwise_append.mp hattempts
  have hwaits : ∀ p ∈ acceptedOn later cred.id, NotBefore ch.after.availableAt p := fun p hp =>
    (List.pairwise_cons.mp hafter).1 p hp hschedules
  have hlater : ∀ c' ∈ later, cred.id ∈ handedOut c' → ch.after.availableAt ≤ c'.committedAt ∧
      ∀ s, c'.claimed? = some s → ch.after.availableAt ≤ c'.start := by
    intro c' hc' hid
    have hmem' : c' ∈ w.history := by simp [hsplit, hc']
    obtain ⟨⟨steps', hperforms'⟩, -⟩ := hserial.performs c' hmem'
    exact handedOut_notBefore hperforms' (htimes.past c' hmem').1 hid fun ch' hch' =>
      hwaits (c', ch') (mem_acceptedOn.mpr ⟨hc', hch'⟩)
  refine ⟨hretry, ?_, ?_, fun hclock c' hc' hid => ?_, hlater, fun c' hc' s hs hid hnext => ?_⟩
  · rw [havailable, retryBackoffMs_eq]
  · rw [Commit.outcome, hcall, hone]
    simp only [Call.outcome, hretry, hcounts.1, hcounts.2]
  · have hpast := (htimes.past c' (by simp [hsplit, hc'])).2
    exact absurd hclock (not_lt.mpr ((hlater c' hc' hid).1.trans hpast))
  · have hout := outcome_of_claimed hs
    have hhanded : cred.id ∈ handedOut c' := by simp [handedOut, hout, hid]
    rw [hsplit] at hc'
    rcases List.mem_append.mp hc' with hearly | hlast
    · -- an earlier claim has an earlier attempt number
      obtain ⟨⟨steps', hperforms'⟩, -⟩ := hserial.performs c' (by simp [hsplit, hearly])
      obtain ⟨ch', hch', hkind⟩ := change_of_handedOut hperforms' hhanded
      have hle := hbefore (c', ch') (mem_acceptedOn.mpr ⟨hearly, hch'⟩) (c, ch) List.mem_cons_self
      rcases hkind with ⟨_, _, -, hclaimed⟩ | hcall'
      · obtain rfl := Option.some.inj (hs.symm.trans hclaimed)
        have hcount : ch'.after.attemptCount.val = ch.before.attemptCount.val + 1 := hnext
        simp only at hle
        omega
      · obtain ⟨_, _, hclaim⟩ := call_of_claimed hs
        rw [hcall'] at hclaim
        cases hclaim
    · rcases List.mem_cons.mp hlast with rfl | hlast
      · obtain ⟨_, _, hclaim⟩ := call_of_claimed hs
        rw [hcall] at hclaim
        cases hclaim
      · exact (hlater c' hlast hhanded).2 s hs

/-- The second attempt fails, its retry is promoted, and the step is claimed again. -/
def retriedLife : List Action :=
  eventfulLife ++ callAlone 6 (.claimNextStep "third" 30000) 6

theorem no_retry_runs_early_retried :
    ∃ w c ch s, run forwardStep .singleStep retriedLife = some w ∧ c ∈ w.history ∧
      c.change? 7 = some ch ∧ ch.after.availableAt = c.decision.instant + 1000000 ∧
      (∃ c' ∈ w.history, c'.claimed? = some s ∧ s.attemptCount.val = 3 ∧
        ch.after.availableAt ≤ c'.start) := by
  let cred : Credential := ⟨7, "second", ⟨2, by decide⟩⟩
  have hruns : (run forwardStep .singleStep retriedLife).any
      (fun w => w.history.any fun c => c.call = .recordStepFailure cred [0x45] true ∧
        (c.change? 7).any (fun ch => ch.before.attemptCount.val = 2 ∧
          ch.before.maxAttempts.val = 3) ∧
        w.history.any fun c' => c'.claimed?.any fun s => s.id = 7 ∧ s.attemptCount.val = 3) =
      true := by
    decide +kernel
  obtain ⟨w, hw, hend⟩ := (Option.any_eq_true _ _).mp hruns
  obtain ⟨c, hc, hend⟩ := List.any_eq_true.mp hend
  obtain ⟨hcall, hchange, hclaims⟩ := of_decide_eq_true hend
  obtain ⟨ch, hch, hcounts⟩ := (Option.any_eq_true _ _).mp hchange
  obtain ⟨hattempt, hmax⟩ := of_decide_eq_true hcounts
  obtain ⟨c', hc', hclaimed⟩ := List.any_eq_true.mp hclaims
  obtain ⟨s, hs, hclaimed⟩ := (Option.any_eq_true _ _).mp hclaimed
  obtain ⟨hid, hthird⟩ := of_decide_eq_true hclaimed
  obtain ⟨earlier, later, hsplit⟩ := List.append_of_mem hc
  obtain ⟨-, havailable, -, -, -, hnext⟩ := no_retry_runs_early World.initial_singleStep ⟨_, hw⟩
    hsplit hcall hch (by omega)
  refine ⟨w, c, ch, s, hw, hc, hch, ?_, c', hc', hs, hthird, hnext c' hc' s hs hid (by omega)⟩
  rw [havailable, hattempt]
  norm_num

end DurableRunner.Guarantees
