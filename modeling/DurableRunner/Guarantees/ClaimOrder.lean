import DurableRunner.Guarantees.EventHistory
import DurableRunner.Operations.Lifetime
import DurableRunner.Sessions.Draining

/-! # Claims come in the claim order

A claim takes the least free row of its snapshot, so claims one after another
empty the queue in order. Recovery keeps a row's place in it, a retry gives it up.
-/
namespace DurableRunner.Guarantees
open Schema Operations Sessions TransitionSystem

/-- The rows that a claim with this transaction start may take. -/
structure Claimable (w : World) (tx : TxId) (now : Timestamp) (r : StepRow) : Prop where
  row : r ∈ w.steps.rows
  unlocked : w.heldByOther tx r.id = false
  ready : r.status = .ready
  available : r.availableAt ≤ now
  budget : r.attemptCount.val < r.maxAttempts.val

structure NextClaim (w : World) (tx : TxId) (now : Timestamp) (r : StepRow) : Prop where
  claimable : Claimable w tx now r
  least : ∀ x, Claimable w tx now x → claimOrder r x

/-- The claim committed with this answer: the least row, or no work and no change. -/
def Answers (w : World) (tx : TxId) (now : Timestamp) (w' : World) : Outcome → Prop
  | .claimed s => ∃ r r', NextClaim w tx now r ∧ s = claimedStep r' ∧ r'.id = r.id ∧
      w'.steps = w.steps.set r'
  | .notClaimed => (∀ r, ¬ Claimable w tx now r) ∧ w'.steps = w.steps ∧ w'.events = w.events
  | _ => False

/-- The n-th claim hands out the n-th row of the queue, or finds no work behind its end. -/
def HandsOut (row : Option StepRow) (outcome : Outcome) : Prop :=
  match row with
  | some r => ∃ s, outcome = .claimed s ∧ s.id = r.id
  | none => outcome = .notClaimed

section Claim
variable {w w' : World} {tx : TxId} {t : Tx} {workerId : WorkerId} {leaseDurationMs : ℤ}
  (hcall : t.call = .claimNextStep workerId leaseDurationMs)
include hcall

theorem claimable_iff (w : World) (tx : TxId) (r : StepRow) :
    r ∈ (w.candidates t.call t.start).filter (fun r => !w.heldByOther tx r.id) ↔
      Claimable w tx t.start r := by
  rw [List.mem_filter, mem_candidates, hcall]
  constructor
  · rintro ⟨⟨hrow, heligible⟩, hfree⟩
    obtain ⟨hready, havailable, hbudget⟩ := claimEligible_iff.mp heligible
    exact ⟨hrow, by simpa using hfree, hready, havailable, hbudget⟩
  · intro h
    exact ⟨⟨h.row, claimEligible_iff.mpr ⟨h.ready, h.available, h.budget⟩⟩, by simp [h.unlocked]⟩

theorem takes_claim (w : World) (tx : TxId) : (w.takes tx t = [] ∧ ∀ r, ¬ Claimable w tx t.start r) ∨
    ∃ r, w.takes tx t = [r] ∧ NextClaim w tx t.start r := by
  have hsorted : ((w.candidates t.call t.start).filter fun r => !w.heldByOther tx r.id).Pairwise
      t.call.order := (Relational.Table.selection_pairwise (t := w.steps)).filter _
  have hmem := claimable_iff hcall w tx
  have hlimit : t.call.limit = 1 := by rw [hcall]; rfl
  unfold World.takes
  rw [hlimit]
  cases hrows : (w.candidates t.call t.start).filter fun r => !w.heldByOther tx r.id with
  | nil =>
    refine .inl ⟨rfl, fun r hr => ?_⟩
    rw [← hmem, hrows] at hr
    cases hr
  | cons r rest =>
    rw [hrows] at hsorted hmem
    refine .inr ⟨r, rfl, (hmem r).mp List.mem_cons_self, fun x hx => ?_⟩
    rcases List.mem_cons.mp ((hmem x).mpr hx) with rfl | hx
    · exact (total_of claimOrder x x).elim id id
    · have horder := List.rel_of_pairwise_cons hsorted hx
      rw [hcall] at horder
      exact horder

/-- Whatever the clock does, an undisturbed claim answers with the least row. -/
theorem answers_of_undisturbed (ht : w.txs tx = some t) (hbegun : t.phase = .begun)
    (h : CommitsUndisturbed (fun _ => True) tx w w') :
    ∃ c : Commit, w'.history = w.history ++ [c] ∧ c.tx = tx ∧ Answers w tx t.start w' c.outcome := by
  have hcred : t.call.credential? = none := by rw [hcall]; rfl
  have hselects : t.call ≠ .lockRows := by rw [hcall]; nofun
  obtain ⟨-, scannedAt, d, -, -, hupdate, hcompleted⟩ :=
    committed_of_undisturbed hcred hselects ht hbegun trivial h
  obtain ⟨c, hhistory, htx, hcallc, -, hdecision, hevents, hwritten⟩ := hcompleted.committed
  have htakes : w.takesAt tx t scannedAt = w.takes tx t := by
    rw [World.takesAt, World.takes, World.takes, World.candidates, World.candidates, hcall]
    rfl
  have hbefore := Call.updateAll_before hcred hselects hupdate
  have hupdated := Call.updateAll_updated hupdate
  have houtcome : c.outcome = Call.outcome d.instant d.changes (.claimNextStep workerId leaseDurationMs) := by
    rw [Commit.outcome, hcallc, hdecision, hcall]
  refine ⟨c, hhistory, htx, ?_⟩
  rw [houtcome]
  rw [htakes] at hbefore
  rcases takes_claim hcall w tx with ⟨hnone, hempty⟩ | ⟨r, hone, hnext⟩
  · rw [hnone, List.map_nil, List.map_eq_nil_iff] at hbefore
    rw [hbefore]
    refine ⟨hempty, by rw [hcompleted.steps, hbefore]; rfl, ?_⟩
    rw [hbefore] at hwritten
    rw [hevents, List.map_eq_nil_iff.mp hwritten, List.append_nil]
  · rw [hone, List.map_singleton, List.map_eq_singleton_iff] at hbefore
    obtain ⟨ch, hchanges, hch⟩ := hbefore
    obtain rfl : ch.before = r := congrArg Prod.fst hch
    rw [hchanges]
    have hid := Call.update_id (hupdated ch (by rw [hchanges]; exact List.mem_cons_self))
    exact ⟨ch.before, ch.after, hnext, rfl, hid, by rw [hcompleted.steps, hchanges]; rfl⟩

/-- A claim with valid arguments returns unless the lease version of its row is the last one. -/
theorem claim_completes (ht : w.txs tx = some t) (hbegun : t.phase = .begun)
    (harguments : ClaimArguments workerId leaseDurationMs)
    (hversion : ∀ r, NextClaim w tx t.start r →
      0 ≤ r.leaseVersion.val ∧ r.leaseVersion.val < 2147483647) :
    ∃ w', CompletesAlone tx w w' := by
  have hcred : t.call.credential? = none := by rw [hcall]; rfl
  have hselects : t.call ≠ .lockRows := by rw [hcall]; nofun
  rcases takes_claim hcall w tx with ⟨hnone, -⟩ | ⟨r, hone, hnext⟩
  · exact (select_completes ht hbegun hcred hselects (by rw [hnone]; rfl)).1
  · obtain ⟨r', hupdate⟩ := claimCandidate_of_ready t.start w.clock harguments
      hnext.claimable.ready hnext.claimable.budget (hversion r hnext)
    have hall : t.call.updateAll t.start w.clock ((w.takes tx t).map fun r => (r, w.clock)) =
        .ok [⟨r, r', w.clock⟩] := by
      rw [hone, hcall]
      simp [Call.updateAll, Call.update, hupdate]
    exact (select_completes ht hbegun hcred hselects hall).1

end Claim

/-- The claim order looks at priority, `available_at` and id only. -/
theorem claimOrder_congr {a b : StepRow} (hpriority : a.priority = b.priority)
    (havailable : a.availableAt = b.availableAt) (hid : a.id = b.id) (x : StepRow) :
    (claimOrder a x ↔ claimOrder b x) ∧ (claimOrder x a ↔ claimOrder x b) := by
  unfold claimOrder
  rw [hpriority, havailable, hid]
  exact ⟨Iff.rfl, Iff.rfl⟩

theorem claimOrder_of_later {a b : StepRow} (hpriority : a.priority = b.priority)
    (havailable : a.availableAt < b.availableAt) : claimOrder a b ∧ ¬ claimOrder b a := by
  unfold claimOrder
  rw [hpriority]
  constructor
  · exact .inr ⟨rfl, .inl havailable⟩
  · grind

structure ClaimQueue (w : World) (rows : List StepRow) : Prop where
  sorted : rows.Pairwise claimOrder
  distinct : (rows.map fun r => r.id).Nodup
  complete : ∀ r, r ∈ rows ↔ r ∈ w.steps.rows ∧ w.holder r.id = none ∧ r.status = .ready ∧
    r.availableAt ≤ w.clock ∧ r.attemptCount.val < r.maxAttempts.val

theorem claimQueue_queue (w : World) (workerId : WorkerId) (leaseDurationMs : ℤ) :
    ClaimQueue w (w.queue (.claimNextStep workerId leaseDurationMs) w.clock) where
  sorted := (Relational.Table.selection_pairwise (t := w.steps)).filter _
  distinct := (List.filter_sublist.map _).nodup (candidates_nodup _ _ _)
  complete r := by
    rw [World.queue, List.mem_filter, mem_candidates]
    simp only [Call.eligible, claimEligible_iff, Option.isNone_iff_eq_none]
    tauto

theorem queued_claims {w : World} (hbegun : ∀ id tx, w.holder id = some tx → tx < w.nextTx)
    (workerId : WorkerId) (leaseDurationMs : ℤ) :
    Queued (.claimNextStep workerId leaseDurationMs) (SameAvailability w) w
      (w.queue (.claimNextStep workerId leaseDurationMs) w.clock) where
  reading _ _ := Iff.rfl
  begun := hbegun
  queue now clock hnow hclock := by
    unfold World.queue World.candidates
    congr 2
    refine List.filter_congr fun r hr => ?_
    simp only [Call.eligible, claimEligible, hnow r hr]

/-- A claim that took the first rows of a queue hands out the head of it. -/
theorem handsOut_of_takes {workerId : WorkerId} {leaseDurationMs : ℤ} {rows : List StepRow} {i : ℕ}
    {c : Commit} (h : Takes (.claimNextStep workerId leaseDurationMs) ((rows.drop i).take 1) c) :
    HandsOut rows[i]? c.outcome := by
  have hbefore := h.before
  have hupdated := h.updated
  rw [Commit.outcome]
  cases hcall : c.call with
  | claimNextStep worker ms =>
    rw [hcall] at hupdated
    cases hrow : rows[i]? with
    | none =>
      rw [List.drop_eq_nil_of_le (List.getElem?_eq_none_iff.mp hrow), List.take_nil,
        List.map_eq_nil_iff] at hbefore
      rw [hbefore]
      rfl
    | some r =>
      obtain ⟨hi, rfl⟩ := List.getElem?_eq_some_iff.mp hrow
      rw [List.drop_eq_getElem_cons hi, List.take_succ_cons, List.take_zero,
        List.map_eq_singleton_iff] at hbefore
      obtain ⟨ch, hchanges, hch⟩ := hbefore
      rw [hchanges] at hupdated ⊢
      have hid := Call.update_id (hupdated ch List.mem_cons_self)
      exact ⟨claimedStep ch.after, rfl, hch ▸ hid⟩
  | recoverExpiredSteps | promoteDueRetries | renewStepLease | completeStepSuccess
  | recordStepFailure | lockRows =>
    have hkind := h.call
    rw [hcall] at hkind
    cases hkind

/-- The row has the same place in the claim order as before. -/
def KeepsPlace (ch : Change) : Prop :=
  ∀ x, (claimOrder ch.after x ↔ claimOrder ch.before x) ∧
    (claimOrder x ch.after ↔ claimOrder x ch.before)

/-- The row is now strictly behind the rows of its priority that were available. -/
def GoesBehind (ch : Change) (instant : Timestamp) : Prop :=
  ∀ x : StepRow, x.priority = ch.after.priority → x.availableAt ≤ instant →
    claimOrder x ch.after ∧ ¬ claimOrder ch.after x

theorem keepsPlace_of_recover {start instant checkedAt : Timestamp} {r r' : StepRow}
    (h : Transition start instant checkedAt r r' .recoverExpiredSteps) :
    KeepsPlace ⟨r, r', checkedAt⟩ := by
  cases h with
  | recover hrunning hdeadline hexpired hcols =>
    exact claimOrder_congr (by rw [hcols]) (by rw [hcols]) (by rw [hcols])

theorem goesBehind_of_retry {start instant checkedAt : Timestamp} {r r' : StepRow}
    {cred : Credential} {error : JsString} {retryable : Bool}
    (h : Transition start instant checkedAt r r' (.recordStepFailure cred error retryable))
    (hretry : r'.status = .retryWait) : GoesBehind ⟨r, r', checkedAt⟩ instant := by
  intro x hpriority hle
  refine claimOrder_of_later hpriority (lt_of_le_of_lt hle ?_)
  cases h with
  | fail hlive hcols =>
    rw [hcols] at hretry
    have hmay : mayRetry retryable r = true := by
      by_contra hnot
      simp [hnot] at hretry
    have havailable : r'.availableAt = instant + 1000 * retryBackoffMs r.attemptCount := by
      rw [hcols, hmay]
      rfl
    have hbackoff := retryBackoffMs_pos r.attemptCount
    linarith

/-- A claim answers with the least free eligible row, whatever else is locked, and
claims one after another list the queue. Recovery keeps a step's place, and a
retry goes behind the steps of its priority that were available by then. -/
theorem claims_follow_the_claim_order {w₀ w : World} (h₀ : w₀.Initial) (h : Reaches step w₀ w) :
    (∀ (v : World) (tx : TxId) (t : Tx) (workerId : WorkerId) (leaseDurationMs : ℤ),
      v.txs tx = some t → t.phase = .begun → t.call = .claimNextStep workerId leaseDurationMs →
      (∀ v', CommitsUndisturbed (fun _ => True) tx v v' → ∃ c : Commit,
        v'.history = v.history ++ [c] ∧ c.tx = tx ∧ Answers v tx t.start v' c.outcome) ∧
      (ClaimArguments workerId leaseDurationMs → (∀ r, NextClaim v tx t.start r →
        0 ≤ r.leaseVersion.val ∧ r.leaseVersion.val < 2147483647) → ∃ v', CompletesAlone tx v v')) ∧
    (∀ (v : World) (workerId : WorkerId) (leaseDurationMs : ℤ),
      (∀ id tx, v.holder id = some tx → tx < v.nextTx) → ∃ rows, ClaimQueue v rows ∧
      ∀ v' n, OneByOne (.claimNextStep workerId leaseDurationMs) (SameAvailability v) v v' n →
        ∃ cs : List Commit, v'.history = v.history ++ cs ∧ cs.length = n ∧
          ∀ (i : ℕ) (c : Commit), cs[i]? = some c → HandsOut rows[i]? c.outcome) ∧
    ∀ c ∈ w.history, ∀ ch ∈ c.decision.changes,
      (c.call = .recoverExpiredSteps → KeepsPlace ch) ∧
      ∀ cred error retryable, c.call = .recordStepFailure cred error retryable →
        ch.after.status = .retryWait → GoesBehind ch c.decision.instant := by
  refine ⟨fun v tx t workerId ms ht hbegun hcall =>
    ⟨fun v' => answers_of_undisturbed hcall ht hbegun, claim_completes hcall ht hbegun⟩,
    fun v workerId ms hbegun => ?_, fun c hc ch hch => ?_⟩
  · refine ⟨_, claimQueue_queue v workerId ms, fun v' n hrun => ?_⟩
    obtain ⟨-, cs, hhistory, hlength, htakes⟩ := hrun.queued (queued_claims hbegun workerId ms)
    simp only [Call.limit, mul_one] at htakes
    exact ⟨cs, hhistory, hlength, fun i c hc => handsOut_of_takes (htakes i c hc)⟩
  · obtain ⟨⟨steps, hperforms⟩, -⟩ := (serial_of_reaches h₀ h).performs c hc
    have htransition := hperforms.transition hch
    refine ⟨fun hcall => ?_, fun cred error retryable hcall hretry => ?_⟩
    · rw [hcall] at htransition
      exact keepsPlace_of_recover htransition
    · rw [hcall] at htransition
      exact goesBehind_of_retry htransition hretry

def queueOfThree : World :=
  .opening ⟨[.inserted 1 "hash" .null 5, .inserted 2 "hash" .null 0, .inserted 3 "hash" .null 0],
    by decide⟩ 10

def lockTwo : List Action := [.start .lockRows, .lockRow 0 2]

/-- Three claims around the locked row list the other two in the claim order. A step that failed
goes behind a fresh one of its priority. -/
theorem claims_follow_the_claim_order_retried :
    (∃ v v' rows, ∃ cs : List Commit, run step queueOfThree lockTwo = some v ∧
      v.holder 2 = some 0 ∧ ClaimQueue v rows ∧
      OneByOne (.claimNextStep "worker" 30000) (SameAvailability v) v v' 3 ∧
      v'.history = v.history ++ cs ∧ cs.length = 3 ∧
      (∀ (i : ℕ) (c : Commit), cs[i]? = some c → HandsOut rows[i]? c.outcome) ∧
      v'.history.map (fun c => match c.outcome with
        | .claimed s => some s.id
        | _ => none) = [some 3, some 1, none]) ∧
    ∃ w, run step .singleStep eventfulLife = some w ∧
      ∃ c ∈ w.history, ∃ ch ∈ c.decision.changes, claimOrder (.inserted 8 "hash" .null 0) ch.after ∧
        ¬ claimOrder ch.after (.inserted 8 "hash" .null 0) := by
  constructor
  · have hruns : (run step queueOfThree lockTwo).any (fun v => v.holder 2 = some 0 ∧ v.nextTx = 1 ∧
        (run step v (callAlone 1 (.claimNextStep "worker" 30000) 7)).any fun v₁ => v₁.nextTx = 2 ∧
          (run step v₁ (callAlone 2 (.claimNextStep "worker" 30000) 7)).any fun v₂ => v₂.nextTx = 3 ∧
            (run step v₂ (callAlone 3 (.claimNextStep "worker" 30000) 5)).any fun v₃ =>
              v₃.history.map (fun c => match c.outcome with
                | .claimed s => some s.id
                | _ => none) = [some 3, some 1, none]) = true := by
      decide +kernel
    obtain ⟨v, hv, hend⟩ := (Option.any_eq_true _ _).mp hruns
    obtain ⟨hlocked, hnext, hend⟩ := of_decide_eq_true hend
    obtain ⟨v₁, hv₁, hend⟩ := (Option.any_eq_true _ _).mp hend
    obtain ⟨hnext₁, hend⟩ := of_decide_eq_true hend
    obtain ⟨v₂, hv₂, hend⟩ := (Option.any_eq_true _ _).mp hend
    obtain ⟨hnext₂, hend⟩ := of_decide_eq_true hend
    obtain ⟨v₃, hv₃, hend⟩ := (Option.any_eq_true _ _).mp hend
    have houtcomes := of_decide_eq_true hend
    have hreaches : Reaches step queueOfThree v := ⟨_, hv⟩
    have hsame : SameSelect (.claimNextStep "worker" 30000) (.claimNextStep "worker" 30000) :=
      .claim _ _ _ _
    have hadmissible : Call.admissible (.claimNextStep "worker" 30000) = true := by decide
    rw [← hnext] at hv₁
    rw [← hnext₁] at hv₂
    rw [← hnext₂] at hv₃
    have hstart : OneByOne (.claimNextStep "worker" 30000) (SameAvailability v) v v 0 := .start
    have hdrained :=
      ((hstart.callAlone hsame hadmissible hv₁).callAlone hsame hadmissible hv₂).callAlone hsame
        hadmissible hv₃
    obtain ⟨-, hqueue, -⟩ := claims_follow_the_claim_order (World.initial_opening _ _) hreaches
    obtain ⟨rows, hrows, hdrains⟩ :=
      hqueue v "worker" 30000 (begun_of_reaches (World.initial_opening _ _) hreaches)
    obtain ⟨cs, hhistory, hlength, hhands⟩ := hdrains v₃ 3 hdrained
    exact ⟨v, v₃, rows, cs, hv, hlocked, hrows, hdrained, hhistory, hlength, hhands, houtcomes⟩
  · have hruns : (run step .singleStep eventfulLife).any (fun w => w.history.any fun c =>
        c.call = .recordStepFailure ⟨7, "second", ⟨2, by decide⟩⟩ [0x45] true ∧
          0 ≤ c.decision.instant ∧ c.decision.changes.any fun ch =>
            ch.after.status = .retryWait ∧ ch.after.priority.val = 0) = true := by
      decide +kernel
    obtain ⟨w, hw, hend⟩ := (Option.any_eq_true _ _).mp hruns
    obtain ⟨c, hc, hend⟩ := List.any_eq_true.mp hend
    obtain ⟨hcall, hinstant, hend⟩ := of_decide_eq_true hend
    obtain ⟨ch, hch, hend⟩ := List.any_eq_true.mp hend
    obtain ⟨hretry, hpriority⟩ := of_decide_eq_true hend
    obtain ⟨-, -, hplaces⟩ := claims_follow_the_claim_order World.initial_singleStep ⟨_, hw⟩
    exact ⟨w, hw, c, hc, ch, hch,
      (hplaces c hc ch hch).2 _ _ _ hcall hretry _ (Int4.ext hpriority.symm) hinstant⟩

end DurableRunner.Guarantees
