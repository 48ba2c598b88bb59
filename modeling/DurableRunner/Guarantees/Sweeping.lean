import DurableRunner.Guarantees.ColumnProvenance
import DurableRunner.Operations.Lifetime
import DurableRunner.Sessions.Draining
import DurableRunner.Sessions.Generations

/-! # Sweeps divide the work

Whatever runs beside them, two sweeps never resolve the same generation. On its
own a sweep takes the first hundred free candidates, so that sweeps one after
another empty the queue in batches.
-/
namespace DurableRunner.Guarantees
open Schema Operations Sessions TransitionSystem

inductive Sweep : Call → Prop
  | recover : Sweep .recoverExpiredSteps
  | promote : Sweep .promoteDueRetries

/-- An expired lease, for recovery; a scheduled retry whose time has come, for promotion. -/
def Due (clock : Timestamp) (r : StepRow) : Call → Prop
  | .recoverExpiredSteps => r.status = .running ∧ ∃ d, r.leaseExpiresAt = some d ∧ d ≤ clock
  | .promoteDueRetries => r.status = .retryWait ∧ r.availableAt ≤ clock
  | _ => False

def resolved (r : StepRow) : Call → StepStatus
  | .recoverExpiredSteps =>
    if r.attemptCount.val < r.maxAttempts.val then .ready else .deadLettered
  | _ => .ready

def returned (c : Commit) : List (StepId × Int4) :=
  match c.outcome with
  | .recovered steps => steps.map fun s => (s.id, s.leaseVersion)
  | .promoted steps => steps.map fun s => (s.id, s.leaseVersion)
  | _ => []

def evented (c : Commit) : List (StepId × Int4) :=
  c.events.map fun e => (e.stepId, e.data.leaseVersion)

section Call
variable {call : Call} (hsweep : Sweep call)
include hsweep

theorem Sweep.credential : call.credential? = none := by cases hsweep <;> rfl

theorem Sweep.selects : call ≠ .lockRows := by cases hsweep <;> nofun

theorem Sweep.limit : call.limit = 100 := by cases hsweep <;> rfl

theorem Sweep.due_iff {now clock : Timestamp} {r : StepRow} :
    call.eligible now clock r = true ↔ Due clock r call := by
  cases hsweep with
  | recover => exact recoverEligible_iff
  | promote => exact promoteEligible_iff

theorem Sweep.resolves {start instant checkedAt : Timestamp} {r r' : StepRow}
    (h : Transition start instant checkedAt r r' call) :
    r'.leaseVersion = r.leaseVersion ∧ r'.status = resolved r call ∧ r'.status ≠ r.status := by
  cases h with
  | recover hrunning _ _ hcols =>
    refine ⟨by rw [hcols], by rw [hcols]; rfl, ?_⟩
    rw [hcols, hrunning]
    dsimp only
    split <;> simp
  | promote hwaiting _ hcols =>
    refine ⟨by rw [hcols], by rw [hcols]; rfl, ?_⟩
    rw [hcols, hwaiting]
    nofun
  | claim | renew | complete | fail => cases hsweep

/-- Two candidates of one kind of sweep in the same generation have come equally far. -/
theorem Sweep.progress_eq {start start' instant instant' checkedAt checkedAt' : Timestamp}
    {r r' s s' : StepRow} (h : Transition start instant checkedAt r r' call)
    (h' : Transition start' instant' checkedAt' s s' call)
    (hversion : r'.leaseVersion = s'.leaseVersion) : progress r = progress s := by
  have hr := (hsweep.resolves h).1
  have hs := (hsweep.resolves h').1
  unfold progress
  rw [← hr, ← hs, hversion]
  cases h with
  | recover hrunning =>
    cases h' with
    | recover hrunning' => rw [hrunning, hrunning']
  | promote hwaiting =>
    cases h' with
    | promote hwaiting' => rw [hwaiting, hwaiting']
  | claim | renew | complete | fail => cases hsweep

theorem Sweep.outcome_eq {c : Commit} (hcall : c.call = call) : returned c =
      c.decision.changes.map fun ch => (ch.after.id, ch.after.leaseVersion) := by
  unfold returned
  rw [Commit.outcome, hcall]
  cases hsweep <;> simp [Call.outcome, recoveredStep, promotedStep, Function.comp_def]

/-- A sweep writes one event for each generation it returns. -/
theorem Sweep.evented_eq {c : Commit} (hcall : c.call = call)
    (hwritten : c.call.events c.decision.changes = c.events.map EventRow.toNewEvent) :
    evented c = returned c := by
  have hnew : evented c = (c.events.map EventRow.toNewEvent).map
      fun e => (e.stepId, e.data.leaseVersion) := by
    rw [List.map_map]
    rfl
  rw [hnew, ← hwritten, hsweep.outcome_eq hcall, hcall]
  cases hsweep <;> simp [Call.events, Call.event, recoverEvent, promoteEvent]

/-- Sweeps of one kind never return the same generation. -/
theorem Sweep.disjoint {c c' : Commit} {steps steps' : StepsTable}
    (h : Performs steps c.call c.start c.decision) (h' : Performs steps' c'.call c'.start c'.decision)
    (hadvances : Advances c c') (hcall : c.call = call) (hcall' : c'.call = call) :
    (returned c).Disjoint (returned c') := by
  intro g hg hg'
  rw [hsweep.outcome_eq hcall] at hg
  rw [hsweep.outcome_eq hcall'] at hg'
  obtain ⟨ch, hch, rfl⟩ := List.mem_map.mp hg
  obtain ⟨ch', hch', hsame⟩ := List.mem_map.mp hg'
  obtain ⟨hid, hversion⟩ := Prod.mk.inj hsame
  have htransition := h.transition hch
  have htransition' := h'.transition hch'
  rw [hcall] at htransition
  rw [hcall'] at htransition'
  have hids : ch.before.id = ch'.before.id := by rw [← h.after_id ch hch, ← h'.after_id ch' hch', hid]
  have hlater := hadvances ch hch ch' hch' hids
  have hearlier := (progress_transition htransition).2 (hsweep.resolves htransition).2.2
  have hequal := hsweep.progress_eq htransition htransition' hversion.symm
  omega

theorem Sweep.returned_nodup {c : Commit} {steps : StepsTable}
    (h : Performs steps c.call c.start c.decision) (hcall : c.call = call) :
    (returned c).Nodup ∧ (returned c).length ≤ 100 := by
  rw [hsweep.outcome_eq hcall]
  constructor
  · have hids : (c.decision.changes.map fun ch => ch.after.id).Nodup := by
      rw [List.map_congr_left h.after_id]
      exact h.distinct
    refine List.Nodup.of_map Prod.fst ?_
    rwa [List.map_map]
  · have hbounded := h.bounded
    rw [hcall, hsweep.limit] at hbounded
    rwa [List.length_map]

end Call

theorem progress_of_live {cred : Credential} {clock : Timestamp} {r : StepRow}
    (h : holdsLiveLease cred clock r = true) : progress r = 3 * cred.leaseVersion.val := by
  obtain ⟨-, hrunning, -, hversion, -⟩ := holdsLiveLease_iff.mp h
  simp [progress, hrunning, hversion, stage]

/-- A completion or a failure report ends the run of its step. -/
theorem status_ne_of_owner_close {call : Call} {cred : Credential}
    {start instant checkedAt : Timestamp} {r r' : StepRow} (hcred : call.credential? = some cred)
    (hcloses : ∀ ms, call ≠ .renewStepLease cred ms)
    (h : Transition start instant checkedAt r r' call) : r'.status ≠ r.status := by
  have hrunning := (holdsLiveLease_iff.mp (live_of_owner_change hcred h)).2.1
  rw [hrunning]
  cases h with
  | claim | recover | promote => cases hcred
  | renew =>
    obtain rfl := Option.some.inj hcred
    exact absurd rfl (hcloses _)
  | complete hlive hcols =>
    rw [hcols]
    simp
  | fail hlive hcols =>
    rw [hcols]
    dsimp only
    split <;> simp

section Recovered
variable {c c' : Commit} {steps steps' : StepsTable} {cred : Credential}
  (h : Performs steps c.call c.start c.decision)
  (h' : Performs steps' c'.call c'.start c'.decision)
  (hcall : c.call = .recoverExpiredSteps) (hcred : c'.call.credential? = some cred)
  (hreturned : (cred.id, cred.leaseVersion) ∈ returned c)
include h h' hcall hcred hreturned

/-- A recovered generation and an owner write that was accepted for it. -/
theorem recovered_and_written {ch' : Change} (hch' : c'.change? cred.id = some ch') :
    ∃ ch ∈ c.decision.changes, ch' ∈ c'.decision.changes ∧ ch.before.id = ch'.before.id ∧
      progress ch.before = progress ch'.before ∧ progress ch.before < progress ch.after := by
  rw [Sweep.recover.outcome_eq hcall] at hreturned
  obtain ⟨ch, hch, hsame⟩ := List.mem_map.mp hreturned
  obtain ⟨hid, hversion⟩ := Prod.mk.inj hsame
  obtain ⟨hmem', hid'⟩ := Commit.change?_eq_some hch'
  have htransition := h.transition hch
  rw [hcall] at htransition
  have hlive := live_of_owner_change hcred (h'.transition hmem')
  refine ⟨ch, hch, hmem', by rw [← h.after_id ch hch, hid, hid'], ?_,
    (progress_transition htransition).2 (Sweep.recover.resolves htransition).2.2⟩
  rw [progress_of_live hlive]
  cases htransition with
  | recover hrunning _ _ hcols =>
    have hkept : ch.after.leaseVersion = ch.before.leaseVersion := by rw [hcols]
    simp [progress, hrunning, stage, ← hkept, hversion]

theorem rejected_after_recovery (hadvances : Advances c c') : isRejection c'.outcome = true := by
  by_contra haccepted
  have hsome := (change_isSome_iff_accepted h' hcred).mpr (by simpa using haccepted)
  obtain ⟨ch', hch'⟩ := Option.isSome_iff_exists.mp hsome
  obtain ⟨ch, hch, hmem', hids, hequal, hlt⟩ := recovered_and_written h h' hcall hcred hreturned hch'
  have hlater := hadvances ch hch ch' hmem' hids
  omega

/-- Nor was a generation closed by its owner before it was recovered. -/
theorem rejected_before_recovery (hadvances : Advances c' c)
    (hcloses : ∀ ms, c'.call ≠ .renewStepLease cred ms) : isRejection c'.outcome = true := by
  by_contra haccepted
  have hsome := (change_isSome_iff_accepted h' hcred).mpr (by simpa using haccepted)
  obtain ⟨ch', hch'⟩ := Option.isSome_iff_exists.mp hsome
  obtain ⟨ch, hch, hmem', hids, hequal, -⟩ := recovered_and_written h h' hcall hcred hreturned hch'
  have hearlier := hadvances ch' hmem' ch hch hids.symm
  have htransition := h'.transition hmem'
  have hlt := (progress_transition htransition).2 (status_ne_of_owner_close hcred hcloses htransition)
  omega

end Recovered

/-- The rows a sweep may resolve, listed once and in its order. -/
structure SweepQueue (v : World) (locked : StepId → Prop) (call : Call) (clock : Timestamp)
    (rows : List StepRow) : Prop where
  sorted : rows.Pairwise call.order
  distinct : (rows.map fun r => r.id).Nodup
  complete : ∀ r, r ∈ rows ↔ r ∈ v.steps.rows ∧ ¬ locked r.id ∧ Due clock r call

/-- A sweep committed these rows, each in the status its budget asks for. -/
structure Resolves (call : Call) (rows : List StepRow) (c : Commit) : Prop where
  kind : c.call = call
  before : c.decision.changes.map Change.before = rows
  returned : returned c = rows.map fun r => (r.id, r.leaseVersion)
  status : ∀ ch ∈ c.decision.changes, ch.after.status = resolved ch.before call

/-- No row becomes due, or stops being due, by this reading of the clock. -/
def NoneAppear (v : World) (call : Call) (clock : Timestamp) : Prop :=
  ∀ r ∈ v.steps.rows, Due clock r call ↔ Due v.clock r call

section Call
variable {call : Call} (hsweep : Sweep call)
include hsweep

theorem Sweep.resolves_of_updated {c : Commit} {rows : List StepRow} (hcall : c.call = call)
    (hbefore : c.decision.changes.map Change.before = rows)
    (hdue : ∀ r ∈ rows, ∃ clock, Due clock r call)
    (hupdated : ∀ ch ∈ c.decision.changes,
      call.update c.start c.decision.instant ch.before = .ok (some ch.after)) :
    Resolves call rows c := by
  have htransition : ∀ ch ∈ c.decision.changes, ∃ clock,
      Transition c.start c.decision.instant clock ch.before ch.after call := by
    intro ch hch
    obtain ⟨clock, hclock⟩ := hdue ch.before (hbefore ▸ List.mem_map_of_mem hch)
    have heligible : call.eligible c.start clock ch.before = true := hsweep.due_iff.mpr hclock
    exact ⟨clock, transition_of_update heligible (hupdated ch hch)⟩
  refine ⟨hcall, hbefore, ?_, fun ch hch => ?_⟩
  · rw [hsweep.outcome_eq hcall, ← hbefore, List.map_map]
    refine List.map_congr_left fun ch hch => ?_
    obtain ⟨clock, ht⟩ := htransition ch hch
    simp [(hsweep.resolves ht).1, Call.update_id (hupdated ch hch)]
  · obtain ⟨clock, ht⟩ := htransition ch hch
    exact (hsweep.resolves ht).2.1

theorem Sweep.updates (now clock : Timestamp) (rows : List (StepRow × Timestamp)) :
    ∃ changes, call.updateAll now clock rows = .ok changes := by
  induction rows with
  | nil => exact ⟨[], rfl⟩
  | cons p rows ih =>
    obtain ⟨changes, hchanges⟩ := ih
    have hrow : ∃ r', call.update now clock p.1 = .ok (some r') := by
      cases hsweep with
      | recover =>
        obtain ⟨r', hr'⟩ := recoverUpdate_ok now p.1
        exact ⟨r', by simp [Call.update, hr', Except.map]⟩
      | promote =>
        obtain ⟨r', hr'⟩ := promoteUpdate_ok now p.1
        exact ⟨r', by simp [Call.update, hr', Except.map]⟩
    obtain ⟨r', hr'⟩ := hrow
    exact ⟨⟨p.1, r', p.2⟩ :: changes, by simp [Call.updateAll, hr', hchanges]⟩

/-- An undisturbed sweep returns, with the first hundred free rows that are due. -/
theorem Sweep.undisturbed {v : World} {tx : TxId} {t : Tx} (ht : v.txs tx = some t)
    (hbegun : t.phase = .begun) (hcall : t.call = call) :
    (∃ v', CompletesAlone tx v v') ∧ ∀ (readings : Timestamp → Prop) (v' : World),
      readings v.clock → CommitsUndisturbed readings tx v v' → ∃ scannedAt rows,
        readings scannedAt ∧ SweepQueue v (fun id => v.heldByOther tx id = true) call scannedAt rows ∧
        ∃ c : Commit, v'.history = v.history ++ [c] ∧ Resolves call (rows.take 100) c ∧
          v'.steps = v.steps.setAll (c.decision.changes.map Change.after) := by
  have hcred : t.call.credential? = none := by rw [hcall]; exact hsweep.credential
  have hselects : t.call ≠ .lockRows := by rw [hcall]; exact hsweep.selects
  constructor
  · obtain ⟨changes, hupdate⟩ := hsweep.updates t.start v.clock ((v.takes tx t).map fun r => (r, v.clock))
    rw [← hcall] at hupdate
    exact (select_completes ht hbegun hcred hselects hupdate).1
  · intro readings v' hreading hcommits
    obtain ⟨-, scannedAt, d, hscan, -, hupdate, hcompleted⟩ :=
      committed_of_undisturbed hcred hselects ht hbegun hreading hcommits
    obtain ⟨c, hhistory, -, hcallc, hstart, hdecision, -, -⟩ := hcompleted.committed
    let rows := (({ v with clock := scannedAt } : World).candidates call t.start).filter
      fun r => !v.heldByOther tx r.id
    have hqueue : SweepQueue v (fun id => v.heldByOther tx id = true) call scannedAt rows := by
      refine ⟨(Relational.Table.selection_pairwise (t := v.steps)).filter _,
        (List.filter_sublist.map _).nodup (candidates_nodup _ _ _), fun r => ?_⟩
      rw [List.mem_filter, mem_candidates, hsweep.due_iff]
      simp [and_assoc, and_comm]
    have htakes : v.takesAt tx t scannedAt = rows.take 100 := by
      rw [World.takesAt, World.takes, hcall, hsweep.limit]
      rfl
    have hbefore : d.changes.map Change.before = rows.take 100 := by
      have hpairs := Call.updateAll_before hcred hselects hupdate
      rw [htakes] at hpairs
      simpa [Function.comp_def] using congrArg (List.map Prod.fst) hpairs
    refine ⟨scannedAt, rows, hscan, hqueue, c, hhistory, ?_, by rw [hdecision]; exact hcompleted.steps⟩
    refine hsweep.resolves_of_updated (hcallc.trans hcall) (by rw [hdecision, hbefore])
      (fun r hr => ⟨scannedAt, ((hqueue.complete r).mp (List.mem_of_mem_take hr)).2.2⟩) ?_
    rw [hdecision, hstart, ← hcall]
    exact Call.updateAll_updated hupdate

theorem Sweep.queued {v : World} (hbegun : ∀ id tx, v.holder id = some tx → tx < v.nextTx) :
    Queued call (NoneAppear v call) v (v.queue call v.clock) ∧
      SweepQueue v (fun id => v.holder id ≠ none) call v.clock (v.queue call v.clock) := by
  refine ⟨⟨fun _ _ => Iff.rfl, hbegun, fun now clock _ hclock => ?_⟩,
    (Relational.Table.selection_pairwise (t := v.steps)).filter _,
    (List.filter_sublist.map _).nodup (candidates_nodup _ _ _), fun r => ?_⟩
  · unfold World.queue World.candidates
    congr 2
    refine List.filter_congr fun r hr => ?_
    rw [Bool.eq_iff_iff, hsweep.due_iff, hsweep.due_iff]
    exact hclock r hr
  · rw [World.queue, List.mem_filter, mem_candidates, hsweep.due_iff]
    simp [and_assoc, and_comm]

end Call

theorem flatMap_batches {α : Type*} (rows : List α) (m k : ℕ) :
    (List.range k).flatMap (fun i => (rows.drop (i * m)).take m) = rows.take (k * m) := by
  induction k with
  | zero => simp
  | succ k ih =>
    rw [List.range_succ, List.flatMap_append, ih, List.flatMap_singleton, Nat.succ_mul, List.take_add]

theorem flatMap_eq_of_getElem? {α β : Type*} {cs : List α} {f : α → List β} {g : ℕ → List β}
    (h : ∀ i c, cs[i]? = some c → f c = g i) : cs.flatMap f = (List.range cs.length).flatMap g := by
  rw [List.flatMap_def, List.flatMap_def]
  congr 1
  refine List.ext_getElem? fun i => ?_
  rw [List.getElem?_map, List.getElem?_map]
  rcases lt_or_ge i cs.length with hlt | hge
  · rw [List.getElem?_eq_getElem hlt, List.getElem?_range hlt, Option.map_some, Option.map_some,
      h i _ (List.getElem?_eq_getElem hlt)]
  · rw [List.getElem?_eq_none hge, List.getElem?_eq_none (by simpa using hge)]
    rfl

/-- The sweeps that resolve a queue in batches of a hundred. -/
structure Drains (call : Call) (rows : List StepRow) (cs : List Commit) : Prop where
  batch : ∀ i c, cs[i]? = some c → Resolves call ((rows.drop (i * 100)).take 100) c
  all : (rows.length + 99) / 100 ≤ cs.length →
    (cs.take ((rows.length + 99) / 100)).flatMap returned = rows.map fun r => (r.id, r.leaseVersion)
  rest : ∀ i c, cs[i]? = some c → (rows.length + 99) / 100 ≤ i → returned c = []

theorem drains_of_batches {call : Call} {rows : List StepRow} {cs : List Commit}
    (h : ∀ i c, cs[i]? = some c → Resolves call ((rows.drop (i * 100)).take 100) c) :
    Drains call rows cs where
  batch := h
  all henough := by
    have hreturned : ∀ i c, (cs.take ((rows.length + 99) / 100))[i]? = some c → returned c =
        ((rows.map fun r => (r.id, r.leaseVersion)).drop (i * 100)).take 100 := by
      intro i c hc
      rw [List.getElem?_take] at hc
      split at hc
      · rw [(h i c hc).returned, List.map_take, List.map_drop]
      · cases hc
    rw [flatMap_eq_of_getElem? hreturned, flatMap_batches, List.length_take, min_eq_left henough,
      List.take_of_length_le (by rw [List.length_map]; omega)]
  rest i c hc hge := by
    rw [(h i c hc).returned, List.drop_eq_nil_of_le (by omega)]
    rfl

/-- Under any interleaving no generation is resolved by two sweeps of a kind, nor
recovered and closed by its owner, nor renewed after it was recovered. A sweep on
its own takes the first hundred free rows, and sweeps one after another drain them. -/
theorem sweeps_divide_the_work {w₀ w : World} (h₀ : w₀.Initial) (h : Reaches step w₀ w) :
    (∀ call, Sweep call →
      (∀ c ∈ w.history, c.call = call →
        (returned c).Nodup ∧ evented c = returned c ∧ (returned c).length ≤ 100) ∧
      w.history.Pairwise fun c c' => c.call = call → c'.call = call →
        (returned c).Disjoint (returned c')) ∧
    (∀ earlier c later, w.history = earlier ++ c :: later → c.call = .recoverExpiredSteps →
      ∀ cred, (cred.id, cred.leaseVersion) ∈ returned c →
        (∀ c' ∈ w.history, ∀ result error retryable, c'.call = .completeStepSuccess cred result ∨
          c'.call = .recordStepFailure cred error retryable → isRejection c'.outcome = true) ∧
        ∀ c' ∈ later, ∀ ms, c'.call = .renewStepLease cred ms → isRejection c'.outcome = true) ∧
    (∀ call, Sweep call → ∀ (v : World) (tx : TxId) (t : Tx), v.txs tx = some t →
      t.phase = .begun → t.call = call →
      (∃ v', CompletesAlone tx v v') ∧ ∀ (readings : Timestamp → Prop) (v' : World),
        readings v.clock → CommitsUndisturbed readings tx v v' → ∃ scannedAt rows,
          readings scannedAt ∧ SweepQueue v (fun id => v.heldByOther tx id = true) call scannedAt rows ∧
          ∃ c : Commit, v'.history = v.history ++ [c] ∧ Resolves call (rows.take 100) c ∧
            v'.steps = v.steps.setAll (c.decision.changes.map Change.after)) ∧
    ∀ call, Sweep call → ∀ v : World, (∀ id tx, v.holder id = some tx → tx < v.nextTx) →
      ∃ rows, SweepQueue v (fun id => v.holder id ≠ none) call v.clock rows ∧
        ∀ v' n, OneByOne call (NoneAppear v call) v v' n →
          ∃ cs : List Commit, v'.history = v.history ++ cs ∧ cs.length = n ∧ Drains call rows cs := by
  have hserial := serial_of_reaches h₀ h
  obtain ⟨hadvances, -⟩ := hserial.advances
  refine ⟨fun call hsweep => ⟨fun c hc hcall => ?_, ?_⟩, ?_,
    fun call hsweep v tx t ht hbegun hcall => hsweep.undisturbed ht hbegun hcall,
    fun call hsweep v hbegun => ?_⟩
  · obtain ⟨⟨steps, hperforms⟩, hwritten⟩ := hserial.performs c hc
    obtain ⟨hnodup, hbounded⟩ := hsweep.returned_nodup hperforms hcall
    exact ⟨hnodup, hsweep.evented_eq hcall hwritten, hbounded⟩
  · refine hadvances.imp_of_mem fun {c c'} hc hc' hadvance hcall hcall' => ?_
    obtain ⟨⟨steps, hperforms⟩, -⟩ := hserial.performs c hc
    obtain ⟨⟨steps', hperforms'⟩, -⟩ := hserial.performs c' hc'
    exact hsweep.disjoint hperforms hperforms' hadvance hcall hcall'
  · intro earlier c later hsplit hcall cred hreturned
    have hc : c ∈ w.history := by simp [hsplit]
    obtain ⟨⟨steps, hperforms⟩, -⟩ := hserial.performs c hc
    rw [hsplit] at hadvances
    obtain ⟨-, hafter, hbefore⟩ := List.pairwise_append.mp hadvances
    have hlater := (List.pairwise_cons.mp hafter).1
    refine ⟨fun c' hc' result error retryable hcloses => ?_, fun c' hc' ms hrenews => ?_⟩
    · have hcred : c'.call.credential? = some cred := by
        rcases hcloses with hcloses | hcloses <;> rw [hcloses] <;> rfl
      have hnot : ∀ ms, c'.call ≠ .renewStepLease cred ms := by
        rcases hcloses with hcloses | hcloses <;> rw [hcloses] <;> nofun
      obtain ⟨⟨steps', hperforms'⟩, -⟩ := hserial.performs c' hc'
      rw [hsplit, List.mem_append, List.mem_cons] at hc'
      rcases hc' with hc' | rfl | hc'
      · exact rejected_before_recovery hperforms hperforms' hcall hcred hreturned
          (hbefore c' hc' c List.mem_cons_self) hnot
      · rw [hcall] at hcred
        cases hcred
      · exact rejected_after_recovery hperforms hperforms' hcall hcred hreturned (hlater c' hc')
    · have hcred : c'.call.credential? = some cred := by rw [hrenews]; rfl
      obtain ⟨⟨steps', hperforms'⟩, -⟩ := hserial.performs c' (by simp [hsplit, hc'])
      exact rejected_after_recovery hperforms hperforms' hcall hcred hreturned (hlater c' hc')
  · obtain ⟨hqueued, hqueue⟩ := hsweep.queued hbegun
    refine ⟨_, hqueue, fun v' n hrun => ?_⟩
    obtain ⟨-, cs, hhistory, hlength, htakes⟩ := hrun.queued hqueued
    refine ⟨cs, hhistory, hlength, drains_of_batches fun i c hc => ?_⟩
    have htaken := htakes i c hc
    rw [hsweep.limit] at htaken
    have hcall : c.call = call := by
      have hkind := htaken.call
      generalize c.call = called at hkind
      cases hsweep <;> cases hkind <;> rfl
    refine hsweep.resolves_of_updated hcall htaken.before (fun r hr => ⟨v.clock, ?_⟩)
      (hcall ▸ htaken.updated)
    exact ((hqueue.complete r).mp (List.mem_of_mem_drop (List.mem_of_mem_take hr))).2.2

/-- Three leases have run out, and step 3 is locked. -/
def threeExpired : List Action :=
  callAlone 0 (.claimNextStep "gone" 1) 6 ++ callAlone 1 (.claimNextStep "gone" 1) 6 ++
    callAlone 2 (.claimNextStep "gone" 1) 6 ++ [.tick 2000, .start .lockRows, .lockRow 3 3]

/-- Two sweeps at once. The second one finds step 1 locked, the first one step 2. An owner comes
too late. -/
def twoSweeps : List Action :=
  [.start .recoverExpiredSteps, .start .recoverExpiredSteps, .run 4, .run 4, .run 5, .run 5, .run 5,
    .run 5] ++ List.replicate 6 (.run 4) ++ [.commit 4] ++ List.replicate 4 (.run 5) ++ [.commit 5] ++
    callAlone 6 (.renewStepLease ⟨1, "gone", ⟨1, Int4.inRange_one⟩⟩ 5) 3

/-- The sweeps take one step each, after which its generation is not renewed; one after another
they drain what is not locked. -/
theorem sweeps_divide_the_work_stale_renewal :
    (∃ (w : World) (earlier : List Commit) (c₄ c₅ c₆ : Commit),
      run step (.opening (insertedSteps [1, 2, 3] (by decide) 0) 0) (threeExpired ++ twoSweeps) =
        some w ∧ w.history = earlier ++ [c₄, c₅, c₆] ∧
      returned c₄ = [(1, ⟨1, Int4.inRange_one⟩)] ∧ returned c₅ = [(2, ⟨1, Int4.inRange_one⟩)] ∧
      (returned c₄).Disjoint (returned c₅) ∧
      c₆.call = .renewStepLease ⟨1, "gone", ⟨1, Int4.inRange_one⟩⟩ 5 ∧
      isRejection c₆.outcome = true) ∧
    ∃ (v v' : World) (rows : List StepRow) (cs : List Commit),
      run step (.opening (insertedSteps [1, 2, 3] (by decide) 0) 0) threeExpired = some v ∧
      v.holder 3 = some 3 ∧
      SweepQueue v (fun id => v.holder id ≠ none) .recoverExpiredSteps v.clock rows ∧
      OneByOne .recoverExpiredSteps (NoneAppear v .recoverExpiredSteps) v v' 2 ∧
      v'.history = v.history ++ cs ∧ cs.length = 2 ∧ Drains .recoverExpiredSteps rows cs ∧
      v'.history.map returned = [[], [], [],
        [(1, ⟨1, Int4.inRange_one⟩), (2, ⟨1, Int4.inRange_one⟩)], []] := by
  have h₀ : (World.opening (insertedSteps [1, 2, 3] (by decide) 0) 0).Initial :=
    World.initial_opening _ _
  constructor
  · have hruns : (run step (.opening (insertedSteps [1, 2, 3] (by decide) 0) 0)
        (threeExpired ++ twoSweeps)).any (fun w =>
          (w.history.drop 3).map (fun c => (c.call, returned c)) = [
            (.recoverExpiredSteps, [(1, ⟨1, Int4.inRange_one⟩)]),
            (.recoverExpiredSteps, [(2, ⟨1, Int4.inRange_one⟩)]),
            (.renewStepLease ⟨1, "gone", ⟨1, Int4.inRange_one⟩⟩ 5, [])]) = true := by
      decide +kernel
    obtain ⟨w, hw, hend⟩ := (Option.any_eq_true _ _).mp hruns
    have hcommits := of_decide_eq_true hend
    simp only [List.map_eq_cons_iff, List.map_eq_nil_iff, Prod.mk.injEq] at hcommits
    obtain ⟨c₄, _, hdrop, ⟨hcall₄, hreturned₄⟩, c₅, _, rfl, ⟨hcall₅, hreturned₅⟩, c₆, _, rfl,
      ⟨hcall₆, -⟩, rfl⟩ := hcommits
    have hhistory : w.history = w.history.take 3 ++ [c₄, c₅, c₆] := by
      rw [← hdrop, List.take_append_drop]
    obtain ⟨hdivided, howner, -⟩ := sweeps_divide_the_work h₀ ⟨_, hw⟩
    obtain ⟨-, hapart⟩ := hdivided _ .recover
    rw [hhistory] at hapart
    have hdisjoint := (List.pairwise_cons.mp (List.pairwise_append.mp hapart).2.1).1 c₅ (by simp)
      hcall₄ hcall₅
    obtain ⟨-, hrejected⟩ := howner (w.history.take 3) c₄ [c₅, c₆] hhistory hcall₄
      ⟨1, "gone", ⟨1, Int4.inRange_one⟩⟩ (by simp [hreturned₄])
    exact ⟨w, w.history.take 3, c₄, c₅, c₆, hw, hhistory, hreturned₄, hreturned₅, hdisjoint, hcall₆,
      hrejected c₆ (by simp) 5 hcall₆⟩
  · have hruns : (run step (.opening (insertedSteps [1, 2, 3] (by decide) 0) 0) threeExpired).any
        (fun v => v.holder 3 = some 3 ∧ v.nextTx = 4 ∧
          (run step v (callAlone 4 .recoverExpiredSteps 9)).any fun v₁ => v₁.nextTx = 5 ∧
            (run step v₁ (callAlone 5 .recoverExpiredSteps 5)).any fun v₂ =>
              v₂.history.map returned = [[], [], [],
                [(1, ⟨1, Int4.inRange_one⟩), (2, ⟨1, Int4.inRange_one⟩)], []]) = true := by
      decide +kernel
    obtain ⟨v, hv, hend⟩ := (Option.any_eq_true _ _).mp hruns
    obtain ⟨hlocked, hnext, hend⟩ := of_decide_eq_true hend
    obtain ⟨v₁, hv₁, hend⟩ := (Option.any_eq_true _ _).mp hend
    obtain ⟨hnext₁, hend⟩ := of_decide_eq_true hend
    obtain ⟨v₂, hv₂, hend⟩ := (Option.any_eq_true _ _).mp hend
    rw [← hnext] at hv₁
    rw [← hnext₁] at hv₂
    have hstart : OneByOne .recoverExpiredSteps (NoneAppear v .recoverExpiredSteps) v v 0 := .start
    have hdrained := (hstart.callAlone .recover (by decide) hv₁).callAlone .recover (by decide) hv₂
    obtain ⟨-, -, -, hqueue⟩ := sweeps_divide_the_work h₀ ⟨_, hv⟩
    obtain ⟨rows, hrows, hdrains⟩ := hqueue _ .recover v (begun_of_reaches h₀ ⟨_, hv⟩)
    obtain ⟨cs, hhistory, hlength, hcs⟩ := hdrains v₂ 2 hdrained
    exact ⟨v, v₂, rows, cs, hv, hlocked, hrows, hdrained, hhistory, hlength, hcs,
      of_decide_eq_true hend⟩

end DurableRunner.Guarantees
