import DurableRunner.Abstract.AtomicCalls
import DurableRunner.Guarantees.Atomicity
import DurableRunner.Sessions.Conflicts

/-! # Linearizability of the lock-first transactions

Every interleaving has the effect and the answers of the committed calls run
one at a time, each at the clock reading of its UPDATE.
-/
namespace DurableRunner.Guarantees
open Schema Operations Sessions Abstract TransitionSystem

/-- A stored event without the ids that depend on the interleaving. -/
def content (e : EventRow) : EventContent := ⟨e.toNewEvent, e.createdAt⟩

def contents (w : World) : Contents := ⟨w.steps, ↑(w.events.map content)⟩

/-- A committed call, as one step at the instant of its UPDATE. -/
def atomicCall (c : Commit) : AtomicCall where
  tx := c.tx
  call := c.call
  start := c.start
  instant := c.decision.instant
  rows := c.written
  created := c.events.map fun e => e.createdAt
  outcome := c.outcome

/-- The atomic call is the committed one: the same arguments and answer, at an
instant between its first row lock and its COMMIT. -/
structure Realizes (op : AtomicCall) (c : Commit) : Prop where
  tx : op.tx = c.tx
  call : op.call = c.call
  start : op.start = c.start
  outcome : op.outcome = c.outcome
  started : c.start ≤ op.instant
  locked : ∀ l, c.lockedAt = some l → l ≤ op.instant
  committed : op.instant ≤ c.committedAt

/-- A total order of the committed calls that explains a run. -/
structure Linearizes (w₀ w : World) (order : List (AtomicCall × Commit)) : Prop where
  commits : (order.map Prod.snd).Perm w.history
  realizes : ∀ p ∈ order, Realizes p.1 p.2
  ordered : order.Pairwise fun p q => p.1.instant ≤ q.1.instant
  replay : run AtomicCall.step (contents w₀) (order.map Prod.fst) = some (contents w)

def recheck (instant : Timestamp) (c : Change) : Change := { c with checkedAt := instant }

theorem outcome_recheck (call : Call) (instant : Timestamp) (changes : List Change) :
    call.outcome instant (changes.map (recheck instant)) = call.outcome instant changes := by
  cases call with
  | completeStepSuccess | lockRows => simp [Call.outcome]
  | recoverExpiredSteps | promoteDueRetries =>
    simp only [Call.outcome, List.map_map]
    rfl
  | claimNextStep | renewStepLease | recordStepFailure => cases changes <;> rfl

theorem events_recheck (call : Call) (instant : Timestamp) (changes : List Change) :
    call.events (changes.map (recheck instant)) = call.events changes := by
  unfold Call.events
  rw [List.filterMap_map]
  rfl

theorem changes_of_credential {steps : StepsTable} {c : Commit} {cred : Credential}
    (h : Performs steps c.call c.start c.decision) (hcred : c.call.credential? = some cred) :
    (atomicCall c).changes steps =
      some (c.decision.changes.map (recheck c.decision.instant)) := by
  have htargets : (atomicCall c).targets = [cred.id] := by
    simp [AtomicCall.targets, atomicCall, hcred]
  have hid : ∀ ch ∈ c.decision.changes, ch.before.id = cred.id := by
    intro ch hch
    have heligible := h.eligible ch hch
    rw [Call.eligible_of_credential hcred] at heligible
    exact of_decide_eq_true heligible
  refine AtomicCall.changes_eq_some.mpr ?_
  rw [htargets]
  cases hfind : steps.find? cred.id with
  | none =>
    have hnil : c.decision.changes = [] := by
      refine List.eq_nil_iff_forall_not_mem.mpr fun ch hch => ?_
      have hcurrent := h.current ch hch
      rw [hid ch hch, hfind] at hcurrent
      cases hcurrent
    simp [hfind, hnil, Call.updateAll, atomicCall, Commit.written]
  | some r =>
    have hrows : [cred.id].filterMap steps.find? = [r] := by simp [hfind]
    rw [hrows]
    refine ⟨fun r' hr' => ?_, ?_⟩
    · obtain rfl := List.mem_singleton.mp hr'
      have hkey : StepRow.key r' = cred.id := Relational.Table.key_of_find? hfind
      exact (Call.eligible_of_credential hcred _ _ _).trans (decide_eq_true hkey)
    · rcases changes_of_limit_one h (Call.limit_of_credential hcred) with hnil | ⟨ch, hone⟩
      · have hrejected := h.rejected hnil cred hcred r hfind
        simp [hnil, Call.updateAll, atomicCall, Commit.written, hrejected]
      · have hch : ch ∈ c.decision.changes := by simp [hone]
        have hcurrent := h.current ch hch
        rw [hid ch hch, hfind] at hcurrent
        obtain rfl := Option.some.inj hcurrent
        have hupdated := h.updated ch hch
        simp [hone, Call.updateAll, atomicCall, Commit.written, hupdated, recheck]

/-- At its instant a claim or sweep changes exactly the rows it returned. -/
theorem changes_of_select {steps : StepsTable} {c : Commit}
    (h : Performs steps c.call c.start c.decision) (htimely : c.Timely)
    (hcred : c.call.credential? = none) :
    (atomicCall c).changes steps =
      some (c.decision.changes.map (recheck c.decision.instant)) := by
  have htargets : (atomicCall c).targets = c.written := by
    simp [AtomicCall.targets, atomicCall, hcred]
  have hrows : c.written.filterMap steps.find? = c.decision.changes.map fun ch => ch.before := by
    rw [Commit.written, List.filterMap_map, ← List.filterMap_eq_map]
    exact List.filterMap_congr h.current
  refine AtomicCall.changes_eq_some.mpr ?_
  rw [htargets, hrows]
  refine ⟨fun r hr => ?_, ?_, ?_⟩
  · obtain ⟨ch, hch, rfl⟩ := List.mem_map.mp hr
    exact Call.eligible_mono (h.eligible ch hch) (htimely.judged ch hch)
  · have hupdated : ∀ ch ∈ c.decision.changes.map (recheck c.decision.instant),
        c.call.update c.start c.decision.instant ch.before = .ok (some ch.after) := by
      intro ch hch
      obtain ⟨before, hbefore, rfl⟩ := List.mem_map.mp hch
      exact h.updated before hbefore
    have hall := Call.updateAll_of_updated hupdated
    rw [List.map_map] at hall ⊢
    exact hall
  · rw [List.map_map]
    rfl

theorem step_of_performs {steps : StepsTable} {events : List EventRow} {c : Commit}
    (h : Performs steps c.call c.start c.decision) (htimely : c.Timely)
    (hwritten : c.call.events c.decision.changes = c.events.map EventRow.toNewEvent) :
    AtomicCall.step ⟨steps, ↑(events.map content)⟩ (atomicCall c) =
      some ⟨steps.setAll (c.decision.changes.map Change.after),
        ↑((events ++ c.events).map content)⟩ := by
  have hchanges : (atomicCall c).changes steps =
      some (c.decision.changes.map (recheck c.decision.instant)) := by
    cases hcred : c.call.credential? with
    | none => exact changes_of_select h htimely hcred
    | some cred => exact changes_of_credential h hcred
  have hevents : (atomicCall c).call.events (c.decision.changes.map (recheck c.decision.instant)) =
      c.events.map EventRow.toNewEvent := (events_recheck _ _ _).trans hwritten
  refine AtomicCall.step_eq_some.mpr ⟨_, hchanges, ⟨h.distinct, ?_, ?_, ?_⟩, ?_⟩
  · rw [atomicCall, Commit.written, List.length_map]
    exact h.bounded
  · exact outcome_recheck _ _ _
  · rw [hevents, List.length_map]
    exact List.length_map _
  · rw [hevents, List.map_map]
    refine Contents.ext rfl ?_
    simp only [atomicCall, List.zipWith_map, List.zipWith_self, List.map_append,
      Multiset.coe_add]
    rfl

/-- The serial execution in commit order, with every call as one atomic step. -/
theorem replay_of_serial {steps₀ steps : StepsTable} {events₀ events : List EventRow}
    {history : List Commit} (h : Serial steps₀ events₀ history steps events)
    (htimely : ∀ c ∈ history, c.Timely) :
    run AtomicCall.step ⟨steps₀, ↑(events₀.map content)⟩ (history.map atomicCall) =
      some ⟨steps, ↑(events.map content)⟩ := by
  induction h with
  | nil => rfl
  | @snoc history steps events c serial performs written ih =>
    have hprefix := ih fun c' hc' => htimely c' (List.mem_append_left _ hc')
    have hlast := htimely c (List.mem_append_right _ (List.mem_singleton_self c))
    rw [List.map_append, List.map_singleton]
    exact (run_concat_eq_some _).mpr ⟨_, hprefix, step_of_performs performs hlast written⟩

theorem targets_subset_touched (c : Commit) :
    ∀ id ∈ (atomicCall c).targets ++ (atomicCall c).rows, id ∈ touched c.call c.decision := by
  intro id hid
  rcases List.mem_append.mp hid with htarget | hrow
  · cases hcred : c.call.credential? with
    | none =>
      simp only [AtomicCall.targets, atomicCall, hcred] at htarget
      exact List.mem_append_right _ htarget
    | some cred =>
      simp only [AtomicCall.targets, atomicCall, hcred, List.mem_singleton] at htarget
      simp [touched, hcred, htarget]
  · exact List.mem_append_right _ hrow

/-- Transactions that are apart can change places. -/
theorem swappable_of_commit_apart {c c' : Commit} (h : c.Apart c'.call c'.decision) :
    Swappable (fun s c => AtomicCall.step s (atomicCall c)) c c' := by
  have hapart : (atomicCall c).Apart (atomicCall c') :=
    ⟨fun id hid hmem => h.1 id hid (targets_subset_touched c' id hmem),
      fun id hid hmem => h.2 id hid (targets_subset_touched c id hmem)⟩
  exact AtomicCall.swappable_of_apart hapart

def Sooner (c c' : Commit) : Prop := c.decision.instant ≤ c'.decision.instant

instance : DecidableRel Sooner := fun c c' =>
  inferInstanceAs (Decidable (c.decision.instant ≤ c'.decision.instant))

instance : Std.Total Sooner := ⟨fun c c' => le_total c.decision.instant c'.decision.instant⟩

instance : IsTrans Commit Sooner := ⟨fun _ _ _ => le_trans⟩

theorem realizes_of_timely {c : Commit} (h : c.Timely) : Realizes (atomicCall c) c where
  tx := rfl
  call := rfl
  start := rfl
  outcome := rfl
  started := h.started
  locked l hl := (h.locked l hl).2
  committed := h.decided

/-- In every forward run the committed calls have a total order, with one clock
instant each between its first row lock and its COMMIT, in which running them
atomically gives the committed tables and the answers. `updated_at` is the
call's own transaction start; the time of an event lies between the instant and
the COMMIT of its call. -/
theorem lock_first_linearizable {w₀ w : World} {as : List Action} (h₀ : w₀.Initial)
    (hrun : run forwardStep w₀ as = some w) :
    ∃ order, Linearizes w₀ w order ∧
      ∀ p ∈ order, ∀ t ∈ p.1.created, p.1.instant ≤ t ∧ t ≤ p.2.committedAt := by
  have hreach : Reaches forwardStep w₀ w := ⟨as, hrun⟩
  have htimes := OnTime.reaches h₀ hreach
  have hserial := serial_of_reaches h₀ hreach.of_guarded
  have hreplay := replay_of_serial hserial fun c hc => (htimes.past c hc).1
  have hswap : w.history.Pairwise fun c c' =>
      Sooner c c' ∨ Swappable (fun s c => AtomicCall.step s (atomicCall c)) c c' :=
    (InstantOrder.reaches h₀ hreach).past.imp fun h => h.imp_right swappable_of_commit_apart
  have hperm := List.perm_insertionSort Sooner w.history
  have htimely : ∀ c ∈ w.history.insertionSort Sooner, c.Timely := fun c hc =>
    (htimes.past c (hperm.mem_iff.mp hc)).1
  refine ⟨(w.history.insertionSort Sooner).map fun c => (atomicCall c, c), ⟨?_, ?_, ?_, ?_⟩, ?_⟩
  · rw [List.map_map]
    exact (List.map_id _).symm ▸ hperm
  · intro p hp
    obtain ⟨c, hc, rfl⟩ := List.mem_map.mp hp
    exact realizes_of_timely (htimely c hc)
  · exact List.pairwise_map.mpr (List.pairwise_insertionSort Sooner w.history)
  · rw [List.map_map]
    have hsorted := run_insertionSort hswap ((run_map _ _ _ _).symm.trans hreplay)
    exact (run_map _ _ _ _).trans hsorted
  · intro p hp t ht
    obtain ⟨c, hc, rfl⟩ := List.mem_map.mp hp
    obtain ⟨e, he, rfl⟩ := List.mem_map.mp ht
    exact (htimely c hc).inserted e he

/-- Two claims in flight at once: the second decides first and commits last. -/
def overlappingClaims : List Action :=
  [.start (.claimNextStep "early" 30000), .start (.claimNextStep "late" 30000), .run 1, .run 1,
    .run 1, .run 1, .tick 1] ++ List.replicate 7 (.run 0) ++ [.commit 0, .tick 2, .run 1, .run 1,
    .commit 1]

theorem lock_first_linearizable_overlapping_claims :
    ∃ w, run forwardStep (.opening (insertedSteps [1, 2] (by decide) 0) 0) overlappingClaims = some w ∧
      (w.history.map fun c => (c.tx, c.decision.instant)) = [(0, 1), (1, 0)] ∧
      ∃ order, Linearizes (.opening (insertedSteps [1, 2] (by decide) 0) 0) w order ∧
        ∀ p ∈ order, ∀ t ∈ p.1.created, p.1.instant ≤ t ∧ t ≤ p.2.committedAt := by
  have hruns : (run forwardStep (.opening (insertedSteps [1, 2] (by decide) 0) 0)
      overlappingClaims).any
      (fun w => (w.history.map fun c => (c.tx, c.decision.instant)) = [(0, 1), (1, 0)]) = true := by
    decide +kernel
  obtain ⟨w, hw, hend⟩ := (Option.any_eq_true _ _).mp hruns
  exact ⟨w, hw, of_decide_eq_true hend,
    lock_first_linearizable (World.initial_opening _ 0) hw⟩

def reportedDeadline : Outcome → Option Timestamp
  | .claimed s => s.leaseExpiresAt
  | _ => none

theorem deadline_of_claim {s t : Contents} {op : AtomicCall} {workerId : WorkerId} {ms : ℤ}
    {deadline : Timestamp} (h : AtomicCall.step s op = some t)
    (hcall : op.call = .claimNextStep workerId ms)
    (hdeadline : reportedDeadline op.outcome = some deadline) :
    deadline = op.instant + 1000 * ms := by
  obtain ⟨changes, hchanges, ⟨-, -, hreport, -⟩, -⟩ := AtomicCall.step_eq_some.mp h
  obtain ⟨-, hupdate, -⟩ := AtomicCall.changes_eq_some.mp hchanges
  have hupdated := Call.updateAll_updated hupdate
  rw [← hreport, hcall] at hdeadline
  cases changes with
  | nil => cases hdeadline
  | cons c changes =>
    have hclaim := hupdated c List.mem_cons_self
    rw [hcall] at hclaim
    obtain ⟨_, he, hu⟩ := claimCandidate_eq_ok hclaim
    obtain rfl := Option.some.inj he
    obtain ⟨-, -, -, -, hcols⟩ := claimUpdate_eq_some hu
    have hafter : c.after.leaseExpiresAt = some deadline := hdeadline
    rw [hcols] at hafter
    exact (Option.some.inj hafter).symm

theorem createdAt_of_step {s t : Contents} {op : AtomicCall} (h : AtomicCall.step s op = some t)
    {e : EventContent} (he : e ∈ t.events) : e ∈ s.events ∨ e.createdAt ∈ op.created := by
  obtain ⟨changes, -, -, rfl⟩ := AtomicCall.step_eq_some.mp h
  rcases Multiset.mem_add.mp he with hold | hnew
  · exact .inl hold
  · rw [Multiset.mem_coe, ← List.map_uncurry_zip_eq_zipWith] at hnew
    obtain ⟨⟨event, time⟩, hpair, rfl⟩ := List.mem_map.mp hnew
    exact .inr (List.of_mem_zip hpair).2

/-- A claim that inserts its event one tick after its UPDATE. -/
def slowInsert : List Action :=
  .start (.claimNextStep "worker" 30000) ::
    (List.replicate 4 (.run 0) ++ [.tick 1, .run 0, .run 0, .commit 0])

/-- No instant explains both the deadline and the event time of that claim. -/
theorem event_time_is_not_the_instant :
    ∃ w, run forwardStep .singleStep slowInsert = some w ∧
      ¬ ∃ order, Linearizes .singleStep w order ∧
        ∀ p ∈ order, ∀ t ∈ p.1.created, t = p.1.instant := by
  have hruns : (run forwardStep .singleStep slowInsert).any (fun w =>
      (w.events.map fun e => e.createdAt) = [1] ∧
      (w.history.map fun c => (c.call, reportedDeadline c.outcome)) =
        [(.claimNextStep "worker" 30000, some 30000000)]) = true := by
    decide +kernel
  obtain ⟨w, hw, hend⟩ := (Option.any_eq_true _ _).mp hruns
  obtain ⟨hevents, hhistory⟩ := of_decide_eq_true hend
  refine ⟨w, hw, ?_⟩
  rintro ⟨order, hlinear, hcreated⟩
  obtain ⟨c, hc, hreport⟩ := List.map_eq_singleton_iff.mp hhistory
  obtain ⟨e, he, htime⟩ := List.map_eq_singleton_iff.mp hevents
  obtain ⟨hcall, hdeadline⟩ := Prod.mk.inj hreport
  have hcommits := hlinear.commits
  rw [hc] at hcommits
  obtain ⟨p, rfl, hp⟩ := List.map_eq_singleton_iff.mp (List.perm_singleton.mp hcommits)
  have hrealizes := hlinear.realizes p List.mem_cons_self
  have hstep : AtomicCall.step (contents .singleStep) p.1 = some (contents w) := by
    simpa [run_cons] using hlinear.replay
  -- The deadline forces the instant 0, the event table the time 1.
  have hinstant : p.1.instant = 0 := by
    have hforced : (30000000 : ℤ) = p.1.instant + 1000 * 30000 :=
      deadline_of_claim hstep (hrealizes.call.trans (hp ▸ hcall))
        ((congrArg reportedDeadline hrealizes.outcome).trans (hp ▸ hdeadline))
    exact (add_eq_right.mp hforced.symm)
  have hmem : content e ∈ (contents w).events := by simp [contents, he]
  have htimes := createdAt_of_step hstep hmem
  have hnone : (contents World.singleStep).events = 0 := rfl
  rw [hnone] at htimes
  have hsame := hcreated p List.mem_cons_self _ (htimes.resolve_left (Multiset.notMem_zero _))
  rw [hinstant] at hsame
  exact absurd (htime.symm.trans hsame) (by decide)

end DurableRunner.Guarantees
