import DurableRunner.Sessions.Claimers

/-! # Claimers share the work

A claimer that finds nothing has met, for every row of its snapshot, another
claimer's lock or claim. Every such lock ends in a claim, so nothing is left.
-/
namespace DurableRunner.Guarantees
open Schema Operations Sessions TransitionSystem

def isStart : Action → Bool
  | .start _ => true
  | _ => false

def claimedSteps (w : World) : List ClaimedStep := w.history.filterMap Commit.claimed?

def claimable (w₀ : World) : List StepRow := w₀.steps.rows.filter fun r => claimEligible w₀.clock r

/-- The claim returned one of those rows, and it runs as the claim reported. -/
def HandedOver (w₀ w : World) (c : Commit) (s : ClaimedStep) : Prop :=
  c.claimed? = some s ∧ (∃ r₀ ∈ claimable w₀, r₀.id = s.id) ∧ ∃ r, w.steps.find? s.id = some r ∧
    r.status = .running ∧ r.currentWorkerId = s.workerId ∧ r.leaseVersion = s.leaseVersion ∧
    ∀ workerId ms, c.call = .claimNextStep workerId ms → s.workerId = some workerId

/-- When the claim came to a row of its snapshot, another claimer held it or had claimed it. -/
def SearchedInVain (w₀ : World) (as : List Action) (tx : TxId) : Prop :=
  ∃ pre v t, pre ++ [.run tx] <+: as ∧ run step w₀ pre = some v ∧ v.txs tx = some t ∧
    t.phase = .begun ∧ ∀ r ∈ v.candidates t.call t.start, Visited w₀ as tx r

structure Registered (w₀ : World) (as : List Action) (w : World) : Prop where
  started : w.nextTx = w₀.nextTx + as.countP isStart
  live : ∀ tx, w₀.nextTx ≤ tx → tx < w.nextTx → (w.txs tx).isSome ∨ ∃ c ∈ w.history, c.tx = tx
  numbers : ∀ c ∈ w.history, w₀.nextTx ≤ c.tx
  txs : ∀ tx t, w.txs tx = some t → w₀.nextTx ≤ tx

theorem Registered.step {w₀ w w' : World} {as : List Action} {a : Action} (h : Registered w₀ as w)
    (ha : Contends w₀ a) (hstep : Sessions.step w a = some w') : Registered w₀ (as ++ [a]) w' := by
  cases step_cases hstep with
  | tick clock => exact ⟨by simpa [isStart] using h.started, h.live, h.numbers, h.txs⟩
  | start call hadmissible =>
    have hnext : (w.begin call).nextTx = w.nextTx + 1 := rfl
    refine ⟨?_, fun tx hge hlt => ?_, h.numbers, fun tx t ht => ?_⟩
    · rw [hnext, h.started, List.countP_append]
      rfl
    · by_cases hlast : tx = w.nextTx
      · exact .inl (by simp [World.begin, World.setTx, hlast])
      · rw [hnext] at hlt
        have hlive := h.live tx hge (lt_of_le_of_ne (Nat.lt_succ_iff.mp hlt) hlast)
        simpa [World.begin, World.setTx, Function.update_of_ne hlast] using hlive
    · rcases begin_txs_cases ht with ⟨rfl, -⟩ | ⟨-, ht⟩
      · rw [h.started]
        exact Nat.le_add_right _ _
      · exact h.txs tx t ht
  | @run tx t m ht hmove =>
    refine ⟨?_, fun other hge hlt => ?_, fun c hc => ?_, fun other t' ht' => ?_⟩
    · simpa [isStart] using h.started
    · rw [apply_txs_isSome ht, apply_history]
      exact h.live other hge (by simpa using hlt)
    · exact h.numbers c (by simpa using hc)
    · rcases apply_txs_cases ht' with ⟨rfl, -⟩ | ⟨-, ht'⟩
      · exact h.txs _ t ht
      · exact h.txs other t' ht'
  | @commit tx t d inserted ht hphase =>
    refine ⟨?_, fun other hge hlt => ?_, fun c hc => ?_, fun other t' ht' =>
      h.txs other t' (finish_txs_cases ht').2⟩
    · have hnext : (w.publish tx t d inserted).nextTx = w.nextTx := rfl
      simpa [hnext, isStart] using h.started
    · by_cases hother : other = tx
      · exact .inr ⟨_, List.mem_append_right _ (List.mem_singleton_self _), hother.symm⟩
      · rcases h.live other hge hlt with hlive | ⟨c, hc, htx⟩
        · exact .inl (by rwa [← finish_txs_of_ne w tx hother] at hlive)
        · exact .inr ⟨c, List.mem_append_left _ hc, htx⟩
    · rcases List.mem_append.mp hc with hc | hc
      · exact h.numbers c hc
      · obtain rfl := List.mem_singleton.mp hc
        exact h.txs tx t ht
  | lockRow | fault | rollback => cases ha

theorem registered_of_run {w₀ w : World} {as : List Action} (h₀ : w₀.Initial)
    (hclaims : ∀ a ∈ as, Contends w₀ a) (hrun : run step w₀ as = some w) : Registered w₀ as w := by
  induction as using List.reverseRecOn generalizing w with
  | nil =>
    obtain rfl := Option.some.inj hrun
    exact ⟨rfl, fun tx hge hlt => absurd hlt (not_lt.mpr hge), by simp [h₀.noHistory],
      fun tx t ht => by simp [h₀.noTx] at ht⟩
  | append_singleton as a ih =>
    obtain ⟨v, hv, hstep⟩ := (run_concat_eq_some _).mp hrun
    exact (ih (fun a ha => hclaims a (List.mem_append_left _ ha)) hv).step (hclaims a (by simp)) hstep

section Run
variable {w₀ w : World} {as : List Action} (h₀ : w₀.Initial) (hclaims : ∀ a ∈ as, Contends w₀ a)
  (hrun : run step w₀ as = some w)
include h₀ hclaims hrun

theorem history_length (hended : ∀ tx, w.txs tx = none) : w.history.length = as.countP isStart := by
  have hregistered := registered_of_run h₀ hclaims hrun
  have hnumbered := Numbered.reaches h₀ ⟨as, hrun⟩
  have hperm : (w.history.map Commit.tx).Perm (List.range' w₀.nextTx (as.countP isStart)) := by
    refine (List.perm_ext_iff_of_nodup hnumbered.once List.nodup_range').mpr fun tx => ?_
    rw [List.mem_range'_1, ← hregistered.started, List.mem_map]
    constructor
    · rintro ⟨c, hc, rfl⟩
      exact ⟨hregistered.numbers c hc, hnumbered.past c hc⟩
    · rintro ⟨hge, hlt⟩
      rcases hregistered.live tx hge hlt with hlive | hcommitted
      · rw [hended] at hlive
        cases hlive
      · exact hcommitted
  simpa using hperm.length_eq

theorem handedOver_of_claimed {c : Commit} (hc : c ∈ w.history) {s : ClaimedStep}
    (hs : c.claimed? = some s) : HandedOver w₀ w c s ∧ c.written = [s.id] := by
  obtain ⟨workerId, ms, ch, rest, hcall, hchanges, rfl⟩ := Commit.claimed?_eq_some.mp hs
  have hch : ch ∈ c.decision.changes := by rw [hchanges]; exact List.mem_cons_self
  obtain ⟨hfirst, heligible, hafter, hrunning⟩ :=
    (claimers_of_run h₀ hclaims hrun).contested.handed c hc ch hch
  have hid : ch.after.id = ch.before.id := id_of_find? hafter
  obtain ⟨⟨steps, hperforms⟩, -⟩ := (serial_of_reaches h₀ ⟨as, hrun⟩).performs c hc
  have htransition := hperforms.transition hch
  refine ⟨⟨hs, ⟨ch.before, ?_, hid.symm⟩, ch.after, ?_, hrunning, rfl, rfl, ?_⟩, ?_⟩
  · exact List.mem_filter.mpr ⟨Relational.Table.mem_of_find? hfirst, heligible⟩
  · exact (congrArg _ hid).trans hafter
  · intro workerId' ms' hcall'
    rw [hcall'] at htransition
    cases htransition with
    | claim _ _ _ _ _ hcols =>
      show ch.after.currentWorkerId = _
      rw [hcols]
  · have hbounded := hperforms.bounded
    rw [hcall, hchanges, List.length_cons] at hbounded
    have hrest : rest = [] := List.length_eq_zero_iff.mp (Nat.le_zero.mp (Nat.le_of_succ_le_succ hbounded))
    rw [Commit.written, hchanges, hrest, List.map_singleton, ← hid]
    rfl

/-- A claim that returned no step changed no row. -/
theorem changes_of_not_claimed {c : Commit} (hc : c ∈ w.history) (hnone : c.claimed? = none) :
    c.outcome = .notClaimed ∧ c.decision.changes = [] := by
  obtain ⟨workerId, ms, hcall⟩ := (claimers_of_run h₀ hclaims hrun).contested.commits c hc
  cases hchanges : c.decision.changes with
  | nil => exact ⟨by rw [Commit.outcome, hcall, hchanges]; rfl, rfl⟩
  | cons ch rest =>
    rw [Commit.claimed?_eq_some.mpr ⟨workerId, ms, ch, rest, hcall, hchanges, rfl⟩] at hnone
    cases hnone

theorem taken_iff {id : StepId} : Taken w id ↔ id ∈ (claimedSteps w).map ClaimedStep.id := by
  rw [List.mem_map]
  constructor
  · rintro ⟨c, hc, hwritten⟩
    cases hs : c.claimed? with
    | none =>
      rw [Commit.written, (changes_of_not_claimed h₀ hclaims hrun hc hs).2] at hwritten
      cases hwritten
    | some s =>
      rw [(handedOver_of_claimed h₀ hclaims hrun hc hs).2, List.mem_singleton] at hwritten
      exact ⟨s, List.mem_filterMap.mpr ⟨c, hc, hs⟩, hwritten.symm⟩
  · rintro ⟨s, hs, rfl⟩
    obtain ⟨c, hc, hs⟩ := List.mem_filterMap.mp hs
    refine ⟨c, hc, ?_⟩
    rw [(handedOver_of_claimed h₀ hclaims hrun hc hs).2]
    exact List.mem_singleton_self _

/-- No step is returned twice. -/
theorem claimedSteps_nodup : ((claimedSteps w).map ClaimedStep.id).Nodup := by
  have hapart : w.history.Pairwise fun c c' => ∀ s, c.claimed? = some s → ∀ s', c'.claimed? = some s' →
      s.id ≠ s'.id := by
    refine (claimers_of_run h₀ hclaims hrun).contested.once.imp_of_mem
      fun {c c'} hc hc' honce s hs s' hs' hid => ?_
    refine honce s.id ?_ ?_
    · rw [(handedOver_of_claimed h₀ hclaims hrun hc hs).2]
      exact List.mem_singleton_self _
    · rw [(handedOver_of_claimed h₀ hclaims hrun hc' hs').2, hid]
      exact List.mem_singleton_self _
  exact List.pairwise_map.mpr (hapart.filterMap _ fun c c' h s hs s' hs' => h s hs s' hs')

/-- When all claimers are done, a search in vain leaves nothing unclaimed. -/
theorem all_taken_of_searched (hended : ∀ tx, w.txs tx = none) {tx : TxId}
    (hsearched : Searched w₀ as tx []) : ∀ r ∈ claimable w₀, Taken w r.id := by
  intro r hr
  obtain ⟨hrow, heligible⟩ := List.mem_filter.mp hr
  have hfirst := Relational.Table.mem_iff_find?.mp hrow
  obtain ⟨pre, v, t, hpre, hv, ht, -, hvisited⟩ := hsearched
  have hkeep : ∀ pre u, pre <+: as → run step w₀ pre = some u → Secured u r.id → Taken w r.id := by
    rintro pre u ⟨post, rfl⟩ hu hsecured
    obtain ⟨u', hu', hpost⟩ := (run_append_eq_some _).mp hrun
    obtain rfl := Option.some.inj (hu.symm.trans hu')
    exact taken_of_secured h₀ hclaims hu hpost hended hsecured
  have hclaimers : ∀ pre u, pre <+: as → run step w₀ pre = some u → Claimers w₀ pre u := by
    rintro pre u ⟨post, rfl⟩ hu
    exact claimers_of_run h₀ (fun a ha => hclaims a (List.mem_append_left _ ha)) hu
  have hprefix : pre <+: as := (List.prefix_append pre _).trans hpre
  by_cases htaken : Taken v r.id
  · exact hkeep pre v hprefix hv (.inl htaken)
  · have hcontested := (hclaimers pre v hprefix hv).contested
    obtain ⟨⟨workerId, ms, hcall⟩, hstart⟩ := hcontested.claims tx t ht
    have hcandidate : r ∈ v.candidates t.call t.start := by
      refine mem_candidates.mpr ⟨Relational.Table.mem_iff_find?.mpr ?_, ?_⟩
      · exact (hcontested.kept r.id htaken).trans hfirst
      · rw [hcall]
        exact (claimEligible_of_sameAvailability hstart hfirst).trans heligible
    rcases hvisited r hcandidate with hnone | ⟨pre', u, t', hpre', hu, -, -, hmet⟩
    · cases hnone
    · refine hkeep pre' u hpre' hu ?_
      rcases hmet with ⟨other, -, hheld⟩ | ⟨c, hc, -, hwritten⟩
      · have hlive := (Numbered.reaches h₀ ⟨pre', hu⟩).holders _ _ hheld
        obtain ⟨t'', ht''⟩ := Option.isSome_iff_exists.mp hlive
        rcases (hclaimers pre' u hpre' hu).locks _ _ _ hheld ht'' with hpromise | htaken'
        · exact .inr ⟨other, t'', ht'', hpromise⟩
        · exact .inl htaken'
      · exact .inl ⟨c, hc, hwritten⟩

theorem claimedSteps_length (hended : ∀ tx, w.txs tx = none) :
    (claimedSteps w).length = min w.history.length (claimable w₀).length := by
  have hclaimers := claimers_of_run h₀ hclaims hrun
  have hnodup := claimedSteps_nodup h₀ hclaims hrun
  have hcalls : (claimedSteps w).length ≤ w.history.length := List.length_filterMap_le _ _
  have hsteps : (claimedSteps w).length ≤ (claimable w₀).length := by
    have hsubset : (claimedSteps w).map ClaimedStep.id ⊆ (claimable w₀).map fun r => r.id := by
      intro id hid
      obtain ⟨s, hs, rfl⟩ := List.mem_map.mp hid
      obtain ⟨c, hc, hs⟩ := List.mem_filterMap.mp hs
      obtain ⟨⟨-, ⟨r₀, hr₀, hid⟩, -⟩, -⟩ := handedOver_of_claimed h₀ hclaims hrun hc hs
      exact List.mem_map.mpr ⟨r₀, hr₀, hid⟩
    simpa using (List.subperm_of_subset hnodup hsubset).length_le
  by_cases hall : ∀ c ∈ w.history, c.claimed?.isSome
  · have hevery : (claimedSteps w).length = w.history.length :=
      List.filterMap_length_eq_length.mpr hall
    omega
  · obtain ⟨c, hnot⟩ := not_forall.mp hall
    obtain ⟨hc, hnone⟩ := Classical.not_imp.mp hnot
    have hnone : c.claimed? = none := by simpa using hnone
    have hsearched := hclaimers.searched c hc (changes_of_not_claimed h₀ hclaims hrun hc hnone).2
    have hsubset : (claimable w₀).map (fun r => r.id) ⊆ (claimedSteps w).map ClaimedStep.id := by
      intro id hid
      obtain ⟨r, hr, rfl⟩ := List.mem_map.mp hid
      exact (taken_iff h₀ hclaims hrun).mp
        (all_taken_of_searched h₀ hclaims hrun hended hsearched r hr)
    have hdistinct : ((claimable w₀).map fun r => r.id).Nodup :=
      (List.filter_sublist.map _).nodup w₀.steps.nodup_keys
    have hle := (List.subperm_of_subset hdistinct hsubset).length_le
    rw [List.length_map, List.length_map] at hle
    omega

end Run

/-- In every interleaving of claimers that all commit, as many claims return a step as
there are claimers or eligible steps, the steps are distinct and run as reported, the
other rows are as they were, and a claim in vain met another claimer at every row. -/
theorem claimers_share_the_work {w₀ w : World} {as : List Action} (h₀ : w₀.Initial)
    (hclaims : ∀ a ∈ as, Contends w₀ a) (hrun : run step w₀ as = some w)
    (hended : ∀ tx, w.txs tx = none) :
    w.history.length = as.countP isStart ∧
    (claimedSteps w).length = min (as.countP isStart) (claimable w₀).length ∧
    ((claimedSteps w).map ClaimedStep.id).Nodup ∧
    (∀ c ∈ w.history, (∃ s, HandedOver w₀ w c s) ∨
      (c.outcome = .notClaimed ∧ SearchedInVain w₀ as c.tx)) ∧
    ∀ r ∈ w₀.steps.rows, r.id ∉ (claimedSteps w).map ClaimedStep.id →
      w.steps.find? r.id = some r := by
  have hclaimers := claimers_of_run h₀ hclaims hrun
  have hlength := history_length h₀ hclaims hrun hended
  refine ⟨hlength, ?_, claimedSteps_nodup h₀ hclaims hrun, fun c hc => ?_, fun r hr hfree => ?_⟩
  · rw [claimedSteps_length h₀ hclaims hrun hended, hlength]
  · cases hs : c.claimed? with
    | some s => exact .inl ⟨s, (handedOver_of_claimed h₀ hclaims hrun hc hs).1⟩
    | none =>
      obtain ⟨houtcome, hnil⟩ := changes_of_not_claimed h₀ hclaims hrun hc hs
      obtain ⟨pre, v, t, hpre, hv, ht, hphase, hvisited⟩ := hclaimers.searched c hc hnil
      exact .inr ⟨houtcome, pre, v, t, hpre, hv, ht, hphase, fun r hr =>
        (hvisited r hr).resolve_left (List.not_mem_nil)⟩
  · rw [← taken_iff h₀ hclaims hrun] at hfree
    exact (hclaimers.contested.kept r.id hfree).trans (Relational.Table.mem_iff_find?.mp hr)

/-- Two claimers and one step: the second one skips the row that the first has locked. -/
def twoClaimers : List Action :=
  [.start (.claimNextStep "first" 30000), .start (.claimNextStep "second" 30000)] ++
    List.replicate 2 (.run 0) ++ List.replicate 5 (.run 1) ++ [.commit 1] ++
    List.replicate 4 (.run 0) ++ [.commit 0]

theorem claimers_share_the_work_two_for_one : ∃ w, run step .singleStep twoClaimers = some w ∧
    w.history.length = 2 ∧ (claimedSteps w).length = 1 := by
  have hruns : (run step .singleStep twoClaimers).any
      (fun w => w.nextTx = 2 ∧ (w.txs 0).isNone ∧ (w.txs 1).isNone) = true := by
    decide +kernel
  obtain ⟨w, hw, hend⟩ := (Option.any_eq_true _ _).mp hruns
  obtain ⟨hnext, hfirst, hsecond⟩ := of_decide_eq_true hend
  have hclaims : ∀ a ∈ twoClaimers, Contends .singleStep a := by
    intro a ha
    simp only [twoClaimers, List.mem_append, List.mem_cons, List.mem_replicate, List.not_mem_nil,
      or_false] at ha
    rcases ha with (((((rfl | rfl) | ⟨-, rfl⟩) | ⟨-, rfl⟩) | rfl) | ⟨-, rfl⟩) | rfl
    · exact ⟨_, _, rfl⟩
    · exact ⟨_, _, rfl⟩
    all_goals trivial
  have hended : ∀ tx, w.txs tx = none := by
    intro tx
    cases htx : w.txs tx with
    | none => rfl
    | some t =>
      have hlive := ((Numbered.reaches World.initial_singleStep ⟨_, hw⟩).live tx (by simp [htx])).1
      rw [hnext] at hlive
      rcases Nat.le_one_iff_eq_zero_or_eq_one.mp (Nat.le_of_lt_succ hlive) with rfl | rfl
      · simp [htx] at hfirst
      · simp [htx] at hsecond
  obtain ⟨hlength, hclaimed, -⟩ := claimers_share_the_work World.initial_singleStep hclaims hw hended
  exact ⟨w, hw, hlength, hclaimed⟩

end DurableRunner.Guarantees
