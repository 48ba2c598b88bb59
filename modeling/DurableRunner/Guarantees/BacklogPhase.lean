import DurableRunner.Guarantees.ClaimContention

/-! # A backlog is claimed once

With nobody else at work, claimers that stop of their own accord leave no step
unclaimed, and each step is claimed once.
-/
namespace DurableRunner.Guarantees
open Schema Operations Benchmarks TransitionSystem Relational
open Sessions (World TxId Commit Numbered Issued IsClaim claimsOf)

/-- Nobody else calls, and no process is told to stop. -/
def LeftAlone : ContentionAction → Prop
  | .database (.start _) | .terminate _ => False
  | _ => True

def SawNone (phase : ClaimerPhase) : Prop := phase = .stopped ∨ phase = .probing (some false)

/-- What holds while only backlog claimers are at work. -/
structure Backlogged (w₀ : World) (s : Contention) : Prop where
  reaches : Reaches Sessions.step w₀ s.world
  claims : ∀ call, Issued s.world call → IsClaim call
  modes : ∀ c ∈ s.claimers, c.mode = .backlog ∧ c.stopping = false
  present : s.claimers ≠ []
  drained : ∀ c ∈ s.claimers, SawNone c.phase →
    ∀ r₀ ∈ w₀.steps.rows, claimsOf s.world.history r₀.id ≠ []

/-- A row that only claims have written. -/
def ClaimedAtMostOnce (r : StepRow) : Prop :=
  (r.status = .ready ∧ r.leaseVersion.val = 0) ∨ (r.status = .running ∧ r.leaseVersion.val = 1)

section Backlog
variable {w₀ : World} {s t : Contention}

theorem claimedAtMostOnce_of_transition {start instant checkedAt : Timestamp} {r r' : StepRow} {call : Call}
    (h : Transition start instant checkedAt r r' call) (hclaim : IsClaim call) (hr : ClaimedAtMostOnce r) :
    ClaimedAtMostOnce r' := by
  obtain ⟨workerId, ms, rfl⟩ := hclaim
  cases h with
  | claim hready _ _ hversion _ hcols =>
    rcases hr with ⟨-, hzero⟩ | ⟨hrunning, -⟩
    · exact .inr ⟨by rw [hcols], by omega⟩
    · rw [hready] at hrunning
      cases hrunning

theorem Backlogged.rows (h₀ : w₀.Initial) (hunclaimed : ∀ r ∈ w₀.steps.rows, r.Unclaimed)
    (h : Backlogged w₀ s) {r : StepRow} (hr : r ∈ s.world.steps.rows) : ClaimedAtMostOnce r := by
  have hserial := Sessions.serial_of_reaches h₀ h.reaches
  have hpreserved := hserial.preserved (P := ClaimedAtMostOnce)
    (fun id r hr => .inl ⟨(hunclaimed r (Table.mem_of_find? hr)).status,
      (hunclaimed r (Table.mem_of_find? hr)).leaseVersion⟩)
    (fun cm hcm ch hch hbefore => claimedAtMostOnce_of_transition (hserial.transition hcm hch)
      (h.claims _ (.inr ⟨cm, hcm, rfl⟩)) hbefore)
  exact hpreserved.1 r.id r (Table.mem_iff_find?.mp hr)

/-- Without a READY row every step has been claimed. -/
theorem Backlogged.claimed_of_none (h₀ : w₀.Initial) (hunclaimed : ∀ r ∈ w₀.steps.rows, r.Unclaimed)
    (h : Backlogged w₀ s) (hnone : ∀ r ∈ s.world.steps.rows, r.status ≠ .ready) {r₀ : StepRow}
    (hr₀ : r₀ ∈ w₀.steps.rows) : claimsOf s.world.history r₀.id ≠ [] := by
  have hserial := Sessions.serial_of_reaches h₀ h.reaches
  obtain ⟨r, hr, -⟩ := hserial.countedBy (Table.mem_iff_find?.mp hr₀)
  have hid : r.id = r₀.id := id_of_find? hr
  have hmem := Table.mem_of_find? hr
  obtain ⟨hlength, -⟩ := generationsOf_row hserial hunclaimed (Table.mem_iff_find?.mp hmem)
  rcases h.rows h₀ hunclaimed hmem with ⟨hready, -⟩ | ⟨-, hone⟩
  · exact absurd hready (hnone r hmem)
  · intro hnil
    rw [hid, hnil, hone] at hlength
    cases hlength

theorem claimsOf_mono {w w' : World} {a : Sessions.Action} (h : Sessions.step w a = some w') {id : StepId}
    (hclaimed : claimsOf w.history id ≠ []) : claimsOf w'.history id ≠ [] := by
  rcases history_of_step h with hsame | ⟨_, _, cm, _, _, _, hsnoc⟩
  · rwa [hsame]
  · rw [hsnoc, Sessions.claimsOf_concat]
    exact fun hnil => hclaimed (List.append_eq_nil_iff.mp hnil).1

theorem Backlogged.world {w : World} {a : Sessions.Action} (h : Backlogged w₀ s)
    (ha : ∀ call, a = .start call → IsClaim call) (hstep : Sessions.step s.world a = some w) :
    Backlogged w₀ { s with world := w } where
  reaches := h.reaches.tail hstep
  claims call hissued := by
    rcases hissued.of_step hstep with hstart | hold
    · exact ha call hstart
    · exact h.claims call hold
  modes := h.modes
  present := h.present
  drained c hc hsaw r₀ hr₀ := claimsOf_mono hstep (h.drained c hc hsaw r₀ hr₀)

theorem head_phase {c : Claimer} (h : c.stopping = false) : c.head.phase = .calling := by
  simp [Claimer.head, h]

theorem head_modes {c : Claimer} : c.head.mode = c.mode ∧ c.head.stopping = c.stopping := by
  unfold Claimer.head
  split <;> exact ⟨rfl, rfl⟩

theorem Backlogged.claimers {claimers : List Claimer} (h : Backlogged w₀ s) (hpresent : claimers ≠ [])
    (hnew : ∀ d ∈ claimers, d ∈ s.claimers ∨ (d.mode = .backlog ∧ d.stopping = false) ∧
      (SawNone d.phase → ∀ r₀ ∈ w₀.steps.rows, claimsOf s.world.history r₀.id ≠ [])) :
    Backlogged w₀ { s with claimers } where
  reaches := h.reaches
  claims := h.claims
  modes d hd := by
    rcases hnew d hd with hold | ⟨hmodes, -⟩
    · exact h.modes d hold
    · exact hmodes
  present := hpresent
  drained d hd hsaw := by
    rcases hnew d hd with hold | ⟨-, hdrained⟩
    · exact h.drained d hold hsaw
    · exact hdrained hsaw

theorem not_sawNone_calling : ¬ SawNone .calling := by
  rintro (h | h) <;> cases h

/-- A claimer that goes on stops only after it has seen that no READY row remains. -/
theorem Backlogged.move {c c' : Claimer} {event : ClaimerEvent} (h₀ : w₀.Initial)
    (hunclaimed : ∀ r ∈ w₀.steps.rows, r.Unclaimed) (h : Backlogged w₀ s) (hc : c ∈ s.claimers)
    (hmove : ClaimerMove s.world c event c') : (c'.mode = .backlog ∧ c'.stopping = false) ∧
      (SawNone c'.phase → ∀ r₀ ∈ w₀.steps.rows, claimsOf s.world.history r₀.id ≠ []) := by
  obtain ⟨hmode, hstopping⟩ := h.modes c hc
  have hhead : ∀ d : Claimer, d.mode = c.mode → d.stopping = c.stopping →
      (d.head.mode = .backlog ∧ d.head.stopping = false) ∧
        (SawNone d.head.phase → ∀ r₀ ∈ w₀.steps.rows, claimsOf s.world.history r₀.id ≠ []) := by
    intro d hdmode hdstopping
    refine ⟨⟨head_modes.1.trans (hdmode.trans hmode), head_modes.2.trans (hdstopping.trans hstopping)⟩, ?_⟩
    rw [head_phase (hdstopping.trans hstopping)]
    exact fun hsaw => absurd hsaw not_sawNone_calling
  cases hmove with
  | claimed | rolledBack | lost | failed => exact hhead _ rfl rfl
  | notClaimed =>
    simp only [Claimer.emptied, hmode]
    refine ⟨⟨trivial, hstopping⟩, ?_⟩
    rintro (hsaw | hsaw) <;> cases hsaw
  | probe =>
    refine ⟨⟨hmode, hstopping⟩, ?_⟩
    rintro (hsaw | hsaw) r₀ hr₀
    · cases hsaw
    · have hany := Option.some.inj (ClaimerPhase.probing.inj hsaw)
      refine h.claimed_of_none h₀ hunclaimed (fun r hr hready => ?_) hr₀
      exact absurd (decide_eq_true hready) (List.any_eq_false.mp hany r hr)
  | @probed any hphase =>
    cases any with
    | true => exact hhead c rfl rfl
    | false => exact ⟨⟨hmode, hstopping⟩, fun _ => h.drained c hc (.inr hphase)⟩

theorem Backlogged.step {a : ContentionAction} (h₀ : w₀.Initial)
    (hunclaimed : ∀ r ∈ w₀.steps.rows, r.Unclaimed) (h : Backlogged w₀ s) (ha : LeftAlone a)
    (hstep : s.step a = some t) : Backlogged w₀ t := by
  cases a with
  | database a =>
    obtain ⟨-, hstep⟩ := Option.ite_none_right_eq_some.mp hstep
    obtain ⟨w, hworld, rfl⟩ := Option.map_eq_some_iff.mp hstep
    refine h.world (fun call hcall => ?_) hworld
    subst hcall
    exact absurd ha id
  | go processIndex =>
    obtain rfl := Option.some.inj hstep
    refine h.claimers (by simpa using h.present) fun d hd => ?_
    obtain ⟨c, hc, rfl⟩ := List.mem_map.mp hd
    split
    · obtain ⟨hmode, hstopping⟩ := h.modes c hc
      refine .inr ⟨⟨head_modes.1.trans hmode, head_modes.2.trans hstopping⟩, ?_⟩
      rw [head_phase hstopping]
      exact fun hsaw => absurd hsaw not_sawNone_calling
    · exact .inl hc
  | terminate processIndex => exact absurd ha id
  | begin i =>
    obtain ⟨c, hc, hstep⟩ := Option.bind_eq_some_iff.mp hstep
    obtain ⟨-, hstep⟩ := Option.ite_none_right_eq_some.mp hstep
    obtain ⟨w, hworld, rfl⟩ := Option.map_eq_some_iff.mp hstep
    have hbegun := h.world (fun call hcall => ⟨c.record.id, c.leaseMs, (Sessions.Action.start.inj hcall).symm⟩) hworld
    refine hbegun.claimers (by simpa using h.present) fun d hd => ?_
    rcases List.mem_or_eq_of_mem_set hd with hd | rfl
    · exact .inl hd
    · refine .inr ⟨h.modes c (List.mem_of_getElem? hc), ?_⟩
      rintro (hsaw | hsaw) <;> cases hsaw
  | claimer i event =>
    obtain ⟨c, hc, hstep⟩ := Option.bind_eq_some_iff.mp hstep
    obtain ⟨c', hreact, rfl⟩ := Option.map_eq_some_iff.mp hstep
    refine h.claimers (by simpa using h.present) fun d hd => ?_
    rcases List.mem_or_eq_of_mem_set hd with hd | rfl
    · exact .inl hd
    · exact .inr (h.move h₀ hunclaimed (List.mem_of_getElem? hc) (claimerMove_of_react hreact))

theorem Backlogged.of_initial (h₀ : s.Initial) (hpresent : s.claimers ≠ [])
    (hmodes : ∀ c ∈ s.claimers, c.mode = .backlog ∧ c.stopping = false) : Backlogged s.world s where
  reaches := .refl _
  claims call hissued := absurd hissued (Sessions.not_issued_of_initial h₀.world call)
  modes := hmodes
  present := hpresent
  drained c hc hsaw := by
    rw [(h₀.ready c hc).1] at hsaw
    rcases hsaw with hsaw | hsaw <;> cases hsaw

theorem Backlogged.of_run {as : List ContentionAction} (h₀ : s.Initial) (hpresent : s.claimers ≠ [])
    (hmodes : ∀ c ∈ s.claimers, c.mode = .backlog ∧ c.stopping = false) (halone : ∀ a ∈ as, LeftAlone a)
    (hrun : run Contention.step s as = some t) : Backlogged s.world t := by
  induction as using List.reverseRecOn generalizing t with
  | nil =>
    obtain rfl := Option.some.inj hrun
    exact .of_initial h₀ hpresent hmodes
  | append_singleton as a ih =>
    obtain ⟨u, hrun, hstep⟩ := (run_concat_eq_some _).mp hrun
    have hbefore := ih (fun a ha => halone a (List.mem_append_left _ ha)) hrun
    exact hbefore.step h₀.world h₀.unclaimed (halone a (List.mem_append_right _ (List.mem_singleton_self a))) hstep

end Backlog

/-- `summary.successfulClaims` is the number of steps, but for the claims lost to errors. -/
theorem backlog_is_claimed_once {s₀ s : Contention} {as : List ContentionAction} (h₀ : s₀.Initial)
    (hpresent : s₀.claimers ≠ []) (hmodes : ∀ c ∈ s₀.claimers, c.mode = .backlog ∧ c.stopping = false)
    (halone : ∀ a ∈ as, LeftAlone a) (hrun : run Contention.step s₀ as = some s) (hstopped : AllStopped s) :
    (∀ r ∈ s.world.steps.rows, r.status = .running ∧ r.leaseVersion.val = 1) ∧
      successfulClaims s.records ≤ s.world.steps.rows.length ∧
      s.world.steps.rows.length ≤ successfulClaims s.records + errorCount s.claimers := by
  have hbacklogged := Backlogged.of_run h₀ hpresent hmodes halone hrun
  have hledger := Ledger.of_reaches h₀ ⟨as, hrun⟩
  have hserial := Sessions.serial_of_reaches h₀.world hledger.reaches
  have hrows : ∀ r ∈ s.world.steps.rows, r.status = .running ∧ r.leaseVersion.val = 1 := by
    intro r hr
    obtain ⟨c, hc⟩ := List.exists_mem_of_ne_nil _ hbacklogged.present
    have hfind := Table.mem_iff_find?.mp hr
    cases hr₀ : s₀.world.steps.find? r.id with
    | none =>
      rw [hserial.absent hr₀] at hfind
      cases hfind
    | some r₀ =>
      have hclaimed := hbacklogged.drained c hc (.inl (hstopped c hc)) r₀ (Table.mem_of_find? hr₀)
      rw [id_of_find? hr₀] at hclaimed
      obtain ⟨hlength, -⟩ := generationsOf_row hserial h₀.unclaimed hfind
      rcases hbacklogged.rows h₀.world h₀.unclaimed hr with ⟨-, hzero⟩ | hrunning
      · rw [hzero] at hlength
        exact absurd (List.eq_nil_of_length_eq_zero (by exact_mod_cast hlength)) hclaimed
      · exact hrunning
  obtain ⟨lost, hbalance, herrors⟩ := hledger.settled hstopped
  have hcount : (committed s.world.history).length = s.world.steps.rows.length := by
    have hsum := sum_leaseVersion h₀.world h₀.unclaimed hledger.reaches
    rw [List.map_congr_left fun r hr => (hrows r hr).2] at hsum
    simp only [List.map_const', List.sum_replicate, nsmul_eq_mul, mul_one] at hsum
    exact_mod_cast hsum.symm
  have hlength := hbalance.length_eq
  rw [List.length_append, hcount, ← successfulClaims_eq] at hlength
  exact ⟨hrows, by omega, by omega⟩

def wonStep : ClaimedStep where
  id := 7
  workerId := some "claimer-p1-c2"
  leaseVersion := ⟨1, Int4.inRange_one⟩
  attemptCount := ⟨1, Int4.inRange_one⟩
  leaseExpiresAt := some 600000000
  priority := ⟨0, Int4.inRange_zero⟩
  availableAt := 0
  taskType := "hash_after_delay"
  payload := .null

def backlogClaimer (id : WorkerId) : Claimer where
  processIndex := 1
  leaseMs := 600000
  mode := .backlog
  stopping := false
  phase := .ready
  record := ⟨id, 0, 0, 0, 0, [], []⟩

def backlogPair : Contention := ⟨.singleStep, [backlogClaimer "claimer-p1-c1", backlogClaimer "claimer-p1-c2"]⟩

theorem initial_backlogPair : backlogPair.Initial where
  world := World.initial_singleStep
  unclaimed r hr := (World.fresh_singleStep r hr).toUnclaimed
  noEvent := rfl
  ready c hc := by
    rcases List.mem_cons.mp hc with rfl | hc
    · exact ⟨rfl, rfl, rfl⟩
    · obtain rfl := List.mem_singleton.mp hc
      exact ⟨rfl, rfl, rfl⟩

/-- One wins the step, both find the queue empty, and both stop. -/
def drainedBacklog : List ContentionAction :=
  [.go 1, .begin 0, .begin 1] ++ List.replicate 6 (.database (.run 1)) ++ [.database (.commit 1)] ++
    List.replicate 4 (.database (.run 0)) ++ [.database (.commit 0), .claimer 0 .notClaimed,
      .claimer 1 (.claimed wonStep), .claimer 0 .probe, .begin 1] ++
    List.replicate 4 (.database (.run 2)) ++ [.database (.commit 2), .claimer 1 .notClaimed,
      .claimer 0 .probeAnswered, .claimer 1 .probe, .claimer 1 .probeAnswered]

theorem backlog_is_claimed_once_pair : ∃ s, run Contention.step backlogPair drainedBacklog = some s ∧
    successfulClaims s.records = 1 ∧ ∀ r ∈ s.world.steps.rows, r.status = .running ∧ r.leaseVersion.val = 1 := by
  have hrun : (run Contention.step backlogPair drainedBacklog).map (fun s =>
      (s.claimers.map Claimer.phase, successfulClaims s.records)) = some ([.stopped, .stopped], 1) := by
    decide +kernel
  obtain ⟨s, hs, hvalues⟩ := Option.map_eq_some_iff.mp hrun
  obtain ⟨hphases, hclaims⟩ := Prod.mk.inj hvalues
  have hstopped : AllStopped s := by
    intro c hc
    have hmem : c.phase ∈ [ClaimerPhase.stopped, .stopped] := hphases ▸ List.mem_map_of_mem hc
    simpa using hmem
  have hmodes : ∀ c ∈ backlogPair.claimers, c.mode = .backlog ∧ c.stopping = false := by
    intro c hc
    rcases List.mem_cons.mp hc with rfl | hc
    · exact ⟨rfl, rfl⟩
    · obtain rfl := List.mem_singleton.mp hc
      exact ⟨rfl, rfl⟩
  have halone : ∀ a ∈ drainedBacklog, LeftAlone a := by
    intro a ha
    simp only [drainedBacklog, List.mem_append, List.mem_replicate, List.mem_cons, List.not_mem_nil,
      or_false] at ha
    rcases ha with ((((((rfl | rfl | rfl) | ⟨-, rfl⟩) | rfl) | ⟨-, rfl⟩) | (rfl | rfl | rfl | rfl | rfl)) |
      ⟨-, rfl⟩) | (rfl | rfl | rfl | rfl | rfl) <;> trivial
  exact ⟨s, hs, hclaims,
    (backlog_is_claimed_once initial_backlogPair (List.cons_ne_nil _ _) hmodes halone hs hstopped).1⟩

end DurableRunner.Guarantees
