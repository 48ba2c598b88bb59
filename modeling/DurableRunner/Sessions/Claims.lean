import DurableRunner.Sessions.Serial

/-! # The committed claims of a step

Every committed claim advances the generation and the attempt counter of the
row it returns by one, and nothing else advances either.
-/
namespace DurableRunner.Sessions
open Schema Operations TransitionSystem

def Commit.claimed? (c : Commit) : Option ClaimedStep :=
  match c.outcome with
  | .claimed s => some s
  | _ => none

/-- The claims of one step that returned it, in commit order. -/
def claimsOf (history : List Commit) (id : StepId) : List ClaimedStep :=
  (history.filterMap Commit.claimed?).filter fun s => s.id = id

/-- The generations after `v₀`, up to and including `v`. -/
def generations (v₀ v : ℤ) : List ℤ := (List.range (v - v₀).toNat).map fun k : ℕ => v₀ + k + 1

theorem generations_self (v : ℤ) : generations v v = [] := by simp [generations]

theorem generations_succ {v₀ v : ℤ} (h : v₀ ≤ v) :
    generations v₀ (v + 1) = generations v₀ v ++ [v + 1] := by
  have hcount : (v + 1 - v₀).toNat = (v - v₀).toNat + 1 := by omega
  have hlast : v₀ + ((v - v₀).toNat : ℤ) = v := by omega
  rw [generations, hcount, List.range_succ, List.map_append, List.map_singleton, hlast]
  rfl

theorem mem_generations {v₀ v k : ℤ} : k ∈ generations v₀ v ↔ v₀ < k ∧ k ≤ v := by
  simp only [generations, List.mem_map, List.mem_range]
  constructor
  · rintro ⟨i, hi, rfl⟩
    omega
  · rintro ⟨hlt, hle⟩
    exact ⟨(k - v₀ - 1).toNat, by omega, by omega⟩

theorem claimsOf_concat (history : List Commit) (c : Commit) (id : StepId) :
    claimsOf (history ++ [c]) id = claimsOf history id ++ claimsOf [c] id := by
  simp [claimsOf]

theorem mem_claimsOf {history : List Commit} {id : StepId} {s : ClaimedStep} :
    s ∈ claimsOf history id ↔ (∃ c ∈ history, c.claimed? = some s) ∧ s.id = id := by
  simp [claimsOf, List.mem_filter, List.mem_filterMap]

theorem Commit.claimed?_eq_some {c : Commit} {s : ClaimedStep} :
    c.claimed? = some s ↔ ∃ workerId ms ch rest, c.call = .claimNextStep workerId ms ∧
      c.decision.changes = ch :: rest ∧ s = claimedStep ch.after := by
  obtain ⟨tx, call, start, lockedAt, ⟨instant, changes⟩, events, committedAt⟩ := c
  cases call with
  | claimNextStep workerId ms =>
    cases changes <;> simp [Commit.claimed?, Commit.outcome, Call.outcome, eq_comm]
  | renewStepLease cred ms =>
    cases changes <;> simp [Commit.claimed?, Commit.outcome, Call.outcome]
  | completeStepSuccess cred result =>
    by_cases h : changes.length = 1 <;> simp [Commit.claimed?, Commit.outcome, Call.outcome, h]
  | recordStepFailure cred error retryable =>
    cases changes <;> simp [Commit.claimed?, Commit.outcome, Call.outcome]
  | recoverExpiredSteps => simp [Commit.claimed?, Commit.outcome, Call.outcome]
  | promoteDueRetries => simp [Commit.claimed?, Commit.outcome, Call.outcome]
  | lockRows => simp [Commit.claimed?, Commit.outcome, Call.outcome]

section OneCommit
variable {steps : StepsTable} {c : Commit}
  (performs : Performs steps c.call c.start c.decision) {id : StepId}
include performs

theorem claimsOf_untouched (hnone : c.decision.changes.filter (fun ch => ch.before.id = id) = []) :
    claimsOf [c] id = [] := by
  cases hclaimed : c.claimed? with
  | none => simp [claimsOf, hclaimed]
  | some s =>
    obtain ⟨_, _, ch, rest, -, hchanges, rfl⟩ := Commit.claimed?_eq_some.mp hclaimed
    have hmem : ch ∈ c.decision.changes := by rw [hchanges]; exact List.mem_cons_self
    have hne := List.filter_eq_nil_iff.mp hnone ch hmem
    rw [← performs.after_id ch hmem] at hne
    simpa [claimsOf, hclaimed, claimedStep] using hne

theorem claimsOf_claim {ch : Change} {workerId : WorkerId} {ms : ℤ}
    (hcall : c.call = .claimNextStep workerId ms)
    (hone : c.decision.changes.filter (fun ch => ch.before.id = id) = [ch]) :
    claimsOf [c] id = [claimedStep ch.after] := by
  have hmem : ch ∈ c.decision.changes.filter (fun ch => ch.before.id = id) := by simp [hone]
  obtain ⟨hmem, hid⟩ := List.mem_filter.mp hmem
  have hlength : c.decision.changes.length ≤ 1 := by
    have hbounded := performs.bounded
    rwa [hcall] at hbounded
  obtain ⟨ch', hchanges⟩ := List.length_eq_one_iff.mp
    (le_antisymm hlength (List.length_pos_of_mem hmem))
  obtain rfl : ch = ch' := by simpa [hchanges] using hmem
  have hclaimed : c.claimed? = some (claimedStep ch.after) :=
    Commit.claimed?_eq_some.mpr ⟨_, _, _, _, hcall, hchanges, rfl⟩
  have hafter : ch.after.id = id := (performs.after_id ch hmem).trans (by simpa using hid)
  simp [claimsOf, hclaimed, claimedStep, hafter]

omit performs in
theorem claimsOf_other (hcall : ∀ workerId ms, c.call ≠ .claimNextStep workerId ms) :
    claimsOf [c] id = [] := by
  cases hclaimed : c.claimed? with
  | none => simp [claimsOf, hclaimed]
  | some s =>
    obtain ⟨workerId, ms, -, -, h, -⟩ := Commit.claimed?_eq_some.mp hclaimed
    exact absurd h (hcall workerId ms)

end OneCommit

/-- What the claims committed so far have made of a row's two counters. -/
structure CountedBy (r₀ r : StepRow) (claims : List ClaimedStep) : Prop where
  leaseVersion : r.leaseVersion.val = r₀.leaseVersion.val + claims.length
  attemptCount : r.attemptCount.val = r₀.attemptCount.val + claims.length
  versions : claims.map (fun s => s.leaseVersion.val) =
    generations r₀.leaseVersion.val r.leaseVersion.val

theorem CountedBy.refl (r : StepRow) : CountedBy r r [] :=
  ⟨by simp, by simp, by simp [generations_self]⟩

theorem CountedBy.le {r₀ r : StepRow} {claims : List ClaimedStep} (h : CountedBy r₀ r claims) :
    r₀.leaseVersion.val ≤ r.leaseVersion.val := by
  have := h.leaseVersion
  omega

theorem CountedBy.version_le {r₀ r : StepRow} {claims : List ClaimedStep}
    (h : CountedBy r₀ r claims) {s : ClaimedStep} (hs : s ∈ claims) :
    s.leaseVersion.val ≤ r.leaseVersion.val := by
  have hmem : s.leaseVersion.val ∈ generations r₀.leaseVersion.val r.leaseVersion.val :=
    h.versions ▸ List.mem_map_of_mem hs
  exact (mem_generations.mp hmem).2

theorem CountedBy.keep {r₀ r r' : StepRow} {claims : List ClaimedStep} (h : CountedBy r₀ r claims)
    (hversion : r'.leaseVersion = r.leaseVersion) (hattempt : r'.attemptCount = r.attemptCount) :
    CountedBy r₀ r' (claims ++ []) := by
  rw [List.append_nil]
  exact ⟨hversion ▸ h.leaseVersion, hattempt ▸ h.attemptCount, hversion ▸ h.versions⟩

theorem CountedBy.claim {r₀ r r' : StepRow} {claims : List ClaimedStep} (h : CountedBy r₀ r claims)
    (hversion : r'.leaseVersion.val = r.leaseVersion.val + 1)
    (hattempt : r'.attemptCount.val = r.attemptCount.val + 1) :
    CountedBy r₀ r' (claims ++ [claimedStep r']) := by
  have hv := h.leaseVersion
  have ha := h.attemptCount
  refine ⟨?_, ?_, ?_⟩
  · rw [List.length_append, List.length_singleton]
    omega
  · rw [List.length_append, List.length_singleton]
    omega
  · rw [List.map_append, h.versions, hversion, generations_succ h.le]
    simp [claimedStep, hversion]

theorem CountedBy.commit {steps : StepsTable} {c : Commit} {id : StepId} {r₀ r : StepRow}
    {claims : List ClaimedStep} (h : CountedBy r₀ r claims)
    (performs : Performs steps c.call c.start c.decision) (hr : steps.find? id = some r) :
    ∃ r', (steps.setAll (c.decision.changes.map Change.after)).find? id = some r' ∧
      CountedBy r₀ r' (claims ++ claimsOf [c] id) := by
  rcases performs.find? id with ⟨hfind, hnone⟩ | ⟨ch, hch, hbefore, hafter, hone⟩
  · rw [hfind, claimsOf_untouched performs hnone]
    exact ⟨r, hr, h.keep rfl rfl⟩
  · obtain rfl := Option.some.inj (hr.symm.trans hbefore)
    refine ⟨ch.after, hafter, ?_⟩
    cases hcall : c.call with
    | claimNextStep workerId ms =>
      have htransition := performs.transition hch
      rw [hcall] at htransition
      cases htransition with
      | claim _ _ _ hversion hattempt _ =>
        rw [claimsOf_claim performs hcall hone]
        exact h.claim hversion hattempt
    | _ =>
      rw [claimsOf_other (by simp [hcall])]
      have htransition := performs.transition hch
      rw [hcall] at htransition
      cases htransition <;> (rename_i hcols; exact h.keep (by rw [hcols]) (by rw [hcols]))

/-- The committed claims of a step count its generations and attempts. -/
theorem Serial.countedBy {steps₀ steps : StepsTable} {events₀ events : List EventRow}
    {history : List Commit} (h : Serial steps₀ events₀ history steps events) {id : StepId}
    {r₀ : StepRow} (hr₀ : steps₀.find? id = some r₀) :
    ∃ r, steps.find? id = some r ∧ CountedBy r₀ r (claimsOf history id) := by
  induction h with
  | nil => exact ⟨r₀, hr₀, .refl r₀⟩
  | snoc serial performs written ih =>
    obtain ⟨r, hr, hcounted⟩ := ih
    rw [claimsOf_concat]
    exact hcounted.commit performs hr

theorem Serial.claimsOf_absent {steps₀ steps : StepsTable} {events₀ events : List EventRow}
    {history : List Commit} (h : Serial steps₀ events₀ history steps events) {id : StepId}
    (habsent : steps₀.find? id = none) : claimsOf history id = [] := by
  induction h with
  | nil => rfl
  | snoc serial performs written ih =>
    rcases performs.find? id with ⟨-, huntouched⟩ | ⟨c, -, hbefore, -, -⟩
    · rw [claimsOf_concat, ih, claimsOf_untouched performs huntouched]
      rfl
    · rw [serial.absent habsent] at hbefore
      cases hbefore

end DurableRunner.Sessions
