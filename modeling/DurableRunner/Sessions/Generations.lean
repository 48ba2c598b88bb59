import DurableRunner.Sessions.Serial

/-! # How far a generation has come

A claim opens a generation, at most one operation closes it, and at most one
promotion follows. This orders the committed changes of a row.
-/
namespace DurableRunner.Sessions
open Schema Operations TransitionSystem

/-- The stages of one generation. -/
def stage : StepStatus → ℤ
  | .running => 0
  | .retryWait => 1
  | _ => 2

def progress (r : StepRow) : ℤ := 3 * r.leaseVersion.val + stage r.status

theorem progress_transition {start instant checkedAt : Timestamp} {r r' : StepRow} {call : Call}
    (h : Transition start instant checkedAt r r' call) :
    progress r ≤ progress r' ∧ (r'.status ≠ r.status → progress r < progress r') := by
  unfold progress
  cases h with
  | claim hready _ _ hversion _ hcols =>
    have hstatus : r'.status = .running := by rw [hcols]
    rw [hstatus, hready, hversion]
    simp only [stage]
    omega
  | renew hlive hcols =>
    have hstatus : r'.status = r.status := by rw [hcols]
    have hversion : r'.leaseVersion = r.leaseVersion := by rw [hcols]
    rw [hstatus, hversion]
    exact ⟨le_rfl, fun h => absurd rfl h⟩
  | complete hlive hcols =>
    have hstatus : r'.status = .succeeded := by rw [hcols]
    have hversion : r'.leaseVersion = r.leaseVersion := by rw [hcols]
    rw [hstatus, hversion, (holdsLiveLease_iff.mp hlive).2.1]
    simp only [stage]
    omega
  | fail hlive hcols =>
    have hversion : r'.leaseVersion = r.leaseVersion := by rw [hcols]
    have hstage : 0 < stage r'.status := by
      rw [hcols]
      dsimp only
      split <;> simp [stage]
    rw [hversion, (holdsLiveLease_iff.mp hlive).2.1]
    simp only [stage] at hstage ⊢
    omega
  | recover hrunning _ _ hcols =>
    have hversion : r'.leaseVersion = r.leaseVersion := by rw [hcols]
    have hstage : 0 < stage r'.status := by
      rw [hcols]
      dsimp only
      split <;> simp [stage]
    rw [hversion, hrunning]
    simp only [stage] at hstage ⊢
    omega
  | promote hwaiting _ hcols =>
    have hstatus : r'.status = .ready := by rw [hcols]
    have hversion : r'.leaseVersion = r.leaseVersion := by rw [hcols]
    rw [hstatus, hversion, hwaiting]
    simp only [stage]
    omega

/-- A later change of the same row starts where the earlier one has led, or beyond. -/
def Advances (c c' : Commit) : Prop :=
  ∀ ch ∈ c.decision.changes, ∀ ch' ∈ c'.decision.changes, ch.before.id = ch'.before.id →
    progress ch.after ≤ progress ch'.before

/-- The committed transactions advance every row. -/
theorem Serial.advances {steps₀ steps : StepsTable} {events₀ events : List EventRow}
    {history : List Commit} (h : Serial steps₀ events₀ history steps events) :
    history.Pairwise Advances ∧ ∀ c ∈ history, ∀ ch ∈ c.decision.changes, ∀ r,
      steps.find? ch.before.id = some r → progress ch.after ≤ progress r := by
  induction h with
  | nil => simp
  | @snoc history steps events c serial performs written ih =>
    obtain ⟨hpairwise, hbound⟩ := ih
    refine ⟨List.pairwise_append.mpr ⟨hpairwise, List.pairwise_singleton _ _, ?_⟩, ?_⟩
    · intro c₁ hc₁ c₂ hc₂ ch hch ch' hch' hid
      obtain rfl := List.mem_singleton.mp hc₂
      exact hbound c₁ hc₁ ch hch _ (hid ▸ performs.current ch' hch')
    · intro c₁ hc₁ ch hch r hr
      rcases performs.find? ch.before.id with ⟨hfind, hnone⟩ | ⟨ch', hch', hbefore, hafter, hone⟩
      · rw [hfind] at hr
        rcases List.mem_append.mp hc₁ with hc₁ | hc₁
        · exact hbound c₁ hc₁ ch hch r hr
        · obtain rfl := List.mem_singleton.mp hc₁
          have hmem := List.filter_eq_nil_iff.mp hnone ch hch
          simp at hmem
      · obtain rfl := Option.some.inj (hafter.symm.trans hr)
        rcases List.mem_append.mp hc₁ with hc₁ | hc₁
        · exact (hbound c₁ hc₁ ch hch _ hbefore).trans (progress_transition (performs.transition hch')).1
        · obtain rfl := List.mem_singleton.mp hc₁
          have hmem : ch ∈ c₁.decision.changes.filter fun c => c.before.id = ch.before.id := by
            simp [hch]
          rw [hone, List.mem_singleton] at hmem
          rw [hmem]

end DurableRunner.Sessions
