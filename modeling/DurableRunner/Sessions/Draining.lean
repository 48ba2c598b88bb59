import DurableRunner.Sessions.Undisturbed

/-! # Calls one after another

While nobody else acts and the clock makes no row eligible, each claim or sweep
takes the next rows of one fixed queue.
-/
namespace DurableRunner.Sessions
open Schema Operations TransitionSystem

inductive SameSelect : Call → Call → Prop
  | claim (workerId workerId' : WorkerId) (ms ms' : ℤ) :
      SameSelect (.claimNextStep workerId ms) (.claimNextStep workerId' ms')
  | recover : SameSelect .recoverExpiredSteps .recoverExpiredSteps
  | promote : SameSelect .promoteDueRetries .promoteDueRetries

namespace SameSelect
variable {call model : Call} (h : SameSelect call model)
include h

theorem credential : call.credential? = none := by cases h <;> rfl

theorem selects : call ≠ .lockRows := by cases h <;> nofun

theorem candidates (w : World) (now : Timestamp) : w.candidates call now = w.candidates model now := by
  cases h <;> rfl

theorem limit : call.limit = model.limit := by cases h <;> rfl

end SameSelect

/-- Calls of one kind, each over before the next one starts. The clock moves over the given
readings, between the calls and during them. -/
inductive OneByOne (model : Call) (readings : Timestamp → Prop) (w : World) : World → ℕ → Prop
  | start : OneByOne model readings w w 0
  | tick {v : World} {n : ℕ} {clock : Timestamp} (h : OneByOne model readings w v n)
      (hclock : readings clock) : OneByOne model readings w { v with clock } n
  | call {v w' : World} {n : ℕ} {call : Call} (h : OneByOne model readings w v n)
      (hcall : SameSelect call model) (hadmissible : call.admissible = true)
      (hcommits : CommitsUndisturbed readings v.nextTx (v.begin call) w') :
      OneByOne model readings w w' (n + 1)

theorem OneByOne.callAlone {model call : Call} {readings : Timestamp → Prop} {w v w' : World}
    {n moves : ℕ} (h : OneByOne model readings w v n) (hcall : SameSelect call model)
    (hadmissible : call.admissible = true)
    (hrun : run step v (Sessions.callAlone v.nextTx call moves) = some w') :
    OneByOne model readings w w' (n + 1) := by
  obtain ⟨u, hstart, hmoves⟩ := (run_cons_eq_some step).mp hrun
  cases step_cases hstart with
  | start =>
    exact h.call hcall hadmissible
      ⟨_, fun a ha => .inl (List.eq_of_mem_replicate ha), hmoves⟩

/-- The clock has not passed another `available_at`. -/
def SameAvailability (w : World) (clock : Timestamp) : Prop :=
  ∀ r ∈ w.steps.rows, r.availableAt ≤ clock ↔ r.availableAt ≤ w.clock

namespace World

def queue (w : World) (call : Call) (now : Timestamp) : List StepRow :=
  (w.candidates call now).filter fun r => (w.holder r.id).isNone

end World

/-- Between two calls: the rows still to be taken. -/
structure Queued (model : Call) (readings : Timestamp → Prop) (w : World) (rows : List StepRow) :
    Prop where
  reading : readings w.clock
  begun : ∀ id tx, w.holder id = some tx → tx < w.nextTx
  queue : ∀ now clock, readings now → readings clock →
    ({ w with clock } : World).queue model now = rows

section Call
variable {model call : Call} {readings : Timestamp → Prop} {v w' : World} {rows : List StepRow}
  (h : Queued model readings v rows) (hcall : SameSelect call model)
  (hcommits : CommitsUndisturbed readings v.nextTx (v.begin call) w')
include h hcall hcommits

/-- A call takes the first rows of the queue. -/
theorem Queued.next : ∃ c : Commit, w'.history = v.history ++ [c] ∧ c.call = call ∧
    c.start = v.clock ∧ c.decision.changes.map Change.before = rows.take model.limit ∧
    (∀ ch ∈ c.decision.changes, call.update v.clock c.decision.instant ch.before = .ok (some ch.after)) ∧
    w'.steps = v.steps.setAll (c.decision.changes.map Change.after) ∧
    Queued model readings w' (rows.drop model.limit) := by
  have ht : (v.begin call).txs v.nextTx = some ⟨call, v.clock, none, none, .begun⟩ := by
    simp [World.begin, World.setTx]
  obtain ⟨hreading, scannedAt, d, hscan, hinstant, hupdate, hcompleted⟩ :=
    committed_of_undisturbed hcall.credential hcall.selects ht rfl h.reading hcommits
  obtain ⟨c, hhistory, -, hcallc, hstart, hdecision, -, -⟩ := hcompleted.committed
  have hfree : ∀ id, (v.holder id).isNone = !(v.begin call).heldByOther v.nextTx id := by
    intro id
    have hholder : (v.begin call).holder id = v.holder id := rfl
    unfold World.heldByOther
    rw [hholder]
    cases hheld : v.holder id with
    | none => rfl
    | some tx =>
      have hne : tx ≠ v.nextTx := (h.begun id tx hheld).ne
      simp [hne]
  have htakes : (v.begin call).takesAt v.nextTx ⟨call, v.clock, none, none, .begun⟩ scannedAt =
      rows.take model.limit := by
    rw [← h.queue v.clock scannedAt h.reading hscan, ← hcall.limit]
    simp only [World.queue, ← hcall.candidates, hfree]
    rfl
  have hbefore : d.changes.map Change.before = rows.take model.limit := by
    have hpairs := Call.updateAll_before hcall.credential hcall.selects hupdate
    rw [htakes] at hpairs
    simpa [Function.comp_def] using congrArg (List.map Prod.fst) hpairs
  have hupdated := Call.updateAll_updated hupdate
  have hids : (d.changes.map Change.after).map (fun r => r.id) =
      (rows.take model.limit).map fun r => r.id := by
    rw [← hbefore, List.map_map, List.map_map]
    exact List.map_congr_left fun ch hch => Call.update_id (hupdated ch hch)
  have hnodup : (rows.map fun r => r.id).Nodup := by
    rw [← h.queue v.clock v.clock h.reading h.reading]
    exact (List.filter_sublist.map _).nodup (candidates_nodup _ _ _)
  have hholder : w'.holder = v.holder :=
    hcompleted.holder fun id hheld => (h.begun id _ hheld).ne rfl
  refine ⟨c, hhistory, hcallc, hstart, by rw [hdecision, hbefore], by rwa [hdecision],
    by rw [hdecision]; exact hcompleted.steps, hreading, ?_, ?_⟩
  · intro id tx hheld
    rw [hholder] at hheld
    rw [hcompleted.nextTx]
    exact (h.begun id tx hheld).trans (Nat.lt_succ_self _)
  · intro now clock hnow hclock
    have hqueue := h.queue now clock hnow hclock
    have hwritten : ((d.changes.map Change.after).map fun r => r.id).Nodup := by
      rw [hids]
      exact ((List.take_sublist _ _).map _).nodup hnodup
    have hselection := v.steps.selection_setAll (fun r => call.eligible now clock r) call.order
      (fun a b => Call.id_of_order hcall.credential hcall.selects) hwritten fun r hr => by
        obtain ⟨ch, hch, rfl⟩ := List.mem_map.mp hr
        exact Call.not_eligible_of_update hcall.credential (hupdated ch hch) now clock
    rw [hids] at hselection
    have hcandidates : ({ w' with clock } : World).candidates model now =
        (({ v with clock } : World).candidates model now).filter fun r =>
          r.id ∉ (rows.take model.limit).map fun r => r.id := by
      rw [← hcall.candidates, ← hcall.candidates]
      simp only [World.candidates, hcompleted.steps]
      exact hselection
    rw [World.queue, hcandidates, ← Relational.filter_not_mem_take hnodup, ← hqueue, World.queue,
      List.filter_filter, List.filter_filter]
    simp only [hholder, Bool.and_comm]

end Call

/-- The commit of a call that took these rows. -/
structure Takes (model : Call) (rows : List StepRow) (c : Commit) : Prop where
  call : SameSelect c.call model
  before : c.decision.changes.map Change.before = rows
  updated : ∀ ch ∈ c.decision.changes,
    c.call.update c.start c.decision.instant ch.before = .ok (some ch.after)

/-- After `n` calls, each has taken the next rows of the queue. -/
theorem OneByOne.queued {model : Call} {readings : Timestamp → Prop} {w w' : World} {n : ℕ}
    {rows : List StepRow} (h : OneByOne model readings w w' n) (h₀ : Queued model readings w rows) :
    Queued model readings w' (rows.drop (n * model.limit)) ∧
      ∃ cs : List Commit, w'.history = w.history ++ cs ∧ cs.length = n ∧
        ∀ i c, cs[i]? = some c → Takes model ((rows.drop (i * model.limit)).take model.limit) c := by
  induction h with
  | start => exact ⟨by simpa using h₀, [], by simp⟩
  | tick h hclock ih =>
    obtain ⟨hqueued, hcommits⟩ := ih
    exact ⟨⟨hclock, hqueued.begun, hqueued.queue⟩, hcommits⟩
  | @call v w' n call h hcall hadmissible hcommits ih =>
    obtain ⟨hqueued, cs, hhistory, hlength, htaken⟩ := ih
    obtain ⟨c, hhistory', hcallc, hstart, hbefore, hupdated, -, hqueued'⟩ := hqueued.next hcall hcommits
    refine ⟨?_, cs ++ [c], by rw [hhistory', hhistory, List.append_assoc], by simp [hlength], ?_⟩
    · rwa [List.drop_drop, ← Nat.succ_mul] at hqueued'
    · intro i c' hc'
      rcases Nat.lt_trichotomy i n with hlt | rfl | hgt
      · rw [List.getElem?_append_left (hlength ▸ hlt)] at hc'
        exact htaken i c' hc'
      · rw [← hlength, List.getElem?_concat_length] at hc'
        obtain rfl := Option.some.inj hc'
        exact ⟨hcallc ▸ hcall, hbefore, by rw [hcallc, hstart]; exact hupdated⟩
      · rw [List.getElem?_eq_none (by rw [List.length_append, List.length_singleton]; omega)] at hc'
        cases hc'

end DurableRunner.Sessions
