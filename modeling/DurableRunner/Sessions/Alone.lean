import DurableRunner.Sessions.Explained

/-! # A transaction that nobody interrupts

While one transaction makes all the moves, the committed tables, the clock and
the locks of the others stand still, so its whole run is a computation.
-/
namespace DurableRunner.Sessions
open Schema Operations TransitionSystem

/-- The transaction makes its next moves, and nothing else happens. -/
def Uninterrupted (tx : TxId) (w v : World) : Prop :=
  ∃ n, run step w (List.replicate n (.run tx)) = some v

theorem Uninterrupted.refl (tx : TxId) (w : World) : Uninterrupted tx w w := ⟨0, rfl⟩

theorem Uninterrupted.trans {tx : TxId} {w v u : World} (h : Uninterrupted tx w v)
    (h' : Uninterrupted tx v u) : Uninterrupted tx w u := by
  obtain ⟨n, hn⟩ := h
  obtain ⟨m, hm⟩ := h'
  exact ⟨n + m, by rw [List.replicate_add]; exact (run_append_eq_some _).mpr ⟨v, hn, hm⟩⟩

theorem Uninterrupted.move {tx : TxId} {w : World} {t : Tx} {m : Move} (ht : w.txs tx = some t)
    (hnext : w.next tx t = some m) : Uninterrupted tx w (w.apply tx t m) := by
  have hstep : step w (.run tx) = some (w.apply tx t m) := by simp [step, ht, hnext]
  exact ⟨1, by simp [run_cons, hstep]⟩

/-- A transaction that has nothing left to do has been there already. -/
theorem Uninterrupted.of_stuck {tx : TxId} {w v u : World} (h : Uninterrupted tx w v)
    (h' : Uninterrupted tx w u) (hstuck : step u (.run tx) = none) : Uninterrupted tx v u := by
  obtain ⟨n, hn⟩ := h
  obtain ⟨m, hm⟩ := h'
  rcases le_or_gt n m with hle | hlt
  · obtain ⟨k, rfl⟩ := Nat.exists_eq_add_of_le hle
    rw [List.replicate_add] at hm
    obtain ⟨v', hv', hrest⟩ := (run_append_eq_some _).mp hm
    obtain rfl := Option.some.inj (hn.symm.trans hv')
    exact ⟨k, hrest⟩
  · obtain ⟨k, rfl⟩ := Nat.exists_eq_add_of_lt hlt
    rw [show m + k + 1 = m + (1 + k) by omega, List.replicate_add, List.replicate_add] at hn
    obtain ⟨u', hu', hrest⟩ := (run_append_eq_some _).mp hn
    obtain rfl := Option.some.inj (hm.symm.trans hu')
    simp [run_cons, hstuck] at hrest

/-- What one transaction leaves alone until it commits. -/
structure Spared (tx : TxId) (w v : World) : Prop where
  steps : v.steps = w.steps
  events : v.events = w.events
  history : v.history = w.history
  nextTx : v.nextTx = w.nextTx
  txs : ∀ other, other ≠ tx → v.txs other = w.txs other
  holder : ∀ id other, other ≠ tx → (v.holder id = some other ↔ w.holder id = some other)

theorem Spared.refl (tx : TxId) (w : World) : Spared tx w w :=
  ⟨rfl, rfl, rfl, rfl, fun _ _ => rfl, fun _ _ _ => Iff.rfl⟩

theorem Spared.trans {tx : TxId} {w v u : World} (h : Spared tx w v) (h' : Spared tx v u) :
    Spared tx w u where
  steps := h'.steps.trans h.steps
  events := h'.events.trans h.events
  history := h'.history.trans h.history
  nextTx := h'.nextTx.trans h.nextTx
  txs other hne := (h'.txs other hne).trans (h.txs other hne)
  holder id other hne := (h'.holder id other hne).trans (h.holder id other hne)

theorem Spared.of_apply {w : World} {tx : TxId} {t : Tx} {m : Move} (hmove : MoveCase w tx t m) :
    Spared tx w (w.apply tx t m) where
  steps := apply_steps _ _ _ _
  events := apply_events _ _ _ _
  history := apply_history _ _ _ _
  nextTx := apply_nextTx _ _ _ _
  txs _ hne := apply_txs_of_ne _ _ _ _ hne
  holder _ _ hne := apply_holder_of_ne (fun _ _ => hmove.lock_free) hne

theorem Spared.heldByOther {tx : TxId} {w v : World} (h : Spared tx w v) (id : StepId) :
    v.heldByOther tx id = w.heldByOther tx id := by
  rw [Bool.eq_iff_iff, heldByOther_iff, heldByOther_iff]
  exact exists_congr fun other => and_congr_right fun hne => h.holder id other hne

/-- What the moves of one transaction leave alone: the clock too. -/
structure Meanwhile (tx : TxId) (w v : World) : Prop extends Spared tx w v where
  clock : v.clock = w.clock

theorem Meanwhile.refl (tx : TxId) (w : World) : Meanwhile tx w w := ⟨.refl tx w, rfl⟩

theorem Meanwhile.trans {tx : TxId} {w v u : World} (h : Meanwhile tx w v) (h' : Meanwhile tx v u) :
    Meanwhile tx w u := ⟨h.toSpared.trans h'.toSpared, h'.clock.trans h.clock⟩

theorem Meanwhile.of_step {tx : TxId} {w v : World} (h : step w (.run tx) = some v) :
    Meanwhile tx w v := by
  cases step_cases h with
  | run ht hmove => exact ⟨.of_apply hmove, apply_clock _ _ _ _⟩

theorem Uninterrupted.meanwhile {tx : TxId} {w v : World} (h : Uninterrupted tx w v) :
    Meanwhile tx w v := by
  obtain ⟨n, hn⟩ := h
  induction n generalizing w with
  | zero =>
    obtain rfl : w = v := by simpa using hn
    exact .refl tx w
  | succ n ih =>
    obtain ⟨u, hu, hrest⟩ := (run_cons_eq_some _).mp (by simpa [List.replicate_succ] using hn)
    exact (Meanwhile.of_step hu).trans (ih hrest)

def Arrives (tx : TxId) (w : World) (t : Tx) (phase : Phase) : Prop :=
  ∃ v t', Uninterrupted tx w v ∧ v.txs tx = some t' ∧ t'.call = t.call ∧ t'.start = t.start ∧
    t'.phase = phase

theorem Arrives.of_uninterrupted {tx : TxId} {w v : World} {t t' : Tx} {phase : Phase}
    (h : Uninterrupted tx w v) (hcall : t'.call = t.call) (hstart : t'.start = t.start)
    (h' : Arrives tx v t' phase) : Arrives tx w t phase := by
  obtain ⟨u, t'', hu, ht'', hcall', hstart', hphase⟩ := h'
  exact ⟨u, t'', h.trans hu, ht'', hcall'.trans hcall, hstart'.trans hstart, hphase⟩

section Moves
variable {tx : TxId} {w : World} {t : Tx} (ht : w.txs tx = some t)
include ht

theorem Arrives.enter {phase phase' : Phase} (hnext : w.next tx t = some (.enter phase))
    (h : ∀ v, Uninterrupted tx w v → v.txs tx = some { t with phase } →
      Arrives tx v { t with phase } phase') : Arrives tx w t phase' := by
  have hmove := Uninterrupted.move ht hnext
  have htx : (w.apply tx t (.enter phase)).txs tx = some { t with phase } := by
    simp [World.apply, World.setTx]
  exact .of_uninterrupted hmove rfl rfl (h _ hmove htx)

theorem Arrives.lock {id : StepId} {phase phase' : Phase}
    (hnext : w.next tx t = some (.lock id phase))
    (h : ∀ v t', Uninterrupted tx w v → v.txs tx = some t' → t'.call = t.call →
      t'.start = t.start → t'.phase = phase → Arrives tx v t' phase') : Arrives tx w t phase' := by
  have hmove := Uninterrupted.move ht hnext
  let t' : Tx := { t with
    xid := some (w.xidOf t)
    lockedAt := some (t.lockedAt.getD w.clock)
    phase }
  have htx : (w.apply tx t (.lock id phase)).txs tx = some t' := by
    simp [World.apply, World.setTx, t']
  exact .of_uninterrupted hmove rfl rfl (h _ t' hmove htx rfl rfl rfl)

theorem Arrives.here : Arrives tx w t t.phase := ⟨w, t, .refl tx w, ht, rfl, rfl, rfl⟩

end Moves

/-- A `SKIP LOCKED` select takes the first candidates that nobody else holds. -/
theorem arrives_selected {tx : TxId} {w : World} {t : Tx} {scannedAt : Timestamp}
    {candidates : List StepRow} {picked : List Pick} (ht : w.txs tx = some t)
    (hphase : t.phase = .selecting scannedAt candidates picked)
    (hcurrent : ∀ r ∈ candidates, w.steps.find? r.id = some r)
    (hbounded : picked.length ≤ t.call.limit) :
    Arrives tx w t (.selected (picked ++
      ((candidates.filter fun r => !w.heldByOther tx r.id).take (t.call.limit - picked.length)).map
        fun r => ⟨r.id, scannedAt⟩)) := by
  induction candidates generalizing w t picked with
  | nil =>
    have hnext : w.next tx t = some (.enter (.selected picked)) := by
      simp [World.next, hphase]
    refine .enter ht hnext fun v _ hv => ?_
    simpa using Arrives.here hv
  | cons r candidates ih =>
    have hrest : ∀ r' ∈ candidates, w.steps.find? r'.id = some r' := fun r' hr' =>
      hcurrent r' (List.mem_cons_of_mem _ hr')
    by_cases hfull : picked.length = t.call.limit
    · have hnext : w.next tx t = some (.enter (.selected picked)) := by
        simp [World.next, hphase, hfull]
      refine .enter ht hnext fun v _ hv => ?_
      simpa [hfull] using Arrives.here hv
    · cases hheld : w.heldByOther tx r.id with
      | true =>
        have hnext : w.next tx t = some (.enter (.selecting scannedAt candidates picked)) := by
          simp [World.next, hphase, hfull, World.visit, hheld]
        refine .enter ht hnext fun v hv htv => ?_
        have hmeanwhile := hv.meanwhile
        have h := ih htv rfl (by rw [hmeanwhile.steps]; exact hrest) hbounded
        simpa only [hmeanwhile.heldByOther, List.filter_cons, hheld, Bool.not_true,
          Bool.false_eq_true, ↓reduceIte] using h
      | false =>
        have hfind := hcurrent r List.mem_cons_self
        have hnext : w.next tx t =
            some (.lock r.id (.selecting scannedAt candidates (picked ++ [⟨r.id, scannedAt⟩]))) := by
          simp [World.next, hphase, hfull, World.visit, hheld, hfind]
        refine .lock ht hnext fun v t' hv htv hcall hstart hphase' => ?_
        have hmeanwhile := hv.meanwhile
        have hroom : t.call.limit - picked.length =
            (t.call.limit - (picked.length + 1)) + 1 := by omega
        have h := ih htv hphase' (by rw [hmeanwhile.steps]; exact hrest)
          (by rw [hcall, List.length_append, List.length_singleton]; omega)
        simp only [hmeanwhile.heldByOther, hcall, List.length_append, List.length_singleton] at h
        simpa only [hroom, List.filter_cons, hheld, Bool.not_false, ↓reduceIte, List.take_succ_cons,
          List.map_cons, List.append_assoc, List.singleton_append] using h

theorem arrives_done {tx : TxId} {w : World} {t : Tx} {d : Decision} {owed : List NewEvent}
    {inserted : List EventRow} (ht : w.txs tx = some t) (hphase : t.phase = .inserting d owed inserted)
    (hstorable : ∀ e ∈ owed, e.data.storable = true) :
    ∃ rows, rows.map EventRow.toNewEvent = inserted.map EventRow.toNewEvent ++ owed ∧
      Arrives tx w t (.done d rows) := by
  induction owed generalizing w t inserted with
  | nil =>
    have hnext : w.next tx t = some (.enter (.done d inserted)) := by simp [World.next, hphase]
    exact ⟨inserted, by simp, .enter ht hnext fun v _ hv => .here hv⟩
  | cons e owed ih =>
    have hrecord : recordStepEvent e = .ok e :=
      recordStepEvent_eq_ok.mpr ⟨hstorable e List.mem_cons_self, rfl⟩
    have hnext : w.next tx t = some (.insert e d owed inserted) := by
      simp [World.next, hphase, hrecord]
    let row : EventRow := { e with
      id := w.nextEventId
      createdAt := w.clock
      xid := w.xidOf t }
    let t' : Tx := { t with
      xid := some (w.xidOf t)
      phase := .inserting d owed (inserted ++ [row]) }
    have htx : (w.apply tx t (.insert e d owed inserted)).txs tx = some t' := by
      simp [World.apply, World.setTx, t', row]
    obtain ⟨rows, hrows, h⟩ := ih htx rfl fun e' he' => hstorable e' (List.mem_cons_of_mem _ he')
    refine ⟨rows, ?_, .of_uninterrupted (.move ht hnext) rfl rfl h⟩
    rw [hrows]
    simp [row]

/-- The transaction runs to its COMMIT without interruption. -/
def CompletesAlone (tx : TxId) (w w' : World) : Prop :=
  ∃ n, run step w (List.replicate n (.run tx) ++ [.commit tx]) = some w'

/-- What a transaction with this decision leaves behind. -/
structure Completed (tx : TxId) (w : World) (t : Tx) (d : Decision) (w' : World) : Prop where
  nextTx : w'.nextTx = w.nextTx
  steps : w'.steps = w.steps.setAll (d.changes.map Change.after)
  committed : ∃ c : Commit, w'.history = w.history ++ [c] ∧ c.tx = tx ∧ c.call = t.call ∧
    c.start = t.start ∧ c.decision = d ∧ w'.events = w.events ++ c.events ∧
    c.events.map EventRow.toNewEvent = t.call.events d.changes
  txs : ∀ other, other ≠ tx → w'.txs other = w.txs other
  holder : (∀ id, w.holder id ≠ some tx) → w'.holder = w.holder

theorem stuck_of_done {w : World} {tx : TxId} {t : Tx} {d : Decision} {inserted : List EventRow}
    (ht : w.txs tx = some t) (hphase : t.phase = .done d inserted) : step w (.run tx) = none := by
  simp [step, ht, World.next, hphase]

theorem stuck_of_aborted {w : World} {tx : TxId} {t : Tx} {e : DbError} (ht : w.txs tx = some t)
    (hphase : t.phase = .aborted e) : step w (.run tx) = none := by
  simp [step, ht, World.next, hphase]

theorem Uninterrupted.eq_of_stuck {tx : TxId} {w v : World} (h : Uninterrupted tx w v)
    (hstuck : step w (.run tx) = none) : v = w := by
  obtain ⟨n, hn⟩ := h
  cases n with
  | zero => simpa using hn.symm
  | succ n => simp [List.replicate_succ, run_cons, hstuck] at hn

theorem CompletesAlone.done {tx : TxId} {w w' : World} (h : CompletesAlone tx w w') :
    ∃ v t d inserted, Uninterrupted tx w v ∧ v.txs tx = some t ∧ t.phase = .done d inserted ∧
      w' = v.publish tx t d inserted := by
  obtain ⟨n, hn⟩ := h
  obtain ⟨v, hv, hcommit⟩ := (run_concat_eq_some _).mp hn
  generalize haction : Action.commit tx = a at hcommit
  cases step_cases hcommit with
  | commit ht hphase =>
    obtain rfl := Action.commit.inj haction
    exact ⟨v, _, _, _, ⟨n, hv⟩, ht, hphase, rfl⟩
  | tick | start | run | lockRow | fault | rollback => cases haction

theorem completed_of_publish {tx : TxId} {w v : World} {t t' : Tx} {d : Decision}
    {inserted : List EventRow} (hv : Spared tx w v) (hcall : t'.call = t.call)
    (hstart : t'.start = t.start)
    (hwritten : inserted.map EventRow.toNewEvent = t.call.events d.changes) :
    Completed tx w t d (v.publish tx t' d inserted) where
  nextTx := hv.nextTx
  steps := congrArg (fun steps => steps.setAll (d.changes.map Change.after)) hv.steps
  committed := ⟨⟨tx, t'.call, t'.start, t'.lockedAt, d, inserted, v.clock⟩,
    congrArg (· ++ _) hv.history, rfl, hcall, hstart, rfl, congrArg (· ++ _) hv.events, hwritten⟩
  txs other hne := (finish_txs_of_ne v tx hne).trans (hv.txs other hne)
  holder hfree := by
    funext id
    show (if v.holder id = some tx then none else v.holder id) = w.holder id
    cases hheld : w.holder id with
    | some other =>
      have hne : other ≠ tx := fun e => hfree id (by rw [hheld, e])
      rw [(hv.holder id other hne).mpr hheld, if_neg (fun e => hne (Option.some.inj e))]
    | none =>
      split
      · rfl
      · rename_i hne
        cases hv' : v.holder id with
        | none => rfl
        | some other =>
          have hother : other ≠ tx := fun e => hne (by rw [hv', e])
          rw [(hv.holder id other hother).mp hv'] at hheld
          cases hheld

theorem completes_iff_of_arrives {tx : TxId} {w : World} {t : Tx} {d : Decision}
    {inserted : List EventRow} (h : Arrives tx w t (.done d inserted))
    (hwritten : inserted.map EventRow.toNewEvent = t.call.events d.changes) :
    (∃ w', CompletesAlone tx w w') ∧ ∀ w', CompletesAlone tx w w' → Completed tx w t d w' := by
  obtain ⟨v, t', hv, htv, hcall, hstart, hphase⟩ := h
  refine ⟨⟨v.publish tx t' d inserted, ?_⟩, fun w' hw' => ?_⟩
  · obtain ⟨n, hn⟩ := hv
    exact ⟨n, (run_concat_eq_some _).mpr ⟨v, hn, by simp [step, htv, hphase]⟩⟩
  · obtain ⟨u, t'', d', inserted', hu, htu, hphase', rfl⟩ := hw'.done
    have hsame := (hv.of_stuck hu (stuck_of_done htu hphase')).eq_of_stuck (stuck_of_done htv hphase)
    subst hsame
    obtain rfl := Option.some.inj (htv.symm.trans htu)
    obtain ⟨rfl, rfl⟩ := Phase.done.inj (hphase.symm.trans hphase')
    exact completed_of_publish hv.meanwhile.toSpared hcall hstart hwritten

/-- A transaction that arrives at an error never commits. -/
theorem not_completes_of_aborted {tx : TxId} {w : World} {t : Tx} {e : DbError}
    (h : Arrives tx w t (.aborted e)) (w' : World) : ¬ CompletesAlone tx w w' := by
  obtain ⟨v, t', hv, htv, -, -, hphase⟩ := h
  intro hw'
  obtain ⟨u, t'', d, inserted, hu, htu, hphase', -⟩ := hw'.done
  have hsame := (hv.of_stuck hu (stuck_of_done htu hphase')).eq_of_stuck (stuck_of_aborted htv hphase)
  subst hsame
  obtain rfl := Option.some.inj (htv.symm.trans htu)
  rw [hphase] at hphase'
  cases hphase'

namespace World

/-- The candidates that a `SKIP LOCKED` select takes while nothing changes. -/
def takes (w : World) (tx : TxId) (t : Tx) : List StepRow :=
  ((w.candidates t.call t.start).filter fun r => !w.heldByOther tx r.id).take t.call.limit

end World

theorem mem_takes {w : World} {tx : TxId} {t : Tx} {r : StepRow} (h : r ∈ w.takes tx t) :
    r ∈ w.steps.rows ∧ t.call.eligible t.start w.clock r = true ∧
      w.heldByOther tx r.id = false := by
  obtain ⟨hmem, hfree⟩ := List.mem_filter.mp (List.mem_of_mem_take h)
  obtain ⟨hrow, heligible⟩ := mem_candidates.mp hmem
  exact ⟨hrow, heligible, by simpa using hfree⟩

theorem rowsOf_of_current {w : World} {rows : List StepRow} {at' : Timestamp}
    (h : ∀ r ∈ rows, w.steps.find? r.id = some r) :
    w.rowsOf (rows.map fun r => ⟨r.id, at'⟩) = rows.map fun r => (r, at') := by
  induction rows with
  | nil => rfl
  | cons r rows ih =>
    have hrest := ih fun r' hr' => h r' (List.mem_cons_of_mem _ hr')
    rw [World.rowsOf] at hrest ⊢
    simp only [List.map_cons, List.filterMap_cons, h r List.mem_cons_self, Option.map_some, hrest]

def Phase.ofUpdate (call : Call) (instant : Timestamp) : Except DbError (List Change) → Phase
  | .error e => .aborted e
  | .ok changes => .inserting ⟨instant, changes⟩ (call.events changes) []

theorem updateStatement_eq (w : World) (t : Tx) (picked : List Pick) :
    w.updateStatement t picked =
      .enter (.ofUpdate t.call w.clock (t.call.updateAll t.start w.clock (w.rowsOf picked))) := by
  unfold World.updateStatement
  split
  · rename_i hupdate
    rw [hupdate]
    rfl
  · rename_i hupdate
    rw [hupdate]
    rfl

section Select
variable {tx : TxId} {w : World} {t : Tx} (ht : w.txs tx = some t) (hbegun : t.phase = .begun)
  (hcred : t.call.credential? = none) (hcall : t.call ≠ .lockRows)
include ht hbegun hcred hcall

/-- The select and the UPDATE of an uninterrupted call. -/
theorem arrives_updated : Arrives tx w t (.ofUpdate t.call w.clock
    (t.call.updateAll t.start w.clock ((w.takes tx t).map fun r => (r, w.clock)))) := by
  have hscan : w.next tx t =
      some (.enter (.selecting w.clock (w.candidates t.call t.start) [])) := by
    simp only [World.next, hbegun, World.firstStatement]
    rw [hcred]
  refine .enter ht hscan fun v hv htv => ?_
  have hcurrent : ∀ r ∈ w.candidates t.call t.start, v.steps.find? r.id = some r := fun r hr => by
    rw [hv.meanwhile.steps]
    exact Relational.Table.mem_iff_find?.mp (mem_candidates.mp hr).1
  obtain ⟨u, t', hu, htu, hcallu, hstartu, hphaseu⟩ := arrives_selected htv rfl hcurrent (Nat.zero_le _)
  have hmeanwhile := hv.meanwhile.trans hu.meanwhile
  simp only [hv.meanwhile.heldByOther, List.length_nil, Nat.sub_zero, List.nil_append] at hphaseu
  have hrows : u.rowsOf ((w.takes tx t).map fun r => ⟨r.id, w.clock⟩) =
      (w.takes tx t).map fun r => (r, w.clock) := by
    refine rowsOf_of_current fun r hr => ?_
    rw [hmeanwhile.steps]
    exact Relational.Table.mem_iff_find?.mp (mem_takes hr).1
  have hnext : u.next tx t' = some (.enter (.ofUpdate t.call w.clock
      (t.call.updateAll t.start w.clock ((w.takes tx t).map fun r => (r, w.clock))))) := by
    rw [← hrows, World.takes, World.next, hphaseu]
    simp only [updateStatement_eq, hcallu, hstartu, hmeanwhile.clock]
  refine .of_uninterrupted hu hcallu hstartu (.enter htu hnext fun x hx htx => ?_)
  exact .here htx

end Select

/-- The events of a sweep or a claim quote no text. -/
theorem storable_of_no_credential {call : Call} (hcred : call.credential? = none)
    (changes : List Change) : ∀ e ∈ call.events changes, e.data.storable = true := by
  intro e he
  obtain ⟨c, -, hevent⟩ := List.mem_filterMap.mp he
  cases call with
  | claimNextStep | recoverExpiredSteps | promoteDueRetries =>
    obtain rfl := Option.some.inj hevent
    rfl
  | renewStepLease | completeStepSuccess | recordStepFailure => cases hcred
  | lockRows => cases hevent

section Select
variable {tx : TxId} {w : World} {t : Tx} (ht : w.txs tx = some t) (hbegun : t.phase = .begun)
  (hcred : t.call.credential? = none) (hcall : t.call ≠ .lockRows)
include ht hbegun hcred hcall

/-- An uninterrupted claim or sweep commits exactly when its UPDATE raises no error. -/
theorem select_completes {changes : List Change}
    (hupdate : t.call.updateAll t.start w.clock ((w.takes tx t).map fun r => (r, w.clock)) =
      .ok changes) :
    (∃ w', CompletesAlone tx w w') ∧
      ∀ w', CompletesAlone tx w w' → Completed tx w t ⟨w.clock, changes⟩ w' := by
  obtain ⟨v, t', hv, htv, hcallv, hstartv, hphase⟩ := arrives_updated ht hbegun hcred hcall
  rw [hupdate] at hphase
  obtain ⟨rows, hrows, harrives⟩ := arrives_done htv hphase (storable_of_no_credential hcred changes)
  exact completes_iff_of_arrives (.of_uninterrupted hv hcallv hstartv harrives) (by simpa using hrows)

end Select

end DurableRunner.Sessions
