import DurableRunner.Sessions.World

/-! # What one step can do

Each transition function is inverted once here. Later proofs split on these
cases and never unfold the step function.
-/
namespace DurableRunner.Sessions
open Schema Operations

/-- Every move a transaction can make, with the guard under which it makes it. -/
inductive MoveCase (w : World) (tx : TxId) (t : Tx) : Move → Prop
  | release (hphase : t.phase = .begun) (hcall : t.call = .lockRows) :
      MoveCase w tx t (.enter (.done ⟨w.clock, []⟩ []))
  | missing (hphase : t.phase = .begun) {cred : Credential} (hcred : t.call.credential? = some cred)
      (hfind : w.steps.find? cred.id = none) :
      MoveCase w tx t (.enter (.done ⟨w.clock, []⟩ []))
  | lockOwner (hphase : t.phase = .begun) {cred : Credential} {r : StepRow}
      (hcred : t.call.credential? = some cred) (hfind : w.steps.find? cred.id = some r)
      (hfree : w.heldByOther tx cred.id = false) :
      MoveCase w tx t (.lock cred.id (.selected [⟨cred.id, w.clock⟩]))
  | scan (hphase : t.phase = .begun) (hcred : t.call.credential? = none)
      (hcall : t.call ≠ .lockRows) :
      MoveCase w tx t (.enter (.selecting w.clock (w.candidates t.call t.start) []))
  | finishSelect {scannedAt : Timestamp} {candidates : List StepRow} {picked : List Pick}
      (hphase : t.phase = .selecting scannedAt candidates picked)
      (hend : picked.length = t.call.limit ∨ candidates = []) :
      MoveCase w tx t (.enter (.selected picked))
  | skip {scannedAt : Timestamp} {snapshot : StepRow} {rest : List StepRow} {picked : List Pick}
      (hphase : t.phase = .selecting scannedAt (snapshot :: rest) picked)
      (hlimit : picked.length ≠ t.call.limit)
      (hheld : w.heldByOther tx snapshot.id = true ∨ w.steps.find? snapshot.id = none) :
      MoveCase w tx t (.enter (.selecting scannedAt rest picked))
  | pick {scannedAt checkedAt : Timestamp} {snapshot newest : StepRow} {rest : List StepRow}
      {picked : List Pick} (hphase : t.phase = .selecting scannedAt (snapshot :: rest) picked)
      (hlimit : picked.length ≠ t.call.limit) (hfree : w.heldByOther tx snapshot.id = false)
      (hfind : w.steps.find? snapshot.id = some newest)
      (hcheck : (newest = snapshot ∧ checkedAt = scannedAt) ∨
        (newest ≠ snapshot ∧ checkedAt = w.clock ∧
          t.call.eligible t.start w.clock newest = true)) :
      MoveCase w tx t
        (.lock snapshot.id (.selecting scannedAt rest (picked ++ [⟨snapshot.id, checkedAt⟩])))
  | keepLock {scannedAt : Timestamp} {snapshot newest : StepRow} {rest : List StepRow}
      {picked : List Pick} (hphase : t.phase = .selecting scannedAt (snapshot :: rest) picked)
      (hlimit : picked.length ≠ t.call.limit) (hfree : w.heldByOther tx snapshot.id = false)
      (hfind : w.steps.find? snapshot.id = some newest) (hne : newest ≠ snapshot)
      (hcheck : t.call.eligible t.start w.clock newest = false) :
      MoveCase w tx t (.lock snapshot.id (.selecting scannedAt rest picked))
  | updateError {picked : List Pick} {e : DbError} (hphase : t.phase = .selected picked)
      (hupdate : t.call.updateAll t.start w.clock (w.rowsOf picked) = .error e) :
      MoveCase w tx t (.enter (.aborted e))
  | update {picked : List Pick} {changes : List Change} (hphase : t.phase = .selected picked)
      (hupdate : t.call.updateAll t.start w.clock (w.rowsOf picked) = .ok changes) :
      MoveCase w tx t (.enter (.inserting ⟨w.clock, changes⟩ (t.call.events changes) []))
  | finishInsert {d : Decision} {inserted : List EventRow}
      (hphase : t.phase = .inserting d [] inserted) :
      MoveCase w tx t (.enter (.done d inserted))
  | insertError {d : Decision} {e : NewEvent} {owed : List NewEvent} {inserted : List EventRow}
      {err : DbError} (hphase : t.phase = .inserting d (e :: owed) inserted)
      (hrecord : recordStepEvent e = .error err) :
      MoveCase w tx t (.enter (.aborted err))
  | insert {d : Decision} {e : NewEvent} {owed : List NewEvent} {inserted : List EventRow}
      (hphase : t.phase = .inserting d (e :: owed) inserted)
      (hrecord : recordStepEvent e = .ok e) :
      MoveCase w tx t (.insert e d owed inserted)

private theorem firstStatement_cases {w : World} {tx : TxId} {t : Tx} {m : Move}
    (hphase : t.phase = .begun) (h : w.firstStatement tx t = some m) : MoveCase w tx t m := by
  unfold World.firstStatement at h
  split at h
  · rename_i hcall
    obtain rfl := Option.some.inj h
    exact .release hphase hcall
  · rename_i call hcall
    split at h
    · rename_i hcred
      obtain rfl := Option.some.inj h
      exact .scan hphase hcred hcall
    · rename_i cred hcred
      split at h
      · rename_i hfind
        obtain rfl := Option.some.inj h
        exact .missing hphase hcred hfind
      · rename_i r hfind
        split at h
        · cases h
        · rename_i hfree
          obtain rfl := Option.some.inj h
          exact .lockOwner hphase hcred hfind (Bool.eq_false_iff.mpr hfree)

private theorem visit_cases {w : World} {tx : TxId} {t : Tx} {scannedAt : Timestamp}
    {snapshot : StepRow} {rest : List StepRow} {picked : List Pick}
    (hphase : t.phase = .selecting scannedAt (snapshot :: rest) picked)
    (hlimit : picked.length ≠ t.call.limit) :
    MoveCase w tx t (w.visit tx t scannedAt snapshot rest picked) := by
  unfold World.visit
  split
  · rename_i hheld
    exact .skip hphase hlimit (.inl hheld)
  · rename_i hfree
    have hfree : w.heldByOther tx snapshot.id = false := Bool.eq_false_iff.mpr hfree
    split
    · rename_i hfind
      exact .skip hphase hlimit (.inr hfind)
    · rename_i newest hfind
      split
      · rename_i heq
        exact .pick hphase hlimit hfree hfind (.inl ⟨heq, rfl⟩)
      · rename_i hne
        split
        · rename_i hcheck
          exact .pick hphase hlimit hfree hfind (.inr ⟨hne, rfl, hcheck⟩)
        · rename_i hcheck
          exact .keepLock hphase hlimit hfree hfind hne (Bool.eq_false_iff.mpr hcheck)

theorem next_cases {w : World} {tx : TxId} {t : Tx} {m : Move} (h : w.next tx t = some m) :
    MoveCase w tx t m := by
  unfold World.next at h
  split at h
  · rename_i hphase
    exact firstStatement_cases hphase h
  · rename_i scannedAt candidates picked hphase
    split at h
    · rename_i hlimit
      obtain rfl := Option.some.inj h
      exact .finishSelect hphase (.inl hlimit)
    · rename_i hlimit
      split at h
      · obtain rfl := Option.some.inj h
        exact .finishSelect hphase (.inr rfl)
      · obtain rfl := Option.some.inj h
        exact visit_cases hphase hlimit
  · rename_i picked hphase
    obtain rfl := Option.some.inj h
    unfold World.updateStatement
    split
    · rename_i e hupdate
      exact .updateError hphase hupdate
    · rename_i changes hupdate
      exact .update hphase hupdate
  · rename_i d inserted hphase
    obtain rfl := Option.some.inj h
    exact .finishInsert hphase
  · rename_i d e owed inserted hphase
    split at h
    · rename_i err hrecord
      obtain rfl := Option.some.inj h
      exact .insertError hphase hrecord
    · rename_i event hrecord
      obtain rfl := Option.some.inj h
      obtain rfl : event = e := (recordStepEvent_eq_ok.mp hrecord).2
      exact .insert hphase hrecord
  · cases h
  · cases h

/-- Every step of the database, with the guard under which it happens. -/
inductive StepCase (w : World) : Action → World → Prop
  | tick (clock : Timestamp) : StepCase w (.tick clock) { w with clock }
  | start (call : Call) (hadmissible : call.admissible = true) :
      StepCase w (.start call) (w.begin call)
  | run {tx : TxId} {t : Tx} {m : Move} (ht : w.txs tx = some t) (hmove : MoveCase w tx t m) :
      StepCase w (.run tx) (w.apply tx t m)
  | lockRow {tx : TxId} {t : Tx} {id : StepId} (ht : w.txs tx = some t)
      (hcall : t.call = .lockRows) (hphase : t.phase = .begun)
      (hpresent : (w.steps.find? id).isSome) (hfree : w.heldByOther tx id = false) :
      StepCase w (.lockRow tx id) (w.apply tx t (.lock id .begun))
  | fault {tx : TxId} {t : Tx} (ht : w.txs tx = some t) :
      StepCase w (.fault tx) (w.apply tx t (.enter (.aborted .fault)))
  | rollback {tx : TxId} {t : Tx} (ht : w.txs tx = some t) :
      StepCase w (.rollback tx) (w.finish tx)
  | commit {tx : TxId} {t : Tx} {d : Decision} {inserted : List EventRow}
      (ht : w.txs tx = some t) (hphase : t.phase = .done d inserted) :
      StepCase w (.commit tx) (w.publish tx t d inserted)

theorem step_cases {w w' : World} {a : Action} (h : step w a = some w') : StepCase w a w' := by
  cases a with
  | tick clock =>
    obtain rfl := Option.some.inj h
    exact .tick clock
  | start call =>
    simp only [step] at h
    split at h
    · rename_i hadmissible
      obtain rfl := Option.some.inj h
      exact .start call hadmissible
    · cases h
  | run tx =>
    obtain ⟨t, ht, hm⟩ := Option.bind_eq_some_iff.mp h
    obtain ⟨m, hnext, rfl⟩ := Option.map_eq_some_iff.mp hm
    exact .run ht (next_cases hnext)
  | lockRow tx id =>
    simp only [step] at h
    split at h
    · rename_i start xid lockedAt ht
      split at h
      · rename_i hguard
        obtain rfl := Option.some.inj h
        rw [Bool.and_eq_true] at hguard
        exact .lockRow ht rfl rfl hguard.1 (by simpa using hguard.2)
      · cases h
    · cases h
  | fault tx =>
    obtain ⟨t, ht, rfl⟩ := Option.map_eq_some_iff.mp h
    exact .fault ht
  | rollback tx =>
    obtain ⟨t, ht, rfl⟩ := Option.map_eq_some_iff.mp h
    exact .rollback ht
  | commit tx =>
    obtain ⟨t, ht, hc⟩ := Option.bind_eq_some_iff.mp h
    split at hc
    · rename_i d inserted hphase
      obtain rfl := Option.some.inj hc
      exact .commit ht hphase
    · cases hc

theorem holder_of_free {w : World} {tx other : TxId} {id : StepId}
    (hfree : w.heldByOther tx id = false) (hother : w.holder id = some other) : other = tx := by
  simpa [World.heldByOther, hother] using hfree

theorem heldByOther_iff {w : World} {tx : TxId} {id : StepId} :
    w.heldByOther tx id = true ↔ ∃ other, other ≠ tx ∧ w.holder id = some other := by
  unfold World.heldByOther
  cases w.holder id <;> simp

section Projections
variable (w : World) (tx : TxId) (t : Tx) (m : Move)

@[simp] theorem apply_steps : (w.apply tx t m).steps = w.steps := by cases m <;> rfl
@[simp] theorem apply_events : (w.apply tx t m).events = w.events := by cases m <;> rfl
@[simp] theorem apply_history : (w.apply tx t m).history = w.history := by cases m <;> rfl
@[simp] theorem apply_clock : (w.apply tx t m).clock = w.clock := by cases m <;> rfl
@[simp] theorem apply_nextTx : (w.apply tx t m).nextTx = w.nextTx := by cases m <;> rfl

theorem apply_txs_of_ne {other : TxId} (h : other ≠ tx) :
    (w.apply tx t m).txs other = w.txs other := by
  cases m <;> exact Function.update_of_ne h _ _

@[simp] theorem finish_txs_self : (w.finish tx).txs tx = none := Function.update_self _ _ _

theorem finish_txs_of_ne {other : TxId} (h : other ≠ tx) :
    (w.finish tx).txs other = w.txs other := Function.update_of_ne h _ _

theorem finish_holder {other : TxId} (h : other ≠ tx) {id : StepId} :
    (w.finish tx).holder id = some other ↔ w.holder id = some other := by
  simp only [World.finish]
  split
  · rename_i hself
    simp [hself, Ne.symm h]
  · rfl

end Projections

def Move.phase (w : World) (t : Tx) : Move → Phase
  | .enter phase | .lock _ phase => phase
  | .insert event d owed inserted => .inserting d owed (inserted ++ [{ event with
      id := w.nextEventId
      createdAt := w.clock
      xid := w.xidOf t }])

theorem apply_txs_self (w : World) (tx : TxId) (t : Tx) (m : Move) :
    ∃ t', (w.apply tx t m).txs tx = some t' ∧ t'.call = t.call ∧ t'.start = t.start ∧
      t'.phase = m.phase w t := by
  cases m <;> exact ⟨_, Function.update_self _ _ _, rfl, rfl, rfl⟩

section Inversion
variable {w : World} {tx other : TxId} {t t' : Tx}

theorem apply_txs_cases {m : Move} (h : (w.apply tx t m).txs other = some t') :
    (other = tx ∧ (w.apply tx t m).txs tx = some t') ∨ (other ≠ tx ∧ w.txs other = some t') := by
  by_cases hother : other = tx
  · exact .inl ⟨hother, hother ▸ h⟩
  · exact .inr ⟨hother, (apply_txs_of_ne _ _ _ _ hother).symm.trans h⟩

theorem begin_txs_cases {call : Call} (h : (w.begin call).txs other = some t') :
    (other = w.nextTx ∧ t' = ⟨call, w.clock, none, none, .begun⟩) ∨
      (other ≠ w.nextTx ∧ w.txs other = some t') := by
  by_cases hother : other = w.nextTx
  · subst hother
    obtain rfl : _ = t' := by simpa [World.begin, World.setTx] using h
    exact .inl ⟨rfl, rfl⟩
  · refine .inr ⟨hother, ?_⟩
    simpa [World.begin, World.setTx, Function.update_of_ne hother] using h

theorem finish_txs_cases (h : (w.finish tx).txs other = some t') :
    other ≠ tx ∧ w.txs other = some t' := by
  have hother : other ≠ tx := fun e => by simp [e] at h
  exact ⟨hother, (finish_txs_of_ne _ _ hother).symm.trans h⟩

theorem eq_of_enter {phase : Phase} (h : (w.apply tx t (.enter phase)).txs tx = some t') :
    { t with phase } = t' := by
  simpa [World.apply, World.setTx] using h

theorem eq_of_lock {id : StepId} {phase : Phase}
    (h : (w.apply tx t (.lock id phase)).txs tx = some t') :
    { t with xid := some (w.xidOf t), lockedAt := some (t.lockedAt.getD w.clock), phase } = t' := by
  simpa [World.apply, World.setTx] using h

theorem eq_of_insert {event : NewEvent} {d : Decision} {owed : List NewEvent}
    {inserted : List EventRow} (h : (w.apply tx t (.insert event d owed inserted)).txs tx = some t') :
    { t with
      xid := some (w.xidOf t)
      phase := .inserting d owed (inserted ++ [{ event with
        id := w.nextEventId
        createdAt := w.clock
        xid := w.xidOf t }]) } = t' := by
  simpa [World.apply, World.setTx] using h

end Inversion

/-- Only COMMIT publishes anything. -/
theorem step_unpublished {w w' : World} {a : Action} (h : step w a = some w')
    (ha : ∀ tx, a ≠ .commit tx) :
    w'.steps = w.steps ∧ w'.events = w.events ∧ w'.history = w.history := by
  cases step_cases h with
  | tick clock => exact ⟨rfl, rfl, rfl⟩
  | start call hadmissible => exact ⟨rfl, rfl, rfl⟩
  | run ht hmove => simp
  | lockRow ht hcall hphase hpresent hfree => simp
  | fault ht => simp
  | rollback ht => exact ⟨rfl, rfl, rfl⟩
  | @commit tx t d inserted ht hphase => exact absurd rfl (ha tx)

theorem call_of_apply {w : World} {tx : TxId} {t t' : Tx} {m : Move}
    (h : (w.apply tx t m).txs tx = some t') : t'.call = t.call := by
  cases m <;> (obtain rfl : _ = t' := by simpa [World.apply, World.setTx] using h) <;> rfl

theorem call_of_run {w w' : World} {tx : TxId} {t t' : Tx} (hstep : step w (.run tx) = some w')
    (ht : w.txs tx = some t) (ht' : w'.txs tx = some t') : t'.call = t.call := by
  cases step_cases hstep with
  | run ht'' hmove =>
    obtain rfl := Option.some.inj (ht.symm.trans ht'')
    exact call_of_apply ht'

/-- A move takes at most one lock, and only a free one. -/
theorem apply_holder_of_ne {w : World} {tx other : TxId} {t : Tx} {m : Move}
    (hfree : ∀ id phase, m = .lock id phase → w.heldByOther tx id = false) (h : other ≠ tx)
    {id : StepId} : (w.apply tx t m).holder id = some other ↔ w.holder id = some other := by
  cases m with
  | enter phase => rfl
  | insert e d owed inserted => rfl
  | lock locked phase =>
    simp only [World.apply, Function.update_apply]
    split
    · rename_i hid
      subst hid
      refine ⟨fun e => absurd (Option.some.inj e).symm h, fun e => ?_⟩
      exact absurd (holder_of_free (hfree id phase rfl) e) h
    · rfl

theorem apply_holder_self {w : World} {tx : TxId} {t : Tx} {m : Move} {id : StepId}
    (h : w.holder id = some tx) : (w.apply tx t m).holder id = some tx := by
  cases m with
  | enter phase => exact h
  | insert e d owed inserted => exact h
  | lock locked phase =>
    simp only [World.apply, Function.update_apply]
    split
    · rfl
    · exact h

theorem MoveCase.lock_free {w : World} {tx : TxId} {t : Tx} {m : Move} (h : MoveCase w tx t m)
    {id : StepId} {phase : Phase} (hm : m = .lock id phase) : w.heldByOther tx id = false := by
  cases h <;> cases hm <;> assumption

end DurableRunner.Sessions
