import DurableRunner.Events.Listing
import DurableRunner.Sessions.Numbering
import DurableRunner.TransitionSystem.Observers

/-! # The step operations write an event log

Seen through `step_events` alone, every run of the step tables is a run of an
append-only table: a transaction begins with its xid, inserts its events one by
one, and its commit publishes them together. A reader cannot tell the two apart.
-/
namespace DurableRunner.Sessions
open Schema Relational TransitionSystem Events

/-- The transaction is running under this xid. -/
def Holds (w : World) (tx : TxId) (x : ℕ) : Prop := ∃ t, w.txs tx = some t ∧ t.xid = some x

/-- What the log shows of the transactions and the committed events. -/
structure Mirrors (w : World) (l : EventLog) : Prop where
  sound : CommitLog.Sound EventRow.xid EventRow.id l
  nextXid : l.nextXid = w.nextXid
  nextId : l.nextId = w.nextEventId
  running : ∀ x, x ∈ l.running ↔ ∃ tx, Holds w tx x
  apart : ∀ tx tx' x, Holds w tx x → Holds w tx' x → tx = tx'
  pending : ∀ tx t x, w.txs tx = some t → t.xid = some x → (∀ e, t.phase ≠ .aborted e) →
    l.pending.filter (fun r => r.xid = x) = t.phase.inserted
  blank : ∀ tx t, w.txs tx = some t → t.xid = none → t.phase.inserted = []
  committed : l.committed = w.events

/-- An error gives a transaction's rows up; without one they stay. -/
def Keeps (phase phase' : Phase) : Prop :=
  (∃ e, phase' = .aborted e) ∨ (phase'.inserted = phase.inserted ∧ ∀ e, phase ≠ .aborted e)

theorem Keeps.refl (phase : Phase) : Keeps phase phase := by
  cases phase with
  | aborted e => exact .inl ⟨e, rfl⟩
  | _ => exact .inr ⟨rfl, nofun⟩

/-- Only an INSERT adds a row. -/
theorem keeps_of_move {w : World} {tx : TxId} {t : Tx} {m : Move} (h : MoveCase w tx t m) :
    match m with
    | .enter phase => Keeps t.phase phase
    | .lock _ phase => Keeps t.phase phase
    | .insert _ d owed inserted => Keeps t.phase (.inserting d owed inserted) := by
  cases h with
  | updateError hphase hupdate | insertError hphase hrecord => exact .inl ⟨_, rfl⟩
  | release hphase | missing hphase | scan hphase | finishSelect hphase | skip hphase
  | update hphase | finishInsert hphase | lockOwner hphase | pick hphase | keepLock hphase
  | insert hphase =>
    rw [hphase]
    exact .inr ⟨rfl, nofun⟩

section
variable {w w' : World} {l : EventLog} {tx : TxId} {t t' : Tx}

theorem updated_cases (htxs : w'.txs = Function.update w.txs tx (some t')) {other : TxId} {t'' : Tx}
    (h : w'.txs other = some t'') : (other = tx ∧ t'' = t') ∨ (other ≠ tx ∧ w.txs other = some t'') := by
  rw [htxs] at h
  by_cases hother : other = tx
  · subst hother
    rw [Function.update_self] at h
    exact .inl ⟨rfl, (Option.some.inj h).symm⟩
  · rw [Function.update_of_ne hother] at h
    exact .inr ⟨hother, h⟩

theorem holds_of_updated {other : TxId} {x : ℕ}
    (htxs : w'.txs = Function.update w.txs tx (some t')) :
    Holds w' other x ↔ (other = tx ∧ t'.xid = some x) ∨ (other ≠ tx ∧ Holds w other x) := by
  unfold Holds
  rw [htxs]
  by_cases hother : other = tx
  · subst hother
    simp
  · simp [hother]

/-- A transaction begins or moves on, and the log need not know. -/
theorem Mirrors.enter (h : Mirrors w l) (htxs : w'.txs = Function.update w.txs tx (some t'))
    (hxid : ∀ x, t'.xid = some x ↔ Holds w tx x)
    (hpending : ∀ x, t'.xid = some x → (∀ e, t'.phase ≠ .aborted e) →
      l.pending.filter (fun r => r.xid = x) = t'.phase.inserted)
    (hblank : t'.xid = none → t'.phase.inserted = []) (hnextXid : w'.nextXid = w.nextXid)
    (hnextId : w'.nextEventId = w.nextEventId) (hevents : w'.events = w.events) : Mirrors w' l := by
  have hholds : ∀ other x, Holds w' other x ↔ Holds w other x := by
    intro other x
    rw [holds_of_updated htxs, hxid]
    by_cases hother : other = tx
    · simp [hother]
    · simp [hother]
  refine ⟨h.sound, h.nextXid.trans hnextXid.symm, h.nextId.trans hnextId.symm, fun x => ?_,
    fun other other' x => ?_, fun other t'' x ht'' hx hlive => ?_, fun other t'' ht'' hx => ?_,
    h.committed.trans hevents.symm⟩
  · simp only [hholds]
    exact h.running x
  · simp only [hholds]
    exact h.apart other other' x
  · rcases updated_cases htxs ht'' with ⟨rfl, rfl⟩ | ⟨-, hold⟩
    · exact hpending x hx hlive
    · exact h.pending other t'' x hold hx hlive
  · rcases updated_cases htxs ht'' with ⟨rfl, rfl⟩ | ⟨-, hold⟩
    · exact hblank hx
    · exact h.blank other t'' hold hx

theorem Mirrors.update (h : Mirrors w l) (ht : w.txs tx = some t)
    (htxs : w'.txs = Function.update w.txs tx (some t')) (hxid : t'.xid = t.xid)
    (hkeeps : Keeps t.phase t'.phase) (hnextXid : w'.nextXid = w.nextXid)
    (hnextId : w'.nextEventId = w.nextEventId) (hevents : w'.events = w.events) : Mirrors w' l := by
  refine h.enter htxs (fun x => ?_) (fun x hx hlive => ?_) (fun hx => ?_) hnextXid hnextId hevents
  · simp [Holds, ht, hxid]
  · obtain ⟨hsame, hlive'⟩ := hkeeps.resolve_left fun ⟨e, he⟩ => hlive e he
    rw [hsame]
    exact h.pending tx t x ht (hxid ▸ hx) hlive'
  · rcases hkeeps with ⟨e, he⟩ | ⟨hsame, -⟩
    · rw [he]
      rfl
    · rw [hsame, h.blank tx t ht (hxid ▸ hx)]

theorem Mirrors.join (h : Mirrors w l) (hfree : w.txs tx = none)
    (htxs : w'.txs = Function.update w.txs tx (some t')) (hxid : t'.xid = none)
    (hinserted : t'.phase.inserted = []) (hnextXid : w'.nextXid = w.nextXid)
    (hnextId : w'.nextEventId = w.nextEventId) (hevents : w'.events = w.events) : Mirrors w' l := by
  refine h.enter htxs (fun x => ?_) (fun x hx => ?_) (fun _ => hinserted) hnextXid hnextId hevents
  · simp [Holds, hfree, hxid]
  · rw [hxid] at hx
    cases hx

/-- The world in which a transaction has its xid. -/
def World.numbered (w : World) (tx : TxId) (t : Tx) : World :=
  (w.assignXid t).setTx tx (some { t with xid := some (w.xidOf t) })

/-- A transaction that gets its xid begins to write. -/
theorem Mirrors.numbered (h : Mirrors w l) (ht : w.txs tx = some t) :
    ∃ l', Reaches EventLog.write l l' ∧ Mirrors (w.numbered tx t) l' := by
  cases hxid : t.xid with
  | some x =>
    refine ⟨l, .refl l, h.update ht rfl ?_ (Keeps.refl _) ?_ rfl rfl⟩
    · simp [World.xidOf, hxid]
    · simp [World.numbered, World.setTx, World.assignXid, hxid]
  | none =>
    have hnew : w.xidOf t = w.nextXid := by simp [World.xidOf, hxid]
    have hunused : ∀ other, ¬ Holds w other w.nextXid := fun other hheld => by
      have hlt := (h.sound.running _ ((h.running _).mpr ⟨other, hheld⟩)).2
      exact hlt.ne h.nextXid.symm
    have htxs : (w.numbered tx t).txs = Function.update w.txs tx (some { t with xid := w.nextXid }) := by
      rw [← hnew]
      rfl
    have hholds : ∀ other x, Holds (w.numbered tx t) other x ↔
        (other = tx ∧ w.nextXid = x) ∨ Holds w other x := by
      intro other x
      rw [holds_of_updated htxs, Option.some.injEq]
      by_cases hother : other = tx
      · subst hother
        simp [Holds, ht, hxid]
      · simp [hother]
    have hwrite : l.write .begin =
        some { l with nextXid := l.nextXid + 1, running := l.running ++ [l.nextXid] } := rfl
    refine ⟨_, .single hwrite, h.sound.write hwrite, ?_, h.nextId, fun x => ?_,
      fun other other' x hheld hheld' => ?_, fun other t' x ht' hx hlive => ?_,
      fun other t' ht' hx => ?_, h.committed⟩
    · simp [World.numbered, World.setTx, World.assignXid, hxid, h.nextXid]
    · simp only [hholds, List.mem_append, List.mem_singleton, h.running x, h.nextXid]
      constructor
      · rintro (⟨other, hheld⟩ | rfl)
        · exact ⟨other, .inr hheld⟩
        · exact ⟨tx, .inl ⟨rfl, rfl⟩⟩
      · rintro ⟨other, ⟨-, rfl⟩ | hheld⟩
        · exact .inr rfl
        · exact .inl ⟨other, hheld⟩
    · rcases (hholds other x).mp hheld with ⟨rfl, rfl⟩ | hold
      · exact ((hholds other' _).mp hheld').elim (fun e => e.1.symm) fun hold => absurd hold (hunused _)
      · rcases (hholds other' x).mp hheld' with ⟨rfl, rfl⟩ | hold'
        · exact absurd hold (hunused _)
        · exact h.apart other other' x hold hold'
    · rcases updated_cases htxs ht' with ⟨rfl, rfl⟩ | ⟨-, hold⟩
      · obtain rfl := Option.some.inj hx
        rw [h.blank other t ht hxid, List.filter_eq_nil_iff]
        intro r hr
        have hlt := (h.sound.running _ (h.sound.pending r hr).1).2
        simpa using (h.nextXid ▸ hlt).ne
      · exact h.pending other t' x hold hx hlive
    · rcases updated_cases htxs ht' with ⟨rfl, rfl⟩ | ⟨-, hold⟩
      · cases hx
      · exact h.blank other t' hold hx

theorem Mirrors.insert (h : Mirrors w l) (ht : w.txs tx = some t) {row : EventRow}
    (hxid : t.xid = some row.xid) (hlive : ∀ e, t.phase ≠ .aborted e) (hid : row.id = w.nextEventId)
    (hrange : w.nextEventId ≤ maxEventId) (htxs : w'.txs = Function.update w.txs tx (some t'))
    (hxid' : t'.xid = t.xid) (hinserted : t'.phase.inserted = t.phase.inserted ++ [row])
    (hnextXid : w'.nextXid = w.nextXid) (hnextId : w'.nextEventId = w.nextEventId + 1)
    (hevents : w'.events = w.events) : ∃ l', l.write (.insert row) = some l' ∧ Mirrors w' l' := by
  have hrunning : row.xid ∈ l.running := (h.running _).mpr ⟨tx, t, ht, hxid⟩
  have hwrite : l.write (.insert row) =
      some { l with nextId := l.nextId + 1, pending := l.pending ++ [row] } :=
    if_pos ⟨hrunning, hid.trans h.nextId.symm, h.nextId ▸ hrange⟩
  have hholds : ∀ other x, Holds w' other x ↔ Holds w other x := by
    intro other x
    rw [holds_of_updated htxs]
    by_cases hother : other = tx
    · subst hother
      simp [Holds, ht, hxid']
    · simp [hother]
  refine ⟨_, hwrite, h.sound.write hwrite, h.nextXid.trans hnextXid.symm, ?_, fun x => ?_,
    fun other other' x => ?_, fun other t'' x ht'' hx hlive' => ?_, fun other t'' ht'' hx => ?_,
    h.committed.trans hevents.symm⟩
  · rw [hnextId, ← h.nextId]
  · simp only [hholds]
    exact h.running x
  · simp only [hholds]
    exact h.apart other other' x
  · rw [List.filter_append]
    rcases updated_cases htxs ht'' with ⟨rfl, rfl⟩ | ⟨hother, hold⟩
    · rw [hxid'] at hx
      obtain rfl := Option.some.inj (hxid.symm.trans hx)
      rw [hinserted, h.pending other t _ ht hx hlive]
      simp
    · have hne : row.xid ≠ x := fun e =>
        hother (h.apart other tx x ⟨t'', hold, hx⟩ ⟨t, ht, e ▸ hxid⟩)
      rw [h.pending other t'' x hold hx hlive']
      simp [hne]
  · rcases updated_cases htxs ht'' with ⟨rfl, rfl⟩ | ⟨-, hold⟩
    · rw [hxid', hxid] at hx
      cases hx
    · exact h.blank other t'' hold hx

theorem holds_of_ended {other : TxId} {x : ℕ} (htxs : w'.txs = Function.update w.txs tx none) :
    Holds w' other x ↔ other ≠ tx ∧ Holds w other x := by
  unfold Holds
  rw [htxs]
  by_cases hother : other = tx
  · subst hother
    simp
  · simp [hother]

theorem filter_pending_of_ne {x y : ℕ} (hne : y ≠ x) (rows : List EventRow) :
    (rows.filter fun r => r.xid ≠ x).filter (fun r => r.xid = y) =
      rows.filter fun r => r.xid = y := by
  rw [List.filter_filter]
  refine List.filter_congr fun r _ => ?_
  by_cases hr : r.xid = y <;> simp [hr, hne]

/-- The end of a transaction, with the rows it publishes. -/
theorem Mirrors.finish (h : Mirrors w l) (ht : w.txs tx = some t)
    (htxs : w'.txs = Function.update w.txs tx none) (hnextXid : w'.nextXid = w.nextXid)
    (hnextId : w'.nextEventId = w.nextEventId)
    (hevents : w'.events = w.events ∨
      ((∀ e, t.phase ≠ .aborted e) ∧ w'.events = w.events ++ t.phase.inserted)) :
    ∃ l', Reaches EventLog.write l l' ∧ Mirrors w' l' := by
  have hothers : ∀ other t', w'.txs other = some t' → other ≠ tx ∧ w.txs other = some t' := by
    intro other t' ht'
    rw [htxs] at ht'
    by_cases hother : other = tx
    · subst hother
      simp at ht'
    · rw [Function.update_of_ne hother] at ht'
      exact ⟨hother, ht'⟩
  have hblank : ∀ other t', w'.txs other = some t' → t'.xid = none → t'.phase.inserted = [] :=
    fun other t' ht' => h.blank other t' (hothers other t' ht').2
  have happart : ∀ other other' x, Holds w' other x → Holds w' other' x → other = other' := by
    simp only [holds_of_ended htxs]
    exact fun other other' x hheld hheld' => h.apart other other' x hheld.2 hheld'.2
  cases hxid : t.xid with
  | none =>
    have hinserted := h.blank tx t ht hxid
    refine ⟨l, .refl l, h.sound, h.nextXid.trans hnextXid.symm, h.nextId.trans hnextId.symm,
      fun x => ?_, happart, fun other t' x ht' => h.pending other t' x (hothers other t' ht').2,
      hblank, ?_⟩
    · rw [h.running x]
      refine exists_congr fun other => ?_
      rw [holds_of_ended htxs, and_iff_right_of_imp]
      rintro ⟨t', ht', hx⟩ rfl
      obtain rfl := Option.some.inj (ht.symm.trans ht')
      rw [hxid] at hx
      cases hx
    · rcases hevents with hsame | ⟨-, hpublished⟩
      · rw [hsame, h.committed]
      · rw [hpublished, hinserted, List.append_nil, h.committed]
  | some x =>
    have hrunning : x ∈ l.running := (h.running x).mpr ⟨tx, t, ht, hxid⟩
    have hrun : ∀ y, y ∈ l.running.filter (· ≠ x) ↔ ∃ other, Holds w' other y := by
      intro y
      simp only [List.mem_filter, h.running y, holds_of_ended htxs, decide_eq_true_eq]
      constructor
      · rintro ⟨⟨other, hheld⟩, hne⟩
        refine ⟨other, fun e => hne ?_, hheld⟩
        obtain ⟨t', ht', hy⟩ := hheld
        rw [e, ht] at ht'
        obtain rfl := Option.some.inj ht'
        exact Option.some.inj (hy.symm.trans hxid)
      · rintro ⟨other, hother, hheld⟩
        refine ⟨⟨other, hheld⟩, fun e => hother ?_⟩
        exact h.apart other tx x (e ▸ hheld) ⟨t, ht, hxid⟩
    have hpending : ∀ other t' y, w'.txs other = some t' → t'.xid = some y →
        (∀ e, t'.phase ≠ .aborted e) →
          (l.pending.filter (fun r => r.xid ≠ x)).filter (fun r => r.xid = y) = t'.phase.inserted := by
      intro other t' y ht' hy hlive
      obtain ⟨hother, ht'⟩ := hothers other t' ht'
      have hne : y ≠ x := fun e => hother (h.apart other tx x ⟨t', ht', e ▸ hy⟩ ⟨t, ht, hxid⟩)
      rw [filter_pending_of_ne hne]
      exact h.pending other t' y ht' hy hlive
    rcases hevents with hsame | ⟨hlive, hpublished⟩
    · have hwrite : l.write (.abort x) = some _ := if_pos hrunning
      exact ⟨_, .single hwrite, h.sound.write hwrite, h.nextXid.trans hnextXid.symm,
        h.nextId.trans hnextId.symm, hrun, happart, hpending, hblank,
        h.committed.trans hsame.symm⟩
    · have hwrite : l.write (.commit x) = some _ := if_pos hrunning
      refine ⟨_, .single hwrite, h.sound.write hwrite, h.nextXid.trans hnextXid.symm,
        h.nextId.trans hnextId.symm, hrun, happart, hpending, hblank, ?_⟩
      rw [hpublished, ← h.committed, ← h.pending tx t x ht hxid hlive]

theorem Mirrors.lock (h : Mirrors w l) (ht : w.txs tx = some t) {id : StepId} {phase : Phase}
    (hkeeps : Keeps t.phase phase) :
    ∃ l', Reaches EventLog.write l l' ∧ Mirrors (w.apply tx t (.lock id phase)) l' := by
  obtain ⟨l', hl', hnumbered⟩ := h.numbered ht
  have ht' : (w.numbered tx t).txs tx = some { t with xid := some (w.xidOf t) } :=
    Function.update_self _ _ _
  exact ⟨l', hl', hnumbered.update ht' (Function.update_idem _ _ _).symm rfl hkeeps rfl rfl rfl⟩

/-- A move of a transaction is nothing to the log, or its BEGIN, its INSERT, or both. -/
theorem Mirrors.move (h : Mirrors w l) (ht : w.txs tx = some t) {m : Move}
    (hmove : MoveCase w tx t m) (hrange : (w.apply tx t m).nextEventId ≤ maxEventId + 1) :
    ∃ l', Reaches EventLog.write l l' ∧ Mirrors (w.apply tx t m) l' := by
  have hkeeps := keeps_of_move hmove
  cases m with
  | enter phase => exact ⟨l, .refl l, h.update ht rfl rfl hkeeps rfl rfl rfl⟩
  | lock id phase => exact h.lock ht hkeeps
  | insert event d owed inserted =>
    obtain ⟨hsame, hlive⟩ := hkeeps.resolve_left fun ⟨e, he⟩ => nomatch he
    obtain ⟨l₁, hl₁, hnumbered⟩ := h.numbered ht
    have ht' : (w.numbered tx t).txs tx = some { t with xid := some (w.xidOf t) } :=
      Function.update_self _ _ _
    let row : EventRow := { event with id := w.nextEventId, createdAt := w.clock, xid := w.xidOf t }
    have htxs : (w.apply tx t (.insert event d owed inserted)).txs =
        Function.update (w.numbered tx t).txs tx (some { t with
          xid := some (w.xidOf t)
          phase := .inserting d owed (inserted ++ [row]) }) := (Function.update_idem _ _ _).symm
    have hadds : inserted ++ [row] = t.phase.inserted ++ [row] := congrArg (· ++ [row]) hsame
    obtain ⟨l₂, hl₂, hmirrors⟩ := hnumbered.insert ht' rfl hlive rfl
      (Nat.le_of_succ_le_succ hrange) htxs rfl hadds rfl rfl rfl
    exact ⟨l₂, hl₁.tail hl₂, hmirrors⟩

theorem Mirrors.step (h : Mirrors w l) (hnumbered : Numbered w) {a : Action}
    (hstep : Sessions.step w a = some w') (hrange : w'.nextEventId ≤ maxEventId + 1) :
    ∃ l', Reaches EventLog.write l l' ∧ Mirrors w' l' := by
  cases step_cases hstep with
  | tick clock =>
    exact ⟨l, .refl l, h.sound, h.nextXid, h.nextId, h.running, h.apart, h.pending, h.blank,
      h.committed⟩
  | start call hadmissible =>
    have hfree : w.txs w.nextTx = none := by
      cases htx : w.txs w.nextTx with
      | none => rfl
      | some t => exact absurd (hnumbered.live _ (by simp [htx])).1 (lt_irrefl _)
    exact ⟨l, .refl l, h.join hfree rfl rfl rfl rfl rfl rfl⟩
  | run ht hmove => exact h.move ht hmove hrange
  | lockRow ht hcall hphase hpresent hfree =>
    refine h.lock ht ?_
    rw [hphase]
    exact .refl _
  | fault ht => exact ⟨l, .refl l, h.update ht rfl rfl (.inl ⟨_, rfl⟩) rfl rfl rfl⟩
  | rollback ht => exact h.finish ht rfl rfl rfl (.inl rfl)
  | commit ht hphase =>
    refine h.finish ht rfl rfl rfl (.inr ⟨?_, ?_⟩) <;> rw [hphase]
    · exact nofun
    · rfl

end

theorem nextEventId_le_of_step {w w' : World} {a : Action} (h : step w a = some w') :
    w.nextEventId ≤ w'.nextEventId := by
  have happly : ∀ {tx t m}, w.nextEventId ≤ (w.apply tx t m).nextEventId := fun {tx t m} => by
    cases m <;> simp [World.apply, World.setTx, World.assignXid]
  cases step_cases h with
  | run ht hmove => exact happly
  | lockRow ht hcall hphase hpresent hfree => exact happly
  | fault ht => exact happly
  | _ => exact le_rfl

theorem Mirrors.opening (steps : StepsTable) (clock : Timestamp) :
    Mirrors (.opening steps clock) .migrated where
  sound := .empty _ _ (by decide)
  nextXid := rfl
  nextId := rfl
  running x := ⟨nofun, fun ⟨_, _, ht, _⟩ => nomatch ht⟩
  apart _ _ _ := fun ⟨_, ht, _⟩ => nomatch ht
  pending _ _ _ := nofun
  blank _ _ := nofun
  committed := rfl

/-- The `step_events` table of a world, with the transactions that write it. -/
def World.eventLog (w : World) : EventLog where
  nextXid := w.nextXid
  nextId := w.nextEventId
  running := (List.range w.nextTx).filterMap fun tx => (w.txs tx).bind Tx.xid
  pending := (List.range w.nextTx).flatMap fun tx => (w.txs tx).elim [] fun t => t.phase.inserted
  committed := w.events

theorem mem_running_eventLog {w : World} (h : Numbered w) {x : ℕ} :
    x ∈ w.eventLog.running ↔ ∃ tx, Holds w tx x := by
  simp only [World.eventLog, List.mem_filterMap, List.mem_range, Option.bind_eq_some_iff, Holds]
  refine ⟨fun ⟨tx, _, hx⟩ => ⟨tx, hx⟩, fun ⟨tx, t, ht, hx⟩ => ⟨tx, ?_, t, ht, hx⟩⟩
  exact (h.live tx (by simp [ht])).1

/-- A log that mirrors the world shows readers what the world's own table shows them. -/
theorem Mirrors.sameSnapshot {w : World} {l : EventLog} (h : Mirrors w l) (hnumbered : Numbered w) :
    SameSnapshot w.eventLog l := by
  refine ⟨h.committed.symm, eq_of_forall_lt_iff fun x => ?_⟩
  have hnext : w.eventLog.nextXid = l.nextXid := h.nextXid.symm
  simp only [CommitLog.lt_xmin_iff, hnext, mem_running_eventLog hnumbered, h.running]

section Observed
variable {Look Notes : Type*} {look : EventLog → Notes → Look → Option Notes}

/-- The step tables, with a reader of their events. -/
abbrev watched (step : World → Action → Option World) (look : EventLog → Notes → Look → Option Notes) :
    World × Notes → Action ⊕ Look → Option (World × Notes) :=
  observed step fun w => look w.eventLog

/-- Whatever is read of the step tables is read of the event log in a run that commits the same
events, as long as the id sequence lasts. -/
theorem Mirrors.watched {l : EventLog} {s t : World × Notes}
    (hlook : ∀ table table', SameSnapshot table table' → look table = look table')
    (hmirrors : Mirrors s.1 l) (hnumbered : Numbered s.1)
    (h : Reaches (Sessions.watched Sessions.step look) s t) (hrange : t.1.nextEventId ≤ maxEventId + 1) :
    ∃ l', Reaches (observed EventLog.write look) (l, s.2) (l', t.2) ∧ Mirrors t.1 l' := by
  have hmatched : ∀ w a w' l, Numbered w ∧ Mirrors w l → Sessions.step w a = some w' →
      w'.nextEventId ≤ maxEventId + 1 →
      ∃ l', Reaches EventLog.write l l' ∧ Numbered w' ∧ Mirrors w' l' := by
    rintro w a w' l ⟨hnumbered, hmirrors⟩ hstep hgood
    obtain ⟨l', hl', hmirrors'⟩ := hmirrors.step hnumbered hstep hgood
    exact ⟨l', hl', hnumbered.step hstep, hmirrors'⟩
  obtain ⟨l', hl', -, hmirrors'⟩ := h.observed (fun w => w.nextEventId ≤ maxEventId + 1)
    (fun _ _ _ hstep => (nextEventId_le_of_step hstep).trans) hmatched
    (fun w l hw => hlook _ _ (hw.2.sameSnapshot hw.1)) hrange ⟨hnumbered, hmirrors⟩
  exact ⟨l', hl', hmirrors'⟩

end Observed

end DurableRunner.Sessions
