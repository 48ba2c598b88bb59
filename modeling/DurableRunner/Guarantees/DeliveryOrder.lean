import DurableRunner.Events.Listing
import DurableRunner.Sessions.Decisions
import DurableRunner.Sessions.Explained

/-! # The delivery order of one step's events

Events are delivered by `(xid, id)`. A transaction may owe its xid to the lock of
another row, so the row lock alone does not put its events behind those already
committed for the step; the exact point where it goes wrong is singled out here.
-/
namespace DurableRunner.Guarantees
open Schema Operations Sessions TransitionSystem Relational Events

/-- `order by xid asc, id asc`. -/
def deliveryOrder (a b : EventRow) : Prop := a.xid < b.xid ∨ (a.xid = b.xid ∧ a.id ≤ b.id)

def idOrder (a b : EventRow) : Prop := a.id ≤ b.id

instance : DecidableRel deliveryOrder := fun _ _ => inferInstanceAs (Decidable (_ ∨ _))
instance : DecidableRel idOrder := fun _ _ => inferInstanceAs (Decidable (_ ≤ _))

/-- The committed events of one step, in commit order. -/
def committedEvents (w : World) (id : StepId) : List EventRow :=
  w.events.filter fun e => e.stepId = id

def DeliveredInOrder (w : World) (id : StepId) : Prop :=
  (committedEvents w id).insertionSort deliveryOrder = committedEvents w id ∧
    (committedEvents w id).insertionSort idOrder = committedEvents w id

instance (w : World) (id : StepId) : Decidable (DeliveredInOrder w id) :=
  inferInstanceAs (Decidable (_ ∧ _))

/-- The next move picks a row under an xid that is older than an event already
committed for that row. -/
def picksBehind (w : World) : Action → Bool
  | .run tx =>
    (w.txs tx).any fun t =>
      match w.next tx t with
      | some (.lock id phase) =>
        phase.picked.any (fun p => p.id = id) &&
          t.xid.any fun x => w.events.any fun e => e.stepId = id && decide (x < e.xid)
      | _ => false
  | _ => false

abbrev orderlyStep : World → Action → Option World := guarded step fun w a => !picksBehind w a

/-- The rows a transaction has picked or changed. -/
def stakes (phase : Phase) : List StepId :=
  phase.picked.map Pick.id ++ (phase.decision?.map fun d => d.changes.map fun c => c.before.id).getD []

/-- Everything a transaction may still write comes after what is committed. -/
structure Orderly (w : World) (t : Tx) : Prop where
  xid_lt : ∀ x, t.xid = some x → x < w.nextXid
  behind : ∀ id ∈ stakes t.phase, ∀ e ∈ w.events, e.stepId = id → e.xid ≤ w.xidOf t
  own : ∀ e ∈ t.phase.inserted, t.xid = some e.xid ∧ e.id < w.nextEventId
  after : ∀ e' ∈ t.phase.inserted, ∀ e ∈ w.events, e.stepId = e'.stepId →
    e.xid ≤ e'.xid ∧ e.id ≤ e'.id
  sorted : t.phase.inserted.Pairwise fun a b => a.id ≤ b.id

structure AllOrderly (w : World) : Prop where
  xids : ∀ e ∈ w.events, e.xid < w.nextXid
  ids : ∀ e ∈ w.events, e.id < w.nextEventId
  live : ∀ tx t, w.txs tx = some t → Orderly w t
  sorted : ∀ id, (committedEvents w id).Pairwise fun a b => a.xid ≤ b.xid ∧ a.id ≤ b.id

section Counters
variable (w : World) (tx : TxId) (t : Tx) (m : Move)

theorem nextXid_le_apply : w.nextXid ≤ (w.apply tx t m).nextXid := by
  cases m <;> simp only [World.apply, World.setTx, World.assignXid] <;> first | rfl | split <;> omega

theorem nextEventId_le_apply : w.nextEventId ≤ (w.apply tx t m).nextEventId := by
  cases m <;> simp [World.apply, World.setTx, World.assignXid]

theorem xidOf_lt_assign (h : ∀ x, t.xid = some x → x < w.nextXid) :
    w.xidOf t < (w.assignXid t).nextXid := by
  unfold World.xidOf World.assignXid
  cases hxid : t.xid with
  | none => simp
  | some x => simpa using h x hxid

end Counters

/-- Nothing that leaves the committed events alone disturbs a transaction. -/
theorem Orderly.frame {w w' : World} {t : Tx} (h : Orderly w t) (hevents : w'.events = w.events)
    (hxid : w.nextXid ≤ w'.nextXid) (hid : w.nextEventId ≤ w'.nextEventId) : Orderly w' t where
  xid_lt x hx := (h.xid_lt x hx).trans_le hxid
  behind id hmem e he hstep := by
    rw [hevents] at he
    refine (h.behind id hmem e he hstep).trans ?_
    unfold World.xidOf
    cases t.xid with
    | none => exact hxid
    | some x => exact le_refl x
  own e he := ⟨(h.own e he).1, (h.own e he).2.trans_le hid⟩
  after e' he' e he := h.after e' he' e (hevents ▸ he)
  sorted := h.sorted

theorem Orderly.blank {w : World} {t : Tx} (hxid : ∀ x, t.xid = some x → x < w.nextXid)
    (hstakes : stakes t.phase = []) (hinserted : t.phase.inserted = []) : Orderly w t where
  xid_lt := hxid
  behind id hmem := by simp [hstakes] at hmem
  own e he := by simp [hinserted] at he
  after e' he' := by simp [hinserted] at he'
  sorted := by simp [hinserted]

theorem Orderly.enter {w : World} {tx : TxId} {t : Tx} {phase : Phase} (h : Orderly w t)
    (hstakes : ∀ id ∈ stakes phase, id ∈ stakes t.phase)
    (hinserted : phase.inserted = [] ∨ phase.inserted = t.phase.inserted) :
    Orderly (w.apply tx t (.enter phase)) { t with phase } where
  xid_lt := h.xid_lt
  behind id hmem := h.behind id (hstakes id hmem)
  own e he := by
    rcases hinserted with hnil | hsame
    · simp [hnil] at he
    · exact h.own e (hsame ▸ he)
  after e' he' := by
    rcases hinserted with hnil | hsame
    · simp [hnil] at he'
    · exact h.after e' (hsame ▸ he')
  sorted := by
    rcases hinserted with hnil | hsame
    · simp [hnil]
    · exact hsame ▸ h.sorted

/-- Taking a lock fixes the xid; a picked row must not be ahead of it. -/
theorem Orderly.lock {w : World} {tx : TxId} {t : Tx} {id : StepId} {phase : Phase}
    (h : Orderly w t) (hinserted : phase.inserted = [])
    (hstakes : ∀ i ∈ stakes phase, i ∈ stakes t.phase ∨
      ∀ e ∈ w.events, e.stepId = i → e.xid ≤ w.xidOf t) {t' : Tx}
    (ht' : (w.apply tx t (.lock id phase)).txs tx = some t') :
    Orderly (w.apply tx t (.lock id phase)) t' := by
  obtain rfl : _ = t' := by simpa [World.apply, World.setTx] using ht'
  refine ⟨fun x hx => ?_, fun i hi e he hstep => ?_, by simp [hinserted], by simp [hinserted],
    by simp [hinserted]⟩
  · obtain rfl := Option.some.inj hx
    exact xidOf_lt_assign w t h.xid_lt
  · rcases hstakes i hi with hold | hnew
    · exact h.behind i hold e he hstep
    · exact hnew e he hstep

/-- A transaction holds the lock of every row it has a stake in. -/
theorem holder_of_stake {w : World} {tx : TxId} {t : Tx} (h : Explained w tx t) {id : StepId}
    (hid : id ∈ stakes t.phase) : w.holder id = some tx := by
  rcases List.mem_append.mp hid with hid | hid
  · obtain ⟨p, hp, rfl⟩ := List.mem_map.mp hid
    cases hphase : t.phase <;> simp only [hphase, Phase.picked, List.not_mem_nil] at hp
    case selecting =>
      simp only [Explained, hphase] at h
      exact h.2.1.locked p hp
    case selected =>
      simp only [Explained, hphase] at h
      exact h.1.locked p hp
  · cases hd : t.phase.decision? with
    | none => simp [hd] at hid
    | some d =>
      obtain ⟨c, hc, rfl⟩ : ∃ c : Change, c ∈ d.changes ∧ c.before.id = id := by
        simpa [hd] using hid
      exact (h.decided hd).holder_of_change hc

theorem stepId_mem_stakes {w : World} {tx : TxId} {t : Tx} {d : Decision} (h : Explained w tx t)
    (hd : t.phase.decision? = some d) {e : NewEvent} (he : e ∈ t.call.events d.changes) :
    e.stepId ∈ stakes t.phase := by
  obtain ⟨c, hc, hevent⟩ := List.mem_filterMap.mp he
  rw [event_stepId ((h.decided hd).performs.transition hc) hevent]
  refine List.mem_append_right _ ?_
  rw [hd]
  exact List.mem_map_of_mem hc

/-- An inserted event is about a row its transaction has a stake in. -/
theorem stepId_of_inserted {w : World} {tx : TxId} {t : Tx} (h : Explained w tx t) {e : EventRow}
    (he : e ∈ t.phase.inserted) : e.stepId ∈ stakes t.phase := by
  have hmem : e.toNewEvent ∈ t.phase.inserted.map EventRow.toNewEvent := List.mem_map.mpr ⟨e, he, rfl⟩
  cases hphase : t.phase <;> simp only [hphase, Phase.inserted, List.not_mem_nil] at he hmem
  case inserting d owed inserted =>
    have hevents : t.call.events d.changes = inserted.map EventRow.toNewEvent ++ owed := by
      simp only [Explained, hphase] at h
      exact h.2
    rw [← hphase]
    exact stepId_mem_stakes h (by rw [hphase]; rfl) (hevents ▸ List.mem_append_left _ hmem)
  case done d inserted =>
    have hevents : t.call.events d.changes = inserted.map EventRow.toNewEvent := by
      simp only [Explained, hphase] at h
      exact h.2
    rw [← hphase]
    exact stepId_mem_stakes h (by rw [hphase]; rfl) (hevents ▸ hmem)

theorem stakes_of_update {w : World} {t : Tx} {picked : List Pick} {changes : List Change}
    (hupdate : t.call.updateAll t.start w.clock (w.rowsOf picked) = .ok changes) :
    ∀ c ∈ changes, c.before.id ∈ picked.map Pick.id := by
  intro c hc
  have hmem : (c.before, c.checkedAt) ∈ w.rowsOf picked :=
    (Call.updateAll_sublist hupdate).subset (List.mem_map.mpr ⟨c, hc, rfl⟩)
  obtain ⟨p, hp, hfind, -⟩ := mem_rowsOf.mp hmem
  rw [id_of_find? hfind]
  exact List.mem_map_of_mem hp

/-- What a step that does not pick behind guarantees about a picked row. -/
theorem xid_le_of_pick {w : World} {tx : TxId} {t : Tx} {id : StepId} {phase : Phase}
    (hxids : ∀ e ∈ w.events, e.xid < w.nextXid) (hguard : picksBehind w (.run tx) = false)
    (ht : w.txs tx = some t) (hnext : w.next tx t = some (.lock id phase))
    (hpicked : ∃ p ∈ phase.picked, p.id = id) :
    ∀ e ∈ w.events, e.stepId = id → e.xid ≤ w.xidOf t := by
  intro e he hstep
  unfold World.xidOf
  cases hxid : t.xid with
  | none => exact (hxids e he).le
  | some x =>
    have hany : (phase.picked.any fun p => p.id = id) = true := by
      simpa using hpicked
    simp only [picksBehind, ht, Option.any_some, hnext, hany, hxid, Bool.true_and,
      List.any_eq_false] at hguard
    simpa [hstep] using hguard e he

theorem Orderly.move {w : World} {tx : TxId} {t t' : Tx} {m : Move} (h : Orderly w t)
    (hexplained : Explained w tx t) (hxids : ∀ e ∈ w.events, e.xid < w.nextXid)
    (hids : ∀ e ∈ w.events, e.id < w.nextEventId) (hguard : picksBehind w (.run tx) = false)
    (ht : w.txs tx = some t) (hnext : w.next tx t = some m)
    (ht' : (w.apply tx t m).txs tx = some t') : Orderly (w.apply tx t m) t' := by
  cases next_cases hnext with
  | release hphase hcall | missing hphase hcred hfind =>
    obtain rfl := eq_of_enter ht'
    exact h.enter (by simp [stakes, Phase.picked, Phase.decision?]) (.inl rfl)
  | scan hphase hcred hcall =>
    obtain rfl := eq_of_enter ht'
    exact h.enter (by simp [stakes, Phase.picked, Phase.decision?]) (.inl rfl)
  | finishSelect hphase hend | skip hphase hlimit hheld =>
    obtain rfl := eq_of_enter ht'
    exact h.enter (fun id hid => by rw [hphase]; exact hid) (.inl rfl)
  | updateError hphase hupdate | insertError hphase hrecord =>
    obtain rfl := eq_of_enter ht'
    exact h.enter (by simp [stakes, Phase.picked, Phase.decision?]) (.inl rfl)
  | update hphase hupdate =>
    obtain rfl := eq_of_enter ht'
    refine h.enter (fun id hid => ?_) (.inl rfl)
    obtain ⟨c, hc, rfl⟩ : ∃ c : Change, c ∈ _ ∧ c.before.id = id := by
      simpa [stakes, Phase.picked, Phase.decision?] using hid
    rw [hphase]
    exact List.mem_append_left _ (stakes_of_update hupdate c hc)
  | finishInsert hphase =>
    obtain rfl := eq_of_enter ht'
    exact h.enter (fun id hid => by rw [hphase]; exact hid) (.inr (by rw [hphase]; rfl))
  | lockOwner hphase hcred hfind hfree =>
    refine h.lock rfl (fun i hi => .inr ?_) ht'
    obtain rfl : i = _ := by simpa [stakes, Phase.picked, Phase.decision?] using hi
    exact xid_le_of_pick hxids hguard ht hnext ⟨_, List.mem_singleton.mpr rfl, rfl⟩
  | keepLock hphase hlimit hfree hfind hne hcheck =>
    exact h.lock rfl (fun i hi => .inl (by rw [hphase]; exact hi)) ht'
  | @pick scannedAt checkedAt snapshot newest rest picked hphase hlimit hfree hfind hcheck =>
    refine h.lock rfl (fun i hi => ?_) ht'
    rw [hphase]
    simp only [stakes, Phase.picked, Phase.decision?, List.map_append, List.map_cons, List.map_nil,
      Option.map_none, Option.getD_none, List.append_nil, List.mem_append, List.mem_singleton] at hi ⊢
    refine hi.imp_right fun hi => ?_
    rw [hi]
    exact xid_le_of_pick hxids hguard ht hnext
      ⟨⟨snapshot.id, checkedAt⟩, by simp [Phase.picked], rfl⟩
  | @insert d e owed inserted hphase hrecord =>
    obtain rfl := eq_of_insert ht'
    have hstake : e.stepId ∈ stakes t.phase := by
      have hevents : t.call.events d.changes = inserted.map EventRow.toNewEvent ++ e :: owed := by
        simp only [Explained, hphase] at hexplained
        exact hexplained.2
      have hmem : e ∈ t.call.events d.changes := by simp [hevents]
      exact stepId_mem_stakes hexplained (by rw [hphase]; rfl) hmem
    have hown := h.own
    have hafter := h.after
    have hsorted := h.sorted
    rw [hphase] at hown hafter hsorted
    have hxid : ∀ x, t.xid = some x → w.xidOf t = x := fun x hx => by simp [World.xidOf, hx]
    refine ⟨fun x hx => ?_, fun id hid => ?_, fun e' he' => ?_, fun e' he' e'' he'' hstep => ?_, ?_⟩
    · obtain rfl := Option.some.inj hx
      exact xidOf_lt_assign w t h.xid_lt
    · exact h.behind id (by rw [hphase]; exact hid)
    · rcases List.mem_append.mp he' with he' | he'
      · obtain ⟨hx, hlt⟩ := hown e' he'
        exact ⟨by rw [hxid _ hx], Nat.lt_succ_of_lt hlt⟩
      · obtain rfl := List.mem_singleton.mp he'
        exact ⟨rfl, Nat.lt_succ_self _⟩
    · rcases List.mem_append.mp he' with he' | he'
      · exact hafter e' he' e'' he'' hstep
      · obtain rfl := List.mem_singleton.mp he'
        exact ⟨h.behind _ hstake e'' he'' hstep, (hids e'' he'').le⟩
    · refine List.pairwise_append.mpr ⟨hsorted, List.pairwise_singleton _ _, fun a ha b hb => ?_⟩
      obtain rfl := List.mem_singleton.mp hb
      exact (hown a ha).2.le

theorem AllOrderly.apply {w : World} {tx : TxId} {t : Tx} {m : Move} (h : AllOrderly w)
    (hself : ∀ t', (w.apply tx t m).txs tx = some t' → Orderly (w.apply tx t m) t') :
    AllOrderly (w.apply tx t m) where
  xids e he := by
    rw [apply_events] at he
    exact (h.xids e he).trans_le (nextXid_le_apply w tx t m)
  ids e he := by
    rw [apply_events] at he
    exact (h.ids e he).trans_le (nextEventId_le_apply w tx t m)
  live other t' ht' := by
    rcases apply_txs_cases ht' with ⟨rfl, ht'⟩ | ⟨hother, ht'⟩
    · exact hself t' ht'
    · exact (h.live other t' ht').frame (apply_events w tx t m) (nextXid_le_apply w tx t m)
        (nextEventId_le_apply w tx t m)
  sorted id := by
    rw [committedEvents, apply_events]
    exact h.sorted id

/-- COMMIT appends events behind the committed ones of their steps, and nobody
else has a stake in those steps. -/
theorem AllOrderly.publish {w : World} {tx : TxId} {t : Tx} {d : Decision}
    {inserted : List EventRow} (h : AllOrderly w) (hexplained : AllExplained w)
    (ht : w.txs tx = some t) (hphase : t.phase = .done d inserted) :
    AllOrderly (w.publish tx t d inserted) := by
  have hlive := h.live tx t ht
  have hown := hlive.own
  have hafter := hlive.after
  have hsorted := hlive.sorted
  rw [hphase] at hown hafter hsorted
  have hheld : ∀ e ∈ inserted, w.holder e.stepId = some tx := fun e he =>
    holder_of_stake (hexplained tx t ht)
      (stepId_of_inserted (hexplained tx t ht) (by rw [hphase]; exact he))
  refine ⟨fun e he => ?_, fun e he => ?_, fun other t' ht' => ?_, fun id => ?_⟩
  · rcases List.mem_append.mp he with he | he
    · exact h.xids e he
    · exact hlive.xid_lt _ (hown e he).1
  · rcases List.mem_append.mp he with he | he
    · exact h.ids e he
    · exact (hown e he).2
  · obtain ⟨hother, ht'⟩ := finish_txs_cases ht'
    have horderly := h.live other t' ht'
    have hapart : ∀ i ∈ stakes t'.phase, ∀ e ∈ inserted, e.stepId ≠ i := fun i hi e he hstep => by
      have hsame := holder_of_stake (hexplained other t' ht') hi
      rw [← hstep, hheld e he] at hsame
      exact hother (Option.some.inj hsame).symm
    refine ⟨horderly.xid_lt, fun i hi e he hstep => ?_, horderly.own, fun e' he' e he hstep => ?_,
      horderly.sorted⟩
    · rcases List.mem_append.mp he with he | he
      · exact horderly.behind i hi e he hstep
      · exact absurd hstep (hapart i hi e he)
    · rcases List.mem_append.mp he with he | he
      · exact horderly.after e' he' e he hstep
      · exact absurd hstep (hapart _ (stepId_of_inserted (hexplained other t' ht') he') e he)
  · have hfilter : committedEvents (w.publish tx t d inserted) id =
        committedEvents w id ++ inserted.filter fun e => e.stepId = id := List.filter_append _ _
    rw [hfilter]
    refine List.pairwise_append.mpr ⟨h.sorted id, ?_, fun a ha b hb => ?_⟩
    · refine ((hsorted.imp_of_mem fun {a b} ha hb hle => ?_).filter _)
      have hxid := (hown a ha).1.symm.trans (hown b hb).1
      exact ⟨(Option.some.inj hxid).le, hle⟩
    · obtain ⟨ha, haid⟩ := List.mem_filter.mp ha
      obtain ⟨hb, hbid⟩ := List.mem_filter.mp hb
      refine hafter b hb a ha ?_
      rw [of_decide_eq_true haid, of_decide_eq_true hbid]

theorem AllOrderly.step {w w' : World} {a : Action} (h : AllOrderly w) (hexplained : AllExplained w)
    (hstep : orderlyStep w a = some w') : AllOrderly w' := by
  obtain ⟨hguard, hstep⟩ := guarded_eq_some.mp hstep
  have hguard : picksBehind w a = false := by simpa using hguard
  cases a with
  | run tx =>
    obtain ⟨t, ht, hm⟩ := Option.bind_eq_some_iff.mp hstep
    obtain ⟨m, hnext, rfl⟩ := Option.map_eq_some_iff.mp hm
    exact h.apply fun t' ht' =>
      (h.live tx t ht).move (hexplained tx t ht) h.xids h.ids hguard ht hnext ht'
  | tick clock =>
    obtain rfl := Option.some.inj hstep
    exact ⟨h.xids, h.ids, fun tx t ht => (h.live tx t ht).frame rfl (le_refl _) (le_refl _), h.sorted⟩
  | start call =>
    cases step_cases hstep with
    | start _ hadmissible =>
      refine ⟨h.xids, h.ids, fun other t' ht' => ?_, h.sorted⟩
      rcases begin_txs_cases ht' with ⟨rfl, rfl⟩ | ⟨hother, ht⟩
      · exact .blank nofun rfl rfl
      · exact (h.live other t' ht).frame rfl (le_refl _) (le_refl _)
  | lockRow tx id =>
    cases step_cases hstep with
    | lockRow ht hcall hphase hpresent hfree =>
      exact h.apply fun t' ht' => (h.live tx _ ht).lock rfl (by simp [stakes, Phase.picked, Phase.decision?]) ht'
  | fault tx =>
    cases step_cases hstep with
    | fault ht =>
      refine h.apply fun t' ht' => ?_
      obtain rfl := eq_of_enter ht'
      exact (h.live tx _ ht).enter (by simp [stakes, Phase.picked, Phase.decision?]) (.inl rfl)
  | rollback tx =>
    cases step_cases hstep with
    | rollback ht =>
      refine ⟨h.xids, h.ids, fun other t' ht' => ?_, h.sorted⟩
      obtain ⟨hother, ht'⟩ := finish_txs_cases ht'
      exact (h.live other t' ht').frame rfl (le_refl _) (le_refl _)
  | commit tx =>
    cases step_cases hstep with
    | commit ht hphase => exact h.publish hexplained ht hphase

theorem AllOrderly.reaches {w₀ w : World} (h₀ : w₀.Initial) (hnoEvents : w₀.events = [])
    (h : Reaches orderlyStep w₀ w) : AllOrderly w := by
  refine h.rec_tail (motive := AllOrderly) ⟨?_, ?_, ?_, ?_⟩ fun v a v' hreach ih hstep => ?_
  · simp [hnoEvents]
  · simp [hnoEvents]
  · intro tx t ht
    simp [h₀.noTx tx] at ht
  · simp [committedEvents, hnoEvents]
  · exact ih.step (AllExplained.reaches h₀ hreach.of_guarded) hstep

theorem AllOrderly.deliveredInOrder {w : World} (h : AllOrderly w) (id : StepId) :
    DeliveredInOrder w id := by
  have hsorted := h.sorted id
  refine ⟨List.Pairwise.insertionSort_eq (hsorted.imp fun {a b} hle => ?_),
    List.Pairwise.insertionSort_eq (hsorted.imp fun {a b} hle => hle.2)⟩
  rcases hle.1.lt_or_eq with hlt | heq
  · exact .inl hlt
  · exact .inr ⟨heq, hle.2⟩

def quietClaims : List Action :=
  callAlone 0 (.claimNextStep "first" 1) 6 ++ callAlone 1 (.claimNextStep "second" 30000) 6 ++
    [.tick 2000] ++ callAlone 2 .recoverExpiredSteps 6 ++ callAlone 3 (.claimNextStep "third" 1) 6

/-- Transaction 0 gets its xid from the lock of step 1, whose re-check fails. It then
finds step 2, claimed and recovered in the meantime, and claims it a second time. -/
def lateClaim : List Action :=
  [.start (.claimNextStep "late" 30000), .run 0] ++ callAlone 1 (.claimNextStep "first" 30000) 6 ++
    [.run 0] ++ callAlone 2 (.claimNextStep "second" 1) 6 ++ [.tick 2000] ++
    callAlone 3 .recoverExpiredSteps 6 ++
    [.run 0, .run 0, .run 0, .run 0, .run 0, .commit 0]

end DurableRunner.Guarantees
