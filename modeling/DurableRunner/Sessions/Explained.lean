import DurableRunner.Sessions.StepCases

/-! # What the locks guarantee

Whatever a transaction has found out about the rows it holds stays true until
it ends, because every other transaction publishes only rows it holds itself.
-/
namespace DurableRunner.Sessions
open Schema Operations

/-- The rows one execution of a call reads or writes by id. -/
def touched (call : Call) (d : Decision) : List StepId :=
  (call.credential?.map Credential.id).toList ++ d.changes.map fun c => c.before.id

/-- `d` is what one execution of the call does to the given table. -/
structure Performs (steps : StepsTable) (call : Call) (start : Timestamp) (d : Decision) : Prop where
  distinct : (d.changes.map fun c => c.before.id).Nodup
  bounded : d.changes.length ≤ call.limit
  current : ∀ c ∈ d.changes, steps.find? c.before.id = some c.before
  eligible : ∀ c ∈ d.changes, call.eligible start c.checkedAt c.before = true
  updated : ∀ c ∈ d.changes, call.update start d.instant c.before = .ok (some c.after)
  rejected : d.changes = [] → ∀ cred, call.credential? = some cred →
    ∀ r, steps.find? cred.id = some r → call.update start d.instant r = .ok none

/-- Picked rows are locked, present and were eligible when they were judged. -/
structure Picked (w : World) (tx : TxId) (t : Tx) (picked : List Pick) : Prop where
  bounded : picked.length ≤ t.call.limit
  locked : ∀ p ∈ picked, w.holder p.id = some tx
  eligible : ∀ p ∈ picked, ∃ r, w.steps.find? p.id = some r ∧
    t.call.eligible t.start p.checkedAt r = true

/-- A decision that the rows under lock still bear out. -/
structure Decided (w : World) (tx : TxId) (t : Tx) (d : Decision) : Prop where
  performs : Performs w.steps t.call t.start d
  locked : ∀ id ∈ touched t.call d, (w.steps.find? id).isSome → w.holder id = some tx

/-- The state of a transaction is explained by the rows it holds. -/
def Explained (w : World) (tx : TxId) (t : Tx) : Prop :=
  match t.phase with
  | .begun => True
  | .selecting scannedAt candidates picked =>
    t.call.credential? = none ∧ Picked w tx t picked ∧
      (picked.map Pick.id ++ candidates.map fun r => r.id).Nodup ∧
      ∀ r ∈ candidates, t.call.eligible t.start scannedAt r = true
  | .selected picked =>
    Picked w tx t picked ∧ (picked.map Pick.id).Nodup ∧
      ∀ cred, t.call.credential? = some cred → ∃ p ∈ picked, p.id = cred.id
  | .inserting d owed inserted =>
    Decided w tx t d ∧ t.call.events d.changes = inserted.map EventRow.toNewEvent ++ owed
  | .done d inserted =>
    Decided w tx t d ∧ t.call.events d.changes = inserted.map EventRow.toNewEvent
  | .aborted _ => True

def AllExplained (w : World) : Prop := ∀ tx t, w.txs tx = some t → Explained w tx t

/-- What a transaction relies on: its locks, its rows, and that rows stay present. -/
structure Frame (w w' : World) (tx : TxId) : Prop where
  locks : ∀ id, w.holder id = some tx → w'.holder id = some tx
  rows : ∀ id, w.holder id = some tx → w'.steps.find? id = w.steps.find? id
  present : ∀ id, (w'.steps.find? id).isSome = (w.steps.find? id).isSome

theorem Frame.of_steps {w w' : World} {tx : TxId} (hsteps : w'.steps = w.steps)
    (hlocks : ∀ id, w.holder id = some tx → w'.holder id = some tx) : Frame w w' tx where
  locks := hlocks
  rows id _ := by rw [hsteps]
  present id := by rw [hsteps]

theorem Picked.frame {w w' : World} {tx : TxId} {t : Tx} {picked : List Pick}
    (h : Picked w tx t picked) (hf : Frame w w' tx) : Picked w' tx t picked where
  bounded := h.bounded
  locked p hp := hf.locks _ (h.locked p hp)
  eligible p hp := by
    rw [hf.rows _ (h.locked p hp)]
    exact h.eligible p hp

theorem Decided.frame {w w' : World} {tx : TxId} {t : Tx} {d : Decision}
    (h : Decided w tx t d) (hf : Frame w w' tx) : Decided w' tx t d where
  performs :=
    { distinct := h.performs.distinct
      bounded := h.performs.bounded
      current := fun c hc => by
        have hfind := h.performs.current c hc
        have hmem : c.before.id ∈ touched t.call d :=
          List.mem_append_right _ (List.mem_map_of_mem hc)
        rw [hf.rows _ (h.locked _ hmem (by rw [hfind]; rfl)), hfind]
      eligible := h.performs.eligible
      updated := h.performs.updated
      rejected := fun hnil cred hcred r hr => by
        have hmem : cred.id ∈ touched t.call d := by simp [touched, hcred]
        have hpresent : (w.steps.find? cred.id).isSome := by
          rw [← hf.present, hr]; rfl
        rw [hf.rows _ (h.locked _ hmem hpresent)] at hr
        exact h.performs.rejected hnil cred hcred r hr }
  locked id hid hpresent := hf.locks id (h.locked id hid (by rw [← hf.present]; exact hpresent))

theorem Explained.frame {w w' : World} {tx : TxId} {t : Tx} (h : Explained w tx t)
    (hf : Frame w w' tx) : Explained w' tx t := by
  unfold Explained at h ⊢
  cases hphase : t.phase <;> simp only [hphase] at h ⊢
  case selecting => exact ⟨h.1, h.2.1.frame hf, h.2.2⟩
  case selected => exact ⟨h.1.frame hf, h.2⟩
  case inserting => exact ⟨h.1.frame hf, h.2⟩
  case done => exact ⟨h.1.frame hf, h.2⟩

theorem mem_rowsOf {w : World} {picked : List Pick} {p : StepRow × Timestamp} :
    p ∈ w.rowsOf picked ↔ ∃ q ∈ picked, w.steps.find? q.id = some p.1 ∧ q.checkedAt = p.2 := by
  obtain ⟨r, at'⟩ := p
  simp [World.rowsOf, List.mem_filterMap, Option.map_eq_some_iff]

theorem rowsOf_ids_sublist (w : World) (picked : List Pick) :
    ((w.rowsOf picked).map fun p => p.1.id).Sublist (picked.map Pick.id) := by
  induction picked with
  | nil => exact List.Sublist.refl _
  | cons q picked ih =>
    unfold World.rowsOf
    cases hfind : w.steps.find? q.id with
    | none =>
      rw [List.filterMap_cons_none (by rw [hfind]; rfl)]
      exact ih.cons _
    | some r =>
      have hid : r.id = q.id := id_of_find? hfind
      rw [List.filterMap_cons_some (show _ = some (r, q.checkedAt) by rw [hfind]; rfl)]
      simp only [List.map_cons, hid]
      exact ih.cons_cons _

theorem candidates_nodup (w : World) (call : Call) (now : Timestamp) :
    ((w.candidates call now).map fun r => r.id).Nodup := by
  have hperm := (List.perm_insertionSort call.order
    (w.steps.rows.filter fun r => call.eligible now w.clock r)).map fun r : StepRow => r.id
  exact hperm.nodup_iff.mpr ((List.filter_sublist.map _).nodup w.steps.nodup_keys)

theorem mem_candidates {w : World} {call : Call} {now : Timestamp} {r : StepRow} :
    r ∈ w.candidates call now ↔ r ∈ w.steps.rows ∧ call.eligible now w.clock r = true := by
  rw [World.candidates, List.mem_insertionSort, List.mem_filter]

/-- The UPDATE turns picked rows into a decision. -/
theorem Decided.of_update {w : World} {tx : TxId} {t : Tx} {picked : List Pick}
    {changes : List Change} (hpicked : Picked w tx t picked) (hnodup : (picked.map Pick.id).Nodup)
    (hcred : ∀ cred, t.call.credential? = some cred → ∃ p ∈ picked, p.id = cred.id)
    (hupdate : t.call.updateAll t.start w.clock (w.rowsOf picked) = .ok changes) :
    Decided w tx t ⟨w.clock, changes⟩ := by
  have hsub := Call.updateAll_sublist hupdate
  have hids : (changes.map fun c => c.before.id).Sublist (picked.map Pick.id) := by
    have h := hsub.map fun p : StepRow × Timestamp => p.1.id
    rw [List.map_map] at h
    exact h.trans (rowsOf_ids_sublist w picked)
  have hsource : ∀ c ∈ changes, ∃ q ∈ picked, w.steps.find? q.id = some c.before ∧
      q.checkedAt = c.checkedAt := fun c hc =>
    mem_rowsOf.mp (hsub.subset (List.mem_map.mpr ⟨c, hc, rfl⟩))
  refine ⟨⟨hids.nodup hnodup, ?_, ?_, ?_, Call.updateAll_updated hupdate, ?_⟩, ?_⟩
  · have h := hids.length_le
    rw [List.length_map, List.length_map] at h
    exact h.trans hpicked.bounded
  · intro c hc
    obtain ⟨q, -, hfind, -⟩ := hsource c hc
    rw [id_of_find? hfind, hfind]
  · intro c hc
    obtain ⟨q, hq, hfind, hat⟩ := hsource c hc
    obtain ⟨r, hr, helig⟩ := hpicked.eligible q hq
    obtain rfl := Option.some.inj (hfind.symm.trans hr)
    exact hat ▸ helig
  · intro hnil cred hc r hr
    obtain ⟨q, hq, hid⟩ := hcred cred hc
    have hmem : (r, q.checkedAt) ∈ w.rowsOf picked :=
      mem_rowsOf.mpr ⟨q, hq, hid ▸ hr, rfl⟩
    rcases Call.updateAll_unmatched hupdate _ hmem with h | ⟨c, hc, -⟩
    · exact h
    · simp only at hnil
      rw [hnil] at hc
      cases hc
  · intro id hid _
    rcases List.mem_append.mp hid with hid | hid
    · obtain ⟨cred, hc, rfl⟩ : ∃ cred, t.call.credential? = some cred ∧ cred.id = id := by
        simpa using hid
      obtain ⟨q, hq, hqid⟩ := hcred cred hc
      exact hqid ▸ hpicked.locked q hq
    · obtain ⟨c, hc, rfl⟩ := List.mem_map.mp hid
      obtain ⟨q, hq, hfind, -⟩ := hsource c hc
      rw [id_of_find? hfind]
      exact hpicked.locked q hq

theorem Decided.empty {w : World} {tx : TxId} {t : Tx} (instant : Timestamp)
    (h : ∀ cred, t.call.credential? = some cred → w.steps.find? cred.id = none) :
    Decided w tx t ⟨instant, []⟩ where
  performs :=
    { distinct := List.nodup_nil
      bounded := Nat.zero_le _
      current := by simp
      eligible := by simp
      updated := by simp
      rejected := fun _ cred hcred r hr => by simp [h cred hcred] at hr }
  locked id hid hpresent := by
    obtain ⟨cred, hc, rfl⟩ : ∃ cred, t.call.credential? = some cred ∧ cred.id = id := by
      simpa [touched] using hid
    simp [h cred hc] at hpresent

theorem Frame.apply {w : World} {tx other : TxId} {t : Tx} {m : Move}
    (hfree : ∀ id phase, m = .lock id phase → w.heldByOther tx id = false) (h : other ≠ tx) :
    Frame w (w.apply tx t m) other :=
  .of_steps (apply_steps w tx t m) fun _ => (apply_holder_of_ne hfree h).mpr

theorem Frame.apply_self {w : World} {tx : TxId} {t : Tx} {m : Move} :
    Frame w (w.apply tx t m) tx :=
  .of_steps (apply_steps w tx t m) fun _ => apply_holder_self

theorem Frame.finish {w : World} {tx other : TxId} (h : other ≠ tx) :
    Frame w (w.finish tx) other :=
  .of_steps rfl fun _ => (finish_holder w tx h).mpr

theorem Performs.after_id {steps : StepsTable} {call : Call} {start : Timestamp} {d : Decision}
    (h : Performs steps call start d) : ∀ c ∈ d.changes, c.after.id = c.before.id :=
  fun c hc => Call.update_id (h.updated c hc)

theorem Performs.after_ids {steps : StepsTable} {call : Call} {start : Timestamp} {d : Decision}
    (h : Performs steps call start d) :
    (d.changes.map Change.after).map (fun r => r.id) = d.changes.map fun c => c.before.id := by
  rw [List.map_map]
  exact List.map_congr_left h.after_id

/-- COMMIT changes only rows that the committing transaction holds. -/
theorem Frame.publish {w : World} {tx other : TxId} {t : Tx} {d : Decision}
    {inserted : List EventRow} (hd : Decided w tx t d) (h : other ≠ tx) :
    Frame w (w.publish tx t d inserted) other where
  locks _ := (finish_holder w tx h).mpr
  rows id hid := by
    refine Relational.Table.find?_setAll_of_not_mem _ fun hmem => ?_
    rw [hd.performs.after_ids] at hmem
    obtain ⟨c, hc, hcid⟩ := List.mem_map.mp hmem
    have hfind := hd.performs.current c hc
    have hlocked := hd.locked c.before.id (List.mem_append_right _ (List.mem_map_of_mem hc))
      (by rw [hfind]; rfl)
    rw [hcid, hid] at hlocked
    exact h (Option.some.inj hlocked)
  present id := Relational.Table.find?_setAll_isSome _ _ _

theorem Picked.pick {w w' : World} {tx : TxId} {t : Tx} {picked : List Pick}
    (h : Picked w tx t picked) (hf : Frame w w' tx) {p : Pick} {r : StepRow}
    (hlimit : picked.length ≠ t.call.limit) (hlock : w'.holder p.id = some tx)
    (hfind : w'.steps.find? p.id = some r)
    (heligible : t.call.eligible t.start p.checkedAt r = true) :
    Picked w' tx t (picked ++ [p]) where
  bounded := by
    have := h.bounded
    rw [List.length_append, List.length_singleton]
    omega
  locked q hq := by
    rcases List.mem_append.mp hq with hq | hq
    · exact (h.frame hf).locked q hq
    · obtain rfl := List.mem_singleton.mp hq
      exact hlock
  eligible q hq := by
    rcases List.mem_append.mp hq with hq | hq
    · exact (h.frame hf).eligible q hq
    · obtain rfl := List.mem_singleton.mp hq
      exact ⟨r, hfind, heligible⟩

theorem Picked.nil (w : World) (tx : TxId) (t : Tx) : Picked w tx t [] where
  bounded := Nat.zero_le _
  locked := by simp
  eligible := by simp

section OwnMove
variable {w : World} {tx : TxId} {t : Tx}

/-- Entering a phase changes nothing the phase could rest on. -/
theorem Explained.enter {phase : Phase} (h : Explained w tx { t with phase }) :
    Explained (w.apply tx t (.enter phase)) tx { t with phase } :=
  h.frame .apply_self

/-- A move leaves its own transaction explained. -/
theorem Explained.move {m : Move} (h : Explained w tx t) (hm : MoveCase w tx t m) {t' : Tx}
    (ht' : (w.apply tx t m).txs tx = some t') : Explained (w.apply tx t m) tx t' := by
  have hlockSelf (id : StepId) (phase : Phase) :
      (w.apply tx t (.lock id phase)).holder id = some tx := Function.update_self _ _ _
  have hself : Frame w (w.apply tx t m) tx := .apply_self
  cases hm with
  | release hphase hcall =>
    obtain rfl := eq_of_enter ht'
    exact Explained.enter ⟨.empty _ (by simp [hcall, Call.credential?]), by simp [Call.events]⟩
  | missing hphase hcred hfind =>
    obtain rfl := eq_of_enter ht'
    refine Explained.enter ⟨.empty _ fun cred' hc => ?_, by simp [Call.events]⟩
    obtain rfl := Option.some.inj (hcred.symm.trans hc)
    exact hfind
  | @lockOwner hphase cred r hcred hfind hfree =>
    obtain rfl := eq_of_lock ht'
    have hlimit : ([] : List Pick).length ≠ t.call.limit := (Call.limit_pos t.call).ne
    have heligible : t.call.eligible t.start w.clock r = true := by
      simpa [Call.eligible_of_credential hcred] using id_of_find? hfind
    have hpick : Picked _ tx t ([] ++ [⟨cred.id, w.clock⟩]) :=
      (Picked.nil w tx t).pick hself hlimit (hlockSelf _ _) (by simpa using hfind) heligible
    refine ⟨⟨hpick.1, hpick.2, hpick.3⟩, by simp, fun cred' hc => ?_⟩
    obtain rfl := Option.some.inj (hcred.symm.trans hc)
    exact ⟨_, List.mem_singleton.mpr rfl, rfl⟩
  | scan hphase hcred hcall =>
    obtain rfl := eq_of_enter ht'
    refine Explained.enter ⟨hcred, .nil _ _ _, ?_, fun r hr => (mem_candidates.mp hr).2⟩
    simpa using candidates_nodup w t.call t.start
  | finishSelect hphase hend =>
    obtain rfl := eq_of_enter ht'
    simp only [Explained, hphase] at h
    obtain ⟨hcred, hpicked, hnodup, -⟩ := h
    exact Explained.enter ⟨⟨hpicked.1, hpicked.2, hpicked.3⟩, (List.nodup_append.mp hnodup).1,
      fun cred hc => by simp [hcred] at hc⟩
  | skip hphase hlimit hheld =>
    obtain rfl := eq_of_enter ht'
    simp only [Explained, hphase] at h
    obtain ⟨hcred, hpicked, hnodup, hscan⟩ := h
    refine Explained.enter ⟨hcred, ⟨hpicked.1, hpicked.2, hpicked.3⟩, ?_,
      fun r hr => hscan r (List.mem_cons_of_mem _ hr)⟩
    exact hnodup.sublist ((List.sublist_cons_self _ _).append_left _)
  | @pick scannedAt checkedAt snapshot newest rest picked hphase hlimit hfree hfind hcheck =>
    obtain rfl := eq_of_lock ht'
    simp only [Explained, hphase] at h
    obtain ⟨hcred, hpicked, hnodup, hscan⟩ := h
    have heligible : t.call.eligible t.start checkedAt newest = true := by
      rcases hcheck with ⟨rfl, rfl⟩ | ⟨-, rfl, he⟩
      · exact hscan newest List.mem_cons_self
      · exact he
    have hpick : Picked _ tx t (picked ++ [⟨snapshot.id, checkedAt⟩]) :=
      hpicked.pick hself hlimit (hlockSelf _ _) (by simpa using hfind) heligible
    refine ⟨hcred, ⟨hpick.1, hpick.2, hpick.3⟩, ?_,
      fun r hr => hscan r (List.mem_cons_of_mem _ hr)⟩
    simpa using hnodup
  | keepLock hphase hlimit hfree hfind hne hcheck =>
    obtain rfl := eq_of_lock ht'
    simp only [Explained, hphase] at h
    obtain ⟨hcred, hpicked, hnodup, hscan⟩ := h
    have hpicked := hpicked.frame hself
    refine ⟨hcred, ⟨hpicked.1, hpicked.2, hpicked.3⟩, ?_,
      fun r hr => hscan r (List.mem_cons_of_mem _ hr)⟩
    exact hnodup.sublist ((List.sublist_cons_self _ _).append_left _)
  | updateError hphase hupdate =>
    obtain rfl := eq_of_enter ht'
    exact Explained.enter trivial
  | update hphase hupdate =>
    obtain rfl := eq_of_enter ht'
    simp only [Explained, hphase] at h
    have hd := Decided.of_update h.1 h.2.1 h.2.2 hupdate
    exact Explained.enter ⟨⟨hd.1, hd.2⟩, by simp⟩
  | finishInsert hphase =>
    obtain rfl := eq_of_enter ht'
    simp only [Explained, hphase, List.append_nil] at h
    exact Explained.enter ⟨⟨h.1.1, h.1.2⟩, h.2⟩
  | insertError hphase hrecord =>
    obtain rfl := eq_of_enter ht'
    exact Explained.enter trivial
  | insert hphase hrecord =>
    obtain rfl := eq_of_insert ht'
    simp only [Explained, hphase] at h
    have hd := h.1.frame hself
    exact ⟨⟨hd.1, hd.2⟩, by simpa using h.2⟩

end OwnMove

theorem AllExplained.step {w w' : World} {a : Action} (h : AllExplained w)
    (hstep : Sessions.step w a = some w') : AllExplained w' := by
  intro other t' ht'
  cases step_cases hstep with
  | tick clock => exact (h other t' ht').frame (.of_steps rfl fun _ => id)
  | start call hadmissible =>
    rcases begin_txs_cases ht' with ⟨rfl, rfl⟩ | ⟨hother, ht⟩
    · trivial
    · exact (h other t' ht).frame (.of_steps rfl fun _ => id)
  | @run tx t m ht hmove =>
    rcases apply_txs_cases ht' with ⟨rfl, ht'⟩ | ⟨hother, ht'⟩
    · exact (h other t ht).move hmove ht'
    · exact (h other t' ht').frame (.apply (fun _ _ => hmove.lock_free) hother)
  | @lockRow tx t id ht hcall hphase hpresent hfree =>
    rcases apply_txs_cases ht' with ⟨rfl, ht'⟩ | ⟨hother, ht'⟩
    · obtain rfl := eq_of_lock ht'
      trivial
    · refine (h other t' ht').frame (.apply (fun id' phase e => ?_) hother)
      obtain ⟨rfl, -⟩ := Move.lock.inj e
      exact hfree
  | @fault tx t ht =>
    rcases apply_txs_cases ht' with ⟨rfl, ht'⟩ | ⟨hother, ht'⟩
    · obtain rfl := eq_of_enter ht'
      trivial
    · exact (h other t' ht').frame (.apply nofun hother)
  | @rollback tx t ht =>
    obtain ⟨hother, ht'⟩ := finish_txs_cases ht'
    exact (h other t' ht').frame (.finish hother)
  | @commit tx t d inserted ht hphase =>
    obtain ⟨hother, ht⟩ := finish_txs_cases ht'
    have hd := h tx t (by assumption)
    simp only [Explained, hphase] at hd
    exact (h other t' ht).frame (.publish hd.1 hother)

theorem AllExplained.of_initial {w : World} (h : w.Initial) : AllExplained w := by
  intro tx t ht
  simp [h.noTx tx] at ht

/-- Along every run the locks explain every transaction. -/
theorem AllExplained.reaches {w₀ w : World} (h₀ : w₀.Initial)
    (h : TransitionSystem.Reaches Sessions.step w₀ w) : AllExplained w :=
  h.invariant (fun _ _ _ => AllExplained.step) (.of_initial h₀)

end DurableRunner.Sessions
