import DurableRunner.Operations.Orders
import DurableRunner.Relational.Selection
import DurableRunner.Sessions.Alone

/-! # A claim or sweep that nobody disturbs

Other transactions may hold locks but do not move; the clock may. Such a call
takes the first free candidates of its snapshot.
-/
namespace DurableRunner.Sessions
open Schema Operations TransitionSystem

/-- The transaction runs to its COMMIT. Besides its moves only the clock moves, over the
given readings. -/
def CommitsUndisturbed (readings : Timestamp → Prop) (tx : TxId) (w w' : World) : Prop :=
  ∃ moves, (∀ a ∈ moves, a = .run tx ∨ ∃ clock, readings clock ∧ a = .tick clock) ∧
    run step w (moves ++ [.commit tx]) = some w'

namespace World

/-- The rows that a select scanning at that time takes. -/
def takesAt (w : World) (tx : TxId) (t : Tx) (scannedAt : Timestamp) : List StepRow :=
  ({ w with clock := scannedAt } : World).takes tx t

end World

theorem mem_takesAt {w : World} {tx : TxId} {t : Tx} {scannedAt : Timestamp} {r : StepRow}
    (h : r ∈ w.takesAt tx t scannedAt) : w.steps.find? r.id = some r :=
  Relational.Table.mem_iff_find?.mp (mem_takes h).1

/-- How far an undisturbed claim or sweep has come: what it has picked and what it will
still pick is what it takes. -/
inductive SelectPhase (readings : Timestamp → Prop) (w : World) (tx : TxId) (t : Tx) : Phase → Prop
  | begun : SelectPhase readings w tx t .begun
  | selecting {scannedAt : Timestamp} {rest : List StepRow} {picked : List Pick}
      (hreading : readings scannedAt) (hbounded : picked.length ≤ t.call.limit)
      (hrest : ∀ r ∈ rest, w.steps.find? r.id = some r)
      (htakes : picked ++ ((rest.filter fun r => !w.heldByOther tx r.id).take
        (t.call.limit - picked.length)).map (fun r => ⟨r.id, scannedAt⟩) =
          (w.takesAt tx t scannedAt).map fun r => ⟨r.id, scannedAt⟩) :
      SelectPhase readings w tx t (.selecting scannedAt rest picked)
  | selected {scannedAt : Timestamp} (hreading : readings scannedAt) :
      SelectPhase readings w tx t
        (.selected ((w.takesAt tx t scannedAt).map fun r => ⟨r.id, scannedAt⟩))
  | inserting {scannedAt : Timestamp} {d : Decision} {owed : List NewEvent}
      {inserted : List EventRow} (hreading : readings scannedAt) (hinstant : readings d.instant)
      (hupdate : t.call.updateAll t.start d.instant
        ((w.takesAt tx t scannedAt).map fun r => (r, scannedAt)) = .ok d.changes)
      (hevents : inserted.map EventRow.toNewEvent ++ owed = t.call.events d.changes) :
      SelectPhase readings w tx t (.inserting d owed inserted)
  | done {scannedAt : Timestamp} {d : Decision} {inserted : List EventRow}
      (hreading : readings scannedAt) (hinstant : readings d.instant)
      (hupdate : t.call.updateAll t.start d.instant
        ((w.takesAt tx t scannedAt).map fun r => (r, scannedAt)) = .ok d.changes)
      (hevents : inserted.map EventRow.toNewEvent = t.call.events d.changes) :
      SelectPhase readings w tx t (.done d inserted)
  | aborted (e : DbError) : SelectPhase readings w tx t (.aborted e)

structure Undisturbed (readings : Timestamp → Prop) (w : World) (tx : TxId) (t : Tx) (v : World) :
    Prop where
  spared : Spared tx w v
  reading : readings v.clock
  phase : ∃ t', v.txs tx = some t' ∧ t'.call = t.call ∧ t'.start = t.start ∧
    SelectPhase readings w tx t t'.phase

section Moves
variable {readings : Timestamp → Prop} {w v : World} {tx : TxId} {t t' : Tx} {m : Move}

variable (hcred : t.call.credential? = none) (hcall : t.call ≠ .lockRows)
include hcred hcall

theorem SelectPhase.next (hspared : Spared tx w v) (hreading : readings v.clock)
    (hcall' : t'.call = t.call) (hstart : t'.start = t.start)
    (h : SelectPhase readings w tx t t'.phase) (hmove : MoveCase v tx t' m) :
    SelectPhase readings w tx t (m.phase v t') := by
  cases hmove with
  | release hphase hrelease => exact absurd (hcall'.symm.trans hrelease) hcall
  | missing hphase howner | lockOwner hphase howner =>
    rw [hcall', hcred] at howner
    cases howner
  | scan hphase =>
    refine .selecting hreading (Nat.zero_le _) (fun r hr => ?_) ?_
    · rw [← hspared.steps]
      exact Relational.Table.mem_iff_find?.mp (mem_candidates.mp hr).1
    · simp only [World.candidates, hcall', hstart, hspared.steps, List.length_nil, Nat.sub_zero,
        List.nil_append]
      rfl
  | @finishSelect scannedAt candidates picked hphase hend =>
    rw [hphase] at h
    cases h with
    | selecting hscan hbounded hrest htakes =>
      have hpicked : picked = (w.takesAt tx t scannedAt).map fun r => ⟨r.id, scannedAt⟩ := by
        rw [← htakes]
        rcases hend with hfull | rfl
        · simp [← hcall', hfull]
        · simp
      rw [Move.phase, hpicked]
      exact .selected hscan
  | @skip scannedAt snapshot rest picked hphase hlimit hheld =>
    rw [hphase] at h
    cases h with
    | selecting hscan hbounded hrest htakes =>
      refine .selecting hscan hbounded (fun r hr => hrest r (List.mem_cons_of_mem _ hr)) ?_
      have hheld' : w.heldByOther tx snapshot.id = true := by
        rcases hheld with hheld | hmissing
        · rwa [← hspared.heldByOther]
        · rw [hspared.steps, hrest snapshot List.mem_cons_self] at hmissing
          cases hmissing
      rwa [List.filter_cons_of_neg (by simp [hheld'])] at htakes
  | @pick scannedAt checkedAt snapshot newest rest picked hphase hlimit hfree hfind hcheck =>
    rw [hphase] at h
    cases h with
    | selecting hscan hbounded hrest htakes =>
      have hnewest : newest = snapshot := by
        rw [hspared.steps, hrest snapshot List.mem_cons_self] at hfind
        exact (Option.some.inj hfind).symm
      obtain ⟨-, rfl⟩ | ⟨hne, -⟩ := hcheck
      · rw [hcall'] at hlimit
        have hroom : t.call.limit - picked.length =
            (t.call.limit - (picked.length + 1)) + 1 := by omega
        have hfree' : (!w.heldByOther tx snapshot.id) = true := by
          rw [← hspared.heldByOther, hfree]
          rfl
        refine .selecting hscan (by rw [List.length_append, List.length_singleton]; omega)
          (fun r hr => hrest r (List.mem_cons_of_mem _ hr)) ?_
        rw [← htakes, List.filter_cons_of_pos (by exact hfree'), hroom, List.take_succ_cons,
          List.map_cons, List.length_append, List.length_singleton, List.append_assoc,
          List.singleton_append]
      · exact absurd hnewest hne
  | @keepLock scannedAt snapshot newest rest picked hphase hlimit hfree hfind hne hcheck =>
    rw [hphase] at h
    cases h with
    | selecting hscan hbounded hrest htakes =>
      rw [hspared.steps, hrest snapshot List.mem_cons_self] at hfind
      exact absurd (Option.some.inj hfind).symm hne
  | updateError => exact .aborted _
  | @update picked changes hphase hupdate =>
    rw [hphase] at h
    cases h with
    | @selected scannedAt hscan =>
      have hrows : v.rowsOf ((w.takesAt tx t scannedAt).map fun r => ⟨r.id, scannedAt⟩) =
          (w.takesAt tx t scannedAt).map fun r => (r, scannedAt) :=
        rowsOf_of_current fun r hr => by rw [hspared.steps, mem_takesAt hr]
      rw [hrows, hcall', hstart] at hupdate
      rw [hcall']
      exact .inserting hscan hreading hupdate rfl
  | finishInsert hphase =>
    rw [hphase] at h
    cases h with
    | inserting hscan hinstant hupdate hevents =>
      exact .done hscan hinstant hupdate (by simpa using hevents)
  | insertError => exact .aborted _
  | insert hphase hrecord =>
    rw [hphase] at h
    cases h with
    | inserting hscan hinstant hupdate hevents =>
      exact .inserting hscan hinstant hupdate (by simpa using hevents)

theorem Undisturbed.step {a : Action} {v' : World} (h : Undisturbed readings w tx t v)
    (ha : a = .run tx ∨ ∃ clock, readings clock ∧ a = .tick clock)
    (hstep : Sessions.step v a = some v') : Undisturbed readings w tx t v' := by
  rcases ha with rfl | ⟨clock, hclock, rfl⟩
  · cases step_cases hstep with
    | run ht hmove =>
      obtain ⟨t', ht', hcall', hstart, hphase⟩ := h.phase
      obtain rfl := Option.some.inj (ht'.symm.trans ht)
      obtain ⟨t'', ht'', hcall'', hstart', hphase'⟩ := apply_txs_self _ _ _ _
      exact ⟨h.spared.trans (.of_apply hmove), by rw [apply_clock]; exact h.reading,
        t'', ht'', hcall''.trans hcall', hstart'.trans hstart,
        hphase' ▸ hphase.next hcred hcall h.spared h.reading hcall' hstart hmove⟩
  · obtain rfl := Option.some.inj hstep
    exact ⟨h.spared.trans ⟨rfl, rfl, rfl, rfl, fun _ _ => rfl, fun _ _ _ => Iff.rfl⟩, hclock, h.phase⟩

/-- What an undisturbed claim or sweep commits. -/
theorem committed_of_undisturbed {w' : World} (ht : w.txs tx = some t) (hbegun : t.phase = .begun)
    (hreading : readings w.clock) (h : CommitsUndisturbed readings tx w w') :
    readings w'.clock ∧ ∃ scannedAt d, readings scannedAt ∧ readings d.instant ∧
      t.call.updateAll t.start d.instant ((w.takesAt tx t scannedAt).map fun r => (r, scannedAt)) =
        .ok d.changes ∧ Completed tx w t d w' := by
  obtain ⟨moves, hmoves, hrun⟩ := h
  obtain ⟨v, hv, hcommit⟩ := (run_concat_eq_some _).mp hrun
  have hundisturbed : Undisturbed readings w tx t v := by
    clear hrun hcommit
    induction moves using List.reverseRecOn generalizing v with
    | nil =>
      obtain rfl := Option.some.inj hv
      exact ⟨.refl tx w, hreading, t, ht, rfl, rfl, hbegun ▸ .begun⟩
    | append_singleton moves a ih =>
      obtain ⟨u, hu, hstep⟩ := (run_concat_eq_some _).mp hv
      have hprevious := ih (fun a ha => hmoves a (List.mem_append_left _ ha)) u hu
      exact hprevious.step hcred hcall (hmoves a (by simp)) hstep
  generalize haction : Action.commit tx = a at hcommit
  cases step_cases hcommit with
  | commit ht' hphase =>
    obtain rfl := Action.commit.inj haction
    obtain ⟨t', htv, hcall', hstart, hselect⟩ := hundisturbed.phase
    obtain rfl := Option.some.inj (htv.symm.trans ht')
    rw [hphase] at hselect
    cases hselect with
    | done hscan hinstant hupdate hevents =>
      exact ⟨hundisturbed.reading, _, _, hscan, hinstant, hupdate,
        completed_of_publish hundisturbed.spared hcall' hstart hevents⟩
  | tick | start | run | lockRow | fault | rollback => cases haction

end Moves

end DurableRunner.Sessions
