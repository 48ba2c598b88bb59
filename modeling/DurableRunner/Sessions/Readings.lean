import DurableRunner.Sessions.Explained

/-! # Clock readings are taken from the run

Whatever clock value a transaction judged a row by was the database clock at a
moment at which the transaction was open.
-/
namespace DurableRunner.Sessions
open Schema Operations TransitionSystem

/-- The clock values a transaction has judged rows by. -/
def Phase.readings : Phase → List Timestamp
  | .selecting scannedAt _ picked => scannedAt :: picked.map Pick.checkedAt
  | .selected picked => picked.map Pick.checkedAt
  | .inserting d _ _ | .done d _ => d.changes.map Change.checkedAt
  | .begun | .aborted _ => []

/-- The database clock showed this value at a moment at which the transaction was open. -/
def Sampled (w₀ : World) (as : List Action) (tx : TxId) (reading : Timestamp) : Prop :=
  ∃ as₁ as₂ u, as = as₁ ++ as₂ ∧ run step w₀ as₁ = some u ∧ (u.txs tx).isSome ∧
    u.clock = reading

theorem Sampled.append {w₀ : World} {as bs : List Action} {tx : TxId} {reading : Timestamp}
    (h : Sampled w₀ as tx reading) : Sampled w₀ (as ++ bs) tx reading := by
  obtain ⟨as₁, as₂, u, rfl, hrun, hlive, hclock⟩ := h
  exact ⟨as₁, as₂ ++ bs, u, by simp, hrun, hlive, hclock⟩

theorem reading_now_or_before {w : World} {tx : TxId} {t t' : Tx} {m : Move}
    (hm : MoveCase w tx t m) (ht' : (w.apply tx t m).txs tx = some t') :
    ∀ x ∈ t'.phase.readings, x ∈ t.phase.readings ∨ x = w.clock := by
  intro x hx
  cases hm with
  | release | missing | updateError | insertError =>
    obtain rfl := eq_of_enter ht'
    cases hx
  | lockOwner hphase hcred hfind hfree =>
    obtain rfl := eq_of_lock ht'
    exact .inr (List.mem_singleton.mp hx)
  | scan hphase hcred hcall =>
    obtain rfl := eq_of_enter ht'
    exact .inr (List.mem_singleton.mp hx)
  | finishSelect hphase hend =>
    obtain rfl := eq_of_enter ht'
    rw [hphase]
    exact .inl (List.mem_cons_of_mem _ hx)
  | skip hphase hlimit hheld =>
    obtain rfl := eq_of_enter ht'
    rw [hphase]
    exact .inl hx
  | @pick scannedAt checkedAt snapshot newest rest picked hphase hlimit hfree hfind hcheck =>
    obtain rfl := eq_of_lock ht'
    rw [hphase]
    simp only [Phase.readings, List.map_append, List.map_singleton, List.mem_cons, List.mem_append,
      List.not_mem_nil, or_false] at hx ⊢
    rcases hx with hx | hx | hx
    · exact .inl (.inl hx)
    · exact .inl (.inr hx)
    · rcases hcheck with ⟨-, rfl⟩ | ⟨-, rfl, -⟩
      · exact .inl (.inl hx)
      · exact .inr hx
  | keepLock hphase hlimit hfree hfind hne hcheck =>
    obtain rfl := eq_of_lock ht'
    rw [hphase]
    exact .inl hx
  | @update picked changes hphase hupdate =>
    obtain rfl := eq_of_enter ht'
    obtain ⟨c, hc, rfl⟩ := List.mem_map.mp hx
    have hmem : (c.before, c.checkedAt) ∈ w.rowsOf picked :=
      (Call.updateAll_sublist hupdate).subset (List.mem_map.mpr ⟨c, hc, rfl⟩)
    obtain ⟨p, hp, -, hreading⟩ := mem_rowsOf.mp hmem
    rw [hphase]
    exact .inl (List.mem_map.mpr ⟨p, hp, hreading⟩)
  | finishInsert hphase =>
    obtain rfl := eq_of_enter ht'
    rw [hphase]
    exact .inl hx
  | insert hphase hrecord =>
    obtain rfl := eq_of_insert ht'
    rw [hphase]
    exact .inl hx

/-- Every reading of an open transaction comes from the run. -/
theorem sampled_of_run {w₀ w : World} (h₀ : w₀.Initial) {as : List Action}
    (hrun : run step w₀ as = some w) :
    ∀ tx t, w.txs tx = some t → ∀ x ∈ t.phase.readings, Sampled w₀ as tx x := by
  induction as using List.reverseRecOn generalizing w with
  | nil =>
    obtain rfl : w₀ = w := by simpa using hrun
    intro tx t ht
    simp [h₀.noTx tx] at ht
  | append_singleton as a ih =>
    obtain ⟨v, hv, hstep⟩ := (run_concat_eq_some _).mp hrun
    intro other t' ht' x hx
    cases step_cases hstep with
    | tick clock => exact (ih hv other t' ht' x hx).append
    | start call hadmissible =>
      rcases begin_txs_cases ht' with ⟨rfl, rfl⟩ | ⟨-, ht⟩
      · cases hx
      · exact (ih hv other t' ht x hx).append
    | @run tx t m ht hmove =>
      rcases apply_txs_cases ht' with ⟨rfl, ht'⟩ | ⟨-, ht'⟩
      · rcases reading_now_or_before hmove ht' x hx with hold | rfl
        · exact (ih hv other t ht x hold).append
        · exact ⟨as, _, v, rfl, hv, by rw [ht]; rfl, rfl⟩
      · exact (ih hv other t' ht' x hx).append
    | @lockRow tx t id ht hcall hphase hpresent hfree =>
      rcases apply_txs_cases ht' with ⟨rfl, ht'⟩ | ⟨-, ht'⟩
      · obtain rfl := eq_of_lock ht'
        cases hx
      · exact (ih hv other t' ht' x hx).append
    | @fault tx t ht =>
      rcases apply_txs_cases ht' with ⟨rfl, ht'⟩ | ⟨-, ht'⟩
      · obtain rfl := eq_of_enter ht'
        cases hx
      · exact (ih hv other t' ht' x hx).append
    | rollback ht | commit ht hphase =>
      exact (ih hv other t' (finish_txs_cases ht').2 x hx).append

theorem clock_le_of_forwardStep {w w' : World} {a : Action} (h : forwardStep w a = some w') :
    w.clock ≤ w'.clock := by
  obtain ⟨hforward, hstep⟩ := guarded_eq_some.mp h
  cases step_cases hstep with
  | tick clock => simpa [movesForward] using hforward
  | start call hadmissible => exact le_refl _
  | run ht hmove => rw [apply_clock]
  | lockRow ht hcall hphase hpresent hfree => rw [apply_clock]
  | fault ht => rw [apply_clock]
  | rollback ht => exact le_refl _
  | commit ht hphase => exact le_refl _

/-- In a forward run no reading lies ahead of the present clock. -/
theorem Sampled.le_clock {w₀ w : World} {as : List Action} {tx : TxId} {reading : Timestamp}
    (h : Sampled w₀ as tx reading) (hrun : run forwardStep w₀ as = some w) :
    reading ≤ w.clock := by
  obtain ⟨as₁, as₂, u, rfl, hu, -, rfl⟩ := h
  obtain ⟨u', hu', hrest⟩ := (run_append_eq_some _).mp hrun
  obtain rfl := Option.some.inj (hu.symm.trans (run_of_guarded hu'))
  have hreaches : Reaches forwardStep u w := ⟨as₂, hrest⟩
  exact hreaches.relation (R := fun v v' => v.clock ≤ v'.clock) (fun _ => le_refl _)
    (fun _ _ _ => le_trans) fun _ _ _ => clock_le_of_forwardStep

end DurableRunner.Sessions
