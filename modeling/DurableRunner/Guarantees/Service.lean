import DurableRunner.Guarantees.BoundedLifetime
import DurableRunner.Operations.Orders
import DurableRunner.Sessions.Numbering

/-! # Calls that get to a row

A claim or a sweep that has a row among its candidates and finds it unlocked does
not commit without changing the status of some row. All rows together have only
so many status changes left, so that no row is passed over for ever.
-/
namespace DurableRunner.Guarantees
open Schema Operations Sessions TransitionSystem

/-- The database as time goes on. -/
structure Timeline (w : ℕ → World) : Prop where
  initial : (w 0).Initial
  follows : ∀ n, w (n + 1) = w n ∨ ∃ a, step (w n) a = some (w (n + 1))

def Begins (w : ℕ → World) (n : ℕ) (tx : TxId) (call : Call) : Prop :=
  tx = (w n).nextTx ∧ (w (n + 1)).txs tx = some ⟨call, (w n).clock, none, none, .begun⟩

def Commits (w : ℕ → World) (n : ℕ) (tx : TxId) : Prop :=
  ∃ c, (w (n + 1)).history = (w n).history ++ [c] ∧ c.tx = tx

/-- From that moment on a call of the kind begins and commits, and all the while nobody else
locks the row. -/
def Serves (w : ℕ → World) (id : StepId) (kind : Call → Prop) (n : ℕ) : Prop :=
  ∃ i j tx call, n ≤ i ∧ i < j ∧ kind call ∧ Begins w i tx call ∧ Commits w j tx ∧
    ∀ l, i < l → l ≤ j → (w l).heldByOther tx id = false

/-- The status changes that all rows together have left. -/
def totalMeasure (steps : StepsTable) : ℕ := (steps.rows.map lifetimeMeasure).sum

section Measure
variable {steps : StepsTable} {call : Call} {start : Timestamp} {d : Decision}
  (h : Performs steps call start d)
include h

/-- No call prolongs the life of a row. -/
theorem measure_le_of_performs : ∀ x ∈ steps.rows, ∀ y,
    (steps.setAll (d.changes.map Change.after)).find? (StepRow.key x) = some y →
      lifetimeMeasure y ≤ lifetimeMeasure x := by
  intro x hx y hy
  have hfind : steps.find? x.id = some x := Relational.Table.mem_iff_find?.mp hx
  rcases h.find? x.id with ⟨hsame, -⟩ | ⟨ch, hch, hbefore, hafter, -⟩
  · obtain rfl := Option.some.inj (hfind.symm.trans (hsame.symm.trans hy))
    exact le_rfl
  · obtain rfl := Option.some.inj (hfind.symm.trans hbefore)
    obtain rfl := Option.some.inj (hafter.symm.trans hy)
    exact lifetimeMeasure_le (h.transition hch)

theorem totalMeasure_le :
    totalMeasure (steps.setAll (d.changes.map Change.after)) ≤ totalMeasure steps :=
  Relational.Table.sum_setAll_le (measure_le_of_performs h)

theorem totalMeasure_lt {ch : Change} (hch : ch ∈ d.changes)
    (hchanged : ch.after.status ≠ ch.before.status) :
    totalMeasure (steps.setAll (d.changes.map Change.after)) < totalMeasure steps := by
  have hcurrent := h.current ch hch
  rcases h.find? ch.before.id with ⟨-, hnone⟩ | ⟨only, honly, -, hafter, hone⟩
  · exact absurd (by simp) (List.filter_eq_nil_iff.mp hnone ch hch)
  · have hmem : ch ∈ d.changes.filter fun c => c.before.id = ch.before.id := by simp [hch]
    rw [hone, List.mem_singleton] at hmem
    subst hmem
    exact Relational.Table.sum_setAll_lt (measure_le_of_performs h)
      (Relational.Table.mem_of_find? hcurrent) hafter (lifetimeMeasure_lt (h.transition hch) hchanged)

/-- A claim or a sweep changes the status of every row it takes. -/
theorem totalMeasure_lt_of_selects (hcred : call.credential? = none) (hchanges : d.changes ≠ []) :
    totalMeasure (steps.setAll (d.changes.map Change.after)) < totalMeasure steps := by
  obtain ⟨ch, hch⟩ := List.exists_mem_of_ne_nil _ hchanges
  have htransition := h.transition hch
  have hwrites : writesEvents call = true := by
    cases htransition with
    | claim | recover | promote => rfl
    | renew | complete | fail => cases hcred
  exact totalMeasure_lt h hch (status_ne_of_transition htransition hwrites)

end Measure

theorem totalMeasure_le_of_step {w w' : World} {a : Action} (hexplained : AllExplained w)
    (hstep : step w a = some w') : totalMeasure w'.steps ≤ totalMeasure w.steps := by
  cases step_cases hstep with
  | @commit tx t d inserted ht hphase =>
    have hdecided := (hexplained tx t ht).decided (d := d) (by rw [hphase]; rfl)
    exact totalMeasure_le hdecided.performs
  | tick | start | rollback => exact le_rfl
  | run | lockRow | fault => rw [apply_steps]

/-- The transaction has the row ahead of it, or something to change at hand. -/
inductive InSight (r : StepRow) : Phase → Prop
  | begun : InSight r .begun
  | selecting {scannedAt : Timestamp} {candidates : List StepRow} {picked : List Pick}
      (hrow : r ∈ candidates ∨ picked ≠ []) : InSight r (.selecting scannedAt candidates picked)
  | selected {picked : List Pick} (hpicked : picked ≠ []) : InSight r (.selected picked)
  | inserting {d : Decision} {owed : List NewEvent} {inserted : List EventRow}
      (hchanges : d.changes ≠ []) : InSight r (.inserting d owed inserted)
  | done {d : Decision} {inserted : List EventRow} (hchanges : d.changes ≠ []) :
      InSight r (.done d inserted)
  | aborted (e : DbError) : InSight r (.aborted e)

/-- A claim or sweep on its way to a row that stays as it is. -/
structure Watched (w : World) (tx : TxId) (call : Call) (start : Timestamp) (r : StepRow) : Prop where
  row : w.steps.find? r.id = some r
  begun : tx < w.nextTx
  live : ∀ t, w.txs tx = some t → t.call = call ∧ t.start = start ∧ InSight r t.phase

section Watched
variable {w w' : World} {tx : TxId} {call : Call} {start : Timestamp} {r : StepRow}
  (hcred : call.credential? = none) (hselects : call ≠ .lockRows)
  (hfree : w.heldByOther tx r.id = false) (heligible : call.eligible start w.clock r = true)

include hcred hselects hfree heligible in
theorem InSight.move {t : Tx} {m : Move} (h : InSight r t.phase) (hmove : MoveCase w tx t m)
    (hexplained : Explained w tx t) (hr : w.steps.find? r.id = some r) (hcall : t.call = call)
    (hstart : t.start = start) : InSight r (m.phase w t) := by
  subst hcall hstart
  cases hmove with
  | release _ hrelease => exact absurd hrelease hselects
  | missing _ howner | lockOwner _ howner =>
    rw [hcred] at howner
    cases howner
  | scan => exact .selecting (.inl (mem_candidates.mpr ⟨Relational.Table.mem_of_find? hr, heligible⟩))
  | finishSelect hphase hend =>
    rw [hphase] at h
    cases h with
    | selecting hrow =>
      refine .selected ?_
      rcases hend with hfull | rfl
      · rintro rfl
        exact (Call.limit_pos t.call).ne hfull
      · exact hrow.resolve_left List.not_mem_nil
  | skip hphase _ hheld =>
    rw [hphase] at h
    cases h with
    | selecting hrow =>
      refine .selecting (hrow.imp_left fun hmem => (List.mem_cons.mp hmem).resolve_left ?_)
      rintro rfl
      rcases hheld with hheld | hmissing
      · rw [hfree] at hheld
        cases hheld
      · rw [hr] at hmissing
        cases hmissing
  | pick => exact .selecting (.inr (by simp))
  | keepLock hphase _ _ hfind hne =>
    rw [hphase] at h
    cases h with
    | selecting hrow =>
      refine .selecting (hrow.imp_left fun hmem => (List.mem_cons.mp hmem).resolve_left ?_)
      rintro rfl
      exact hne (Option.some.inj (hfind.symm.trans hr))
  | updateError => exact .aborted _
  | @update picked changes hphase hupdate =>
    rw [hphase] at h
    cases h with
    | selected hpicked =>
      simp only [Explained, hphase] at hexplained
      obtain ⟨pick, hpick⟩ := List.exists_mem_of_ne_nil _ hpicked
      obtain ⟨row, hrow, -⟩ := hexplained.1.eligible pick hpick
      have hmem : (row, pick.checkedAt) ∈ w.rowsOf picked := mem_rowsOf.mpr ⟨pick, hpick, hrow, rfl⟩
      rw [← Call.updateAll_before hcred hselects hupdate] at hmem
      obtain ⟨change, hchange, -⟩ := List.mem_map.mp hmem
      exact .inserting (List.ne_nil_of_mem hchange)
  | finishInsert hphase =>
    rw [hphase] at h
    cases h with
    | inserting hchanges => exact .done hchanges
  | insertError => exact .aborted _
  | insert hphase =>
    rw [hphase] at h
    cases h with
    | inserting hchanges => exact .inserting hchanges

include hcred in
theorem Watched.commit (h : Watched w tx call start r) (hexplained : AllExplained w) {t : Tx}
    {d : Decision} {inserted : List EventRow} (ht : w.txs tx = some t)
    (hphase : t.phase = .done d inserted) :
    totalMeasure (w.publish tx t d inserted).steps < totalMeasure w.steps := by
  obtain ⟨rfl, -, hsight⟩ := h.live t ht
  have hdecided := (hexplained tx t ht).decided (d := d) (by rw [hphase]; rfl)
  rw [hphase] at hsight
  cases hsight with
  | done hchanges => exact totalMeasure_lt_of_selects hdecided.performs hcred hchanges

include hcred hselects hfree heligible in
theorem Watched.step {a : Action} (h : Watched w tx call start r) (hexplained : AllExplained w)
    (hstep : Sessions.step w a = some w') :
    Watched w' tx call start r ∨ totalMeasure w'.steps < totalMeasure w.steps := by
  cases step_cases hstep with
  | tick => exact .inl ⟨h.row, h.begun, h.live⟩
  | start =>
    refine .inl ⟨h.row, Nat.lt_succ_of_lt h.begun, fun t ht => ?_⟩
    rcases begin_txs_cases ht with ⟨rfl, -⟩ | ⟨-, ht⟩
    · exact absurd h.begun (lt_irrefl _)
    · exact h.live t ht
  | @run tx' t m ht hmove =>
    refine .inl ⟨by rw [apply_steps]; exact h.row, by rw [apply_nextTx]; exact h.begun,
      fun t' ht' => ?_⟩
    rcases apply_txs_cases ht' with ⟨rfl, ht'⟩ | ⟨-, ht'⟩
    · obtain ⟨hcall, hstart, hsight⟩ := h.live t ht
      obtain ⟨t'', ht'', hcall', hstart', hphase⟩ := apply_txs_self w tx t m
      obtain rfl := Option.some.inj (ht'.symm.trans ht'')
      refine ⟨hcall'.trans hcall, hstart'.trans hstart, ?_⟩
      rw [hphase]
      exact hsight.move hcred hselects hfree heligible hmove (hexplained tx t ht) h.row hcall hstart
    · exact h.live t' ht'
  | @lockRow tx' t id ht hcall =>
    refine .inl ⟨by rw [apply_steps]; exact h.row, by rw [apply_nextTx]; exact h.begun,
      fun t' ht' => ?_⟩
    rcases apply_txs_cases ht' with ⟨rfl, -⟩ | ⟨-, ht'⟩
    · exact absurd ((h.live t ht).1.symm.trans hcall) hselects
    · exact h.live t' ht'
  | @fault tx' t ht =>
    refine .inl ⟨by rw [apply_steps]; exact h.row, by rw [apply_nextTx]; exact h.begun,
      fun t' ht' => ?_⟩
    rcases apply_txs_cases ht' with ⟨rfl, ht'⟩ | ⟨-, ht'⟩
    · obtain rfl := eq_of_enter ht'
      obtain ⟨hcall, hstart, -⟩ := h.live t ht
      exact ⟨hcall, hstart, .aborted _⟩
    · exact h.live t' ht'
  | rollback => exact .inl ⟨h.row, h.begun, fun t ht => h.live t (finish_txs_cases ht).2⟩
  | @commit tx' t d inserted ht hphase =>
    by_cases hself : tx' = tx
    · subst hself
      exact .inr (h.commit hcred hexplained ht hphase)
    · have hdecided := (hexplained tx' t ht).decided (d := d) (by rw [hphase]; rfl)
      refine .inl ⟨?_, h.begun, fun t' ht' => h.live t' (finish_txs_cases ht').2⟩
      rcases hdecided.performs.find? r.id with ⟨hsame, -⟩ | ⟨ch, hch, hbefore, -, -⟩
      · exact hsame.trans h.row
      · -- the row cannot change under another transaction's lock
        have hlocked := hdecided.holder_of_change hch
        rw [id_of_find? hbefore] at hlocked
        rw [heldByOther_iff.mpr ⟨tx', hself, hlocked⟩] at hfree
        cases hfree

end Watched

section Timeline
variable {w : ℕ → World}

theorem Timeline.reaches (h : Timeline w) (n : ℕ) : Reaches step (w 0) (w n) := by
  induction n with
  | zero => exact .refl _
  | succ n ih =>
    rcases h.follows n with hsame | ⟨a, hstep⟩
    · rwa [hsame]
    · exact ih.tail hstep

theorem Timeline.totalMeasure_le (h : Timeline w) (n : ℕ) :
    totalMeasure (w (n + 1)).steps ≤ totalMeasure (w n).steps := by
  rcases h.follows n with hsame | ⟨a, hstep⟩
  · rw [hsame]
  · exact totalMeasure_le_of_step (AllExplained.reaches h.initial (h.reaches n)) hstep

/-- A call that gets to a row shortens the life of some row, whichever it takes. -/
theorem Timeline.shrinks_of_serves (h : Timeline w) {id : StepId} {kind : Call → Prop} {n : ℕ}
    (hkind : ∀ call, kind call → call.credential? = none ∧ call ≠ .lockRows)
    (hpresent : ∀ l, ∃ r, (w l).steps.find? id = some r)
    (heligible : ∀ i l r call, n ≤ i → n ≤ l → kind call → (w l).steps.find? id = some r →
      call.eligible (w i).clock (w l).clock r = true)
    (hserves : Serves w id kind n) :
    ∃ m, n ≤ m ∧ totalMeasure (w (m + 1)).steps < totalMeasure (w m).steps := by
  obtain ⟨i, j, tx, call, hi, hij, hcall, ⟨-, hbegins⟩, ⟨c, hcommits, hctx⟩, hfree⟩ := hserves
  obtain ⟨hcred, hselects⟩ := hkind call hcall
  obtain ⟨r, hr⟩ := hpresent (i + 1)
  obtain rfl := id_of_find? hr
  have hexplained : ∀ l, AllExplained (w l) := fun l => .reaches h.initial (h.reaches l)
  have hwatched : ∀ l, i + 1 ≤ l → l ≤ j → Watched (w l) tx call (w i).clock r ∨
      ∃ m, n ≤ m ∧ totalMeasure (w (m + 1)).steps < totalMeasure (w m).steps := by
    intro l hl
    induction l, hl using Nat.le_induction with
    | base =>
      have hlive := (Numbered.reaches h.initial (h.reaches (i + 1))).live tx (by rw [hbegins]; rfl)
      refine fun _ => .inl ⟨hr, hlive.1, fun t ht => ?_⟩
      obtain rfl := Option.some.inj (hbegins.symm.trans ht)
      exact ⟨rfl, rfl, .begun⟩
    | succ l hl ih =>
      intro hlj
      rcases ih (by omega) with hwatched | hshrinks
      · have heligible' := heligible i l r call hi (by omega) hcall hwatched.row
        rcases h.follows l with hsame | ⟨a, hstep⟩
        · rw [hsame]
          exact .inl hwatched
        · refine (hwatched.step hcred hselects (hfree l (by omega) (by omega)) heligible'
            (hexplained l) hstep).imp_right fun hless => ⟨l, by omega, hless⟩
      · exact .inr hshrinks
  rcases hwatched j hij le_rfl with hwatched | hshrinks
  · refine ⟨j, by omega, ?_⟩
    have hgrown : (w (j + 1)).history ≠ (w j).history := by simp [hcommits]
    rcases h.follows j with hsame | ⟨a, hstep⟩
    · exact absurd (by rw [hsame]) hgrown
    · generalize hnext : w (j + 1) = w' at hstep hcommits hgrown ⊢
      cases step_cases hstep with
      | @commit tx' t d inserted ht hphase =>
        have hlast := List.append_cancel_left hcommits
        obtain rfl := List.singleton_inj.mp hlast
        obtain rfl : tx' = tx := hctx
        exact hwatched.commit hcred (hexplained j) ht hphase
      | tick | start | rollback => exact absurd rfl hgrown
      | run | lockRow | fault => exact absurd (apply_history _ _ _ _) hgrown
  · exact hshrinks

end Timeline
end DurableRunner.Guarantees
