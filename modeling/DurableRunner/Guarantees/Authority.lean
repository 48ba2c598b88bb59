import DurableRunner.Guarantees.Fencing
import DurableRunner.Sessions.Clocks
import DurableRunner.Sessions.Decisions

/-! # The deadline is the limit of authority

An owner write is judged under the row lock against the stored deadline, and a
credential that has lost the row once never wins it back.
-/
namespace DurableRunner.Guarantees
open Schema Operations Sessions TransitionSystem

def Granted (history : List Commit) (cred : Credential) : Prop :=
  ∃ s ∈ claimsOf history cred.id,
    s.workerId = some cred.workerId ∧ s.leaseVersion = cred.leaseVersion

def Recovered (history : List Commit) (cred : Credential) : Prop :=
  ∃ c ∈ history, c.call = .recoverExpiredSteps ∧ ∃ ch ∈ c.decision.changes,
    ch.before.id = cred.id ∧ ch.before.leaseVersion = cred.leaseVersion

/-- The move with which an owner write learns that it updates no row. -/
structure Rejects (w : World) (tx : TxId) (cred : Credential) (w' : World) : Prop where
  before : ∃ t, w.txs tx = some t ∧ t.call.credential? = some cred ∧ t.phase.decision? = none
  moved : step w (.run tx) = some w'
  after : ∃ t' instant, w'.txs tx = some t' ∧ t'.phase.decision? = some ⟨instant, []⟩

/-- Every write of the credential that has committed since `u` is a rejection. -/
def OnlyRejects (cred : Credential) (u w : World) : Prop :=
  ∃ later, w.history = u.history ++ later ∧
    ∀ c ∈ later, c.call.credential? = some cred → isRejection c.outcome = true

theorem OnlyRejects.of_history {cred : Credential} {u w : World} (h : w.history = u.history) :
    OnlyRejects cred u w := ⟨[], by simp [h], by simp⟩

theorem OnlyRejects.trans {cred : Credential} {u v w : World} (h : OnlyRejects cred u v)
    (h' : OnlyRejects cred v w) : OnlyRejects cred u w := by
  obtain ⟨xs, hv, hxs⟩ := h
  obtain ⟨ys, hw, hys⟩ := h'
  refine ⟨xs ++ ys, by rw [hw, hv, List.append_assoc], fun c hc => ?_⟩
  exact (List.mem_append.mp hc).elim (hxs c) (hys c)

/-- The credential has no live lease on the row and its generation is not ahead. -/
def Lapsed (cred : Credential) (clock : Timestamp) (r : StepRow) : Prop :=
  cred.leaseVersion.val ≤ r.leaseVersion.val ∧ holdsLiveLease cred clock r = false

theorem Lapsed.mono {cred : Credential} {clock clock' : Timestamp} {r : StepRow}
    (h : Lapsed cred clock r) (hle : clock ≤ clock') : Lapsed cred clock' r := by
  refine ⟨h.1, Bool.eq_false_iff.mpr fun hlive => ?_⟩
  obtain ⟨hid, hstatus, howner, hversion, d, hd, hlt⟩ := holdsLiveLease_iff.mp hlive
  have : holdsLiveLease cred clock r = true :=
    holdsLiveLease_iff.mpr ⟨hid, hstatus, howner, hversion, d, hd, hle.trans_lt hlt⟩
  rw [h.2] at this
  cases this

theorem not_live_of_status {cred : Credential} {clock : Timestamp} {r : StepRow}
    (h : r.status ≠ .running) : holdsLiveLease cred clock r = false :=
  Bool.eq_false_iff.mpr fun hlive => h (holdsLiveLease_iff.mp hlive).2.1

/-- No operation gives a lapsed credential its lease back. -/
theorem Lapsed.transition {cred : Credential} {start instant checkedAt : Timestamp}
    {r r' : StepRow} {call : Call} (h : Lapsed cred instant r)
    (ht : Transition start instant checkedAt r r' call) : Lapsed cred instant r' := by
  obtain ⟨hle, hlapsed⟩ := h
  cases ht with
  | claim _ _ _ hversion _ _ =>
    refine ⟨by omega, Bool.eq_false_iff.mpr fun hlive => ?_⟩
    obtain ⟨-, -, -, heq, -⟩ := holdsLiveLease_iff.mp hlive
    rw [← heq] at hle
    omega
  | @renew owner ms hlive hcols =>
    -- the renewing owner is another one, since this credential has no live lease
    refine ⟨by rw [hcols]; exact hle, Bool.eq_false_iff.mpr fun hrenewed => ?_⟩
    obtain ⟨hid, hstatus, howner, hversion, d, hd, hlt⟩ := holdsLiveLease_iff.mp hlive
    obtain ⟨hid', -, howner', hversion', -⟩ := holdsLiveLease_iff.mp hrenewed
    rw [hcols] at hid' howner' hversion'
    have hsame : holdsLiveLease cred instant r = true :=
      holdsLiveLease_iff.mpr ⟨hid', hstatus, howner', hversion', d, hd, hlt⟩
    rw [hlapsed] at hsame
    cases hsame
  | complete _ hcols =>
    exact ⟨by rw [hcols]; exact hle, not_live_of_status (by rw [hcols]; simp)⟩
  | fail _ hcols =>
    exact ⟨by rw [hcols]; exact hle, not_live_of_status (by rw [hcols]; dsimp only; split <;> simp)⟩
  | recover _ _ _ hcols =>
    exact ⟨by rw [hcols]; exact hle, not_live_of_status (by rw [hcols]; dsimp only; split <;> simp)⟩
  | promote _ _ hcols =>
    exact ⟨by rw [hcols]; exact hle, not_live_of_status (by rw [hcols]; simp)⟩

/-- The credential has lapsed, for the committed row and for every pending write of it. -/
structure LapsedIn (cred : Credential) (w : World) : Prop where
  row : ∃ r, w.steps.find? cred.id = some r ∧ Lapsed cred w.clock r
  pending : ∀ tx t d, w.txs tx = some t → t.phase.decision? = some d →
    ∀ c ∈ d.changes, c.before.id = cred.id → Lapsed cred w.clock c.after
  silent : ∀ tx t d, w.txs tx = some t → t.phase.decision? = some d →
    t.call.credential? = some cred → d.changes = []

/-- A decision about a row by an owner write names the row of its credential. -/
theorem id_of_owner_change {steps : StepsTable} {call : Call} {cred : Credential}
    {start : Timestamp} {d : Decision} (h : Performs steps call start d)
    (hcred : call.credential? = some cred) {c : Change} (hc : c ∈ d.changes) :
    c.before.id = cred.id :=
  (holdsLiveLease_iff.mp (live_of_owner_change hcred (h.transition hc))).1

/-- While one transaction holds the row, nobody else has decided anything about it. -/
theorem LapsedIn.of_holder {cred : Credential} {w : World} (tx : TxId) {r : StepRow}
    (hexplained : AllExplained w) (hheld : ∀ other, w.holder cred.id = some other → other = tx)
    (hr : w.steps.find? cred.id = some r) (hlapsed : Lapsed cred w.clock r)
    (hself : ∀ t d, w.txs tx = some t → t.phase.decision? = some d → d.changes = []) :
    LapsedIn cred w := by
  have hquiet : ∀ other t d, w.txs other = some t → t.phase.decision? = some d →
      ∀ c ∈ d.changes, c.before.id ≠ cred.id := by
    intro other t d ht hd c hc hid
    have hlock := ((hexplained other t ht).decided hd).holder_of_change hc
    rw [hid] at hlock
    obtain rfl := hheld other hlock
    rw [hself t d ht hd] at hc
    cases hc
  refine ⟨⟨r, hr, hlapsed⟩, fun other t d ht hd c hc hid => absurd hid (hquiet other t d ht hd c hc),
    fun other t d ht hd hcred => List.eq_nil_iff_forall_not_mem.mpr fun c hc => ?_⟩
  exact hquiet other t d ht hd c hc
    (id_of_owner_change ((hexplained other t ht).decided hd).performs hcred hc)

/-- Only an UPDATE makes a new decision with changes. -/
theorem decision_of_move {w : World} {tx : TxId} {t t' : Tx} {m : Move} {d : Decision}
    (ht : w.txs tx = some t) (hm : MoveCase w tx t m)
    (hupdate : ¬ ∃ picked changes, t.phase = .selected picked ∧
      t.call.updateAll t.start w.clock (w.rowsOf picked) = .ok changes)
    (ht' : (w.apply tx t m).txs tx = some t') (hd : t'.phase.decision? = some d) :
    d.changes = [] ∨ ∃ t, w.txs tx = some t ∧ t.call = t'.call ∧ t.phase.decision? = some d := by
  cases hm with
  | release hphase hcall | missing hphase hcred hfind =>
    obtain rfl := eq_of_enter ht'
    obtain rfl := Option.some.inj hd
    exact .inl rfl
  | update hphase hchanges => exact absurd ⟨_, _, hphase, hchanges⟩ hupdate
  | finishInsert hphase | insert hphase hrecord =>
    obtain rfl : _ = t' := by simpa [World.apply, World.setTx] using ht'
    exact .inr ⟨t, ht, rfl, by rw [hphase]; exact hd⟩
  | lockOwner | scan | finishSelect | skip | pick | keepLock | updateError | insertError =>
    obtain rfl : _ = t' := by simpa [World.apply, World.setTx] using ht'
    cases hd

section Step
variable {cred : Credential} {w w' : World}

/-- Nothing that leaves the tables alone and decides nothing new revives a credential. -/
theorem LapsedIn.frame (h : LapsedIn cred w) (hsteps : w'.steps = w.steps)
    (hclock : w.clock ≤ w'.clock)
    (htxs : ∀ tx t' d, w'.txs tx = some t' → t'.phase.decision? = some d →
      d.changes = [] ∨ ∃ t, w.txs tx = some t ∧ t.call = t'.call ∧ t.phase.decision? = some d) :
    LapsedIn cred w' where
  row := by
    obtain ⟨r, hr, hlapsed⟩ := h.row
    exact ⟨r, hsteps ▸ hr, hlapsed.mono hclock⟩
  pending tx t' d ht' hd c hc hid := by
    rcases htxs tx t' d ht' hd with hnil | ⟨t, ht, -, hd⟩
    · rw [hnil] at hc
      cases hc
    · exact (h.pending tx t d ht hd c hc hid).mono hclock
  silent tx t' d ht' hd hcred := by
    rcases htxs tx t' d ht' hd with hnil | ⟨t, ht, hcall, hd⟩
    · exact hnil
    · exact h.silent tx t d ht hd (hcall ▸ hcred)

theorem LapsedIn.update (h : LapsedIn cred w) (hexplained : AllExplained w) {tx : TxId} {t : Tx}
    {picked : List Pick} {changes : List Change} (ht : w.txs tx = some t)
    (hphase : t.phase = .selected picked)
    (hupdate : t.call.updateAll t.start w.clock (w.rowsOf picked) = .ok changes) :
    LapsedIn cred (w.apply tx t (.enter (.inserting ⟨w.clock, changes⟩ (t.call.events changes) []))) := by
  obtain ⟨r, hr, hlapsed⟩ := h.row
  have hdecides : Decides w tx t.call t.start ⟨w.clock, changes⟩ :=
    ⟨⟨t, picked, ht, rfl, rfl, hphase, hupdate⟩, rfl⟩
  obtain ⟨_, ht', -, -, hdecided⟩ := hdecides.decided hexplained
  obtain rfl := Option.some.inj (ht.symm.trans ht')
  have hbefore : ∀ c ∈ changes, c.before.id = cred.id → c.before = r := fun c hc hid => by
    have hcurrent := hdecided.performs.current c hc
    rw [hid, hr] at hcurrent
    exact (Option.some.inj hcurrent).symm
  have hold : ∀ other t' d, (w.apply tx t
      (.enter (.inserting ⟨w.clock, changes⟩ (t.call.events changes) []))).txs other = some t' →
      t'.phase.decision? = some d →
      (other = tx ∧ t'.call = t.call ∧ d = ⟨w.clock, changes⟩) ∨ w.txs other = some t' := by
    intro other t' d ht' hd
    rcases apply_txs_cases ht' with ⟨rfl, ht'⟩ | ⟨hother, ht'⟩
    · obtain rfl : _ = t' := by simpa [World.apply, World.setTx] using ht'
      exact .inl ⟨rfl, rfl, (Option.some.inj hd).symm⟩
    · exact .inr ht'
  refine ⟨⟨r, hr, hlapsed⟩, fun other t' d ht' hd c hc hid => ?_, fun other t' d ht' hd hcred => ?_⟩
  · rcases hold other t' d ht' hd with ⟨rfl, -, rfl⟩ | ht'
    · have htransition := hdecided.performs.transition hc
      rw [hbefore c hc hid] at htransition
      exact hlapsed.transition htransition
    · exact h.pending other t' d ht' hd c hc hid
  · rcases hold other t' d ht' hd with ⟨rfl, hcall, rfl⟩ | ht'
    · refine List.eq_nil_iff_forall_not_mem.mpr fun c hc => ?_
      rw [hcall] at hcred
      have htransition := hdecided.performs.transition hc
      rw [hbefore c hc (id_of_owner_change hdecided.performs hcred hc)] at htransition
      have hlive := live_of_owner_change hcred htransition
      rw [hlapsed.2] at hlive
      cases hlive
    · exact h.silent other t' d ht' hd hcred

/-- A lapsed credential stays lapsed, and whatever it commits is a rejection. -/
theorem LapsedIn.step (h : LapsedIn cred w) (hexplained : AllExplained w) {a : Action}
    (hstep : forwardStep w a = some w') :
    LapsedIn cred w' ∧ OnlyRejects cred w w' := by
  obtain ⟨hforward, hstep⟩ := guarded_eq_some.mp hstep
  cases step_cases hstep with
  | tick clock =>
    have hle : w.clock ≤ clock := by simpa [movesForward] using hforward
    exact ⟨h.frame rfl hle fun tx t d ht hd => .inr ⟨t, ht, rfl, hd⟩, .of_history rfl⟩
  | start call hadmissible =>
    refine ⟨h.frame rfl (le_refl _) fun other t' d ht' hd => ?_, .of_history rfl⟩
    rcases begin_txs_cases ht' with ⟨rfl, rfl⟩ | ⟨hother, ht⟩
    · cases hd
    · exact .inr ⟨t', ht, rfl, hd⟩
  | @run tx t m ht hmove =>
    refine ⟨?_, .of_history (apply_history _ _ _ _)⟩
    by_cases hupdate : ∃ picked changes, t.phase = .selected picked ∧
        t.call.updateAll t.start w.clock (w.rowsOf picked) = .ok changes
    · obtain ⟨picked, changes, hphase, hupdate⟩ := hupdate
      cases hmove with
      | update hphase' hupdate' =>
        exact h.update hexplained ht hphase' hupdate'
      | updateError hphase' hupdate' =>
        obtain rfl := Phase.selected.inj (hphase.symm.trans hphase')
        rw [hupdate] at hupdate'
        cases hupdate'
      | _ => simp_all
    · refine h.frame (apply_steps _ _ _ _) (apply_clock _ _ _ _).ge fun other t' d ht' hd => ?_
      rcases apply_txs_cases ht' with ⟨rfl, ht'⟩ | ⟨hother, ht'⟩
      · exact decision_of_move ht hmove hupdate ht' hd
      · exact .inr ⟨t', ht', rfl, hd⟩
  | @lockRow tx t id ht hcall hphase hpresent hfree =>
    refine ⟨h.frame (apply_steps _ _ _ _) (apply_clock _ _ _ _).ge fun other t' d ht' hd => ?_,
      .of_history (apply_history _ _ _ _)⟩
    rcases apply_txs_cases ht' with ⟨rfl, ht'⟩ | ⟨hother, ht'⟩
    · obtain rfl := eq_of_lock ht'
      cases hd
    · exact .inr ⟨t', ht', rfl, hd⟩
  | @fault tx t ht =>
    refine ⟨h.frame (apply_steps _ _ _ _) (apply_clock _ _ _ _).ge fun other t' d ht' hd => ?_,
      .of_history (apply_history _ _ _ _)⟩
    rcases apply_txs_cases ht' with ⟨rfl, ht'⟩ | ⟨hother, ht'⟩
    · obtain rfl := eq_of_enter ht'
      cases hd
    · exact .inr ⟨t', ht', rfl, hd⟩
  | @rollback tx t ht =>
    refine ⟨h.frame rfl (le_refl _) fun other t' d ht' hd => ?_, .of_history rfl⟩
    obtain ⟨hother, ht'⟩ := finish_txs_cases ht'
    exact .inr ⟨t', ht', rfl, hd⟩
  | @commit tx t d inserted ht hphase =>
    have hd : t.phase.decision? = some d := by rw [hphase]; rfl
    have hdecided := (hexplained tx t ht).decided hd
    refine ⟨⟨?_, fun other t' d' ht' hd' => ?_, fun other t' d' ht' hd' => ?_⟩, _, rfl, ?_⟩
    · obtain ⟨r, hr, hlapsed⟩ := h.row
      rcases hdecided.performs.find? cred.id with ⟨hfind, -⟩ | ⟨c, hc, hbefore, hafter, -⟩
      · exact ⟨r, hfind.trans hr, hlapsed⟩
      · exact ⟨c.after, hafter, h.pending tx t d ht hd c hc (id_of_find? hbefore)⟩
    · exact h.pending other t' d' (finish_txs_cases ht').2 hd'
    · exact h.silent other t' d' (finish_txs_cases ht').2 hd'
    · intro c hc hcred
      obtain rfl := List.mem_singleton.mp hc
      have hnil : d.changes = [] := h.silent tx t d ht hd hcred
      simpa [Commit.outcome, hnil] using isRejection_of_unchanged hcred d.instant

end Step

/-- From a lapsed credential on, every commit of one of its writes is a rejection. -/
theorem LapsedIn.reaches {cred : Credential} {u w : World} (h : LapsedIn cred u)
    (hexplained : AllExplained u) (hreach : Reaches forwardStep u w) : OnlyRejects cred u w := by
  have preserved : ∀ s a t, AllExplained s ∧ LapsedIn cred s → forwardStep s a = some t →
      AllExplained t ∧ LapsedIn cred t := fun s a t h hstep =>
    ⟨h.1.step (guarded_eq_some.mp hstep).2, (h.2.step h.1 hstep).1⟩
  have respects : ∀ s a t, AllExplained s ∧ LapsedIn cred s → forwardStep s a = some t →
      OnlyRejects cred s t := fun s a t h hstep => (h.2.step h.1 hstep).2
  have refl : ∀ s, OnlyRejects cred s s := fun s => .of_history rfl
  have trans : ∀ s t v, OnlyRejects cred s t → OnlyRejects cred t v → OnlyRejects cred s v :=
    fun s t v => OnlyRejects.trans
  exact hreach.relation_of_invariant preserved refl trans respects ⟨hexplained, h⟩

theorem granted_le {w₀ w : World} (h₀ : w₀.Initial) (h : Reaches step w₀ w) {cred : Credential}
    (hgranted : Granted w.history cred) :
    ∃ r, w.steps.find? cred.id = some r ∧ cred.leaseVersion.val ≤ r.leaseVersion.val := by
  obtain ⟨s, hs, -, hversion⟩ := hgranted
  have hserial := serial_of_reaches h₀ h
  cases hrow : w₀.steps.find? cred.id with
  | none =>
    rw [hserial.claimsOf_absent hrow] at hs
    cases hs
  | some r₀ =>
    obtain ⟨r, hr, hcounted⟩ := hserial.countedBy hrow
    exact ⟨r, hr, hversion ▸ hcounted.version_le hs⟩

theorem not_live_of_unmatched {call : Call} {cred : Credential} {start clock : Timestamp}
    {r : StepRow} (hcred : call.credential? = some cred)
    (h : call.update start clock r = .ok none) : holdsLiveLease cred clock r = false := by
  cases call with
  | claimNextStep | recoverExpiredSteps | promoteDueRetries | lockRows => cases hcred
  | renewStepLease | completeStepSuccess | recordStepFailure =>
    obtain rfl := Option.some.inj hcred
    exact ownerUpdate_eq_none h

theorem LapsedIn.of_rejected {cred : Credential} {w : World} {tx : TxId} {t : Tx} {r : StepRow}
    {instant : Timestamp} (hexplained : AllExplained w) (htimes : OnTime w) (ht : w.txs tx = some t)
    (hcred : t.call.credential? = some cred) (hd : t.phase.decision? = some ⟨instant, []⟩)
    (hr : w.steps.find? cred.id = some r) (hle : cred.leaseVersion.val ≤ r.leaseVersion.val) :
    LapsedIn cred w := by
  have hdecided := (hexplained tx t ht).decided hd
  have hlocked : w.holder cred.id = some tx :=
    hdecided.locked cred.id (by simp [touched, hcred]) (by rw [hr]; rfl)
  have hlive := not_live_of_unmatched hcred (hdecided.performs.rejected rfl cred hcred r hr)
  have hinstant : instant ≤ w.clock := ((htimes.live tx t ht).decided _ hd).2.1
  refine .of_holder tx hexplained (fun other hother => ?_) hr (Lapsed.mono ⟨hle, hlive⟩ hinstant) ?_
  · exact Option.some.inj (hother.symm.trans hlocked)
  · intro t' d ht' hd'
    obtain rfl := Option.some.inj (ht.symm.trans ht')
    rw [← Option.some.inj (hd.symm.trans hd')]

theorem LapsedIn.of_recovery {cred : Credential} {w w' : World} {tx : TxId} {t : Tx} {d : Decision}
    {inserted : List EventRow} (hexplained : AllExplained w) (hexplained' : AllExplained w')
    (ht : w.txs tx = some t) (hphase : t.phase = .done d inserted)
    (hw' : w' = w.publish tx t d inserted) (hcall : t.call = .recoverExpiredSteps) {c : Change}
    (hc : c ∈ d.changes) (hid : c.before.id = cred.id)
    (hversion : c.before.leaseVersion = cred.leaseVersion) : LapsedIn cred w' := by
  have hdecided := (hexplained tx t ht).decided (show _ = some d by rw [hphase]; rfl)
  have hlocked := hdecided.holder_of_change hc
  have htransition := hdecided.performs.transition hc
  have hafterId := hdecided.performs.after_id c hc
  rw [hid] at hlocked hafterId
  have hrow : w'.steps.find? cred.id = some c.after := by
    have hcurrent := hdecided.performs.current c hc
    rw [hid, ← hafterId] at hcurrent
    rw [hw', ← hafterId]
    refine Relational.Table.find?_setAll_of_mem _ ?_ (List.mem_map_of_mem hc) hcurrent
    rw [hdecided.performs.after_ids]
    exact hdecided.performs.distinct
  have hlapsed : Lapsed cred w'.clock c.after := by
    rw [hcall] at htransition
    cases htransition with
    | recover _ _ _ hcols =>
      refine ⟨by rw [hcols, ← hversion], not_live_of_status ?_⟩
      rw [hcols]
      dsimp only
      split <;> simp
  refine LapsedIn.of_holder tx hexplained' (fun other hother => ?_) hrow hlapsed ?_
  · rw [hw'] at hother
    obtain ⟨hne, hheld⟩ := finish_holder_cases hother
    exact absurd (Option.some.inj (hheld.symm.trans hlocked)) hne
  · intro t' d' ht'
    rw [hw'] at ht'
    simp [World.publish] at ht'

/-- A recovered generation has lapsed in every later state. -/
theorem lapsedIn_of_recovered {w₀ w : World} (h₀ : w₀.Initial) (h : Reaches forwardStep w₀ w)
    {cred : Credential} (hrecovered : Recovered w.history cred) : LapsedIn cred w := by
  refine h.rec_tail (motive := fun w => Recovered w.history cred → LapsedIn cred w) ?_ ?_ hrecovered
  · rintro ⟨c, hc, -⟩
    simp [h₀.noHistory] at hc
  · rintro v a v' hreach ih hstep ⟨c, hc, hcall, ch, hch, hid, hversion⟩
    have hexplained := AllExplained.reaches h₀ hreach.of_guarded
    have hplain := (guarded_eq_some.mp hstep).2
    by_cases hold : c ∈ v.history
    · exact ((ih ⟨c, hold, hcall, ch, hch, hid, hversion⟩).step hexplained hstep).1
    · by_cases hcommit : ∃ tx, a = .commit tx
      · obtain ⟨tx, rfl⟩ := hcommit
        have hexplained' := hexplained.step hplain
        cases step_cases hplain with
        | commit ht hphase =>
          rcases List.mem_append.mp hc with hc | hc
          · exact absurd hc hold
          · obtain rfl := List.mem_singleton.mp hc
            exact .of_recovery hexplained hexplained' ht hphase rfl hcall hch hid hversion
      · rw [(step_unpublished hplain fun tx h => hcommit ⟨tx, h⟩).2.2] at hc
        exact absurd hc hold

theorem traced_forward {w₀ w : World} {as : List Action} {tx : TxId} {call : Call}
    {start : Timestamp} {d : Decision} (h : Traced w₀ as tx call start d)
    (hrun : run forwardStep w₀ as = some w) :
    ∃ as₁ as₂ u, as = as₁ ++ .run tx :: as₂ ∧ run forwardStep w₀ as₁ = some u ∧
      Decides u tx call start d := by
  obtain ⟨as₁, as₂, u, rfl, hu, hdecides⟩ := h
  obtain ⟨v, hv, -⟩ := (run_append_eq_some _).mp hrun
  obtain rfl := Option.some.inj ((run_of_guarded hv).symm.trans hu)
  exact ⟨as₁, as₂, v, rfl, hv, hdecides⟩

/-- In a forward run an accepted owner write is judged under its row lock, before
the stored deadline. A recovery is judged at or after the deadline it ends. Once
a granted credential has been turned down, or its generation recovered, all of
its later writes are turned down. -/
theorem deadline_limits_authority {w₀ w : World} (h₀ : w₀.Initial) {as : List Action}
    (hrun : run forwardStep w₀ as = some w) :
    (∀ c ∈ w.history, ∀ cred, c.call.credential? = some cred → isRejection c.outcome = false →
      ∃ as₁ as₂ u r deadline, as = as₁ ++ .run c.tx :: as₂ ∧ run forwardStep w₀ as₁ = some u ∧
        Decides u c.tx c.call c.start c.decision ∧ u.holder cred.id = some c.tx ∧
        u.steps.find? cred.id = some r ∧ r.leaseExpiresAt = some deadline ∧ u.clock < deadline) ∧
    (∀ c ∈ w.history, c.call = .recoverExpiredSteps → ∀ ch ∈ c.decision.changes,
      ∃ as₁ as₂ u deadline, as = as₁ ++ .run c.tx :: as₂ ∧ run forwardStep w₀ as₁ = some u ∧
        Decides u c.tx c.call c.start c.decision ∧ u.holder ch.before.id = some c.tx ∧
        u.steps.find? ch.before.id = some ch.before ∧ ch.before.leaseExpiresAt = some deadline ∧
        deadline ≤ ch.checkedAt ∧ ch.checkedAt ≤ u.clock) ∧
    (∀ as₁ as₂ u u' tx cred, as = as₁ ++ .run tx :: as₂ → run forwardStep w₀ as₁ = some u →
      Granted u.history cred → Rejects u tx cred u' → OnlyRejects cred u' w) ∧
    (∀ as₁ as₂ u cred, as = as₁ ++ as₂ → run forwardStep w₀ as₁ = some u →
      Recovered u.history cred → OnlyRejects cred u w) := by
  have htraced := (traced_of_run h₀ (run_of_guarded hrun)).2
  refine ⟨fun c hc cred hcred haccepted => ?_, fun c hc hcall ch hch => ?_, ?_, ?_⟩
  · have hne : c.decision.changes ≠ [] := fun hnil => by
      have hrejected := isRejection_of_unchanged hcred c.decision.instant
      simp [Commit.outcome, hnil, hrejected] at haccepted
    obtain ⟨as₁, as₂, u, has, hu, hdecides⟩ := traced_forward (htraced c hc hne) hrun
    obtain ⟨t, ht, hcall, hstart, hdecided⟩ :=
      hdecides.decided (AllExplained.reaches h₀ (Reaches.of_guarded ⟨as₁, hu⟩))
    obtain ⟨ch, hch⟩ := List.exists_mem_of_ne_nil _ hne
    have hlive := live_of_owner_change (hcall ▸ hcred) (hdecided.performs.transition hch)
    obtain ⟨hid, -, -, -, deadline, hdeadline, hlt⟩ := holdsLiveLease_iff.mp hlive
    rw [hdecides.instant] at hlt
    have hlocked := hdecided.holder_of_change hch
    have hcurrent := hdecided.performs.current ch hch
    rw [hid] at hlocked hcurrent
    exact ⟨as₁, as₂, u, ch.before, deadline, has, hu, hdecides, hlocked, hcurrent, hdeadline, hlt⟩
  · have hne : c.decision.changes ≠ [] := List.ne_nil_of_mem hch
    obtain ⟨as₁, as₂, u, has, hu, hdecides⟩ := traced_forward (htraced c hc hne) hrun
    obtain ⟨t, ht, hcall', hstart, hdecided⟩ :=
      hdecides.decided (AllExplained.reaches h₀ (Reaches.of_guarded ⟨as₁, hu⟩))
    have heligible := hdecided.performs.eligible ch hch
    rw [hcall', hcall] at heligible
    obtain ⟨-, deadline, hdeadline, hle⟩ := recoverEligible_iff.mp heligible
    have htimes := ((OnTime.reaches h₀ ⟨as, hrun⟩).past c hc).1
    refine ⟨as₁, as₂, u, deadline, has, hu, hdecides, hdecided.holder_of_change hch,
      hdecided.performs.current ch hch, hdeadline, hle, ?_⟩
    rw [← hdecides.instant]
    exact htimes.judged ch hch
  · rintro as₁ as₂ u u' tx cred rfl hu hgranted ⟨⟨t, ht, hcred, -⟩, hmoved, t', instant, ht', hd⟩
    obtain ⟨v, hv, hrest⟩ := (run_append_eq_some _).mp hrun
    obtain rfl := Option.some.inj (hu.symm.trans hv)
    obtain ⟨v', hv', hrest⟩ := (run_cons_eq_some _).mp hrest
    obtain rfl := Option.some.inj ((guarded_eq_some.mp hv').2.symm.trans hmoved)
    have hreach : Reaches forwardStep w₀ v' := Reaches.tail ⟨as₁, hu⟩ hv'
    have hexplained := AllExplained.reaches h₀ hreach.of_guarded
    have hhistory := (step_unpublished hmoved (by simp)).2.2
    rw [← hhistory] at hgranted
    obtain ⟨r, hr, hle⟩ := granted_le h₀ hreach.of_guarded hgranted
    have hcred' : t'.call.credential? = some cred := by
      rw [call_of_run hmoved ht ht', hcred]
    exact (LapsedIn.of_rejected hexplained (.reaches h₀ hreach) ht' hcred' hd hr hle).reaches
      hexplained ⟨as₂, hrest⟩
  · rintro as₁ as₂ u cred rfl hu hrecovered
    obtain ⟨v, hv, hrest⟩ := (run_append_eq_some _).mp hrun
    obtain rfl := Option.some.inj (hu.symm.trans hv)
    have hreach : Reaches forwardStep w₀ u := ⟨as₁, hu⟩
    exact (lapsedIn_of_recovered h₀ hreach hrecovered).reaches
      (AllExplained.reaches h₀ hreach.of_guarded) ⟨as₂, hrest⟩

def renewalThenExpiry : List Action :=
  callAlone 0 (.claimNextStep "worker" 5) 6 ++ [.tick 4000] ++
    callAlone 1 (.renewStepLease ⟨7, "worker", ⟨1, Int4.inRange_one⟩⟩ 5) 3 ++ [.tick 9000] ++
    callAlone 2 .recoverExpiredSteps 6 ++
    callAlone 3 (.renewStepLease ⟨7, "worker", ⟨1, Int4.inRange_one⟩⟩ 30000) 3

theorem deadline_limits_authority_renewal :
    ∃ w, run forwardStep .singleStep renewalThenExpiry = some w ∧
      ∃ as₁ as₂ u r deadline, renewalThenExpiry = as₁ ++ .run 1 :: as₂ ∧
        run forwardStep .singleStep as₁ = some u ∧
        u.holder 7 = some 1 ∧ u.steps.find? 7 = some r ∧ r.leaseExpiresAt = some deadline ∧
        u.clock < deadline := by
  have hruns : (run forwardStep .singleStep renewalThenExpiry).any
      (fun w => ∃ c ∈ w.history, c.tx = 1 ∧
        c.call.credential? = some ⟨7, "worker", ⟨1, by decide⟩⟩ ∧
        isRejection c.outcome = false) = true := by
    decide +kernel
  obtain ⟨w, hw, hend⟩ := (Option.any_eq_true _ _).mp hruns
  obtain ⟨c, hc, htx, hcred, haccepted⟩ := of_decide_eq_true hend
  obtain ⟨hlive, -⟩ := deadline_limits_authority World.initial_singleStep hw
  obtain ⟨as₁, as₂, u, r, deadline, has, hu, -, hheld, hr, hdeadline, hlt⟩ :=
    hlive c hc _ hcred haccepted
  rw [htx] at has hheld
  exact ⟨w, hw, as₁, as₂, u, r, deadline, has, hu, hheld, hr, hdeadline, hlt⟩

end DurableRunner.Guarantees
