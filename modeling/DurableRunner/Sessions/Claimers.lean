import DurableRunner.Sessions.Contested

/-! # Claimers among themselves

While only claims run and all of them commit, a row lock is a promise: its row
will be claimed by the holder, unless it was claimed before the lock was taken.
-/
namespace DurableRunner.Sessions
open Schema Operations TransitionSystem

/-- The transaction will write the row, or has failed. -/
def Promises (phase : Phase) (id : StepId) : Prop :=
  id ∈ phase.picked.map Pick.id ∨
    (∃ d, phase.decision? = some d ∧ id ∈ d.changes.map fun c => c.before.id) ∨
      ∃ e, phase = .aborted e

/-- A lock of a claimer is a promise, or kept from a row that was claimed meanwhile. -/
def LocksPromise (w : World) : Prop :=
  ∀ id tx t, w.holder id = some tx → w.txs tx = some t → Promises t.phase id ∨ Taken w id

section Moves
variable {w₀ w : World} {tx : TxId} {t : Tx} {m : Move}

theorem Promises.move {id : StepId} (hclaim : IsClaim t.call) (hexplained : Explained w tx t)
    (hmove : MoveCase w tx t m) (h : Promises t.phase id) : Promises (m.phase w t) id := by
  obtain ⟨workerId, ms, hcall⟩ := hclaim
  have hcred : t.call.credential? = none := by rw [hcall]; rfl
  have hselects : t.call ≠ .lockRows := by rw [hcall]; nofun
  cases hmove with
  | release hphase | missing hphase | lockOwner hphase | scan hphase =>
    rw [hphase] at h
    simp [Promises, Phase.picked, Phase.decision?] at h
  | finishSelect hphase | skip hphase | keepLock hphase =>
    rw [hphase] at h
    rcases h with h | ⟨d, hd, -⟩ | ⟨e, he⟩
    · exact .inl h
    · cases hd
    · cases he
  | pick hphase hlimit hfree hfind hcheck =>
    rw [hphase] at h
    rcases h with h | ⟨d, hd, -⟩ | ⟨e, he⟩
    · exact .inl (by simpa [Move.phase, Phase.picked] using .inl (by simpa [Phase.picked] using h))
    · cases hd
    · cases he
  | updateError | insertError => exact .inr (.inr ⟨_, rfl⟩)
  | @update picked changes hphase hupdate =>
    simp only [Explained, hphase] at hexplained
    rw [hphase] at h
    rcases h with h | ⟨d, hd, -⟩ | ⟨e, he⟩
    · obtain ⟨p, hp, rfl⟩ := List.mem_map.mp h
      obtain ⟨r, hr, -⟩ := hexplained.1.eligible p hp
      have hbefore := Call.updateAll_before hcred hselects hupdate
      have hrow : (r, p.checkedAt) ∈ w.rowsOf picked := mem_rowsOf.mpr ⟨p, hp, hr, rfl⟩
      rw [← hbefore] at hrow
      obtain ⟨ch, hch, hsame⟩ := List.mem_map.mp hrow
      refine .inr (.inl ⟨_, rfl, List.mem_map.mpr ⟨ch, hch, ?_⟩⟩)
      rw [(Prod.mk.inj hsame).1, id_of_find? hr]
    · cases hd
    · cases he
  | finishInsert hphase | insert hphase hrecord =>
    rw [hphase] at h
    rcases h with h | ⟨d, hd, hid⟩ | ⟨e, he⟩
    · cases h
    · exact .inr (.inl ⟨d, hd, hid⟩)
    · cases he

theorem lock_or_held {id : StepId} (h : (w.apply tx t m).holder id = some tx) :
    (∃ phase, m = .lock id phase) ∨ w.holder id = some tx := by
  cases m with
  | enter phase => exact .inr h
  | insert e d owed inserted => exact .inr h
  | lock locked phase =>
    simp only [World.apply, Function.update_apply] at h
    split at h
    · rename_i hid
      exact .inl ⟨phase, by rw [hid]⟩
    · exact .inr h

theorem promises_of_lock {id : StepId} {phase : Phase} (hclaim : IsClaim t.call)
    (hcandidates : ∀ scannedAt rest picked, t.phase = .selecting scannedAt rest picked →
      ∀ r ∈ rest, w₀.steps.find? r.id = some r)
    (h : Contested w₀ w) (hmove : MoveCase w tx t m) (hm : m = .lock id phase) :
    Promises (m.phase w t) id ∨ Taken w id := by
  obtain ⟨workerId, ms, hcall⟩ := hclaim
  cases hmove with
  | lockOwner hphase hcred =>
    rw [hcall] at hcred
    cases hcred
  | pick hphase =>
    obtain ⟨rfl, -⟩ := Move.lock.inj hm
    exact .inl (.inl (by simp [Move.phase, Phase.picked]))
  | keepLock hphase hlimit hfree hfind hne hcheck =>
    obtain ⟨rfl, -⟩ := Move.lock.inj hm
    exact .inr (h.taken_of_ne (hcandidates _ _ _ hphase _ List.mem_cons_self) hfind hne)
  | release | missing | scan | finishSelect | skip | updateError | update | finishInsert
  | insertError | insert => cases hm

end Moves

/-- The row has been claimed, or will be. -/
def Secured (w : World) (id : StepId) : Prop :=
  Taken w id ∨ ∃ tx t, w.txs tx = some t ∧ Promises t.phase id

/-- What a claimer that has picked nothing has yet to look at. -/
def Phase.pending? : Phase → Option (List StepRow)
  | .selecting _ rest [] => some rest
  | .selected [] => some []
  | .inserting ⟨_, []⟩ _ _ | .done ⟨_, []⟩ _ => some []
  | _ => none

/-- The claimer came to this row of its snapshot while another one held it or had claimed it. -/
def Visited (w₀ : World) (as : List Action) (tx : TxId) (r : StepRow) : Prop :=
  ∃ pre u t, pre <+: as ∧ run step w₀ pre = some u ∧ u.txs tx = some t ∧
    (∃ scannedAt rest picked, t.phase = .selecting scannedAt (r :: rest) picked) ∧
    ((∃ other, other ≠ tx ∧ u.holder r.id = some other) ∨
      ∃ c ∈ u.history, c.tx ≠ tx ∧ r.id ∈ c.written)

/-- The claimer took its snapshot, and has visited in vain all of it but these rows. -/
def Searched (w₀ : World) (as : List Action) (tx : TxId) (pending : List StepRow) : Prop :=
  ∃ pre v t, pre ++ [.run tx] <+: as ∧ run step w₀ pre = some v ∧ v.txs tx = some t ∧
    t.phase = .begun ∧ ∀ r ∈ v.candidates t.call t.start, r ∈ pending ∨ Visited w₀ as tx r

theorem Visited.append {w₀ : World} {as : List Action} {tx : TxId} {r : StepRow}
    (h : Visited w₀ as tx r) (bs : List Action) : Visited w₀ (as ++ bs) tx r := by
  obtain ⟨pre, u, t, hpre, hu⟩ := h
  exact ⟨pre, u, t, hpre.trans (List.prefix_append as bs), hu⟩

theorem Searched.append {w₀ : World} {as : List Action} {tx : TxId} {pending : List StepRow}
    (h : Searched w₀ as tx pending) (bs : List Action) : Searched w₀ (as ++ bs) tx pending := by
  obtain ⟨pre, v, t, hpre, hv, ht, hphase, hrows⟩ := h
  exact ⟨pre, v, t, hpre.trans (List.prefix_append as bs), hv, ht, hphase,
    fun r hr => (hrows r hr).imp_right fun hvisited => hvisited.append bs⟩

theorem Searched.visit {w₀ : World} {as : List Action} {tx : TxId} {r : StepRow}
    {pending : List StepRow} (h : Searched w₀ as tx (r :: pending)) (hr : Visited w₀ as tx r) :
    Searched w₀ as tx pending := by
  obtain ⟨pre, v, t, hpre, hv, ht, hphase, hrows⟩ := h
  refine ⟨pre, v, t, hpre, hv, ht, hphase, fun r' hr' => ?_⟩
  rcases hrows r' hr' with hmem | hvisited
  · rcases List.mem_cons.mp hmem with rfl | hmem
    · exact .inr hr
    · exact .inl hmem
  · exact .inr hvisited

/-- The claimers of a run, and what their searches have shown. -/
structure Claimers (w₀ : World) (as : List Action) (w : World) : Prop where
  contested : Contested w₀ w
  locks : LocksPromise w
  candidates : ∀ tx t, w.txs tx = some t → ∀ scannedAt rest picked,
    t.phase = .selecting scannedAt rest picked → ∀ r ∈ rest, w₀.steps.find? r.id = some r
  searches : ∀ tx t, w.txs tx = some t → ∀ rows, t.phase.pending? = some rows →
    Searched w₀ as tx rows
  searched : ∀ c ∈ w.history, c.decision.changes = [] → Searched w₀ as c.tx []

section Moves
variable {w₀ w : World} {as : List Action} {tx : TxId} {t : Tx} {m : Move}

theorem candidates_of_move (hcontested : Contested w₀ w) (hclaim : IsClaim t.call)
    (hcandidates : ∀ scannedAt rest picked, t.phase = .selecting scannedAt rest picked →
      ∀ r ∈ rest, w₀.steps.find? r.id = some r) (hmove : MoveCase w tx t m) :
    ∀ scannedAt rest picked, m.phase w t = .selecting scannedAt rest picked →
      ∀ r ∈ rest, w₀.steps.find? r.id = some r := by
  intro scannedAt rest picked hphase' r hr
  cases hmove with
  | scan hphase =>
    obtain ⟨-, rfl, -⟩ := Phase.selecting.inj hphase'
    obtain ⟨hrow, heligible⟩ := mem_candidates.mp hr
    obtain ⟨workerId, ms, hcall⟩ := hclaim
    rw [hcall] at heligible
    exact (hcontested.not_taken (Relational.Table.mem_iff_find?.mp hrow)
      (claimEligible_iff.mp heligible).1).2
  | skip hphase | pick hphase | keepLock hphase =>
    obtain ⟨-, rfl, -⟩ := Phase.selecting.inj hphase'
    exact hcandidates _ _ _ hphase r (List.mem_cons_of_mem _ hr)
  | release | missing | lockOwner | finishSelect | updateError | update | finishInsert
  | insertError | insert => cases hphase'

/-- A claimer that goes on without a pick has visited one more row in vain. -/
theorem searched_of_move (hrun : run step w₀ as = some w) (hnumbered : Numbered w)
    (hcontested : Contested w₀ w) (hclaim : IsClaim t.call) (ht : w.txs tx = some t)
    (hexplained : Explained w tx t)
    (hcandidates : ∀ scannedAt rest picked, t.phase = .selecting scannedAt rest picked →
      ∀ r ∈ rest, w₀.steps.find? r.id = some r)
    (h : ∀ rows, t.phase.pending? = some rows → Searched w₀ as tx rows)
    (hmove : MoveCase w tx t m) :
    ∀ rows, (m.phase w t).pending? = some rows → Searched w₀ (as ++ [.run tx]) tx rows := by
  obtain ⟨workerId, ms, hcall⟩ := hclaim
  have hcred : t.call.credential? = none := by rw [hcall]; rfl
  have hselects : t.call ≠ .lockRows := by rw [hcall]; nofun
  intro rows hrows
  cases hmove with
  | release hphase hrelease => exact absurd hrelease hselects
  | missing hphase howner | lockOwner hphase howner =>
    rw [hcred] at howner
    cases howner
  | scan hphase =>
    obtain rfl := Option.some.inj hrows
    exact ⟨as, w, t, List.prefix_refl _, hrun, ht, hphase, fun r hr => .inl hr⟩
  | @finishSelect scannedAt candidates picked hphase hend =>
    cases picked with
    | nil =>
      obtain rfl := Option.some.inj hrows
      rcases hend with hfull | rfl
      · rw [hcall] at hfull
        cases hfull
      · exact (h [] (by rw [hphase]; rfl)).append _
    | cons => cases hrows
  | @skip scannedAt snapshot rest picked hphase hlimit hheld =>
    cases picked with
    | nil =>
      obtain rfl := Option.some.inj hrows
      have hother := heldByOther_iff.mp (hheld.resolve_right
        (hcontested.present (hcandidates _ _ _ hphase _ List.mem_cons_self)))
      refine Searched.append (Searched.visit (h _ (by rw [hphase]; rfl)) ?_) _
      exact ⟨as, w, t, List.prefix_refl _, hrun, ht, ⟨_, _, _, hphase⟩, .inl hother⟩
    | cons => cases hrows
  | @pick scannedAt checkedAt snapshot newest rest picked hphase =>
    cases picked <;> cases hrows
  | @keepLock scannedAt snapshot newest rest picked hphase hlimit hfree hfind hne hcheck =>
    cases picked with
    | nil =>
      obtain rfl := Option.some.inj hrows
      obtain ⟨c, hc, hwritten⟩ := hcontested.taken_of_ne
        (hcandidates _ _ _ hphase _ List.mem_cons_self) hfind hne
      have hother := (hnumbered.live tx (by rw [ht]; rfl)).2 c hc
      refine Searched.append (Searched.visit (h _ (by rw [hphase]; rfl)) ?_) _
      exact ⟨as, w, t, List.prefix_refl _, hrun, ht, ⟨_, _, _, hphase⟩,
        .inr ⟨c, hc, hother, hwritten⟩⟩
    | cons => cases hrows
  | @update picked changes hphase hupdate =>
    cases changes with
    | nil =>
      obtain rfl := Option.some.inj hrows
      simp only [Explained, hphase] at hexplained
      have hnone : picked = [] := by
        refine List.eq_nil_iff_forall_not_mem.mpr fun p hp => ?_
        obtain ⟨r, hr, -⟩ := hexplained.1.eligible p hp
        have hrow : (r, p.checkedAt) ∈ w.rowsOf picked := mem_rowsOf.mpr ⟨p, hp, hr, rfl⟩
        rw [← Call.updateAll_before hcred hselects hupdate] at hrow
        cases hrow
      exact (h [] (by rw [hphase, hnone]; rfl)).append _
    | cons => cases hrows
  | @finishInsert d inserted hphase =>
    obtain ⟨instant, changes⟩ := d
    cases changes with
    | nil => exact (h rows (by rw [hphase]; exact hrows)).append _
    | cons => cases hrows
  | @insert d e owed inserted hphase =>
    obtain ⟨instant, changes⟩ := d
    cases changes with
    | nil => exact (h rows (by rw [hphase]; exact hrows)).append _
    | cons => cases hrows
  | updateError | insertError => cases hrows

end Moves

section Steps
variable {w₀ w w' : World} {as : List Action} {a : Action} (h : Claimers w₀ as w)
  (hnumbered : Numbered w) (hexplained : AllExplained w)
include h

theorem Claimers.frame (hcontested : Contested w₀ w') (hhistory : w'.history = w.history)
    (hholder : w'.holder = w.holder)
    (htxs : ∀ tx t, w'.txs tx = some t → w.txs tx = some t ∨
      (t.phase = .begun ∧ ∀ id, w.holder id ≠ some tx)) :
    Claimers w₀ (as ++ [a]) w' where
  contested := hcontested
  locks id tx t hheld ht := by
    rw [hholder] at hheld
    rcases htxs tx t ht with ht | ⟨-, hfree⟩
    · exact (h.locks id tx t hheld ht).imp_right fun hid => hid.of_history hhistory
    · exact absurd hheld (hfree id)
  candidates tx t ht scannedAt rest picked hphase := by
    rcases htxs tx t ht with ht | ⟨hbegun, -⟩
    · exact h.candidates tx t ht scannedAt rest picked hphase
    · rw [hbegun] at hphase
      cases hphase
  searches tx t ht rows hrows := by
    rcases htxs tx t ht with ht | ⟨hbegun, -⟩
    · exact (h.searches tx t ht rows hrows).append _
    · rw [hbegun] at hrows
      cases hrows
  searched c hc hnil := by
    rw [hhistory] at hc
    exact (h.searched c hc hnil).append _

include hnumbered hexplained

theorem Claimers.step (hrun : run Sessions.step w₀ as = some w) (ha : Contends w₀ a)
    (hstep : Sessions.step w a = some w') : Claimers w₀ (as ++ [a]) w' := by
  have hcontested := h.contested.step hexplained ha hstep
  cases step_cases hstep with
  | tick clock => exact h.frame hcontested rfl rfl fun tx t ht => .inl ht
  | start call hadmissible =>
    refine h.frame hcontested rfl rfl fun tx t ht => ?_
    rcases begin_txs_cases ht with ⟨rfl, rfl⟩ | ⟨-, ht⟩
    · exact .inr ⟨rfl, fun id hheld => (hnumbered.live _ (hnumbered.holders id _ hheld)).1.ne rfl⟩
    · exact .inl ht
  | @run tx t m ht hmove =>
    obtain ⟨hclaim, -⟩ := h.contested.claims tx t ht
    obtain ⟨t', ht', hcall, hstart, hphase⟩ := apply_txs_self w tx t m
    have hmoved : ∀ t'', (w.apply tx t m).txs tx = some t'' → t''.phase = m.phase w t := by
      intro t'' ht''
      rw [← Option.some.inj (ht'.symm.trans ht''), hphase]
    have htaken : ∀ id, Taken w id → Taken (w.apply tx t m) id := fun id hid =>
      hid.of_history (apply_history _ _ _ _)
    refine ⟨hcontested, fun id other t'' hheld ht'' => ?_, fun other t'' ht'' => ?_,
      fun other t'' ht'' => ?_, fun c hc hnil => ?_⟩
    · rcases apply_txs_cases ht'' with ⟨rfl, ht''⟩ | ⟨hne, ht''⟩
      · rw [hmoved t'' ht'']
        rcases lock_or_held hheld with ⟨phase, hm⟩ | hheld'
        · exact (promises_of_lock hclaim (h.candidates _ _ ht) h.contested hmove hm).imp_right
            (htaken id)
        · exact (h.locks id _ t hheld' ht).imp (fun hpromise =>
            hpromise.move hclaim (hexplained _ _ ht) hmove) (htaken id)
      · have hheld' := (apply_holder_of_ne (fun _ _ => hmove.lock_free) hne).mp hheld
        exact (h.locks id other t'' hheld' ht'').imp_right (htaken id)
    · rcases apply_txs_cases ht'' with ⟨rfl, ht''⟩ | ⟨hne, ht''⟩
      · rw [hmoved t'' ht'']
        exact candidates_of_move h.contested hclaim (h.candidates _ _ ht) hmove
      · exact h.candidates other t'' ht''
    · rcases apply_txs_cases ht'' with ⟨rfl, ht''⟩ | ⟨hne, ht''⟩
      · rw [hmoved t'' ht'']
        exact searched_of_move hrun hnumbered h.contested hclaim ht (hexplained _ _ ht)
          (h.candidates _ _ ht) (h.searches _ _ ht) hmove
      · exact fun rows hrows => (h.searches other t'' ht'' rows hrows).append _
    · rw [apply_history] at hc
      exact (h.searched c hc hnil).append _
  | @commit tx t d inserted ht hphase =>
    have htaken : ∀ id, Taken w id → Taken (w.publish tx t d inserted) id := by
      rintro id ⟨c, hc, hid⟩
      exact ⟨c, List.mem_append_left _ hc, hid⟩
    refine ⟨hcontested, fun id other t' hheld ht' => ?_,
      fun other t' ht' => h.candidates other t' (finish_txs_cases ht').2,
      fun other t' ht' rows hrows => (h.searches other t' (finish_txs_cases ht').2 rows hrows).append _,
      fun c hc hnil => ?_⟩
    · exact (h.locks id other t' (finish_holder_cases hheld).2 (finish_txs_cases ht').2).imp_right
        (htaken id)
    · rcases List.mem_append.mp hc with hc | hc
      · exact (h.searched c hc hnil).append _
      · obtain rfl := List.mem_singleton.mp hc
        refine (h.searches tx t ht [] ?_).append _
        obtain ⟨instant, changes⟩ := d
        obtain rfl : changes = [] := hnil
        rw [hphase]
        rfl
  | lockRow | fault | rollback => cases ha

theorem Claimers.secured (ha : Contends w₀ a) (hstep : Sessions.step w a = some w') {id : StepId}
    (hid : Secured w id) : Secured w' id := by
  rcases hid with hid | ⟨tx, t, ht, hpromise⟩
  · refine .inl ?_
    cases step_cases hstep with
    | commit =>
      obtain ⟨c, hc, hwritten⟩ := hid
      exact ⟨c, List.mem_append_left _ hc, hwritten⟩
    | run => exact hid.of_history (apply_history _ _ _ _)
    | tick | start => exact hid
    | lockRow | fault | rollback => cases ha
  · cases step_cases hstep with
    | tick clock => exact .inr ⟨tx, t, ht, hpromise⟩
    | start call hadmissible =>
      have hne : tx ≠ w.nextTx := (hnumbered.live tx (by rw [ht]; rfl)).1.ne
      exact .inr ⟨tx, t, by simpa [World.begin, World.setTx, Function.update_of_ne hne] using ht,
        hpromise⟩
    | @run other t' m ht' hmove =>
      by_cases hother : tx = other
      · subst hother
        obtain rfl := Option.some.inj (ht.symm.trans ht')
        obtain ⟨t'', ht'', -, -, hphase⟩ := apply_txs_self w tx t m
        refine .inr ⟨tx, t'', ht'', ?_⟩
        rw [hphase]
        exact hpromise.move (h.contested.claims tx t ht).1 (hexplained tx t ht) hmove
      · exact .inr ⟨tx, t, by rw [apply_txs_of_ne _ _ _ _ hother, ht], hpromise⟩
    | @commit other t' d inserted ht' hphase =>
      by_cases hother : tx = other
      · subst hother
        obtain rfl := Option.some.inj (ht.symm.trans ht')
        rw [hphase] at hpromise
        rcases hpromise with hpick | ⟨d', hd, hwritten⟩ | ⟨e, he⟩
        · cases hpick
        · obtain rfl := Option.some.inj hd
          exact .inl ⟨_, List.mem_append_right _ (List.mem_singleton_self _), hwritten⟩
        · cases he
      · exact .inr ⟨tx, t, (finish_txs_of_ne w other hother).trans ht, hpromise⟩
    | lockRow | fault | rollback => cases ha

end Steps

theorem claimers_of_run {w₀ w : World} {as : List Action} (h₀ : w₀.Initial)
    (hclaims : ∀ a ∈ as, Contends w₀ a) (hrun : run step w₀ as = some w) : Claimers w₀ as w := by
  induction as using List.reverseRecOn generalizing w with
  | nil =>
    obtain rfl := Option.some.inj hrun
    exact ⟨.of_initial h₀, fun id tx t hheld => by simp [h₀.noLock] at hheld,
      fun tx t ht => by simp [h₀.noTx] at ht, fun tx t ht => by simp [h₀.noTx] at ht,
      fun c hc => by simp [h₀.noHistory] at hc⟩
  | append_singleton as a ih =>
    obtain ⟨v, hv, hstep⟩ := (run_concat_eq_some _).mp hrun
    exact (ih (fun a ha => hclaims a (List.mem_append_left _ ha)) hv).step (.reaches h₀ ⟨as, hv⟩)
      (.reaches h₀ ⟨as, hv⟩) hv (hclaims a (by simp)) hstep

/-- A row that is promised or claimed at some time has been claimed when all claimers are done. -/
theorem taken_of_secured {w₀ u w : World} {pre post : List Action} (h₀ : w₀.Initial)
    (hclaims : ∀ a ∈ pre ++ post, Contends w₀ a) (hpre : run step w₀ pre = some u)
    (hpost : run step u post = some w) (hended : ∀ tx, w.txs tx = none) {id : StepId}
    (hid : Secured u id) : Taken w id := by
  have hsecured : Secured w id := by
    clear hended
    induction post using List.reverseRecOn generalizing w with
    | nil =>
      obtain rfl := Option.some.inj hpost
      exact hid
    | append_singleton post a ih =>
      obtain ⟨v, hv, hstep⟩ := (run_concat_eq_some _).mp hpost
      have hclaims' : ∀ a ∈ pre ++ post, Contends w₀ a := fun a ha => hclaims a (by
        rw [← List.append_assoc]
        exact List.mem_append_left _ ha)
      have hrun : run step w₀ (pre ++ post) = some v := (run_append_eq_some _).mpr ⟨u, hpre, hv⟩
      exact (claimers_of_run h₀ hclaims' hrun).secured (.reaches h₀ ⟨_, hrun⟩)
        (.reaches h₀ ⟨_, hrun⟩) (hclaims a (by simp)) hstep (ih hclaims' hv)
  rcases hsecured with htaken | ⟨tx, t, ht, -⟩
  · exact htaken
  · rw [hended] at ht
    cases ht

end DurableRunner.Sessions
