import DurableRunner.Sessions.StepCases

/-! # Clock readings of a run in which time never goes back

Every reading a transaction has taken lies between its start and the present,
in the order in which its statements ran.
-/
namespace DurableRunner.Sessions
open Schema Operations TransitionSystem

/-- The readings of a live transaction are in order. -/
structure Timely (clock : Timestamp) (t : Tx) : Prop where
  started : t.start ≤ clock
  locked : ∀ l, t.lockedAt = some l → t.start ≤ l ∧ l ≤ clock
  scanned : ∀ scannedAt candidates picked,
    t.phase = .selecting scannedAt candidates picked → scannedAt ≤ clock
  judged : ∀ p ∈ t.phase.picked, p.checkedAt ≤ clock
  decided : ∀ d, t.phase.decision? = some d → t.start ≤ d.instant ∧ d.instant ≤ clock ∧
    (∀ l, t.lockedAt = some l → l ≤ d.instant) ∧ ∀ c ∈ d.changes, c.checkedAt ≤ d.instant
  inserted : ∀ d, t.phase.decision? = some d → ∀ e ∈ t.phase.inserted,
    d.instant ≤ e.createdAt ∧ e.createdAt ≤ clock

structure Commit.Timely (c : Commit) : Prop where
  locked : ∀ l, c.lockedAt = some l → c.start ≤ l ∧ l ≤ c.decision.instant
  started : c.start ≤ c.decision.instant
  decided : c.decision.instant ≤ c.committedAt
  judged : ∀ ch ∈ c.decision.changes, ch.checkedAt ≤ c.decision.instant
  inserted : ∀ e ∈ c.events, c.decision.instant ≤ e.createdAt ∧ e.createdAt ≤ c.committedAt

structure OnTime (w : World) : Prop where
  live : ∀ tx t, w.txs tx = some t → Timely w.clock t
  past : ∀ c ∈ w.history, c.Timely ∧ c.committedAt ≤ w.clock

theorem Timely.mono {clock clock' : Timestamp} {t : Tx} (h : Timely clock t)
    (hle : clock ≤ clock') : Timely clock' t where
  started := h.started.trans hle
  locked l hl := ⟨(h.locked l hl).1, (h.locked l hl).2.trans hle⟩
  scanned s c p hphase := (h.scanned s c p hphase).trans hle
  judged p hp := (h.judged p hp).trans hle
  decided d hd := ⟨(h.decided d hd).1, (h.decided d hd).2.1.trans hle, (h.decided d hd).2.2⟩
  inserted d hd e he := ⟨(h.inserted d hd e he).1, (h.inserted d hd e he).2.trans hle⟩

theorem Timely.enter_blank {clock : Timestamp} {t : Tx} {phase : Phase} (h : Timely clock t)
    (hselecting : ∀ s c p, phase ≠ .selecting s c p) (hpicked : phase.picked = [])
    (hdecision : phase.decision? = none) : Timely clock { t with phase } where
  started := h.started
  locked := h.locked
  scanned s c p hphase := absurd hphase (hselecting s c p)
  judged p hp := by simp [hpicked] at hp
  decided d hd := by simp [hdecision] at hd
  inserted d hd := by simp [hdecision] at hd

theorem Timely.enter_selecting {clock scannedAt : Timestamp} {t : Tx} {rest : List StepRow}
    {picked : List Pick} (h : Timely clock t) (hscanned : scannedAt ≤ clock)
    (hpicked : ∀ p ∈ picked, p.checkedAt ≤ clock) :
    Timely clock { t with phase := .selecting scannedAt rest picked } where
  started := h.started
  locked := h.locked
  scanned s c p hphase := by
    obtain ⟨rfl, -, -⟩ := Phase.selecting.inj hphase
    exact hscanned
  judged := hpicked
  decided := nofun
  inserted := nofun

theorem Timely.enter_selected {clock : Timestamp} {t : Tx} {picked : List Pick}
    (h : Timely clock t) (hpicked : ∀ p ∈ picked, p.checkedAt ≤ clock) :
    Timely clock { t with phase := .selected picked } where
  started := h.started
  locked := h.locked
  scanned := nofun
  judged := hpicked
  decided := nofun
  inserted := nofun

theorem Timely.enter_decided {clock : Timestamp} {t : Tx} {phase : Phase} {changes : List Change}
    (h : Timely clock t) (hselecting : ∀ s c p, phase ≠ .selecting s c p)
    (hpicked : phase.picked = []) (hdecision : phase.decision? = some ⟨clock, changes⟩)
    (hinserted : phase.inserted = []) (hjudged : ∀ c ∈ changes, c.checkedAt ≤ clock) :
    Timely clock { t with phase } where
  started := h.started
  locked := h.locked
  scanned s c p hphase := absurd hphase (hselecting s c p)
  judged p hp := by simp [hpicked] at hp
  decided d hd := by
    obtain rfl := Option.some.inj (hdecision.symm.trans hd)
    exact ⟨h.started, le_refl _, fun l hl => (h.locked l hl).2, hjudged⟩
  inserted d hd e he := by simp [hinserted] at he

/-- Taking a lock now is timely as long as nothing is decided. -/
theorem Timely.lock {clock : Timestamp} {t : Tx} {xid : Option ℕ} (h : Timely clock t)
    (hdecision : t.phase.decision? = none) :
    Timely clock { t with xid, lockedAt := some (t.lockedAt.getD clock) } where
  started := h.started
  locked l hl := by
    obtain rfl := Option.some.inj hl
    cases hlocked : t.lockedAt with
    | none => exact ⟨h.started, le_refl _⟩
    | some l => exact h.locked l hlocked
  scanned := h.scanned
  judged := h.judged
  decided d hd := by simp [hdecision] at hd
  inserted d hd := by simp [hdecision] at hd

theorem checkedAt_of_updateAll {w : World} {call : Call} {start : Timestamp} {picked : List Pick}
    {changes : List Change}
    (hupdate : call.updateAll start w.clock (w.rowsOf picked) = .ok changes)
    (hjudged : ∀ p ∈ picked, p.checkedAt ≤ w.clock) : ∀ c ∈ changes, c.checkedAt ≤ w.clock := by
  intro c hc
  have hmem : (c.before, c.checkedAt) ∈ w.rowsOf picked :=
    (Call.updateAll_sublist hupdate).subset (List.mem_map.mpr ⟨c, hc, rfl⟩)
  simp only [World.rowsOf, List.mem_filterMap, Option.map_eq_some_iff, Prod.mk.injEq] at hmem
  obtain ⟨p, hp, -, -, -, heq⟩ := hmem
  exact heq ▸ hjudged p hp

/-- A move reads the clock of its own world only. -/
theorem Timely.move {w : World} {tx : TxId} {t t' : Tx} {m : Move} (h : Timely w.clock t)
    (hm : MoveCase w tx t m) (ht' : (w.apply tx t m).txs tx = some t') : Timely w.clock t' := by
  cases hm with
  | release hphase hcall =>
    obtain rfl := eq_of_enter ht'
    exact h.enter_decided nofun rfl rfl rfl (by simp)
  | missing hphase hcred hfind =>
    obtain rfl := eq_of_enter ht'
    exact h.enter_decided nofun rfl rfl rfl (by simp)
  | lockOwner hphase hcred hfind hfree =>
    obtain rfl := eq_of_lock ht'
    exact (h.lock (by simp [hphase, Phase.decision?])).enter_selected (by simp)
  | scan hphase hcred hcall =>
    obtain rfl := eq_of_enter ht'
    exact h.enter_selecting (le_refl _) (by simp)
  | finishSelect hphase hend =>
    obtain rfl := eq_of_enter ht'
    exact h.enter_selected fun p hp => h.judged p (by simpa [hphase, Phase.picked] using hp)
  | skip hphase hlimit hheld =>
    obtain rfl := eq_of_enter ht'
    exact h.enter_selecting (h.scanned _ _ _ hphase) fun p hp =>
      h.judged p (by simpa [hphase, Phase.picked] using hp)
  | pick hphase hlimit hfree hfind hcheck =>
    obtain rfl := eq_of_lock ht'
    have hscanned := h.scanned _ _ _ hphase
    refine (h.lock (by simp [hphase, Phase.decision?])).enter_selecting hscanned fun p hp => ?_
    rcases List.mem_append.mp hp with hp | hp
    · exact h.judged p (by simpa [hphase, Phase.picked] using hp)
    · obtain rfl := List.mem_singleton.mp hp
      rcases hcheck with ⟨-, rfl⟩ | ⟨-, rfl, -⟩
      · exact hscanned
      · exact le_refl _
  | keepLock hphase hlimit hfree hfind hne hcheck =>
    obtain rfl := eq_of_lock ht'
    exact (h.lock (by simp [hphase, Phase.decision?])).enter_selecting (h.scanned _ _ _ hphase)
      fun p hp => h.judged p (by simpa [hphase, Phase.picked] using hp)
  | updateError hphase hupdate =>
    obtain rfl := eq_of_enter ht'
    exact h.enter_blank nofun rfl rfl
  | update hphase hupdate =>
    obtain rfl := eq_of_enter ht'
    have hjudged := h.judged
    rw [hphase] at hjudged
    exact h.enter_decided nofun rfl rfl rfl (checkedAt_of_updateAll hupdate hjudged)
  | finishInsert hphase =>
    obtain rfl := eq_of_enter ht'
    have hdecided := h.decided
    have hinserted := h.inserted
    rw [hphase] at hdecided hinserted
    exact ⟨h.started, h.locked, nofun, by simp [Phase.picked], hdecided, hinserted⟩
  | insertError hphase hrecord =>
    obtain rfl := eq_of_enter ht'
    exact h.enter_blank nofun rfl rfl
  | insert hphase hrecord =>
    obtain rfl := eq_of_insert ht'
    have hdecided := h.decided
    have hinserted := h.inserted
    rw [hphase] at hdecided hinserted
    refine ⟨h.started, h.locked, nofun, by simp [Phase.picked], hdecided, fun d hd e he => ?_⟩
    rcases List.mem_append.mp he with he | he
    · exact hinserted d hd e he
    · obtain rfl := List.mem_singleton.mp he
      exact ⟨(hdecided d hd).2.1, le_refl _⟩

theorem Timely.commit {clock : Timestamp} {tx : TxId} {t : Tx} {d : Decision}
    {inserted : List EventRow} (h : Timely clock t) (hphase : t.phase = .done d inserted) :
    Commit.Timely ⟨tx, t.call, t.start, t.lockedAt, d, inserted, clock⟩ := by
  have hdecided := h.decided
  have hinserted := h.inserted
  rw [hphase] at hdecided hinserted
  obtain ⟨hstart, hclock, hlocked, hjudged⟩ := hdecided d rfl
  exact ⟨fun l hl => ⟨(h.locked l hl).1, hlocked l hl⟩, hstart, hclock, hjudged, hinserted d rfl⟩

theorem OnTime.apply {w : World} {tx : TxId} {t : Tx} {m : Move} (h : OnTime w)
    (hself : ∀ t', (w.apply tx t m).txs tx = some t' → Timely w.clock t') :
    OnTime (w.apply tx t m) where
  live other t' ht' := by
    rw [apply_clock]
    rcases apply_txs_cases ht' with ⟨rfl, ht'⟩ | ⟨hother, ht'⟩
    · exact hself t' ht'
    · exact h.live other t' ht'
  past := by simpa using h.past

theorem OnTime.finish {w : World} {tx : TxId} (h : OnTime w) : OnTime (w.finish tx) where
  live other t' ht' := by
    obtain ⟨hother, ht'⟩ := finish_txs_cases ht'
    exact h.live other t' ht'
  past := h.past

theorem OnTime.step {w w' : World} {a : Action} (h : OnTime w)
    (hstep : forwardStep w a = some w') : OnTime w' := by
  obtain ⟨hforward, hstep⟩ := guarded_eq_some.mp hstep
  cases step_cases hstep with
  | tick clock =>
    have hle : w.clock ≤ clock := by simpa [movesForward] using hforward
    exact ⟨fun tx t ht => (h.live tx t ht).mono hle, fun c hc =>
      ⟨(h.past c hc).1, (h.past c hc).2.trans hle⟩⟩
  | start call hadmissible =>
    refine ⟨fun other t' ht' => ?_, h.past⟩
    rcases begin_txs_cases ht' with ⟨rfl, rfl⟩ | ⟨hother, ht⟩
    · exact ⟨le_refl _, nofun, nofun, by simp [Phase.picked], nofun, nofun⟩
    · exact h.live other t' ht
  | @run tx t m ht hmove => exact h.apply fun t' ht' => (h.live tx t ht).move hmove ht'
  | @lockRow tx t id ht hcall hphase hpresent hfree =>
    refine h.apply fun t' ht' => ?_
    obtain rfl := eq_of_lock ht'
    have hlock : Timely w.clock { t with
        xid := some (w.xidOf t)
        lockedAt := some (t.lockedAt.getD w.clock) } :=
      (h.live tx t ht).lock (by simp [hphase, Phase.decision?])
    exact hlock.enter_blank nofun rfl rfl
  | @fault tx t ht =>
    refine h.apply fun t' ht' => ?_
    obtain rfl := eq_of_enter ht'
    exact (h.live tx t ht).enter_blank nofun rfl rfl
  | rollback ht => exact h.finish
  | @commit tx t d inserted ht hphase =>
    refine ⟨h.finish.live, fun c hc => ?_⟩
    rcases List.mem_append.mp hc with hc | hc
    · exact h.past c hc
    · obtain rfl := List.mem_singleton.mp hc
      exact ⟨(h.live tx t ht).commit hphase, le_refl _⟩

theorem OnTime.of_initial {w : World} (h : w.Initial) : OnTime w where
  live tx t ht := by simp [h.noTx tx] at ht
  past := by simp [h.noHistory]

/-- In a forward run every reading is in order. -/
theorem OnTime.reaches {w₀ w : World} (h₀ : w₀.Initial) (h : Reaches forwardStep w₀ w) :
    OnTime w :=
  h.invariant (fun _ _ _ => OnTime.step) (.of_initial h₀)

end DurableRunner.Sessions
