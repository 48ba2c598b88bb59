import DurableRunner.Events.StreamCases

/-! # What a shutdown makes of the open event streams -/
namespace DurableRunner.Guarantees
open Schema Relational TransitionSystem Events Events.Api

def isUnderWay (_ : Api) : ApiAction → Bool
  | .arrive _ => false
  | _ => true

/-- After `closeOpenEventStreams`: whatever comes of the requests under way, no handler polls with
an un-aborted signal, every handler ends at its next move, and then `app.close` resolves. -/
structure StreamsEnd (s : Api) : Prop where
  silent : ∀ t, Reaches (guarded Api.step isUnderWay) s t → ∀ h ∈ t.handlers,
    h.isPolling = true → h.isAborted = true
  leaves : ∀ i < s.handlers.length, Leaves s i
  closes : s.shutdown = .closing → ∃ as t, run Api.step s as = some t ∧ t.shutdown = .closed ∧
    ∀ action ∈ as, action = .appClosed ∨ ∃ i < s.handlers.length, action.moves i = true

/-- When the open streams are closed, no handler awaits its cursor, and no handler starts to
afterwards. -/
def seesEveryStream (s : Api) : ApiAction → Bool
  | .startShutdown => s.shutdown ≠ .running || s.handlers.all fun h => !h.isResolving
  | .arrive request => s.shutdown = .running || !(beginStream request).isResolving
  | _ => true

/-- The shutdown has not begun, or every handler is on its way out. -/
structure Draining (s : Api) : Prop where
  consistent : Consistent s
  leaving : s.shutdown ≠ .running → ∀ i < s.handlers.length, LeavingAt i s

section Shutdown
variable {s t : Api} {i : ℕ} {h : StreamHandler} {action : ApiAction}

theorem draining_start : Draining start := ⟨consistent_start, fun hshutdown => absurd rfl hshutdown⟩

/-- A handler that is neither started nor looked up when the streams are closed is on its way out. -/
theorem leaving_of_closeOpenEventStreams (hs : Consistent s) (hget : s.handlers[i]? = some h)
    (hresolving : h.isResolving = false) : LeavingAt i s.closeOpenEventStreams := by
  refine ⟨_, getElem?_closeOpenEventStreams.trans (congrArg _ hget), ?_⟩
  dsimp only
  cases hpolling : h.isPolling with
  | true =>
    have hmem : i ∈ s.streamControllers := (hs.tracked i).mpr ⟨h, hget, hpolling⟩
    rw [if_pos hmem]
    exact .inr ⟨hpolling, StreamHandler.isAborted_abort (hs.controlled i h hget hpolling)⟩
  | false =>
    have hfinished := StreamHandler.finished_of_not_polling hresolving hpolling
    split <;> exact .inl hfinished

theorem Draining.step (hs : Draining s) (hadmits : seesEveryStream s action = true)
    (hstep : s.step action = some t) : Draining t := by
  refine ⟨hs.consistent.step hstep, fun hshutdown i hi => ?_⟩
  -- the one step that begins the shutdown finds no handler before its loop
  by_cases hrunning : s.shutdown = .running
  · cases action with
    | arrive request =>
      simp only [Api.step, Option.ite_none_left_eq_some, Option.some.injEq] at hstep
      obtain ⟨-, rfl⟩ := hstep
      exact absurd hrunning hshutdown
    | handler j event =>
      obtain ⟨h, h', -, -, rfl⟩ := step_handler_eq_some.mp hstep
      exact absurd hrunning hshutdown
    | startShutdown =>
      simp only [seesEveryStream, hrunning, ne_eq, not_true_eq_false, decide_false, Bool.false_or,
        List.all_eq_true, Bool.not_eq_true'] at hadmits
      simp only [Api.step, hrunning, if_true, Option.some.injEq] at hstep
      subst hstep
      have hlt : i < s.handlers.length := by simpa [closeOpenEventStreams] using hi
      exact leaving_of_closeOpenEventStreams hs.consistent (List.getElem?_eq_getElem hlt)
        (hadmits _ (List.getElem_mem hlt))
    | appClosed =>
      simp only [Api.step, hrunning, reduceCtorEq, false_and, if_false] at hstep
  · obtain ⟨h, hget⟩ : ∃ h, t.handlers[i]? = some h := ⟨_, List.getElem?_eq_getElem hi⟩
    rcases handler_of_step hstep hget with ⟨k, hk, -⟩ | ⟨-, request, rfl, rfl⟩
    · exact (hs.leaving hrunning i (List.getElem?_eq_some_iff.mp hk).1).step hstep
    · simp only [seesEveryStream, hrunning, decide_false, Bool.false_or, Bool.not_eq_true'] at hadmits
      exact ⟨_, hget, .inl (StreamHandler.finished_of_not_polling hadmits (isPolling_beginStream _))⟩

theorem underWay_of_step (hstep : guarded Api.step isUnderWay s action = some t) :
    t.handlers.length = s.handlers.length ∧ (s.shutdown ≠ .running → t.shutdown ≠ .running) := by
  obtain ⟨hunderWay, hstep⟩ := guarded_eq_some.mp hstep
  cases action with
  | arrive request => cases hunderWay
  | handler j event =>
    obtain ⟨h, h', -, -, rfl⟩ := step_handler_eq_some.mp hstep
    exact ⟨length_setHandler, id⟩
  | startShutdown =>
    simp only [Api.step] at hstep
    split at hstep <;> obtain rfl := Option.some.inj hstep
    · exact ⟨by simp [closeOpenEventStreams], fun _ => by simp⟩
    · exact ⟨rfl, id⟩
  | appClosed =>
    simp only [Api.step, Option.ite_none_right_eq_some, Option.some.injEq] at hstep
    obtain ⟨-, rfl⟩ := hstep
    exact ⟨rfl, fun _ => by simp⟩

theorem length_of_underWay (h : Reaches (guarded Api.step isUnderWay) s t) :
    t.handlers.length = s.handlers.length :=
  h.rec_tail (motive := fun t => t.handlers.length = s.handlers.length) rfl
    fun _ _ _ _ hm hstep => (underWay_of_step hstep).1.trans hm

/-- Where every handler is on its way out, `app.close` can complete. -/
theorem exists_run_to_closed (hleaving : ∀ i < s.handlers.length, LeavingAt i s)
    (hclosing : s.shutdown = .closing) : ∃ as t, run Api.step s as = some t ∧ t.shutdown = .closed ∧
      ∀ action ∈ as, action = .appClosed ∨ ∃ i < s.handlers.length, action.moves i = true := by
  obtain ⟨as, m, hrun, hmoves, hfinished, -, hshutdown, hlength⟩ :=
    exists_run_to_end (List.range s.handlers.length) fun i hi => hleaving i (List.mem_range.mp hi)
  have hall : m.handlers.all StreamHandler.isFinished = true := by
    rw [List.all_eq_true]
    intro h hmem
    obtain ⟨i, hi, rfl⟩ := List.mem_iff_getElem.mp hmem
    obtain ⟨h', hget, hfin⟩ := hfinished i (List.mem_range.mpr (hlength ▸ hi))
    rwa [← Option.some.inj ((List.getElem?_eq_getElem hi).symm.trans hget)] at hfin
  refine ⟨as ++ [.appClosed], { m with shutdown := .closed }, ?_, rfl, ?_⟩
  · refine (run_concat_eq_some _).mpr ⟨m, hrun, ?_⟩
    simp [Api.step, hshutdown, hclosing, hall]
  · intro action hmem
    rcases List.mem_append.mp hmem with hmem | hmem
    · obtain ⟨i, hi, hmoves⟩ := hmoves action hmem
      exact .inr ⟨i, List.mem_range.mp hi, hmoves⟩
    · exact .inl (List.mem_singleton.mp hmem)

theorem Draining.streamsEnd (hs : Draining s) (hshutdown : s.shutdown ≠ .running) : StreamsEnd s where
  silent t hreach h hmem hpolling := by
    obtain ⟨i, hi, rfl⟩ := List.mem_iff_getElem.mp hmem
    have hlt : i < s.handlers.length := length_of_underWay hreach ▸ hi
    obtain ⟨h', hget, hfinished | ⟨-, haborted⟩⟩ := (hs.leaving hshutdown i hlt).reaches hreach.of_guarded
    all_goals obtain rfl := Option.some.inj ((List.getElem?_eq_getElem hi).symm.trans hget)
    · rw [StreamHandler.not_polling_of_finished hfinished] at hpolling
      cases hpolling
    · exact haborted
  leaves i hi := (hs.leaving hshutdown i hi).leaves hs.consistent
  closes hclosing := exists_run_to_closed (hs.leaving hshutdown) hclosing

/-- A handler that awaits its cursor spoils it. -/
theorem not_streamsEnd (hget : s.handlers[i]? = some h) (hresolving : h.isResolving = true) :
    ¬StreamsEnd s := by
  intro hend
  obtain ⟨answer, h', hreact, hpolling, haborted, -⟩ := StreamHandler.exists_entered hresolving
  have hstep : guarded Api.step isUnderWay s (.handler i (.cursorAnswered answer)) =
      some (s.setHandler i h h') :=
    guarded_eq_some.mpr ⟨rfl, step_handler_eq_some.mpr ⟨h, h', hget, hreact, rfl⟩⟩
  have hmem : h' ∈ (s.setHandler i h h').handlers :=
    List.mem_of_getElem? (getElem?_setHandler_self hget)
  have hsilent := hend.silent _ (.single hstep) h' hmem hpolling
  rw [haborted] at hsilent
  cases hsilent

theorem not_streamsEnd_of_step (hadmits : seesEveryStream s action = false)
    (hstep : s.step action = some t) : t.shutdown ≠ .running ∧ ¬StreamsEnd t := by
  cases action with
  | handler | appClosed => cases hadmits
  | arrive request =>
    simp only [seesEveryStream, Bool.or_eq_false_iff, decide_eq_false_iff_not, Bool.not_eq_false'] at hadmits
    simp only [Api.step, Option.ite_none_left_eq_some, Option.some.injEq] at hstep
    obtain ⟨-, rfl⟩ := hstep
    exact ⟨hadmits.1, not_streamsEnd (getElem?_arrive.mpr (.inr ⟨rfl, rfl⟩)) hadmits.2⟩
  | startShutdown =>
    simp only [seesEveryStream, Bool.or_eq_false_iff, decide_eq_false_iff_not, not_not,
      List.all_eq_false, Bool.not_eq_true', Bool.not_eq_false] at hadmits
    obtain ⟨hrunning, h, hmem, hresolving⟩ := hadmits
    obtain ⟨i, hi, rfl⟩ := List.mem_iff_getElem.mp hmem
    simp only [Api.step, hrunning, if_true, Option.some.injEq] at hstep
    subst hstep
    have hget := getElem?_closeOpenEventStreams.trans (congrArg _ (List.getElem?_eq_getElem hi))
    refine ⟨by simp, not_streamsEnd hget ?_⟩
    dsimp only
    split <;> exact hresolving

end Shutdown

/-- Every stream ends after the shutdown exactly when no handler is before its loop as the open
streams are closed, or enters it afterwards. -/
theorem streams_end_iff {as : List ApiAction} {s : Api} (h : run Api.step start as = some s) :
    (∀ bs t, bs <+: as → run Api.step start bs = some t → t.shutdown ≠ .running → StreamsEnd t) ↔
      run (guarded Api.step seesEveryStream) start as = some s := by
  refine (run_guarded_iff Draining (fun t => t.shutdown ≠ .running → StreamsEnd t)
    ?_ ?_ ?_ draining_start h).symm
  · exact fun t ht hshutdown => ht.streamsEnd hshutdown
  · exact fun t action u ht hadmits hstep => ht.step hadmits hstep
  · intro t action u _ hadmits hstep hgood
    obtain ⟨hshutdown, hnot⟩ := not_streamsEnd_of_step hadmits hstep
    exact hnot (hgood hshutdown)

def openAtShutdown : List ApiAction :=
  [.arrive follower, .handler 0 (.cursorAnswered (some (logWith 1))), .startShutdown,
    .handler 0 (.pageAnswered (some (logWith 1))), .appClosed]

theorem streams_end_open_at_shutdown : ∃ s, run Api.step start openAtShutdown = some s ∧
    ((∀ bs t, bs <+: openAtShutdown → run Api.step start bs = some t → t.shutdown ≠ .running →
      StreamsEnd t) ↔ run (guarded Api.step seesEveryStream) start openAtShutdown = some s) := by
  obtain ⟨s, hs⟩ : ∃ s, run Api.step start openAtShutdown = some s :=
    Option.isSome_iff_exists.mp (by decide +kernel)
  exact ⟨s, hs, streams_end_iff hs⟩

def lateRegistration : List ApiAction :=
  [.arrive follower, .startShutdown, .handler 0 (.cursorAnswered (some (logWith 1)))]

/-- The stream that registers late is polled for as long as the database answers, and the shutdown
waits for it. -/
theorem late_registration_never_closes : ∃ s, run Api.step start lateRegistration = some s ∧
    s.shutdown = .closing ∧ ¬StreamsEnd s ∧
      ∀ n, ∃ t, run Api.step s (pollRounds 0 (logWith 1) n) = some t ∧ t.step .appClosed = none ∧
        ∃ h ∈ t.handlers, h.isPolling = true ∧ h.isAborted = false := by
  have hrun : (run Api.step start lateRegistration).map (fun s => (s.shutdown, s.handlers)) =
      some (.closing, [⟨.reading ⟨none, ⟨3, 1⟩⟩, some ⟨false⟩, true, [.connected]⟩]) := by decide +kernel
  obtain ⟨s, hs, hstate⟩ := Option.map_eq_some_iff.mp hrun
  obtain ⟨hclosing, hhandlers⟩ := Prod.mk.inj hstate
  have hpolls : PollsOn 0 true s := ⟨_, _, by rw [hhandlers]; rfl, rfl, rfl, rfl⟩
  refine ⟨s, hs, hclosing, fun hend => ?_, fun n => ?_⟩
  · obtain ⟨h, hmem, hpolling, haborted⟩ := hpolls.exists_polling
    have hsilent := hend.silent s (.refl s) h hmem hpolling
    rw [haborted] at hsilent
    cases hsilent
  · obtain ⟨t, hrounds, ht⟩ := hpolls.rounds (logWith 1) n
    obtain ⟨h, hmem, hpolling, haborted⟩ := ht.exists_polling
    refine ⟨t, hrounds, ?_, h, hmem, hpolling, haborted⟩
    have hunfinished : ¬t.handlers.all StreamHandler.isFinished = true := by
      intro hall
      have hfinished := List.all_eq_true.mp hall h hmem
      rw [StreamHandler.not_polling_of_finished hfinished] at hpolling
      cases hpolling
    simp [Api.step, hunfinished]

end DurableRunner.Guarantees
