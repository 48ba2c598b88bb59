import DurableRunner.Events.StreamCases

/-! # What a disconnect makes of an event stream -/
namespace DurableRunner.Guarantees
open Schema Relational TransitionSystem Events Events.Api

/-- The handler never polls with an un-aborted signal, and leaves its loop at its next move, hence
after one more answer at most. -/
structure StreamStops (s : Api) (i : ℕ) : Prop where
  silent : ∀ t, Reaches Api.step s t → ∀ h, t.handlers[i]? = some h → h.isPolling = true →
    h.isAborted = true
  leaves : Leaves s i

/-- The client does not disconnect while its handler awaits its cursor. -/
def outstaysLookup (i : ℕ) (s : Api) : ApiAction → Bool
  | .handler j .disconnect => j ≠ i || (s.handlers[i]?).all fun h => !h.isResolving
  | _ => true

def connectedStreams (s : Api) : Finset ℕ :=
  (Finset.range s.handlers.length).filter fun i =>
    (s.handlers[i]?).any fun h => h.isPolling && h.connected

/-- A handler whose client is gone is on its way out. -/
structure Released (i : ℕ) (s : Api) : Prop where
  consistent : Consistent s
  leaving : ∀ h, s.handlers[i]? = some h → h.connected = false → h.Leaving

section Disconnect
variable {s t : Api} {i : ℕ} {h : StreamHandler} {action : ApiAction}

theorem released_start (i : ℕ) : Released i start :=
  ⟨consistent_start, fun h hget => by simp [start] at hget⟩

theorem leaving_disconnected (hcontrolled : h.isPolling = true → h.controller.isSome = true)
    (hresolving : h.isResolving = false) : h.disconnected.Leaving := by
  cases hpolling : h.isPolling with
  | true => exact .inr ⟨hpolling, StreamHandler.isAborted_abort (hcontrolled hpolling)⟩
  | false => exact .inl (StreamHandler.finished_of_not_polling hresolving hpolling)

theorem Released.step (hs : Released i s) (hadmits : outstaysLookup i s action = true)
    (hstep : s.step action = some t) : Released i t := by
  refine ⟨hs.consistent.step hstep, fun h' hget hgone => ?_⟩
  rcases handler_of_step hstep hget with ⟨h, hh, hcases⟩ | ⟨-, request, -, rfl⟩
  · rcases hcases with rfl | ⟨-, rfl⟩ | ⟨event, rfl, hreact⟩
    · exact hs.leaving h' hh hgone
    · exact (hs.leaving h hh hgone).abort
    · by_cases hevent : event = .disconnect
      · subst hevent
        have hresolving : h.isResolving = false := by simpa [outstaysLookup, hh] using hadmits
        cases StreamHandler.reacts_of_react hreact with
        | left _ _ hevent => exact absurd rfl hevent
        | disconnected => exact leaving_disconnected (hs.consistent.controlled i h hh) hresolving
      · rw [StreamHandler.connected_of_react hreact hevent] at hgone
        exact (hs.leaving h hh hgone).react hreact
  · cases hgone

theorem streamStops_of_leaving (hs : LeavingAt i s) (hconsistent : Consistent s) : StreamStops s i where
  silent t hreach h hget hpolling := by
    obtain ⟨h', hget', hfinished | ⟨-, haborted⟩⟩ := hs.reaches hreach
    all_goals obtain rfl := Option.some.inj (hget.symm.trans hget')
    · rw [StreamHandler.not_polling_of_finished hfinished] at hpolling
      cases hpolling
    · exact haborted
  leaves := hs.leaves hconsistent

/-- A handler that awaits its cursor may yet enter its loop. -/
theorem not_streamStops (hget : s.handlers[i]? = some h) (hresolving : h.isResolving = true) :
    ¬StreamStops s i := by
  intro hstops
  obtain ⟨answer, h', hreact, hpolling, haborted, -⟩ := StreamHandler.exists_entered hresolving
  have hstep : s.step (.handler i (.cursorAnswered answer)) = some (s.setHandler i h h') :=
    step_handler_eq_some.mpr ⟨h, h', hget, hreact, rfl⟩
  have hsilent := hstops.silent _ (.single hstep) h' (getElem?_setHandler_self hget) hpolling
  rw [haborted] at hsilent
  cases hsilent

theorem not_streamStops_of_step (hadmits : outstaysLookup i s action = false)
    (hstep : s.step action = some t) :
    ∃ h, t.handlers[i]? = some h ∧ h.connected = false ∧ ¬StreamStops t i := by
  cases action with
  | arrive | startShutdown | appClosed => cases hadmits
  | handler j event =>
    cases event with
    | cursorAnswered | pageAnswered | woken => cases hadmits
    | disconnect =>
      obtain ⟨h, h', hget, hreact, rfl⟩ := step_handler_eq_some.mp hstep
      simp only [outstaysLookup, ne_eq, Bool.or_eq_false_iff, decide_eq_false_iff_not, not_not] at hadmits
      obtain ⟨rfl, hlooking⟩ := hadmits
      have hresolving : h.isResolving = true := by simpa [hget] using hlooking
      cases StreamHandler.reacts_of_react hreact with
      | left _ _ hevent => exact absurd rfl hevent
      | disconnected =>
        have hget' : (s.setHandler j h h.disconnected).handlers[j]? = some h.disconnected :=
          getElem?_setHandler_self hget
        exact ⟨_, hget', rfl, not_streamStops hget' hresolving⟩

/-- The stream of a client that is gone has stopped exactly when the client outstayed the lookup. -/
theorem streamStops_iff {as : List ApiAction} (i : ℕ) (h : run Api.step start as = some s) :
    (∀ bs t, bs <+: as → run Api.step start bs = some t → ∀ h, t.handlers[i]? = some h →
      h.connected = false → StreamStops t i) ↔
        run (guarded Api.step (outstaysLookup i)) start as = some s := by
  refine (run_guarded_iff (Released i)
    (fun t => ∀ h, t.handlers[i]? = some h → h.connected = false → StreamStops t i)
    ?_ ?_ ?_ (released_start i) h).symm
  · exact fun t ht h hget hgone => streamStops_of_leaving ⟨h, hget, ht.leaving h hget hgone⟩ ht.consistent
  · exact fun t action u ht hadmits hstep => ht.step hadmits hstep
  · intro t action u _ hadmits hstep hgood
    obtain ⟨h, hget, hgone, hnot⟩ := not_streamStops_of_step hadmits hstep
    exact hnot (hgood h hget hgone)

theorem Released.of_run {as : List ApiAction}
    (h : run (guarded Api.step (outstaysLookup i)) start as = some s) : Released i s :=
  Reaches.invariant (fun _ _ _ hs hstep => hs.step (guarded_eq_some.mp hstep).1 (guarded_eq_some.mp hstep).2)
    ⟨as, h⟩ (released_start i)

theorem mem_connectedStreams : i ∈ connectedStreams s ↔
    ∃ h, s.handlers[i]? = some h ∧ h.isPolling = true ∧ h.connected = true := by
  simp only [connectedStreams, Finset.mem_filter, Finset.mem_range, Option.any_eq_true,
    Bool.and_eq_true, and_iff_right_iff_imp]
  rintro ⟨h, hget, -⟩
  exact (List.getElem?_eq_some_iff.mp hget).1

/-- Once the clients that are gone have been left, the streams that are counted are the connected
ones. -/
theorem openEventStreamCount_eq (hs : Consistent s)
    (hfinished : ∀ (i : ℕ) (h : StreamHandler), s.handlers[i]? = some h → h.connected = false →
      h.isFinished = true) :
    s.openEventStreamCount = (connectedStreams s).card := by
  refine congrArg Finset.card (Finset.ext fun i => ?_)
  rw [hs.tracked, mem_connectedStreams]
  constructor
  · rintro ⟨h, hget, hpolling⟩
    refine ⟨h, hget, hpolling, ?_⟩
    by_contra hgone
    have hfin := hfinished i h hget (by simpa using hgone)
    rw [StreamHandler.not_polling_of_finished hfin] at hpolling
    cases hpolling
  · rintro ⟨h, hget, hpolling, -⟩
    exact ⟨h, hget, hpolling⟩

def abandoned (s : Api) : List ℕ :=
  (List.range s.handlers.length).filter fun i => (s.handlers[i]?).any fun h => !h.connected

theorem mem_abandoned : i ∈ abandoned s ↔ ∃ h, s.handlers[i]? = some h ∧ h.connected = false := by
  simp only [abandoned, List.mem_filter, List.mem_range, Option.any_eq_true, Bool.not_eq_true',
    and_iff_right_iff_imp]
  rintro ⟨h, hget, -⟩
  exact (List.getElem?_eq_some_iff.mp hget).1

theorem exists_run_to_count (hs : ∀ i, Released i s) : ∃ as t, run Api.step s as = some t ∧
    (∀ action ∈ as, ∃ i ∈ abandoned s, action.moves i = true) ∧
      connectedStreams t = connectedStreams s ∧ t.openEventStreamCount = (connectedStreams s).card := by
  obtain ⟨as, t, hrun, hmoves, hfinished, hothers, -, -⟩ := exists_run_to_end (abandoned s) fun i hi => by
    obtain ⟨h, hget, hgone⟩ := mem_abandoned.mp hi
    exact ⟨h, hget, (hs i).leaving h hget hgone⟩
  have hsame : connectedStreams t = connectedStreams s := by
    ext i
    rw [mem_connectedStreams, mem_connectedStreams]
    by_cases hi : i ∈ abandoned s
    · obtain ⟨k, hk, hfin⟩ := hfinished i hi
      obtain ⟨h, hget, hgone⟩ := mem_abandoned.mp hi
      simp [hk, hget, StreamHandler.not_polling_of_finished hfin, hgone]
    · rw [hothers i hi]
  have hconsistent : Consistent t := (hs 0).consistent.reaches ⟨as, hrun⟩
  refine ⟨as, t, hrun, hmoves, hsame, hsame ▸ openEventStreamCount_eq hconsistent ?_⟩
  intro i h hget hgone
  by_cases hi : i ∈ abandoned s
  · obtain ⟨k, hk, hfin⟩ := hfinished i hi
    rwa [← Option.some.inj (hget.symm.trans hk)] at hfin
  · exact absurd (mem_abandoned.mpr ⟨h, hothers i hi ▸ hget, hgone⟩) hi

end Disconnect

/-- A disconnect stops the stream exactly when it does not fall into the lookup of the cursor. Where
none does, the count returns to the connected streams as the abandoned handlers move. -/
theorem disconnect_stops_stream_iff {as : List ApiAction} {s : Api}
    (h : run Api.step start as = some s) :
    (∀ i, (∀ bs t, bs <+: as → run Api.step start bs = some t → ∀ h, t.handlers[i]? = some h →
      h.connected = false → StreamStops t i) ↔
        run (guarded Api.step (outstaysLookup i)) start as = some s) ∧
    ((∀ i, run (guarded Api.step (outstaysLookup i)) start as = some s) →
      ∃ bs t, run Api.step s bs = some t ∧ (∀ action ∈ bs, ∃ i ∈ abandoned s, action.moves i = true) ∧
        connectedStreams t = connectedStreams s ∧ t.openEventStreamCount = (connectedStreams s).card) :=
  ⟨fun i => streamStops_iff i h, fun hall => exists_run_to_count fun i => .of_run (hall i)⟩

def disconnectWhilePolling : List ApiAction :=
  [.arrive follower, .handler 0 (.cursorAnswered (some (logWith 1))), .handler 0 .disconnect,
    .handler 0 (.pageAnswered (some (logWith 1)))]

theorem disconnect_stops_stream_while_polling : ∃ s,
    run Api.step start disconnectWhilePolling = some s ∧
      (∀ i, (∀ bs t, bs <+: disconnectWhilePolling → run Api.step start bs = some t →
        ∀ h, t.handlers[i]? = some h → h.connected = false → StreamStops t i) ↔
          run (guarded Api.step (outstaysLookup i)) start disconnectWhilePolling = some s) ∧
      ((∀ i, run (guarded Api.step (outstaysLookup i)) start disconnectWhilePolling = some s) →
        ∃ bs t, run Api.step s bs = some t ∧
          (∀ action ∈ bs, ∃ i ∈ abandoned s, action.moves i = true) ∧
            connectedStreams t = connectedStreams s ∧
              t.openEventStreamCount = (connectedStreams s).card) := by
  obtain ⟨s, hs⟩ : ∃ s, run Api.step start disconnectWhilePolling = some s :=
    Option.isSome_iff_exists.mp (by decide +kernel)
  exact ⟨s, hs, disconnect_stops_stream_iff hs⟩

def earlyDisconnect : List ApiAction :=
  [.arrive follower, .handler 0 .disconnect, .handler 0 (.cursorAnswered (some (logWith 1)))]

/-- The stream of the client that left early is polled and counted for as long as the database
answers. -/
theorem early_disconnect_keeps_polling : ∃ s, run Api.step start earlyDisconnect = some s ∧
    connectedStreams s = ∅ ∧ ¬StreamStops s 0 ∧
      ∀ n, ∃ t h, run Api.step s (pollRounds 0 (logWith 1) n) = some t ∧ t.handlers[0]? = some h ∧
        h.isPolling = true ∧ h.isAborted = false ∧ h.connected = false ∧ 0 < t.openEventStreamCount := by
  have hrun : (run Api.step start earlyDisconnect).map (fun s => (connectedStreams s, s.handlers)) =
      some (∅, [⟨.reading ⟨none, ⟨3, 1⟩⟩, some ⟨false⟩, false, [.connected]⟩]) := by decide +kernel
  obtain ⟨s, hs, hstate⟩ := Option.map_eq_some_iff.mp hrun
  obtain ⟨hempty, hhandlers⟩ := Prod.mk.inj hstate
  have hpolls : PollsOn 0 false s := ⟨_, _, by rw [hhandlers]; rfl, rfl, rfl, rfl⟩
  have hconsistent : Consistent s := consistent_start.reaches ⟨_, hs⟩
  refine ⟨s, hs, hempty, fun hstops => ?_, fun n => ?_⟩
  · obtain ⟨h, stream, hget, hphase, haborted, -⟩ := hpolls
    have hsilent := hstops.silent s (.refl s) h hget (by simp [StreamHandler.isPolling, hphase])
    rw [haborted] at hsilent
    cases hsilent
  · obtain ⟨t, hrounds, h, stream, hget, hphase, haborted, hgone⟩ := hpolls.rounds (logWith 1) n
    have hpolling : h.isPolling = true := by simp [StreamHandler.isPolling, hphase]
    have hmem := ((hconsistent.reaches ⟨_, hrounds⟩).tracked 0).mpr ⟨h, hget, hpolling⟩
    exact ⟨t, h, hrounds, hget, hpolling, haborted, hgone, Finset.card_pos.mpr ⟨0, hmem⟩⟩

end DurableRunner.Guarantees
