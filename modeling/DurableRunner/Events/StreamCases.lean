import DurableRunner.Events.Streams
import Mathlib.Tactic.Common

/-! # What the moves of a stream handler do -/
namespace DurableRunner.Events
open Schema Relational TransitionSystem

namespace StreamHandler
variable {h h' : StreamHandler} {event : StreamEvent}

/-- The handler has ended, or will at its next move. -/
def Leaving (h : StreamHandler) : Prop :=
  h.isFinished = true ∨ h.isPolling = true ∧ h.isAborted = true

/-- What one event makes of a handler. -/
inductive Reacts (h : StreamHandler) : StreamEvent → StreamHandler → Prop
  | refused (answer : Option EventLog) (outcome : StreamEnd) (hphase : h.isResolving = true) :
    Reacts h (.cursorAnswered answer) (h.finish outcome)
  | entered (answer : Option EventLog) (stream : StreamState) (hphase : h.isResolving = true) :
    Reacts h (.cursorAnswered answer)
      { h with phase := .reading stream, controller := some ⟨false⟩,
               written := h.written ++ [.connected] }
  | left (event : StreamEvent) (hphase : h.isPolling = true) (hevent : event ≠ .disconnect) :
    Reacts h event (h.finish .ended)
  | slept (answer : Option EventLog) (stream : StreamState) (frames : List Frame)
      (hphase : h.isPolling = true) (hrunning : h.isAborted = false) :
    Reacts h (.pageAnswered answer)
      { h with phase := .sleeping stream, written := h.written ++ frames }
  | looped (stream : StreamState) (hphase : h.isPolling = true) (hrunning : h.isAborted = false) :
    Reacts h .woken { h with phase := .reading stream }
  | disconnected (hconnected : h.connected = true) : Reacts h .disconnect h.disconnected

theorem reacts_of_react (hreact : h.react event = some h') : Reacts h event h' := by
  cases event with
  | cursorAnswered answer =>
    cases hphase : h.phase <;> simp only [react, hphase, reduceCtorEq] at hreact
    rename_i stepId afterId
    have hresolving : h.isResolving = true := by simp [isResolving, hphase]
    cases answer with
    | none =>
      simp only [cursorAnswered, Option.ite_none_right_eq_some, Option.some.injEq] at hreact
      obtain ⟨-, rfl⟩ := hreact
      exact .refused none .thrown hresolving
    | some table =>
      simp only [cursorAnswered] at hreact
      split at hreact <;> obtain rfl := Option.some.inj hreact
      · exact .refused _ _ hresolving
      · exact .entered _ _ hresolving
  | pageAnswered answer =>
    cases hphase : h.phase <;> simp only [react, hphase, reduceCtorEq, Option.some.injEq] at hreact
    rename_i stream
    have hpolling : h.isPolling = true := by simp [isPolling, hphase]
    subst hreact
    have hleft := Reacts.left (.pageAnswered answer) hpolling nofun
    cases answer with
    | none => exact hleft
    | some table =>
      simp only [pageAnswered]
      split
      · exact hleft
      · split
        · exact hleft
        · rename_i haborted
          exact .slept _ _ _ hpolling (by simpa using haborted)
  | woken =>
    cases hphase : h.phase <;> simp only [react, hphase, reduceCtorEq, Option.some.injEq] at hreact
    rename_i stream
    have hpolling : h.isPolling = true := by simp [isPolling, hphase]
    subst hreact
    unfold woken
    split
    · exact .left _ hpolling nofun
    · rename_i haborted
      exact .looped _ hpolling (by simpa using haborted)
  | disconnect =>
    simp only [react, Option.ite_none_right_eq_some, Option.some.injEq] at hreact
    obtain ⟨hconnected, rfl⟩ := hreact
    exact .disconnected hconnected

theorem connected_of_react (hreact : h.react event = some h') (hevent : event ≠ .disconnect) :
    h'.connected = h.connected := by
  cases reacts_of_react hreact with
  | disconnected => exact absurd rfl hevent
  | refused | entered | left | slept | looped => rfl

@[simp] theorem isFinished_finish (h : StreamHandler) (outcome : StreamEnd) :
    (h.finish outcome).isFinished = true := rfl

@[simp] theorem isPolling_abort (h : StreamHandler) : h.abort.isPolling = h.isPolling := rfl

@[simp] theorem isFinished_abort (h : StreamHandler) : h.abort.isFinished = h.isFinished := rfl

@[simp] theorem isResolving_abort (h : StreamHandler) : h.abort.isResolving = h.isResolving := rfl

@[simp] theorem isPolling_disconnected (h : StreamHandler) :
    h.disconnected.isPolling = h.isPolling := rfl

@[simp] theorem isFinished_disconnected (h : StreamHandler) :
    h.disconnected.isFinished = h.isFinished := rfl

@[simp] theorem isResolving_disconnected (h : StreamHandler) :
    h.disconnected.isResolving = h.isResolving := rfl

@[simp] theorem isAborted_disconnected (h : StreamHandler) :
    h.disconnected.isAborted = h.abort.isAborted := rfl

theorem isAborted_abort (hcontroller : h.controller.isSome = true) : h.abort.isAborted = true := by
  obtain ⟨controller, hsome⟩ := Option.isSome_iff_exists.mp hcontroller
  simp [abort, isAborted, hsome, AbortController.abort]

theorem not_polling_of_finished (hfinished : h.isFinished = true) : h.isPolling = false := by
  cases hphase : h.phase <;> simp_all [isFinished, isPolling]

theorem not_resolving_of_finished (hfinished : h.isFinished = true) : h.isResolving = false := by
  cases hphase : h.phase <;> simp_all [isFinished, isResolving]

theorem not_resolving_of_polling (hpolling : h.isPolling = true) : h.isResolving = false := by
  cases hphase : h.phase <;> simp_all [isPolling, isResolving]

theorem finished_of_not_polling (hresolving : h.isResolving = false) (hpolling : h.isPolling = false) :
    h.isFinished = true := by
  cases hphase : h.phase <;> simp_all [isPolling, isResolving, isFinished]

theorem Leaving.abort (hleaving : h.Leaving) : h.abort.Leaving := by
  rcases hleaving with hfinished | ⟨hpolling, haborted⟩
  · exact .inl hfinished
  · refine .inr ⟨hpolling, isAborted_abort ?_⟩
    cases hcontroller : h.controller <;> simp_all [isAborted]

theorem Leaving.disconnected (hleaving : h.Leaving) : h.disconnected.Leaving := hleaving.abort

theorem Leaving.not_resolving (hleaving : h.Leaving) : h.isResolving = false := by
  rcases hleaving with hfinished | ⟨hpolling, -⟩
  · exact not_resolving_of_finished hfinished
  · exact not_resolving_of_polling hpolling

theorem Leaving.finished_of_react (hleaving : h.Leaving) (hreact : h.react event = some h')
    (hevent : event ≠ .disconnect) : h'.isFinished = true := by
  cases reacts_of_react hreact with
  | refused => rfl
  | left => rfl
  | disconnected => exact absurd rfl hevent
  | entered _ _ hphase => rw [hleaving.not_resolving] at hphase; cases hphase
  | slept _ _ _ hphase hrunning | looped _ hphase hrunning =>
    rcases hleaving with hfinished | ⟨-, haborted⟩
    · rw [not_polling_of_finished hfinished] at hphase
      cases hphase
    · rw [haborted] at hrunning
      cases hrunning

theorem Leaving.react (hleaving : h.Leaving) (hreact : h.react event = some h') : h'.Leaving := by
  by_cases hevent : event = .disconnect
  · subst hevent
    cases reacts_of_react hreact with
    | left _ _ hevent => exact absurd rfl hevent
    | disconnected => exact hleaving.disconnected
  · exact .inl (hleaving.finished_of_react hreact hevent)

/-- An ended handler makes no move. -/
theorem react_of_finished (hfinished : h.isFinished = true) (hevent : event ≠ .disconnect) :
    h.react event = none := by
  by_contra hmoves
  obtain ⟨h', hreact⟩ := Option.ne_none_iff_exists'.mp hmoves
  have hpolling := not_polling_of_finished hfinished
  have hresolving := not_resolving_of_finished hfinished
  cases reacts_of_react hreact <;> simp_all

theorem exists_react_of_polling (hpolling : h.isPolling = true) :
    ∃ event h', event ≠ .disconnect ∧ h.react event = some h' := by
  cases hphase : h.phase with
  | reading stream =>
    exact ⟨.pageAnswered none, h.pageAnswered stream none, nofun, by simp [StreamHandler.react, hphase]⟩
  | sleeping stream => exact ⟨.woken, h.woken stream, nofun, by simp [StreamHandler.react, hphase]⟩
  | resolving | finished => simp [isPolling, hphase] at hpolling

/-- A handler that awaits its cursor may yet poll with a signal that nothing aborts. -/
theorem exists_entered (hresolving : h.isResolving = true) : ∃ answer h',
    h.react (.cursorAnswered answer) = some h' ∧ h'.isPolling = true ∧ h'.isAborted = false ∧
      h'.connected = h.connected := by
  cases hphase : h.phase with
  | reading | sleeping | finished => simp [isResolving, hphase] at hresolving
  | resolving stepId afterId =>
    obtain ⟨table, cursor, hcursor⟩ := exists_cursor afterId
    refine ⟨some table, ?_⟩
    simp only [StreamHandler.react, hphase, cursorAnswered, hcursor]
    exact ⟨_, rfl, rfl, rfl, rfl⟩

end StreamHandler

namespace Api
variable {s t : Api} {i j : ℕ} {h h' : StreamHandler} {event : StreamEvent} {action : ApiAction}

theorem step_handler_eq_some : s.step (.handler i event) = some t ↔ ∃ h h',
    s.handlers[i]? = some h ∧ h.react event = some h' ∧ t = s.setHandler i h h' := by
  simp only [step, Option.bind_eq_some_iff, Option.map_eq_some_iff]
  constructor
  · rintro ⟨h, hget, h', hreact, rfl⟩
    exact ⟨h, h', hget, hreact, rfl⟩
  · rintro ⟨h, h', hget, hreact, rfl⟩
    exact ⟨h, hget, h', hreact, rfl⟩

theorem getElem?_setHandler_self (hget : s.handlers[i]? = some h) :
    (s.setHandler i h h').handlers[i]? = some h' := by
  have hlt := (List.getElem?_eq_some_iff.mp hget).1
  simp [setHandler, hlt]

theorem getElem?_setHandler_of_ne (hne : j ≠ i) :
    (s.setHandler i h h').handlers[j]? = s.handlers[j]? := by
  simp [setHandler, List.getElem?_set_ne hne.symm]

@[simp] theorem shutdown_setHandler : (s.setHandler i h h').shutdown = s.shutdown := rfl

@[simp] theorem length_setHandler : (s.setHandler i h h').handlers.length = s.handlers.length := by
  simp [setHandler]

theorem getElem?_closeOpenEventStreams : s.closeOpenEventStreams.handlers[i]? =
    (s.handlers[i]?).map fun h => if i ∈ s.streamControllers then h.abort else h := by
  simp [closeOpenEventStreams]

/-- The set holds the controllers of the handlers in their loop. -/
structure Consistent (s : Api) : Prop where
  tracked : ∀ i, i ∈ s.streamControllers ↔ ∃ h, s.handlers[i]? = some h ∧ h.isPolling = true
  controlled : ∀ (i : ℕ) (h : StreamHandler), s.handlers[i]? = some h → h.isPolling = true →
    h.controller.isSome = true

theorem consistent_start : Consistent start where
  tracked i := by simp [start]
  controlled i h hget := by simp [start] at hget

theorem controlled_of_react (hreact : h.react event = some h')
    (hcontrolled : h.isPolling = true → h.controller.isSome = true) (hpolling : h'.isPolling = true) :
    h'.controller.isSome = true := by
  cases StreamHandler.reacts_of_react hreact with
  | refused | left => cases hpolling
  | entered => rfl
  | slept _ _ _ hphase | looped _ hphase => exact hcontrolled hphase
  | disconnected =>
    have hsome := hcontrolled hpolling
    simpa [StreamHandler.disconnected, StreamHandler.abort] using hsome

theorem mem_track_self {controllers : Finset ℕ} (hmem : i ∈ controllers ↔ h.isPolling = true) :
    i ∈ track controllers i h h' ↔ h'.isPolling = true := by
  unfold track
  cases hbefore : h.isPolling <;> cases hafter : h'.isPolling <;> simp [hmem, hbefore]

theorem mem_track_of_ne {controllers : Finset ℕ} (hne : j ≠ i) :
    j ∈ track controllers i h h' ↔ j ∈ controllers := by
  unfold track
  cases h.isPolling <;> cases h'.isPolling <;> simp [hne]

theorem Consistent.setHandler (hs : Consistent s) (hget : s.handlers[i]? = some h)
    (hreact : h.react event = some h') : Consistent (s.setHandler i h h') where
  tracked j := by
    by_cases hj : j = i
    · subst hj
      rw [getElem?_setHandler_self hget]
      have hmem : j ∈ s.streamControllers ↔ h.isPolling = true := by simp [hs.tracked, hget]
      refine (mem_track_self hmem).trans ?_
      simp only [Option.some.injEq, exists_eq_left']
    · rw [getElem?_setHandler_of_ne hj]
      exact (mem_track_of_ne hj).trans (hs.tracked j)
  controlled j k hk hpolling := by
    by_cases hj : j = i
    · subst hj
      obtain rfl := Option.some.inj ((getElem?_setHandler_self hget).symm.trans hk)
      exact controlled_of_react hreact (hs.controlled j h hget) hpolling
    · exact hs.controlled j k ((getElem?_setHandler_of_ne hj).symm.trans hk) hpolling

theorem Consistent.closeOpenEventStreams (hs : Consistent s) : Consistent s.closeOpenEventStreams where
  tracked i := by
    refine (hs.tracked i).trans ?_
    simp only [getElem?_closeOpenEventStreams]
    cases s.handlers[i]? with
    | none => simp
    | some h =>
      simp only [Option.some.injEq, exists_eq_left', Option.map_some]
      split <;> rfl
  controlled i k hk hpolling := by
    rw [getElem?_closeOpenEventStreams] at hk
    obtain ⟨h, hget, rfl⟩ := Option.map_eq_some_iff.mp hk
    split at hpolling <;> rename_i hmem
    · have hsome := hs.controlled i h hget hpolling
      simpa [hmem, StreamHandler.abort] using hsome
    · simpa [hmem] using hs.controlled i h hget hpolling

theorem getElem?_arrive {request : EventsRequest} :
    (s.handlers ++ [beginStream request])[i]? = some h ↔
      s.handlers[i]? = some h ∨ i = s.handlers.length ∧ h = beginStream request := by
  rw [List.getElem?_append]
  split
  · rename_i hlt
    simp [hlt.ne]
  · rename_i hge
    have hnone : s.handlers[i]? = none := by simpa using hge
    rw [hnone]
    rcases Nat.eq_zero_or_pos (i - s.handlers.length) with hzero | hpos
    · have heq : i = s.handlers.length := by omega
      simp [heq, eq_comm]
    · have hne : i ≠ s.handlers.length := by omega
      simp [hne, hpos.ne']

theorem isPolling_beginStream (request : EventsRequest) : (beginStream request).isPolling = false := by
  unfold beginStream StreamHandler.isPolling
  dsimp only
  cases parseStream request <;> rfl

/-- A handler of the next state was there before, or has just been started. -/
theorem handler_of_step (hstep : s.step action = some t) (hget : t.handlers[i]? = some h') :
    (∃ h, s.handlers[i]? = some h ∧ (h' = h ∨ action = .startShutdown ∧ h' = h.abort ∨
      ∃ event, action = .handler i event ∧ h.react event = some h')) ∨
    s.handlers[i]? = none ∧ ∃ request, action = .arrive request ∧ h' = beginStream request := by
  cases action with
  | arrive request =>
    simp only [step, Option.ite_none_left_eq_some, Option.some.injEq] at hstep
    obtain ⟨-, rfl⟩ := hstep
    rcases getElem?_arrive.mp hget with hget | ⟨rfl, rfl⟩
    · exact .inl ⟨h', hget, .inl rfl⟩
    · exact .inr ⟨by simp, request, rfl, rfl⟩
  | handler j event =>
    obtain ⟨k, k', hk, hreact, rfl⟩ := step_handler_eq_some.mp hstep
    by_cases hij : i = j
    · subst hij
      obtain rfl := Option.some.inj ((getElem?_setHandler_self hk).symm.trans hget)
      exact .inl ⟨k, hk, .inr (.inr ⟨event, rfl, hreact⟩)⟩
    · rw [getElem?_setHandler_of_ne hij] at hget
      exact .inl ⟨h', hget, .inl rfl⟩
  | startShutdown =>
    simp only [step] at hstep
    split at hstep <;> obtain rfl := Option.some.inj hstep
    · obtain ⟨h, hh, rfl⟩ := Option.map_eq_some_iff.mp (getElem?_closeOpenEventStreams.symm.trans hget)
      refine .inl ⟨h, hh, ?_⟩
      split
      · exact .inr (.inl ⟨rfl, rfl⟩)
      · exact .inl rfl
    · exact .inl ⟨h', hget, .inl rfl⟩
  | appClosed =>
    simp only [step, Option.ite_none_right_eq_some, Option.some.injEq] at hstep
    obtain ⟨-, rfl⟩ := hstep
    exact .inl ⟨h', hget, .inl rfl⟩

theorem exists_handler_of_step (hstep : s.step action = some t) (hget : s.handlers[i]? = some h) :
    ∃ h', t.handlers[i]? = some h' := by
  have hlt := (List.getElem?_eq_some_iff.mp hget).1
  have hlength : s.handlers.length ≤ t.handlers.length := by
    cases action with
    | arrive request =>
      simp only [step, Option.ite_none_left_eq_some, Option.some.injEq] at hstep
      obtain ⟨-, rfl⟩ := hstep
      simp
    | handler j event =>
      obtain ⟨k, k', -, -, rfl⟩ := step_handler_eq_some.mp hstep
      simp
    | startShutdown =>
      simp only [step] at hstep
      split at hstep <;> obtain rfl := Option.some.inj hstep
      · simp [closeOpenEventStreams]
      · exact le_rfl
    | appClosed =>
      simp only [step, Option.ite_none_right_eq_some, Option.some.injEq] at hstep
      obtain ⟨-, rfl⟩ := hstep
      exact le_rfl
  exact ⟨_, List.getElem?_eq_getElem (hlt.trans_le hlength)⟩

/-- What an abort and every reaction keep, every step keeps. -/
theorem handler_keeps {P : StreamHandler → Prop} (habort : ∀ h, P h → P h.abort)
    (hreact : ∀ h event h', P h → h.react event = some h' → P h') (hstep : s.step action = some t)
    (hs : ∃ h, s.handlers[i]? = some h ∧ P h) : ∃ h, t.handlers[i]? = some h ∧ P h := by
  obtain ⟨h, hget, hP⟩ := hs
  obtain ⟨h', hget'⟩ := exists_handler_of_step hstep hget
  refine ⟨h', hget', ?_⟩
  rcases handler_of_step hstep hget' with ⟨k, hk, hcases⟩ | ⟨hnone, -⟩
  · obtain rfl := Option.some.inj (hget.symm.trans hk)
    rcases hcases with rfl | ⟨-, rfl⟩ | ⟨event, -, hevent⟩
    · exact hP
    · exact habort h hP
    · exact hreact h event h' hP hevent
  · rw [hnone] at hget
    cases hget

theorem Consistent.step (hs : Consistent s) (hstep : s.step action = some t) : Consistent t := by
  cases action with
  | arrive request =>
    simp only [Api.step, Option.ite_none_left_eq_some, Option.some.injEq] at hstep
    obtain ⟨-, rfl⟩ := hstep
    constructor
    · intro i
      simp only [hs.tracked, getElem?_arrive]
      constructor
      · rintro ⟨h, hget, hpolling⟩
        exact ⟨h, .inl hget, hpolling⟩
      · rintro ⟨h, hget | ⟨-, rfl⟩, hpolling⟩
        · exact ⟨h, hget, hpolling⟩
        · rw [isPolling_beginStream] at hpolling
          cases hpolling
    · intro i h hget hpolling
      rcases getElem?_arrive.mp hget with hget | ⟨-, rfl⟩
      · exact hs.controlled i h hget hpolling
      · rw [isPolling_beginStream] at hpolling
        cases hpolling
  | handler i event =>
    obtain ⟨h, h', hget, hreact, rfl⟩ := step_handler_eq_some.mp hstep
    exact hs.setHandler hget hreact
  | startShutdown =>
    simp only [Api.step] at hstep
    split at hstep <;> obtain rfl := Option.some.inj hstep
    · exact ⟨hs.closeOpenEventStreams.tracked, hs.closeOpenEventStreams.controlled⟩
    · exact hs
  | appClosed =>
    simp only [Api.step, Option.ite_none_right_eq_some, Option.some.injEq] at hstep
    obtain ⟨-, rfl⟩ := hstep
    exact ⟨hs.tracked, hs.controlled⟩

theorem Consistent.reaches (hs : Consistent s) (h : Reaches Api.step s t) : Consistent t :=
  h.invariant (fun _ _ _ hs hstep => hs.step hstep) hs

def LeavingAt (i : ℕ) (s : Api) : Prop := ∃ h, s.handlers[i]? = some h ∧ h.Leaving

def FinishedAt (i : ℕ) (s : Api) : Prop := ∃ h, s.handlers[i]? = some h ∧ h.isFinished = true

theorem LeavingAt.step (hs : LeavingAt i s) (hstep : s.step action = some t) : LeavingAt i t :=
  handler_keeps (fun _ h => h.abort) (fun _ _ _ h hreact => h.react hreact) hstep hs

theorem LeavingAt.reaches (hs : LeavingAt i s) (h : Reaches Api.step s t) : LeavingAt i t :=
  h.invariant (fun _ _ _ hs hstep => hs.step hstep) hs

theorem FinishedAt.step (hs : FinishedAt i s) (hstep : s.step action = some t) : FinishedAt i t := by
  refine handler_keeps (fun _ h => h) (fun h event h' hfinished hreact => ?_) hstep hs
  by_cases hevent : event = .disconnect
  · subst hevent
    cases StreamHandler.reacts_of_react hreact with
    | left _ _ hevent => exact absurd rfl hevent
    | disconnected => exact hfinished
  · rw [StreamHandler.react_of_finished hfinished hevent] at hreact
    cases hreact

theorem FinishedAt.reaches (hs : FinishedAt i s) (h : Reaches Api.step s t) : FinishedAt i t :=
  h.invariant (fun _ _ _ hs hstep => hs.step hstep) hs

theorem FinishedAt.untracked (hs : FinishedAt i s) (hconsistent : Consistent s) :
    i ∉ s.streamControllers := by
  obtain ⟨h, hget, hfinished⟩ := hs
  have hpolling := StreamHandler.not_polling_of_finished hfinished
  simp [hconsistent.tracked, hget, hpolling]

/-- A move of a handler is a reaction to something other than the disconnect. -/
theorem exists_react_of_moves (hmoves : action.moves i = true) (hstep : s.step action = some t) :
    ∃ event h h', event ≠ .disconnect ∧ s.handlers[i]? = some h ∧ h.react event = some h' ∧
      t = s.setHandler i h h' := by
  cases action with
  | handler j event =>
    obtain ⟨h, h', hget, hreact, rfl⟩ := step_handler_eq_some.mp hstep
    cases event with
    | disconnect => cases hmoves
    | cursorAnswered | pageAnswered | woken =>
      obtain rfl : i = j := by simpa [ApiAction.moves] using hmoves
      exact ⟨_, h, h', by simp, hget, hreact, rfl⟩
  | arrive | startShutdown | appClosed => cases hmoves

theorem LeavingAt.finished (hs : LeavingAt i s) (hmoves : action.moves i = true)
    (hstep : s.step action = some t) : FinishedAt i t := by
  obtain ⟨event, h, h', hevent, hget, hreact, rfl⟩ := exists_react_of_moves hmoves hstep
  obtain ⟨k, hk, hleaving⟩ := hs
  obtain rfl := Option.some.inj (hget.symm.trans hk)
  exact ⟨h', getElem?_setHandler_self hget, hleaving.finished_of_react hreact hevent⟩

theorem FinishedAt.not_moves (hs : FinishedAt i s) (hstep : s.step action = some t) :
    action.moves i = false := by
  by_contra hmoves
  obtain ⟨event, h, h', hevent, hget, hreact, -⟩ := exists_react_of_moves (by simpa using hmoves) hstep
  obtain ⟨k, hk, hfinished⟩ := hs
  obtain rfl := Option.some.inj (hget.symm.trans hk)
  rw [StreamHandler.react_of_finished hfinished hevent] at hreact
  cases hreact

structure Leaves (s : Api) (i : ℕ) : Prop where
  resumes : ∀ t, Reaches Api.step s t → FinishedAt i t ∨
    ∃ action u, action.moves i = true ∧ t.step action = some u
  ends : ∀ as t, run Api.step s as = some t → (∃ action ∈ as, action.moves i = true) →
    FinishedAt i t ∧ i ∉ t.streamControllers
  once : ∀ as t, run Api.step s as = some t → as.countP (ApiAction.moves i) ≤ 1

theorem FinishedAt.countP_moves {as : List ApiAction} (hs : FinishedAt i s)
    (h : run Api.step s as = some t) : as.countP (ApiAction.moves i) = 0 := by
  induction as generalizing s with
  | nil => rfl
  | cons action as ih =>
    obtain ⟨m, hstep, hrest⟩ := (run_cons_eq_some Api.step).mp h
    rw [List.countP_cons_of_neg (by simp [hs.not_moves hstep])]
    exact ih (hs.step hstep) hrest

theorem LeavingAt.countP_moves {as : List ApiAction} (hs : LeavingAt i s)
    (h : run Api.step s as = some t) : as.countP (ApiAction.moves i) ≤ 1 := by
  induction as generalizing s with
  | nil => exact Nat.zero_le _
  | cons action as ih =>
    obtain ⟨m, hstep, hrest⟩ := (run_cons_eq_some Api.step).mp h
    by_cases hmoves : action.moves i = true
    · rw [List.countP_cons_of_pos hmoves, (hs.finished hmoves hstep).countP_moves hrest]
    · rw [List.countP_cons_of_neg hmoves]
      exact ih (hs.step hstep) hrest

theorem LeavingAt.finished_or_moves (hs : LeavingAt i s) : FinishedAt i s ∨
    ∃ action u, action.moves i = true ∧ s.step action = some u := by
  obtain ⟨h, hget, hfinished | ⟨hpolling, -⟩⟩ := hs
  · exact .inl ⟨h, hget, hfinished⟩
  · obtain ⟨event, h', hevent, hreact⟩ := StreamHandler.exists_react_of_polling hpolling
    refine .inr ⟨.handler i event, s.setHandler i h h', ?_, step_handler_eq_some.mpr ⟨h, h', hget, hreact, rfl⟩⟩
    cases event with
    | disconnect => exact absurd rfl hevent
    | cursorAnswered | pageAnswered | woken => simp [ApiAction.moves]

theorem LeavingAt.leaves (hs : LeavingAt i s) (hconsistent : Consistent s) : Leaves s i where
  resumes t h := (hs.reaches h).finished_or_moves
  ends as t h hmoves := by
    obtain ⟨action, hmem, hmoves⟩ := hmoves
    obtain ⟨before, after, rfl⟩ := List.append_of_mem hmem
    obtain ⟨m, hbefore, hrest⟩ := (run_append_eq_some Api.step).mp h
    obtain ⟨m', hstep, hafter⟩ := (run_cons_eq_some Api.step).mp hrest
    have hfinished := ((hs.reaches ⟨before, hbefore⟩).finished hmoves hstep).reaches ⟨after, hafter⟩
    exact ⟨hfinished, hfinished.untracked (hconsistent.reaches ⟨_, h⟩)⟩
  once as t h := hs.countP_moves h

/-- The handlers in a list that are leaving can be run to their end while nothing else moves. -/
theorem exists_run_to_end (js : List ℕ) (hs : ∀ j ∈ js, LeavingAt j s) : ∃ as t,
    run Api.step s as = some t ∧ (∀ action ∈ as, ∃ j ∈ js, action.moves j = true) ∧
      (∀ j ∈ js, FinishedAt j t) ∧ (∀ i, i ∉ js → t.handlers[i]? = s.handlers[i]?) ∧
        t.shutdown = s.shutdown ∧ t.handlers.length = s.handlers.length := by
  induction js generalizing s with
  | nil => exact ⟨[], s, rfl, nofun, nofun, fun _ _ => rfl, rfl, rfl⟩
  | cons j js ih =>
    obtain ⟨m, as, hrun, hmoves, hfinished, hothers, hshutdown, hlength⟩ : ∃ m as,
        run Api.step s as = some m ∧ (∀ action ∈ as, action.moves j = true) ∧ FinishedAt j m ∧
          (∀ i, i ≠ j → m.handlers[i]? = s.handlers[i]?) ∧ m.shutdown = s.shutdown ∧
            m.handlers.length = s.handlers.length := by
      rcases (hs j List.mem_cons_self).finished_or_moves with hfinished | ⟨action, m, hmoves, hstep⟩
      · exact ⟨s, [], rfl, nofun, hfinished, fun _ _ => rfl, rfl, rfl⟩
      · have hfinished := (hs j List.mem_cons_self).finished hmoves hstep
        obtain ⟨event, h, h', -, hget, -, rfl⟩ := exists_react_of_moves hmoves hstep
        refine ⟨_, [action], by simp [run_cons, hstep], by simpa using hmoves, hfinished, ?_, rfl,
          length_setHandler⟩
        exact fun i hne => getElem?_setHandler_of_ne hne
    have hleaving : ∀ i ∈ js, LeavingAt i m := fun i hi =>
      (hs i (List.mem_cons_of_mem _ hi)).reaches ⟨as, hrun⟩
    obtain ⟨bs, t, hrun', hmoves', hfinished', hothers', hshutdown', hlength'⟩ := ih hleaving
    refine ⟨as ++ bs, t, (run_append_eq_some Api.step).mpr ⟨m, hrun, hrun'⟩, ?_, ?_, ?_,
      hshutdown'.trans hshutdown, hlength'.trans hlength⟩
    · intro action hmem
      rcases List.mem_append.mp hmem with hmem | hmem
      · exact ⟨j, List.mem_cons_self, hmoves action hmem⟩
      · obtain ⟨i, hi, hmoves⟩ := hmoves' action hmem
        exact ⟨i, List.mem_cons_of_mem _ hi, hmoves⟩
    · intro i hi
      rcases List.mem_cons.mp hi with rfl | hi
      · exact hfinished.reaches ⟨bs, hrun'⟩
      · exact hfinished' i hi
    · intro i hi
      obtain ⟨hne, hi⟩ := not_or.mp (mt List.mem_cons.mpr hi)
      exact (hothers' i hi).trans (hothers i hne)

def follower : EventsRequest := { afterId := some (.one "1") }

/-- The database answers and the timer fires, again and again. -/
def pollRounds (i : ℕ) (table : EventLog) (n : ℕ) : List ApiAction :=
  (List.replicate n [.handler i (.pageAnswered (some table)), .handler i .woken]).flatten

def PollsOn (i : ℕ) (connected : Bool) (s : Api) : Prop :=
  ∃ h stream, s.handlers[i]? = some h ∧ h.phase = .reading stream ∧ h.isAborted = false ∧
    h.connected = connected

theorem PollsOn.exists_polling {connected : Bool} (hs : PollsOn i connected s) :
    ∃ h ∈ s.handlers, h.isPolling = true ∧ h.isAborted = false := by
  obtain ⟨h, stream, hget, hphase, haborted, -⟩ := hs
  exact ⟨h, List.mem_of_getElem? hget, by simp [StreamHandler.isPolling, hphase], haborted⟩

theorem PollsOn.round {connected : Bool} (hs : PollsOn i connected s) (table : EventLog) : ∃ t,
    run Api.step s [.handler i (.pageAnswered (some table)), .handler i .woken] = some t ∧
      PollsOn i connected t := by
  obtain ⟨h, stream, hget, hphase, haborted, hconnected⟩ := hs
  obtain ⟨events, next, hpoll⟩ := exists_pollStream table stream
  obtain ⟨asleep, hasleep⟩ : ∃ asleep : StreamHandler, asleep =
    { h with phase := .sleeping next, written := h.written ++ pageFrames events } := ⟨_, rfl⟩
  have hread : h.react (.pageAnswered (some table)) = some asleep := by
    simp [StreamHandler.react, hphase, StreamHandler.pageAnswered, hpoll, haborted, hasleep]
  have haborted' : asleep.isAborted = false := hasleep ▸ haborted
  have hphase' : asleep.phase = .sleeping next := by rw [hasleep]
  have hwake : asleep.react .woken = some { asleep with phase := .reading next } := by
    simp [StreamHandler.react, hphase', StreamHandler.woken, haborted']
  have hstep := step_handler_eq_some.mpr ⟨h, _, hget, hread, rfl⟩
  have hstep' := step_handler_eq_some.mpr ⟨_, _, getElem?_setHandler_self hget, hwake, rfl⟩
  refine ⟨_, (run_cons_eq_some _).mpr ⟨_, hstep, (run_cons_eq_some _).mpr ⟨_, hstep', rfl⟩⟩, ?_⟩
  exact ⟨_, next, getElem?_setHandler_self (getElem?_setHandler_self hget), rfl, haborted',
    by rw [hasleep, ← hconnected]⟩

theorem PollsOn.rounds {connected : Bool} (hs : PollsOn i connected s) (table : EventLog) (n : ℕ) :
    ∃ t, run Api.step s (pollRounds i table n) = some t ∧ PollsOn i connected t := by
  induction n generalizing s with
  | zero => exact ⟨s, rfl, hs⟩
  | succ n ih =>
    obtain ⟨m, hround, hm⟩ := hs.round table
    obtain ⟨t, hrest, ht⟩ := ih hm
    refine ⟨t, ?_, ht⟩
    rw [pollRounds, List.replicate_succ, List.flatten_cons]
    exact (run_append_eq_some _).mpr ⟨m, hround, hrest⟩

end Api
end DurableRunner.Events
