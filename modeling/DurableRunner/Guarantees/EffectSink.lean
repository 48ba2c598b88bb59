import DurableRunner.Effects.Answers
import DurableRunner.Effects.Independence

/-! # One application and one answer per key -/
namespace DurableRunner.Guarantees
open Schema Effects TransitionSystem

/-- `randomUUID` returns an identifier that nobody has. -/
structure FreshIds (s₀ s : EffectStore) : Prop where
  apart : ∀ c c' call call', s.calls c = some call → s.calls c' = some call' →
    call.effectId = call'.effectId → c = c'
  unseen : ∀ row ∈ s₀.rows, ∀ c call, s.calls c = some call →
    row.result.get? "effectId" ≠ some (.str call.effectId)

/-- What a schedule of any number of calls makes of the store and tells the callers. -/
structure OneAnswer (s₀ : EffectStore) (as : List StoreAction) (s : EffectStore) : Prop where
  onePerKey : (s.rows.map EffectRow.idempotencyKey).Nodup
  permanent : ∀ as₁ as₂ m, as = as₁ ++ as₂ → run EffectStore.step s₀ as₁ = some m →
    m.rows <+: s.rows
  minted : ∀ row ∈ s.rows, row ∉ s₀.rows →
    ∃ c call, .commit c ∈ as ∧ s.calls c = some call ∧ call.Mints row
  applied : ∀ c, .commit c ∈ as → ∃ call row, s.calls c = some call ∧ row ∈ s.rows ∧
    row ∉ s₀.rows ∧ call.Mints row ∧
    (∀ c' call', .commit c' ∈ as → s.calls c' = some call' →
      call'.request.idempotencyKey = call.request.idempotencyKey → c' = c) ∧
    (call.state = .applied row ∨ call.state = .returned ⟨true, row.result, row.createdAt⟩ ∨
      call.state = .failed .database)
  returned : ∀ c call outcome, s.calls c = some call → call.state = .returned outcome →
    (outcome.applied = true ↔ .commit c ∈ as) ∧
    ∃ row ∈ s.rows, row.idempotencyKey = call.request.idempotencyKey ∧
      outcome.result = row.result ∧ outcome.createdAt = row.createdAt
  notMintedHere : FreshIds s₀ s → ∀ c call outcome, s.calls c = some call →
    call.state = .returned outcome → outcome.applied = false →
      outcome.result.get? "effectId" ≠ some (.str call.effectId)
  decided : ∀ c call, s.calls c = some call →
    ((∃ outcome, call.state = .returned outcome) ∨
      ∃ key, call.state = .failed (.idempotencyConflict key)) →
    ∃ row ∈ s.rows, row.idempotencyKey = call.request.idempotencyKey ∧
      ((∃ outcome, call.state = .returned outcome) ↔ row.StandsFor call.request)
  conflict : ∀ c call key, s.calls c = some call → call.state = .failed (.idempotencyConflict key) →
    ∀ as₁ a as₂ m m', as = as₁ ++ a :: as₂ → run EffectStore.step s₀ as₁ = some m →
      m.step a = some m' → a.call? = some c →
        m'.rows = m.rows ∧ (∀ row, ¬InFlight m' c row) ∧
          ∀ other, other ≠ c → m'.calls other = m.calls other
  found : ∀ c call key, s.calls c = some call → call.state ≠ .failed (.effectState key)
  waits : ∀ c call now, s.calls c = some call → call.state = .sent →
    (s.step (.insert c now) = none ↔ call.request.storable = true ∧
      ∃ other row, other ≠ c ∧ InFlight s other row ∧
        row.idempotencyKey = call.request.idempotencyKey)
  independent : ∀ a s' key, s.step a = some s' → s.keyOf a ≠ some key → SameUnder key s s' ∧
    ∀ b, s.keyOf b = some key → (∀ request effectId, b ≠ .apply request effectId) →
      (∀ t, s.step b = some t → ∃ t', s'.step b = some t' ∧ SameUnder key t t') ∧
      ∀ t', s'.step b = some t' → ∃ t, s.step b = some t ∧ SameUnder key t t'

section
variable {s₀ s s' : EffectStore} {a : StoreAction} {c : CallId}

theorem rows_of_step (h : s.step a = some s') (hne : ∀ c, a ≠ .commit c) : s'.rows = s.rows := by
  cases store_cases h with
  | commit => exact absurd rfl (hne _)
  | _ => rfl

theorem calls_of_step {other : CallId} (h : s.step a = some s') (ha : a.call? = some c)
    (hother : other ≠ c) : s'.calls other = s.calls other := by
  cases store_cases h with
  | apply => cases ha
  | unstorable | conflict | insert | commit | respond | readNothing | readSame | readOther | lose =>
    obtain rfl := Option.some.inj ha
    exact setState_calls_of_ne _ _ _ _ hother

/-- The insert has returned a row, or the call has ended without a conflict. -/
def PastConflict (s : EffectStore) (c : CallId) : Prop :=
  ∃ call, s.calls c = some call ∧ call.state ≠ .sent ∧ call.state ≠ .conflicted ∧
    ∀ key, call.state ≠ .failed (.idempotencyConflict key)

theorem PastConflict.step (h : PastConflict s c) (hfresh : s.calls s.nextCall = none)
    (hstep : s.step a = some s') : PastConflict s' c := by
  obtain ⟨call, hcall, hsent, hconflicted, hconflict⟩ := h
  have hmoved : ∀ {c' call' state}, s.calls c' = some call' →
      (call'.state ≠ .sent → call'.state ≠ .conflicted → state ≠ .sent ∧ state ≠ .conflicted ∧
        ∀ key, state ≠ .failed (.idempotencyConflict key)) →
      PastConflict (s.setState c' call' state) c := by
    intro c' call' state hcall' hnew
    by_cases hc : c = c'
    · subst hc
      obtain rfl := Option.some.inj (hcall.symm.trans hcall')
      exact ⟨_, setState_calls_self _ _ _ _, hnew hsent hconflicted⟩
    · exact ⟨call, (setState_calls_of_ne _ _ _ _ hc).trans hcall, hsent, hconflicted, hconflict⟩
  cases store_cases hstep with
  | apply hstate =>
    have hne : c ≠ s.nextCall := fun e => by
      rw [e, hfresh] at hcall
      cases hcall
    exact ⟨call, (addCall_calls_of_ne hne).trans hcall, hsent, hconflicted, hconflict⟩
  | unstorable hcall' | commit hcall' | respond hcall' | lose hcall' =>
    exact hmoved hcall' fun _ _ => ⟨nofun, nofun, nofun⟩
  | conflict hcall' hstate | insert hcall' hstate =>
    exact hmoved hcall' fun hne => absurd hstate hne
  | readNothing hcall' hstate | readSame hcall' hstate | readOther hcall' hstate =>
    exact hmoved hcall' fun _ hne => absurd hstate hne

theorem pastConflict_of_reaches (h : PastConflict s c) (hsound : Sound s)
    (hr : Reaches EffectStore.step s s') : PastConflict s' c := by
  refine (hr.rec_tail (motive := fun s => Sound s ∧ PastConflict s c) ⟨hsound, h⟩ ?_).2
  rintro m a m' - ⟨hm, hpast⟩ hstep
  exact ⟨hm.step hstep, hpast.step (hm.fresh _ le_rfl) hstep⟩

theorem insert_eq_none_iff (hsound : Sound s) {call : EffectCall} {now : Timestamp}
    (hcall : s.calls c = some call) (hstate : call.state = .sent) :
    s.step (.insert c now) = none ↔ call.request.storable = true ∧
      ∃ other row, other ≠ c ∧ InFlight s other row ∧
        row.idempotencyKey = call.request.idempotencyKey := by
  obtain ⟨request, effectId, state⟩ := call
  obtain rfl : state = _ := hstate
  rw [← heldByOther_iff hsound]
  simp only [EffectStore.step, hcall, EffectStore.insertStatement]
  have hfree : s.heldByOther c request.idempotencyKey = true →
      s.holdsKey request.idempotencyKey = false := by
    intro hheld
    obtain ⟨other, row, -, hrow, hkey⟩ := (heldByOther_iff hsound).mp hheld
    exact hkey ▸ hsound.unpublished other row hrow
  cases hstorable : request.storable <;> cases hheld : s.heldByOther c request.idempotencyKey <;>
    cases hholds : s.holdsKey request.idempotencyKey <;> simp_all

end

section
variable {s₀ s : EffectStore} {as : List StoreAction} {c : CallId} {call : EffectCall}

/-- The row of a committed call, and the answer it stands for. -/
theorem applied_of_committed (h : Recorded s₀ (committedCalls as) s) (hc : .commit c ∈ as) :
    ∃ call row, s.calls c = some call ∧ row ∈ s.rows ∧ row ∉ s₀.rows ∧ call.Mints row ∧
      (call.state = .applied row ∨ call.state = .returned ⟨true, row.result, row.createdAt⟩ ∨
        call.state = .failed .database) := by
  obtain ⟨⟨request, effectId, state⟩, row, hcall, hrow, hadded, hmints⟩ := h.stored c hc
  have hanswered := h.answered c _ hcall
  have hsame : ∀ row' ∈ s.rows, row'.idempotencyKey = request.idempotencyKey → row' = row :=
    fun row' hrow' hkey =>
      List.inj_on_of_nodup_map h.sound.distinct hrow' hrow (hkey.trans hmints.key.symm)
  refine ⟨_, row, hcall, hrow, hadded, hmints, ?_⟩
  cases state with
  | sent | inserted row' | conflicted => exact absurd hc hanswered
  | applied row' =>
    obtain rfl := hsame row' hanswered.2.1 hanswered.2.2.key
    exact .inl rfl
  | returned outcome =>
    obtain ⟨happlied, row', hrow', hkey, -, hresult, hcreated⟩ := hanswered
    obtain rfl := hsame row' hrow' hkey
    refine .inr (.inl (congrArg CallState.returned ?_))
    ext
    · exact happlied.mpr hc
    · exact hresult
    · exact hcreated
  | failed e =>
    cases e with
    | idempotencyConflict key => exact absurd hc hanswered.1
    | _ => exact .inr (.inr (congrArg CallState.failed (hanswered hc)))

theorem returned_row (h : Recorded s₀ (committedCalls as) s) {outcome : EffectOutcome}
    (hcall : s.calls c = some call) (hstate : call.state = .returned outcome) :
    (outcome.applied = true ↔ .commit c ∈ as) ∧
      ∃ row ∈ s.rows, row.idempotencyKey = call.request.idempotencyKey ∧
        row.StandsFor call.request ∧ outcome.result = row.result ∧
          outcome.createdAt = row.createdAt := by
  have hanswered := h.answered c call hcall
  rwa [Answered, hstate] at hanswered

theorem conflict_row (h : Recorded s₀ (committedCalls as) s) {key : String}
    (hcall : s.calls c = some call) (hstate : call.state = .failed (.idempotencyConflict key)) :
    .commit c ∉ as ∧ key = call.request.idempotencyKey ∧
      ∃ row ∈ s.rows, row.idempotencyKey = key ∧ ¬row.StandsFor call.request := by
  have hanswered := h.answered c call hcall
  rwa [Answered, hstate] at hanswered

theorem effectId_ne (h : Recorded s₀ (committedCalls as) s) (hids : FreshIds s₀ s)
    {outcome : EffectOutcome} (hcall : s.calls c = some call)
    (hstate : call.state = .returned outcome) (happlied : outcome.applied = false) :
    outcome.result.get? "effectId" ≠ some (.str call.effectId) := by
  obtain ⟨hcommit, row, hrow, -, -, hresult, -⟩ := returned_row h hcall hstate
  rw [hresult]
  rcases h.minted row hrow with hold | ⟨c', hc', call', hcall', hmints⟩
  · exact hids.unseen row hold c call hcall
  · rw [hmints.effectId]
    intro hid
    obtain rfl : c' = c := hids.apart c' c call' call hcall' hcall (by simpa using hid)
    rw [hcommit.mpr hc'] at happlied
    cases happlied

/-- A call that ends in a conflict has changed nothing with any of its statements. -/
theorem unchanged_of_conflict (h₀ : s₀.Initial) (hrun : run EffectStore.step s₀ as = some s)
    {key : String} (hcall : s.calls c = some call)
    (hstate : call.state = .failed (.idempotencyConflict key)) {as₁ as₂ : List StoreAction}
    {a : StoreAction} {m m' : EffectStore} (has : as = as₁ ++ a :: as₂)
    (hm : run EffectStore.step s₀ as₁ = some m) (hstep : m.step a = some m')
    (ha : a.call? = some c) :
    m'.rows = m.rows ∧ (∀ row, ¬InFlight m' c row) ∧
      ∀ other, other ≠ c → m'.calls other = m.calls other := by
  have hnone := (conflict_row (.of_run h₀ hrun) hcall hstate).1
  have hsound := (Recorded.of_run h₀ hm).sound.step hstep
  have hrest : run EffectStore.step m' as₂ = some s := by
    rw [has, run_append, hm, Option.bind_some, run_cons, hstep] at hrun
    exact hrun
  refine ⟨rows_of_step hstep fun c' hc' => ?_, fun row hrow => ?_,
    fun other => calls_of_step hstep ha⟩
  · subst hc'
    obtain rfl := Option.some.inj ha
    exact hnone (by simp [has])
  · obtain ⟨call', hcall', hinserted⟩ := hrow
    have hpast : PastConflict m' c := ⟨call', hcall', by simp [hinserted]⟩
    obtain ⟨call'', hcall'', -, -, hconflict⟩ := pastConflict_of_reaches hpast hsound ⟨as₂, hrest⟩
    obtain rfl := Option.some.inj (hcall.symm.trans hcall'')
    exact hconflict key hstate

end

/-- Whatever the interleaving, the sink applies an effect once and gives every caller of its
key the one stored result. -/
theorem sink_answers_once {s₀ s : EffectStore} {as : List StoreAction} (h₀ : s₀.Initial)
    (hrun : run EffectStore.step s₀ as = some s) : OneAnswer s₀ as s := by
  have h : Recorded s₀ (committedCalls as) s := .of_run h₀ hrun
  refine ⟨h.sound.distinct, fun as₁ as₂ m has hm => ?_, fun row hrow hadded => ?_, fun c hc => ?_,
    fun c call outcome hcall hstate => ?_,
    fun hids c call outcome hcall hstate => effectId_ne h hids hcall hstate,
    fun c call hcall hended => ?_,
    fun c call key hcall hstate as₁ a as₂ m m' has hm hstep ha =>
      unchanged_of_conflict h₀ hrun hcall hstate has hm hstep ha,
    fun c call key hcall hstate => ?_,
    fun c call now hcall hstate => insert_eq_none_iff h.sound hcall hstate,
    fun a s' key hstep hother => ?_⟩
  · rw [has] at hrun
    obtain ⟨m', hm', hrest⟩ := (run_append_eq_some _).mp hrun
    obtain rfl := Option.some.inj (hm.symm.trans hm')
    exact Reaches.relation (R := fun s s' => s.rows <+: s'.rows) (fun _ => List.prefix_rfl)
      (fun _ _ _ => List.IsPrefix.trans) (fun _ _ _ => rows_prefix_of_step) ⟨as₂, hrest⟩
  · obtain ⟨c, hc, call, hcall, hmints⟩ := (h.minted row hrow).resolve_left hadded
    exact ⟨c, call, hc, hcall, hmints⟩
  · obtain ⟨call, row, hcall, hrow, hadded, hmints, hstate⟩ := applied_of_committed h hc
    exact ⟨call, row, hcall, hrow, hadded, hmints, fun c' call' hc' hcall' hkey =>
      h.once c' hc' c hc call' call hcall' hcall hkey, hstate⟩
  · obtain ⟨happlied, row, hrow, hkey, -, hanswer⟩ := returned_row h hcall hstate
    exact ⟨happlied, row, hrow, hkey, hanswer⟩
  · rcases hended with ⟨outcome, hstate⟩ | ⟨key, hstate⟩
    · obtain ⟨-, row, hrow, hkey, hstands, -⟩ := returned_row h hcall hstate
      exact ⟨row, hrow, hkey, iff_of_true ⟨outcome, hstate⟩ hstands⟩
    · obtain ⟨-, rfl, row, hrow, hkey, hstands⟩ := conflict_row h hcall hstate
      exact ⟨row, hrow, hkey, iff_of_false (by simp [hstate]) hstands⟩
  · exact (h.sound.explained c call hcall).ne_effectState key hstate
  · have hsame := sameUnder_of_step h.sound hstep hother
    have hsound' := h.sound.step hstep
    refine ⟨hsame, fun b hb happly => ⟨fun t ht => hsame.step h.sound hsound' hb happly ht,
      fun t' ht' => ?_⟩⟩
    obtain ⟨t, ht, hback⟩ := hsame.symm.step hsound' h.sound (hsame.keyOf hb) happly ht'
    exact ⟨t, ht, hback.symm⟩

def emptySink : EffectStore := ⟨[], fun _ => none, 0⟩

theorem initial_emptySink : emptySink.Initial := ⟨List.nodup_nil, fun _ => rfl⟩

def receipt (members : List (String × Json)) : EffectRequest := ⟨"k", demoEffectType, .obj members⟩

/-- The second caller waits while the first commits and crashes, and reads its row; its request
lists the members in another order. A third one asks for something else. -/
def twoCallersAndAnother : List StoreAction :=
  [.apply (receipt [("value", .num 1), ("stepId", .str "s")]) "first",
    .apply (receipt [("stepId", .str "s"), ("value", .num 1)]) "second",
    .apply (receipt [("value", .num 2)]) "third", .insert 0 10, .commit 0, .insert 1 20, .lose 0,
    .insert 2 20, .read 2, .read 1]

theorem sink_answers_once_crashed_winner : ∃ s call row,
    run EffectStore.step emptySink twoCallersAndAnother = some s ∧
      OneAnswer emptySink twoCallersAndAnother s ∧ s.rows = [row] ∧ s.calls 1 = some call ∧
      call.state = .returned ⟨false, row.result, row.createdAt⟩ := by
  have hruns : (run EffectStore.step emptySink twoCallersAndAnother).any
      (fun s => s.rows.length = 1 ∧ (s.calls 1).any fun call =>
        match call.state with
        | .returned outcome => outcome.applied = false
        | _ => false) = true := by
    decide +kernel
  obtain ⟨s, hs, hend⟩ := (Option.any_eq_true _ _).mp hruns
  have hanswer := sink_answers_once initial_emptySink hs
  obtain ⟨hlength, hreturned⟩ := of_decide_eq_true hend
  obtain ⟨row, hrows⟩ := List.length_eq_one_iff.mp hlength
  obtain ⟨call, hcall, hstate⟩ := (Option.any_eq_true _ _).mp hreturned
  split at hstate
  · rename_i outcome heq
    obtain ⟨-, row', hrow', -, hresult, hcreated⟩ := hanswer.returned 1 call outcome hcall heq
    obtain rfl : row' = row := by simpa [hrows] using hrow'
    refine ⟨s, call, row', hs, hanswer, hrows, hcall, heq.trans (congrArg _ ?_)⟩
    ext
    · exact of_decide_eq_true hstate
    · exact hresult
    · exact hcreated
  · cases hstate

end DurableRunner.Guarantees
