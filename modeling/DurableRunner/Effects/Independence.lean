import DurableRunner.Effects.Agreement

/-! # Different keys are independent

A statement under one key changes nothing that a statement under another key
reads. Two stores that agree under a key answer its callers alike.
-/
namespace DurableRunner.Effects
open Schema

def EffectStore.keyOf (s : EffectStore) : StoreAction → Option String
  | .apply request _ => some request.idempotencyKey
  | .insert c _ | .commit c | .respond c | .read c | .lose c =>
    (s.calls c).map fun call => call.request.idempotencyKey

/-- The two stores have the same rows and the same calls under the key. -/
structure SameUnder (key : String) (s s' : EffectStore) : Prop where
  rows : s.rows.filter (fun row => row.idempotencyKey = key) =
    s'.rows.filter (fun row => row.idempotencyKey = key)
  calls : ∀ c call, call.request.idempotencyKey = key →
    (s.calls c = some call ↔ s'.calls c = some call)

section
variable {key : String} {s s' : EffectStore} {c : CallId} {call : EffectCall} {state : CallState}

theorem SameUnder.symm (h : SameUnder key s s') : SameUnder key s' s :=
  ⟨h.rows.symm, fun c call hkey => (h.calls c call hkey).symm⟩

theorem SameUnder.mem (h : SameUnder key s s') {row : EffectRow} (hkey : row.idempotencyKey = key)
    (hrow : row ∈ s.rows) : row ∈ s'.rows := by
  have hmem : row ∈ s.rows.filter fun row => row.idempotencyKey = key := by
    simp [hrow, hkey]
  rw [h.rows] at hmem
  exact (List.mem_filter.mp hmem).1

theorem SameUnder.holdsKey (h : SameUnder key s s') : s.holdsKey key = s'.holdsKey key := by
  rw [Bool.eq_iff_iff, holdsKey_iff, holdsKey_iff]
  constructor
  · rintro ⟨row, hrow, hkey⟩
    exact ⟨row, h.mem hkey hrow, hkey⟩
  · rintro ⟨row, hrow, hkey⟩
    exact ⟨row, h.symm.mem hkey hrow, hkey⟩

theorem SameUnder.keyOf (h : SameUnder key s s') {a : StoreAction} (ha : s.keyOf a = some key) :
    s'.keyOf a = some key := by
  cases a with
  | apply => exact ha
  | insert c _ | commit c | respond c | read c | lose c =>
    obtain ⟨call, hcall, hkey⟩ := Option.map_eq_some_iff.mp ha
    exact Option.map_eq_some_iff.mpr ⟨call, (h.calls c call hkey).mp hcall, hkey⟩

theorem SameUnder.find? (h : SameUnder key s s') :
    s.rows.find? (fun row => row.idempotencyKey = key) =
      s'.rows.find? (fun row => row.idempotencyKey = key) := by
  rw [← List.head?_filter, h.rows, List.head?_filter]

theorem heldByOther_iff (hsound : Sound s) :
    s.heldByOther c key = true ↔
      ∃ other row, other ≠ c ∧ InFlight s other row ∧ row.idempotencyKey = key := by
  constructor
  · intro hheld
    obtain ⟨other, -, hother⟩ := List.any_eq_true.mp hheld
    rw [Bool.and_eq_true, decide_eq_true_eq] at hother
    obtain ⟨hne, hrow⟩ := hother
    split at hrow
    · rename_i request effectId row hcall
      exact ⟨other, row, hne, ⟨_, hcall, rfl⟩, by simpa using hrow⟩
    · cases hrow
  · rintro ⟨other, row, hne, ⟨call, hcall, hstate⟩, hkey⟩
    by_contra hfree
    have hbound : other < s.nextCall := not_le.mp fun hge => by
      rw [hsound.fresh other hge] at hcall
      cases hcall
    exact key_ne_of_alone (Bool.eq_false_iff.mpr hfree) hne hbound hcall hstate hkey

theorem SameUnder.inFlight (h : SameUnder key s s') (hsound : Sound s) {row : EffectRow}
    (hkey : row.idempotencyKey = key) (hrow : InFlight s c row) : InFlight s' c row := by
  obtain ⟨call, hcall, hstate⟩ := hrow
  obtain ⟨now, rfl⟩ := hsound.minted c call row hcall hstate
  exact ⟨call, (h.calls c call hkey).mp hcall, hstate⟩

theorem SameUnder.heldByOther (h : SameUnder key s s') (hsound : Sound s) (hsound' : Sound s')
    (c : CallId) : s.heldByOther c key = s'.heldByOther c key := by
  rw [Bool.eq_iff_iff, heldByOther_iff hsound, heldByOther_iff hsound']
  constructor
  · rintro ⟨other, row, hne, hrow, hkey⟩
    exact ⟨other, row, hne, h.inFlight hsound hkey hrow, hkey⟩
  · rintro ⟨other, row, hne, hrow, hkey⟩
    exact ⟨other, row, hne, h.symm.inFlight hsound' hkey hrow, hkey⟩

theorem SameUnder.setState (h : SameUnder key s s') :
    SameUnder key (s.setState c call state) (s'.setState c call state) where
  rows := h.rows
  calls other call' hkey := by
    by_cases hother : other = c
    · subst hother
      rw [setState_calls_self, setState_calls_self]
    · rw [setState_calls_of_ne _ _ _ _ hother, setState_calls_of_ne _ _ _ _ hother]
      exact h.calls other call' hkey

theorem sameUnder_setState (state : CallState) (hcall : s.calls c = some call)
    (hkey : call.request.idempotencyKey ≠ key) : SameUnder key s (s.setState c call state) where
  rows := rfl
  calls other call' hkey' := by
    by_cases hother : other = c
    · subst hother
      rw [hcall, setState_calls_self, Option.some.injEq, Option.some.injEq]
      constructor <;> rintro rfl <;> exact absurd hkey' hkey
    · rw [setState_calls_of_ne _ _ _ _ hother]

end

/-- A statement under one key leaves every other key as it is. -/
theorem sameUnder_of_step {s s' : EffectStore} {a : StoreAction} {key : String} (hsound : Sound s)
    (hstep : s.step a = some s') (hkey : s.keyOf a ≠ some key) : SameUnder key s s' := by
  cases store_cases hstep with
  | @apply request effectId state hstate =>
    have hne : request.idempotencyKey ≠ key := fun e => hkey (congrArg some e)
    refine ⟨rfl, fun c call hcallKey => ?_⟩
    by_cases hc : c = s.nextCall
    · subst hc
      rw [hsound.fresh _ le_rfl, addCall_calls_self]
      refine ⟨nofun, fun e => ?_⟩
      obtain rfl := Option.some.inj e
      exact absurd hcallKey hne
    · rw [addCall_calls_of_ne hc]
  | @commit c call row hcall hstate =>
    have hne : call.request.idempotencyKey ≠ key := fun e =>
      hkey ((congrArg (Option.map _) hcall).trans (congrArg some e))
    obtain ⟨now, rfl⟩ := hsound.minted c call row hcall hstate
    have hmoved := sameUnder_setState (.applied (call.request.row call.effectId now)) hcall hne
    refine ⟨?_, hmoved.calls⟩
    have hlast : decide ((call.request.row call.effectId now).idempotencyKey = key) = false :=
      decide_eq_false hne
    rw [List.filter_append, List.filter_cons_of_neg (by simp [hlast]), List.filter_nil,
      List.append_nil]
  | unstorable hcall | conflict hcall | insert hcall | respond hcall | readNothing hcall
  | readSame hcall | readOther hcall | lose hcall =>
    exact sameUnder_setState _ hcall fun e =>
      hkey ((congrArg (Option.map _) hcall).trans (congrArg some e))

section
variable {s s' : EffectStore} {c : CallId} {call : EffectCall}

theorem SameUnder.insertStatement (h : SameUnder call.request.idempotencyKey s s')
    (hsound : Sound s) (hsound' : Sound s') {now : Timestamp} {t : EffectStore}
    (hstep : s.insertStatement c call now = some t) :
    ∃ t', s'.insertStatement c call now = some t' ∧
      SameUnder call.request.idempotencyKey t t' := by
  unfold EffectStore.insertStatement at hstep ⊢
  rw [← h.holdsKey, ← h.heldByOther hsound hsound']
  split_ifs at hstep ⊢ <;> obtain rfl := Option.some.inj hstep <;> exact ⟨_, rfl, h.setState⟩

theorem SameUnder.readStatement (h : SameUnder call.request.idempotencyKey s s') :
    SameUnder call.request.idempotencyKey (s.readStatement c call) (s'.readStatement c call) := by
  unfold EffectStore.readStatement
  rw [← h.find?]
  split
  · exact h.setState
  · split_ifs <;> exact h.setState

theorem SameUnder.commit (h : SameUnder call.request.idempotencyKey s s') (row : EffectRow) :
    SameUnder call.request.idempotencyKey
      { s.setState c call (.applied row) with rows := s.rows ++ [row] }
      { s'.setState c call (.applied row) with rows := s'.rows ++ [row] } := by
  have hmoved : SameUnder call.request.idempotencyKey (s.setState c call (.applied row))
      (s'.setState c call (.applied row)) := h.setState
  refine ⟨?_, hmoved.calls⟩
  rw [List.filter_append, List.filter_append, h.rows]

theorem SameUnder.step {a : StoreAction} {key : String} {t : EffectStore} (h : SameUnder key s s')
    (hsound : Sound s) (hsound' : Sound s') (hkey : s.keyOf a = some key)
    (happly : ∀ request effectId, a ≠ .apply request effectId) (hstep : s.step a = some t) :
    ∃ t', s'.step a = some t' ∧ SameUnder key t t' := by
  cases a with
  | apply request effectId => exact absurd rfl (happly request effectId)
  | insert c _ | commit c | respond c | read c | lose c =>
    obtain ⟨⟨request, effectId, state⟩, hcall, rfl⟩ := Option.map_eq_some_iff.mp hkey
    have hcall' := (h.calls c ⟨request, effectId, state⟩ rfl).mp hcall
    simp only [EffectStore.step, hcall] at hstep
    simp only [EffectStore.step, hcall']
    cases state <;> try cases hstep
    all_goals first
      | exact h.insertStatement hsound hsound' hstep
      | exact ⟨_, rfl, h.commit _⟩
      | exact ⟨_, rfl, h.readStatement⟩
      | exact ⟨_, rfl, h.setState⟩

end
end DurableRunner.Effects
