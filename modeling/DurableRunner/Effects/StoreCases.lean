import DurableRunner.Effects.Store

/-! # What one store action can do -/
namespace DurableRunner.Effects
open Schema

/-- Every store action, with the guard under which it happens. -/
inductive StoreCase (s : EffectStore) : StoreAction → EffectStore → Prop
  | apply {request : EffectRequest} {effectId : String} {state : CallState}
      (hstate : state = .sent ∨ ∃ e, checkRequest request = some e ∧ state = .failed e) :
      StoreCase s (.apply request effectId) (s.addCall ⟨request, effectId, state⟩)
  | unstorable {c : CallId} {call : EffectCall} {now : Timestamp} (hcall : s.calls c = some call)
      (hstate : call.state = .sent) :
      StoreCase s (.insert c now) (s.setState c call (.failed .database))
  | conflict {c : CallId} {call : EffectCall} {now : Timestamp} (hcall : s.calls c = some call)
      (hstate : call.state = .sent) (hholds : s.holdsKey call.request.idempotencyKey = true) :
      StoreCase s (.insert c now) (s.setState c call .conflicted)
  | insert {c : CallId} {call : EffectCall} {now : Timestamp} (hcall : s.calls c = some call)
      (hstate : call.state = .sent) (hstorable : call.request.storable = true)
      (hfree : s.holdsKey call.request.idempotencyKey = false)
      (halone : s.heldByOther c call.request.idempotencyKey = false) :
      StoreCase s (.insert c now)
        (s.setState c call (.inserted (call.request.row call.effectId now)))
  | commit {c : CallId} {call : EffectCall} {row : EffectRow} (hcall : s.calls c = some call)
      (hstate : call.state = .inserted row) :
      StoreCase s (.commit c) { s.setState c call (.applied row) with rows := s.rows ++ [row] }
  | respond {c : CallId} {call : EffectCall} {row : EffectRow} (hcall : s.calls c = some call)
      (hstate : call.state = .applied row) :
      StoreCase s (.respond c) (s.setState c call (.returned ⟨true, row.result, row.createdAt⟩))
  | readNothing {c : CallId} {call : EffectCall} (hcall : s.calls c = some call)
      (hstate : call.state = .conflicted)
      (hfind : s.rows.find? (fun row => row.idempotencyKey = call.request.idempotencyKey) = none) :
      StoreCase s (.read c)
        (s.setState c call (.failed (.effectState call.request.idempotencyKey)))
  | readSame {c : CallId} {call : EffectCall} {row : EffectRow} (hcall : s.calls c = some call)
      (hstate : call.state = .conflicted) (hrow : row ∈ s.rows)
      (hkey : row.idempotencyKey = call.request.idempotencyKey)
      (hmatches : row.matchesRequest call.request = true) :
      StoreCase s (.read c) (s.setState c call (.returned ⟨false, row.result, row.createdAt⟩))
  | readOther {c : CallId} {call : EffectCall} {row : EffectRow} (hcall : s.calls c = some call)
      (hstate : call.state = .conflicted) (hrow : row ∈ s.rows)
      (hkey : row.idempotencyKey = call.request.idempotencyKey)
      (hmatches : row.matchesRequest call.request = false) :
      StoreCase s (.read c)
        (s.setState c call (.failed (.idempotencyConflict call.request.idempotencyKey)))
  | lose {c : CallId} {call : EffectCall} (hcall : s.calls c = some call) :
      StoreCase s (.lose c) (s.setState c call (.failed .database))

theorem store_cases {s s' : EffectStore} {a : StoreAction} (h : s.step a = some s') :
    StoreCase s a s' := by
  cases a with
  | apply request effectId =>
    obtain rfl := Option.some.inj h
    refine .apply ?_
    cases hcheck : checkRequest request with
    | none => exact .inl rfl
    | some e => exact .inr ⟨e, rfl, rfl⟩
  | insert c now =>
    simp only [EffectStore.step] at h
    split at h
    · rename_i request effectId hcall
      unfold EffectStore.insertStatement at h
      split at h
      · obtain rfl := Option.some.inj h
        exact .unstorable hcall rfl
      · rename_i hstorable
        split at h
        · rename_i hholds
          obtain rfl := Option.some.inj h
          exact .conflict hcall rfl hholds
        · rename_i hfree
          split at h
          · cases h
          · rename_i halone
            obtain rfl := Option.some.inj h
            exact .insert hcall rfl (by simpa using hstorable) (Bool.eq_false_iff.mpr hfree)
              (Bool.eq_false_iff.mpr halone)
    · cases h
  | commit c =>
    simp only [EffectStore.step] at h
    split at h
    · rename_i request effectId row hcall
      obtain rfl := Option.some.inj h
      exact .commit hcall rfl
    · cases h
  | respond c =>
    simp only [EffectStore.step] at h
    split at h
    · rename_i request effectId row hcall
      obtain rfl := Option.some.inj h
      exact .respond hcall rfl
    · cases h
  | read c =>
    simp only [EffectStore.step] at h
    split at h
    · rename_i request effectId hcall
      obtain rfl := Option.some.inj h
      unfold EffectStore.readStatement
      split
      · rename_i hfind
        exact .readNothing hcall rfl hfind
      · rename_i row hfind
        have hrow := List.mem_of_find?_eq_some hfind
        have hkey : row.idempotencyKey = request.idempotencyKey := by
          simpa using List.find?_some hfind
        split
        · rename_i hmatches
          exact .readSame hcall rfl hrow hkey hmatches
        · rename_i hmatches
          exact .readOther hcall rfl hrow hkey (Bool.eq_false_iff.mpr hmatches)
    · cases h
  | lose c =>
    simp only [EffectStore.step] at h
    split at h
    · cases h
    · cases h
    · cases h
    · rename_i call _ _ hcall
      obtain rfl := Option.some.inj h
      exact .lose hcall

section Projections
variable (s : EffectStore) (c : CallId) (call : EffectCall) (state : CallState)

@[simp] theorem setState_calls_self :
    (s.setState c call state).calls c = some { call with state } := Function.update_self _ _ _

theorem setState_calls_of_ne {other : CallId} (h : other ≠ c) :
    (s.setState c call state).calls other = s.calls other := Function.update_of_ne h _ _

variable {s c call state}

/-- A call after one call moved on: that one in its new state, or another one as it was. -/
theorem calls_setState {other : CallId} {call' : EffectCall}
    (h : (s.setState c call state).calls other = some call') :
    (other = c ∧ call' = { call with state }) ∨ (other ≠ c ∧ s.calls other = some call') := by
  by_cases hother : other = c
  · subst hother
    rw [setState_calls_self] at h
    exact .inl ⟨rfl, (Option.some.inj h).symm⟩
  · rw [setState_calls_of_ne _ _ _ _ hother] at h
    exact .inr ⟨hother, h⟩

theorem addCall_calls_of_ne {other : CallId} (h : other ≠ s.nextCall) :
    (s.addCall call).calls other = s.calls other := Function.update_of_ne h _ _

@[simp] theorem addCall_calls_self : (s.addCall call).calls s.nextCall = some call :=
  Function.update_self _ _ _

theorem calls_addCall {other : CallId} {call' : EffectCall}
    (h : (s.addCall call).calls other = some call') :
    (other = s.nextCall ∧ call' = call) ∨ (other ≠ s.nextCall ∧ s.calls other = some call') := by
  by_cases hother : other = s.nextCall
  · subst hother
    rw [addCall_calls_self] at h
    exact .inl ⟨rfl, (Option.some.inj h).symm⟩
  · rw [addCall_calls_of_ne hother] at h
    exact .inr ⟨hother, h⟩

end Projections

theorem holdsKey_iff {s : EffectStore} {key : String} :
    s.holdsKey key = true ↔ ∃ row ∈ s.rows, row.idempotencyKey = key := by
  simp [EffectStore.holdsKey]

theorem key_ne_of_alone {s : EffectStore} {c other : CallId} {key : String} {call : EffectCall}
    {row : EffectRow} (h : s.heldByOther c key = false) (hother : other ≠ c)
    (hbound : other < s.nextCall) (hcall : s.calls other = some call)
    (hstate : call.state = .inserted row) : row.idempotencyKey ≠ key := by
  intro hkey
  obtain ⟨request, effectId, state⟩ := call
  obtain rfl : state = _ := hstate
  have hheld : s.heldByOther c key = true := by
    simp only [EffectStore.heldByOther, List.any_eq_true, List.mem_range]
    exact ⟨other, hbound, by simp [hother, hcall, hkey]⟩
  rw [h] at hheld
  cases hheld

end DurableRunner.Effects
