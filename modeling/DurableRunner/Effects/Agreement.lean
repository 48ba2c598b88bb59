import DurableRunner.Effects.StoreCases

/-! # One row per key, and everybody gets it

What holds of the store in every run, and what more holds of the keys under
which every caller sends the same request.
-/
namespace DurableRunner.Effects
open Schema

/-- What a call knows is borne out by the committed rows. -/
def Explained (rows : List EffectRow) (call : EffectCall) : Prop :=
  match call.state with
  | .applied row => row ∈ rows ∧ row.idempotencyKey = call.request.idempotencyKey
  | .conflicted => ∃ row ∈ rows, row.idempotencyKey = call.request.idempotencyKey
  | .returned outcome => ∃ row ∈ rows, row.idempotencyKey = call.request.idempotencyKey ∧
      row.result = outcome.result ∧ row.createdAt = outcome.createdAt
  | .failed error => checkRequest call.request = some error ∨ error = .database ∨
      ∃ key, error = .idempotencyConflict key
  | _ => True

/-- The call has inserted this row and not committed it. -/
def InFlight (s : EffectStore) (c : CallId) (row : EffectRow) : Prop :=
  ∃ call, s.calls c = some call ∧ call.state = .inserted row

/-- The store is a table with a primary key, read by calls that wait for each other. -/
structure Sound (s : EffectStore) : Prop where
  distinct : (s.rows.map EffectRow.idempotencyKey).Nodup
  fresh : ∀ c, s.nextCall ≤ c → s.calls c = none
  minted : ∀ c call row, s.calls c = some call → call.state = .inserted row →
    ∃ now, row = call.request.row call.effectId now
  unpublished : ∀ c row, InFlight s c row → s.holdsKey row.idempotencyKey = false
  exclusive : ∀ c c' row row', InFlight s c row → InFlight s c' row' →
    row.idempotencyKey = row'.idempotencyKey → c = c'
  explained : ∀ c call, s.calls c = some call → Explained s.rows call

theorem Explained.ne_effectState {rows : List EffectRow} {call : EffectCall}
    (h : Explained rows call) (key : String) : call.state ≠ .failed (.effectState key) := by
  intro hstate
  rw [Explained, hstate] at h
  rcases h with hrefused | hlost | ⟨key', hconflict⟩
  · unfold checkRequest at hrefused
    split_ifs at hrefused <;> cases hrefused
  · cases hlost
  · cases hconflict

theorem Explained.mono {rows rows' : List EffectRow} {call : EffectCall}
    (h : Explained rows call) (hsub : ∀ row ∈ rows, row ∈ rows') : Explained rows' call := by
  unfold Explained at h ⊢
  split at h
  · exact ⟨hsub _ h.1, h.2⟩
  · exact h.imp fun row ⟨hrow, hkey⟩ => ⟨hsub row hrow, hkey⟩
  · exact h.imp fun row ⟨hrow, hkey⟩ => ⟨hsub row hrow, hkey⟩
  · exact h
  · trivial

theorem Sound.of_initial {s : EffectStore} (h : s.Initial) : Sound s where
  distinct := h.distinct
  fresh c _ := h.noCalls c
  minted c call row hcall := by simp [h.noCalls c] at hcall
  unpublished c row := by
    rintro ⟨call, hcall, -⟩
    simp [h.noCalls c] at hcall
  exclusive c c' row row' := by
    rintro ⟨call, hcall, -⟩
    simp [h.noCalls c] at hcall
  explained c call hcall := by simp [h.noCalls c] at hcall

/-- An uncommitted row after a call moved on belongs to another call, or is its new one. -/
theorem inFlight_setState {s : EffectStore} {c c' : CallId} {call : EffectCall}
    {state : CallState} {row : EffectRow} (h : InFlight (s.setState c call state) c' row) :
    (c' ≠ c ∧ InFlight s c' row) ∨ (c' = c ∧ state = .inserted row) := by
  obtain ⟨call', hcall', hstate⟩ := h
  rcases calls_setState hcall' with ⟨rfl, rfl⟩ | ⟨hother, hcall'⟩
  · exact .inr ⟨rfl, hstate⟩
  · exact .inl ⟨hother, call', hcall', hstate⟩

theorem Sound.fresh_setState {s : EffectStore} {c : CallId} {call : EffectCall} {state : CallState}
    (h : Sound s) (hcall : s.calls c = some call) (other : CallId) (hother : s.nextCall ≤ other) :
    (s.setState c call state).calls other = none := by
  have hne : other ≠ c := fun e => by
    rw [h.fresh c (e ▸ hother)] at hcall
    cases hcall
  rw [setState_calls_of_ne _ _ _ _ hne]
  exact h.fresh other hother

theorem Sound.setState {s : EffectStore} {c : CallId} {call : EffectCall} {state : CallState}
    (h : Sound s) (hcall : s.calls c = some call) (hstate : ∀ row, state ≠ .inserted row)
    (hexplained : Explained s.rows { call with state }) : Sound (s.setState c call state) where
  distinct := h.distinct
  fresh := h.fresh_setState hcall
  minted other call' row hcall' hinserted := by
    rcases calls_setState hcall' with ⟨rfl, rfl⟩ | ⟨-, hcall'⟩
    · exact absurd hinserted (hstate row)
    · exact h.minted other call' row hcall' hinserted
  unpublished other row hrow := by
    rcases inFlight_setState hrow with ⟨-, hold⟩ | ⟨-, hnew⟩
    · exact h.unpublished other row hold
    · exact absurd hnew (hstate row)
  exclusive other other' row row' hrow hrow' hkey := by
    rcases inFlight_setState hrow with ⟨-, hold⟩ | ⟨-, hnew⟩
    · rcases inFlight_setState hrow' with ⟨-, hold'⟩ | ⟨-, hnew'⟩
      · exact h.exclusive other other' row row' hold hold' hkey
      · exact absurd hnew' (hstate row')
    · exact absurd hnew (hstate row)
  explained other call' hcall' := by
    rcases calls_setState hcall' with ⟨rfl, rfl⟩ | ⟨-, hcall'⟩
    · exact hexplained
    · exact h.explained other call' hcall'

theorem Sound.insert {s : EffectStore} {c : CallId} {call : EffectCall} {now : Timestamp}
    (h : Sound s) (hcall : s.calls c = some call)
    (hfree : s.holdsKey call.request.idempotencyKey = false)
    (halone : s.heldByOther c call.request.idempotencyKey = false) :
    Sound (s.setState c call (.inserted (call.request.row call.effectId now))) := by
  have hapart : ∀ other row, other ≠ c → InFlight s other row →
      row.idempotencyKey ≠ call.request.idempotencyKey := by
    rintro other row hother ⟨call', hcall', hstate⟩
    refine key_ne_of_alone halone hother (not_le.mp fun hge => ?_) hcall' hstate
    rw [h.fresh other hge] at hcall'
    cases hcall'
  refine ⟨h.distinct, h.fresh_setState hcall, fun other call' row hcall' hinserted => ?_,
    fun other row hrow => ?_, fun other other' row row' hrow hrow' hkey => ?_,
    fun other call' hcall' => ?_⟩
  · rcases calls_setState hcall' with ⟨rfl, rfl⟩ | ⟨-, hcall'⟩
    · exact ⟨now, (CallState.inserted.inj hinserted).symm⟩
    · exact h.minted other call' row hcall' hinserted
  · rcases inFlight_setState hrow with ⟨-, hold⟩ | ⟨-, hnew⟩
    · exact h.unpublished other row hold
    · obtain rfl := CallState.inserted.inj hnew
      exact hfree
  · rcases inFlight_setState hrow with ⟨hne, hold⟩ | ⟨rfl, hnew⟩
    · rcases inFlight_setState hrow' with ⟨-, hold'⟩ | ⟨rfl, hnew'⟩
      · exact h.exclusive other other' row row' hold hold' hkey
      · obtain rfl := CallState.inserted.inj hnew'
        exact absurd hkey (hapart other row hne hold)
    · obtain rfl := CallState.inserted.inj hnew
      rcases inFlight_setState hrow' with ⟨hne', hold'⟩ | ⟨rfl, -⟩
      · exact absurd hkey.symm (hapart other' row' hne' hold')
      · rfl
  · rcases calls_setState hcall' with ⟨rfl, rfl⟩ | ⟨-, hcall'⟩
    · trivial
    · exact h.explained other call' hcall'

theorem Sound.commit {s : EffectStore} {c : CallId} {call : EffectCall} {row : EffectRow}
    (h : Sound s) (hcall : s.calls c = some call) (hstate : call.state = .inserted row) :
    Sound { s.setState c call (.applied row) with rows := s.rows ++ [row] } := by
  have hrow : InFlight s c row := ⟨call, hcall, hstate⟩
  have hfree := h.unpublished c row hrow
  have hkey : row.idempotencyKey = call.request.idempotencyKey := by
    obtain ⟨now, rfl⟩ := h.minted c call row hcall hstate
    rfl
  have hothers : ∀ c' row', InFlight { s.setState c call (.applied row) with rows := s.rows ++ [row] }
      c' row' → c' ≠ c ∧ InFlight s c' row' := by
    intro c' row' hrow'
    rcases inFlight_setState hrow' with hold | ⟨-, hnew⟩
    · exact hold
    · cases hnew
  refine ⟨?_, h.fresh_setState hcall, fun other call' row' hcall' hinserted => ?_,
    fun other row' hrow' => ?_, fun other other' row₁ row₂ hrow₁ hrow₂ => ?_,
    fun other call' hcall' => ?_⟩
  · rw [List.map_append, List.map_singleton]
    refine List.Nodup.append h.distinct (List.nodup_singleton _) ?_
    rw [List.disjoint_singleton]
    intro hmem
    obtain ⟨row', hrow', hsame⟩ := List.mem_map.mp hmem
    rw [holdsKey_iff.mpr ⟨row', hrow', hsame⟩] at hfree
    cases hfree
  · rcases calls_setState hcall' with ⟨rfl, rfl⟩ | ⟨-, hcall'⟩
    · cases hinserted
    · exact h.minted other call' row' hcall' hinserted
  · obtain ⟨hne, hold⟩ := hothers other row' hrow'
    refine Bool.eq_false_iff.mpr fun hholds => ?_
    obtain ⟨row'', hrow'', hsame⟩ := holdsKey_iff.mp hholds
    rcases List.mem_append.mp hrow'' with hpublished | hlast
    · have hunpublished := h.unpublished other row' hold
      rw [holdsKey_iff.mpr ⟨row'', hpublished, hsame⟩] at hunpublished
      cases hunpublished
    · obtain rfl := List.mem_singleton.mp hlast
      exact hne (h.exclusive other c row' row'' hold hrow hsame.symm)
  · exact h.exclusive other other' row₁ row₂ (hothers other row₁ hrow₁).2 (hothers other' row₂ hrow₂).2
  · rcases calls_setState hcall' with ⟨rfl, rfl⟩ | ⟨-, hcall'⟩
    · exact ⟨List.mem_append_right _ (List.mem_singleton_self _), hkey⟩
    · exact (h.explained other call' hcall').mono fun row' hrow' => List.mem_append_left _ hrow'

theorem Sound.apply {s : EffectStore} {request : EffectRequest} {effectId : String}
    {state : CallState} (h : Sound s)
    (hstate : state = .sent ∨ ∃ e, checkRequest request = some e ∧ state = .failed e) :
    Sound (s.addCall ⟨request, effectId, state⟩) := by
  have hinserted : ∀ row, state ≠ .inserted row := by
    rcases hstate with rfl | ⟨e, -, rfl⟩ <;> exact nofun
  have hexplained : Explained s.rows ⟨request, effectId, state⟩ := by
    rcases hstate with rfl | ⟨e, he, rfl⟩
    · trivial
    · exact .inl he
  have hflight : ∀ other row, InFlight (s.addCall ⟨request, effectId, state⟩) other row →
      InFlight s other row := by
    rintro other row ⟨call', hcall', hrow⟩
    rcases calls_addCall hcall' with ⟨-, rfl⟩ | ⟨-, hold⟩
    · exact absurd hrow (hinserted row)
    · exact ⟨call', hold, hrow⟩
  refine ⟨h.distinct, fun other hother => ?_, fun other call' row hcall' hrow => ?_,
    fun other row hrow => h.unpublished other row (hflight other row hrow),
    fun other other' row row' hrow hrow' =>
      h.exclusive other other' row row' (hflight other row hrow) (hflight other' row' hrow'),
    fun other call' hcall' => ?_⟩
  · have hlt : s.nextCall < other := hother
    rw [addCall_calls_of_ne hlt.ne']
    exact h.fresh other hlt.le
  · rcases calls_addCall hcall' with ⟨-, rfl⟩ | ⟨-, hold⟩
    · exact absurd hrow (hinserted row)
    · exact h.minted other call' row hold hrow
  · rcases calls_addCall hcall' with ⟨-, rfl⟩ | ⟨-, hold⟩
    · exact hexplained
    · exact h.explained other call' hold

theorem Sound.step {s s' : EffectStore} {a : StoreAction} (h : Sound s) (hstep : s.step a = some s') :
    Sound s' := by
  cases store_cases hstep with
  | apply hstate => exact h.apply hstate
  | unstorable hcall hstate => exact h.setState hcall nofun (.inr (.inl rfl))
  | conflict hcall hstate hholds => exact h.setState hcall nofun (holdsKey_iff.mp hholds)
  | insert hcall hstate hstorable hfree halone => exact h.insert hcall hfree halone
  | commit hcall hstate => exact h.commit hcall hstate
  | respond hcall hstate =>
    have hexplained := h.explained _ _ hcall
    simp only [Explained, hstate] at hexplained
    exact h.setState hcall nofun ⟨_, hexplained.1, hexplained.2, rfl, rfl⟩
  | @readNothing c call hcall hstate hfind =>
    have hexplained := h.explained _ _ hcall
    simp only [Explained, hstate] at hexplained
    obtain ⟨row, hrow, hkey⟩ := hexplained
    exact absurd hkey (by simpa using List.find?_eq_none.mp hfind row hrow)
  | readSame hcall hstate hrow hkey hmatches =>
    exact h.setState hcall nofun ⟨_, hrow, hkey, rfl, rfl⟩
  | readOther hcall hstate hrow hkey hmatches => exact h.setState hcall nofun (.inr (.inr ⟨_, rfl⟩))
  | lose hcall => exact h.setState hcall nofun (.inr (.inl rfl))

/-- Committed rows stay, in order and as they are. -/
theorem rows_prefix_of_step {s s' : EffectStore} {a : StoreAction} (h : s.step a = some s') :
    s.rows <+: s'.rows := by
  cases store_cases h with
  | commit hcall hstate => exact List.prefix_append _ _
  | _ => exact List.prefix_rfl

/-- Every request under a key that `intended` assigns is the assigned one. -/
structure Agreed (intended : String → Option EffectRequest) (s : EffectStore) : Prop where
  calls : ∀ c call r, s.calls c = some call → intended call.request.idempotencyKey = some r →
    call.request = r
  rows : ∀ row ∈ s.rows, ∀ r, intended row.idempotencyKey = some r → row.matchesRequest r = true
  noConflict : ∀ c call key, s.calls c = some call →
    call.state = .failed (.idempotencyConflict key) → intended call.request.idempotencyKey = none

theorem Agreed.setState {intended : String → Option EffectRequest} {s : EffectStore} {c : CallId}
    {call : EffectCall} {state : CallState} (h : Agreed intended s) (hcall : s.calls c = some call)
    (hstate : ∀ key, state = .failed (.idempotencyConflict key) →
      intended call.request.idempotencyKey = none) : Agreed intended (s.setState c call state) where
  calls other call' r hcall' hr := by
    rcases calls_setState hcall' with ⟨rfl, rfl⟩ | ⟨-, hcall'⟩
    · exact h.calls other call r hcall hr
    · exact h.calls other call' r hcall' hr
  rows := h.rows
  noConflict other call' key hcall' hfailed := by
    rcases calls_setState hcall' with ⟨rfl, rfl⟩ | ⟨-, hcall'⟩
    · exact hstate key hfailed
    · exact h.noConflict other call' key hcall' hfailed

theorem matchesRequest_row (r : EffectRequest) (effectId : String) (now : Timestamp) :
    (r.row effectId now).matchesRequest r = true := by
  simp [EffectRow.matchesRequest, EffectRequest.row]

theorem checkRequest_ne_conflict {r : EffectRequest} {key : String} :
    checkRequest r ≠ some (.idempotencyConflict key) := by
  unfold checkRequest
  split_ifs <;> simp

/-- Callers that keep to the assigned requests never conflict. -/
theorem Agreed.step {intended : String → Option EffectRequest} {s s' : EffectStore}
    {a : StoreAction} (h : Agreed intended s) (hsound : Sound s) (hstep : s.step a = some s')
    (hintended : ∀ request effectId, a = .apply request effectId →
      ∀ r, intended request.idempotencyKey = some r → request = r) : Agreed intended s' := by
  cases store_cases hstep with
  | @apply request effectId state hstate =>
    refine ⟨fun other call' r hcall' hr => ?_, h.rows, fun other call' key hcall' hfailed => ?_⟩
    · rcases calls_addCall hcall' with ⟨-, rfl⟩ | ⟨-, hold⟩
      · exact hintended request effectId rfl r hr
      · exact h.calls other call' r hold hr
    · rcases calls_addCall hcall' with ⟨-, rfl⟩ | ⟨-, hold⟩
      · rcases hstate with rfl | ⟨e, he, rfl⟩
        · cases hfailed
        · obtain rfl := CallState.failed.inj hfailed
          exact absurd he checkRequest_ne_conflict
      · exact h.noConflict other call' key hold hfailed
  | unstorable hcall hstate => exact h.setState hcall nofun
  | conflict hcall hstate hholds => exact h.setState hcall nofun
  | insert hcall hstate hstorable hfree halone => exact h.setState hcall nofun
  | @commit c call row hcall hstate =>
    have hmoved : Agreed intended (s.setState c call (.applied row)) := h.setState hcall nofun
    refine ⟨hmoved.calls, fun row' hrow' r hr => ?_, hmoved.noConflict⟩
    rcases List.mem_append.mp hrow' with hold | hnew
    · exact h.rows row' hold r hr
    · obtain rfl := List.mem_singleton.mp hnew
      obtain ⟨now, rfl⟩ := hsound.minted c call row' hcall hstate
      obtain rfl := h.calls c call r hcall hr
      exact matchesRequest_row _ _ _
  | respond hcall hstate => exact h.setState hcall nofun
  | readNothing hcall hstate hfind => exact h.setState hcall nofun
  | readSame hcall hstate hrow hkey hmatches => exact h.setState hcall nofun
  | @readOther c call row hcall hstate hrow hkey hmatches =>
    refine h.setState hcall fun key _ => ?_
    cases hassigned : intended call.request.idempotencyKey with
    | none => rfl
    | some r =>
      have hsame := h.calls c call r hcall hassigned
      have hstored := h.rows row hrow r (hkey ▸ hassigned)
      rw [hsame, hstored] at hmatches
      cases hmatches
  | lose hcall => exact h.setState hcall nofun

end DurableRunner.Effects
