import DurableRunner.Effects.Agreement
import DurableRunner.Schema.JsonValues
import DurableRunner.TransitionSystem.Runs

/-! # What every caller is told

The answer of each call, against the committed rows and against the calls whose
insert has committed so far.
-/
namespace DurableRunner.Effects
open Schema TransitionSystem

def StoreAction.call? : StoreAction → Option CallId
  | .apply _ _ => none
  | .insert c _ | .commit c | .respond c | .read c | .lose c => some c

def committedCalls (as : List StoreAction) : Set CallId := { c | .commit c ∈ as }

def EffectCall.Mints (call : EffectCall) (row : EffectRow) : Prop :=
  ∃ now, row = call.request.row call.effectId now

/-- The stored row stands for this request. -/
def EffectRow.StandsFor (row : EffectRow) (r : EffectRequest) : Prop :=
  row.effectType = r.effectType ∧ row.request.Same r.request

theorem matchesRequest_iff {row : EffectRow} {r : EffectRequest} :
    row.matchesRequest r = true ↔ row.StandsFor r := by
  rw [EffectRow.matchesRequest, Bool.and_eq_true, decide_eq_true_eq, decide_eq_true_eq,
    EffectRow.StandsFor, ← Json.jsonb_eq_iff, row.request_stored]

section
variable {call : EffectCall} {row : EffectRow}

theorem EffectCall.Mints.key (h : call.Mints row) :
    row.idempotencyKey = call.request.idempotencyKey := by
  obtain ⟨now, rfl⟩ := h
  rfl

theorem EffectCall.Mints.standsFor (h : call.Mints row) : row.StandsFor call.request := by
  obtain ⟨now, rfl⟩ := h
  exact matchesRequest_iff.mp (matchesRequest_row _ _ _)

/-- The stored result carries the identifier that its call minted. -/
theorem EffectCall.Mints.effectId (h : call.Mints row) :
    row.result.get? "effectId" = some (.str call.effectId) := by
  obtain ⟨now, rfl⟩ := h
  have hbefore : Json.keyBefore "effectId" "value" = false := by decide
  simp only [EffectRequest.row, candidate]
  generalize call.request.request.get? "value" = value
  cases value <;>
    simp [Json.jsonb, Json.jsonbMembers, Json.insertMember, Json.get?, hbefore]

end

/-- The state of a call, given which calls have committed. -/
def Answered (committed : Set CallId) (rows : List EffectRow) (c : CallId) (call : EffectCall) :
    Prop :=
  match call.state with
  | .applied row => c ∈ committed ∧ row ∈ rows ∧ call.Mints row
  | .returned outcome => (outcome.applied = true ↔ c ∈ committed) ∧
      ∃ row ∈ rows, row.idempotencyKey = call.request.idempotencyKey ∧
        row.StandsFor call.request ∧ outcome.result = row.result ∧ outcome.createdAt = row.createdAt
  | .failed (.idempotencyConflict key) => c ∉ committed ∧ key = call.request.idempotencyKey ∧
      ∃ row ∈ rows, row.idempotencyKey = key ∧ ¬row.StandsFor call.request
  | .failed e => c ∈ committed → e = .database
  | _ => c ∉ committed

theorem answered_failed {committed : Set CallId} {rows : List EffectRow} {c : CallId}
    {request : EffectRequest} {effectId : String} {e : EffectError}
    (hconflict : ∀ key, e ≠ .idempotencyConflict key) (h : c ∈ committed → e = .database) :
    Answered committed rows c ⟨request, effectId, .failed e⟩ := by
  cases e with
  | idempotencyConflict key => exact absurd rfl (hconflict key)
  | _ => exact h

/-- Every committed row was there or belongs to one committed call. -/
structure Recorded (s₀ : EffectStore) (committed : Set CallId) (s : EffectStore) : Prop where
  sound : Sound s
  kept : s₀.rows <+: s.rows
  minted : ∀ row ∈ s.rows, row ∈ s₀.rows ∨
    ∃ c ∈ committed, ∃ call, s.calls c = some call ∧ call.Mints row
  stored : ∀ c ∈ committed, ∃ call row, s.calls c = some call ∧ row ∈ s.rows ∧ row ∉ s₀.rows ∧
    call.Mints row
  once : ∀ c ∈ committed, ∀ c' ∈ committed, ∀ call call', s.calls c = some call →
    s.calls c' = some call' → call.request.idempotencyKey = call'.request.idempotencyKey → c = c'
  answered : ∀ c call, s.calls c = some call → Answered committed s.rows c call

theorem Recorded.of_initial {s : EffectStore} (h : s.Initial) : Recorded s ∅ s where
  sound := .of_initial h
  kept := List.prefix_rfl
  minted row hrow := .inl hrow
  stored c hc := absurd hc (Set.notMem_empty c)
  once c hc := absurd hc (Set.notMem_empty c)
  answered c call hcall := by simp [h.noCalls c] at hcall

theorem Answered.mono {committed committed' : Set CallId} {rows rows' : List EffectRow}
    {c : CallId} {call : EffectCall} (h : Answered committed rows c call)
    (hsub : ∀ row ∈ rows, row ∈ rows') (hsame : c ∈ committed ↔ c ∈ committed') :
    Answered committed' rows' c call := by
  unfold Answered at h ⊢
  rw [← hsame]
  split at h
  · exact ⟨h.1, hsub _ h.2.1, h.2.2⟩
  · exact ⟨h.1, h.2.imp fun row ⟨hrow, hrest⟩ => ⟨hsub row hrow, hrest⟩⟩
  · exact ⟨h.1, h.2.1, h.2.2.imp fun row ⟨hrow, hrest⟩ => ⟨hsub row hrow, hrest⟩⟩
  · exact h
  · exact h

section
variable {s₀ s s' : EffectStore} {committed : Set CallId} {c : CallId} {call : EffectCall}

theorem Recorded.setState {state : CallState} (h : Recorded s₀ committed s)
    (hcall : s.calls c = some call) (hsound : Sound (s.setState c call state))
    (hanswered : Answered committed s.rows c { call with state }) :
    Recorded s₀ committed (s.setState c call state) := by
  have hold : ∀ {other call'}, (s.setState c call state).calls other = some call' →
      ∃ call'', s.calls other = some call'' ∧ call'.request = call''.request := by
    intro other call' hcall'
    rcases calls_setState hcall' with ⟨rfl, rfl⟩ | ⟨-, hcall'⟩
    · exact ⟨call, hcall, rfl⟩
    · exact ⟨call', hcall', rfl⟩
  have hnew : ∀ {other call'}, s.calls other = some call' →
      ∃ call'', (s.setState c call state).calls other = some call'' ∧
        ∀ row, call'.Mints row → call''.Mints row := by
    intro other call' hcall'
    by_cases hother : other = c
    · subst hother
      rw [hcall] at hcall'
      obtain rfl := Option.some.inj hcall'
      exact ⟨_, setState_calls_self _ _ _ _, fun row hrow => hrow⟩
    · exact ⟨call', (setState_calls_of_ne _ _ _ _ hother).trans hcall', fun row hrow => hrow⟩
  refine ⟨hsound, h.kept, fun row hrow => (h.minted row hrow).imp_right ?_, fun other hother => ?_,
    fun other hother other' hother' call₁ call₂ hcall₁ hcall₂ hkey => ?_,
    fun other call' hcall' => ?_⟩
  · rintro ⟨other, hother, call', hcall', hmints⟩
    obtain ⟨call'', hcall'', hsame⟩ := hnew hcall'
    exact ⟨other, hother, call'', hcall'', hsame row hmints⟩
  · obtain ⟨call', row, hcall', hrow, hadded, hmints⟩ := h.stored other hother
    obtain ⟨call'', hcall'', hsame⟩ := hnew hcall'
    exact ⟨call'', row, hcall'', hrow, hadded, hsame row hmints⟩
  · obtain ⟨call₁', hcall₁', hsame₁⟩ := hold hcall₁
    obtain ⟨call₂', hcall₂', hsame₂⟩ := hold hcall₂
    exact h.once other hother other' hother' call₁' call₂' hcall₁' hcall₂' (hsame₁ ▸ hsame₂ ▸ hkey)
  · rcases calls_setState hcall' with ⟨rfl, rfl⟩ | ⟨-, hcall'⟩
    · exact hanswered
    · exact h.answered other call' hcall'

theorem Recorded.apply {request : EffectRequest} {effectId : String} {state : CallState}
    (h : Recorded s₀ committed s)
    (hstate : state = .sent ∨ ∃ e, checkRequest request = some e ∧ state = .failed e) :
    Recorded s₀ committed (s.addCall ⟨request, effectId, state⟩) := by
  have hfresh : s.nextCall ∉ committed := fun hmem => by
    obtain ⟨call, -, hcall, -⟩ := h.stored s.nextCall hmem
    rw [h.sound.fresh _ le_rfl] at hcall
    cases hcall
  have hne : ∀ {c call}, s.calls c = some call → c ≠ s.nextCall := by
    rintro c call hcall rfl
    rw [h.sound.fresh _ le_rfl] at hcall
    cases hcall
  have hold : ∀ {c call}, c ∈ committed → (s.addCall ⟨request, effectId, state⟩).calls c = some call →
      s.calls c = some call := by
    intro c call hmem hcall
    rcases calls_addCall hcall with ⟨rfl, -⟩ | ⟨-, hcall⟩
    · exact absurd hmem hfresh
    · exact hcall
  refine ⟨h.sound.apply hstate, h.kept, fun row hrow => (h.minted row hrow).imp_right ?_,
    fun c hc => ?_, fun c hc c' hc' call call' hcall hcall' hkey =>
      h.once c hc c' hc' call call' (hold hc hcall) (hold hc' hcall') hkey, fun c call hcall => ?_⟩
  · rintro ⟨c, hc, call, hcall, hmints⟩
    exact ⟨c, hc, call, (addCall_calls_of_ne (hne hcall)).trans hcall, hmints⟩
  · obtain ⟨call, row, hcall, hrest⟩ := h.stored c hc
    exact ⟨call, row, (addCall_calls_of_ne (hne hcall)).trans hcall, hrest⟩
  · rcases calls_addCall hcall with ⟨rfl, rfl⟩ | ⟨-, hcall⟩
    · rcases hstate with rfl | ⟨e, he, rfl⟩
      · exact hfresh
      · exact answered_failed (fun key hkey => checkRequest_ne_conflict (hkey ▸ he))
          fun hmem => absurd hmem hfresh
    · exact h.answered c call hcall

theorem Recorded.commit {row : EffectRow} (h : Recorded s₀ committed s)
    (hcall : s.calls c = some call) (hstate : call.state = .inserted row) :
    Recorded s₀ (insert c committed)
      { s.setState c call (.applied row) with rows := s.rows ++ [row] } := by
  have hmints : call.Mints row := h.sound.minted c call row hcall hstate
  have hfree := h.sound.unpublished c row ⟨call, hcall, hstate⟩
  have hc : c ∉ committed := by
    have hanswered := h.answered c call hcall
    rwa [Answered, hstate] at hanswered
  have hother : ∀ {other}, other ∈ committed → other ≠ c := fun hmem e => hc (e ▸ hmem)
  have hmoved : ∀ {other call'}, other ∈ committed → s.calls other = some call' →
      (s.setState c call (.applied row)).calls other = some call' := fun hmem hcall' =>
    (setState_calls_of_ne _ _ _ _ (hother hmem)).trans hcall'
  -- An earlier commit under the same key would have kept this insert from its row.
  have hapart : ∀ other ∈ committed, ∀ call',
      (s.setState c call (.applied row)).calls other = some call' →
        call'.request.idempotencyKey ≠ call.request.idempotencyKey := by
    intro other hmem call' hcall' hkey
    obtain ⟨call'', row', hcall'', hrow', -, hmints'⟩ := h.stored other hmem
    rw [hmoved hmem hcall''] at hcall'
    obtain rfl := Option.some.inj hcall'
    rw [holdsKey_iff.mpr ⟨row', hrow', hmints'.key.trans (hkey.trans hmints.key.symm)⟩] at hfree
    cases hfree
  have hself : ∀ {call'}, (s.setState c call (.applied row)).calls c = some call' →
      call'.request = call.request := by
    intro call' hcall'
    rw [setState_calls_self] at hcall'
    obtain rfl := Option.some.inj hcall'
    rfl
  refine ⟨h.sound.commit hcall hstate, h.kept.trans (List.prefix_append _ _), fun row' hrow' => ?_,
    fun other hmem => ?_, fun other hmem other' hmem' call₁ call₂ hcall₁ hcall₂ hkey => ?_,
    fun other call' hcall' => ?_⟩
  · rcases List.mem_append.mp hrow' with hrow' | hlast
    · refine (h.minted row' hrow').imp_right ?_
      rintro ⟨other, hmem, call', hcall', hmints'⟩
      exact ⟨other, .inr hmem, call', hmoved hmem hcall', hmints'⟩
    · obtain rfl := List.mem_singleton.mp hlast
      exact .inr ⟨c, .inl rfl, _, setState_calls_self _ _ _ _, hmints⟩
  · rcases hmem with rfl | hmem
    · refine ⟨_, row, setState_calls_self _ _ _ _, List.mem_append_right _ List.mem_cons_self,
        fun hrow => ?_, hmints⟩
      rw [holdsKey_iff.mpr ⟨row, h.kept.subset hrow, rfl⟩] at hfree
      cases hfree
    · obtain ⟨call', row', hcall', hrow', hrest⟩ := h.stored other hmem
      exact ⟨call', row', hmoved hmem hcall', List.mem_append_left _ hrow', hrest⟩
  · rcases hmem with rfl | hmem
    · rcases hmem' with rfl | hmem'
      · rfl
      · rw [hself hcall₁] at hkey
        exact absurd hkey.symm (hapart other' hmem' call₂ hcall₂)
    · rcases hmem' with rfl | hmem'
      · rw [hself hcall₂] at hkey
        exact absurd hkey (hapart other hmem call₁ hcall₁)
      · obtain ⟨call₁', -, hcall₁', -⟩ := h.stored other hmem
        obtain ⟨call₂', -, hcall₂', -⟩ := h.stored other' hmem'
        obtain rfl := Option.some.inj (hcall₁.symm.trans (hmoved hmem hcall₁'))
        obtain rfl := Option.some.inj (hcall₂.symm.trans (hmoved hmem' hcall₂'))
        exact h.once other hmem other' hmem' call₁ call₂ hcall₁' hcall₂' hkey
  · rcases calls_setState hcall' with ⟨rfl, rfl⟩ | ⟨hne, hcall'⟩
    · exact ⟨.inl rfl, List.mem_append_right _ List.mem_cons_self, hmints⟩
    · exact (h.answered other call' hcall').mono (fun _ => List.mem_append_left _)
        (Set.mem_insert_iff.trans (or_iff_right hne)).symm

/-- What the store records of the calls is kept by every step. -/
theorem Recorded.step {a : StoreAction} (h : Recorded s₀ committed s) (hstep : s.step a = some s') :
    Recorded s₀ (committed ∪ { c | a = .commit c }) s' := by
  have hsound := h.sound.step hstep
  have hnone : (∀ c, a ≠ .commit c) → committed ∪ { c | a = .commit c } = committed := by
    intro hne
    rw [Set.union_eq_left]
    exact fun c hc => absurd hc (hne c)
  cases store_cases hstep with
  | apply hstate =>
    rw [hnone nofun]
    exact h.apply hstate
  | unstorable hcall hstate | lose hcall =>
    rw [hnone nofun]
    exact h.setState hcall hsound fun _ => rfl
  | conflict hcall hstate hholds | insert hcall hstate hstorable hfree halone =>
    have hanswered := h.answered _ _ hcall
    rw [Answered, hstate] at hanswered
    rw [hnone nofun]
    exact h.setState hcall hsound hanswered
  | @commit c call row hcall hstate =>
    have hset : { c' | StoreAction.commit c = .commit c' } = {c} := by
      ext c'
      simp [eq_comm]
    rw [hset, Set.union_singleton]
    exact h.commit hcall hstate
  | @respond c call row hcall hstate =>
    have hanswered := h.answered _ _ hcall
    rw [Answered, hstate] at hanswered
    obtain ⟨hmem, hrow, hmints⟩ := hanswered
    rw [hnone nofun]
    exact h.setState hcall hsound
      ⟨iff_of_true rfl hmem, row, hrow, hmints.key, hmints.standsFor, rfl, rfl⟩
  | @readNothing c call hcall hstate hfind =>
    have hexplained := h.sound.explained c call hcall
    rw [Explained, hstate] at hexplained
    obtain ⟨row, hrow, hkey⟩ := hexplained
    exact absurd hkey (by simpa using List.find?_eq_none.mp hfind row hrow)
  | @readSame c call row hcall hstate hrow hkey hmatches =>
    have hanswered := h.answered _ _ hcall
    rw [Answered, hstate] at hanswered
    rw [hnone (by simp)]
    exact h.setState hcall hsound ⟨iff_of_false Bool.false_ne_true hanswered, row, hrow, hkey,
      matchesRequest_iff.mp hmatches, rfl, rfl⟩
  | @readOther c call row hcall hstate hrow hkey hmatches =>
    have hanswered := h.answered _ _ hcall
    rw [Answered, hstate] at hanswered
    rw [hnone (by simp)]
    refine h.setState hcall hsound ⟨hanswered, rfl, row, hrow, hkey, fun hstands => ?_⟩
    rw [matchesRequest_iff.mpr hstands] at hmatches
    cases hmatches

theorem Recorded.of_run {as : List StoreAction} (h₀ : s₀.Initial)
    (hrun : run EffectStore.step s₀ as = some s) : Recorded s₀ (committedCalls as) s := by
  induction as using List.reverseRecOn generalizing s with
  | nil =>
    obtain rfl := Option.some.inj hrun
    have hnone : committedCalls [] = ∅ := Set.eq_empty_of_forall_notMem fun c hc => by cases hc
    rw [hnone]
    exact .of_initial h₀
  | append_singleton as a ih =>
    obtain ⟨m, hm, hstep⟩ := (run_concat_eq_some _).mp hrun
    have hsplit : committedCalls (as ++ [a]) = committedCalls as ∪ { c | a = .commit c } := by
      ext c
      simp [committedCalls, eq_comm]
    rw [hsplit]
    exact (ih hm).step hstep

end
end DurableRunner.Effects
