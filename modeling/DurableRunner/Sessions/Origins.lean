import DurableRunner.Sessions.Serial

/-! # Where a row's contents come from

The columns no operation writes, and the completion behind every result.
-/
namespace DurableRunner.Sessions
open Schema Operations

/-- The columns that describe the task. -/
structure SameTask (r r₀ : StepRow) : Prop where
  id : r.id = r₀.id
  taskType : r.taskType = r₀.taskType
  payload : r.payload = r₀.payload
  priority : r.priority = r₀.priority
  maxAttempts : r.maxAttempts = r₀.maxAttempts
  createdAt : r.createdAt = r₀.createdAt

theorem SameTask.refl (r : StepRow) : SameTask r r := ⟨rfl, rfl, rfl, rfl, rfl, rfl⟩

theorem SameTask.trans {r r' r'' : StepRow} (h : SameTask r r') (h' : SameTask r' r'') :
    SameTask r r'' where
  id := h.id.trans h'.id
  taskType := h.taskType.trans h'.taskType
  payload := h.payload.trans h'.payload
  priority := h.priority.trans h'.priority
  maxAttempts := h.maxAttempts.trans h'.maxAttempts
  createdAt := h.createdAt.trans h'.createdAt

theorem sameTask_of_transition {call : Call} {start instant checkedAt : Timestamp} {r r' : StepRow}
    (h : Transition start instant checkedAt r r' call) : SameTask r' r := by
  have hcols : ∃ c : StepColumns, r'.toStepColumns = c ∧ c.id = r.id ∧ c.taskType = r.taskType ∧
      c.payload = r.payload ∧ c.priority = r.priority ∧ c.maxAttempts = r.maxAttempts ∧
      c.createdAt = r.createdAt := by
    cases h with
    | claim _ _ _ _ _ hcols | renew _ hcols | complete _ hcols | fail _ hcols
    | recover _ _ _ hcols | promote _ _ hcols => exact ⟨_, hcols, rfl, rfl, rfl, rfl, rfl, rfl⟩
  obtain ⟨c, rfl, hid, htask, hpayload, hpriority, hmax, hcreated⟩ := hcols
  exact ⟨hid, htask, hpayload, hpriority, hmax, hcreated⟩

/-- Every committed change is a transition of its call. -/
theorem Serial.transition {steps₀ steps : StepsTable} {events₀ events : List EventRow}
    {history : List Commit} (h : Serial steps₀ events₀ history steps events) {c : Commit}
    (hc : c ∈ history) {ch : Change} (hch : ch ∈ c.decision.changes) :
    Transition c.start c.decision.instant ch.checkedAt ch.before ch.after c.call := by
  obtain ⟨⟨before, hperforms⟩, -⟩ := h.performs c hc
  exact hperforms.transition hch

/-- What the inserted rows have and no committed change loses, all rows have, also inside the
committed changes. -/
theorem Serial.preserved {steps₀ steps : StepsTable} {events₀ events : List EventRow}
    {history : List Commit} (h : Serial steps₀ events₀ history steps events) {P : StepRow → Prop}
    (hstart : ∀ id r, steps₀.find? id = some r → P r)
    (hchange : ∀ c ∈ history, ∀ ch ∈ c.decision.changes, P ch.before → P ch.after) :
    (∀ id r, steps.find? id = some r → P r) ∧
      ∀ c ∈ history, ∀ ch ∈ c.decision.changes, P ch.before ∧ P ch.after := by
  induction h with
  | nil => exact ⟨hstart, by simp⟩
  | @snoc history steps events c serial performs written ih =>
    obtain ⟨hrows, hpast⟩ := ih fun c' hc' => hchange c' (List.mem_append_left _ hc')
    have hlast : ∀ ch ∈ c.decision.changes, P ch.before ∧ P ch.after := by
      intro ch hch
      have hbefore := hrows _ _ (performs.current ch hch)
      exact ⟨hbefore, hchange c (List.mem_append_right _ (List.mem_singleton_self c)) ch hch hbefore⟩
    refine ⟨fun id r hr => ?_, fun c' hc' => ?_⟩
    · rcases performs.find? id with ⟨hfind, -⟩ | ⟨ch, hch, -, hafter, -⟩
      · exact hrows id r (hfind ▸ hr)
      · obtain rfl := Option.some.inj (hafter.symm.trans hr)
        exact (hlast ch hch).2
    · rcases List.mem_append.mp hc' with hc' | hc'
      · exact hpast c' hc'
      · obtain rfl := List.mem_singleton.mp hc'
        exact hlast

theorem Serial.sameTask {steps₀ steps : StepsTable} {events₀ events : List EventRow}
    {history : List Commit} (h : Serial steps₀ events₀ history steps events) :
    (∀ id r, steps.find? id = some r → ∃ r₀, steps₀.find? id = some r₀ ∧ SameTask r r₀) ∧
      ∀ c ∈ history, ∀ ch ∈ c.decision.changes,
        ∃ r₀, steps₀.find? ch.before.id = some r₀ ∧ SameTask ch.after r₀ := by
  have htask : ∀ c ∈ history, ∀ ch ∈ c.decision.changes, SameTask ch.after ch.before :=
    fun c hc ch hch => sameTask_of_transition (h.transition hc hch)
  obtain ⟨hrows, hpast⟩ := h.preserved
    (P := fun r => ∃ r₀, steps₀.find? r.id = some r₀ ∧ SameTask r r₀)
    (fun id r hr => ⟨r, (id_of_find? hr).symm ▸ hr, .refl r⟩)
    (fun c hc ch hch ⟨r₀, hr₀, hsame⟩ =>
      ⟨r₀, (htask c hc ch hch).id ▸ hr₀, (htask c hc ch hch).trans hsame⟩)
  refine ⟨fun id r hr => ?_, fun c hc ch hch => ?_⟩
  · obtain ⟨r₀, hr₀, hsame⟩ := hrows id r hr
    exact ⟨r₀, id_of_find? hr ▸ hr₀, hsame⟩
  · obtain ⟨r₀, hr₀, hsame⟩ := (hpast c hc ch hch).1
    exact ⟨r₀, hr₀, (htask c hc ch hch).trans hsame⟩

theorem result_of_transition {call : Call} {start instant checkedAt : Timestamp} {r r' : StepRow}
    (h : Transition start instant checkedAt r r' call) (hsucceeded : r'.status = .succeeded) :
    ∃ cred result, call = .completeStepSuccess cred result ∧ cred.id = r.id ∧
      r'.result = some result.jsonb := by
  cases h with
  | @complete cred result hlive hcols =>
    exact ⟨cred, result, rfl, (holdsLiveLease_iff.mp hlive).1.symm, by rw [hcols]⟩
  | claim _ _ _ _ _ hcols =>
    rw [hcols] at hsucceeded
    cases hsucceeded
  | renew hlive hcols =>
    rw [hcols] at hsucceeded
    rw [(holdsLiveLease_iff.mp hlive).2.1] at hsucceeded
    cases hsucceeded
  | fail _ hcols =>
    rw [hcols] at hsucceeded
    dsimp only at hsucceeded
    split at hsucceeded <;> cases hsucceeded
  | recover _ _ _ hcols =>
    rw [hcols] at hsucceeded
    dsimp only at hsucceeded
    split at hsucceeded <;> cases hsucceeded
  | promote _ _ hcols =>
    rw [hcols] at hsucceeded
    cases hsucceeded

/-- Behind every succeeded row stands a committed completion, unless it started so. -/
theorem Serial.completion {steps₀ steps : StepsTable} {events₀ events : List EventRow}
    {history : List Commit} (h : Serial steps₀ events₀ history steps events) {id : StepId}
    {r : StepRow} (hr : steps.find? id = some r) (hsucceeded : r.status = .succeeded) :
    steps₀.find? id = some r ∨ ∃ c ∈ history, ∃ cred result,
      c.call = .completeStepSuccess cred result ∧ cred.id = id ∧ r.result = some result.jsonb := by
  obtain ⟨hrows, -⟩ := h.preserved
    (P := fun r => r.status = .succeeded → steps₀.find? r.id = some r ∨ ∃ c ∈ history, ∃ cred result,
      c.call = .completeStepSuccess cred result ∧ cred.id = r.id ∧ r.result = some result.jsonb)
    (fun id r hr _ => .inl ((id_of_find? hr).symm ▸ hr))
    (fun c hc ch hch _ hafter => by
      have htransition := h.transition hc hch
      obtain ⟨cred, result, hcall, hid, hresult⟩ := result_of_transition htransition hafter
      exact .inr ⟨c, hc, cred, result, hcall,
        hid.trans (sameTask_of_transition htransition).id.symm, hresult⟩)
  have hrow := hrows id r hr hsucceeded
  rwa [id_of_find? hr] at hrow

def IssuedAs (w : World) (tx : TxId) (call : Call) : Prop :=
  (∃ t, w.txs tx = some t ∧ t.call = call) ∨ ∃ c ∈ w.history, c.tx = tx ∧ c.call = call

/-- The calls in flight and those committed. -/
def Issued (w : World) (call : Call) : Prop :=
  (∃ tx t, w.txs tx = some t ∧ t.call = call) ∨ ∃ c ∈ w.history, c.call = call

theorem issued_iff {w : World} {call : Call} : Issued w call ↔ ∃ tx, IssuedAs w tx call := by
  constructor
  · rintro (⟨tx, t, ht, hcall⟩ | ⟨c, hc, hcall⟩)
    · exact ⟨tx, .inl ⟨t, ht, hcall⟩⟩
    · exact ⟨c.tx, .inr ⟨c, hc, rfl, hcall⟩⟩
  · rintro ⟨tx, ⟨t, ht, hcall⟩ | ⟨c, hc, -, hcall⟩⟩
    · exact .inl ⟨tx, t, ht, hcall⟩
    · exact .inr ⟨c, hc, hcall⟩

/-- A call is issued by its start, under the next free transaction id, and by nothing else. -/
theorem IssuedAs.of_step {w w' : World} {a : Action} {tx : TxId} {call : Call}
    (hstep : step w a = some w') (h : IssuedAs w' tx call) :
    (a = .start call ∧ tx = w.nextTx) ∨ IssuedAs w tx call := by
  have happly : ∀ {tx' t m}, w.txs tx' = some t → IssuedAs (w.apply tx' t m) tx call →
      IssuedAs w tx call := by
    rintro tx' t m ht (⟨t', ht', hcall⟩ | hpast)
    · rcases apply_txs_cases ht' with ⟨rfl, ht'⟩ | ⟨-, ht'⟩
      · exact .inl ⟨t, ht, (call_of_apply ht').symm.trans hcall⟩
      · exact .inl ⟨t', ht', hcall⟩
    · rw [apply_history] at hpast
      exact .inr hpast
  cases step_cases hstep with
  | tick clock => exact .inr h
  | start call' hadmissible =>
    rcases h with ⟨t, ht, hcall⟩ | hpast
    · rcases begin_txs_cases ht with ⟨rfl, rfl⟩ | ⟨-, ht⟩
      · exact .inl ⟨congrArg Action.start hcall, rfl⟩
      · exact .inr (.inl ⟨t, ht, hcall⟩)
    · exact .inr (.inr hpast)
  | run ht hmove => exact .inr (happly ht h)
  | lockRow ht hcall hphase hpresent hfree => exact .inr (happly ht h)
  | fault ht => exact .inr (happly ht h)
  | rollback ht =>
    rcases h with ⟨t', ht', hcall⟩ | hpast
    · exact .inr (.inl ⟨t', (finish_txs_cases ht').2, hcall⟩)
    · exact .inr (.inr hpast)
  | @commit tx' t d inserted ht hphase =>
    rcases h with ⟨t', ht', hcall⟩ | ⟨c, hc, htx, hcall⟩
    · exact .inr (.inl ⟨t', (finish_txs_cases ht').2, hcall⟩)
    · rcases List.mem_append.mp hc with hc | hc
      · exact .inr (.inr ⟨c, hc, htx, hcall⟩)
      · obtain rfl := List.mem_singleton.mp hc
        exact .inr (.inl ⟨t, htx ▸ ht, hcall⟩)

theorem Issued.of_step {w w' : World} {a : Action} {call : Call} (hstep : step w a = some w')
    (h : Issued w' call) : a = .start call ∨ Issued w call := by
  obtain ⟨tx, hissued⟩ := issued_iff.mp h
  rcases hissued.of_step hstep with ⟨hstart, -⟩ | hold
  · exact .inl hstart
  · exact .inr (issued_iff.mpr ⟨tx, hold⟩)

theorem not_issued_of_initial {w : World} (h : w.Initial) (call : Call) : ¬ Issued w call := by
  rintro (⟨tx, t, ht, -⟩ | ⟨c, hc, -⟩)
  · rw [h.noTx] at ht
    cases ht
  · rw [h.noHistory] at hc
    cases hc

end DurableRunner.Sessions
