import DurableRunner.Schema.Surrogates
import DurableRunner.Sessions.Alone

/-! # When a failure report is lost because of its text

The event of a report quotes an excerpt of the error text. An excerpt cut inside
a surrogate pair is refused by `jsonb`, and the report is rolled back with it.
-/
namespace DurableRunner.Guarantees
open Schema Operations Sessions TransitionSystem

/-- The credential holds a live lease on a row that nobody else has locked. A stored
worker id holds no NUL. -/
structure LiveOwner (w : World) (tx : TxId) (cred : Credential) : Prop where
  live : ∃ r, w.steps.find? cred.id = some r ∧ holdsLiveLease cred w.clock r = true
  unlocked : w.heldByOther tx cred.id = false
  storable : textParam cred.workerId = .ok cred.workerId

/-- The report commits and leaves the step in RETRY_WAIT or DEAD_LETTERED. -/
def Reported (w : World) (tx : TxId) (cred : Credential) : Prop :=
  ∃ w' r, CompletesAlone tx w w' ∧ w'.steps.find? cred.id = some r ∧
    (r.status = .retryWait ∨ r.status = .deadLettered)

/-- The excerpt is well formed, short, and the text or the start of it with an ellipsis. -/
structure Excerpts (error excerpt : JsString) : Prop where
  wellFormed : excerpt.isWellFormed = true
  short : excerpt.length ≤ maxEventErrorLength
  whole : error.length ≤ maxEventErrorLength → excerpt = error
  cut : maxEventErrorLength < error.length → ∃ start, start <+: error ∧ excerpt = start ++ [0x2026]

theorem excerpts_iff {error : JsString} (h : error.isWellFormed = true) :
    Excerpts error (truncateEventError error) ↔ CutKeepsPairs error := by
  constructor
  · exact fun hexcerpts => (truncateEventError_isWellFormed h).mp hexcerpts.wellFormed
  · exact fun hcut => ⟨(truncateEventError_isWellFormed h).mpr hcut, truncateEventError_length error,
      truncateEventError_of_fits,
      fun hlong => ⟨_, List.take_prefix _ _, truncateEventError_of_long hlong⟩⟩

theorem contains_truncateEventError {error : JsString} (h : error.contains 0 = false) :
    (truncateEventError error).contains 0 = false := by
  rw [List.contains_eq_mem, decide_eq_false_iff_not] at h ⊢
  unfold truncateEventError
  split
  · exact h
  · intro hmem
    rcases List.mem_append.mp hmem with hmem | hmem
    · exact h (List.mem_of_mem_take hmem)
    · cases List.mem_singleton.mp hmem

theorem failUpdate_of_live {cred : Credential} {error : JsString} (retryable : Bool)
    (now : Timestamp) {clock : Timestamp} {r : StepRow} (hlive : holdsLiveLease cred clock r = true)
    (hworker : textParam cred.workerId = .ok cred.workerId) (hnul : error.contains 0 = false) :
    ∃ r', failUpdate cred error retryable now clock r = .ok (some r') ∧ r'.id = r.id ∧
      (r'.status = .retryWait ∨ r'.status = .deadLettered) := by
  have htext : jsTextParam error = .ok error.toWellFormed := by
    rw [jsTextParam, hnul]
    rfl
  obtain ⟨row, hrow⟩ := StepColumns.check_of { r.toStepColumns with
    status := if mayRetry retryable r then .retryWait else .deadLettered
    currentWorkerId := none
    leaseExpiresAt := none
    lastError := some error.toWellFormed
    availableAt :=
      if mayRetry retryable r then clock + 1000 * retryBackoffMs r.attemptCount
      else r.availableAt
    updatedAt := now }
    ⟨r.steps_attempt_count_nonnegative, r.steps_max_attempts_positive,
      .inl (by dsimp only; split <;> simp)⟩
  have hupdate : failUpdate cred error retryable now clock r = .ok (some row) := by
    simp only [failUpdate, ownerUpdate, hworker, htext, hlive, ↓reduceIte]
    exact except_bind_eq_ok.mpr ⟨_, rfl, except_bind_eq_ok.mpr ⟨_, rfl,
      except_bind_eq_ok.mpr ⟨row, hrow, rfl⟩⟩⟩
  have hcols := StepColumns.check_eq_ok.mp hrow
  refine ⟨row, hupdate, by rw [hcols], ?_⟩
  rw [hcols]
  dsimp only
  split
  · exact .inl rfl
  · exact .inr rfl

/-- The event of a report is storable when its excerpt is. -/
theorem storable_failEvent {cred : Credential} {error : JsString} {retryable : Bool} {r : StepRow}
    (hnul : error.contains 0 = false) :
    (failEvent cred error retryable r).data.storable = (truncateEventError error).isWellFormed := by
  have hcontains := contains_truncateEventError hnul
  have hboth : ((truncateEventError error).isWellFormed &&
      !(truncateEventError error).contains 0) = (truncateEventError error).isWellFormed := by
    rw [hcontains]
    simp
  unfold failEvent EventData.storable
  split
  · exact hboth
  · exact hboth

section Report
variable {w : World} {tx : TxId} {t : Tx} {cred : Credential} {error : JsString} {retryable : Bool}
  (ht : w.txs tx = some t) (hbegun : t.phase = .begun)
  (hcall : t.call = .recordStepFailure cred error retryable) (howner : LiveOwner w tx cred)
  (hnul : error.contains 0 = false)
include ht hbegun hcall howner hnul

/-- The report locks its row and updates it; the event INSERT is still to come. -/
theorem arrives_reported : ∃ r r', w.steps.find? cred.id = some r ∧ r'.id = r.id ∧
    (r'.status = .retryWait ∨ r'.status = .deadLettered) ∧
    Arrives tx w t (.inserting ⟨w.clock, [⟨r, r', w.clock⟩]⟩ [failEvent cred error retryable r'] []) := by
  obtain ⟨r, hr, hlive⟩ := howner.live
  obtain ⟨r', hupdate, hid, hstatus⟩ := failUpdate_of_live retryable t.start hlive howner.storable
    hnul
  refine ⟨r, r', hr, hid, hstatus, ?_⟩
  have hlock : w.next tx t = some (.lock cred.id (.selected [⟨cred.id, w.clock⟩])) := by
    simp [World.next, hbegun, World.firstStatement, hcall, Call.credential?, hr, howner.unlocked]
  refine .lock ht hlock fun v t' hv htv hcall' hstart' hphase' => ?_
  have hmeanwhile := hv.meanwhile
  have hrows : v.rowsOf [⟨cred.id, w.clock⟩] = [(r, w.clock)] := by
    simp [World.rowsOf, hmeanwhile.steps, hr]
  have hall : t'.call.updateAll t'.start v.clock (v.rowsOf [⟨cred.id, w.clock⟩]) =
      .ok [⟨r, r', w.clock⟩] := by
    rw [hrows, hcall', hcall, hstart', hmeanwhile.clock]
    simp [Call.updateAll, Call.update, hupdate]
  have hnext : v.next tx t' = some (.enter (.inserting ⟨w.clock, [⟨r, r', w.clock⟩]⟩
      [failEvent cred error retryable r'] [])) := by
    rw [World.next, hphase']
    change some (v.updateStatement t' _) = _
    rw [updateStatement_eq, hall, hcall', hcall, hmeanwhile.clock]
    rfl
  exact .enter htv hnext fun u _ htu => .here htu

/-- A report whose excerpt is well formed commits. -/
theorem reported_of_wellFormed (hexcerpt : (truncateEventError error).isWellFormed = true) :
    Reported w tx cred := by
  obtain ⟨r, r', hr, hid, hstatus, v, t', hv, htv, hcallv, hstartv, hphase⟩ :=
    arrives_reported ht hbegun hcall howner hnul
  obtain ⟨rows, hrows, harrives⟩ := arrives_done htv hphase fun e he => by
    rw [List.mem_singleton.mp he, storable_failEvent hnul, hexcerpt]
  have hwritten : rows.map EventRow.toNewEvent = t.call.events [⟨r, r', w.clock⟩] := by
    rw [hrows, hcall]
    rfl
  obtain ⟨⟨w', hw'⟩, hcompleted⟩ :=
    completes_iff_of_arrives (.of_uninterrupted hv hcallv hstartv harrives) hwritten
  refine ⟨w', r', hw', ?_, hstatus⟩
  have hid' : r'.id = cred.id := hid.trans (id_of_find? hr)
  rw [(hcompleted w' hw').steps, ← hid']
  exact Relational.Table.find?_set_self _ (hid' ▸ hr)

/-- A report whose excerpt is not well formed is rolled back. -/
theorem not_completes_of_illFormed (hexcerpt : (truncateEventError error).isWellFormed = false)
    (w' : World) : ¬ CompletesAlone tx w w' := by
  obtain ⟨r, r', -, -, -, v, t', hv, htv, hcallv, hstartv, hphase⟩ :=
    arrives_reported ht hbegun hcall howner hnul
  have hrecord : recordStepEvent (failEvent cred error retryable r') = .error .invalidText := by
    rw [recordStepEvent, storable_failEvent hnul, hexcerpt]
    rfl
  have hnext : v.next tx t' = some (.enter (.aborted .invalidText)) := by
    simp [World.next, hphase, hrecord]
  exact not_completes_of_aborted
    (.of_uninterrupted hv hcallv hstartv (.enter htv hnext fun u _ htu => .here htu)) w'

end Report

def reportBegins (error : JsString) : List Action :=
  callAlone 0 (.claimNextStep "worker" 30000) 6 ++
    [.start (.recordStepFailure ⟨7, "worker", ⟨1, Int4.inRange_one⟩⟩ error true)]

theorem liveOwner_of_reportBegins {error : JsString} {w : World}
    (hrun : run step .singleStep (reportBegins error) = some w) :
    ∃ t, w.txs 1 = some t ∧ t.phase = .begun ∧
      t.call = .recordStepFailure ⟨7, "worker", ⟨1, by decide⟩⟩ error true ∧
      LiveOwner w 1 ⟨7, "worker", ⟨1, by decide⟩⟩ := by
  have hclaimed : (run step .singleStep (callAlone 0 (.claimNextStep "worker" 30000) 6)).any
      (fun w => w.nextTx = 1 ∧ w.heldByOther 1 7 = false ∧ (w.steps.find? 7).any fun r =>
        holdsLiveLease ⟨7, "worker", ⟨1, by decide⟩⟩ w.clock r) = true := by
    decide +kernel
  obtain ⟨v, hv, hend⟩ := (Option.any_eq_true _ _).mp hclaimed
  obtain ⟨hnext, hfree, hrow⟩ := of_decide_eq_true hend
  obtain ⟨r, hr, hlive⟩ := (Option.any_eq_true _ _).mp hrow
  obtain ⟨u, hu, hstart⟩ := (run_append_eq_some _).mp hrun
  obtain rfl := Option.some.inj (hv.symm.trans hu)
  have hadmissible : Call.admissible
      (.recordStepFailure ⟨7, "worker", ⟨1, by decide⟩⟩ error true) = true := rfl
  obtain rfl : v.begin (.recordStepFailure ⟨7, "worker", ⟨1, by decide⟩⟩ error true) = w := by
    simpa [run_cons, step, hadmissible] using hstart
  refine ⟨⟨_, v.clock, none, none, .begun⟩, ?_, rfl, rfl, ⟨r, hr, hlive⟩, hfree, by decide +kernel⟩
  simp [World.begin, World.setTx, hnext]

/-- A letter run with one character outside the BMP at the cut. -/
def pairAtTheCut : JsString := List.replicate 198 0x61 ++ [0xD83D, 0xDE00, 0x61]

def plainLongText : JsString := List.replicate 300 0x61

/-- A report of a well-formed text without NUL reaches RETRY_WAIT or DEAD_LETTERED,
and its excerpt is a proper one, exactly when no surrogate pair is cut. -/
theorem failure_report_kept_iff {w : World} {tx : TxId} {t : Tx} {cred : Credential}
    {error : JsString} {retryable : Bool} (ht : w.txs tx = some t) (hbegun : t.phase = .begun)
    (hcall : t.call = .recordStepFailure cred error retryable) (howner : LiveOwner w tx cred)
    (hwellFormed : error.isWellFormed = true) (hnul : error.contains 0 = false) :
    (Reported w tx cred ↔ CutKeepsPairs error) ∧
      (Excerpts error (truncateEventError error) ↔ CutKeepsPairs error) := by
  refine ⟨⟨fun hreported => ?_, fun hcut => ?_⟩, excerpts_iff hwellFormed⟩
  · obtain ⟨w', r, hcompletes, -⟩ := hreported
    rw [← truncateEventError_isWellFormed hwellFormed]
    by_contra hexcerpt
    exact not_completes_of_illFormed ht hbegun hcall howner hnul (by simpa using hexcerpt) w'
      hcompletes
  · exact reported_of_wellFormed ht hbegun hcall howner hnul
      ((truncateEventError_isWellFormed hwellFormed).mpr hcut)

theorem failure_report_kept_iff_plain : ∃ w, run step .singleStep (reportBegins plainLongText) = some w ∧
    Reported w 1 ⟨7, "worker", ⟨1, by decide⟩⟩ ∧
    Excerpts plainLongText (truncateEventError plainLongText) := by
  have hruns : (run step .singleStep (reportBegins plainLongText)).isSome = true := by
    decide +kernel
  obtain ⟨w, hw⟩ := Option.isSome_iff_exists.mp hruns
  obtain ⟨t, ht, hbegun, hcall, howner⟩ := liveOwner_of_reportBegins hw
  obtain ⟨hkept, hexcerpt⟩ :=
    failure_report_kept_iff ht hbegun hcall howner (by decide +kernel) (by decide +kernel)
  have hcut : CutKeepsPairs plainLongText := by
    have hat : plainLongText[maxEventErrorLength - 2]? = some 0x61 := by decide +kernel
    refine .inr fun u hu => ?_
    obtain rfl := Option.some.inj (hat.symm.trans hu)
    rfl
  exact ⟨w, hw, hkept.mpr hcut, hexcerpt.mpr hcut⟩

/-- A live owner's report of a well-formed text of 201 code units is lost. -/
theorem failure_report_lost : ∃ w, run step .singleStep (reportBegins pairAtTheCut) = some w ∧
    LiveOwner w 1 ⟨7, "worker", ⟨1, by decide⟩⟩ ∧
    pairAtTheCut.isWellFormed = true ∧ pairAtTheCut.contains 0 = false ∧
    ¬ Reported w 1 ⟨7, "worker", ⟨1, by decide⟩⟩ ∧
    ¬ Excerpts pairAtTheCut (truncateEventError pairAtTheCut) := by
  have hruns : (run step .singleStep (reportBegins pairAtTheCut)).isSome = true := by
    decide +kernel
  have hnul : pairAtTheCut.contains 0 = false := by decide +kernel
  have hexcerpt : (truncateEventError pairAtTheCut).isWellFormed = false := by decide +kernel
  obtain ⟨w, hw⟩ := Option.isSome_iff_exists.mp hruns
  obtain ⟨t, ht, hbegun, hcall, howner⟩ := liveOwner_of_reportBegins hw
  refine ⟨w, hw, howner, by decide +kernel, hnul, ?_, ?_⟩
  · rintro ⟨w', r, hcompletes, -⟩
    exact not_completes_of_illFormed ht hbegun hcall howner hnul hexcerpt w' hcompletes
  · intro hexcerpts
    rw [hexcerpts.wellFormed] at hexcerpt
    cases hexcerpt

end DurableRunner.Guarantees
