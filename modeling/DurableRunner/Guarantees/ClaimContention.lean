import DurableRunner.Benchmarks.Ledger
import DurableRunner.Sessions.Origins
import DurableRunner.Worker.FleetSimulation

/-! # Every claim is accounted for

Whatever concurrent claimers are told, and in whatever order, the ownership
audit finds no contradiction; what it misses are claims whose answer was lost.
-/
namespace DurableRunner.Guarantees
open Schema Operations Benchmarks TransitionSystem Relational
open Sessions (World TxId Commit Numbered IssuedAs IsClaim)
open Worker (isOver outcome? answersClaim)

/-- The committed claim that a claimer has not been told of. -/
def unanswered (w : World) (c : Claimer) : List Ownership :=
  (c.tx?.bind fun tx => (w.history.find? fun cm => cm.tx = tx).bind Commit.claimed?).toList.map ownershipOf

/-- What a claimer has been told, and what it is owed. -/
def share (w : World) (c : Claimer) : Multiset Ownership :=
  (granted [c.record] : Multiset Ownership) + (unanswered w c : Multiset Ownership)

/-- The errors the claimers have caught, rolled back claims apart. -/
def errorCount (claimers : List Claimer) : ℕ := (claimers.map fun c => c.record.otherErrors).sum

/-- The committed claims are those the claimers know of or wait for, and some lost to errors. -/
structure Ledger (w₀ : World) (s : Contention) : Prop where
  reaches : Reaches Sessions.step w₀ s.world
  issued : ∀ c ∈ s.claimers, ∀ tx, c.tx? = some tx →
    tx < s.world.nextTx ∧ ∀ call, IssuedAs s.world tx call → call = c.call
  apart : (s.claimers.filterMap Claimer.tx?).Nodup
  manned : ∀ tx t, s.world.txs tx = some t → IsClaim t.call → tx ∈ s.claimers.filterMap Claimer.tx?
  balance : ∃ lost : Multiset Ownership, (committed s.world.history : Multiset Ownership) =
    (s.claimers.map (share s.world)).sum + lost ∧ lost.card ≤ errorCount s.claimers

theorem history_of_step {w w' : World} {a : Sessions.Action} (h : Sessions.step w a = some w') :
    w'.history = w.history ∨ ∃ tx t cm, w.txs tx = some t ∧ cm.tx = tx ∧ cm.call = t.call ∧
      w'.history = w.history ++ [cm] := by
  cases Sessions.step_cases h with
  | tick | start | rollback => exact .inl rfl
  | run | lockRow | fault => exact .inl (Sessions.apply_history _ _ _ _)
  | @commit tx t d inserted ht hphase =>
    exact .inr ⟨tx, t, ⟨tx, t.call, t.start, t.lockedAt, d, inserted, w.clock⟩, ht, rfl, rfl, rfl⟩

/-! ## A claimer and its share -/

section Claimers
variable {w w' : World} {c c' : Claimer}

/-- What the bookkeeping depends on. -/
structure SameAccount (c c' : Claimer) : Prop where
  tx? : c'.tx? = c.tx?
  call : c'.call = c.call
  grants : c'.record.grants = c.record.grants
  id : c'.record.id = c.record.id
  otherErrors : c'.record.otherErrors = c.record.otherErrors

theorem SameAccount.refl (c : Claimer) : SameAccount c c := ⟨rfl, rfl, rfl, rfl, rfl⟩

theorem sameAccount_head (h : c.tx? = none) : SameAccount c c.head :=
  ⟨by rw [head_tx?, h], head_call c, head_grants c, head_id c, head_otherErrors c⟩

theorem SameAccount.share (h : SameAccount c c') : share w c' = share w c := by
  unfold Guarantees.share unanswered granted
  simp [h.tx?, h.grants, h.id]

theorem unanswered_of_idle (h : c.tx? = none) : unanswered w c = [] := by simp [unanswered, h]

theorem unanswered_of_history (h : w'.history = w.history) : unanswered w' c = unanswered w c := by
  rw [unanswered, unanswered, h]

theorem length_unanswered_le : (unanswered w c).length ≤ 1 := by
  rw [unanswered, List.length_map]
  exact Option.length_toList_le

theorem share_concat {tx : TxId} {cm : Commit} (hcm : cm.tx = tx) (hfresh : ∀ cm ∈ w.history, cm.tx ≠ tx)
    (hhistory : w'.history = w.history ++ [cm]) : share w' c = share w c +
      if c.tx? = some tx then (cm.claimed?.toList.map ownershipOf : Multiset Ownership) else 0 := by
  have howed : (unanswered w' c : Multiset Ownership) = unanswered w c +
      if c.tx? = some tx then (cm.claimed?.toList.map ownershipOf : Multiset Ownership) else 0 := by
    unfold unanswered
    rw [hhistory]
    cases htx : c.tx? with
    | none => simp
    | some tx' =>
      by_cases h : tx' = tx
      · subst h
        have hnone : w.history.find? (fun cm => cm.tx = tx') = none :=
          List.find?_eq_none.mpr fun cm hmem => by simpa using hfresh cm hmem
        simp [List.find?_append, hnone, hcm]
      · have hother : [cm].find? (fun cm => cm.tx = tx') = none := by simp [hcm, Ne.symm h]
        rw [Option.bind_some, Option.bind_some, List.find?_append, hother, Option.or_none]
        simp [h]
  rw [share, share, howed, add_assoc]

theorem tx?_of_claiming {tx : TxId} (h : c.phase = .claiming tx) : c.tx? = some tx := by
  rw [Claimer.tx?, h]

theorem granted_singleton : granted [c.record] =
    c.record.grants.map fun g => ⟨g.stepId, g.leaseVersion, some c.record.id⟩ := by simp [granted]

theorem claimed_of_answer {w₀ : World} {tx : TxId} {step : ClaimedStep} (h₀ : w₀.Initial)
    (hreaches : Reaches Sessions.step w₀ w) (hissued : ∀ call, IssuedAs w tx call → call = c.call)
    (hphase : c.phase = .claiming tx) (hanswers : answersClaim w (some tx) (.claimed step) = true) :
    unanswered w c = [ownershipOf step] ∧ step.workerId = some c.record.id := by
  obtain ⟨-, hanswer⟩ := (Bool.and_eq_true _ _).mp hanswers
  cases hfind : w.history.find? (fun cm => cm.tx = tx) with
  | none => simp [outcome?, hfind] at hanswer
  | some cm =>
    have hmem := List.mem_of_find?_eq_some hfind
    have htx : cm.tx = tx := by simpa using List.find?_some hfind
    have hclaimed : cm.claimed? = some step := by
      simp only [outcome?, Option.bind_some, hfind, Option.map_some] at hanswer
      split at hanswer
      · rename_i step₁ step₂ hstep hout
        cases hstep
        obtain rfl : step = step₂ := of_decide_eq_true hanswer
        have hout := Option.some.inj hout
        simp [Commit.claimed?, hout]
      all_goals simp_all
    obtain ⟨workerId, ms, ch, rest, hcall, hchanges, rfl⟩ := Commit.claimed?_eq_some.mp hclaimed
    have howner : Call.claimNextStep workerId ms = c.call :=
      hissued _ (.inr ⟨cm, hmem, htx, hcall⟩)
    obtain ⟨rfl, -⟩ := Call.claimNextStep.inj howner
    refine ⟨by simp [unanswered, tx?_of_claiming hphase, hfind, hclaimed], ?_⟩
    obtain ⟨⟨before, hperforms⟩, -⟩ := (Sessions.serial_of_reaches h₀ hreaches).performs cm hmem
    have htransition := hperforms.transition (c := ch) (by rw [hchanges]; exact List.mem_cons_self)
    rw [hcall] at htransition
    cases htransition with
    | claim _ _ _ _ _ hcols => exact (by rw [hcols] : ch.after.currentWorkerId = some c.record.id)

theorem txs_of_isOver {tx : TxId} (hphase : c.phase = .claiming tx) (hover : isOver w (some tx) = true) :
    ∀ tx, c.tx? = some tx → w.txs tx = none := by
  intro tx' htx
  obtain rfl := Option.some.inj ((tx?_of_claiming hphase).symm.trans htx)
  simpa [isOver] using hover

theorem share_of_idle (h : c.tx? = none) : share w c = (granted [c.record] : Multiset Ownership) := by
  simp [share, unanswered_of_idle h]

theorem share_eq_head (hgrants : c'.record.grants = c.record.grants) (hid : c'.record.id = c.record.id)
    (htx : c'.tx? = none) : share w c = share w c' + (unanswered w c : Multiset Ownership) := by
  rw [share_of_idle htx, share, granted_singleton, granted_singleton, hgrants, hid]

structure Resumes (w : World) (c c' : Claimer) : Prop where
  tx? : c'.tx? = none
  call : c'.call = c.call
  ended : ∀ tx, c.tx? = some tx → w.txs tx = none
  share : ∃ gone : Multiset Ownership, share w c = Guarantees.share w c' + gone ∧
    c.record.otherErrors + gone.card ≤ c'.record.otherErrors

theorem resumes_of_move {w₀ : World} {event : ClaimerEvent} (h₀ : w₀.Initial)
    (hreaches : Reaches Sessions.step w₀ w)
    (hissued : ∀ tx, c.tx? = some tx → ∀ call, IssuedAs w tx call → call = c.call)
    (hmove : ClaimerMove w c event c') : Resumes w c c' := by
  have hidle : ∀ {c' : Claimer}, c.tx? = none → SameAccount c c' → Resumes w c c' := by
    intro c' htx hsame
    refine ⟨hsame.tx?.trans htx, hsame.call, fun tx h => by simp [htx] at h, 0, ?_, ?_⟩
    · rw [hsame.share, add_zero]
    · rw [hsame.otherErrors, Multiset.card_zero, Nat.add_zero]
  cases hmove with
  | @claimed step tx hphase hanswers =>
    obtain ⟨howed, hworker⟩ := claimed_of_answer h₀ hreaches
      (hissued tx (tx?_of_claiming hphase)) hphase hanswers
    refine ⟨head_tx? _, head_call _,
      txs_of_isOver hphase ((Bool.and_eq_true _ _).mp hanswers).1, 0, ?_, ?_⟩
    · have htold : share w (c.granted step) = (granted [(c.granted step).record] : Multiset Ownership) :=
        share_of_idle (head_tx? _)
      rw [htold, share, howed, granted_singleton, granted_singleton, Claimer.granted, head_grants, head_id,
        List.map_append, ← Multiset.coe_add, ownershipOf, hworker, add_zero]
      rfl
    · simp [Claimer.granted]
  | @notClaimed tx hphase hanswers =>
    have hnone : unanswered w c = [] := by
      obtain ⟨-, hanswer⟩ := (Bool.and_eq_true _ _).mp hanswers
      cases hfind : w.history.find? (fun cm => cm.tx = tx) with
      | none => simp [unanswered, tx?_of_claiming hphase, hfind]
      | some cm =>
        have hout : cm.outcome = .notClaimed := by
          simp only [outcome?, Option.bind_some, hfind, Option.map_some] at hanswer
          split at hanswer <;> simp_all
        simp [unanswered, tx?_of_claiming hphase, hfind, Commit.claimed?, hout]
    have hkept : (c.emptied).tx? = none ∧ c.emptied.call = c.call ∧
        c.emptied.record.grants = c.record.grants ∧ c.emptied.record.id = c.record.id ∧
        c.emptied.record.otherErrors = c.record.otherErrors := by
      unfold Claimer.emptied
      dsimp only
      split
      · exact ⟨rfl, rfl, rfl, rfl, rfl⟩
      · exact ⟨head_tx? _, head_call _, head_grants _, head_id _, head_otherErrors _⟩
    obtain ⟨htx, hcall, hgrants, hid, herrors⟩ := hkept
    refine ⟨htx, hcall, txs_of_isOver hphase ((Bool.and_eq_true _ _).mp hanswers).1, 0, ?_, ?_⟩
    · rw [share_eq_head hgrants hid htx, hnone, Multiset.coe_nil]
    · rw [herrors, Multiset.card_zero, Nat.add_zero]
  | @rolledBack tx hphase hover hnone =>
    have howed : unanswered w c = [] := by
      have hfind : w.history.find? (fun cm => cm.tx = tx) = none := by
        simpa [outcome?] using hnone
      simp [unanswered, tx?_of_claiming hphase, hfind]
    refine ⟨head_tx? _, head_call _, txs_of_isOver hphase hover, 0, ?_, ?_⟩
    · have hshare : share w c = share w (c.caught .consistency) + (unanswered w c : Multiset Ownership) :=
        share_eq_head (head_grants _) (head_id _) (head_tx? _)
      rw [hshare, howed, Multiset.coe_nil]
    · simp [Claimer.caught]
  | @lost tx text hphase hover =>
    refine ⟨head_tx? _, head_call _, txs_of_isOver hphase hover, unanswered w c, ?_, ?_⟩
    · exact share_eq_head (head_grants _) (head_id _) (head_tx? _)
    · have := length_unanswered_le (w := w) (c := c)
      simp [Claimer.caught]
      omega
  | @failed text htx =>
    refine ⟨head_tx? _, head_call _, fun tx h => by simp [htx] at h, 0, ?_, ?_⟩
    · have hshare : share w c = share w (c.caught (.other text)) + (unanswered w c : Multiset Ownership) :=
        share_eq_head (head_grants _) (head_id _) (head_tx? _)
      rw [hshare, unanswered_of_idle htx, Multiset.coe_nil]
    · simp [Claimer.caught]
  | probe hphase =>
    have htx : c.tx? = none := by rw [Claimer.tx?, hphase]
    exact hidle htx ⟨htx.symm ▸ rfl, rfl, rfl, rfl, rfl⟩
  | @probed any hphase =>
    have htx : c.tx? = none := by rw [Claimer.tx?, hphase]
    cases any with
    | true => exact hidle htx (sameAccount_head htx)
    | false => exact hidle htx ⟨htx.symm ▸ rfl, rfl, rfl, rfl, rfl⟩

end Claimers

/-! ## The ledger along a run -/

section Steps
variable {w₀ : World} {s t : Contention}

theorem count_filterMap_tx? (claimers : List Claimer) (tx : TxId) :
    claimers.countP (fun c => c.tx? = some tx) = (claimers.filterMap Claimer.tx?).count tx := by
  induction claimers with
  | nil => rfl
  | cons c claimers ih =>
    cases htx : c.tx? with
    | none => simp [htx, ih]
    | some tx' =>
      by_cases h : tx' = tx <;> simp [htx, ih, h]

theorem errorCount_append (cs cs' : List Claimer) :
    errorCount (cs ++ cs') = errorCount cs + errorCount cs' := by simp [errorCount]

theorem errorCount_cons (c : Claimer) (cs : List Claimer) :
    errorCount (c :: cs) = c.record.otherErrors + errorCount cs := by simp [errorCount]

/-- A step of the database, whoever made it. -/
theorem Ledger.world {w : World} {a : Sessions.Action} (h₀ : w₀.Initial) (h : Ledger w₀ s)
    (hstep : Sessions.step s.world a = some w) (ha : claimsNothing a = true) :
    Ledger w₀ { s with world := w } := by
  have hlater := Worker.LaterWorld.of_step hstep
  have hold : ∀ tx call, tx < s.world.nextTx → IssuedAs w tx call → IssuedAs s.world tx call := by
    intro tx call hlt hissued
    rcases hissued.of_step hstep with ⟨-, rfl⟩ | hold
    · exact absurd hlt (lt_irrefl _)
    · exact hold
  have hnumbered : Numbered w := .reaches h₀ (h.reaches.tail hstep)
  refine ⟨h.reaches.tail hstep, fun c hc tx htx => ?_, h.apart, fun tx t ht hclaim => ?_, ?_⟩
  · obtain ⟨hlt, hcall⟩ := h.issued c hc tx htx
    exact ⟨hlt.trans_le hlater.nextTx, fun call hissued => hcall call (hold tx call hlt hissued)⟩
  · rcases IssuedAs.of_step hstep (.inl ⟨t, ht, rfl⟩) with ⟨rfl, -⟩ | ⟨t', ht', hcall⟩ | ⟨cm, hcm, htx, -⟩
    · obtain ⟨workerId, ms, hcall⟩ := hclaim
      rw [hcall] at ha
      cases ha
    · exact h.manned tx t' ht' (hcall ▸ hclaim)
    · have hin : cm ∈ w.history := by
        rcases history_of_step hstep with hsame | ⟨_, _, _, _, _, _, hsnoc⟩
        · exact hsame ▸ hcm
        · exact hsnoc ▸ List.mem_append_left _ hcm
      exact absurd htx ((hnumbered.live tx (by rw [ht]; rfl)).2 cm hin)
  · obtain ⟨lost, hbalance, hcard⟩ := h.balance
    refine ⟨lost, ?_, hcard⟩
    dsimp only
    rcases history_of_step hstep with hsame | ⟨tx, t, cm, ht, hcm, hcall, hsnoc⟩
    · have hshare : s.claimers.map (share w) = s.claimers.map (share s.world) :=
        List.map_congr_left fun c _ => by rw [share, share, unanswered_of_history hsame]
      rw [hsame, hshare]
      exact hbalance
    · have hfresh := ((Numbered.reaches h₀ h.reaches).live tx (by rw [ht]; rfl)).2
      have hshare : s.claimers.map (share w) = s.claimers.map fun c => share s.world c +
          if c.tx? = some tx then (cm.claimed?.toList.map ownershipOf : Multiset Ownership) else 0 :=
        List.map_congr_left fun c _ => share_concat hcm hfresh hsnoc
      have hone : (s.claimers.countP fun c => c.tx? = some tx) •
          (cm.claimed?.toList.map ownershipOf : Multiset Ownership) = cm.claimed?.toList.map ownershipOf := by
        cases hclaimed : cm.claimed? with
        | none => simp
        | some step =>
          obtain ⟨workerId, ms, -, -, hclaim, -, -⟩ := Commit.claimed?_eq_some.mp hclaimed
          have hmem := h.manned tx t ht ⟨workerId, ms, hcall ▸ hclaim⟩
          rw [count_filterMap_tx?, List.count_eq_one_of_mem h.apart hmem, one_nsmul]
      rw [hshare, List.sum_map_add, sum_map_ite, hone, hsnoc, committed_concat, ← Multiset.coe_add, hbalance]
      abel

theorem exists_split {i : ℕ} {c : Claimer} (h : s.claimers[i]? = some c) :
    ∃ before after, s.claimers = before ++ c :: after ∧
      ∀ c', s.claimers.set i c' = before ++ c' :: after := by
  obtain ⟨hi, rfl⟩ := List.getElem?_eq_some_iff.mp h
  refine ⟨s.claimers.take i, s.claimers.drop (i + 1), ?_, fun c' => ?_⟩
  · rw [List.getElem_cons_drop, List.take_append_drop]
  · rw [List.set_eq_take_append_cons_drop, if_pos hi]

theorem balance_split (w : World) (before after : List Claimer) (c : Claimer) :
    ((before ++ c :: after).map (share w)).sum =
      share w c + ((before.map (share w)).sum + (after.map (share w)).sum) := by
  simp [add_left_comm]

/-- A claimer goes on. -/
theorem Ledger.resumes {i : ℕ} {c c' : Claimer} (h : Ledger w₀ s) (hc : s.claimers[i]? = some c)
    (hr : Resumes s.world c c') : Ledger w₀ (s.setClaimer i c') := by
  obtain ⟨before, after, hsplit, hset⟩ := exists_split hc
  have hmem : ∀ d, d ∈ before ++ c' :: after → d = c' ∨ d ∈ s.claimers := by
    intro d hd
    rw [hsplit]
    rcases List.mem_append.mp hd with hd | hd
    · exact .inr (List.mem_append_left _ hd)
    · exact (List.mem_cons.mp hd).imp_right fun hd => List.mem_append_right _ (List.mem_cons_of_mem _ hd)
  have hawaited : (before ++ c' :: after).filterMap Claimer.tx? =
      before.filterMap Claimer.tx? ++ after.filterMap Claimer.tx? := by simp [hr.tx?]
  refine ⟨h.reaches, fun d hd tx htx => ?_, ?_, fun tx t ht hclaim => ?_, ?_⟩
  · rw [Contention.setClaimer, hset] at hd
    rcases hmem d hd with rfl | hd
    · rw [hr.tx?] at htx
      cases htx
    · exact h.issued d hd tx htx
  · have hapart := h.apart
    rw [Contention.setClaimer, hset, hawaited]
    rw [hsplit, List.filterMap_append] at hapart
    exact ((List.sublist_cons_self c after).filterMap _ |>.append_left _).nodup hapart
  · have hold := h.manned tx t ht hclaim
    rw [Contention.setClaimer, hset, hawaited]
    rw [hsplit, List.filterMap_append, List.mem_append, List.mem_filterMap, List.mem_filterMap] at hold
    rw [List.mem_append, List.mem_filterMap, List.mem_filterMap]
    refine hold.imp_right fun ⟨d, hd, htx⟩ => ?_
    rcases List.mem_cons.mp hd with rfl | hd
    · -- its transaction is over
      have hover := hr.ended tx htx
      have hlive : s.world.txs tx = some t := ht
      rw [hover] at hlive
      cases hlive
    · exact ⟨d, hd, htx⟩
  · obtain ⟨lost, hbalance, hcard⟩ := h.balance
    obtain ⟨gone, hshare, hgone⟩ := hr.share
    refine ⟨lost + gone, ?_, ?_⟩
    · rw [Contention.setClaimer, hset]
      dsimp only
      rw [hbalance, hsplit, balance_split, balance_split, hshare]
      abel
    · rw [Contention.setClaimer, hset, Multiset.card_add, errorCount_append, errorCount_cons]
      rw [hsplit, errorCount_append, errorCount_cons] at hcard
      omega

theorem Ledger.begins {i : ℕ} {c : Claimer} {w : World} (h₀ : w₀.Initial) (h : Ledger w₀ s)
    (hc : s.claimers[i]? = some c) (hphase : c.phase = .calling)
    (hstep : Sessions.step s.world (.start c.call) = some w) :
    Ledger w₀ ({ s with world := w }.setClaimer i { c with phase := .claiming s.world.nextTx }) := by
  obtain ⟨before, after, hsplit, hset⟩ := exists_split hc
  have hidle : c.tx? = none := by rw [Claimer.tx?, hphase]
  have hnumbered := Numbered.reaches h₀ h.reaches
  have hnumbered' : Numbered w := .reaches h₀ (h.reaches.tail hstep)
  obtain rfl : s.world.begin c.call = w := by
    cases Sessions.step_cases hstep with
    | start => rfl
  have hnew : ∀ call, ¬ IssuedAs s.world s.world.nextTx call := by
    rintro call (⟨t, ht, -⟩ | ⟨cm, hcm, htx, -⟩)
    · exact lt_irrefl _ (hnumbered.live _ (by rw [ht]; rfl)).1
    · exact (hnumbered.past cm hcm).ne htx
  have hawaited : (before ++ { c with phase := .claiming s.world.nextTx } :: after).filterMap Claimer.tx? =
      before.filterMap Claimer.tx? ++ s.world.nextTx :: after.filterMap Claimer.tx? := by
    simp [Claimer.tx?]
  have hold : s.claimers.filterMap Claimer.tx? =
      before.filterMap Claimer.tx? ++ after.filterMap Claimer.tx? := by simp [hsplit, hidle]
  have hlt : ∀ tx ∈ s.claimers.filterMap Claimer.tx?, tx < s.world.nextTx := by
    intro tx htx
    obtain ⟨d, hd, htx⟩ := List.mem_filterMap.mp htx
    exact (h.issued d hd tx htx).1
  refine ⟨h.reaches.tail hstep, fun d hd tx htx => ?_, ?_, fun tx t ht hclaim => ?_, ?_⟩
  · rw [Contention.setClaimer] at hd
    dsimp only at hd
    rw [hset] at hd
    have hcases : d = { c with phase := .claiming s.world.nextTx } ∨ d ∈ s.claimers := by
      rw [hsplit]
      rcases List.mem_append.mp hd with hd | hd
      · exact .inr (List.mem_append_left _ hd)
      · exact (List.mem_cons.mp hd).imp_right fun hd => List.mem_append_right _ (List.mem_cons_of_mem _ hd)
    rcases hcases with rfl | hd
    · obtain rfl : s.world.nextTx = tx := Option.some.inj htx
      refine ⟨Nat.lt_succ_self _, fun call hissued => ?_⟩
      rcases hissued.of_step hstep with ⟨hcall, -⟩ | hissued
      · exact (Sessions.Action.start.inj hcall).symm
      · exact absurd hissued (hnew call)
    · obtain ⟨hlt, hcall⟩ := h.issued d hd tx htx
      refine ⟨Nat.lt_succ_of_lt hlt, fun call hissued => ?_⟩
      rcases hissued.of_step hstep with ⟨-, rfl⟩ | hissued
      · exact absurd hlt (lt_irrefl _)
      · exact hcall call hissued
  · have hapart := h.apart
    rw [Contention.setClaimer]
    dsimp only
    rw [hset, hawaited]
    rw [hold] at hapart hlt
    exact List.perm_middle.nodup_iff.mpr
      (List.nodup_cons.mpr ⟨fun hmem => lt_irrefl _ (hlt _ hmem), hapart⟩)
  · rw [Contention.setClaimer]
    dsimp only
    rw [hset, hawaited, List.perm_middle.mem_iff, List.mem_cons, ← hold]
    have hlive : (s.world.begin c.call).txs tx = some t := ht
    rcases IssuedAs.of_step hstep (.inl ⟨t, hlive, rfl⟩) with ⟨-, rfl⟩ | ⟨t', ht', hcall⟩ | ⟨cm, hcm, htx, -⟩
    · exact .inl rfl
    · exact .inr (h.manned tx t' ht' (hcall ▸ hclaim))
    · exact absurd htx ((hnumbered'.live tx (by rw [hlive]; rfl)).2 cm hcm)
  · obtain ⟨lost, hbalance, hcard⟩ := h.balance
    have hshare : ∀ d, share (s.world.begin c.call) d = share s.world d := by
      intro d
      have howed : unanswered (s.world.begin c.call) d = unanswered s.world d := unanswered_of_history rfl
      rw [share, share, howed]
    have hbegun : share (s.world.begin c.call) { c with phase := .claiming s.world.nextTx } =
        share s.world c := by
      have hnone : s.world.history.find? (fun cm => cm.tx = s.world.nextTx) = none :=
        List.find?_eq_none.mpr fun cm hcm => by simpa using (hnumbered.past cm hcm).ne
      rw [hshare, share_of_idle hidle, share]
      simp [unanswered, Claimer.tx?, hnone]
    refine ⟨lost, ?_, ?_⟩
    · rw [Contention.setClaimer]
      dsimp only
      rw [hset, balance_split, hbegun, funext hshare, ← balance_split, ← hsplit]
      exact hbalance
    · rw [Contention.setClaimer]
      dsimp only
      rw [hset, errorCount_append, errorCount_cons, ← errorCount_cons c, ← errorCount_append, ← hsplit]
      exact hcard

theorem Ledger.signalled {f : Claimer → Claimer} (h : Ledger w₀ s) (hf : ∀ c, SameAccount c (f c)) :
    Ledger w₀ { s with claimers := s.claimers.map f } := by
  have hawaited : (s.claimers.map f).filterMap Claimer.tx? = s.claimers.filterMap Claimer.tx? := by
    rw [List.filterMap_map]
    exact List.filterMap_congr fun c _ => (hf c).tx?
  refine ⟨h.reaches, fun d hd tx htx => ?_, hawaited ▸ h.apart, fun tx t ht hclaim => ?_, ?_⟩
  · obtain ⟨c, hc, rfl⟩ := List.mem_map.mp hd
    rw [(hf c).tx?] at htx
    rw [(hf c).call]
    exact h.issued c hc tx htx
  · dsimp only
    rw [hawaited]
    exact h.manned tx t ht hclaim
  · obtain ⟨lost, hbalance, hcard⟩ := h.balance
    have hshare : s.claimers.map (share s.world ∘ f) = s.claimers.map (share s.world) :=
      List.map_congr_left fun c _ => (hf c).share
    have herrors : errorCount (s.claimers.map f) = errorCount s.claimers := by
      rw [errorCount, List.map_map]
      exact congrArg List.sum (List.map_congr_left fun c _ => (hf c).otherErrors)
    refine ⟨lost, ?_, herrors ▸ hcard⟩
    dsimp only
    rw [List.map_map, hshare]
    exact hbalance

theorem Ledger.of_initial (h : s.Initial) : Ledger s.world s := by
  have hidle : ∀ c ∈ s.claimers, c.tx? = none := fun c hc => by rw [Claimer.tx?, (h.ready c hc).1]
  refine ⟨.refl _, fun c hc tx htx => ?_, ?_, fun tx t ht _ => ?_, 0, ?_, Nat.zero_le _⟩
  · rw [hidle c hc] at htx
    cases htx
  · rw [List.filterMap_eq_nil_iff.mpr hidle]
    exact List.nodup_nil
  · rw [h.world.noTx] at ht
    cases ht
  · have hnone : ∀ c ∈ s.claimers, share s.world c = 0 := fun c hc => by
      rw [share_of_idle (hidle c hc), granted_singleton, (h.ready c hc).2.1]
      rfl
    have hsum : (s.claimers.map (share s.world)).sum = 0 :=
      List.sum_eq_zero fun m hm => by
        obtain ⟨c, hc, rfl⟩ := List.mem_map.mp hm
        exact hnone c hc
    rw [h.world.noHistory, hsum]
    rfl

theorem Ledger.step {a : ContentionAction} (h₀ : w₀.Initial) (h : Ledger w₀ s) (hstep : s.step a = some t) :
    Ledger w₀ t := by
  cases a with
  | database a =>
    obtain ⟨ha, hstep⟩ := Option.ite_none_right_eq_some.mp hstep
    obtain ⟨w, hworld, rfl⟩ := Option.map_eq_some_iff.mp hstep
    exact h.world h₀ hworld ha
  | go processIndex =>
    obtain rfl := Option.some.inj hstep
    refine h.signalled fun c => ?_
    split
    · rename_i hgo
      exact sameAccount_head (by rw [Claimer.tx?, hgo.2])
    · exact .refl c
  | terminate processIndex =>
    obtain rfl := Option.some.inj hstep
    refine h.signalled fun c => ?_
    split
    · exact ⟨rfl, rfl, rfl, rfl, rfl⟩
    · exact .refl c
  | begin i =>
    obtain ⟨c, hc, hstep⟩ := Option.bind_eq_some_iff.mp hstep
    obtain ⟨hphase, hstep⟩ := Option.ite_none_right_eq_some.mp hstep
    obtain ⟨w, hworld, rfl⟩ := Option.map_eq_some_iff.mp hstep
    exact h.begins h₀ hc hphase hworld
  | claimer i event =>
    obtain ⟨c, hc, hstep⟩ := Option.bind_eq_some_iff.mp hstep
    obtain ⟨c', hreact, rfl⟩ := Option.map_eq_some_iff.mp hstep
    have hissued : ∀ tx, c.tx? = some tx → ∀ call, IssuedAs s.world tx call → call = c.call :=
      fun tx htx => (h.issued c (List.mem_of_getElem? hc) tx htx).2
    exact h.resumes hc (resumes_of_move h₀ h.reaches hissued (claimerMove_of_react hreact))

theorem Ledger.of_reaches (h₀ : s.Initial) (h : Reaches Contention.step s t) : Ledger s.world t :=
  h.invariant (fun _ _ _ hledger => hledger.step h₀.world) (.of_initial h₀)

/-! ## After the claimers have stopped -/

def AllStopped (s : Contention) : Prop := ∀ c ∈ s.claimers, c.phase = .stopped

/-- Nobody claims any more, and the records stay as they are. -/
structure Rests (s t : Contention) : Prop where
  stopped : AllStopped t
  committed : committed t.world.history = committed s.world.history
  records : t.records = s.records

theorem AllStopped.idle (h : AllStopped s) : s.claimers.filterMap Claimer.tx? = [] :=
  List.filterMap_eq_nil_iff.mpr fun c hc => by rw [Claimer.tx?, h c hc]

theorem rests_of_step {a : ContentionAction} (h : Ledger w₀ s) (hstopped : AllStopped s)
    (hstep : s.step a = some t) : Rests s t := by
  cases a with
  | database a =>
    obtain ⟨ha, hstep⟩ := Option.ite_none_right_eq_some.mp hstep
    obtain ⟨w, hworld, rfl⟩ := Option.map_eq_some_iff.mp hstep
    refine ⟨hstopped, ?_, rfl⟩
    dsimp only
    rcases history_of_step hworld with hsame | ⟨tx, t, cm, ht, -, hcall, hsnoc⟩
    · rw [hsame]
    · have hnone : cm.claimed? = none := by
        -- a claim in flight would have a claimer
        cases hclaimed : cm.claimed? with
        | none => rfl
        | some step =>
          obtain ⟨workerId, ms, -, -, hclaim, -, -⟩ := Commit.claimed?_eq_some.mp hclaimed
          have hmem := h.manned tx t ht ⟨workerId, ms, hcall ▸ hclaim⟩
          rw [hstopped.idle] at hmem
          cases hmem
      rw [hsnoc, committed_concat, hnone]
      simp
  | go processIndex =>
    obtain rfl := Option.some.inj hstep
    have hsame : (s.claimers.map fun c =>
        if c.processIndex = processIndex ∧ c.phase = .ready then c.head else c) = s.claimers := by
      conv_rhs => rw [← List.map_id s.claimers]
      exact List.map_congr_left fun c hc => if_neg fun hgo => by simp [hstopped c hc] at hgo
    rw [hsame]
    exact ⟨hstopped, rfl, rfl⟩
  | terminate processIndex =>
    obtain rfl := Option.some.inj hstep
    refine ⟨fun d hd => ?_, rfl, ?_⟩
    · obtain ⟨c, hc, rfl⟩ := List.mem_map.mp hd
      split
      · exact hstopped c hc
      · exact hstopped c hc
    · rw [Contention.records, List.map_map]
      refine List.map_congr_left fun c _ => ?_
      dsimp only [Function.comp_apply]
      split <;> rfl
  | begin i =>
    obtain ⟨c, hc, hstep⟩ := Option.bind_eq_some_iff.mp hstep
    obtain ⟨hphase, -⟩ := Option.ite_none_right_eq_some.mp hstep
    rw [hstopped c (List.mem_of_getElem? hc)] at hphase
    cases hphase
  | claimer i event =>
    obtain ⟨c, hc, hstep⟩ := Option.bind_eq_some_iff.mp hstep
    obtain ⟨c', hreact, rfl⟩ := Option.map_eq_some_iff.mp hstep
    have hphase := hstopped c (List.mem_of_getElem? hc)
    cases claimerMove_of_react hreact with
    | claimed hphase' | notClaimed hphase' | rolledBack hphase' | lost hphase' | probe hphase'
    | probed hphase' =>
      rw [hphase] at hphase'
      cases hphase'
    | failed => simp [Claimer.react, hphase] at hreact

theorem rests_of_reaches (h₀ : w₀.Initial) (h : Ledger w₀ s) (hstopped : AllStopped s)
    (hreach : Reaches Contention.step s t) : Ledger w₀ t ∧ Rests s t := by
  refine hreach.rec_tail (motive := fun t => Ledger w₀ t ∧ Rests s t)
    ⟨h, hstopped, rfl, rfl⟩ fun t a u _ ih hstep => ?_
  obtain ⟨hledger, hrests⟩ := ih
  have hnext := rests_of_step hledger hrests.stopped hstep
  exact ⟨hledger.step h₀ hstep, hnext.stopped, hnext.committed.trans hrests.committed,
    hnext.records.trans hrests.records⟩

theorem sum_granted (claimers : List Claimer) :
    (claimers.map fun c => (granted [c.record] : Multiset Ownership)).sum =
      granted (claimers.map Claimer.record) := by
  induction claimers with
  | nil => rfl
  | cons c claimers ih =>
    rw [List.map_cons, List.sum_cons, ih, Multiset.coe_add]
    simp [granted]

/-- Claimers that have stopped know of every committed claim, but for those lost to errors. -/
theorem Ledger.settled (h : Ledger w₀ s) (hstopped : AllStopped s) : ∃ lost : List Ownership,
    (committed s.world.history).Perm (granted s.records ++ lost) ∧ lost.length ≤ errorCount s.claimers := by
  obtain ⟨lost, hbalance, hcard⟩ := h.balance
  have hshare : s.claimers.map (share s.world) =
      s.claimers.map fun c => (granted [c.record] : Multiset Ownership) :=
    List.map_congr_left fun c hc => share_of_idle (by rw [Claimer.tx?, hstopped c hc])
  refine ⟨lost.toList, ?_, by rwa [Multiset.length_toList]⟩
  rw [← Multiset.coe_eq_coe, ← Multiset.coe_add, Multiset.coe_toList, hbalance, hshare, sum_granted]
  rfl

/-- No contradiction between the sources, and nothing missing beyond what the errors account for. -/
structure AccountsForAll (report : OwnershipReport) (rows : List OwnedRow) (errors : ℕ) : Prop where
  duplicateOwnershipGrants : report.duplicateOwnershipGrants = 0
  duplicateClaimEvents : report.duplicateClaimEvents = 0
  clientGrantsWithoutMatchingEvent : report.clientGrantsWithoutMatchingEvent = 0
  events : report.durableClaimEvents = report.clientObservedGrants + report.eventsWithoutClientGrant
  generations : (rows.map fun row => row.leaseVersion.val).sum = (report.durableClaimEvents : ℤ)
  eventsWithoutClientGrant : report.eventsWithoutClientGrant ≤ errors
  rowsWithGenerationMismatch : report.rowsWithGenerationMismatch ≤ report.eventsWithoutClientGrant
  runningRowsWithWrongOwner : report.runningRowsWithWrongOwner ≤ report.eventsWithoutClientGrant

end Steps

/-- The events are read once the claimers have stopped, and the rows some time after that. -/
theorem audit_accounts_for_every_claim {s₀ s s' : Contention} (h₀ : s₀.Initial)
    (h : Reaches Contention.step s₀ s) (hstopped : AllStopped s) (h' : Reaches Contention.step s s')
    {events : List ClaimEventRow} {rows : List OwnedRow}
    (hevents : events.Perm (claimEventRows s.world.events)) (hrows : rows.Perm (ownedRows s'.world.steps)) :
    AccountsForAll (verifyOwnership s.records events rows) rows (errorCount s.claimers) := by
  have hledger := Ledger.of_reaches h₀ h
  obtain ⟨hledger', hrests⟩ := rests_of_reaches h₀.world hledger hstopped h'
  obtain ⟨lost, hbalance, herrors⟩ := hledger.settled hstopped
  have hserial := Sessions.serial_of_reaches h₀.world hledger.reaches
  have honce := committed_once hserial h₀.unclaimed
  rw [h₀.noEvent] at hserial
  have hrecorded : (recorded events).Perm (committed s.world.history) :=
    recorded_of_serial hserial ▸ hevents.map _
  have haccounts : Accounts s.records events lost :=
    ⟨(hrecorded.map _).nodup_iff.mpr honce, hrecorded.trans hbalance⟩
  have hfollow : RowsFollow events rows :=
    rowsFollow h₀.world h₀.unclaimed hledger'.reaches h₀.noEvent (hrests.committed ▸ hrecorded) hrows
  have hmissing : (verifyOwnership s.records events rows).eventsWithoutClientGrant = lost.length :=
    haccounts.eventsWithoutClientGrant
  exact
    { duplicateOwnershipGrants := haccounts.duplicates.1
      duplicateClaimEvents := haccounts.duplicates.2
      clientGrantsWithoutMatchingEvent := haccounts.matched
      events := by rw [haccounts.durableClaimEvents, haccounts.clientObservedGrants, hmissing]
      generations := by
        have hsum := sum_leaseVersion h₀.world h₀.unclaimed hledger'.reaches
        rw [hrests.committed, ← hrecorded.length_eq] at hsum
        rw [(hrows.map _).sum_eq, ownedRows, List.map_map]
        simpa [verifyOwnership, recorded, Function.comp_def] using hsum
      eventsWithoutClientGrant := hmissing ▸ herrors
      rowsWithGenerationMismatch := hmissing ▸ haccounts.rowsWithGenerationMismatch hfollow
      runningRowsWithWrongOwner := hmissing ▸ haccounts.runningRowsWithWrongOwner hfollow }

def churningClaimer (id : WorkerId) : Claimer where
  processIndex := 1
  leaseMs := 30000
  mode := .churn
  stopping := false
  phase := .ready
  record := ⟨id, 0, 0, 0, 0, [], []⟩

def churningPair : Contention := ⟨.singleStep, [churningClaimer "claimer-p1-c1", churningClaimer "claimer-p1-c2"]⟩

theorem initial_churningPair : churningPair.Initial where
  world := World.initial_singleStep
  unclaimed r hr := (World.fresh_singleStep r hr).toUnclaimed
  noEvent := rfl
  ready c hc := by
    rcases List.mem_cons.mp hc with rfl | hc
    · exact ⟨rfl, rfl, rfl⟩
    · obtain rfl := List.mem_singleton.mp hc
      exact ⟨rfl, rfl, rfl⟩

/-- The second claimer's claim commits, but its connection fails before the answer. -/
def lostClaim : List ContentionAction :=
  [.go 1, .begin 0, .begin 1] ++ List.replicate 6 (.database (.run 1)) ++ [.database (.commit 1)] ++
    List.replicate 4 (.database (.run 0)) ++ [.database (.commit 0)] ++
    [.terminate 1, .claimer 1 (.failed (.other "Connection terminated")), .claimer 0 .notClaimed]

theorem audit_accounts_for_every_claim_lost : ∃ s, run Contention.step churningPair lostClaim = some s ∧
    (verifyOwnership s.records (claimEventRows s.world.events) (ownedRows s.world.steps)).durableClaimEvents = 1 ∧
    AccountsForAll (verifyOwnership s.records (claimEventRows s.world.events) (ownedRows s.world.steps))
      (ownedRows s.world.steps) 1 := by
  have hrun : (run Contention.step churningPair lostClaim).map (fun s =>
      (s.claimers.map Claimer.phase, errorCount s.claimers, (claimEventRows s.world.events).length)) =
      some ([.stopped, .stopped], 1, 1) := by decide +kernel
  obtain ⟨s, hs, hvalues⟩ := Option.map_eq_some_iff.mp hrun
  obtain ⟨hphases, hrest⟩ := Prod.mk.inj hvalues
  obtain ⟨herrors, hevents⟩ := Prod.mk.inj hrest
  have hstopped : AllStopped s := by
    intro c hc
    have hmem : c.phase ∈ [ClaimerPhase.stopped, .stopped] := hphases ▸ List.mem_map_of_mem hc
    simpa using hmem
  refine ⟨s, hs, hevents, ?_⟩
  rw [← herrors]
  exact audit_accounts_for_every_claim initial_churningPair ⟨lostClaim, hs⟩ hstopped (.refl s) (.refl _) (.refl _)

end DurableRunner.Guarantees
