import DurableRunner.TransitionSystem.Fairness

/-! # Loops that repeat their calls until a signal aborts

A round awaits calls, whose errors are caught, and sleeps that an abort cuts
short. The signal is read at the head of each round and where a sleep says so.
-/
namespace DurableRunner.TransitionSystem

/-- What a loop awaits in its rounds. -/
inductive Await (Call : Type*) where
  | call (call : Call)
  /-- A sleep, after which the loop may leave if the signal has aborted. -/
  | sleep (leaves : Bool)
deriving DecidableEq

structure IntervalLoop (Call : Type*) where
  first : Await Call
  others : List (Await Call)

/-- What the loop awaits now, with the rest of the round. -/
inductive IntervalPhase (Call : Type*) where
  | calling (rest : List (Await Call)) (answered : Bool)
  | sleeping (leaves : Bool) (rest : List (Await Call))
  | returned
deriving DecidableEq

structure IntervalState (Call : Type*) where
  phase : IntervalPhase Call
  aborted : Bool
  sent : List Call
deriving DecidableEq

inductive IntervalAction where
  | abort
  /-- The call has returned or thrown. -/
  | answered
  /-- The loop goes on after its await. -/
  | resume
deriving DecidableEq

variable {Call : Type*}

def callsOf (awaits : List (Await Call)) : List Call :=
  awaits.filterMap fun
    | .call call => some call
    | .sleep _ => none

/-- The calls that are still sent under an abort. -/
def owedBy : List (Await Call) → List Call
  | [] => []
  | .call call :: rest => call :: owedBy rest
  | .sleep leaves :: rest => if leaves then [] else owedBy rest

namespace IntervalLoop

def round (l : IntervalLoop Call) : List (Await Call) := l.first :: l.others

def calls (l : IntervalLoop Call) : List Call := callsOf l.round

end IntervalLoop

namespace IntervalPhase

def owed : IntervalPhase Call → List Call
  | .calling rest _ => owedBy rest
  | .sleeping leaves rest => owedBy (.sleep leaves :: rest)
  | .returned => []

def Within (l : IntervalLoop Call) : IntervalPhase Call → Prop
  | .calling rest _ => rest <:+ l.others
  | .sleeping leaves rest => .sleep leaves :: rest <:+ l.round
  | .returned => True

/-- A bound on the moves that are left under an abort. -/
def rank : IntervalPhase Call → ℕ
  | .calling rest answered => 2 * rest.length + if answered then 1 else 2
  | .sleeping _ rest => 2 * rest.length + 1
  | .returned => 0

/-- A bound on the moves until the next call of a loop whose signal stays clear. -/
def untilCall (l : IntervalLoop Call) : IntervalPhase Call → ℕ
  | .calling rest answered =>
    2 * rest.length + (if answered then 1 else 2) + if callsOf rest = [] then 2 * l.round.length else 0
  | .sleeping _ rest => 2 * rest.length + 1 + if callsOf rest = [] then 2 * l.round.length else 0
  | .returned => 0

end IntervalPhase

namespace IntervalState
variable (l : IntervalLoop Call) (s : IntervalState Call)

def await (rest : List (Await Call)) : Await Call → IntervalState Call
  | .call call => { s with phase := .calling rest false, sent := s.sent ++ [call] }
  | .sleep leaves => { s with phase := .sleeping leaves rest }

def head : IntervalState Call :=
  if s.aborted then { s with phase := .returned } else s.await l.others l.first

def proceed : List (Await Call) → IntervalState Call
  | [] => s.head l
  | a :: rest => s.await rest a

/-- The loop starts, perhaps with a signal that has aborted already. -/
def start (aborted : Bool) : IntervalState Call := head l ⟨.returned, aborted, []⟩

def wake (leaves : Bool) (rest : List (Await Call)) : IntervalState Call :=
  if leaves && s.aborted then { s with phase := .returned } else s.proceed l rest

def step : IntervalAction → Option (IntervalState Call)
  | .abort => some { s with aborted := true }
  | .answered =>
    match s.phase with
    | .calling rest false => some { s with phase := .calling rest true }
    | _ => none
  | .resume =>
    match s.phase with
    | .calling rest true => some (s.proceed l rest)
    | .sleeping leaves rest => some (s.wake l leaves rest)
    | _ => none

end IntervalState

section Steps
variable {l : IntervalLoop Call} {s t : IntervalState Call} {a : IntervalAction}

inductive IntervalMove (l : IntervalLoop Call) (s : IntervalState Call) :
    IntervalAction → IntervalState Call → Prop
  | abort : IntervalMove l s .abort { s with aborted := true }
  | answered {rest} (hphase : s.phase = .calling rest false) :
    IntervalMove l s .answered { s with phase := .calling rest true }
  | called {rest} (hphase : s.phase = .calling rest true) :
    IntervalMove l s .resume (s.proceed l rest)
  | woke {leaves rest} (hphase : s.phase = .sleeping leaves rest) :
    IntervalMove l s .resume (s.wake l leaves rest)

theorem intervalMove_of_step (h : s.step l a = some t) : IntervalMove l s a t := by
  cases a with
  | abort =>
    obtain rfl := Option.some.inj h
    exact .abort
  | answered =>
    simp only [IntervalState.step] at h
    split at h
    · rename_i hphase
      obtain rfl := Option.some.inj h
      exact .answered hphase
    · cases h
  | resume =>
    simp only [IntervalState.step] at h
    split at h
    · rename_i hphase
      obtain rfl := Option.some.inj h
      exact .called hphase
    · rename_i hphase
      obtain rfl := Option.some.inj h
      exact .woke hphase
    · cases h

theorem step_of_returned (hphase : s.phase = .returned) (ha : a ≠ .abort) : s.step l a = none := by
  cases a with
  | abort => exact absurd rfl ha
  | answered | resume => simp [IntervalState.step, hphase]

/-- What is sent completes whole rounds. -/
def InRounds (l : IntervalLoop Call) (s : IntervalState Call) : Prop :=
  s.phase.Within l ∧ ∃ n, s.sent ++ s.phase.owed = (List.replicate n l.calls).flatten

theorem owed_await (rest : List (Await Call)) (first : Await Call) :
    (s.await rest first).sent ++ (s.await rest first).phase.owed = s.sent ++ owedBy (first :: rest) := by
  cases first <;> simp [IntervalState.await, IntervalPhase.owed, owedBy]

theorem owedBy_of_not_leaves {awaits : List (Await Call)} (h : .sleep true ∉ awaits) :
    owedBy awaits = callsOf awaits := by
  induction awaits with
  | nil => rfl
  | cons first rest ih =>
    rw [List.mem_cons, not_or] at h
    have hrest := ih h.2
    cases first with
    | call call => simpa [owedBy, callsOf] using hrest
    | sleep leaves =>
      cases leaves with
      | false => simpa [owedBy, callsOf] using hrest
      | true => exact absurd rfl h.1

theorem inRounds_await {n : ℕ} {first : Await Call} {rest : List (Await Call)}
    (hsuffix : first :: rest <:+ l.round)
    (hsent : s.sent ++ owedBy (first :: rest) = (List.replicate n l.calls).flatten) :
    InRounds l (s.await rest first) := by
  refine ⟨?_, n, (owed_await rest first).trans hsent⟩
  cases first with
  | sleep leaves => exact hsuffix
  | call call =>
    rcases List.suffix_cons_iff.mp hsuffix with heq | hothers
    · exact (List.cons.inj heq).2 ▸ List.suffix_refl _
    · exact (List.suffix_cons _ _).trans hothers

theorem inRounds_head (hstays : .sleep true ∉ l.round) {n : ℕ}
    (hsent : s.sent = (List.replicate n l.calls).flatten) : InRounds l (s.head l) := by
  unfold IntervalState.head
  split
  · exact ⟨trivial, n, by simpa [IntervalPhase.owed] using hsent⟩
  · refine inRounds_await (n := n + 1) (List.suffix_refl _) ?_
    show s.sent ++ owedBy l.round = _
    rw [owedBy_of_not_leaves hstays, hsent, List.replicate_succ', List.flatten_append]
    simp [IntervalLoop.calls]

theorem inRounds_proceed (hstays : .sleep true ∉ l.round) {n : ℕ} {rest : List (Await Call)}
    (hsuffix : rest <:+ l.round) (hsent : s.sent ++ owedBy rest = (List.replicate n l.calls).flatten) :
    InRounds l (s.proceed l rest) := by
  cases rest with
  | nil => exact inRounds_head hstays (by simpa [owedBy] using hsent)
  | cons first rest => exact inRounds_await hsuffix hsent

theorem InRounds.step (hstays : .sleep true ∉ l.round) (h : InRounds l s)
    (hstep : s.step l a = some t) : InRounds l t := by
  obtain ⟨hwithin, n, hsent⟩ := h
  cases intervalMove_of_step hstep with
  | abort => exact ⟨hwithin, n, hsent⟩
  | answered hphase =>
    rw [hphase] at hwithin hsent
    exact ⟨hwithin, n, hsent⟩
  | called hphase =>
    rw [hphase] at hwithin hsent
    exact inRounds_proceed hstays (hwithin.trans (List.suffix_cons _ _)) hsent
  | @woke leaves rest hphase =>
    rw [hphase] at hwithin hsent
    have hleaves : leaves = false := by
      by_contra hleaves
      rw [Bool.not_eq_false] at hleaves
      subst hleaves
      exact hstays (hwithin.subset List.mem_cons_self)
    subst hleaves
    exact inRounds_proceed hstays ((List.suffix_cons _ _).trans hwithin) hsent

theorem inRounds_of_reaches (hstays : .sleep true ∉ l.round) {aborted : Bool}
    (h : Reaches (IntervalState.step l) (.start l aborted) s) : InRounds l s := by
  have hstart : InRounds l (.start l aborted) := inRounds_head (n := 0) hstays rfl
  exact h.invariant (fun _ _ _ hs hstep => hs.step hstays hstep) hstart

theorem aborted_proceed (rest : List (Await Call)) : (s.proceed l rest).aborted = s.aborted := by
  have hawait : ∀ rest a, (s.await rest a).aborted = s.aborted := by
    intro rest a
    cases a <;> rfl
  cases rest with
  | cons a rest => exact hawait rest a
  | nil =>
    show (s.head l).aborted = s.aborted
    unfold IntervalState.head
    split
    · rfl
    · exact hawait _ _

/-- Under an abort the loop sends what it owes. -/
theorem owed_proceed (haborted : s.aborted = true) (rest : List (Await Call)) :
    ∃ calls, (s.proceed l rest).sent = s.sent ++ calls ∧
      calls ++ (s.proceed l rest).phase.owed = owedBy rest := by
  cases rest with
  | nil =>
    refine ⟨[], ?_, ?_⟩ <;>
      simp [IntervalState.proceed, IntervalState.head, haborted, IntervalPhase.owed, owedBy]
  | cons first rest =>
    cases first with
    | call call => exact ⟨[call], rfl, rfl⟩
    | sleep leaves => exact ⟨[], (List.append_nil _).symm, rfl⟩

theorem owed_of_step (haborted : s.aborted = true) (hstep : s.step l a = some t) :
    t.aborted = true ∧ ∃ calls, t.sent = s.sent ++ calls ∧ calls ++ t.phase.owed = s.phase.owed := by
  cases intervalMove_of_step hstep with
  | abort => exact ⟨rfl, [], (List.append_nil _).symm, rfl⟩
  | answered hphase =>
    rw [hphase]
    exact ⟨haborted, [], (List.append_nil _).symm, rfl⟩
  | called hphase =>
    rw [hphase]
    exact ⟨(aborted_proceed _).trans haborted, owed_proceed haborted _⟩
  | @woke leaves rest hphase =>
    rw [hphase]
    cases leaves with
    | true =>
      rw [IntervalState.wake, haborted]
      exact ⟨rfl, [], (List.append_nil _).symm, rfl⟩
    | false => exact ⟨(aborted_proceed _).trans haborted, owed_proceed haborted rest⟩

theorem rank_proceed_lt (haborted : s.aborted = true) (rest : List (Await Call)) :
    (s.proceed l rest).phase.rank < 2 * rest.length + 1 := by
  cases rest with
  | nil => simp [IntervalState.proceed, IntervalState.head, haborted, IntervalPhase.rank]
  | cons a rest =>
    cases a with
    | call call =>
      show 2 * rest.length + 2 < 2 * (rest.length + 1) + 1
      omega
    | sleep leaves =>
      show 2 * rest.length + 1 < 2 * (rest.length + 1) + 1
      omega

/-- Under an abort every other step brings the loop closer to its return. -/
theorem rank_of_step (haborted : s.aborted = true) (hstep : s.step l a = some t) (ha : a ≠ .abort) :
    t.phase.rank < s.phase.rank := by
  cases intervalMove_of_step hstep with
  | abort => exact absurd rfl ha
  | answered hphase =>
    rw [hphase]
    simp [IntervalPhase.rank]
  | called hphase =>
    rw [hphase]
    exact rank_proceed_lt haborted _
  | @woke leaves rest hphase =>
    rw [hphase]
    unfold IntervalState.wake
    split
    · simp [IntervalPhase.rank]
    · exact rank_proceed_lt haborted _

theorem not_returned_await (rest : List (Await Call)) (first : Await Call) :
    (s.await rest first).phase ≠ .returned := by
  cases first <;> nofun

theorem not_returned_proceed (hnot : s.aborted = false) (rest : List (Await Call)) :
    (s.proceed l rest).phase ≠ .returned := by
  cases rest with
  | cons first rest => exact not_returned_await rest first
  | nil =>
    show (s.head l).phase ≠ .returned
    unfold IntervalState.head
    rw [hnot]
    exact not_returned_await _ _

theorem not_returned_of_step (hnot : s.aborted = false) (hstep : s.step l a = some t)
    (ha : a ≠ .abort) : t.aborted = false ∧ t.phase ≠ .returned := by
  cases intervalMove_of_step hstep with
  | abort => exact absurd rfl ha
  | answered => exact ⟨hnot, nofun⟩
  | called => exact ⟨(aborted_proceed _).trans hnot, not_returned_proceed hnot _⟩
  | woke =>
    rw [IntervalState.wake, hnot, Bool.and_false]
    exact ⟨(aborted_proceed _).trans hnot, not_returned_proceed hnot _⟩

/-- The calls return or throw, and whatever can go on does. -/
structure FairInterval (e : Execution (IntervalState.step l)) : Prop where
  answers : e.WeaklyFair fun a => a = .answered
  resumes : e.WeaklyFair fun a => a = .resume

theorem exists_enabled (hphase : s.phase ≠ .returned) :
    ∃ kind : IntervalAction, kind ≠ .abort ∧
      ∀ t : IntervalState Call, t.phase = s.phase → Execution.Enabled (IntervalState.step l) (· = kind) t := by
  cases h : s.phase with
  | returned => exact absurd h hphase
  | calling rest answered =>
    cases answered with
    | false => exact ⟨.answered, nofun, fun t ht => ⟨_, _, rfl, by simp [IntervalState.step, ht]; rfl⟩⟩
    | true => exact ⟨.resume, nofun, fun t ht => ⟨_, _, rfl, by simp [IntervalState.step, ht]; rfl⟩⟩
  | sleeping leaves rest =>
    exact ⟨.resume, nofun, fun t ht => ⟨_, _, rfl, by simp [IntervalState.step, ht]; rfl⟩⟩

/-- A loop whose signal has aborted returns. -/
theorem aborted_leadsTo_returned {e : Execution (IntervalState.step l)} (hfair : FairInterval e) :
    e.LeadsTo (fun s => s.aborted = true) fun s => s.phase = .returned := by
  have hranked : ∀ n, e.LeadsTo (fun s => s.aborted = true ∧ s.phase.rank = n)
      fun s => s.phase = .returned := by
    intro n
    induction n using Nat.strong_induction_on with
    | _ n ih =>
      rintro k ⟨haborted, hrank⟩
      by_cases hreturned : (e.state k).phase = .returned
      · exact ⟨k, le_rfl, hreturned⟩
      · obtain ⟨kind, hkind, henabled⟩ := exists_enabled (l := l) hreturned
        have hfairKind : e.WeaklyFair fun a => a = kind := by
          cases kind with
          | abort => exact absurd rfl hkind
          | answered => exact hfair.answers
          | resume => exact hfair.resumes
        have hless : e.LeadsTo (fun s => s.aborted = true ∧ s.phase = (e.state k).phase)
            fun s => s.aborted = true ∧ s.phase.rank < n := by
          refine .of_weaklyFair hfairKind (fun s hs => henabled s hs.2) ?_ ?_
          · rintro s a t ⟨hs, hphase⟩ hstep
            by_cases ha : a = .abort
            · subst ha
              obtain rfl := Option.some.inj hstep
              exact .inl ⟨rfl, hphase⟩
            · have hlt := rank_of_step hs hstep ha
              rw [hphase, hrank] at hlt
              exact .inr ⟨(owed_of_step hs hstep).1, hlt⟩
          · rintro s a t ⟨hs, hphase⟩ rfl hstep
            have hlt := rank_of_step hs hstep hkind
            rw [hphase, hrank] at hlt
            exact ⟨(owed_of_step hs hstep).1, hlt⟩
        obtain ⟨m, hm, haborted', hlt⟩ := hless k ⟨haborted, rfl⟩
        obtain ⟨j, hj, hdone⟩ := ih _ hlt m ⟨haborted', rfl⟩
        exact ⟨j, hm.trans hj, hdone⟩
  exact fun n hn => hranked _ n ⟨hn, rfl⟩

/-- A loop whose signal stays clear comes closer to its next call, or sends it. -/
theorem untilCall_proceed (hcalls : l.calls ≠ []) (hnot : s.aborted = false) (rest : List (Await Call)) :
    s.sent.length < (s.proceed l rest).sent.length ∨ ((s.proceed l rest).sent = s.sent ∧
      (s.proceed l rest).phase.untilCall l <
        2 * rest.length + 1 + if callsOf rest = [] then 2 * l.round.length else 0) := by
  cases rest with
  | cons first rest =>
    cases first with
    | call call => exact .inl (by simp [IntervalState.proceed, IntervalState.await])
    | sleep leaves =>
      refine .inr ⟨rfl, ?_⟩
      simp [IntervalState.proceed, IntervalState.await, IntervalPhase.untilCall, callsOf]
  | nil =>
    rw [IntervalState.proceed, IntervalState.head, hnot, if_neg (by simp)]
    cases hfirst : l.first with
    | call call => exact .inl (by simp [IntervalState.await])
    | sleep leaves =>
      refine .inr ⟨rfl, ?_⟩
      have hothers : callsOf l.others ≠ [] := by
        simpa [IntervalLoop.calls, IntervalLoop.round, hfirst, callsOf] using hcalls
      show 2 * l.others.length + 1 + (if callsOf l.others = [] then 2 * l.round.length else 0) <
        2 * 0 + 1 + 2 * (l.others.length + 1)
      rw [if_neg hothers]
      omega

theorem untilCall_of_step (hcalls : l.calls ≠ []) (hnot : s.aborted = false)
    (hstep : s.step l a = some t) (ha : a ≠ .abort) : s.sent.length < t.sent.length ∨
      (t.sent = s.sent ∧ t.phase.untilCall l < s.phase.untilCall l) := by
  cases intervalMove_of_step hstep with
  | abort => exact absurd rfl ha
  | answered hphase =>
    rw [hphase]
    exact .inr ⟨rfl, by simp [IntervalPhase.untilCall]⟩
  | called hphase =>
    rw [hphase]
    exact untilCall_proceed hcalls hnot _
  | woke hphase =>
    rw [hphase, IntervalState.wake, hnot, Bool.and_false]
    exact untilCall_proceed hcalls hnot _

/-- A loop goes on sending until its signal aborts. -/
theorem sends_again {e : Execution (IntervalState.step l)} (hfair : FairInterval e)
    (hcalls : l.calls ≠ []) {n : ℕ} (hphase : (e.state n).phase ≠ .returned)
    (hnot : ∀ m, n ≤ m → (e.state m).aborted = false) :
    ∃ m, n ≤ m ∧ (e.state n).sent.length < (e.state m).sent.length := by
  have hranked : ∀ k calls, e.LeadsTo (fun s => s.phase ≠ .returned ∧ s.aborted = false ∧
      s.sent.length = calls ∧ s.phase.untilCall l = k) fun s => s.aborted = true ∨ calls < s.sent.length := by
    intro k calls
    induction k using Nat.strong_induction_on with
    | _ k ih =>
      rintro n ⟨hphase, hclear, hsent, hrank⟩
      obtain ⟨kind, hkind, henabled⟩ := exists_enabled (l := l) hphase
      have hfairKind : e.WeaklyFair fun a => a = kind := by
        cases kind with
        | abort => exact absurd rfl hkind
        | answered => exact hfair.answers
        | resume => exact hfair.resumes
      have hmoves : ∀ (s : IntervalState Call) a t, s.phase = (e.state n).phase → s.aborted = false → s.sent.length = calls →
          s.step l a = some t → a ≠ .abort → (t.aborted = true ∨ calls < t.sent.length) ∨
            t.phase ≠ .returned ∧ t.aborted = false ∧ t.sent.length = calls ∧ t.phase.untilCall l < k := by
        intro s a t hsame hs hlength hstep ha
        rcases untilCall_of_step hcalls hs hstep ha with hmore | ⟨hkept, hless⟩
        · exact .inl (.inr (hlength ▸ hmore))
        · obtain ⟨ht, hreturned⟩ := not_returned_of_step hs hstep ha
          rw [hsame, hrank] at hless
          exact .inr ⟨hreturned, ht, hkept ▸ hlength, hless⟩
      have hless : e.LeadsTo (fun s => s.phase = (e.state n).phase ∧ s.aborted = false ∧ s.sent.length = calls)
          fun s => (s.aborted = true ∨ calls < s.sent.length) ∨
            s.phase ≠ .returned ∧ s.aborted = false ∧ s.sent.length = calls ∧ s.phase.untilCall l < k := by
        refine .of_weaklyFair hfairKind (fun s hs => henabled s hs.1) ?_ ?_
        · rintro s a t ⟨hsame, hs, hlength⟩ hstep
          by_cases ha : a = .abort
          · subst ha
            obtain rfl := Option.some.inj hstep
            exact .inr (.inl (.inl rfl))
          · exact .inr (hmoves s a t hsame hs hlength hstep ha)
        · rintro s a t ⟨hsame, hs, hlength⟩ rfl hstep
          exact hmoves s _ t hsame hs hlength hstep hkind
      obtain ⟨m, hm, hdone | ⟨hphase', hclear', hsent', hlt⟩⟩ := hless n ⟨rfl, hclear, hsent⟩
      · exact ⟨m, hm, hdone⟩
      · obtain ⟨j, hj, hdone⟩ := ih _ hlt m ⟨hphase', hclear', hsent', rfl⟩
        exact ⟨j, hm.trans hj, hdone⟩
  obtain ⟨m, hm, haborted | hmore⟩ := hranked _ _ n ⟨hphase, hnot n le_rfl, rfl, rfl⟩
  · rw [hnot m hm] at haborted
    cases haborted
  · exact ⟨m, hm, hmore⟩

end Steps
end DurableRunner.TransitionSystem
