import DurableRunner.Benchmarks.Agreement
import DurableRunner.Sessions.Contested
import DurableRunner.Worker.Fleet

/-! # Claimers over one table

The processes of the contention benchmark: each runs claim loops of its own,
one session each, and records what it is told. Every await of a loop is a phase.
-/
namespace DurableRunner.Benchmarks
open Schema Operations
open Sessions (World TxId)
open Worker (isOver outcome? answersClaim)

inductive ClaimerMode where
  /-- Stop once no READY row remains. -/
  | backlog
  /-- Run until the process is told to stop. -/
  | churn
deriving DecidableEq

inductive ClaimError where
  | consistency
  | other (text : String)
deriving DecidableEq

inductive ClaimerPhase where
  /-- The line `go`. -/
  | ready
  /-- `claimNextStep`, before its transaction has begun. -/
  | calling
  | claiming (tx : TxId)
  /-- The query for a READY row, with its answer once it has been evaluated. -/
  | probing (any : Option Bool)
  | stopped
deriving DecidableEq

structure Claimer where
  processIndex : ℕ
  leaseMs : ℤ
  mode : ClaimerMode
  /-- The flag of its process. -/
  stopping : Bool
  phase : ClaimerPhase
  record : ClaimerRecord
deriving DecidableEq

inductive ClaimerEvent where
  | claimed (step : ClaimedStep)
  | notClaimed
  | failed (error : ClaimError)
  /-- The database evaluates the query for a READY row. -/
  | probe
  | probeAnswered

namespace Claimer
variable (c : Claimer)

def call : Call := .claimNextStep c.record.id c.leaseMs

/-- `while (!stopping)`. -/
def head : Claimer :=
  if c.stopping then { c with phase := .stopped }
  else
    { c with
      phase := .calling
      record := { c.record with attempts := c.record.attempts + 1 } }

def granted (step : ClaimedStep) : Claimer :=
  { c with
    record := { c.record with
      grants := c.record.grants ++ [Grant.mk (uuidText step.id) step.leaseVersion step.attemptCount] } }.head

def emptied : Claimer :=
  let c := { c with record := { c.record with empty := c.record.empty + 1 } }
  match c.mode with
  | .backlog => { c with phase := .probing none }
  | .churn => c.head

def caught : ClaimError → Claimer
  | .consistency =>
    { c with record := { c.record with consistencyErrors := c.record.consistencyErrors + 1 } }.head
  | .other text =>
    { c with
      record := { c.record with
        otherErrors := c.record.otherErrors + 1
        otherErrorSamples :=
          if c.record.otherErrorSamples.length < 5 then c.record.otherErrorSamples ++ [text]
          else c.record.otherErrorSamples } }.head

/-- Without a READY row the loop ends. -/
def probed (any : Bool) : Claimer := if any then c.head else { c with phase := .stopped }

/-- The loop goes on from its await. A `ClaimConsistencyError` has rolled the transaction back;
any other error may come from one that committed. -/
def react (w : World) : ClaimerEvent → Option Claimer
  | .claimed step =>
    match c.phase with
    | .claiming tx => if answersClaim w (some tx) (.claimed step) then some (c.granted step) else none
    | _ => none
  | .notClaimed =>
    match c.phase with
    | .claiming tx => if answersClaim w (some tx) .notClaimed then some c.emptied else none
    | _ => none
  | .failed error =>
    match c.phase, error with
    | .claiming tx, .consistency =>
      if isOver w (some tx) && (outcome? w (some tx)).isNone then some (c.caught error) else none
    | .claiming tx, .other _ => if isOver w (some tx) then some (c.caught error) else none
    | .calling, .other _ | .probing _, .other _ => some (c.caught error)
    | _, _ => none
  | .probe =>
    match c.phase with
    | .probing none =>
      some { c with phase := .probing (some (w.steps.rows.any fun r => r.status = .ready)) }
    | _ => none
  | .probeAnswered =>
    match c.phase with
    | .probing (some any) => some (c.probed any)
    | _ => none

end Claimer

structure Contention where
  world : World
  claimers : List Claimer

inductive ContentionAction where
  /-- A move of the database, or a call of another program. -/
  | database (action : Sessions.Action)
  | go (processIndex : ℕ)
  /-- SIGTERM. -/
  | terminate (processIndex : ℕ)
  /-- BEGIN of a claim. -/
  | begin (i : ℕ)
  | claimer (i : ℕ) (event : ClaimerEvent)

def claimsNothing : Sessions.Action → Bool
  | .start (.claimNextStep _ _) => false
  | _ => true

namespace Contention
variable (s : Contention)

def setClaimer (i : ℕ) (c : Claimer) : Contention := { s with claimers := s.claimers.set i c }

/-- The records the processes write at their exit. -/
def records : List ClaimerRecord := s.claimers.map Claimer.record

def step (s : Contention) : ContentionAction → Option Contention
  | .database a =>
    if claimsNothing a then (Sessions.step s.world a).map fun world => { s with world } else none
  | .go processIndex =>
    some { s with claimers := s.claimers.map fun c =>
      if c.processIndex = processIndex ∧ c.phase = .ready then c.head else c }
  | .terminate processIndex =>
    some { s with claimers := s.claimers.map fun c =>
      if c.processIndex = processIndex then { c with stopping := true } else c }
  | .begin i =>
    (s.claimers[i]?).bind fun c =>
      if c.phase = .calling then
        (Sessions.step s.world (.start c.call)).map fun world =>
          { s with world }.setClaimer i { c with phase := .claiming s.world.nextTx }
      else none
  | .claimer i event =>
    (s.claimers[i]?).bind fun c => (c.react s.world event).map fun c' => s.setClaimer i c'

structure Initial (s : Contention) : Prop where
  world : s.world.Initial
  unclaimed : ∀ r ∈ s.world.steps.rows, r.Unclaimed
  noEvent : s.world.events = []
  ready : ∀ c ∈ s.claimers, c.phase = .ready ∧ c.record.grants = [] ∧ c.record.otherErrors = 0

end Contention

/-! ## What a reaction does -/

def Claimer.tx? (c : Claimer) : Option TxId :=
  match c.phase with
  | .claiming tx => some tx
  | _ => none

inductive ClaimerMove (w : World) (c : Claimer) : ClaimerEvent → Claimer → Prop
  | claimed {step : ClaimedStep} {tx : TxId} (hphase : c.phase = .claiming tx)
      (hanswers : answersClaim w (some tx) (.claimed step) = true) :
    ClaimerMove w c (.claimed step) (c.granted step)
  | notClaimed {tx : TxId} (hphase : c.phase = .claiming tx)
      (hanswers : answersClaim w (some tx) .notClaimed = true) :
    ClaimerMove w c .notClaimed c.emptied
  | rolledBack {tx : TxId} (hphase : c.phase = .claiming tx) (hover : isOver w (some tx) = true)
      (hnone : outcome? w (some tx) = none) :
    ClaimerMove w c (.failed .consistency) (c.caught .consistency)
  | lost {tx : TxId} {text : String} (hphase : c.phase = .claiming tx)
      (hover : isOver w (some tx) = true) :
    ClaimerMove w c (.failed (.other text)) (c.caught (.other text))
  | failed {text : String} (hidle : c.tx? = none) :
    ClaimerMove w c (.failed (.other text)) (c.caught (.other text))
  | probe (hphase : c.phase = .probing none) :
    ClaimerMove w c .probe
      { c with phase := .probing (some (w.steps.rows.any fun r => r.status = .ready)) }
  | probed {any : Bool} (hphase : c.phase = .probing (some any)) :
    ClaimerMove w c .probeAnswered (c.probed any)

theorem claimerMove_of_react {w : World} {c c' : Claimer} {event : ClaimerEvent}
    (h : c.react w event = some c') : ClaimerMove w c event c' := by
  cases event with
  | claimed step =>
    simp only [Claimer.react] at h
    split at h
    · rename_i tx hphase
      obtain ⟨hanswers, h⟩ := Option.ite_none_right_eq_some.mp h
      obtain rfl := Option.some.inj h
      exact .claimed hphase hanswers
    · cases h
  | notClaimed =>
    simp only [Claimer.react] at h
    split at h
    · rename_i tx hphase
      obtain ⟨hanswers, h⟩ := Option.ite_none_right_eq_some.mp h
      obtain rfl := Option.some.inj h
      exact .notClaimed hphase hanswers
    · cases h
  | failed error =>
    simp only [Claimer.react] at h
    split at h
    · rename_i tx hphase
      obtain ⟨hguard, h⟩ := Option.ite_none_right_eq_some.mp h
      obtain rfl := Option.some.inj h
      obtain ⟨hover, hnone⟩ := (Bool.and_eq_true _ _).mp hguard
      exact .rolledBack hphase hover (Option.isNone_iff_eq_none.mp hnone)
    · rename_i tx text hphase
      obtain ⟨hover, h⟩ := Option.ite_none_right_eq_some.mp h
      obtain rfl := Option.some.inj h
      exact .lost hphase hover
    · rename_i hphase
      obtain rfl := Option.some.inj h
      exact .failed (by rw [Claimer.tx?, hphase])
    · rename_i hphase
      obtain rfl := Option.some.inj h
      exact .failed (by rw [Claimer.tx?, hphase])
    · cases h
  | probe =>
    simp only [Claimer.react] at h
    split at h
    · rename_i hphase
      obtain rfl := Option.some.inj h
      exact .probe hphase
    · cases h
  | probeAnswered =>
    simp only [Claimer.react] at h
    split at h
    · rename_i any hphase
      obtain rfl := Option.some.inj h
      exact .probed hphase
    · cases h

section Fields
variable (c : Claimer)

@[simp] theorem head_tx? : c.head.tx? = none := by
  unfold Claimer.head
  split <;> rfl

@[simp] theorem head_grants : c.head.record.grants = c.record.grants := by
  unfold Claimer.head
  split <;> rfl

@[simp] theorem head_otherErrors : c.head.record.otherErrors = c.record.otherErrors := by
  unfold Claimer.head
  split <;> rfl

@[simp] theorem head_call : c.head.call = c.call := by
  unfold Claimer.head
  split <;> rfl

@[simp] theorem head_id : c.head.record.id = c.record.id := by
  unfold Claimer.head
  split <;> rfl

end Fields
end DurableRunner.Benchmarks
