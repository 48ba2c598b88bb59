import DurableRunner.Operations.Calls
import DurableRunner.TransitionSystem.Runs
import Mathlib.Data.List.Sort

/-! # Concurrent transactions over the step tables

READ COMMITTED at the granularity of statements and row-lock acquisitions. A
transaction keeps its row versions and events to itself until COMMIT, an owner
write waits for a held row, a `SKIP LOCKED` select passes over it, and a row
that changed since the snapshot is judged again in its newest committed version.
A statement is one move and reads the clock once: `clock_timestamp()` is volatile,
but the readings within one statement (twice in the renewal's UPDATE, once a row
in the selects of the sweeps) are taken as equal.
-/
namespace DurableRunner.Sessions
open Schema Operations TransitionSystem

abbrev TxId := ℕ

/-- A locked row that passed the candidate predicate, and when it was judged. -/
@[ext] structure Pick where
  id : StepId
  checkedAt : Timestamp
deriving DecidableEq

/-- The result of the UPDATE: the clock it read and the row versions it wrote. -/
@[ext] structure Decision where
  instant : Timestamp
  changes : List Change
deriving DecidableEq

inductive Phase where
  /-- BEGIN has run and no statement yet. -/
  | begun
  /-- Inside a `FOR UPDATE SKIP LOCKED` select, with the snapshot's candidates left to visit. -/
  | selecting (scannedAt : Timestamp) (candidates : List StepRow) (picked : List Pick)
  /-- The rows to update are locked. -/
  | selected (picked : List Pick)
  /-- The UPDATE has run and some event INSERTs are outstanding. -/
  | inserting (decision : Decision) (owed : List NewEvent) (inserted : List EventRow)
  /-- Every statement has run; only COMMIT is left. -/
  | done (decision : Decision) (inserted : List EventRow)
  /-- A statement raised an error; only ROLLBACK is left. -/
  | aborted (error : DbError)

def Phase.picked : Phase → List Pick
  | .selecting _ _ picked | .selected picked => picked
  | _ => []

def Phase.decision? : Phase → Option Decision
  | .inserting d _ _ | .done d _ => some d
  | _ => none

def Phase.inserted : Phase → List EventRow
  | .inserting _ _ inserted | .done _ inserted => inserted
  | _ => []

structure Tx where
  call : Call
  /-- `now()`. -/
  start : Timestamp
  xid : Option ℕ
  /-- Clock reading at the first row lock. -/
  lockedAt : Option Timestamp
  phase : Phase

structure Commit where
  tx : TxId
  call : Call
  start : Timestamp
  lockedAt : Option Timestamp
  decision : Decision
  events : List EventRow
  committedAt : Timestamp

def Commit.outcome (c : Commit) : Outcome := c.call.outcome c.decision.instant c.decision.changes

structure World where
  clock : Timestamp
  steps : StepsTable
  /-- Committed events, in commit order. -/
  events : List EventRow
  nextXid : ℕ
  nextEventId : ℕ
  nextTx : TxId
  /-- The transaction that holds a row's lock. -/
  holder : StepId → Option TxId
  txs : TxId → Option Tx
  /-- Committed transactions, in commit order. -/
  history : List Commit

inductive Move where
  | enter (phase : Phase)
  | lock (id : StepId) (phase : Phase)
  | insert (event : NewEvent) (decision : Decision) (owed : List NewEvent)
      (inserted : List EventRow)

namespace World

/-- Somebody else holds the row lock. -/
def heldByOther (w : World) (tx : TxId) (id : StepId) : Bool :=
  match w.holder id with
  | none => false
  | some other => other ≠ tx

/-- The snapshot rows that satisfy the WHERE clause, in the order of the select. -/
def candidates (w : World) (call : Call) (now : Timestamp) : List StepRow :=
  (w.steps.rows.filter fun r => call.eligible now w.clock r).insertionSort call.order

/-- The newest committed versions of the picked rows. -/
def rowsOf (w : World) (picked : List Pick) : List (StepRow × Timestamp) :=
  picked.filterMap fun p => (w.steps.find? p.id).map fun r => (r, p.checkedAt)

/-- One visit of the `SKIP LOCKED` select to its next candidate. -/
def visit (w : World) (tx : TxId) (t : Tx) (scannedAt : Timestamp) (snapshot : StepRow)
    (rest : List StepRow) (picked : List Pick) : Move :=
  if w.heldByOther tx snapshot.id then .enter (.selecting scannedAt rest picked)
  else
    match w.steps.find? snapshot.id with
    | none => .enter (.selecting scannedAt rest picked)
    | some newest =>
      if newest = snapshot then
        .lock snapshot.id (.selecting scannedAt rest (picked ++ [⟨snapshot.id, scannedAt⟩]))
      else if t.call.eligible t.start w.clock newest then
        .lock snapshot.id (.selecting scannedAt rest (picked ++ [⟨snapshot.id, w.clock⟩]))
      else .lock snapshot.id (.selecting scannedAt rest picked)

/-- The first statement: `select … for update` by id, or the snapshot of a
`SKIP LOCKED` select. An owner write that finds its row held has no move. -/
def firstStatement (w : World) (tx : TxId) (t : Tx) : Option Move :=
  match t.call with
  | .lockRows => some (.enter (.done ⟨w.clock, []⟩ []))
  | call =>
    match call.credential? with
    | none => some (.enter (.selecting w.clock (w.candidates call t.start) []))
    | some cred =>
      match w.steps.find? cred.id with
      | none => some (.enter (.done ⟨w.clock, []⟩ []))
      | some _ =>
        if w.heldByOther tx cred.id then none
        else some (.lock cred.id (.selected [⟨cred.id, w.clock⟩]))

/-- The UPDATE on the locked rows. -/
def updateStatement (w : World) (t : Tx) (picked : List Pick) : Move :=
  match t.call.updateAll t.start w.clock (w.rowsOf picked) with
  | .error e => .enter (.aborted e)
  | .ok changes => .enter (.inserting ⟨w.clock, changes⟩ (t.call.events changes) [])

/-- The next move of a transaction; `none` while it waits or has nothing left to run. -/
def next (w : World) (tx : TxId) (t : Tx) : Option Move :=
  match t.phase with
  | .begun => w.firstStatement tx t
  | .selecting scannedAt candidates picked =>
    if picked.length = t.call.limit then some (.enter (.selected picked))
    else
      match candidates with
      | [] => some (.enter (.selected picked))
      | r :: rest => some (w.visit tx t scannedAt r rest picked)
  | .selected picked => some (w.updateStatement t picked)
  | .inserting d [] inserted => some (.enter (.done d inserted))
  | .inserting d (e :: owed) inserted =>
    match recordStepEvent e with
    | .error err => some (.enter (.aborted err))
    | .ok event => some (.insert event d owed inserted)
  | .done _ _ => none
  | .aborted _ => none

def setTx (w : World) (tx : TxId) (t : Option Tx) : World :=
  { w with txs := Function.update w.txs tx t }

/-- A transaction gets its xid at its first row lock or write. -/
def xidOf (w : World) (t : Tx) : ℕ := t.xid.getD w.nextXid

def assignXid (w : World) (t : Tx) : World :=
  { w with nextXid := if t.xid.isSome then w.nextXid else w.nextXid + 1 }

def apply (w : World) (tx : TxId) (t : Tx) : Move → World
  | .enter phase => w.setTx tx (some { t with phase })
  | .lock id phase =>
    { (w.assignXid t).setTx tx (some { t with
        xid := some (w.xidOf t)
        lockedAt := some (t.lockedAt.getD w.clock)
        phase }) with
      holder := Function.update w.holder id (some tx) }
  | .insert event d owed inserted =>
    let row : EventRow :=
      { event with
        id := w.nextEventId
        createdAt := w.clock
        xid := w.xidOf t }
    { (w.assignXid t).setTx tx (some { t with
        xid := some (w.xidOf t)
        phase := .inserting d owed (inserted ++ [row]) }) with
      nextEventId := w.nextEventId + 1 }

/-- The transaction is over and its row locks are free. -/
def finish (w : World) (tx : TxId) : World :=
  { w.setTx tx none with
    holder := fun id => if w.holder id = some tx then none else w.holder id }

/-- COMMIT publishes the row versions and the events together. -/
def publish (w : World) (tx : TxId) (t : Tx) (d : Decision) (inserted : List EventRow) : World :=
  { w.finish tx with
    steps := w.steps.setAll (d.changes.map Change.after)
    events := w.events ++ inserted
    history := w.history ++ [⟨tx, t.call, t.start, t.lockedAt, d, inserted, w.clock⟩] }

def begin (w : World) (call : Call) : World :=
  { w.setTx w.nextTx (some ⟨call, w.clock, none, none, .begun⟩) with nextTx := w.nextTx + 1 }

end World

inductive Action where
  /-- The database clock moves. -/
  | tick (clock : Timestamp)
  | start (call : Call)
  /-- The transaction makes its next move. -/
  | run (tx : TxId)
  /-- A foreign transaction locks one more row. -/
  | lockRow (tx : TxId) (id : StepId)
  /-- The current statement raises an error. -/
  | fault (tx : TxId)
  /-- ROLLBACK, also by a lost connection. -/
  | rollback (tx : TxId)
  | commit (tx : TxId)

def step (w : World) : Action → Option World
  | .tick clock => some { w with clock }
  | .start call => if call.admissible then some (w.begin call) else none
  | .run tx => (w.txs tx).bind fun t => (w.next tx t).map (w.apply tx t)
  | .lockRow tx id =>
    match w.txs tx with
    | some ⟨.lockRows, start, xid, lockedAt, .begun⟩ =>
      if (w.steps.find? id).isSome && !w.heldByOther tx id then
        some (w.apply tx ⟨.lockRows, start, xid, lockedAt, .begun⟩ (.lock id .begun))
      else none
    | _ => none
  | .fault tx => (w.txs tx).map fun t => w.apply tx t (.enter (.aborted .fault))
  | .rollback tx => (w.txs tx).map fun _ => w.finish tx
  | .commit tx =>
    (w.txs tx).bind fun t =>
      match t.phase with
      | .done d inserted => some (w.publish tx t d inserted)
      | _ => none

def movesForward (w : World) : Action → Bool
  | .tick clock => w.clock ≤ clock
  | _ => true

/-- The step relation of the runs in which the database clock never decreases. -/
abbrev forwardStep : World → Action → Option World := guarded step movesForward

def Action.actor? : Action → Option TxId
  | .tick _ | .start _ => none
  | .run tx | .lockRow tx _ | .fault tx | .rollback tx | .commit tx => some tx

/-- The schedule of a call that nobody interrupts. -/
def callAlone (tx : TxId) (call : Call) (moves : ℕ) : List Action :=
  .start call :: (List.replicate moves (.run tx) ++ [.commit tx])

structure World.Initial (w : World) : Prop where
  noTx : ∀ tx, w.txs tx = none
  noLock : ∀ id, w.holder id = none
  noHistory : w.history = []

/-- The database right after the given steps were inserted. -/
def World.opening (steps : StepsTable) (clock : Timestamp) : World where
  clock := clock
  steps := steps
  events := []
  nextXid := 3
  nextEventId := 1
  nextTx := 0
  holder _ := none
  txs _ := none
  history := []

theorem World.initial_opening (steps : StepsTable) (clock : Timestamp) :
    (World.opening steps clock).Initial := ⟨fun _ => rfl, fun _ => rfl, rfl⟩

def World.singleStep : World := .opening (insertedSteps [7] (List.nodup_singleton 7) 0) 0

theorem World.initial_singleStep : World.singleStep.Initial := initial_opening _ _

theorem World.fresh_singleStep (r : StepRow) (h : r ∈ World.singleStep.steps.rows) : r.Fresh :=
  fresh_of_mem_insertedSteps (List.nodup_singleton 7) h

end DurableRunner.Sessions
