import ClaudeFleet.Transition

/-! The write path of a Postgres store: the promise chain that serializes writes, the driver that
takes it around bare writes and read-write transactions, the hook that runs first in each, and the
gate the hook asks. Every `await` is a step, and the calls into the inner driver succeed or fail as
the environment likes. A request is known by its ticket, its number in the order of the calls to
`lock()`; Kysely takes a connection of its own for each of them. -/
namespace ClaudeFleet.SerializingDriver

/-- How a call into the inner driver ends. `lost` is a failure the server knows nothing of: the
call took effect and the answer did not arrive. -/
inductive Outcome
  | ok
  | failed
  | lost
  deriving DecidableEq

inductive Event
  | requested (t : ℕ)
  | granted (t : ℕ)
  | released (t : ℕ)
  | begun (t : ℕ)
  | hooked (t : ℕ) (passed : Bool)
  | ran (t : ℕ)
  | committed (t : ℕ)
  | closed
  | opened
  | draining (t : ℕ)
  | drained (t : ℕ)
  deriving DecidableEq

/-- A bare write (`execute`), a read-write transaction (`beginTransaction`), and the raw statement
of a `drain()`, which is a bare write too. -/
inductive Kind
  | write
  | transaction
  | drain
  deriving DecidableEq

/-- The `await` a request stands at. -/
inductive Pc
  | waiting
  | connect
  | start
  | hook
  | query
  | commit
  | rollback
  | last
  | txConnect
  | txStart
  | txHook
  | txUndo
  | running
  | commitFailed
  | done
  deriving DecidableEq

/-- The transaction a request has open on the server. A statement that fails aborts it, and its
COMMIT then only ends it. A COMMIT or ROLLBACK that fails ends it as well: the server refused it,
or the connection is gone. -/
inductive Tx
  | none
  | active
  | aborted
  | over
  deriving DecidableEq

structure Op where
  kind : Kind := .write
  pc : Pc := .waiting
  inTx : Bool := false
  unlock : Bool := false
  tx : Tx := .none
  deriving DecidableEq

structure State where
  refusal : Option String := none
  tickets : ℕ := 0
  resolved : ℕ → Bool := fun _ => false
  ops : ℕ → Op := fun _ => {}
  log : List Event := []

namespace State

/-- `tail` as the caller with ticket `t` found it: `tail.then(() => next)` for every earlier
caller. -/
def tail (s : State) : ℕ → Bool
  | 0 => true
  | t + 1 => s.tail t && s.resolved t

/-- The request goes on, and `es` is what that shows. -/
def goes (s : State) (t : ℕ) (op : Op) (es : List Event) : State :=
  { s with ops := Function.update s.ops t op, log := s.log ++ es }

/-- A call of the function `lock()` resolved to. -/
def release (s : State) (t : ℕ) : State :=
  { s with resolved := Function.update s.resolved t true, log := s.log ++ [.released t] }

/-- `end(conn)` -/
def endTx (s : State) (t : ℕ) (op : Op) (es : List Event) : State :=
  let s' := s.goes t { op with inTx := false, unlock := false } es
  if op.unlock then s'.release t else s'

/-- `lock()` and the start of the caller. -/
def request (s : State) (kind : Kind) (es : List Event) : State :=
  { s with
    tickets := s.tickets + 1
    ops := Function.update s.ops s.tickets { kind := kind }
    log := s.log ++ es }

end State

/-- What a COMMIT shows. -/
def Op.commits (op : Op) (t : ℕ) (o : Outcome) : List Event :=
  if op.tx = .active ∧ o ≠ .failed then [.committed t] else []

/-- The `await` of request `t` settles. -/
def State.resume (s : State) (t : ℕ) (o : Outcome) : Option State :=
  let op := s.ops t
  match op.pc with
  | .waiting =>
    if t < s.tickets ∧ s.tail t = true then
      if op.kind = .transaction then
        some (s.goes t { op with pc := .txConnect, inTx := true, unlock := true } [.granted t])
      else some (s.goes t { op with pc := .connect } [.granted t])
    else none
  | .connect => some (s.goes t { op with pc := if o = .ok then .start else .last } [])
  | .start =>
    if o = .ok then some (s.goes t { op with pc := .hook, tx := .active } [.begun t])
    else some (s.goes t { op with pc := .last } [])
  | .hook =>
    if s.refusal = none ∧ o = .ok then some (s.goes t { op with pc := .query } [.hooked t true])
    else some (s.goes t { op with pc := .rollback } [.hooked t false])
  | .query =>
    if o = .ok then some (s.goes t { op with pc := .commit } [.ran t])
    else some (s.goes t { op with pc := .rollback, tx := .aborted } [])
  | .commit =>
    some (s.goes t { op with pc := if o = .ok then .last else .rollback, tx := .over }
      (op.commits t o))
  | .rollback => some (s.goes t { op with pc := .last, tx := .over } [])
  | .last => some ((s.goes t { op with pc := .done } []).release t)
  | .txConnect =>
    if o = .ok then some (s.goes t { op with pc := .txStart } [])
    else some (s.endTx t { op with pc := .done } [])
  | .txStart =>
    if o = .ok then some (s.goes t { op with pc := .txHook, tx := .active } [.begun t])
    else some (s.endTx t { op with pc := .done } [])
  | .txHook =>
    if s.refusal = none ∧ o = .ok then
      some (s.goes t { op with pc := .running } [.hooked t true])
    else some (s.goes t { op with pc := .txUndo } [.hooked t false])
  | .txUndo => some (s.endTx t { op with pc := .done, tx := .over } [])
  | .running | .commitFailed | .done => none

inductive Action
  | request (transaction : Bool)
  | drain
  | resume (t : ℕ) (o : Outcome)
  | statement (t : ℕ) (o : Outcome)
  | commit (t : ℕ) (o : Outcome)
  | rollback (t : ℕ) (o : Outcome)
  | resolve (t : ℕ)
  | close (reason : String)
  | reopen
  deriving DecidableEq

def step (s : State) : Action → Option State
  | .request transaction =>
    some (s.request (if transaction then .transaction else .write) [.requested s.tickets])
  | .drain =>
    -- an open gate makes `drain()` throw
    if s.refusal = none then none
    else some (s.request .drain [.draining s.tickets, .requested s.tickets])
  | .resume t o => s.resume t o
  | .statement t o =>
    if (s.ops t).pc = .running then
      if o = .ok then some (s.goes t (s.ops t) [.ran t])
      else some (s.goes t { s.ops t with tx := .aborted } [])
    else none
  | .commit t o =>
    if (s.ops t).pc = .running then
      some (s.endTx t
        { s.ops t with pc := if o = .ok then .done else .commitFailed, tx := .over }
        ((s.ops t).commits t o))
    else none
  | .rollback t _ =>
    -- after a failed commit Kysely rolls back, at most once
    if (s.ops t).pc = .running ∨ (s.ops t).pc = .commitFailed then
      some (s.endTx t { s.ops t with pc := .done, tx := .over } [])
    else none
  | .resolve t =>
    if (s.ops t).kind = .drain ∧ (s.ops t).pc = .done then
      some { s with log := s.log ++ [.drained t] }
    else none
  | .close reason => some { s with refusal := some reason, log := s.log ++ [.closed] }
  | .reopen => some { s with refusal := none, log := s.log ++ [.opened] }

end ClaudeFleet.SerializingDriver
