import ClaudeFleet.Transition
import Mathlib.Data.Finset.SDiff
import Mathlib.Data.Finset.Card

/-! Switching the inbox between SQLite and Postgres. What decides which inbox is the live one is
spread over config.json's choice, the marker beside inbox.db, inbox.db itself and the row of
`store_import_run`; a step below is one operation on one of them, and the app may die between any
two. A row stands for its contents. -/
namespace ClaudeFleet.StoreSwitch
open Transition

inductive Store
  | sqlite
  | postgres
  deriving DecidableEq

/-- The status in `inbox.db.on-postgres`. -/
inductive Marker
  | pending
  | live
  | skippedNonempty
  | skippedConflict
  deriving DecidableEq

/-- inbox.db without its WAL; `stamp` is what else its fingerprint depends on. -/
structure Main (R : Type) where
  rows : Finset R
  stamp : ℕ := 0

/-- What `store_import_run` keeps of its source: a file's fingerprint, or `exported:` and the
fingerprint of the tables, which stands for their rows. -/
inductive Source (R F : Type)
  | file (fingerprint : F)
  | exported (rows : Finset R)
  deriving DecidableEq

structure Run (R F : Type) where
  source : Source R F
  finished : Bool
  deriving DecidableEq

/-- The next operation of the app. `live` says that a switch back began in a running session, which
goes on if the switch fails. -/
inductive Pc (R F : Type)
  | off
  | waiting
  -- `firstSwitchCopy`
  | sweeping
  | importing
  | restarting (fingerprint : F)
  | inserting (fingerprint : F)
  | copying
  | settling
  | retiring
  | retiringSidecars
  | goingLive
  | skipping (m : Marker)
  | copyingState
  | live
  -- a SQLite start
  | opening
  | unmarking
  | creating
  | sqliteLive
  | sqliteClosed
  -- `switchBackLive` and `switchBackToSqlite`
  | planning (live : Bool)
  | keeping (live : Bool)
  | exporting (live : Bool)
  | merging (live : Bool)
  | replacing (live : Bool)
  | replacingSidecars (live : Bool)
  | clearing (live : Bool)
  | placing (live : Bool)
  | verifying (live : Bool)
  | marking (live : Bool)
  | unmarkingBack (live : Bool) (prev : Option (Run R F))
  | committing (live : Bool) (prev : Option (Run R F)) (marker : Option Marker)
  | remarking (live : Bool) (prev : Option (Run R F)) (marker : Option Marker)
  | restoring (live : Bool) (prev : Option (Run R F))
  | takingBack (live : Bool)

/-- `db`, `wal` and `fromPostgres` are the files of the user's directory, `outside` what the user
has moved out of it. `rows`, `run` and `copied` are Postgres: the inbox tables, the inbox row of
`store_import_run`, and the rows that `store_import` says are copied. `owed` are the rows that live
sessions wrote to Postgres and that no live session has removed since. -/
structure State (R F : Type) where
  choice : Store
  marker : Option Marker
  db : Option (Main R)
  wal : Option (Finset R)
  fromPostgres : Option (Finset R)
  outside : List (Main R × Option (Finset R))
  rows : Finset R
  run : Option (Run R F)
  copied : Finset R
  owed : Finset R
  pc : Pc R F

variable {R F : Type} [DecidableEq R] [DecidableEq F]

/-- What SQLite reads: the WAL is replayed over the database beside it. -/
def contents (m : Main R) (wal : Option (Finset R)) : Finset R := wal.getD m.rows

/-- The inbox in the user's directory. -/
def State.inbox (s : State R F) : Finset R := (s.db.map fun m => contents m s.wal).getD ∅

/-- `inboxOnPostgres` -/
def State.inboxOnPostgres (s : State R F) : Bool :=
  match s.marker with
  | none => false
  | some m => s.db.isNone || m ≠ .pending

/-- `sweepSqliteSidecars`: a WAL with no database beside it is moved away. -/
def State.sweep (s : State R F) : State R F :=
  { s with wal := if s.db.isNone then none else s.wal }

def State.goto (s : State R F) (pc : Pc R F) : State R F := { s with pc := pc }

/-- Where a switch back that fails leaves the app. -/
def resting (live : Bool) : Pc R F := if live then .live else .waiting

/-- `importSqlite` up to its first write. -/
def importPlan (fingerprint : Main R → Option (Finset R) → F) (s : State R F) : Pc R F :=
  match s.db with
  | none => .settling
  | some m =>
    match s.run with
    | none => if s.rows = ∅ then .inserting (fingerprint m s.wal) else .skipping .skippedNonempty
    | some ⟨source, true⟩ =>
      if source = .file (fingerprint m s.wal) then .settling else .skipping .skippedConflict
    | some ⟨.file fp, false⟩ =>
      if fp = fingerprint m s.wal then .copying else .restarting (fingerprint m s.wal)
    | some ⟨.exported rows, false⟩ =>
      if s.rows = rows then .restarting (fingerprint m s.wal) else .skipping .skippedConflict

/-- `switchBackPlan`, and what `switchBackLive` makes of it while the store is not ready. -/
def switchBackPlan (s : State R F) (live : Bool) : Pc R F :=
  if live = false ∧ s.inboxOnPostgres = false then .keeping live
  else if s.db.isNone then .exporting live
  else if s.inboxOnPostgres = false then .keeping live
  else if s.inbox = ∅ then .exporting live
  else resting live

/-- The transaction of `restartImport`. -/
def State.restart (s : State R F) (fp : F) : State R F :=
  { s with
    rows := ∅, copied := ∅
    run := s.run.map fun r => { r with source := .file fp } }

/-- The next operation of `firstSwitchCopy`. -/
def firstSwitchCopy (fingerprint : Main R → Option (Finset R) → F) (s : State R F) :
    Option (State R F) :=
  match s.pc with
  | .sweeping => some (s.sweep.goto .importing)
  | .importing => some (s.goto (importPlan fingerprint s))
  | .restarting fp => some ((s.restart fp).goto .copying)
  | .inserting fp => some { s with run := some ⟨.file fp, false⟩, pc := .copying }
  | .copying =>
    if s.inbox ⊆ s.copied then
      if s.rows.card = s.inbox.card then
        some { s with run := s.run.map fun r => { r with finished := true }, pc := .settling }
      else some (s.goto .waiting)
    else none
  | .settling => some { s with marker := some .pending, pc := .retiring }
  | .retiring =>
    some { s with db := none, pc := if s.db.isSome then .retiringSidecars else .goingLive }
  | .retiringSidecars => some { s with wal := none, pc := .goingLive }
  | .goingLive => some { s with marker := some .live, pc := .copyingState }
  | .skipping m => some { s with marker := some m, pc := .copyingState }
  | .copyingState => some (s.goto .live)
  | _ => none

/-- The next operation of a SQLite start, which opens the inbox unless it is on Postgres. -/
def openInbox (s : State R F) : Option (State R F) :=
  match s.pc with
  | .opening =>
    some (if s.inboxOnPostgres then s.goto .sqliteClosed else s.sweep.goto .unmarking)
  | .unmarking => some { s with marker := none, pc := .creating }
  | .creating => some { s with db := some (s.db.getD ⟨∅, 0⟩), pc := .sqliteLive }
  | _ => none

/-- The next operation of `switchBackToSqlite`. -/
def switchBackToSqlite (s : State R F) : Option (State R F) :=
  match s.pc with
  | .planning live => some (s.sweep.goto (switchBackPlan s.sweep live))
  | .keeping _ => some { s with choice := .sqlite, pc := .off }
  | .exporting live => some { s with fromPostgres := some s.rows, pc := .merging live }
  | .merging live => some (s.goto (.replacing live))
  | .replacing live =>
    some { s with db := none, pc := if s.db.isSome then .replacingSidecars live else .clearing live }
  | .replacingSidecars live => some { s with wal := none, pc := .clearing live }
  | .clearing live => some (s.sweep.goto (.placing live))
  | .placing live =>
    some { s with
      db := s.fromPostgres.map fun rows => ⟨rows, 0⟩, fromPostgres := none, pc := .verifying live }
  | .verifying live => some (s.goto (.marking live))
  | .marking live =>
    some { s with run := some ⟨.exported s.inbox, false⟩, pc := .unmarkingBack live s.run }
  | .unmarkingBack live prev => some { s with marker := none, pc := .committing live prev s.marker }
  | .committing _ _ _ => some { s with choice := .sqlite, pc := .off }
  | .remarking live prev marker =>
    some { s with marker := marker.or s.marker, pc := .restoring live prev }
  | .restoring live prev => some { s with run := prev, pc := .takingBack live }
  | .takingBack live =>
    some { s with
      fromPostgres := s.db.map Main.rows, db := none, wal := none, pc := resting live }
  | _ => none

/-- The app's next operation succeeds. -/
def advance (fingerprint : Main R → Option (Finset R) → F) (s : State R F) :
    Option (State R F) :=
  (firstSwitchCopy fingerprint s).or ((openInbox s).or (switchBackToSqlite s))

/-- The app's next operation throws, or `verifyPlacedInbox` finds the file wrong. -/
def fail (s : State R F) : Option (State R F) :=
  match s.pc with
  | .sweeping | .importing | .restarting _ | .inserting _ | .copying | .settling | .retiring
  | .retiringSidecars | .goingLive | .skipping _ | .copyingState => some (s.goto .waiting)
  | .planning live | .keeping live | .exporting live | .merging live =>
    some (s.goto (resting live))
  | .verifying live | .marking live | .restoring live _ => some (s.goto (.takingBack live))
  | .committing live prev marker => some (s.goto (.remarking live prev marker))
  | _ => none

inductive Action (R : Type)
  | start
  | retry
  | advance
  | fail
  | chunk (rows : Finset R)
  | write (r : R)
  | erase (r : R)
  | close (stamp : ℕ)
  | switchBack
  | choose (store : Store)
  | crash
  | moveOut (sidecars : Bool)
  | moveIn (n : ℕ)

/-- A session runs on Postgres. -/
def Pc.isLive : Pc R F → Bool
  | .live => true
  | _ => false

/-- The app is not in the middle of a start or of a switch. -/
def Pc.settled : Pc R F → Bool
  | .off | .waiting | .live | .sqliteLive | .sqliteClosed => true
  | _ => false

def step (fingerprint : Main R → Option (Finset R) → F) (s : State R F) :
    Action R → Option (State R F)
  | .start =>
    match s.pc, s.choice with
    | .off, .sqlite => some (s.goto .opening)
    | .off, .postgres => some (s.goto .sweeping)
    | _, _ => none
  | .retry =>
    match s.pc with
    | .waiting => some (s.goto .sweeping)
    | _ => none
  | .advance => advance fingerprint s
  | .fail => fail s
  | .chunk rows =>
    -- a chunk with a row that is there already is refused by its key
    match s.pc with
    | .copying =>
      if rows ⊆ s.inbox \ s.copied ∧ Disjoint rows s.rows then
        some { s with rows := s.rows ∪ rows, copied := s.copied ∪ rows }
      else none
    | _ => none
  | .write r =>
    match s.pc with
    | .live => some { s with rows := insert r s.rows, owed := insert r s.owed }
    | .sqliteLive => some { s with wal := some (insert r s.inbox) }
    | _ => none
  | .erase r =>
    match s.pc with
    | .live => some { s with rows := s.rows.erase r, owed := s.owed.erase r }
    | .sqliteLive => some { s with wal := some (s.inbox.erase r), owed := s.owed.erase r }
    | _ => none
  | .close stamp =>
    match s.pc with
    | .sqliteLive => some { s with db := some ⟨s.inbox, stamp⟩, wal := none, pc := .off }
    | _ => none
  | .switchBack =>
    match s.pc with
    | .live => some (s.goto (.planning true))
    | .waiting => some (s.goto (.planning false))
    | _ => none
  | .choose store => if s.pc.settled then some { s with choice := store } else none
  | .crash => some (s.goto .off)
  | .moveOut sidecars =>
    match s.pc, s.db with
    | .off, some m =>
      some { s with
        outside := (m, if sidecars then s.wal else none) :: s.outside
        db := none, wal := if sidecars then none else s.wal }
    | _, _ => none
  | .moveIn n =>
    match s.pc, s.outside[n]? with
    | .off, some (m, wal) =>
      some { s with outside := s.outside.eraseIdx n, db := some m, wal := wal.or s.wal }
    | _, _ => none

end ClaudeFleet.StoreSwitch
