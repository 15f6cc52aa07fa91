import ClaudeFleet.StateDb
import ClaudeFleet.Transition

/-! The user-authored rows of state.db across store switches. A start on Postgres copies state.db
once and later merges it in when its fingerprint is not the one of the run row; a switch back merges
Postgres into state.db and records the new fingerprint in a step of its own. The steps that only
touch the inbox are one step here, which may fail. -/
namespace ClaudeFleet.UserState
open StateDb Transition

structure ExposureRow where
  id : String
  workspaceId : String
  sessionId : Option String := none
  port : ℕ
  cmdline : Option String := none
  label : Option String := none
  reason : Option String := none
  source : String
  firstScannedAt : Option ℤ := none
  declaredAt : Option ℤ := none
  popupShownAt : Option ℤ := none
  outcome : Option String := none
  openedVia : Option String := none
  openCount : ℕ := 0
  endedAt : Option ℤ := none
  deriving DecidableEq

/-- A row of a table that `USER_STATE_MERGE` upserts. -/
inductive Row
  | session (r : SessionRow)
  | broker (r : BrokerRow)
  | exposure (r : ExposureRow)
  deriving DecidableEq

inductive Key
  | session (id : String)
  | broker (key : String × String)
  | exposure (id : String)
  deriving DecidableEq

def Row.key : Row → Key
  | .session r => .session r.id
  | .broker r => .broker r.key
  | .exposure r => .exposure r.id

/-- The columns that are the user's: of a session only its name. -/
inductive Authored
  | name (userSetName : Option String)
  | broker (r : BrokerRow)
  | exposure (r : ExposureRow)
  deriving DecidableEq

def Row.authored : Row → Authored
  | .session r => .name r.userSetName
  | .broker r => .broker r
  | .exposure r => .exposure r

/-- `ON CONFLICT … DO UPDATE SET` the user's columns of the row that comes in. -/
def Row.overwrite (r x : Row) : Row :=
  if x.key = r.key then
    match r, x with
    | .session r, .session x => .session { x with userSetName := r.userSetName }
    | r, _ => r
  else x

/-- A session row re-ingested from its transcript keeps the name it has. -/
def Row.refresh (r x : Row) : Row :=
  if x.key = r.key then
    match r, x with
    | .session r, .session x => .session { r with userSetName := x.userSetName }
    | _, x => x
  else x

theorem Row.key_overwrite (r x : Row) : (r.overwrite x).key = x.key := by
  unfold Row.overwrite
  split_ifs with h
  · cases r <;> cases x <;> simp_all [Row.key]
  · rfl

theorem Row.key_refresh (r x : Row) : (r.refresh x).key = x.key := by
  unfold Row.refresh
  split_ifs with h
  · cases r <;> cases x <;> simp_all [Row.key]
  · rfl

abbrev Rows := Table Row.key

/-- A live session, or a merge, writes a row. -/
def put (T : Rows) (r : Row) : Rows := T.upsert r r.overwrite r.key_overwrite

/-- The watcher re-ingests a session. -/
def ingest (T : Rows) (r : SessionRow) : Rows :=
  T.upsert (.session { r with userSetName := none }) (Row.refresh (.session r))
    (Row.key_refresh (.session r))

/-- `applyUserState`: the rows of the outgoing store into the incoming one. -/
def merge (into out : Rows) : Rows := out.rows.foldl put into

/-- state.db; `version` counts its writes. -/
structure File where
  rows : Rows
  version : ℕ

structure Run (F : Type) where
  fingerprint : F
  finished : Bool
  deriving DecidableEq

/-- The app's next operation. `live` says that a switch back began in a running session. -/
inductive Pc (F : Type)
  | off
  | waiting
  -- `firstSwitchCopy`
  | inbox
  | importing
  | restarting (fingerprint : F)
  | inserting (fingerprint : F)
  | copying
  | merging
  | live
  -- a SQLite start
  | opening
  | sqliteLive
  -- `switchBackToSqlite`
  | planning (live : Bool)
  | keeping
  | exporting (live : Bool)
  | mergingBack (live : Bool)
  | recording (live : Bool)
  | placing (live : Bool)
  | unmarking (live : Bool)
  | committing (live : Bool)
  | remarking (live : Bool)

inductive Store
  | sqlite
  | postgres
  deriving DecidableEq

/-- `onPostgres` is the marker beside inbox.db; `rows`, `run` and `copied` are Postgres: its state
tables, the state row of `store_import_run` and the keys that `store_import` says are copied. `last`
is what live sessions wrote last, and have not deleted since. -/
structure State (F : Type) where
  choice : Store
  onPostgres : Bool
  file : Option File
  rows : Rows
  run : Option (Run F)
  copied : List Key
  last : Key → Option Authored
  pc : Pc F

variable {F : Type} [DecidableEq F]

def State.goto (s : State F) (pc : Pc F) : State F := { s with pc := pc }

/-- Where a switch back that fails leaves the app. -/
def resting (live : Bool) : Pc F := if live then .live else .waiting

/-- `importSqlite` of state.db up to its first write, and `mergeStateIfChanged` after `already`. -/
def importPlan (fingerprint : ℕ → F) (s : State F) : Pc F :=
  match s.file with
  | none => .live
  | some f =>
    match s.run with
    | none => if s.rows.rows.isEmpty then .inserting (fingerprint f.version) else .live
    | some ⟨_, true⟩ => .merging
    | some ⟨fp, false⟩ =>
      if fp = fingerprint f.version then .copying else .restarting (fingerprint f.version)

/-- The next operation of `firstSwitchCopy`. -/
def firstSwitchCopy (fingerprint : ℕ → F) (s : State F) : Option (State F) :=
  match s.pc, s.file with
  | .inbox, _ => some { s with onPostgres := true, pc := .importing }
  | .importing, _ => some (s.goto (importPlan fingerprint s))
  | .restarting fp, _ =>
    some { s with
      rows := .empty, copied := [], pc := .copying
      run := s.run.map fun r => { r with fingerprint := fp } }
  | .inserting fp, _ => some { s with run := some ⟨fp, false⟩, pc := .copying }
  | .copying, some f =>
    if f.rows.rows.all fun r => r.key ∈ s.copied then
      if s.rows.rows.length = f.rows.rows.length then
        some { s with run := s.run.map fun r => { r with finished := true }, pc := .live }
      else some (s.goto .waiting)
    else none
  | .merging, some f =>
    -- one transaction: the merge and the fingerprint it was made for
    if s.run.any fun r => r.fingerprint = fingerprint f.version then some (s.goto .live)
    else
      some { s with
        rows := merge s.rows f.rows, pc := .live
        run := s.run.map fun r => { r with fingerprint := fingerprint f.version } }
  | _, _ => none

/-- The next operation of a SQLite start. -/
def openDb (s : State F) : Option (State F) :=
  match s.pc with
  | .opening =>
    some { s with onPostgres := false, file := some (s.file.getD ⟨.empty, 0⟩), pc := .sqliteLive }
  | _ => none

/-- `mergePgStateIntoSqlite`, when Postgres history came from state.db. -/
def mergeStateBack (s : State F) (live : Bool) : State F :=
  match s.file with
  | some f =>
    if s.run.any Run.finished then
      { s with file := some ⟨merge f.rows s.rows, f.version + 1⟩, pc := .recording live }
    else s.goto (.placing live)
  | none => s.goto (.placing live)

/-- The next operation of `switchBackToSqlite`. -/
def switchBackToSqlite (fingerprint : ℕ → F) (s : State F) : Option (State F) :=
  match s.pc, s.file with
  | .planning live, _ =>
    some (s.goto (if live = false ∧ s.onPostgres = false then .keeping else .exporting live))
  | .keeping, _ => some { s with choice := .sqlite, pc := .off }
  | .exporting live, _ => some (s.goto (.mergingBack live))
  | .mergingBack live, _ => some (mergeStateBack s live)
  | .recording live, some f =>
    some { s with
      run := s.run.map fun r => { r with fingerprint := fingerprint f.version }
      pc := .placing live }
  | .placing live, _ => some (s.goto (.unmarking live))
  | .unmarking live, _ => some { s with onPostgres := false, pc := .committing live }
  | .committing _, _ => some { s with choice := .sqlite, pc := .off }
  | .remarking live, _ => some { s with onPostgres := true, pc := resting live }
  | _, _ => none

def advance (fingerprint : ℕ → F) (s : State F) : Option (State F) :=
  (firstSwitchCopy fingerprint s).or ((openDb s).or (switchBackToSqlite fingerprint s))

/-- The app's next operation throws. A merge back that fails has opened state.db, and may have
`touched` it. -/
def fail (s : State F) (touched : Bool) : Option (State F) :=
  match s.pc with
  | .inbox | .importing | .restarting _ | .inserting _ | .copying | .merging =>
    some (s.goto .waiting)
  | .planning live | .exporting live | .recording live | .placing live =>
    some (s.goto (resting live))
  | .keeping => some (s.goto .waiting)
  | .mergingBack live =>
    some { s with
      file := s.file.map fun f => if touched then { f with version := f.version + 1 } else f
      pc := resting live }
  | .committing live => some (s.goto (.remarking live))
  | _ => none

inductive Action
  | start
  | retry
  | advance
  | fail (touched : Bool)
  | chunk (keys : List Key)
  | write (r : Row)
  | ingest (r : SessionRow)
  | delete (k : Key)
  | switchBack
  | choose (store : Store)
  | crash

/-- A session changes the tables of the store it runs on. -/
def State.onStore (s : State F) (f : Rows → Rows) : Option (State F) :=
  match s.pc, s.file with
  | .live, _ => some { s with rows := f s.rows }
  | .sqliteLive, some file => some { s with file := some ⟨f file.rows, file.version + 1⟩ }
  | _, _ => none

def step (fingerprint : ℕ → F) (s : State F) : Action → Option (State F)
  | .start =>
    match s.pc, s.choice with
    | .off, .sqlite => some (s.goto .opening)
    | .off, .postgres => some (s.goto .inbox)
    | _, _ => none
  | .retry =>
    match s.pc with
    | .waiting => some (s.goto .inbox)
    | _ => none
  | .advance => advance fingerprint s
  | .fail touched => fail s touched
  | .chunk keys =>
    match s.pc, s.file with
    | .copying, some f =>
      let rows := f.rows.rows.filter fun r => r.key ∈ keys ∧ r.key ∉ s.copied
      if rows.all fun r => (s.rows.get r.key).isNone then
        some { s with
          rows := rows.foldl Table.insertIgnore s.rows, copied := s.copied ++ rows.map Row.key }
      else none
    | _, _ => none
  | .write r =>
    (s.onStore fun T => put T r).map fun t =>
      { t with last := Function.update s.last r.key (some r.authored) }
  | .ingest r => s.onStore fun T => ingest T r
  | .delete k =>
    (s.onStore fun T => T.deleteWhere fun r => r.key = k).map fun t =>
      { t with last := Function.update s.last k none }
  | .switchBack =>
    match s.pc with
    | .live => some (s.goto (.planning true))
    | .waiting => some (s.goto (.planning false))
    | _ => none
  | .choose store =>
    match s.pc with
    | .sqliteLive => some { s with choice := store }
    | _ => none
  | .crash => some (s.goto .off)

end ClaudeFleet.UserState
