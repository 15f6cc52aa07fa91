import ClaudeFleet.Transition

/-! inbox.db, its sidecars and the directories they are retired to. A file is a database or a
sidecar of it; every mkdir and rename is a step, and the app may crash before each. -/
namespace ClaudeFleet.SqliteFiles
open Transition

inductive Ext
  | wal
  | shm
  | journal
  deriving DecidableEq

def SQLITE_SIDECARS : List Ext := [.wal, .shm, .journal]

/-- The directory `inbox.db.<tag>-<now>`, or `inbox.db.<tag>-<now>.moving`. -/
structure Dir where
  tag : String
  now : ℕ
  moving : Bool
  deriving DecidableEq

/-- inbox.db, or with its extension a sidecar, in userData or in a directory there. -/
abbrev Name := Option Dir × Option Ext

/-- A database, or a sidecar that belongs to it. -/
structure File where
  owner : ℕ
  ext : Option Ext
  deriving DecidableEq

/-- What the running call does next. -/
inductive Pc
  | idle
  -- `retireSqliteFile`
  | moveDb (staging : Dir)
  | moveSidecars (staging : Dir) (exts : List Ext)
  -- `sweepSqliteSidecars`
  | complete (now : ℕ) (entries : List Dir)
  | adopt (now : ℕ) (staging : Dir) (exts : List Ext) (entries : List Dir)
  | close (now : ℕ) (staging : Dir) (entries : List Dir)
  | quarantine (dir : Dir) (exts : List Ext)
  deriving DecidableEq

/-- `swept` says that the call started last was a sweep, and that it completed. `known` lists every
file there has been, and `began` the databases whose retirement began. -/
structure State where
  dirs : List Dir
  files : Name → Option File
  pc : Pc := .idle
  clock : ℕ
  swept : Bool := false
  nextId : ℕ
  known : List File
  began : List ℕ := []

def inbox : Name := (none, none)

def beside (e : Ext) : Name := (none, some e)

def inDir (d : Dir) (e : Option Ext) : Name := (some d, e)

namespace State

/-- `renameSync` of a file. -/
def rename (s : State) (p q : Name) : State :=
  { s with files := Function.update (Function.update s.files p none) q (s.files p) }

/-- `renameSync` of a directory. -/
def renameDir (s : State) (d d' : Dir) : State :=
  { s with
    dirs := s.dirs.map fun x => if x = d then d' else x
    files := fun p =>
      if p.1 = some d' then s.files (some d, p.2) else if p.1 = some d then none else s.files p }

def mkdir (s : State) (d : Dir) : State := { s with dirs := s.dirs ++ [d] }

def goto (s : State) (pc : Pc) : State := { s with pc := pc }

/-- The staging directories that `readdirSync` lists. -/
def moving (s : State) : List Dir := s.dirs.filter fun d => d.moving

def exists? (s : State) (p : Name) : Bool := (s.files p).isSome

end State

def Dir.done (d : Dir) : Dir := { d with moving := false }

/-- A sweep has completed its retires: the sidecars that remain go to a directory of their own. -/
def State.orphans (s : State) (now : ℕ) : State :=
  let orphans := SQLITE_SIDECARS.filter fun e => s.exists? (beside e)
  if s.exists? inbox ∨ orphans = [] then { s with pc := .idle, swept := true }
  else (s.mkdir ⟨"orphaned", now, false⟩).goto (.quarantine ⟨"orphaned", now, false⟩ orphans)

/-- The next operation of the running call. -/
def State.advance (s : State) : Option State :=
  match s.pc with
  | .idle => none
  | .moveDb d => some ((s.rename inbox (inDir d none)).goto (.moveSidecars d SQLITE_SIDECARS))
  | .moveSidecars d (e :: exts) =>
    if s.exists? (beside e) then
      some ((s.rename (beside e) (inDir d (some e))).goto (.moveSidecars d exts))
    else some (s.goto (.moveSidecars d exts))
  | .moveSidecars d [] => some ((s.renameDir d d.done).goto .idle)
  | .complete now (d :: entries) =>
    if s.exists? inbox then some (s.goto (.close now d entries))
    else some (s.goto (.adopt now d SQLITE_SIDECARS entries))
  | .complete now [] => some (s.orphans now)
  | .adopt now d (e :: exts) entries =>
    if s.exists? (beside e) ∧ s.exists? (inDir d (some e)) = false then
      some ((s.rename (beside e) (inDir d (some e))).goto (.adopt now d exts entries))
    else some (s.goto (.adopt now d exts entries))
  | .adopt now d [] entries => some (s.goto (.close now d entries))
  | .close now d entries =>
    -- an empty directory is removed
    if (none :: SQLITE_SIDECARS.map some).all fun e => !s.exists? (inDir d e) then
      some ({ s with dirs := s.dirs.filter fun x => x ≠ d }.goto (.complete now entries))
    else some ((s.renameDir d d.done).goto (.complete now entries))
  | .quarantine d (e :: exts) =>
    some ((s.rename (beside e) (inDir d (some e))).goto (.quarantine d exts))
  | .quarantine _ [] => some { s with pc := .idle, swept := true }

inductive Action
  | retire (now : ℕ) (tag : String)
  | sweep (now : ℕ) (entries : List Dir)
  | advance
  | crash
  -- a file takes the name inbox.db, and SQLite makes a sidecar of it
  | place
  | write (e : Ext)

def step (s : State) : Action → Option State
  | .retire now tag =>
    if s.pc = .idle ∧ s.clock < now then
      match s.files inbox with
      | none => some { s with clock := now, swept := false }
      | some db =>
        let staging : Dir := ⟨tag, now, true⟩
        some ({ s with clock := now, swept := false, began := s.began ++ [db.owner] }.mkdir staging
          |>.goto (.moveDb staging))
    else none
  | .sweep now entries =>
    -- the entries come in any order
    if s.pc = .idle ∧ s.clock < now ∧ entries.Perm s.moving then
      some ({ s with clock := now, swept := false }.goto (.complete now entries))
    else none
  | .advance => s.advance
  | .crash => some (s.goto .idle)
  | .place =>
    if s.pc = .idle ∧ s.swept ∧ s.files inbox = none then
      let db : File := ⟨s.nextId, none⟩
      some { s with
        files := Function.update s.files inbox (some db)
        nextId := s.nextId + 1
        known := s.known ++ [db] }
    else none
  | .write e =>
    match s.files inbox with
    | some db =>
      if s.pc = .idle ∧ s.files (beside e) = none then
        let sidecar : File := ⟨db.owner, some e⟩
        some { s with
          files := Function.update s.files (beside e) (some sidecar)
          known := s.known ++ [sidecar] }
      else none
    | none => none

end ClaudeFleet.SqliteFiles
