import ClaudeFleet.HostIngest

/-! The desktop watcher on one transcript. A run of process takes the state of the file from the map,
stats, opens and reads the file, hands the new complete lines to the ingest and stores the state
again. In between the file can grow, shrink, be deleted and be created again. -/
namespace ClaudeFleet.JsonlWatcher
open Records HostIngest

/-- `seen` is what the offset stands for: the bytes of the file, as they were when they were read,
up to the offset. The code has only the offset. -/
structure FileState where
  offset : ℕ
  seen : Bytes
  deriving DecidableEq

/-- Where a run of process awaits. A handle keeps the bytes of its file when the path is unlinked;
until then they are those of the path. -/
inductive Phase
  | idle
  | stat (state : FileState)
  | openFile (state : FileState)
  | fstat (state : FileState) (unlinked : Option Bytes)
  | read (state : FileState) (unlinked : Option Bytes) (size : ℕ)
  | ingest (state : FileState) (bytes : Bytes)
  deriving DecidableEq

/-- `owed` says that the file was written after the last event that was delivered for it, and
`passed` is what was handed to the ingest. -/
structure Watcher (L : Type) where
  file : Option Bytes
  files : Option FileState
  queue : ℕ
  owed : Bool
  phase : Phase
  passed : List L
  deriving DecidableEq

def start (L : Type) : Watcher L := ⟨none, none, 0, false, .idle, []⟩

inductive Event
  | add
  | change
  | unlink

inductive Action
  | append (more : Bytes)
  | truncate (size : ℕ)
  | delete
  | create (content : Bytes)
  | event (e : Event)
  | process
  | stat
  | openFile
  | fstat
  | read
  | ingest (succeeds : Bool)

def initState : FileState := ⟨0, []⟩

/-- An open handle keeps the bytes of the file that is unlinked. -/
def unlinkHandle (content : Bytes) : Phase → Phase
  | .fstat state none => .fstat state (some content)
  | .read state none size => .read state (some content) size
  | p => p

variable {L : Type} (lineOf : Bytes → Option L)

/-- The lines of a piece, trimmed, without the blank ones. -/
def lines (bytes : Bytes) : List L := (complete newline bytes).filterMap lineOf

def step (w : Watcher L) : Action → Option (Watcher L)
  | .append more => w.file.map fun content =>
      { w with file := some (content ++ more), owed := true }
  | .truncate size => w.file.map fun content =>
      { w with file := some (content.take size), owed := true }
  | .delete => w.file.map fun content =>
      { w with file := none, phase := unlinkHandle content w.phase }
  | .create content =>
    match w.file with
    | some _ => none
    | none => some { w with file := some content, owed := true }
  | .event .unlink => some { w with files := none }
  | .event _ => some { w with queue := w.queue + 1, owed := false }
  | .process =>
    match w.phase, w.queue with
    | .idle, queue + 1 =>
      let state := w.files.getD initState
      some { w with queue := queue, files := some state, phase := .stat state }
    | _, _ => none
  | .stat =>
    match w.phase, w.file with
    | .stat _, none => some { w with files := none, phase := .idle }
    | .stat state, some content =>
      -- The state is the one in the map, if it is still there.
      let state := if content.length < state.offset then initState else state
      let files := w.files.map fun _ => state
      if content.length = state.offset then some { w with files := files, phase := .idle }
      else some { w with files := files, phase := .openFile state }
    | _, _ => none
  | .openFile =>
    match w.phase, w.file with
    | .openFile _, none => some { w with phase := .idle }
    | .openFile state, some _ => some { w with phase := .fstat state none }
    | _, _ => none
  | .fstat =>
    match w.phase with
    | .fstat state unlinked =>
      let content := unlinked.getD (w.file.getD [])
      if content.length ≤ state.offset then some { w with files := some state, phase := .idle }
      else some { w with phase := .read state unlinked content.length }
    | _ => none
  | .read =>
    match w.phase with
    | .read state unlinked size =>
      let content := unlinked.getD (w.file.getD [])
      let buf := (content.drop state.offset).take (size - state.offset)
      let bytes := buf.rdropWhile (· != newline)
      if bytes = [] then some { w with files := some state, phase := .idle }
      else some { w with phase := .ingest state bytes, passed := w.passed ++ lines lineOf bytes }
    | _ => none
  | .ingest succeeds =>
    match w.phase with
    | .ingest state bytes =>
      if succeeds then
        some { w with
          files := some ⟨state.offset + bytes.length, state.seen ++ bytes⟩
          phase := .idle }
      else some { w with phase := .idle }
    | _ => none

end ClaudeFleet.JsonlWatcher
