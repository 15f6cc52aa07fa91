import ClaudeFleet.Transition

/-! The history mirror of a session. A read hands its lines to the ingest, which commits them in
chunks and reports the ones that are new, and appends those to the mirror file. The events are in the
database before the lines are in the mirror. -/
namespace ClaudeFleet.HistoryMirror
open Transition

def ingestTxLines : ℕ := 500

/-- Where a read awaits; `fresh` are the lines of it that the ingest has inserted. -/
inductive Phase (L : Type)
  | idle
  | ingest (rest fresh : List L)
  | mkdir (fresh : List L)
  | appendFile (fresh : List L)
  deriving DecidableEq

/-- `events` are the lines of the session that the table holds, in the order of their inserts. -/
structure Mirror (L : Type) where
  events : List L
  mirror : List L
  phase : Phase L
  deriving DecidableEq

def start (L : Type) : Mirror L := ⟨[], [], .idle⟩

inductive Action (L : Type)
  | read (batch : List L)
  | chunk (commits : Bool)
  | mkdir (succeeds : Bool)
  /-- `none` for success; an append that fails has written some of the lines. -/
  | appendFile (failed : Option ℕ)
  | crash

variable {L K : Type} [DecidableEq K] (key : L → Option K)

/-- The inserts of a chunk: a line that does not parse has no key, and one whose key is there
already is ignored. -/
def insertLines : List L → List L → List L
  | _, [] => []
  | events, l :: ls =>
    if key l = none ∨ key l ∈ events.map key then insertLines events ls
    else l :: insertLines (events ++ [l]) ls

/-- After the last chunk the mirror buffer is written, unless it is empty. -/
def afterChunk (rest fresh : List L) : Phase L :=
  match rest, fresh with
  | _ :: _, _ => .ingest rest fresh
  | [], [] => .idle
  | [], _ :: _ => .mkdir fresh

def step (m : Mirror L) : Action L → Option (Mirror L)
  | .read batch =>
    match m.phase, batch with
    | .idle, _ :: _ => some { m with phase := .ingest batch [] }
    | _, _ => none
  | .chunk commits =>
    match m.phase with
    | .ingest rest fresh =>
      if commits then
        let inserted := insertLines key m.events (rest.take ingestTxLines)
        some { m with
          events := m.events ++ inserted
          phase := afterChunk (rest.drop ingestTxLines) (fresh ++ inserted) }
      else some { m with phase := .idle }
    | _ => none
  | .mkdir succeeds =>
    match m.phase with
    | .mkdir fresh => some { m with phase := if succeeds then .appendFile fresh else .idle }
    | _ => none
  | .appendFile failed =>
    match m.phase with
    | .appendFile fresh =>
      some { m with
        mirror := m.mirror ++ (match failed with
          | none => fresh
          | some k => fresh.take k)
        phase := .idle }
    | _ => none
  | .crash => some { m with phase := .idle }

/-- The lines that are in the database and not yet in the mirror. -/
def Phase.fresh : Phase L → List L
  | .idle => []
  | .ingest _ fresh => fresh
  | .mkdir fresh => fresh
  | .appendFile fresh => fresh

variable {key}

/-- The mirror and the lines on their way make up the events, whose keys are distinct. -/
structure InStep (key : L → Option K) (m : Mirror L) : Prop where
  mirror : m.mirror ++ m.phase.fresh = m.events
  keys : (m.events.map key).Nodup
  parsed : ∀ l ∈ m.events, key l ≠ none

/-- A chunk that fails before anything is inserted, the retry, and a read again from the start. -/
def exRun : List (Action ℕ) :=
  [.read [1, 2], .chunk false, .read [1, 2], .chunk true, .mkdir true, .appendFile none,
    .read [2, 1, 3], .chunk true, .mkdir true, .appendFile none]

end ClaudeFleet.HistoryMirror
