import ClaudeFleet.Records
import ClaudeFleet.Transition

/-! The ingest of one transcript by the host. A file is read in pieces of bounded size, and the
complete lines of a piece go into transactions of bounded size, each of which also stores the offset
that it has reached. -/
namespace ClaudeFleet.HostIngest
open Records

abbrev Bytes := List UInt8

def newline : UInt8 := 0x0a

def ingestTxLines : ℕ := 500

structure Options where
  maxReadBytes : ℕ
  maxLineBytes : ℕ
  maxChunkBytes : ℕ

/-- The line loop of a read: `rest` is what is left up to the last newline of the piece. -/
structure Reading (L : Type) where
  offset : ℕ
  size : ℕ
  pos : ℕ
  rest : Bytes
  lines : List L
  bytes : ℕ
  deriving DecidableEq

inductive Phase (L : Type)
  | idle
  | scanning (offset size : ℕ)
  | reading (r : Reading L)
  deriving DecidableEq

/-- `done` is the mark in memory, `persisted` the row of host_ingest_offsets, and `committed` the
lines of the transactions that have committed. -/
structure Host (L : Type) where
  content : Bytes
  done : Option ℕ
  persisted : Option ℕ
  committed : List L
  stopped : Bool
  phase : Phase L
  deriving DecidableEq

def start (L : Type) : Host L := ⟨[], none, none, [], false, .idle⟩

/-- The loop of reads of `step` bytes. -/
def findNewline (content : Bytes) (size step : ℕ) : ℕ → ℕ → Option ℕ
  | 0, _ => none
  | fuel + 1, pos =>
    if pos < size then
      let buf := (content.drop pos).take (min step (size - pos))
      let before := buf.takeWhile (· != newline)
      if before.length < buf.length then some (pos + before.length)
      else if buf = [] then none
      else findNewline content size step fuel (pos + step)
    else none

inductive Action
  | append (more : Bytes)
  | process
  | read
  | line (commits : Bool)
  | stop
  | restart

variable {L : Type} (o : Options) (lineOf : Bytes → Option L)

/-- The head of readFrom, up to its line loop; the loop in process goes on, or is left. -/
def readFrom (h : Host L) (offset size : ℕ) : Host L :=
  let want := min (size - offset) o.maxReadBytes
  let buf := (h.content.drop offset).take want
  let upto := buf.rdropWhile (· != newline)
  if upto = [] then
    if size ≤ offset + buf.length then { h with phase := .idle }
    else
      match findNewline h.content size o.maxReadBytes size (offset + buf.length) with
      | none => { h with phase := .idle }
      | some nl =>
        let len := nl + 1 - offset
        if o.maxLineBytes < len then { h with done := some (nl + 1), phase := .scanning (nl + 1) size }
        else { h with phase := .reading ⟨offset, size, 0, (h.content.drop offset).take len, [], 0⟩ }
  else { h with phase := .reading ⟨offset, size, 0, upto, [], 0⟩ }

/-- A flush that commits. Without lines there is no transaction, only the mark moves. -/
def flush (h : Host L) (lines : List L) (stop : ℕ) : Host L :=
  if lines = [] then { h with done := some stop }
  else
    { h with committed := h.committed ++ lines, persisted := some stop, done := some stop }

/-- Whether the lines so far go into a transaction of their own before the next one is taken. -/
def full (r : Reading L) (raw : Bytes) : Bool :=
  (lineOf raw).isSome && !r.lines.isEmpty &&
    (ingestTxLines ≤ r.lines.length || o.maxChunkBytes < r.bytes + raw.length)

def take (r : Reading L) (raw : Bytes) : Reading L :=
  { r with
    pos := r.pos + raw.length + 1
    rest := r.rest.drop (raw.length + 1)
    lines := r.lines ++ (lineOf raw).toList
    bytes := if (lineOf raw).isSome then r.bytes + raw.length else r.bytes }

/-- One turn of the line loop, or the flush after it. An ingest that throws ends the run. -/
def lineStep (h : Host L) (r : Reading L) (commits : Bool) : Host L :=
  if r.rest = [] then
    if r.lines = [] ∨ commits then
      { flush h r.lines (r.offset + r.pos) with phase := .scanning (r.offset + r.pos) r.size }
    else { h with phase := .idle }
  else if h.stopped then { h with phase := .idle }
  else
    let raw := r.rest.takeWhile (· != newline)
    if full o lineOf r raw then
      if commits then
        { flush h r.lines (r.offset + r.pos) with
          phase := .reading (take lineOf { r with lines := [], bytes := 0 } raw) }
      else { h with phase := .idle }
    else { h with phase := .reading (take lineOf r raw) }

def step (h : Host L) : Action → Option (Host L)
  | .append more => some { h with content := h.content ++ more }
  | .process =>
    match h.phase with
    | .idle =>
      if h.stopped then none
      else
        let size := h.content.length
        let offset := h.done.getD 0
        some { h with phase := .scanning (if size < offset then 0 else offset) size }
    | _ => none
  | .read =>
    match h.phase with
    | .scanning offset size =>
      if offset < size ∧ ¬ h.stopped then some (readFrom o h offset size)
      else some { h with phase := .idle }
    | _ => none
  | .line commits =>
    match h.phase with
    | .reading r => some (lineStep o lineOf h r commits)
    | _ => none
  | .stop => some { h with stopped := true }
  | .restart => some { h with done := h.persisted, stopped := false, phase := .idle }

end ClaudeFleet.HostIngest
