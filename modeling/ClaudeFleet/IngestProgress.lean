import ClaudeFleet.HostIngestExact
import ClaudeFleet.JsonlWatcher
import ClaudeFleet.Reingest

/-! Whether the read loops get past a line. A batch with a line on which the parse throws is
rejected, and is read again from the same offset. -/
namespace ClaudeFleet.StateDb
open IngestParse Records Transition

variable (rt : Runtime)

/-- The JSON null has no properties, and the type of some values has no string. -/
def throws (line : String) : Bool :=
  match rt.parse line with
  | none => false
  | some .null => true
  | some v => (Json.nullish (v.field "type")).any Json.unprintable

def Throws (line : String) : Prop := throws rt line = true

instance (line : String) : Decidable (Throws rt line) := inferInstanceAs (Decidable (_ = true))

variable {rt}

variable {workspaceId sessionId : String} {now : ℤ}

section watcher

open HostIngest JsonlWatcher

/-- The database and the offset of the file in the watcher's map. -/
structure Tail where
  st : State
  offset : ℕ

variable (rt) (workspaceId sessionId) (lineOf : Bytes → Option String)

/-- The offset is at the end of a line, and every line before it is in the database. -/
structure Tail.Ok (content : Bytes) (t : Tail) : Prop where
  le : t.offset ≤ content.length
  boundary : Boundary newline (content.take t.offset)
  known : ∀ line ∈ lines lineOf (content.take t.offset), LineKnown rt workspaceId sessionId t.st line
  caught : (∀ line ∈ lines lineOf content, ¬ Throws rt line) →
    content.rdropWhile (· != newline) = content.take t.offset

variable {rt workspaceId sessionId lineOf}

end watcher

section host

open HostIngest

variable {o : Options} {lineOf : Bytes → Option String}

end host

end ClaudeFleet.StateDb
