import Mathlib.Tactic
import ClaudeFleet.Table

/-! The merge of the user-authored tables of one store into another. A row is the values of its
columns; each dialect writes text and reads integers in its own way. The columns that an INSERT
leaves out, local ids among them, get the values `assign` gives them. -/
namespace ClaudeFleet.UserStateMerge

inductive Mode
  | upsert
  | missing
  deriving DecidableEq

structure MergeSpec where
  table : String
  key : List String
  mode : Mode
  update : Option (List String) := none
  localId : Option String := none
  deriving DecidableEq

def USER_STATE_MERGE : List MergeSpec :=
  [{ table := "sessions", key := ["id"], mode := .upsert, update := some ["user_set_name"] },
    { table := "broker_sessions", key := ["workspace_id", "broker_session_id"], mode := .upsert },
    { table := "session_tags", key := ["session_id", "tag"], mode := .upsert, update := some [] },
    { table := "port_exposures", key := ["id"], mode := .upsert },
    { table := "usage_events", key := ["ts", "workspace_id", "session_id", "kind", "detail"],
      mode := .missing, localId := some "id" },
    { table := "usage_anchors", key := ["dedup_key"], mode := .upsert, localId := some "id" }]

inductive Dialect
  | sqlite
  | postgres
  deriving DecidableEq

inductive Value
  | null
  | int (n : ℤ)
  | text (s : String)
  deriving DecidableEq

abbrev Row := String → Value

def keyOf (m : MergeSpec) (r : Row) : List Value := m.key.map r

/-- Postgres takes no NUL in text. -/
def sanitizeNul (s : String) : String := s.map fun c => if c = '\x00' then '\uFFFD' else c

/-- What a store keeps of a value. -/
def Dialect.write : Dialect → Value → Value
  | .postgres, .text s => .text (sanitizeNul s)
  | _, v => v

/-! Numbers. -/

/-- The double nearest to a natural number, ties to even. -/
def toDouble (m : ℕ) : ℕ :=
  if m < 2 ^ 53 then m
  else
    let u := 2 ^ (m.log2 - 52)
    let low := m / u * u
    if 2 * (m % u) < u ∨ 2 * (m % u) = u ∧ m / u % 2 = 0 then low else low + u

/-- The decimal with the most trailing zeros that reads back as the double. -/
def shorten (x : ℕ) : ℕ → ℕ
  | 0 => x
  | j + 1 =>
    let low := x / 10 ^ (j + 1) * 10 ^ (j + 1)
    let high := low + 10 ^ (j + 1)
    let near := if x - low ≤ high - x then low else high
    let far := if x - low ≤ high - x then high else low
    if toDouble near = x then near else if toDouble far = x then far else shorten x j

/-- `String(Number(n))` of an integer of 64 bits. -/
def numberString (n : ℤ) : String :=
  let m := shorten (toDouble n.natAbs) 19
  if n < 0 then toString (-(m : ℤ)) else toString (m : ℤ)

/-- A value as the program has it: Postgres hands int8 over as a double. -/
inductive Cell
  | null
  | bigint (n : ℤ)
  | number (n : ℤ)
  | text (s : String)
  deriving DecidableEq

/-- `readUserState` reads integers as BigInt on both dialects. -/
def Value.read : Value → Cell
  | .null => .null
  | .int n => .bigint n
  | .text s => .text s

/-- The array that `keyString` turns into JSON, which is one to one. -/
def keyString (m : MergeSpec) (r : String → Cell) : List (Option String) :=
  m.key.map fun c =>
    match r c with
    | .bigint n => some (toString n)
    | .number n => some (numberString n)
    | .text s => some (sanitizeNul s)
    | .null => none

/-! Stores. -/

/-- The tables of a store: unique ones, and logs. -/
structure Store where
  cols : MergeSpec → List String
  unique : (m : MergeSpec) → Table (keyOf m)
  log : MergeSpec → List Row

/-- A table of the outgoing store without its local id. -/
structure Source where
  cols : List String
  rows : List Row

/-- `readUserState` -/
def readUserState (s : Store) (m : MergeSpec) : Source where
  cols := (s.cols m).filter fun c => some c ≠ m.localId
  rows :=
    match m.mode with
    | .upsert => (s.unique m).rows
    | .missing => s.log m

section Insert
variable (d : Dialect) (assign : Assign) (m : MergeSpec) (cols : List String)

/-- `DO UPDATE SET` the columns `update`. -/
def overwrite (update : List String) (x r : Row) : Row := fun c =>
  if c ∈ update then d.write (x c) else r c

end Insert

/-- The columns that both stores have. -/
def commonCols (s : Store) (src : Source) (m : MergeSpec) : List String :=
  src.cols.filter (· ∈ s.cols m)

def updateCols (s : Store) (src : Source) (m : MergeSpec) : List String :=
  (m.update.getD ((commonCols s src m).filter (· ∉ m.key))).filter (· ∈ s.cols m)

end ClaudeFleet.UserStateMerge
