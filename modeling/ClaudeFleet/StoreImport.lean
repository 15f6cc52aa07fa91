import ClaudeFleet.Keyset
import ClaudeFleet.Transition

/-! The copy of a SQLite file into an empty Postgres store. The file is read a statement at a time
and may be written in between; Postgres is written a transaction at a time, each chunk together
with its progress row. An attempt may be cut anywhere and resumes while the file's fingerprint is
the one of the run. -/
namespace ClaudeFleet.StoreImport
open Keyset Transition

/-- A value of a SQLite cell; a real by the text JavaScript prints for it. -/
inductive Value
  | null
  | int (n : ℤ)
  | real (text : String)
  | text (s : String)
  | blob (bytes : List UInt8)
  deriving DecidableEq

/-- What the copy takes from outside: the UTF-8 reading of bytes, `String(Number(v))`, the
canonical text of a vector, its decoding from a BLOB, and zlib. -/
structure Codec where
  utf8 : List UInt8 → String
  number : Value → String
  vector : Value → String
  decodeVector : List UInt8 → String
  inflate : List UInt8 → Option String

def hexDigit (n : ℕ) : Char := if n < 10 then Char.ofNat (48 + n) else Char.ofNat (87 + n)

def hex (bytes : List UInt8) : String :=
  "\\x" ++ String.ofList (bytes.flatMap fun b => [hexDigit (b.toNat / 16), hexDigit (b.toNat % 16)])

/-- Postgres text takes no NUL. -/
def withoutNul (s : String) : String :=
  s.map fun c => if c = Char.ofNat 0 then Char.ofNat 0xfffd else c

def Codec.string (k : Codec) : Value → String
  | .null => "null"
  | .int n => toString n
  | .real text => text
  | .text s => s
  | .blob bytes => k.utf8 bytes

/-- One comparable form for a source value and the `::text` Postgres returns for it. -/
def Codec.canonicalValue (k : Codec) (udt : String) (v : Value) : Option String :=
  if v = .null then none
  else if udt ∈ ["int2", "int4", "int8"] then some (k.string v)
  else if udt ∈ ["float4", "float8", "numeric"] then some (k.number v)
  else if udt = "vector" then some (k.vector v)
  else
    match v with
    | .blob bytes => some (if udt = "bytea" then hex bytes else withoutNul (k.utf8 bytes))
    | v => some (withoutNul (k.string v))

structure Column where
  name : String
  udt : String
  identity : Bool := false
  deriving DecidableEq

/-- A row of a SQLite table. -/
structure Row where
  rowid : ℤ
  cell : String → Value

/-- A row of a Postgres table: the `::text` of its columns, and its identity columns as numbers. -/
structure PgRow where
  cell : String → Option String
  id : String → ℤ

/-- An event's deflated line goes into `raw_jsonl`, unless it is corrupt. -/
def Codec.inflateLine (k : Codec) (table : String) (r : Row) : Row :=
  match r.cell "raw_z" with
  | .blob bytes =>
    if table = "events" ∧ 0 < bytes.length then
      match k.inflate bytes with
      | some line =>
        let cell := Function.update r.cell "raw_jsonl" (.text line)
        { r with cell := Function.update cell "raw_z" .null }
      | none => r
    else r
  | _ => r

def Codec.convertCell (k : Codec) (c : Column) : Value → Value
  | .blob bytes =>
    if c.udt = "vector" then if bytes = [] then .null else .text (k.decodeVector bytes)
    else if c.udt = "bytea" then .blob bytes
    else .text (k.utf8 bytes)
  | v => v

/-- The values the copy inserts for a row, in the order of the columns. -/
def Codec.values (k : Codec) (table : String) (cols : List Column) (r : Row) : List Value :=
  cols.map fun c => k.convertCell c ((k.inflateLine table r).cell c.name)

def Codec.canonical (k : Codec) (cols : List Column) (values : List Value) :
    List (Option String) :=
  List.zipWith (fun c v => k.canonicalValue c.udt v) cols values

/-- A source row as the copy compares it. -/
def Codec.want (k : Codec) (table : String) (cols : List Column) (r : Row) : List (Option String) :=
  k.canonical cols (k.values table cols r)

/-- A stored row as the copy compares it. -/
def Codec.got (k : Codec) (cols : List Column) (r : PgRow) : List (Option String) :=
  cols.map fun c =>
    k.canonicalValue c.udt (match r.cell c.name with | none => .null | some s => .text s)

/-- The SQLite file. `tables` is `none` for a table it does not have, `marks` the AUTOINCREMENT
marks of `sqlite_sequence`. -/
structure File where
  hot : Bool := false
  userVersion : ℕ
  columns : String → List String
  tables : String → Option (List Row)
  marks : String → ℤ
  rowids : ∀ t rows, tables t = some rows → (rows.map Row.rowid).Nodup

def File.rows (f : File) (t : String) : List Row := (f.tables t).getD []

structure Run where
  fingerprint : String
  finished : Bool
  deriving DecidableEq

structure Progress where
  lastRowid : ℤ
  copied : ℕ
  done : Bool

structure Pg where
  run : Option Run := none
  progress : String → Option Progress := fun _ => none
  rows : String → List PgRow := fun _ => []
  seq : String → String → ℤ := fun _ _ => 1

inductive Status
  | copied
  | already
  | absent
  | skippedNonempty
  | skippedConflict
  deriving DecidableEq

/-- The locals of `copyTable`, and of the loop around it. -/
structure Cursor where
  fingerprint : String
  attempt : ℕ
  table : String
  rest : List String
  found : Bool
  total : ℕ
  cols : List Column
  last : ℤ
  copied : ℕ

/-- The `await` an attempt stands at. `finishing` and `copied` carry the file and the number of
its writes at the last look at the fingerprint. -/
inductive Pc
  | idle
  | reading (fingerprint : String)
  | probing (fingerprint : String) (ts : List String)
  | inserting (fingerprint : String)
  | restarting (fingerprint : String) (attempt : ℕ)
  | table (fingerprint : String) (attempt : ℕ) (ts : List String)
  | looking (fingerprint : String) (attempt : ℕ) (t : String) (ts : List String) (found : Bool)
      (total : ℕ)
  | paging (c : Cursor)
  | storing (c : Cursor) (page : List Row)
  | sealing (c : Cursor) (mark : ℤ)
  | finishing (f : File) (version : ℕ)
  | copied (f : File) (version : ℕ)
  | returned (status : Status)
  | threw (message : String)

structure Config where
  codec : Codec
  path : String
  basename : String
  /-- `IMPORT_TABLES[source]` -/
  tables : List String
  isState : Bool
  expectedVersion : ℕ
  pgCols : String → List Column
  /-- `sourceFingerprint` after so many writes to the file -/
  fingerprint : ℕ → String
  /-- `pgTablesFingerprint` -/
  pgFingerprint : Pg → String
  /-- what the server stores for the values of a row -/
  store : String → List Column → List Value → PgRow

structure State where
  file : Option File
  version : ℕ := 0
  pg : Pg := {}
  pc : Pc := .idle
  maxParams : ℤ := 30000

def fingerprintAttempts : ℕ := 3

def exportedPrefix : String := "exported:"

/-- Columns both sides have. -/
def Config.shared (C : Config) (f : File) (t : String) : List Column :=
  (C.pgCols t).filter fun c => c.name ∈ f.columns t

/-- Rows of a chunk. -/
def chunkRows (maxParams : ℤ) (cols : List Column) : ℕ :=
  (max 1 (min 1000 (maxParams / max 1 (cols.length : ℤ)))).toNat

/-- `SELECT … WHERE rowid > ? ORDER BY rowid LIMIT ?` -/
def File.page (f : File) (t : String) (last : ℤ) (n : ℕ) : List Row :=
  fetch Row.rowid (f.rows t) (some last) n

/-- The transaction of `restartImport`. -/
def Pg.restart (C : Config) (p : Pg) (fingerprint : String) : Pg where
  run := p.run.map fun r => { r with fingerprint := fingerprint }
  progress := fun _ => none
  rows t := if t ∈ C.tables then [] else p.rows t
  seq t := if t ∈ C.tables then fun _ => 1 else p.seq t

/-- The chunk's transaction, once the stored rows are found to be the source's. -/
def Pg.insert (p : Pg) (t : String) (rows : List PgRow) (progress : Progress) : Pg :=
  { p with
    rows := Function.update p.rows t (p.rows t ++ rows)
    progress := Function.update p.progress t (some progress) }

/-- `GREATEST(COALESCE(max(id), 0), seq)` -/
def Pg.highest (p : Pg) (t : String) (c : Column) (mark : ℤ) : ℤ :=
  max (((p.rows t).map fun r => r.id c.name).foldl max 0) mark

/-- The transaction that ends a table. -/
def Pg.seal (C : Config) (p : Pg) (t : String) (mark : ℤ) (progress : Progress) : Pg :=
  { p with
    seq := Function.update p.seq t fun name =>
      match (C.pgCols t).find? fun c => c.name = name ∧ c.identity with
      | some c => max (p.highest t c mark) 1
      | none => p.seq t name
    progress := Function.update p.progress t (some progress) }

def State.goto (s : State) (pc : Pc) : State := { s with pc := pc }

/-- An in-progress run: resume it, start it over, or leave both copies. -/
def Config.resume (C : Config) (s : State) (fingerprint : String) (r : Run) : Pc :=
  if r.fingerprint = fingerprint then .table fingerprint 1 C.tables
  else if exportedPrefix.isPrefixOf r.fingerprint ∧
      exportedPrefix ++ C.pgFingerprint s.pg ≠ r.fingerprint then .returned .skippedConflict
  else .restarting fingerprint 1

/-- The next chunk of a table, read from the file. -/
def Config.nextPage (s : State) (f : File) (c : Cursor) : List Row :=
  if c.found = true ∧ c.cols ≠ [] then f.page c.table c.last (chunkRows s.maxParams c.cols) else []

/-- The transaction of a chunk. -/
def Config.storeChunk (C : Config) (s : State) (c : Cursor) (page : List Row) : State :=
  let stored := page.map fun r => C.store c.table c.cols (C.codec.values c.table c.cols r)
  let last := (page.getLast?.map Row.rowid).getD c.last
  let copied := c.copied + page.length
  if (stored.map (C.codec.got c.cols)).Perm (page.map (C.codec.want c.table c.cols)) then
    { s with
      pg := s.pg.insert c.table stored ⟨last, copied, false⟩
      pc := .paging { c with last := last, copied := copied } }
  else
    s.goto (.threw s!"copying {c.table}: a row Postgres stored differs from {C.path}")

/-- The attempt's next step. -/
def Config.advance (C : Config) (s : State) : Option State :=
  match s.pc, s.file with
  | .reading fp, some _ =>
    match s.pg.run with
    | none => some (s.goto (.probing fp C.tables))
    | some r =>
      if r.finished then
        some (s.goto (.returned
          (if C.isState ∨ r.fingerprint = fp then .already else .skippedConflict)))
      else some (s.goto (C.resume s fp r))
  | .probing fp [], _ => some (s.goto (.inserting fp))
  | .probing fp (t :: ts), _ =>
    if (s.pg.rows t).isEmpty then some (s.goto (.probing fp ts))
    else some (s.goto (.returned .skippedNonempty))
  | .inserting fp, _ =>
    some { s with pg := { s.pg with run := some ⟨fp, false⟩ }, pc := .table fp 1 C.tables }
  | .restarting fp n, _ =>
    some { s with pg := s.pg.restart C fp, pc := .table fp n C.tables }
  | .table fp n (t :: ts), some f =>
    some (s.goto (.looking fp n t ts (f.tables t).isSome (f.rows t).length))
  | .looking fp n t ts found total, some f =>
    let last := ((s.pg.progress t).map Progress.lastRowid).getD 0
    let copied := ((s.pg.progress t).map Progress.copied).getD 0
    if (s.pg.progress t).any Progress.done then some (s.goto (.table fp n ts))
    else some (s.goto (.paging ⟨fp, n, t, ts, found, total, C.shared f t, last, copied⟩))
  | .paging c, some f =>
    let page := Config.nextPage s f c
    if page.isEmpty then some (s.goto (.sealing c (f.marks c.table)))
    else some (s.goto (.storing c page))
  | .storing c page, _ => some (C.storeChunk s c page)
  | .sealing c mark, _ =>
    let n := (s.pg.rows c.table).length
    if n ≠ c.total then
      some (s.goto (.threw
        s!"copying {c.table}: Postgres has {n} rows, {C.path} has {c.total}"))
    else
      some { s with
        pg := s.pg.seal C c.table mark ⟨c.last, c.copied, true⟩
        pc := .table c.fingerprint c.attempt c.rest }
  | .table fp n [], some f =>
    -- only the fingerprint shows a write to a row that was copied already
    if C.fingerprint s.version = fp then some (s.goto (.finishing f s.version))
    else if fingerprintAttempts ≤ n then
      some (s.goto (.threw s!"{C.path} kept changing during the copy"))
    else some (s.goto (.restarting (C.fingerprint s.version) (n + 1)))
  | .finishing f v, _ =>
    some { s with
      pg := { s.pg with run := s.pg.run.map fun r => { r with finished := true } }
      pc := .copied f v }
  | _, _ => none

/-- No attempt is under way. -/
def Pc.resting : Pc → Bool
  | .idle | .copied _ _ | .returned _ | .threw _ => true
  | _ => false

inductive Action
  | start (maxParams : Option ℤ)
  | advance
  | cut
  | write (f : File)
  | remove

/-- What `importSqlite` does before its first `await`. -/
def Config.start (C : Config) (s : State) : Pc :=
  match s.file with
  | none => .returned .absent
  | some f =>
    if f.hot then
      .threw (s!"{C.path} has an unfinished transaction ({C.basename}-journal) that only a " ++
        "read-write open rolls back. Switch back to SQLite: it opens the file as is and " ++
        "recovers it. Nothing was copied.")
    else if f.userVersion ≠ C.expectedVersion then
      .threw (s!"{C.path} is at schema version {f.userVersion}; this build copies version " ++
        s!"{C.expectedVersion}. Open it once on SQLite with this build first.")
    else .reading (C.fingerprint s.version)

def Config.step (C : Config) (s : State) : Action → Option State
  | .start maxParams =>
    if s.pc.resting then
      some { s with pc := C.start s, maxParams := maxParams.getD 30000 }
    else none
  | .advance => C.advance s
  | .cut => some (s.goto .idle)
  | .write f => some { s with file := some f, version := s.version + 1 }
  | .remove =>
    if s.pc.resting then some { s with file := none, version := s.version + 1 } else none

end ClaudeFleet.StoreImport
