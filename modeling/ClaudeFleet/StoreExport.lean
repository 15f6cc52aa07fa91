import ClaudeFleet.Keyset
import ClaudeFleet.Transition

/-! The copy of the Postgres inbox into a SQLite file. An attempt reads one snapshot, resumes the
partial file when its fingerprint says the same content, copies table by table in pages that
commit together with their progress row, and drops the progress tables at the end. A crash or an
error may cut it between any two steps. -/
namespace ClaudeFleet.StoreExport
open Keyset Transition

/-- The inbox tables as the copy sees them. `key` is the primary key, or `md5(r::text)` where there
is none; `shared` says that inbox.db has columns of the table. -/
structure Schema (Row Key Out : Type) where
  path : String
  tables : List String
  version : ℕ
  pk : String → Bool
  key : String → Row → Key
  shared : String → Bool
  toSqlite : String → Row → Out
  auto : String → Bool
  ident : String → Row → ℕ

/-- What a REPEATABLE READ transaction sees: the rows, and the identity sequences that were used. -/
structure Snapshot {Row Key Out : Type} (S : Schema Row Key Out) where
  rows : String → List Row
  marks : String → List ℕ
  keys : ∀ t, S.pk t = true → ((rows t).map (S.key t)).Nodup

structure Progress (Key : Type) where
  copied : ℕ
  lastKey : Option Key
  done : Bool

/-- A SQLite file. `run` is the row of `store_export_run`, if there is one. -/
structure File (Key Out F : Type) where
  version : ℕ
  run : Option F := none
  progress : String → Option (Progress Key) := fun _ => none
  rows : String → List Out := fun _ => []
  seq : String → ℕ := fun _ => 0

inductive Pc (Key : Type)
  | idle
  | opening
  | removed
  | created
  | table (ts : List String)
  | paging (t : String) (ts : List String) (copied : ℕ) (last : Option Key)
  | sealing (t : String) (ts : List String) (copied : ℕ) (last : Option Key)
  | closing
  | returned
  | threw (message : String)

variable {Row Key Out F : Type} [LinearOrder Key] [DecidableEq F]

structure State (S : Schema Row Key Out) (F : Type) where
  file : Option (File Key Out F)
  pc : Pc Key := .idle
  snapshot : Snapshot S := ⟨fun _ => [], fun _ => [], fun _ _ => List.nodup_nil⟩
  chunk : ℕ := 1
  counts : List (String × ℕ) := []

variable (S : Schema Row Key Out) (fingerprint : Snapshot S → F)

/-- One turn of the loop in `exportTable`: a page, and where the last key may have twins the whole
group of it. -/
def Schema.page (t : String) (rows : List Row) (chunk : ℕ) (last : Option Key) : List Row :=
  let page := fetch (S.key t) rows last chunk
  if S.pk t = false ∧ page.length = chunk then widen (S.key t) rows page else page

/-- `writeChunk`. An explicit id raises the AUTOINCREMENT mark of its table. -/
def Schema.writeChunk (f : File Key Out F) (t : String) (page : List Row) (p : Progress Key) :
    File Key Out F :=
  { f with
    rows := Function.update f.rows t (f.rows t ++ page.map (S.toSqlite t))
    seq := Function.update f.seq t
      (if S.auto t then (page.map (S.ident t)).foldl max (f.seq t) else f.seq t)
    progress := Function.update f.progress t (some p) }

/-- The transaction that ends a table. -/
def Schema.seal (f : File Key Out F) (t : String) (marks : List ℕ) (p : Progress Key) :
    File Key Out F :=
  { f with
    seq := Function.update f.seq t (if S.auto t then marks.foldl max (f.seq t) else f.seq t)
    progress := Function.update f.progress t (some p) }

/-- The attempt's next step. -/
def advance (s : State S F) : Option (State S F) :=
  match s.pc, s.file with
  | .opening, none => some { s with pc := .removed }
  | .opening, some f =>
    if f.version = S.version ∧ f.run = some (fingerprint s.snapshot) then
      some { s with pc := .table S.tables }
    else some { s with file := none, pc := .removed }
  | .removed, _ => some { s with file := some { version := S.version }, pc := .created }
  | .created, some f =>
    some { s with
      file := some { f with run := some (fingerprint s.snapshot) }, pc := .table S.tables }
  | .table [], some f =>
    some { s with file := some { f with run := none, progress := fun _ => none }, pc := .closing }
  | .table (t :: ts), some f =>
    let total := (s.snapshot.rows t).length
    let copied := ((f.progress t).map Progress.copied).getD 0
    let last := (f.progress t).bind Progress.lastKey
    if (f.progress t).any Progress.done then
      some { s with pc := .table ts, counts := s.counts ++ [(t, total)] }
    else if S.shared t = false then
      some { s with pc := .threw s!"copying {t} back: inbox.db has no matching columns" }
    else some { s with pc := .paging t ts copied last }
  | .paging t ts copied last, some f =>
    let page := S.page t (s.snapshot.rows t) s.chunk last
    match page.getLast? with
    | none => some { s with pc := .sealing t ts copied last }
    | some r =>
      let next := S.key t r
      some { s with
        file := some (S.writeChunk f t page ⟨copied + page.length, some next, false⟩)
        pc := .paging t ts (copied + page.length) (some next) }
  | .sealing t ts copied last, some f =>
    let n := (f.rows t).length
    let total := (s.snapshot.rows t).length
    if n ≠ total then
      some { s with
        pc := .threw s!"copying {t} back: {S.path} has {n} rows, Postgres has {total}" }
    else
      some { s with
        file := some (S.seal f t (s.snapshot.marks t) ⟨copied, last, true⟩)
        pc := .table ts
        counts := s.counts ++ [(t, total)] }
  | .closing, _ => some { s with pc := .returned }
  | _, _ => none

/-- `start` is a call of `exportInboxToSqlite`, `cut` a crash or an error that ends it. -/
inductive Action (S : Schema Row Key Out)
  | start (snapshot : Snapshot S) (maxRowsPerChunk : Option ℤ)
  | advance
  | cut

def step (s : State S F) : Action S → Option (State S F)
  | .start snapshot maxRowsPerChunk =>
    match s.pc with
    | .idle | .returned | .threw _ =>
      some { s with
        pc := .opening
        snapshot := snapshot
        chunk := (max 1 (maxRowsPerChunk.getD 1000)).toNat
        counts := [] }
    | _ => none
  | .advance => advance S fingerprint s
  | .cut => some { s with pc := .idle }

end ClaudeFleet.StoreExport
