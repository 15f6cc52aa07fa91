import Mathlib.Tactic
import Mathlib.Data.Prod.Lex
import Mathlib.Data.String.Basic
import ClaudeFleet.Keyset
import ClaudeFleet.RawCodec
import ClaudeFleet.Table
import ClaudeFleet.Transition

/-! The events step of a retention pass: each old session is walked between its watermarks in
bounded slices, its lines stripped and compressed, and the watermarks advance once both ranges are
done. A stop request ends the pass between two slices. -/
namespace ClaudeFleet.Retention
open IngestParse RawCodec Transition

def dayMs : ℤ := 86400000
def compressAfterMs : ℤ := 30 * dayMs
def stripAfterMs : ℤ := 30 * dayMs
def stripAfterResumedMs : ℤ := 90 * dayMs
def sliceBytes : ℕ := 2 * 1024 * 1024

/-- An events row, with the columns retention reads. `watermark` records the compress watermark of
the session when the row was inserted. -/
structure Event extends Stored where
  id : ℕ
  sessionId : String
  ts : Option ℤ
  toolUseId : Option String
  dedupKey : String
  watermark : ℤ
  deriving DecidableEq

structure Session where
  id : String
  workspaceId : String
  startedAt : Option ℤ
  lastActiveAt : Option ℤ
  deriving DecidableEq

/-- An event_retention row. -/
structure Watermarks where
  sessionId : String
  workspaceId : String
  compressedBefore : ℤ
  strippedBefore : ℤ
  deriving DecidableEq

structure Db where
  events : Table Event.id := Table.empty
  eventSeq : ℕ := 0
  sessions : Table Session.id := Table.empty
  retention : Table Watermarks.sessionId := Table.empty
  /-- Sessions with a usage event of kind resumed. -/
  resumed : List String := []

def Db.compressedBefore (db : Db) (sessionId : String) : ℤ :=
  ((db.retention.get sessionId).map Watermarks.compressedBefore).getD 0

def Db.strippedBefore (db : Db) (sessionId : String) : ℤ :=
  ((db.retention.get sessionId).map Watermarks.strippedBefore).getD 0

/-- The codec, the JavaScript runtime and the store's dialect. -/
structure Env where
  rt : Runtime
  slice : String → ℕ → String
  zlib : Zlib
  /-- stateDialect() is sqlite. -/
  compress : Bool
  sliceRows : ℕ+

/-! Ingest. -/

def touchSession (db : Db) (workspaceId sessionId : String) (ts : Option ℤ) : Db :=
  let next := touchOne ((db.sessions.get sessionId).map fun r => ⟨r.startedAt, r.lastActiveAt⟩) ts
  { db with
    sessions := db.sessions.upsert ⟨sessionId, workspaceId, next.startedAt, next.lastActiveAt⟩
      (fun r => { r with startedAt := next.startedAt, lastActiveAt := next.lastActiveAt })
      fun _ => rfl }

def insertEvent (db : Db) (sessionId rawLine : String) (p : ParsedLine) : Db :=
  if db.events.rows.any fun e => e.sessionId = sessionId ∧ e.dedupKey = p.dedupKey then
    { db with eventSeq := db.eventSeq + 1 }
  else
    { db with
      events := db.events.insertIgnore
        { id := db.eventSeq + 1, sessionId := sessionId, ts := p.ts,
          toolUseId := p.event.toolUseId, dedupKey := p.dedupKey, rawJsonl := rawLine,
          rawZ := none, watermark := db.compressedBefore sessionId }
      eventSeq := db.eventSeq + 1 }

/-- One line of a transcript; a line that is not an event leaves the store as it is. -/
def ingestLine (env : Env) (db : Db) (workspaceId sessionId rawLine : String) : Db :=
  match parseIngestLine env.rt rawLine with
  | .error _ => db
  | .ok none => db
  | .ok (some p) => insertEvent (touchSession db workspaceId sessionId p.ts) sessionId rawLine p

/-! The pass. -/

structure Candidate where
  sessionId : String
  workspaceId : String
  resumed : Bool
  compressedBefore : ℤ
  strippedBefore : ℤ
  lastActiveAt : ℤ

def retentionCandidates (db : Db) (cut : ℤ) : List Candidate :=
  let old := db.sessions.rows.filter fun s =>
    (s.startedAt.any fun t => t < cut) ∧
      (db.compressedBefore s.id < cut ∨ db.strippedBefore s.id < cut)
  (old.insertionSort fun a b =>
      toLex (a.startedAt.getD 0, a.id) ≤ toLex (b.startedAt.getD 0, b.id)).map fun s =>
    { sessionId := s.id
      workspaceId := s.workspaceId
      resumed := s.id ∈ db.resumed
      compressedBefore := db.compressedBefore s.id
      strippedBefore := db.strippedBefore s.id
      lastActiveAt := s.lastActiveAt.getD 0 }

/-- The rows of one session range. -/
structure Range where
  sessionId : String
  fromTs : ℤ
  toTs : ℤ
  toolOnly : Bool

def Range.holds (r : Range) (e : Event) : Bool :=
  e.sessionId = r.sessionId && (e.ts.any fun t => r.fromTs ≤ t ∧ t < r.toTs) &&
    (!r.toolOnly || e.toolUseId.isSome)

/-- The keyset order on (ts, id). -/
def Event.key (e : Event) : ℤ ×ₗ ℕ := toLex (e.ts.getD 0, e.id)

def Event.bytes (e : Event) : ℕ := e.rawJsonl.utf8ByteSize + (e.rawZ.map List.length).getD 0

def retentionKeys (events : List Event) (r : Range) (after : Option (ℤ ×ₗ ℕ)) (limit : ℕ) :
    List Event :=
  Keyset.fetch Event.key (events.filter r.holds) after limit

/-- How many of the keys fit the byte budget; at least one of a non-empty list. -/
def takeBytes : List Event → ℕ → ℕ
  | [], _ => 0
  | e :: keys, bytes =>
    if bytes + e.bytes ≤ sliceBytes then takeBytes keys (bytes + e.bytes) + 1 else 0

def sliceLength : List Event → ℕ
  | [] => 0
  | e :: keys => takeBytes keys e.bytes + 1

/-- Strip (ts < stripCut), then compress (ts < compressCut); `none` when nothing changes. -/
def transform (env : Env) (row : Event) (now stripCut compressCut : ℤ) : Option Stored :=
  match rawLine env.zlib row.toStored with
  | none => none
  | some line =>
    let out := if row.ts.any fun t => t < stripCut then
        (stripLine env.rt env.slice line now).getD line
      else line
    let wantCompressed := env.compress && (row.ts.any fun t => t < compressCut) &&
      decide (compressMinBytes ≤ out.utf8ByteSize)
    if out = line ∧ wantCompressed = row.isCompressed then none
    else some (if wantCompressed then ⟨"", some (env.zlib.deflate out)⟩ else ⟨out, none⟩)

def Event.store (e : Event) (next : Stored) : Event := { e with toStored := next }

structure Update where
  id : ℕ
  next : Stored

/-- The updates of one slice, in one transaction. -/
def rewriteEventRaw (events : Table Event.id) (updates : List Update) : Table Event.id :=
  events.updateWhere (fun e => updates.any fun u => u.id = e.id)
    (fun e => ((updates.find? fun u => u.id = e.id).map fun u => e.store u.next).getD e)
    fun e => by cases updates.find? fun u => u.id = e.id <;> rfl

def sliceUpdates (events : Table Event.id) (ids : List ℕ) (apply : Event → Option Stored) :
    List Update :=
  (events.rows.filter fun e => e.id ∈ ids).filterMap fun e => (apply e).map (Update.mk e.id)

structure RetainEventsResult where
  rows : ℕ := 0
  bytesBefore : ℕ := 0
  bytesAfter : ℕ := 0

def storedBytes (r : Stored) : ℕ :=
  match r.rawZ with
  | none => r.rawJsonl.utf8ByteSize
  | some z => if z = [] then r.rawJsonl.utf8ByteSize else z.length

def RetainEventsResult.add (acc : RetainEventsResult) (rows : List Event)
    (apply : Event → Option Stored) : RetainEventsResult :=
  rows.foldl (fun acc e => match apply e with
    | none => acc
    | some next => ⟨acc.rows + 1, acc.bytesBefore + storedBytes e.toStored,
        acc.bytesAfter + storedBytes next⟩) acc

/-- A pass under way. `checks` is the number of times `stopped` still answers no; a pass that is
never stopped has none. -/
structure Pass where
  db : Db
  checks : Option ℕ
  acc : RetainEventsResult := {}

/-- `none` once the throttle is stopped. -/
def Pass.check (p : Pass) : Option Pass :=
  match p.checks with
  | none => some p
  | some 0 => none
  | some (n + 1) => some { p with checks := some n }

section Walk
variable (env : Env) (apply : Event → Option Stored) (r : Range)

/-- The slice loop; false when the throttle stopped it early. Every slice takes at least one row, so
the rows of the table bound the rounds. -/
def walkFrom : ℕ → Pass → Option (ℤ ×ₗ ℕ) → Pass × Bool
  | 0, p, _ => (p, false)
  | fuel + 1, p, after =>
    match p.check with
    | none => (p, false)
    | some p =>
      let keys := retentionKeys p.db.events.rows r after env.sliceRows
      let page := keys.take (sliceLength keys)
      -- the page is empty only when there are no keys
      match page.getLast? with
      | none => (p, true)
      | some last =>
        let events := rewriteEventRaw p.db.events
          (sliceUpdates p.db.events (page.map Event.id) apply)
        walkFrom fuel
          { p with db := { p.db with events := events }, acc := p.acc.add page apply }
          (some last.key)

def walkRange (p : Pass) : Pass × Bool :=
  if r.toTs ≤ r.fromTs then (p, true)
  else walkFrom env apply r (p.db.events.rows.length + 1) p none

end Walk

def setRetentionWatermarks (db : Db) (sessionId workspaceId : String)
    (compressedBefore strippedBefore : ℤ) : Db :=
  if (db.sessions.get sessionId).isSome then
    { db with
      retention := db.retention.upsert ⟨sessionId, workspaceId, compressedBefore, strippedBefore⟩
        (fun w => { w with compressedBefore := compressedBefore, strippedBefore := strippedBefore })
        fun _ => rfl }
  else db

def stripCut (now : ℤ) (resumed : Bool) : ℤ :=
  now - if resumed then stripAfterResumedMs else stripAfterMs

def compressCut (now : ℤ) : ℤ := now - compressAfterMs

def retainSessions (env : Env) (now : ℤ) : List Candidate → Pass → Pass × Bool
  | [], p => (p, true)
  | c :: cs, p =>
    match p.check with
    | none => (p, false)
    | some p =>
      let cCut := compressCut now
      let sCut := stripCut now c.resumed
      if cCut ≤ c.compressedBefore ∧ sCut ≤ c.strippedBefore then retainSessions env now cs p
      else if c.lastActiveAt < min c.compressedBefore c.strippedBefore then
        retainSessions env now cs p
      else
        let apply := fun row => transform env row now sCut cCut
        match walkRange env apply ⟨c.sessionId, c.compressedBefore, cCut, false⟩ p with
        | (p, false) => (p, false)
        | (p, true) =>
          let ageingOut := min sCut c.compressedBefore
          match walkRange env apply ⟨c.sessionId, c.strippedBefore, ageingOut, true⟩ p with
          | (p, false) => (p, false)
          | (p, true) =>
            retainSessions env now cs { p with
              db := setRetentionWatermarks p.db c.sessionId c.workspaceId
                (max c.compressedBefore cCut) (max c.strippedBefore sCut) }

/-- The pass, and whether it completed. -/
def retainEvents (env : Env) (db : Db) (now : ℤ) (checks : Option ℕ) : Pass × Bool :=
  retainSessions env now (retentionCandidates db (compressCut now)) ⟨db, checks, {}⟩

inductive Action
  | ingest (workspaceId sessionId rawLine : String)
  | resume (sessionId : String)
  | pass (now : ℤ) (checks : Option ℕ)

def step (env : Env) (db : Db) : Action → Option Db
  | .ingest workspaceId sessionId rawLine => some (ingestLine env db workspaceId sessionId rawLine)
  | .resume sessionId => some { db with resumed := sessionId :: db.resumed }
  | .pass now checks => some (retainEvents env db now checks).1.db

end ClaudeFleet.Retention
