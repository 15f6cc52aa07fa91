import ClaudeFleet.StateDb

/-! `ingestBatch`: the lines of one transcript file, 500 to a transaction. -/
namespace ClaudeFleet.StateDb

open IngestParse

variable (rt : Runtime)

def ingestTxLines : ℕ := 500

/-- What a line says about its session, beyond the events row. -/
inductive Metadata
  | nothing
  | cwd (value : String)
  | aiTitle (value : String)
  | firstUserMessage (text : String)
  | summary (text : String)
  deriving DecidableEq

def isMeta (parsed : Json) : Bool :=
  match parsed.field "isMeta" with
  | some (.bool true) => true
  | _ => false

/-- A prompt that can become the session's first user message. -/
def promptOf (text : Option String) : Metadata :=
  match text with
  | some t => if isSyntheticPromptText rt t then .nothing else .firstUserMessage t
  | none => .nothing

def metadataOf (p : ParsedLine) : Metadata :=
  if p.type = "system" then (p.parsed.stringField "cwd").elim .nothing .cwd
  else if p.type = "ai-title" then (p.parsed.stringField "aiTitle").elim .nothing .aiTitle
  else if p.type = "last-prompt" then promptOf rt (p.parsed.stringField "lastPrompt")
  else if p.type = "user" then
    if isMeta p.parsed then .nothing
    else promptOf rt (p.message.bind fun m => m.stringField "content")
  else if p.type = "session-summary" then
    (p.parsed.stringField "summary").elim .nothing .summary
  else .nothing

def toEpoch (v : Option Json) : Option ℤ := (v.bind Json.asString).bind rt.dateParse

/-- The tags of a summary line that are non-blank strings, normalised. -/
def lineTags (p : ParsedLine) : List String :=
  (((p.parsed.field "tags").bind Json.asArray).getD []).filterMap fun v =>
    match v with
    | .str s => if rt.trim s = "" then none else some (rt.toLowerCase (rt.trim s))
    | _ => none

def insertSummary (db : Db) (workspaceId sessionId : String) (p : ParsedLine) (text : String)
    (now : ℤ) : Db :=
  let row : SummaryRow :=
    { id := db.summarySeq + 1
      sessionId := sessionId
      workspaceId := workspaceId
      summary := text
      tags := ((p.parsed.field "tags").bind Json.asArray).map fun tags => rt.stringify (.arr tags)
      sourceMaxEventId := maxEventId db sessionId
      fromTs := toEpoch rt (p.parsed.field "fromEventTs")
      toTs := toEpoch rt (p.parsed.field "toEventTs")
      model := p.parsed.stringField "model"
      generatedAt := p.ts.getD now }
  { db with
    sessionSummaries := db.sessionSummaries.insertIgnore row
    summarySeq := db.summarySeq + 1
    sessionTags := (lineTags rt p).foldl
      (fun tags tag => tags.insertIgnore ⟨workspaceId, sessionId, tag⟩) db.sessionTags }

/-- The per-type writes of a line, which run for duplicates too. -/
def applyMetadata (db : Db) (workspaceId sessionId : String) (p : ParsedLine) (now : ℤ) : Db :=
  match metadataOf rt p with
  | .nothing => db
  | .cwd v =>
    { db with
      sessions := db.sessions.updateWhere (fun r => r.id = sessionId ∧ r.cwd = none)
        (fun r => { r with cwd := some v }) fun _ => rfl }
  | .aiTitle v =>
    { db with
      sessions := db.sessions.updateWhere (fun r => r.id = sessionId)
        (fun r => { r with aiTitle := some v }) fun _ => rfl }
  | .firstUserMessage text =>
    { db with
      sessions := db.sessions.updateWhere (fun r => r.id = sessionId)
        (fun r => { r with firstUserMessage := r.firstUserMessage.or (some text) }) fun _ => rfl }
  | .summary text => insertSummary rt db workspaceId sessionId p text now

def contextTokens (e : EventColumns) : ℚ :=
  e.inputTokens.getD 0 + e.cacheReadInputTokens.getD 0 + e.cacheCreationInputTokens.getD 0

/-- The rollup row of a single event. -/
def costRow (workspaceId sessionId : String) (e : EventColumns) : CostRow :=
  { sessionId := sessionId
    workspaceId := workspaceId
    model := e.model.getD ""
    serviceTier := e.serviceTier.getD ""
    inputTokens := e.inputTokens.getD 0
    outputTokens := e.outputTokens.getD 0
    cacheReadInputTokens := e.cacheReadInputTokens.getD 0
    cacheCreationInputTokens := e.cacheCreationInputTokens.getD 0
    eventCount := 1 }

def CostRow.add (excluded r : CostRow) : CostRow :=
  { r with
    inputTokens := r.inputTokens + excluded.inputTokens
    outputTokens := r.outputTokens + excluded.outputTokens
    cacheReadInputTokens := r.cacheReadInputTokens + excluded.cacheReadInputTokens
    cacheCreationInputTokens := r.cacheCreationInputTokens + excluded.cacheCreationInputTokens
    eventCount := r.eventCount + 1 }

def StatsRow.raise (excluded : ℚ) (r : StatsRow) : StatsRow :=
  { r with maxContextTokens := if excluded > r.maxContextTokens then excluded
      else r.maxContextTokens }

def ToolCountRow.bump (r : ToolCountRow) : ToolCountRow := { r with count := r.count + 1 }

/-- The three rollups of an event that landed. -/
def addRollups (db : Db) (workspaceId sessionId : String) (e : EventColumns) : Db :=
  { db with
    sessionCosts := db.sessionCosts.upsert (costRow workspaceId sessionId e)
      (CostRow.add (costRow workspaceId sessionId e)) fun _ => rfl
    sessionStats :=
      if e.type = "assistant" then
        db.sessionStats.upsert ⟨sessionId, contextTokens e⟩ (StatsRow.raise (contextTokens e))
          fun _ => rfl
      else db.sessionStats
    sessionToolCounts :=
      match e.toolName with
      | some name => db.sessionToolCounts.upsert ⟨sessionId, name, 1⟩ ToolCountRow.bump fun _ => rfl
      | none => db.sessionToolCounts }

def insertUsageAnchor (db : Db) (workspaceId sessionId : String) (tsMs : ℤ) (a : AnchorInput) :
    Db :=
  { db with
    usageAnchors := db.usageAnchors.insertIgnore
      { a with id := db.anchorSeq + 1, ts := tsMs, workspaceId := workspaceId,
               sessionId := sessionId }
    anchorSeq := db.anchorSeq + 1 }

def eventRow (db : Db) (workspaceId sessionId rawLine : String) (e : EventColumns) : EventRow :=
  { e with id := db.eventSeq + 1, sessionId := sessionId, workspaceId := workspaceId,
           rawJsonl := rawLine }

structure IngestResult where
  inserted : Bool
  sessionId : String
  type : String
  deriving DecidableEq

/-- The event insert, with the rollups when the row landed. An ignored insert still advances
the autoincrement counter. -/
def insertEvent (db : Db) (workspaceId sessionId rawLine : String) (e : EventColumns) :
    Db × Bool :=
  let row := eventRow db workspaceId sessionId rawLine e
  let inserted := decide (row.key ∉ db.events.rows.map EventRow.key)
  let db := { db with events := db.events.insertIgnore row, eventSeq := db.eventSeq + 1 }
  (if inserted then addRollups db workspaceId sessionId e else db, inserted)

/-- The rate-limit checkpoint of a line, if it carries one. -/
def insertAnchor (db : Db) (workspaceId sessionId : String) (p : ParsedLine) (now : ℤ) : Db :=
  let at' := p.ts.getD now
  match extractAnchor rt p.parsed at' p.dedupKey with
  | some a => insertUsageAnchor db workspaceId sessionId at' a
  | none => db

/-- One parsed line's writes: the event insert, then the per-type metadata, then the anchor of
an event that landed. -/
def ingestOne (db : Db) (workspaceId sessionId rawLine : String) (p : ParsedLine) (now : ℤ) :
    Db × IngestResult :=
  let ins := insertEvent db workspaceId sessionId rawLine p.event
  let db := applyMetadata rt ins.1 workspaceId sessionId p now
  (if ins.2 then insertAnchor rt db workspaceId sessionId p now else db,
    ⟨ins.2, sessionId, p.type⟩)

/-- The sessions row is read and written once for the whole chunk. -/
def touchSession (db : Db) (workspaceId sessionId : String) (tss : List (Option ℤ)) : Db :=
  let prev := (db.sessions.get sessionId).map fun r => ⟨r.startedAt, r.lastActiveAt⟩
  match foldSessionTouch prev tss with
  | none => db
  | some next =>
    if prev = none then
      { db with
        sessions := db.sessions.insertIgnore
          { id := sessionId, workspaceId := workspaceId, startedAt := next.startedAt,
            lastActiveAt := next.lastActiveAt } }
    else if prev = some next then db
    else
      { db with
        sessions := db.sessions.updateWhere (fun r => r.id = sessionId)
          (fun r => { r with startedAt := next.startedAt, lastActiveAt := next.lastActiveAt })
          fun _ => rfl }

/-- Every tab of the workspace parked on this session is committed to it. -/
def promotePendingBrokerMapping (db : Db) (workspaceId claudeSessionId : String) (now : ℤ) : Db :=
  { db with
    brokerSessions := db.brokerSessions.updateWhere
      (fun r => r.workspaceId = workspaceId ∧ r.pendingClaudeSessionId = some claudeSessionId)
      (fun r => { r with
        claudeSessionId := claudeSessionId
        pendingClaudeSessionId := none
        learnedAt := now
        verified := true })
      fun _ => rfl }

/-- The chunk transaction's working state. -/
structure Chunk where
  st : State
  promoted : Bool
  results : List IngestResult

def ingestLine (workspaceId sessionId : String) (now : ℤ) (c : Chunk)
    (line : String × Option ParsedLine) : Chunk :=
  match line.2 with
  | none => { c with results := c.results ++ [⟨false, sessionId, "malformed"⟩] }
  | some p =>
    let r := ingestOne rt c.st.db workspaceId sessionId line.1 p now
    let c := { c with st := { c.st with db := r.1 }, results := c.results ++ [r.2] }
    let key := pendingKey workspaceId sessionId
    if c.promoted = false ∧ key ∈ c.st.pendingClaudeIds then
      { c with
        st := ⟨promotePendingBrokerMapping c.st.db workspaceId sessionId now,
          c.st.pendingClaudeIds.erase key⟩
        promoted := true }
    else c

/-- The chunk body on parsed lines, before the transaction ends. -/
def chunkBody (st : State) (workspaceId sessionId : String)
    (lines : List (String × Option ParsedLine)) (now : ℤ) : Chunk :=
  if lines.all fun l => l.2.isNone then
    ⟨st, false, lines.map fun _ => ⟨false, sessionId, "malformed"⟩⟩
  else
    let tss := lines.filterMap fun l => l.2.map ParsedLine.ts
    lines.foldl (ingestLine rt workspaceId sessionId now)
      ⟨{ st with db := touchSession st.db workspaceId sessionId tss }, false, []⟩

/-- One chunk transaction. `commits` is false when a statement, a hook or the commit fails:
the database rolls back and a promotion's key goes back into the guard set. -/
def ingestChunk (st : State) (workspaceId sessionId : String) (chunk : List String) (now : ℤ)
    (commits : Bool) : State × Option (List IngestResult) :=
  match chunk.mapM (parseIngestLine rt) with
  | .error _ => (st, none)
  | .ok parsed =>
    let c := chunkBody rt st workspaceId sessionId (chunk.zip parsed) now
    if commits then (c.st, some c.results)
    else
      (⟨st.db, if c.promoted then insert (pendingKey workspaceId sessionId) c.st.pendingClaudeIds
        else c.st.pendingClaudeIds⟩, none)

/-- The chunk loop; `commits i` is the outcome of the `i`-th transaction. -/
def ingestFrom (workspaceId sessionId : String) (now : ℤ) (commits : ℕ → Bool) :
    ℕ → ℕ → List String → State → State × Option (List IngestResult)
  | 0, _, _, st => (st, some [])
  | fuel + 1, i, lines, st =>
    if lines = [] then (st, some [])
    else
      match ingestChunk rt st workspaceId sessionId (lines.take ingestTxLines) now (commits i) with
      | (st, none) => (st, none)
      | (st, some results) =>
        let rest := ingestFrom workspaceId sessionId now commits fuel (i + 1)
          (lines.drop ingestTxLines) st
        (rest.1, rest.2.map fun more => results ++ more)

/-- Ingest the lines of one file. The second component is `none` when the call rejects. -/
def ingestBatch (st : State) (workspaceId sessionId : String) (rawLines : List String) (now : ℤ)
    (commits : ℕ → Bool) : State × Option (List IngestResult) :=
  ingestFrom rt workspaceId sessionId now commits rawLines.length 0 rawLines st

section Induction

variable {rt} {workspaceId sessionId : String} {now : ℤ}

theorem zip_parsed {chunk : List String} {parsed : List (Option ParsedLine)}
    (h : chunk.mapM (parseIngestLine rt) = .ok parsed) :
    (chunk.zip parsed).map Prod.fst = chunk ∧
      ∀ l ∈ chunk.zip parsed, parseIngestLine rt l.1 = .ok l.2 := by
  induction chunk generalizing parsed with
  | nil => simp
  | cons line chunk ih =>
    rw [List.mapM_cons] at h
    cases hp : parseIngestLine rt line with
    | error e =>
      rw [hp] at h
      cases h
    | ok p =>
      cases hps : chunk.mapM (parseIngestLine rt) with
      | error e =>
        rw [hp, hps] at h
        cases h
      | ok ps =>
        rw [hp, hps] at h
        obtain rfl : p :: ps = parsed := Except.ok.inj h
        obtain ⟨hfst, hall⟩ := ih hps
        refine ⟨by simp [hfst], fun l hl => ?_⟩
        rcases List.mem_cons.mp hl with rfl | hl
        · exact hp
        · exact hall l hl

theorem mapM_parsed {chunk : List String}
    (h : ∀ line ∈ chunk, ∃ q, parseIngestLine rt line = .ok q) :
    ∃ parsed, chunk.mapM (parseIngestLine rt) = .ok parsed := by
  induction chunk with
  | nil => exact ⟨[], rfl⟩
  | cons line chunk ih =>
    obtain ⟨q, hq⟩ := h line (by simp)
    obtain ⟨parsed, hparsed⟩ := ih fun l hl => h l (List.mem_cons_of_mem _ hl)
    exact ⟨q :: parsed, by rw [List.mapM_cons, hq, hparsed]; rfl⟩

theorem insertEvent_of_mem {db : Db} {rawLine : String} {e : EventColumns}
    (h : (sessionId, e.dedupKey) ∈ db.events.rows.map EventRow.key) :
    insertEvent db workspaceId sessionId rawLine e =
      ({ db with eventSeq := db.eventSeq + 1 }, false) := by
  have hk : (eventRow db workspaceId sessionId rawLine e).key ∈ db.events.rows.map EventRow.key := h
  unfold insertEvent
  dsimp only
  rw [Table.insertIgnore_of_mem hk, decide_eq_false (not_not_intro hk)]
  rfl

theorem ingestLine_cases (rt : Runtime) (workspaceId sessionId : String) (now : ℤ) (c : Chunk)
    (line : String × Option ParsedLine) {p : ParsedLine} (hp : line.2 = some p) :
    (ingestLine rt workspaceId sessionId now c line).st.db =
        (ingestOne rt c.st.db workspaceId sessionId line.1 p now).1 ∨
      (ingestLine rt workspaceId sessionId now c line).st.db = promotePendingBrokerMapping
        (ingestOne rt c.st.db workspaceId sessionId line.1 p now).1 workspaceId sessionId now := by
  simp only [ingestLine, hp]
  split_ifs
  · exact .inr rfl
  · exact .inl rfl

theorem ingestLine_of_none (rt : Runtime) (workspaceId sessionId : String) (now : ℤ) (c : Chunk)
    {line : String × Option ParsedLine} (h : line.2 = none) :
    (ingestLine rt workspaceId sessionId now c line).st = c.st := by
  simp only [ingestLine, h]

/-- What every line and the promotion preserve, the line loop preserves. -/
theorem ingestLines_induct {P : Db → Prop}
    (hone : ∀ db raw p, P db → P (ingestOne rt db workspaceId sessionId raw p now).1)
    (hpromote : ∀ db, P db → P (promotePendingBrokerMapping db workspaceId sessionId now))
    (lines : List (String × Option ParsedLine)) :
    ∀ c : Chunk, P c.st.db →
      P (lines.foldl (ingestLine rt workspaceId sessionId now) c).st.db := by
  induction lines with
  | nil => exact fun c hc => hc
  | cons l ls ih =>
    intro c hc
    apply ih
    cases hp : l.2 with
    | none => rwa [ingestLine_of_none rt workspaceId sessionId now c hp]
    | some p =>
      rcases ingestLine_cases rt workspaceId sessionId now c l hp with he | he
      · rw [he]
        exact hone _ _ _ hc
      · rw [he]
        exact hpromote _ (hone _ _ _ hc)

/-- What the session touch, every line and the promotion preserve, a chunk preserves. -/
theorem chunkBody_induct {P : Db → Prop}
    (htouch : ∀ db tss, P db → P (touchSession db workspaceId sessionId tss))
    (hone : ∀ db raw p, P db → P (ingestOne rt db workspaceId sessionId raw p now).1)
    (hpromote : ∀ db, P db → P (promotePendingBrokerMapping db workspaceId sessionId now))
    {st : State} (h : P st.db) (lines : List (String × Option ParsedLine)) :
    P (chunkBody rt st workspaceId sessionId lines now).st.db := by
  unfold chunkBody
  split_ifs
  · exact h
  · exact ingestLines_induct hone hpromote _ _ (htouch _ _ h)

theorem get_promotePendingBrokerMapping (db : Db) (k : String × String) :
    (promotePendingBrokerMapping db workspaceId sessionId now).brokerSessions.get k =
      (db.brokerSessions.get k).map fun r =>
        if r.workspaceId = workspaceId ∧ r.pendingClaudeSessionId = some sessionId then
          { r with
            claudeSessionId := sessionId
            pendingClaudeSessionId := none
            learnedAt := now
            verified := true }
        else r := by
  have hget := Table.get_updateWhere db.brokerSessions
    (fun r => r.workspaceId = workspaceId ∧ r.pendingClaudeSessionId = some sessionId)
    (fun r => { r with
      claudeSessionId := sessionId
      pendingClaudeSessionId := none
      learnedAt := now
      verified := true })
    (fun _ => rfl) k
  refine hget.trans ?_
  simp only [decide_eq_true_eq]

theorem touchSession_brokerSessions (db : Db) (tss : List (Option ℤ)) :
    (touchSession db workspaceId sessionId tss).brokerSessions = db.brokerSessions := by
  unfold touchSession
  dsimp only
  split
  · rfl
  · split_ifs <;> rfl

theorem ingestOne_brokerSessions (rt : Runtime) (workspaceId sessionId : String) (now : ℤ)
    (db : Db) (rawLine : String) (p : ParsedLine) :
    (ingestOne rt db workspaceId sessionId rawLine p now).1.brokerSessions = db.brokerSessions := by
  have hins : (insertEvent db workspaceId sessionId rawLine p.event).1.brokerSessions =
      db.brokerSessions := by
    unfold insertEvent
    dsimp only
    split_ifs <;> rfl
  have hmeta : ∀ db : Db, (applyMetadata rt db workspaceId sessionId p now).brokerSessions =
      db.brokerSessions := by
    intro db
    unfold applyMetadata
    split <;> rfl
  have hanchor : ∀ db : Db, (insertAnchor rt db workspaceId sessionId p now).brokerSessions =
      db.brokerSessions := by
    intro db
    unfold insertAnchor
    dsimp only
    split <;> rfl
  unfold ingestOne
  dsimp only
  split_ifs
  · rw [hanchor, hmeta, hins]
  · rw [hmeta, hins]

/-- What a chunk has done to the mapping so far: promoted the tabs waiting on its session,
or left the rows and the guard set alone. -/
def Chunk.Mapping (st : State) (workspaceId sessionId : String) (now : ℤ) (c : Chunk) : Prop :=
  if c.promoted = true then
    pendingKey workspaceId sessionId ∈ st.pendingClaudeIds ∧
    c.st.pendingClaudeIds = st.pendingClaudeIds.erase (pendingKey workspaceId sessionId) ∧
    c.st.db.brokerSessions =
      (promotePendingBrokerMapping st.db workspaceId sessionId now).brokerSessions
  else
    c.st.pendingClaudeIds = st.pendingClaudeIds ∧ c.st.db.brokerSessions = st.db.brokerSessions

theorem ingestLine_mapping (rt : Runtime) {st : State} {c : Chunk}
    (h : c.Mapping st workspaceId sessionId now) (line : String × Option ParsedLine) :
    (ingestLine rt workspaceId sessionId now c line).Mapping st workspaceId sessionId now := by
  unfold ingestLine
  split
  · exact h
  · next p _ =>
    have hb := ingestOne_brokerSessions rt workspaceId sessionId now c.st.db line.1 p
    cases hp : c.promoted with
    | true =>
      obtain ⟨hmem, hids, hrows⟩ := by simpa only [Chunk.Mapping, hp, if_true] using h
      rw [if_neg (by simp)]
      simp only [Chunk.Mapping, if_true]
      exact ⟨hmem, hids, hb.trans hrows⟩
    | false =>
      obtain ⟨hids, hrows⟩ := by
        simpa only [Chunk.Mapping, hp, Bool.false_eq_true, if_false] using h
      dsimp only
      split_ifs with hguard
      · refine ⟨hids ▸ hguard.2, by rw [hids], ?_⟩
        simp only [promotePendingBrokerMapping, hb, hrows]
      · simp only [Chunk.Mapping, Bool.false_eq_true, if_false]
        exact ⟨hids, hb.trans hrows⟩

/-- After a parsed line no tab waits on the session any more. -/
theorem ingestLine_settled {c : Chunk} (line : String × Option ParsedLine)
    (h : line.2.isSome ∨ pendingKey workspaceId sessionId ∉ c.st.pendingClaudeIds ∨
      c.promoted = true) :
    pendingKey workspaceId sessionId ∉
        (ingestLine rt workspaceId sessionId now c line).st.pendingClaudeIds ∨
      (ingestLine rt workspaceId sessionId now c line).promoted = true := by
  unfold ingestLine
  split
  · next hn => simpa [hn] using h
  · dsimp only
    split_ifs with hguard
    · exact .inr rfl
    · simp only [not_and] at hguard
      cases hp : c.promoted
      · exact .inl (hguard hp)
      · exact .inr rfl

/-- The chunk's effect on the mapping: one promotion when a line parsed and the session is
waited on, nothing otherwise. -/
theorem chunkBody_mapping (rt : Runtime) (workspaceId sessionId : String) (now : ℤ) (st : State)
    (lines : List (String × Option ParsedLine)) :
    (chunkBody rt st workspaceId sessionId lines now).Mapping st workspaceId sessionId now ∧
      ((∃ l ∈ lines, l.2.isSome) →
        pendingKey workspaceId sessionId ∉
            (chunkBody rt st workspaceId sessionId lines now).st.pendingClaudeIds) := by
  have hlines : ∀ (ls : List (String × Option ParsedLine)) (c : Chunk),
      c.Mapping st workspaceId sessionId now →
      (ls.foldl (ingestLine rt workspaceId sessionId now) c).Mapping st workspaceId sessionId now ∧
      (((∃ l ∈ ls, l.2.isSome) ∨ pendingKey workspaceId sessionId ∉ c.st.pendingClaudeIds ∨
          c.promoted = true) →
        pendingKey workspaceId sessionId ∉
            (ls.foldl (ingestLine rt workspaceId sessionId now) c).st.pendingClaudeIds ∨
          (ls.foldl (ingestLine rt workspaceId sessionId now) c).promoted = true) := by
    intro ls
    induction ls with
    | nil =>
      intro c hc
      exact ⟨hc, fun h => by simpa using h⟩
    | cons l ls ih =>
      intro c hc
      obtain ⟨hm, hs⟩ := ih _ (ingestLine_mapping rt hc l)
      refine ⟨hm, fun h => hs ?_⟩
      by_cases hrest : ∃ x ∈ ls, x.2.isSome
      · exact .inl hrest
      · apply Or.inr
        apply ingestLine_settled
        rcases h with ⟨x, hx, hsome⟩ | h
        · rcases List.mem_cons.mp hx with rfl | hx
          · exact .inl hsome
          · exact absurd ⟨x, hx, hsome⟩ hrest
        · exact .inr h
  unfold chunkBody
  split_ifs with hall
  · refine ⟨⟨rfl, rfl⟩, ?_⟩
    rintro ⟨l, hl, hsome⟩
    have := List.all_eq_true.mp hall l hl
    simp [Option.isNone_iff_eq_none.mp this] at hsome
  · obtain ⟨hm, hs⟩ := hlines lines
      ⟨⟨touchSession st.db workspaceId sessionId
          (lines.filterMap fun l => l.2.map ParsedLine.ts), st.pendingClaudeIds⟩, false, []⟩
      ⟨rfl, touchSession_brokerSessions _ _⟩
    refine ⟨hm, fun h => ?_⟩
    rcases hs (.inl h) with hk | hp
    · exact hk
    · unfold Chunk.Mapping at hm
      rw [if_pos hp] at hm
      rw [hm.2.1]
      exact Finset.notMem_erase _ _

/-- A chunk transaction either commits its body or leaves the store as it was, the guard set
included. -/
theorem ingestChunk_cases (rt : Runtime) (workspaceId sessionId : String) (now : ℤ) (st : State)
    (chunk : List String) (commits : Bool) :
    ingestChunk rt st workspaceId sessionId chunk now commits = (st, none) ∨
      ∃ parsed, chunk.mapM (parseIngestLine rt) = .ok parsed ∧ commits = true ∧
        ingestChunk rt st workspaceId sessionId chunk now commits =
          ((chunkBody rt st workspaceId sessionId (chunk.zip parsed) now).st,
            some (chunkBody rt st workspaceId sessionId (chunk.zip parsed) now).results) := by
  unfold ingestChunk
  split
  · exact .inl rfl
  · next parsed hparsed =>
    cases commits with
    | true => exact .inr ⟨parsed, hparsed, rfl, rfl⟩
    | false =>
      have hm := (chunkBody_mapping rt workspaceId sessionId now st (chunk.zip parsed)).1
      unfold Chunk.Mapping at hm
      simp only [Bool.false_eq_true, if_false]
      split_ifs at hm ⊢
      · rw [hm.2.1, Finset.insert_erase hm.1]
        exact .inl rfl
      · rw [hm.1]
        exact .inl rfl

/-- What every chunk transaction preserves, the chunk loop preserves. -/
theorem ingestFrom_induct {P : State → Prop}
    (hchunk : ∀ st chunk ok, P st → P (ingestChunk rt st workspaceId sessionId chunk now ok).1)
    (commits : ℕ → Bool) : ∀ fuel i lines st, P st →
      P (ingestFrom rt workspaceId sessionId now commits fuel i lines st).1 := by
  intro fuel
  induction fuel with
  | zero => exact fun _ _ _ hst => hst
  | succ fuel ih =>
    intro i lines st hst
    have hc := hchunk st (lines.take ingestTxLines) (commits i) hst
    unfold ingestFrom
    split_ifs
    · exact hst
    · split
      · next he => rwa [he] at hc
      · next he =>
        rw [he] at hc
        exact ih _ _ _ hc

/-- A loop that resolves has committed its first chunk and resolved on the rest. -/
theorem ingestFrom_resolved {commits : ℕ → Bool} {fuel i : ℕ} {lines : List String} {st : State}
    (hne : lines ≠ [])
    (h : (ingestFrom rt workspaceId sessionId now commits (fuel + 1) i lines st).2 ≠ none) :
    ∃ st' results,
      ingestChunk rt st workspaceId sessionId (lines.take ingestTxLines) now (commits i) =
        (st', some results) ∧
      (ingestFrom rt workspaceId sessionId now commits fuel (i + 1) (lines.drop ingestTxLines)
        st').2 ≠ none ∧
      (ingestFrom rt workspaceId sessionId now commits (fuel + 1) i lines st).1 =
        (ingestFrom rt workspaceId sessionId now commits fuel (i + 1) (lines.drop ingestTxLines)
          st').1 := by
  rw [ingestFrom, if_neg hne] at h ⊢
  split at h
  · exact absurd rfl h
  · next st' results he =>
    refine ⟨st', results, he, ?_, rfl⟩
    intro hnone
    simp [hnone] at h

/-- What every chunk transaction preserves, the whole call preserves. -/
theorem ingestBatch_induct {P : State → Prop}
    (hchunk : ∀ st chunk ok, P st → P (ingestChunk rt st workspaceId sessionId chunk now ok).1)
    {st : State} (h : P st) (rawLines : List String) (commits : ℕ → Bool) :
    P (ingestBatch rt st workspaceId sessionId rawLines now commits).1 :=
  ingestFrom_induct hchunk commits _ _ _ _ h

end Induction

end ClaudeFleet.StateDb
