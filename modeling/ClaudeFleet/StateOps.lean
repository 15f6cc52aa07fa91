import ClaudeFleet.Ingest

/-! Session deletion, workspace purge and the retention pass's raw-line rewrite. -/
namespace ClaudeFleet.StateDb

def deleteSession (st : State) (id : String) : State :=
  { st with
    db := { st.db with
      events := st.db.events.deleteWhere fun r => r.sessionId = id
      sessionCosts := st.db.sessionCosts.deleteWhere fun r => r.sessionId = id
      sessionStats := st.db.sessionStats.deleteWhere fun r => r.sessionId = id
      sessionToolCounts := st.db.sessionToolCounts.deleteWhere fun r => r.sessionId = id
      brokerSessions := st.db.brokerSessions.deleteWhere fun r => r.claudeSessionId = id
      sessions := st.db.sessions.deleteWhere fun r => r.id = id } }

def purgeChunk : ℕ := 250

/-- The tables a workspace purge deletes from, in the order of its statements. -/
inductive PurgeTable
  | sessionStats
  | sessionToolCounts
  | events
  | sessionSummaries
  | sessionCosts
  | sessionTags
  | brokerSessions
  | sessions
  deriving DecidableEq

def purgeTables : List PurgeTable :=
  [.sessionStats, .sessionToolCounts, .events, .sessionSummaries, .sessionCosts, .sessionTags,
    .brokerSessions, .sessions]

/-- The session belongs to the workspace by its sessions row. -/
def sessionIn (db : Db) (workspaceId sessionId : String) : Bool :=
  db.sessions.rows.any fun s => s.workspaceId = workspaceId && s.id = sessionId

/-- One delete statement of the purge. -/
def purgeStatement (db : Db) (workspaceId : String) : PurgeTable → Db
  | .sessionStats =>
    { db with
      sessionStats := db.sessionStats.deleteWhere fun r => sessionIn db workspaceId r.sessionId }
  | .sessionToolCounts =>
    { db with
      sessionToolCounts := db.sessionToolCounts.deleteWhere fun r =>
        sessionIn db workspaceId r.sessionId }
  | .events =>
    { db with
      events := db.events.deleteLimit EventRow.id (fun r => r.workspaceId = workspaceId)
        purgeChunk }
  | .sessionSummaries =>
    { db with
      sessionSummaries := db.sessionSummaries.deleteLimit SummaryRow.id
        (fun r => r.workspaceId = workspaceId) purgeChunk }
  | .sessionCosts =>
    { db with sessionCosts := db.sessionCosts.deleteWhere fun r => r.workspaceId = workspaceId }
  | .sessionTags =>
    { db with sessionTags := db.sessionTags.deleteWhere fun r => r.workspaceId = workspaceId }
  | .brokerSessions =>
    { db with
      brokerSessions := db.brokerSessions.deleteWhere fun r => r.workspaceId = workspaceId }
  | .sessions =>
    { db with sessions := db.sessions.deleteWhere fun r => r.workspaceId = workspaceId }

/-- A table's part of the purge: the chunked tables repeat their statement. -/
def purgeTable (workspaceId : String) (db : Db) (t : PurgeTable) : Db :=
  match t with
  | .events =>
    { db with
      events := db.events.deleteLoop EventRow.id (fun r => r.workspaceId = workspaceId) purgeChunk
        (db.events.rows.length + 1) }
  | .sessionSummaries =>
    { db with
      sessionSummaries := db.sessionSummaries.deleteLoop SummaryRow.id
        (fun r => r.workspaceId = workspaceId) purgeChunk (db.sessionSummaries.rows.length + 1) }
  | t => purgeStatement db workspaceId t

def purgeWorkspace (st : State) (workspaceId : String) : State :=
  { st with db := purgeTables.foldl (purgeTable workspaceId) st.db }

structure RawUpdate where
  id : ℕ
  rawJsonl : String
  rawZ : Option (List UInt8)

def rewriteEventRaw (st : State) (updates : List RawUpdate) : State :=
  { st with
    db := { st.db with
      events := updates.foldl
        (fun events u => events.updateWhere (fun r => r.id = u.id)
          (fun r => { r with rawJsonl := u.rawJsonl, rawZ := u.rawZ }) fun _ => rfl)
        st.db.events } }

end ClaudeFleet.StateDb
