import ClaudeFleet.IngestParse
import ClaudeFleet.Table

/-! The tables of state.db that ingest, session deletion, workspace purge and the
tab-to-conversation mapping read and write, and the in-memory guard set beside them. -/
namespace ClaudeFleet.StateDb

open IngestParse

structure EventRow extends EventColumns where
  id : ℕ
  sessionId : String
  workspaceId : String
  rawJsonl : String
  rawZ : Option (List UInt8) := none
  deriving DecidableEq

def EventRow.key (r : EventRow) : String × String := (r.sessionId, r.dedupKey)

structure SessionRow where
  id : String
  workspaceId : String
  cwd : Option String := none
  startedAt : Option ℤ
  lastActiveAt : Option ℤ
  aiTitle : Option String := none
  firstUserMessage : Option String := none
  userSetName : Option String := none
  deriving DecidableEq

structure CostRow where
  sessionId : String
  workspaceId : String
  model : String
  serviceTier : String
  inputTokens : ℚ
  outputTokens : ℚ
  cacheReadInputTokens : ℚ
  cacheCreationInputTokens : ℚ
  eventCount : ℕ
  deriving DecidableEq

def CostRow.key (r : CostRow) : String × String × String × String :=
  (r.sessionId, r.workspaceId, r.model, r.serviceTier)

structure StatsRow where
  sessionId : String
  maxContextTokens : ℚ
  deriving DecidableEq

structure ToolCountRow where
  sessionId : String
  toolName : String
  count : ℕ
  deriving DecidableEq

def ToolCountRow.key (r : ToolCountRow) : String × String := (r.sessionId, r.toolName)

structure SummaryRow where
  id : ℕ
  sessionId : String
  workspaceId : String
  summary : String
  tags : Option String
  sourceMaxEventId : ℕ
  fromTs : Option ℤ
  toTs : Option ℤ
  model : Option String
  generatedAt : ℤ
  deriving DecidableEq

def SummaryRow.key (r : SummaryRow) : String × ℕ := (r.sessionId, r.sourceMaxEventId)

structure TagRow where
  workspaceId : String
  sessionId : String
  tag : String
  deriving DecidableEq

def TagRow.key (r : TagRow) : String × String := (r.sessionId, r.tag)

structure AnchorRow extends AnchorInput where
  id : ℕ
  ts : ℤ
  workspaceId : String
  sessionId : String
  deriving DecidableEq

def AnchorRow.key (r : AnchorRow) : String := r.dedupKey

/-- One tab: the claude session it is committed to, and the one a remap is parked on. -/
structure BrokerRow where
  workspaceId : String
  brokerSessionId : String
  claudeSessionId : String
  learnedAt : ℤ
  verified : Bool := false
  pendingClaudeSessionId : Option String := none
  deriving DecidableEq

def BrokerRow.key (r : BrokerRow) : String × String := (r.workspaceId, r.brokerSessionId)

theorem BrokerRow.key_update (r : BrokerRow) (claudeSessionId : String) (learnedAt : ℤ)
    (verified : Bool) (pending : Option String) :
    BrokerRow.key ⟨r.workspaceId, r.brokerSessionId, claudeSessionId, learnedAt, verified, pending⟩ =
      r.key :=
  rfl

structure Db where
  events : Table EventRow.key := .empty
  sessions : Table SessionRow.id := .empty
  sessionCosts : Table CostRow.key := .empty
  sessionStats : Table StatsRow.sessionId := .empty
  sessionToolCounts : Table ToolCountRow.key := .empty
  sessionSummaries : Table SummaryRow.key := .empty
  sessionTags : Table TagRow.key := .empty
  usageAnchors : Table AnchorRow.key := .empty
  brokerSessions : Table BrokerRow.key := .empty
  /-- The AUTOINCREMENT counters of events, session_summaries and usage_anchors. -/
  eventSeq : ℕ := 0
  summarySeq : ℕ := 0
  anchorSeq : ℕ := 0

/-- The open store: the database and `pendingClaudeIds`, the (workspace, claude session)
pairs that some tab waits on. -/
structure State where
  db : Db := {}
  pendingClaudeIds : Finset (String × String) := ∅

/-- Equal in every table, autoincrement counters aside. -/
structure SameContents (a b : Db) : Prop where
  events : a.events = b.events
  sessions : a.sessions = b.sessions
  sessionCosts : a.sessionCosts = b.sessionCosts
  sessionStats : a.sessionStats = b.sessionStats
  sessionToolCounts : a.sessionToolCounts = b.sessionToolCounts
  sessionSummaries : a.sessionSummaries = b.sessionSummaries
  sessionTags : a.sessionTags = b.sessionTags
  usageAnchors : a.usageAnchors = b.usageAnchors
  brokerSessions : a.brokerSessions = b.brokerSessions

def pendingKey (workspaceId claudeSessionId : String) : String × String :=
  (workspaceId, claudeSessionId)

def maxEventId (db : Db) (sessionId : String) : ℕ :=
  ((db.events.rows.filter fun e => e.sessionId = sessionId).map EventRow.id).foldl max 0

/-- A claude session is real once it has a sessions row. -/
def claudeSessionIsReal (db : Db) (claudeSessionId : String) : Bool :=
  (db.sessions.get claudeSessionId).isSome

end ClaudeFleet.StateDb
