import ClaudeFleet.Rollup
import ClaudeFleet.StateOps
import ClaudeFleet.Transition

/-! The rollup tables session_costs, session_stats and session_tool_counts against the
events they summarise. -/
namespace ClaudeFleet.StateDb

open IngestParse Transition

/-- The sums and counts of session_costs. -/
def costView : View EventRow (String × String × String × String) CostRow where
  key e := some (e.sessionId, e.workspaceId, e.model.getD "", e.serviceTier.getD "")
  agg k l :=
    { sessionId := k.1
      workspaceId := k.2.1
      model := k.2.2.1
      serviceTier := k.2.2.2
      inputTokens := (l.map fun e => e.inputTokens.getD 0).sum
      outputTokens := (l.map fun e => e.outputTokens.getD 0).sum
      cacheReadInputTokens := (l.map fun e => e.cacheReadInputTokens.getD 0).sum
      cacheCreationInputTokens := (l.map fun e => e.cacheCreationInputTokens.getD 0).sum
      eventCount := l.length }
  rowKey := CostRow.key
  rowKey_agg _ _ := rfl

def maxContext (l : List EventRow) : ℚ :=
  ((l.map fun e => contextTokens e.toEventColumns).max?).getD 0

/-- The largest context of a session, over its assistant events. -/
def statsView : View EventRow String StatsRow where
  key e := if e.type = "assistant" then some e.sessionId else none
  agg k l := ⟨k, maxContext l⟩
  rowKey := StatsRow.sessionId
  rowKey_agg _ _ := rfl

def toolView : View EventRow (String × String) ToolCountRow where
  key e := e.toolName.map fun name => (e.sessionId, name)
  agg k l := ⟨k.1, k.2, l.length⟩
  rowKey := ToolCountRow.key
  rowKey_agg _ _ := rfl

/-- Each rollup table equals its `GROUP BY` over events. -/
structure RollupsExact (db : Db) : Prop where
  costs : costView.Tracks db.sessionCosts db.events.rows
  stats : statsView.Tracks db.sessionStats db.events.rows
  tools : toolView.Tracks db.sessionToolCounts db.events.rows

/-- Event ids grow with the autoincrement counter. -/
structure IdsOrdered (db : Db) : Prop where
  increasing : (db.events.rows.map EventRow.id).Pairwise (· < ·)
  bounded : ∀ e ∈ db.events.rows, e.id ≤ db.eventSeq

structure Maintained (db : Db) : Prop where
  exact' : RollupsExact db
  ids : IdsOrdered db

theorem IdsOrdered.nodup {db : Db} (h : IdsOrdered db) :
    (db.events.rows.map EventRow.id).Nodup :=
  h.increasing.imp fun hlt => ne_of_lt hlt

/-- Equal in what the rollups relate. -/
structure SameRollups (a b : Db) : Prop where
  events : a.events = b.events
  eventSeq : a.eventSeq = b.eventSeq
  sessionCosts : a.sessionCosts = b.sessionCosts
  sessionStats : a.sessionStats = b.sessionStats
  sessionToolCounts : a.sessionToolCounts = b.sessionToolCounts

theorem SameRollups.rfl {db : Db} : SameRollups db db := ⟨.refl _, .refl _, .refl _, .refl _, .refl _⟩

theorem Maintained.congr {a b : Db} (h : Maintained a) (hab : SameRollups b a) : Maintained b := by
  obtain ⟨he, hs, hc, hst, ht⟩ := hab
  refine ⟨⟨?_, ?_, ?_⟩, ?_, ?_⟩
  · rw [he, hc]
    exact h.exact'.costs
  · rw [he, hst]
    exact h.exact'.stats
  · rw [he, ht]
    exact h.exact'.tools
  · rw [he]
    exact h.ids.increasing
  · rw [he, hs]
    exact h.ids.bounded

variable (rt : Runtime) (workspaceId sessionId : String) (now : ℤ)

section AddRollups

variable {events : List EventRow} (db : Db) (row : EventRow)

end AddRollups

theorem IdsOrdered.deleteWhere {db db' : Db} (h : IdsOrdered db) {p : EventRow → Bool}
    (he : db'.events = db.events.deleteWhere p) (hs : db'.eventSeq = db.eventSeq) :
    IdsOrdered db' := by
  refine ⟨?_, fun e hm => ?_⟩
  · rw [he]
    exact h.increasing.sublist (List.filter_sublist.map _)
  · rw [he] at hm
    rw [hs]
    exact h.bounded e (Table.mem_deleteWhere.mp hm).1

def assistantEvents (db : Db) (sessionId : String) : List EventRow :=
  db.events.rows.filter fun e => e.type = "assistant" ∧ e.sessionId = sessionId

def toolEvents (db : Db) (sessionId toolName : String) : List EventRow :=
  db.events.rows.filter fun e => e.toolName = some toolName ∧ e.sessionId = sessionId

/-- Purging the workspace takes each session's stats row with all the assistant events it
summarises, or keeps it with its maximum. The row goes by the session's workspace and the
events by their own. -/
def StatsClean (db : Db) (workspaceId : String) : Prop :=
  ∀ e ∈ db.events.rows, e.type = "assistant" →
    if sessionIn db workspaceId e.sessionId = true then
      ∀ x ∈ assistantEvents db e.sessionId, x.workspaceId = workspaceId
    else
      (∃ x ∈ assistantEvents db e.sessionId, x.workspaceId ≠ workspaceId) ∧
        maxContext ((assistantEvents db e.sessionId).filter fun x => x.workspaceId ≠ workspaceId) =
          maxContext (assistantEvents db e.sessionId)

/-- Purging the workspace takes each tool count with all the events it counts, or none of
them. -/
def ToolsClean (db : Db) (workspaceId : String) : Prop :=
  ∀ e ∈ db.events.rows, ∀ t ∈ e.toolName,
    if sessionIn db workspaceId e.sessionId = true then
      ∀ x ∈ toolEvents db e.sessionId t, x.workspaceId = workspaceId
    else ∀ x ∈ toolEvents db e.sessionId t, x.workspaceId ≠ workspaceId

def PurgeClean (db : Db) (workspaceId : String) : Prop :=
  StatsClean db workspaceId ∧ ToolsClean db workspaceId

instance decidableStatsClean (db : Db) (workspaceId : String) :
    Decidable (StatsClean db workspaceId) :=
  inferInstanceAs (Decidable (∀ e ∈ db.events.rows, _))

instance decidableToolsClean (db : Db) (workspaceId : String) :
    Decidable (ToolsClean db workspaceId) :=
  inferInstanceAs (Decidable (∀ e ∈ db.events.rows, _))

instance decidablePurgeClean (db : Db) (workspaceId : String) :
    Decidable (PurgeClean db workspaceId) :=
  inferInstanceAs (Decidable (_ ∧ _))

section Purge

variable {db : Db} (h : Maintained db) (workspaceId : String) (ids : Finset (String × String))

include h

end Purge

/-- The operations that write events or rollups. -/
inductive Op
  | ingestBatch (workspaceId sessionId : String) (rawLines : List String) (now : ℤ)
      (commits : ℕ → Bool)
  | deleteSession (id : String)
  | purgeWorkspace (workspaceId : String)
  | rewriteEventRaw (updates : List RawUpdate)

end ClaudeFleet.StateDb
