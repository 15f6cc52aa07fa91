import ClaudeFleet.StateOps
import ClaudeFleet.Transition

/-! The mapping from tabs (broker sessions) to claude conversations: direct commits, remaps
parked until the new conversation has a transcript, and the guard set kept beside them. -/
namespace ClaudeFleet.StateDb

open IngestParse Transition

def existingMapping (db : Db) (workspaceId brokerSessionId : String) : Option BrokerRow :=
  db.brokerSessions.get (workspaceId, brokerSessionId)

/-- The committing upsert. -/
def commitMapping (db : Db) (workspaceId brokerSessionId claudeSessionId : String) (now : ℤ) : Db :=
  { db with
    brokerSessions := db.brokerSessions.upsert
      { workspaceId := workspaceId, brokerSessionId := brokerSessionId,
        claudeSessionId := claudeSessionId, learnedAt := now, verified := true }
      (fun r => { r with
        claudeSessionId := claudeSessionId
        learnedAt := now
        verified := true
        pendingClaudeSessionId := none })
      fun r => r.key_update claudeSessionId now true none }

theorem get_commitMapping (db : Db) (workspaceId brokerSessionId claudeSessionId : String)
    (now : ℤ) (k : String × String) :
    (commitMapping db workspaceId brokerSessionId claudeSessionId now).brokerSessions.get k =
      if k = (workspaceId, brokerSessionId) then
        some
          { workspaceId := workspaceId, brokerSessionId := brokerSessionId,
            claudeSessionId := claudeSessionId, learnedAt := now, verified := true }
      else db.brokerSessions.get k := by
  have hget := Table.get_upsert db.brokerSessions
    { workspaceId := workspaceId, brokerSessionId := brokerSessionId,
      claudeSessionId := claudeSessionId, learnedAt := now, verified := true }
    (fun r => { r with
      claudeSessionId := claudeSessionId
      learnedAt := now
      verified := true
      pendingClaudeSessionId := none })
    (fun _ => rfl) k
  refine hget.trans ?_
  by_cases hk : k = (workspaceId, brokerSessionId)
  · rw [if_pos hk, if_pos (by exact hk)]
    cases he : db.brokerSessions.get k with
    | none => rfl
    | some r =>
      obtain ⟨_, rfl⟩ := Table.get_eq_some.mp he
      obtain ⟨rfl, rfl⟩ := Prod.mk.inj hk
      rfl
  · rw [if_neg hk, if_neg (by exact hk)]

/-- How a mapping transaction ends: committed, failed before it touched the guard set, or
failed afterwards, when its catch block restores the keys it removed. -/
inductive Outcome
  | committed
  | failedEarly
  | failedLate
  deriving DecidableEq

/-- The parked id, when it is a non-empty string. -/
def parkedId (row : Option BrokerRow) : Option String :=
  (row.bind BrokerRow.pendingClaudeSessionId).filter fun id => id ≠ ""

def removeKey (ids : Finset (String × String)) (workspaceId : String) (id : Option String) :
    Finset (String × String) :=
  id.elim ids fun x => ids.erase (pendingKey workspaceId x)

def restoreKey (ids : Finset (String × String)) (workspaceId : String) (id : Option String) :
    Finset (String × String) :=
  id.elim ids fun x => insert (pendingKey workspaceId x) ids

/-- A transaction's two effects under each outcome: `db` and `ids` are what it would leave,
`removed` the key it took from the guard set. -/
def settle (st : State) (workspaceId : String) (db : Db) (ids : Finset (String × String))
    (removed : Option String) : Outcome → State
  | .committed => ⟨db, ids⟩
  | .failedEarly => st
  | .failedLate => ⟨st.db, restoreKey ids workspaceId removed⟩

/-- Commit unconditionally. The value is the previously committed id. -/
def learnBrokerSessionMapping (st : State)
    (workspaceId brokerSessionId claudeSessionId : String) (now : ℤ) (outcome : Outcome) :
    State × Option (Option String) :=
  let existing := existingMapping st.db workspaceId brokerSessionId
  let cleared := parkedId existing
  (settle st workspaceId (commitMapping st.db workspaceId brokerSessionId claudeSessionId now)
      (removeKey st.pendingClaudeIds workspaceId cleared) cleared outcome,
    if outcome = .committed then some (existing.map BrokerRow.claudeSessionId) else none)

inductive MappingMode
  | committed
  | deferred
  deriving DecidableEq

structure BrokerMappingResult where
  mode : MappingMode
  previous : Option String
  deriving DecidableEq

/-- A remap commits at once for a fresh tab, for an id that is real already, and over a
committed id that is not. -/
def commitsNow (db : Db) (workspaceId brokerSessionId claudeSessionId : String) : Bool :=
  let previous := (existingMapping db workspaceId brokerSessionId).map BrokerRow.claudeSessionId
  previous = some claudeSessionId || !previous.any (claudeSessionIsReal db) ||
    claudeSessionIsReal db claudeSessionId

/-- Keep the committed mapping and wait for the new id to materialise. -/
def parkMapping (db : Db) (workspaceId brokerSessionId claudeSessionId : String) : Db :=
  { db with
    brokerSessions := db.brokerSessions.updateWhere
      (fun r => r.workspaceId = workspaceId ∧ r.brokerSessionId = brokerSessionId)
      (fun r => { r with pendingClaudeSessionId := some claudeSessionId }) fun _ => rfl }

theorem get_parkMapping (db : Db) (workspaceId brokerSessionId claudeSessionId : String)
    (k : String × String) :
    (parkMapping db workspaceId brokerSessionId claudeSessionId).brokerSessions.get k =
      (db.brokerSessions.get k).map fun r =>
        if k = (workspaceId, brokerSessionId) then
          { r with pendingClaudeSessionId := some claudeSessionId }
        else r := by
  have hget := Table.get_updateWhere db.brokerSessions
    (fun r => r.workspaceId = workspaceId ∧ r.brokerSessionId = brokerSessionId)
    (fun r => { r with pendingClaudeSessionId := some claudeSessionId }) (fun _ => rfl) k
  refine hget.trans ?_
  cases he : db.brokerSessions.get k with
  | none => rfl
  | some r =>
    obtain ⟨_, rfl⟩ := Table.get_eq_some.mp he
    simp [BrokerRow.key, Prod.ext_iff]

/-- The remap a SessionStart hook or CREATE signals. -/
def recordBrokerSessionMapping (st : State)
    (workspaceId brokerSessionId claudeSessionId : String) (now : ℤ) (outcome : Outcome) :
    State × Option BrokerMappingResult :=
  let existing := existingMapping st.db workspaceId brokerSessionId
  let previous := existing.map BrokerRow.claudeSessionId
  if commitsNow st.db workspaceId brokerSessionId claudeSessionId then
    let cleared := parkedId existing
    (settle st workspaceId (commitMapping st.db workspaceId brokerSessionId claudeSessionId now)
        (removeKey st.pendingClaudeIds workspaceId cleared) cleared outcome,
      if outcome = .committed then some ⟨.committed, previous⟩ else none)
  else
    let superseded := (parkedId existing).filter fun id => id ≠ claudeSessionId
    (settle st workspaceId (parkMapping st.db workspaceId brokerSessionId claudeSessionId)
        (insert (pendingKey workspaceId claudeSessionId)
          (removeKey st.pendingClaudeIds workspaceId superseded)) superseded outcome,
      if outcome = .committed then some ⟨.deferred, previous⟩ else none)

section Record

variable {st : State} {workspaceId brokerSessionId claudeSessionId : String} {now : ℤ}
  {outcome : Outcome}

theorem record_of_commitsNow
    (h : commitsNow st.db workspaceId brokerSessionId claudeSessionId = true) :
    (recordBrokerSessionMapping st workspaceId brokerSessionId claudeSessionId now outcome).1 =
      settle st workspaceId (commitMapping st.db workspaceId brokerSessionId claudeSessionId now)
        (removeKey st.pendingClaudeIds workspaceId
          (parkedId (existingMapping st.db workspaceId brokerSessionId)))
        (parkedId (existingMapping st.db workspaceId brokerSessionId)) outcome := by
  simp only [recordBrokerSessionMapping, h, if_true]

theorem record_of_parks
    (h : commitsNow st.db workspaceId brokerSessionId claudeSessionId = false) :
    (recordBrokerSessionMapping st workspaceId brokerSessionId claudeSessionId now outcome).1 =
      settle st workspaceId (parkMapping st.db workspaceId brokerSessionId claudeSessionId)
        (insert (pendingKey workspaceId claudeSessionId) (removeKey st.pendingClaudeIds workspaceId
          ((parkedId (existingMapping st.db workspaceId brokerSessionId)).filter
            fun id => id ≠ claudeSessionId)))
        ((parkedId (existingMapping st.db workspaceId brokerSessionId)).filter
          fun id => id ≠ claudeSessionId) outcome := by
  simp only [recordBrokerSessionMapping, h, Bool.false_eq_true, if_false]

end Record

/-- The id a restarted tab may resume: verified, and with a transcript. -/
def lookupResumableBrokerSession (db : Db) (workspaceId brokerSessionId : String) : Option String :=
  ((existingMapping db workspaceId brokerSessionId).filter fun r =>
    r.verified && claudeSessionIsReal db r.claudeSessionId).map BrokerRow.claudeSessionId

/-- The keys of the persisted pending rows. -/
def pendingRows (db : Db) : Finset (String × String) :=
  (db.brokerSessions.rows.filterMap fun r =>
    r.pendingClaudeSessionId.map (pendingKey r.workspaceId)).toFinset

/-- Open the store on a database: the guard set is rehydrated from the rows. -/
def openDb (db : Db) : State := ⟨db, pendingRows db⟩

/-- The transactions and statements that can interleave on an open store. -/
inductive MappingOp
  | record (workspaceId brokerSessionId claudeSessionId : String) (now : ℤ) (outcome : Outcome)
  | learn (workspaceId brokerSessionId claudeSessionId : String) (now : ℤ) (outcome : Outcome)
  | chunk (workspaceId sessionId : String) (lines : List String) (now : ℤ) (commits : Bool)
  | deleteSession (id : String)
  | purge (workspaceId : String) (table : PurgeTable)
  | reopen

def mappingStep (rt : Runtime) (st : State) : MappingOp → Option State
  | .record workspaceId brokerSessionId claudeSessionId now outcome =>
    some (recordBrokerSessionMapping st workspaceId brokerSessionId claudeSessionId now outcome).1
  | .learn workspaceId brokerSessionId claudeSessionId now outcome =>
    some (learnBrokerSessionMapping st workspaceId brokerSessionId claudeSessionId now outcome).1
  | .chunk workspaceId sessionId lines now commits =>
    some (ingestChunk rt st workspaceId sessionId lines now commits).1
  | .deleteSession id => some (deleteSession st id)
  | .purge workspaceId table => some { st with db := purgeStatement st.db workspaceId table }
  | .reopen => some (openDb st.db)

/-- One user line, whose session becomes real with it. -/
def userLine : String := "\x7b\"type\":\"user\",\"uuid\":\"u1\"\x7d"

def userDocs : List (String × Json) := [(userLine, .obj [("type", .str "user"), ("uuid", .str "u1")])]

end ClaudeFleet.StateDb
