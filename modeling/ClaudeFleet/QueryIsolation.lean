import ClaudeFleet.Transition

/-! The MCP query on Postgres: each call takes its role's lock, writes its scope to mcp_grants, and
reads in one snapshot of the database what row-level security lets the role see. Every await is a
step. Calls into Postgres end as the environment likes, and the SQL of a caller is an arbitrary
function of the rows it can see. -/
namespace ClaudeFleet.QueryIsolation

/-- `MCP_QUERY_TABLES` -/
inductive QueryTable
  | events
  | sessions
  | brokerSessions
  | sessionSummaries
  | sessionTags
  | usageEvents
  | perfEvents
  | portExposures
  deriving DecidableEq

structure Row where
  table : QueryTable
  workspaceId : Option String
  columns : String
  rawJsonl : Option String := none
  deriving DecidableEq

/-- The policy `mcp_read` of a table, for a role with these grants. -/
def policy (granted : Finset String) (r : Row) : Bool :=
  match r.table with
  | .perfEvents => r.workspaceId.all fun w => w ∈ granted
  | _ => r.workspaceId.any fun w => w ∈ granted

/-- What a temp view over a table keeps of a row. -/
def Row.view (includeRaw : Bool) (r : Row) : Row :=
  if includeRaw then r else { r with rawJsonl := none }

def visible (granted : Finset String) (includeRaw : Bool) (db : List Row) : List Row :=
  (db.filter (policy granted)).map (Row.view includeRaw)

structure Failure where
  message : String
  code : Option String := none
  deriving DecidableEq

structure QueryArgs where
  sql : String
  params : List String := []
  includeRaw : Bool := false
  maxRows : ℤ
  deriving DecidableEq

/-- The server's answer to a caller's SQL over the rows it sees: an error, or a cursor whose rows
are JSON texts or raise an error when they are fetched. -/
abbrev Eval := String → List String → List Row → Except Failure (List (Except Failure String))

def maxQueryBytes : ℕ := 50000

def fetchBatch : ℕ := 50

/-- The check around each row of the cursor, `mcp_row_too_large`. -/
def sized : Except Failure String → Except Failure String
  | .ok j =>
    if j.utf8ByteSize > maxQueryBytes then
      .error ⟨s!"result too large: a row is {j.utf8ByteSize} bytes (max {maxQueryBytes}); " ++
        "select fewer or narrower columns", some "54000"⟩
    else .ok j
  | .error e => .error e

/-- The rows of one batch, counted in bytes. -/
def pushRows : List String → List String → ℕ → Except Failure (List String × ℕ)
  | [], rows, bytes => .ok (rows, bytes)
  | j :: batch, rows, bytes =>
    if bytes + (j.utf8ByteSize + 1) > maxQueryBytes then
      .error ⟨s!"result too large (over {maxQueryBytes} bytes); " ++
        "add LIMIT or aggregate server-side", none⟩
    else pushRows batch (rows ++ [j]) (bytes + (j.utf8ByteSize + 1))

theorem length_pushRows {batch rows out : List String} {bytes n : ℕ}
    (h : pushRows batch rows bytes = .ok (out, n)) : out.length = rows.length + batch.length := by
  induction batch generalizing rows bytes with
  | nil =>
    simp only [pushRows, Except.ok.injEq, Prod.mk.injEq] at h
    simp [h.1]
  | cons j batch ih =>
    simp only [pushRows] at h
    split_ifs at h
    have := ih h
    simp only [List.length_append, List.length_cons, List.length_nil] at this ⊢
    omega

/-- The loop of `exec` over `FETCH FORWARD`. -/
def fetch (maxRows : ℕ) (cursor : List (Except Failure String)) (rows : List String) (bytes : ℕ) :
    Except Failure (List String) :=
  if rows.length < maxRows then
    let n := min fetchBatch (maxRows - rows.length)
    match (cursor.take n).mapM id with
    | .error e => .error e
    | .ok batch =>
      match _hpush : pushRows batch rows bytes with
      | .error e => .error e
      | .ok (rows', bytes') =>
        if batch.length < n then .ok rows' else fetch maxRows (cursor.drop n) rows' bytes'
  else .ok rows
termination_by maxRows - rows.length
decreasing_by
  have hlen := length_pushRows _hpush
  have hbatch : 0 < fetchBatch := by decide
  omega

/-- What `exec` returns of a snapshot. -/
def answer (eval : Eval) (q : QueryArgs) (granted : Finset String) (db : List Row) :
    Except Failure (List String) :=
  match eval q.sql q.params (visible granted q.includeRaw db) with
  | .error e => .error e
  | .ok cursor => fetch q.maxRows.toNat (cursor.map sized) [] 2

/-- `callerRole` hashes a caller's id, and `preprovisioned` is the one login of all callers. -/
structure Options where
  callerRole : String → String
  preprovisioned : Option String := none
  maxConcurrent : ℕ := 2
  maxQueued : ℕ := 8
  callMs : ℕ := 20000

def Options.roleFor (opts : Options) (caller : String) : String :=
  opts.preprovisioned.getD (opts.callerRole caller)

/-- What a repeatable-read transaction sees. -/
structure Snapshot where
  db : List Row
  grants : Finset (String × String)

/-- The await a task stands at; `retry` is the second `runAs` of `call`. -/
inductive Pc
  | waiting
  | slot
  | starting
  | ensuring (retry : Bool)
  | ensured (retry : Bool)
  | scoping
  | connecting (retry : Bool)
  | executing (retry : Bool)
  | reading (retry : Bool) (snapshot : Snapshot)
  | closing (retry : Bool) (result : Except Failure (List String))
  -- `forgetCaller`
  | ending
  | dropping
  | finished

inductive Request
  | query (caller : String) (scope : Finset String) (args : QueryArgs)
  | forget (caller : String)
  deriving DecidableEq

/-- A call of `query` or `forgetCaller` that has asked for its role's lock. `outcome` is how the
promise of a query has settled. -/
structure Task where
  request : Request
  role : String
  gen : ℕ
  pc : Pc := .waiting
  abandoned : Bool := false
  outcome : Option (Except Failure (List String)) := none

/-- `ensured` and `pools` say which roles have an entry; tasks are known by their numbers. -/
structure State where
  db : List Row
  grants : Finset (String × String)
  generations : String → ℕ
  pending : String → ℕ
  ensured : String → Bool
  pools : String → Bool
  active : ℕ
  waiting : List ℕ
  tickets : ℕ
  tasks : ℕ → Option (Task)
  released : ℕ → Bool

/-- The workspaces that `mcp_scope()` gives a session of the role. -/
def scopeOf (grants : Finset (String × String)) (role : String) : Finset String :=
  (grants.filter fun g => g.1 = role).image Prod.snd

/-- The DELETE and INSERT of `writeScope`. -/
def rewriteScope (grants : Finset (String × String)) (role : String) (scope : Finset String) :
    Finset (String × String) :=
  (grants.filter fun g => g.1 ≠ role) ∪ scope.image fun w => (role, w)

namespace State

/-- `tail` of the role's lock as the task with number `t` found it. -/
def tail (s : State) (role : String) : ℕ → Bool
  | 0 => true
  | t + 1 => s.tail role t && (s.released t || !(s.tasks t).any fun x => x.role = role)

def put (s : State) (t : ℕ) (x : Task) : State :=
  { s with tasks := Function.update s.tasks t (some x) }

def goto (s : State) (t : ℕ) (x : Task) (pc : Pc) :
    State :=
  s.put t { x with pc := pc }

/-- A new task takes its place in the queue of its role's lock. -/
def enqueue (s : State) (x : Task) : State :=
  { s with tickets := s.tickets + 1, tasks := Function.update s.tasks s.tickets (some x) }

/-- `free` of `slot()`: the slot goes to the next in line. -/
def free (s : State) : State :=
  match s.waiting with
  | [] => { s with active := s.active - 1 }
  | next :: rest =>
    { s with
      waiting := rest
      tasks := Function.update s.tasks next
        ((s.tasks next).map fun x => { x with pc := .starting }) }

/-- `release()` and `done()` of a query. -/
def release (s : State) (t : ℕ) (role : String) : State :=
  { s with
    released := Function.update s.released t true
    pending := Function.update s.pending role (s.pending role - 1) }

/-- The query ends before its work began. -/
def refuse (s : State) (t : ℕ) (x : Task) (e : Failure) :
    State :=
  (s.put t { x with pc := .finished, outcome := some (.error e) }).release t x.role

/-- The promise of `call` settles. -/
def settle (s : State) (t : ℕ) (x : Task)
    (result : Except Failure (List String)) : State :=
  if x.abandoned then (s.goto t x .finished).release t x.role
  else ((s.put t { x with pc := .finished, outcome := some result }).free).release t x.role

end State

/-- How a call into Postgres ends. `lost` took effect, and its answer did not arrive. -/
inductive Outcome
  | ok
  | failed (e : Failure)
  | lost (e : Failure)
  deriving DecidableEq

def Outcome.error? : Outcome → Option Failure
  | .ok => none
  | .failed e | .lost e => some e

def removed : Failure := ⟨"the caller workspace was removed", none⟩

def busy : Failure := ⟨"query is busy: too many queries are running; retry shortly", none⟩

def invalidPassword : String := "28P01"

def maxErrorChars : ℕ := 2048

def clipError (e : Failure) : Failure :=
  if e.message.length ≤ maxErrorChars then e
  else { e with message := (e.message.take maxErrorChars).toString ++ "… [truncated]" }

/-- A login of bootstrap's that fails is another error, without a code. -/
def loginUnavailable (role : String) (e : Failure) : Failure :=
  let hint := if e.code = some invalidPassword ∨ e.code = some "28000" then
    " (fleet-host bootstrap creates it; IAM must allow rds-db:connect for it)" else ""
  ⟨s!"query is unavailable on this Postgres store: cannot log in as {role}: " ++
    (e.message.take maxErrorChars).toString ++ hint, none⟩

variable (opts : Options) (eval : Eval)

namespace State

/-- `ensureRole` up to its first await. -/
def ensureRole (s : State) (t : ℕ) (x : Task) (retry : Bool) :
    State :=
  if opts.preprovisioned.isSome then s.goto t x (.ensuring retry)
  else if s.ensured x.role then s.goto t x (.ensured retry)
  -- `provision` checks the generation before its transaction
  else if s.generations x.role ≠ x.gen then s.settle t x (.error removed)
  else { s with ensured := Function.update s.ensured x.role true }.goto t x (.ensuring retry)

/-- `runAs` up to its first await. -/
def runAs (s : State) (t : ℕ) (x : Task) (q : QueryArgs) (retry : Bool) :
    State :=
  if q.maxRows < 1 ∨ 2 ^ 53 ≤ q.maxRows then
    s.settle t x (.error ⟨"maxRows must be a positive integer", none⟩)
  else if s.pools x.role then s.goto t x (.connecting retry)
  else s.settle t x (.error ⟨"caller role pool missing", none⟩)

/-- `runAs` has ended; `call` tries once more after a refused password. -/
def ranAs (s : State) (t : ℕ) (x : Task) (retry : Bool)
    (result : Except Failure (List String)) : State :=
  match result with
  | .error e =>
    if e.code = some invalidPassword ∧ retry = false then
      { s with ensured := Function.update s.ensured x.role false }.ensureRole opts t x true
    else s.settle t x (.error e)
  | .ok rows => s.settle t x (.ok rows)

/-- The await of a query settles. -/
def resumeQuery (s : State) (t : ℕ) (x : Task) (scope : Finset String)
    (q : QueryArgs) (o : Outcome) : Option (State) :=
  match x.pc with
  | .waiting =>
    if s.tail x.role t then
      if s.generations x.role ≠ x.gen then some (s.refuse t x removed)
      else if s.active < opts.maxConcurrent then
        some ({ s with active := s.active + 1 }.goto t x .starting)
      else if opts.maxQueued ≤ s.waiting.length then some (s.refuse t x busy)
      else some ({ s with waiting := s.waiting ++ [t] }.goto t x .slot)
    else none
  | .starting => some (s.ensureRole opts t x false)
  | .ensuring retry =>
    match o.error? with
    | none => some ({ s with pools := Function.update s.pools x.role true }.goto t x (.ensured retry))
    | some e =>
      some ({ s with ensured := Function.update s.ensured x.role false }.settle t x (.error e))
  | .ensured true => some (s.runAs t x q true)
  | .ensured false =>
    -- `writeScope`
    if s.generations x.role ≠ x.gen then some (s.settle t x (.error removed))
    else some (s.goto t x .scoping)
  | .scoping =>
    match o with
    | .ok => some ({ s with grants := rewriteScope s.grants x.role scope }.runAs t x q false)
    | .failed e => some (s.settle t x (.error e))
    | .lost e =>
      some ({ s with grants := rewriteScope s.grants x.role scope }.settle t x (.error e))
  | .connecting retry =>
    match o.error? with
    | none => some (s.goto t x (.executing retry))
    | some e =>
      some (s.ranAs opts t x retry
        (.error (if opts.preprovisioned.isSome then loginUnavailable x.role e else e)))
  | .executing retry =>
    match o.error? with
    | none => some (s.goto t x (.reading retry ⟨s.db, s.grants⟩))
    | some e => some (s.goto t x (.closing retry (.error e)))
  | .reading retry snapshot =>
    match o.error? with
    | none =>
      some (s.goto t x
        (.closing retry (answer eval q (scopeOf snapshot.grants x.role) snapshot.db)))
    | some e => some (s.goto t x (.closing retry (.error e)))
  | .closing retry result => some (s.ranAs opts t x retry (result.mapError clipError))
  | .slot | .ending | .dropping | .finished => none

/-- The await of `forgetCaller` settles. -/
def resumeForget (s : State) (t : ℕ) (x : Task) (o : Outcome) :
    Option (State) :=
  let done := { s.goto t x .finished with released := Function.update s.released t true }
  match x.pc with
  | .waiting => if s.tail x.role t then some (s.goto t x .ending) else none
  | .ending =>
    match o.error? with
    | none =>
      some ({ s with
        pools := Function.update s.pools x.role false
        ensured := Function.update s.ensured x.role false }.goto t x .dropping)
    | some _ => some done
  | .dropping =>
    match o with
    | .failed _ => some done
    | _ => some { done with grants := s.grants.filter fun g => g.1 ≠ x.role }
  | _ => none

end State

/-- `failed` of `runAs`: a client error or the call's deadline, while `exec` runs. -/
def Pc.interrupted (pc : Pc) (e : Failure) : Option (Pc) :=
  match pc with
  | .executing retry | .reading retry _ => some (.closing retry (.error e))
  | _ => none

/-- `call` has begun and not settled. -/
def Pc.working : Pc → Bool
  | .ensuring _ | .ensured _ | .scoping | .connecting _ | .executing _ | .reading _ _
  | .closing _ _ => true
  | .waiting | .slot | .starting | .ending | .dropping | .finished => false

inductive Action
  | query (caller : String) (scope : Finset String) (args : QueryArgs)
  | forgetCaller (caller : String)
  | resume (t : ℕ) (o : Outcome)
  | interrupt (t : ℕ) (e : Failure)
  | late (t : ℕ)
  | commit (db : List Row)

def step (s : State) : Action → Option (State)
  | .query caller scope args =>
    let role := opts.roleFor caller
    -- a call that finds the line full throws, and nothing has happened
    if s.pending role > opts.maxQueued then some s
    else
      some ({ s with pending := Function.update s.pending role (s.pending role + 1) }.enqueue
        { request := .query caller scope args, role := role, gen := s.generations role })
  | .forgetCaller caller =>
    if opts.preprovisioned.isSome then some s
    else
      let role := opts.callerRole caller
      let gen := s.generations role + 1
      some ({ s with generations := Function.update s.generations role gen }.enqueue
        { request := .forget caller, role := role, gen := gen })
  | .resume t o =>
    match s.tasks t with
    | some x =>
      match x.request with
      | .query _ scope args => s.resumeQuery opts eval t x scope args o
      | .forget _ => s.resumeForget t x o
    | none => none
  | .interrupt t e =>
    match s.tasks t with
    | some x => (x.pc.interrupted e).map fun pc => s.goto t x pc
    | none => none
  | .late t =>
    match s.tasks t with
    | some x =>
      if x.pc.working ∧ x.abandoned = false then
        let e := ⟨s!"query did not finish within {opts.callMs} ms", none⟩
        some (s.put t { x with abandoned := true, outcome := some (.error e) }).free
      else none
    | none => none
  | .commit db => some { s with db := db }

end ClaudeFleet.QueryIsolation
