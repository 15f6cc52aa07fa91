import ClaudeFleet.Table
import ClaudeFleet.Transition

/-! Knowledge claims: a record reads the claims its workspace can see, and from that snapshot either
confirms a near duplicate or inserts a claim, which may supersede another. Each store call is one
step. The embedder, the capture run and the new id of a record are up to the environment. -/
namespace ClaudeFleet.ClaimService

inductive Kind
  | decision
  | fact
  | gotcha
  | rootCause
  | rejected
  deriving DecidableEq

inductive Visibility
  | fleet
  | priv
  deriving DecidableEq

inductive Status
  | current
  | superseded
  | retracted
  deriving DecidableEq

inductive Via
  | agent
  | capture
  deriving DecidableEq

/-- What `validateClaimInput` makes of the arguments. -/
structure ClaimInput where
  text : String
  kind : Kind
  topics : List String
  refs : List String := []
  visibility : Visibility := .fleet
  supersedes : Option String := none
  captureRun : Option String := none
  deriving DecidableEq

/-- A row of claims, with its row of claim_vectors. -/
structure Claim (V : Type) where
  id : String
  text : String
  kind : Kind
  topics : List String
  refs : List String
  visibility : Visibility
  status : Status := .current
  supersededBy : Option String := none
  retractReason : Option String := none
  workspaceId : String
  confirmations : ℕ := 1
  createdAt : ℤ
  updatedAt : ℤ
  vec : Option V
  deriving DecidableEq

structure Source where
  workspaceId : String
  sessionId : Option String := none
  via : Via := .agent
  captureRun : Option String := none
  deriving DecidableEq

/-- A row of claim_sources. -/
structure SourceRow where
  claimId : String
  source : Source
  ts : ℤ
  deriving DecidableEq

structure CaptureRun where
  id : String
  sessionId : String
  visibility : Option Visibility
  deriving DecidableEq

/-- A null or empty argument is not given. -/
def given (o : Option String) : Option String := o.filter fun x => x ≠ ""

def dedupeCosine : ℚ := 92 / 100

variable {V : Type}

/-- `claims.visible`, without the inactive claims. -/
def visible (claims : List (Claim V)) (callerId : String) : List (Claim V) :=
  (claims.filter fun c =>
    decide (c.visibility = .fleet ∨ c.workspaceId = callerId) && decide (c.status = .current))
    |>.insertionSort fun c d => c.createdAt ≤ d.createdAt

def bumpTopic (counts : List (String × ℕ)) (t : String) : List (String × ℕ) :=
  if counts.any fun c => c.1 = t then counts.map fun c => if c.1 = t then (c.1, c.2 + 1) else c
  else counts ++ [(t, 1)]

/-- `suggestTopics` -/
def suggestTopics (neighbors : List (Claim V)) (given : List String) : List String :=
  let counts := ((neighbors.flatMap Claim.topics).filter fun t => t ∉ given).foldl bumpTopic []
  ((counts.insertionSort fun a b => b.2 ≤ a.2).take 5).map Prod.fst

/-- The store call a record makes. -/
inductive Write (V : Type)
  | confirm (id : String) (now : ℤ)
  | insert (c : Claim V) (supersedes : Option String)
  deriving DecidableEq

inductive RecordPc (V : Type)
  | runningFor (token : String)
  | embedding (source : Source)
  | reading (source : Source) (vec : Option V)
  | writing (source : Source) (w : Write V) (suggested : List String)
  | counting (id : String) (deduped : Bool) (suggested : List String)
  | returned (id : String) (deduped : Bool) (suggested : List String)
  | threw (message : String)
  deriving DecidableEq

inductive RetractPc
  | getting
  | retracting (now : ℤ)
  | done
  | threw (message : String)
  deriving DecidableEq

inductive Task (V : Type)
  | record (callerId : String) (input : ClaimInput) (pc : RecordPc V)
  | retract (callerId id reason : String) (pc : RetractPc)
  deriving DecidableEq

structure State (V : Type) where
  claims : Table (Claim.id (V := V))
  sources : List SourceRow
  next : ℕ
  tasks : ℕ → Option (Task V)

def State.empty : State V := ⟨.empty, [], 0, fun _ => none⟩

def State.goto (s : State V) (t : ℕ) (x : Task V) : State V :=
  { s with tasks := Function.update s.tasks t (some x) }

def State.spawn (s : State V) (x : Task V) : State V :=
  { s.goto s.next x with next := s.next + 1 }

/-- `claims.confirm` -/
def confirm (s : State V) (id : String) (source : Source) (now : ℤ) : State V :=
  { s with
    claims := s.claims.updateWhere (fun c => c.id = id)
      (fun c => { c with confirmations := c.confirmations + 1, updatedAt := now }) fun _ => rfl
    sources := s.sources ++ [⟨id, source, now⟩] }

/-- `claims.retract` -/
def retract (s : State V) (id reason : String) (now : ℤ) : State V :=
  { s with
    claims := s.claims.updateWhere (fun c => c.id = id)
      (fun c => { c with status := .retracted, retractReason := some reason, updatedAt := now })
      fun _ => rfl }

/-- The UPDATE at the end of `claims.insert`. -/
def supersede (claims : Table (Claim.id (V := V))) (target id : String) (now : ℤ) :
    Table (Claim.id (V := V)) :=
  claims.updateWhere (fun c => c.id = target ∧ c.status = .current)
    (fun c => { c with status := .superseded, supersededBy := some id, updatedAt := now })
    fun _ => rfl

/-- `claims.insert`: one transaction, which fails as a whole. -/
def insert (s : State V) (c : Claim V) (source : Source) (supersedes : Option String) :
    Except String (State V) :=
  if (s.claims.get c.id).isSome then .error "UNIQUE constraint failed: claims.id"
  else
    let s' := { s with
      claims := s.claims.insertIgnore c, sources := s.sources ++ [⟨c.id, source, c.createdAt⟩] }
    match given supersedes with
    | none => .ok s'
    | some target =>
      if (s'.claims.rows.filter fun d => d.id = target ∧ d.status = .current).length = 1 then
        .ok { s' with claims := supersede s'.claims target c.id c.createdAt }
      else .error "cannot supersede: the target claim is no longer current"

variable (dot : V → V → ℚ)

/-- The claims with a vector, nearest first. -/
def scored (vec : Option V) (seen : List (Claim V)) : List (Claim V × ℚ) :=
  match vec with
  | none => []
  | some v =>
    (seen.filterMap fun c => c.vec.map fun w => (c, dot v w)).insertionSort fun a b => b.2 ≤ a.2

/-- The check of `supersedes` against the visible claims. -/
def checkTarget (input : ClaimInput) (seen : List (Claim V)) : Except String Unit :=
  match given input.supersedes with
  | none => .ok ()
  | some target =>
    match seen.find? fun c => c.id = target with
    | none => .error "supersedes must name a current claim you can see"
    | some c =>
      if c.visibility = .fleet ∧ input.visibility ≠ .fleet then
        .error "a fleet claim can only be superseded by a fleet claim (visibility \"fleet\")"
      else .ok ()

/-- The claim that a record without `supersedes` merges into. -/
def duplicate (input : ClaimInput) (vec : Option V) (seen : List (Claim V)) : Option (Claim V) :=
  if (given input.supersedes).isSome then none
  else
    ((scored dot vec seen).find? fun x =>
      decide (dedupeCosine ≤ x.2) && decide (x.1.kind = input.kind) &&
        decide (x.1.visibility = input.visibility)).map Prod.fst

/-- `record` from the snapshot of the visible claims to its store call. -/
def chooseWrite (callerId : String) (input : ClaimInput) (vec : Option V) (seen : List (Claim V))
    (now : ℤ) (id : String) : Except String (Write V × List String) :=
  match checkTarget input seen with
  | .error e => .error e
  | .ok _ =>
    let suggested := suggestTopics (((scored dot vec seen).take 5).map Prod.fst) input.topics
    match duplicate dot input vec seen with
    | some c => .ok (.confirm c.id now, suggested)
    | none =>
      .ok (.insert
        { id := id, text := input.text, kind := input.kind, topics := input.topics
          refs := input.refs, visibility := input.visibility, workspaceId := callerId
          createdAt := now, updatedAt := now, vec := vec } input.supersedes, suggested)

/-- What an await resolves to. `lost` is a store call that took effect and whose answer did not
arrive. -/
inductive Answer (V : Type)
  | ok
  | failed (message : String)
  | lost (message : String)
  | run (o : Option CaptureRun)
  | vec (o : Option V)
  | now (now : ℤ) (id : String)

/-- The record's write has committed. -/
def written (source : Source) (id : String) (deduped : Bool) (suggested : List String) :
    RecordPc V :=
  if source.captureRun.isSome then .counting id deduped suggested
  else .returned id deduped suggested

def State.resumeRecord (s : State V) (t : ℕ) (callerId : String) (input : ClaimInput)
    (pc : RecordPc V) (a : Answer V) : Option (State V) :=
  let goto := fun (s : State V) pc => some (s.goto t (.record callerId input pc))
  match pc, a with
  | .runningFor _, .run o =>
    match o with
    | none => goto s (.threw "capture_run is not an active capture run for this workspace")
    | some run =>
      -- the run's visibility is enforced here
      let input' :=
        if run.visibility = some .priv then { input with visibility := .priv } else input
      some (s.goto t (.record callerId input'
        (.embedding ⟨callerId, some run.sessionId, .capture, some run.id⟩)))
  | .embedding source, .vec o => goto s (.reading source o)
  | .reading source vec, .now now id =>
    match chooseWrite dot callerId input vec (visible s.claims.rows callerId) now id with
    | .error e => goto s (.threw e)
    | .ok (w, suggested) => goto s (.writing source w suggested)
  | .writing source (.confirm id now) suggested, .ok =>
    goto (confirm s id source now) (written source id true suggested)
  | .writing source (.confirm id now) _, .lost e => goto (confirm s id source now) (.threw e)
  | .writing source (.insert c supersedes) suggested, .ok =>
    match insert s c source supersedes with
    | .ok s' => goto s' (written source c.id false suggested)
    | .error e => goto s (.threw e)
  | .writing source (.insert c supersedes) _, .lost e =>
    match insert s c source supersedes with
    | .ok s' => goto s' (.threw e)
    | .error e => goto s (.threw e)
  | .counting id deduped suggested, .ok => goto s (.returned id deduped suggested)
  | .runningFor _, .failed e | .reading _ _, .failed e | .writing _ _ _, .failed e
  | .counting _ _ _, .failed e => goto s (.threw e)
  | _, _ => none

def State.resumeRetract (s : State V) (t : ℕ) (callerId id reason : String) (pc : RetractPc)
    (a : Answer V) : Option (State V) :=
  let goto := fun (s : State V) pc => some (s.goto t (.retract callerId id reason pc))
  match pc, a with
  | .getting, .now now _ =>
    if (s.claims.get id).any fun c => c.workspaceId = callerId then goto s (.retracting now)
    else goto s (.threw "only the authoring workspace can retract a claim")
  | .retracting now, .ok => goto (retract s id reason now) .done
  | .retracting now, .lost e => goto (retract s id reason now) (.threw e)
  | .getting, .failed e | .retracting _, .failed e => goto s (.threw e)
  | _, _ => none

inductive Action (V : Type)
  | record (callerId : String) (input : ClaimInput)
  | retract (callerId id reason : String)
  | resume (t : ℕ) (a : Answer V)
  | setVector (id : String) (vec : V)

/-- The first await of a record whose input is valid. -/
def begin (callerId : String) (input : ClaimInput) : RecordPc V :=
  match given input.captureRun with
  | some token => .runningFor token
  | none => .embedding { workspaceId := callerId }

def step (s : State V) : Action V → Option (State V)
  | .record callerId input => some (s.spawn (.record callerId input (begin callerId input)))
  | .retract callerId id reason =>
    if id = "" ∨ reason = "" then
      some (s.spawn (.retract callerId id reason (.threw "id and reason are required")))
    else some (s.spawn (.retract callerId id reason .getting))
  | .resume t a =>
    match s.tasks t with
    | some (.record callerId input pc) => s.resumeRecord dot t callerId input pc a
    | some (.retract callerId id reason pc) => s.resumeRetract t callerId id reason pc a
    | none => none
  | .setVector id vec =>
    some { s with
      claims := s.claims.updateWhere (fun c => c.id = id) (fun c => { c with vec := some vec })
        fun _ => rfl }

end ClaudeFleet.ClaimService
