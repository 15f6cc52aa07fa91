import ClaudeFleet.Calls
import ClaudeFleet.ScriptOutput
import ClaudeFleet.Validation

/-! The executor of an automation's steps: prompts to a session that lives, prompts to fresh
sessions, and scripts. Every effect on a workspace, the clock and sleeping are calls. -/
namespace ClaudeFleet.Runner
open Js Template Definition Calls Calls.Prog ScriptOutput

inductive WorkspaceState
  | running
  | paused
  | stopped
  | deleted
  | unreachable
  deriving DecidableEq

inductive FreshState
  | alive
  | ended
  | missing
  deriving DecidableEq

inductive RunStatus
  | succeeded
  | nothingToDo
  | failed
  | timedOut
  deriving DecidableEq

inductive Target
  | container (workspaceId : Text)
  | host (shell : Text)
  deriving DecidableEq

structure ExecResult where
  exitCode : ℤ
  stdout : Text
  stderr : Text
  timedOut : Bool
  deriving DecidableEq

structure Detail where
  via : Text
  exitCode : Option ℤ := none
  todos : Option ℕ := none
  notifications : Option ℕ := none
  warnings : List Text := []
  stdout : Option Text := none
  stderr : Option Text := none

/-- What the end of a step writes beside its status. -/
structure Patch where
  error : Option Text := none
  brokerSessionId : Option Text := none
  detail : Option Detail := none

structure TriggerEvent where
  workspaceId : Option Text := none
  todoTitle : Option Text := none

structure Run where
  id : Text
  triggerKind : Text
  event : Option TriggerEvent := none
  args : Args := []

structure Automation where
  id : Text
  name : Text
  definition : AutomationDef

structure RunOutcome where
  status : RunStatus
  error : Option Text
  deriving DecidableEq

inductive Call
  | now
  | sleep (ms : ℤ)
  | workspaceState (id : Text)
  | workspaceName (id : Text)
  | ensureRunning (id : Text)
  | post (id text : Text)
  | busy (id : Text)
  | spawnFresh (id session : Text) (args : List Text)
  | freshState (id session : Text)
  | closeFresh (id session : Text)
  | execScript (target : Target) (script : Text) (env : List (Text × Text)) (timeoutMs : ℤ)
  | automationsWorkspace
  | secret (workspaceId key : Text)
  | emitTodo (input : Value)
  | emitNotify (input : Value)
  | requestNext (raw : Value) (by_ : Text)
  | getState
  | setState (state : Value)
  | startStep (step : Text) (isScript : Bool) (workspace : Option Text) (at_ : ℤ)
  | finishStep (row : ℕ) (status : RunStatus) (patch : Patch) (at_ : ℤ)

def Call.Reply : Call → Type
  | .now => ℤ
  | .workspaceState _ => Option WorkspaceState
  | .workspaceName _ => Text
  /- how it was posted, and the session if there is one -/
  | .post .. => Text × Option Text
  | .busy _ => Bool
  | .freshState .. => FreshState
  | .execScript .. => ExecResult
  | .automationsWorkspace => Option Text
  | .secret .. => Option Text
  | .getState => Option Value
  | .startStep .. => ℕ
  | _ => Unit

/-- A step that failed; the row of a handled one is finished already. -/
structure Failure where
  message : Text
  status : RunStatus := .failed
  handled : Bool := false

abbrev Program (α : Type) := Prog Call.Reply Failure α

/-- The rest of the program and of the language. Each call is answered, or throws with a message, by
the calls made before it. -/
structure Deps where
  answers : (c : Call) → List (Event Call.Reply Failure) → Except Text c.Reply
  json : Json
  numbers : NumberText
  toUpperCase : Text → Text
  /-- Scripts can be run. -/
  execScript : Bool := true

def FRESH_POLL_MS : ℤ := 2000

def POLL_MS : ℤ := 1000

def START_GRACE_MS : ℤ := 30000

def DEFAULT_SCRIPT_TIMEOUT_MS : ℕ := 300000

def DEFAULT_STEP_TIMEOUT_MS : ℕ := 600000

def DEFAULT_RUN_TIMEOUT_MS : ℕ := 1800000

/-- Half up, as `Math.round` of the quotient. -/
def rounded (ms unit : ℤ) : Text := js (toString ((2 * ms + unit) / (2 * unit)))

def fails {α : Type} (message : Text) (status : RunStatus := .failed) : Program α :=
  fail { message := message, status := status }

section Deps

variable (d : Deps)

def Deps.world : World Call.Reply Failure :=
  fun c h => (d.answers c h).mapError fun message => { message := message }

def ask (c : Call) : Program c.Reply := call d.world c

def now : Program ℤ := ask d .now

/-- Ask until it is done; false when the time is up. -/
def poll (done : Program Bool) (limit start period : ℤ) : ℕ → Program Bool
  | 0 => diverge
  | fuel + 1 => do
    let isDone ← done
    if isDone then pure true
    else do
      let t ← now d
      if limit ≤ t - start then pure false
      else do
        let _ ← ask d (.sleep period)
        poll done limit start period fuel

def busy (ws : Text) : Program Bool := ask d (.busy ws)

def waitIdle (fuel : ℕ) (ws : Text) (timeoutMs : ℤ) : Program Unit := do
  let start ← now d
  let sawBusy ← poll d (busy d ws) (min START_GRACE_MS timeoutMs) start POLL_MS fuel
  if sawBusy then do
    let idle ← poll d (do
      let b ← busy d ws
      pure !b) timeoutMs start POLL_MS fuel
    if idle then pure ()
    else do
      let name : Text ← ask d (.workspaceName ws)
      fails (name ++ js " was still working after " ++ rounded timeoutMs 60000 ++ js "m") .timedOut
  else pure ()

def waitFresh (fuel : ℕ) (ws session : Text) (timeoutMs : ℤ) : Program Unit := do
  let start ← now d
  let isOver ← poll d (do
    let st : FreshState ← ask d (.freshState ws session)
    pure (decide (st ≠ .alive))) timeoutMs start FRESH_POLL_MS fuel
  if isOver then pure ()
  else do
    let name : Text ← ask d (.workspaceName ws)
    fails (js "the fresh session in " ++ name ++ js " was still running after " ++
      rounded timeoutMs 60000 ++ js "m") .timedOut

def stateText : WorkspaceState → Text
  | .running => js "running"
  | .paused => js "paused"
  | .stopped => js "stopped"
  | .deleted => js "saved but not running"
  | .unreachable => js "unreachable"

def prepare (ws : Text) (ensureRunning : Bool) : Program Unit := do
  let name : Text ← ask d (.workspaceName ws)
  let state : Option WorkspaceState ← ask d (.workspaceState ws)
  match state with
  | none => fails (js "target-not-running: " ++ name ++ js " no longer exists")
  | some .unreachable =>
    fails (js "docker-unreachable: " ++ name ++ js " can't be reached until Docker is back")
  | some .running => pure ()
  | some state =>
    if ensureRunning then ask d (.ensureRunning ws)
    else fails (js "target-not-running: " ++ name ++ js " is " ++ stateText state ++
      js " (set ensureRunning: true to start it)")

def prepareTarget (ws : Option Text) (ensureRunning : Bool) : Program Unit :=
  match ws with
  | none => pure ()
  | some ws => prepare d ws ensureRunning

/-- The name of the workspace the event came from. -/
def triggerWorkspace (run : Run) : Program (Option Text) :=
  match (run.event.bind TriggerEvent.workspaceId).filter (· ≠ []) with
  | none => pure none
  | some id => do
    let name : Text ← ask d (.workspaceName id)
    pure (some name)

def secret (vaultOf : Option Text) (key : Text) : Program (Option Text) :=
  match vaultOf with
  | some ws => ask d (.secret ws key)
  | none => pure none

def readSecrets (vaultOf : Option Text) : List Text → Program (List (Text × Text))
  | [] => pure []
  | key :: keys => do
    let v ← secret d vaultOf key
    match v, vaultOf with
    | some v, _ => do
      let rest ← readSecrets vaultOf keys
      pure ((key, v) :: rest)
    | none, some ws => do
      let name : Text ← ask d (.workspaceName ws)
      fails (js "secret " ++ key ++ js " isn't set in " ++ name ++ js "'s secrets")
    | none, none => fails (js "secret " ++ key ++
        js " isn't set (no automations workspace to hold it)")

/-- A property of an object is set: where it is, or at the end. -/
def put {α : Type} (fields : List (Text × α)) (key : Text) (v : α) : List (Text × α) :=
  if (fields.lookup key).isSome then fields.map fun kv => if kv.1 = key then (key, v) else kv
  else fields ++ [(key, v)]

def scriptEnv (a : Automation) (run : Run) (state : Option Value) (workspace : Option Text)
    (secrets : List (Text × Text)) : List (Text × Text) :=
  let trigger : Value := .obj ([(js "kind", .str run.triggerKind)] ++
    (workspace.map fun w => (js "workspace", Value.str w)).toList ++
    (((run.event.bind TriggerEvent.todoTitle).filter (· ≠ [])).map fun t =>
      (js "todo", Value.str t)).toList)
  let base : List (Text × Text) :=
    [(js "FLEET_RUN_ID", run.id), (js "FLEET_AUTOMATION", a.name),
      (js "FLEET_ARGS", d.json.stringify (argsValue run.args)),
      (js "FLEET_STATE", match state with
        | none | some .null => js "\x7b\x7d"
        | some v => d.json.stringify v),
      (js "FLEET_TRIGGER", d.json.stringify trigger)]
  let withArgs := run.args.foldl (fun env kv =>
    put env (js "ARG_" ++ d.toUpperCase kv.1) (kv.2.text d.numbers)) base
  secrets.foldl (fun env kv => put env kv.1 kv.2) withArgs

/-- The title of an emit, for the warning that it failed. -/
def titleOf (v : Value) : Text :=
  match v.get "title" with
  | none | some .null => []
  | some t => t.display d.numbers.text

/-- One call for each body; the number that went well, and a warning for each that did not. -/
def emitAll (kind : Text) (emit : Value → Program Unit) : List Value → Program (ℕ × List Text)
  | [] => pure (0, [])
  | v :: vs => do
    let r ← (emit v).attempt
    let rest ← emitAll kind emit vs
    match r with
    | .ok _ => pure (rest.1 + 1, rest.2)
    | .error e => pure (rest.1, (kind ++ js " \"" ++ titleOf d v ++ js "\": " ++ e.message) :: rest.2)

def emitTodo (v : Value) : Program Unit := ask d (.emitTodo v)

def emitNotify (v : Value) : Program Unit := ask d (.emitNotify v)

def keepState (state : Option Value) : Program Unit :=
  match state with
  | none => pure ()
  | some v => ask d (.setState v)

/-- The warnings of a request for the next run. -/
def requestNext (step : Text) (next : Option Value) : Program (List Text) :=
  match next with
  | none => pure []
  | some v => do
    let r ← (ask d (.requestNext v step)).attempt
    match r with
    | .ok _ => pure []
    | .error e => pure [js "next: " ++ e.message]

def ExecResult.failed (res : ExecResult) : Bool :=
  res.timedOut || (res.exitCode ≠ 0 && res.exitCode ≠ EXIT_NOTHING_TO_DO)

/-- What is posted and kept of a script, unless it failed: the todos and notifications that could be
posted, and the warnings. -/
def applyEmits (res : ExecResult) (step : Text) (out : ScriptEmits) :
    Program (ℕ × ℕ × List Text) :=
  if res.failed then pure (0, 0, [])
  else do
    let todos ← emitAll d (js "todo") (emitTodo d) out.todos
    let notes ← emitAll d (js "notify") (emitNotify d) out.notifies
    keepState d out.state
    let warnings ← requestNext d step out.next
    pure (todos.1, notes.1, todos.2 ++ notes.2 ++ warnings)

def finish (row : ℕ) (status : RunStatus) (patch : Patch) : Program Unit := do
  let t ← now d
  ask d (.finishStep row status patch t)

/-- The row is finished with this message, and the run ends with it. -/
def finishFailed (row : ℕ) (status : RunStatus) (message : Text) (detail : Detail) :
    Program (Text × Bool) := do
  finish d row status { error := some message, detail := some detail }
  fail { message := message, status := status, handled := true }

/-- The workspace a script runs in; there is none for one that runs on this computer. -/
def targetWorkspace (sc : ScriptDef) (auto : Option Text) : Option Text :=
  (if sc.runIn = some host then none else sc.runIn.or auto).filter (· ≠ [])

def scriptTarget (sc : ScriptDef) (ws : Option Text) : Target :=
  match ws with
  | none => .host (sc.shell.getD [])
  | some ws => .container ws

def scriptDetail (sc : ScriptDef) (ws : Option Text) (res : ExecResult) (out : ScriptEmits)
    (counts : ℕ × ℕ × List Text) : Detail where
  via := match ws with
    | none => js "host:" ++ sc.shell.getD []
    | some _ => js "container"
  exitCode := some res.exitCode
  todos := some counts.1
  notifications := some counts.2.1
  warnings := (out.warnings ++ counts.2.2).take 10
  stdout := if out.text = [] then none else some (tail out.text 20 2000)
  stderr := if trim res.stderr = [] then none else some (tail res.stderr 20 2000)

/-- The row of a script that has run is finished. -/
def conclude (row : ℕ) (res : ExecResult) (out : ScriptEmits) (detail : Detail) (timeoutMs : ℤ) :
    Program (Text × Bool) :=
  if res.timedOut then
    finishFailed d row .timedOut
      (js "the script was still running after " ++ rounded timeoutMs 1000 ++ js "s") detail
  else if res.failed then
    finishFailed d row .failed (js "exited " ++ js (toString res.exitCode) ++
      (if trim res.stderr = [] then [] else js ": " ++ tail res.stderr 3 300)) detail
  else do
    finish d row (if res.exitCode = EXIT_NOTHING_TO_DO then .nothingToDo else .succeeded)
      { detail := some detail }
    pure (out.text, decide (res.exitCode = EXIT_NOTHING_TO_DO))

/-- Run one script step: its plain output, and whether it stops the run. -/
def runScriptStep (a : Automation) (run : Run) (id : Text) (sc : ScriptDef) (row : ℕ)
    (timeoutMs : ℤ) : Program (Text × Bool) :=
  if !d.execScript then fails (js "script steps are unavailable")
  else do
    let auto : Option Text ← ask d .automationsWorkspace
    let ws := targetWorkspace sc auto
    if sc.runIn ≠ some host && ws.isNone then
      fails (js "no automations workspace: set one up (Automations tab), or give this step " ++
        js "runIn: <workspace>")
    else do
      prepareTarget d ws sc.ensureRunning
      let secrets ← readSecrets d ((ws.or auto).filter (· ≠ [])) sc.secrets
      let state : Option Value ← ask d .getState
      let from_ ← triggerWorkspace d run
      let res : ExecResult ← ask d (.execScript (scriptTarget sc ws) sc.run
        (scriptEnv d a run state from_ secrets) timeoutMs)
      let out := parseScriptOutput d.json res.stdout
      let counts ← applyEmits d res id out
      conclude d row res out (scriptDetail sc ws res out counts) timeoutMs

/-- The plain output of the scripts that have run, by their steps. -/
abbrev Outputs := List (Text × Text)

def INBOX_TOOLS : List Text :=
  ([js "post_todo", js "update_todo", js "list_todos", js "notify", js "list_automations"] :
    List Text).map fun t => js "mcp__claude-fleet-state__" ++ t

def SCHEDULE_NEXT_TOOL : Text := js "mcp__claude-fleet-state__schedule_next"

def runTimeout (a : Automation) : ℤ :=
  ((a.definition.timeout.bind durationOf).getD DEFAULT_RUN_TIMEOUT_MS : ℕ)

/-- Ends the step where the run has gone on for too long. -/
def checkRunTimeout (a : Automation) (started : ℤ) : Program Unit := do
  let t ← now d
  if runTimeout a ≤ t - started then
    fails (js "the run passed its " ++ a.definition.timeout.getD (js "30m") ++ js " timeout") .timedOut
  else pure ()

/-- A step's own limit, or what is left of the run's. -/
def stepTimeout (a : Automation) (started : ℤ) (own : Option Text) (default : ℕ) : Program ℤ := do
  let t ← now d
  pure (min (((own.bind durationOf).getD default : ℕ) : ℤ) (runTimeout a - (t - started)))

def renderCtx (a : Automation) (run : Run) (callerSupplied : Bool) (workspace : Option Text)
    (outputs : Outputs) : RenderCtx where
  automationName := a.name
  runId := run.id
  triggerKind := run.triggerKind
  triggerWorkspace := workspace
  triggerTodo := run.event.bind TriggerEvent.todoTitle
  args := run.args
  callerSupplied := callerSupplied
  stepOutputs := some outputs

def sessionOf (run : Run) (id : Text) : Text := js "auto-" ++ run.id ++ js "-" ++ id

def freshArgs (a : Automation) (p : PromptDef) (text : Text) : List Text :=
  let tools := INBOX_TOOLS ++ (if a.definition.reschedule.isSome then [SCHEDULE_NEXT_TOOL] else []) ++
    ((p.allowedTools.map Listed.items).getD [])
  [js "-p", text, js "--allowedTools", (js ",").intercalate tools]

def waitLive (fuel : ℕ) (p : PromptDef) (timeoutMs : ℤ) : Program Unit :=
  if p.wait then waitIdle d fuel p.workspace timeoutMs else pure ()

/-- What the step of a prompt does between the start and the end of its row. -/
def promptBody (fuel : ℕ) (a : Automation) (run : Run) (callerSupplied : Bool) (started : ℤ)
    (outputs : Outputs) (id : Text) (p : PromptDef) : Program Patch := do
  checkRunTimeout d a started
  prepare d p.workspace p.ensureRunning
  let from_ ← triggerWorkspace d run
  let text := renderPrompt d.numbers p.message (renderCtx a run callerSupplied from_ outputs)
  let timeout ← stepTimeout d a started p.timeout DEFAULT_STEP_TIMEOUT_MS
  match p.mode with
  | .fresh => do
    let session := sessionOf run id
    let _ ← ask d (.spawnFresh p.workspace session (freshArgs a p text))
    (waitFresh d fuel p.workspace session timeout).finally'
      (ask d (.closeFresh p.workspace session))
    pure { brokerSessionId := some session, detail := some { via := js "fresh" } }
  | .live => do
    let res : Text × Option Text ← ask d (.post p.workspace text)
    waitLive d fuel p timeout
    pure { brokerSessionId := res.2, detail := some { via := res.1 } }

def finishOpen (row : ℕ) (e : Failure) : Program Unit :=
  if e.handled then pure () else finish d row e.status { error := some e.message }

/-- The row of a failed step is finished, if it is not yet, and the run ends. -/
def stepFailed (row : ℕ) (id : Text) (e : Failure) : Program (Outputs ⊕ RunOutcome) := do
  finishOpen d row e
  pure (.inr ⟨e.status, some (id ++ js ": " ++ e.message)⟩)

/-- The workspace the row of a script step names. -/
def scriptPlace (sc : ScriptDef) : Program (Option Text) :=
  match sc.runIn with
  | some ws => pure (if ws = host then none else some ws)
  | none => ask d .automationsWorkspace

/-- One step of the run: the outputs to go on with, or how the run ends. -/
def executeStep (fuel : ℕ) (a : Automation) (run : Run) (callerSupplied : Bool) (started : ℤ)
    (outputs : Outputs) : StepDef → Program (Outputs ⊕ RunOutcome)
  | .script id sc => do
    let place ← scriptPlace d sc
    let t ← now d
    let row : ℕ ← ask d (.startStep id true place t)
    rescue (do
      checkRunTimeout d a started
      let timeout ← stepTimeout d a started sc.timeout DEFAULT_SCRIPT_TIMEOUT_MS
      let r ← runScriptStep d a run id sc row timeout
      if r.2 then pure (.inr ⟨.nothingToDo, none⟩) else pure (.inl (put outputs id r.1)))
      (stepFailed d row id)
  | .prompt id p => do
    let t ← now d
    let row : ℕ ← ask d (.startStep id false (some p.workspace) t)
    rescue (do
      let patch ← promptBody d fuel a run callerSupplied started outputs id p
      finish d row .succeeded patch
      pure (.inl outputs))
      (stepFailed d row id)

def executeSteps (fuel : ℕ) (a : Automation) (run : Run) (callerSupplied : Bool) (started : ℤ) :
    Outputs → List StepDef → Program RunOutcome
  | _, [] => pure ⟨.succeeded, none⟩
  | outputs, step :: steps => do
    let r ← executeStep d fuel a run callerSupplied started outputs step
    match r with
    | .inl outputs => executeSteps fuel a run callerSupplied started outputs steps
    | .inr outcome => pure outcome

/-- The whole run; the fuel bounds how often a loop asks whether a session is done. -/
def executeRun (fuel : ℕ) (a : Automation) (run : Run) (callerSupplied : Bool) :
    Program RunOutcome := do
  let started ← now d
  executeSteps d fuel a run callerSupplied started [] a.definition.steps

end Deps

end ClaudeFleet.Runner
