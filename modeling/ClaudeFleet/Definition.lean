import ClaudeFleet.JsValue
import ClaudeFleet.Template

/-! Automation definitions, and the objects they are saved as. -/
namespace ClaudeFleet.Definition
open Js Template

inductive ParamType
  | string
  | number
  | boolean
  | enum
  deriving DecidableEq

def ParamType.name : ParamType → Text
  | .string => js "string"
  | .number => js "number"
  | .boolean => js "boolean"
  | .enum => js "enum"

/-- A list kept as it was given, with the anchor by which it may stand in two places. -/
structure Listed where
  anchor : Option ℕ
  items : List Text
  deriving DecidableEq

structure ParamDef where
  name : Text
  type : ParamType
  values : Option Listed := none
  required : Bool := false
  description : Option Text := none
  default : Option ParamValue := none
  deriving DecidableEq

abbrev Args := List (Text × ParamValue)

inductive EventName
  | sessionIdle
  | todoCreated
  | workspaceStarted
  deriving DecidableEq

def EventName.name : EventName → Text
  | .sessionIdle => js "session.idle"
  | .todoCreated => js "todo.created"
  | .workspaceStarted => js "workspace.started"

structure EventDef where
  on : EventName
  workspace : Option Text := none
  tag : Option Text := none
  debounce : Option Text := none
  deriving DecidableEq

structure ScheduleDef where
  cron : Text
  tz : Option Text := none
  args : Option Args := none
  deriving DecidableEq

inductive TriggerDef
  | event (e : EventDef)
  | schedule (s : ScheduleDef)
  | manual (allowFrom : List Text)
  deriving DecidableEq

structure ScriptDef where
  run : Text
  runIn : Option Text := none
  shell : Option Text := none
  secrets : List Text := []
  ensureRunning : Bool := false
  timeout : Option Text := none
  deriving DecidableEq

inductive Mode
  | live
  | fresh
  deriving DecidableEq

def Mode.name : Mode → Text
  | .live => js "live"
  | .fresh => js "fresh"

structure PromptDef where
  workspace : Text
  mode : Mode
  message : Text
  allowedTools : Option Listed := none
  wait : Bool := false
  ensureRunning : Bool := false
  timeout : Option Text := none
  deriving DecidableEq

inductive StepDef
  | prompt (id : Text) (prompt : PromptDef)
  | script (id : Text) (script : ScriptDef)
  deriving DecidableEq

def StepDef.id : StepDef → Text
  | .prompt id _ | .script id _ => id

def StepDef.isScript : StepDef → Bool
  | .prompt .. => false
  | .script .. => true

inductive Concurrency
  | skip
  | queue
  deriving DecidableEq

structure AutomationDef where
  name : Text
  description : Option Text := none
  tags : Option (List Text) := none
  triggers : List TriggerDef
  concurrency : Concurrency := .skip
  timeout : Option Text := none
  params : List ParamDef := []
  reschedule : Option Text := none
  steps : List StepDef
  deriving DecidableEq

/-! Definitions as the objects they are. -/

def ParamValue.toValue : ParamValue → Value
  | .string s => .str s
  | .number n => .num n
  | .boolean b => .bool b

def Listed.toValue (l : Listed) : Value := .ofTexts l.anchor l.items

/-- A flag that is set, or no property at all. -/
def flag (b : Bool) : Option Value := if b then some (.bool true) else none

def ParamDef.toValue (p : ParamDef) : Value :=
  .record [("name", some (.str p.name)), ("type", some (.str p.type.name)),
    ("values", p.values.map Listed.toValue), ("required", flag p.required),
    ("description", p.description.map .str), ("default", p.default.map ParamValue.toValue)]

def argsValue (args : Args) : Value := .obj (args.map fun kv => (kv.1, ParamValue.toValue kv.2))

def EventDef.toValue (e : EventDef) : Value :=
  .record [("on", some (.str e.on.name)), ("workspace", e.workspace.map .str),
    ("tag", e.tag.map .str), ("debounce", e.debounce.map .str)]

def ScheduleDef.toValue (s : ScheduleDef) : Value :=
  .record [("cron", some (.str s.cron)), ("tz", s.tz.map .str), ("args", s.args.map argsValue)]

def TriggerDef.toValue : TriggerDef → Value
  | .event e => .record [("event", some e.toValue)]
  | .schedule s => .record [("schedule", some s.toValue)]
  | .manual allow => .record [("manual", some (.record
      [("allowFrom", if allow = [] then none else some (.ofTexts none allow))]))]

def ScriptDef.toValue (s : ScriptDef) : Value :=
  .record [("run", some (.str s.run)), ("runIn", s.runIn.map .str), ("shell", s.shell.map .str),
    ("secrets", if s.secrets = [] then none else some (.ofTexts none s.secrets)),
    ("ensureRunning", flag s.ensureRunning), ("timeout", s.timeout.map .str)]

def PromptDef.toValue (p : PromptDef) : Value :=
  .record [("workspace", some (.str p.workspace)), ("mode", some (.str p.mode.name)),
    ("message", some (.str p.message)), ("allowedTools", p.allowedTools.map Listed.toValue),
    ("wait", flag p.wait), ("ensureRunning", flag p.ensureRunning),
    ("timeout", p.timeout.map .str)]

def StepDef.toValue : StepDef → Value
  | .prompt id p => .record [("id", some (.str id)), ("prompt", some p.toValue)]
  | .script id s => .record [("id", some (.str id)), ("script", some s.toValue)]

def Concurrency.name : Concurrency → Text
  | .skip => js "skip"
  | .queue => js "queue"

def AutomationDef.toValue (d : AutomationDef) : Value :=
  .record [("name", some (.str d.name)), ("description", d.description.map .str),
    ("tags", d.tags.map (.ofTexts none)),
    ("triggers", some (.arr none (d.triggers.map (·.toValue)))),
    ("concurrency", some (.str d.concurrency.name)), ("timeout", d.timeout.map .str),
    ("params", if d.params = [] then none else some (.arr none (d.params.map (·.toValue)))),
    ("reschedule", d.reschedule.map fun m => .record [("min", some (.str m))]),
    ("steps", some (.arr none (d.steps.map (·.toValue))))]

end ClaudeFleet.Definition
