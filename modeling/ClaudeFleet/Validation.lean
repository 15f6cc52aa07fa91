import ClaudeFleet.Check
import ClaudeFleet.Cron
import ClaudeFleet.Definition

/-! The validation of automation definitions and of run arguments: what a parsed text has to hold,
and the definition that is kept of it. -/
namespace ClaudeFleet.Definition
open Js Template

/-! The rest of the language and of the program, as validation uses it. -/

/-- Letters in lower case, digits, dots, underscores and dashes. -/
def isTagUnit (u : UInt16) : Bool :=
  (97 ≤ u && u ≤ 122) || isDigit u || u == 46 || u == 95 || u == 45

structure Language where
  numbers : NumberText
  toNumber : Text → Number
  toLowerCase : Text → Text
  lower_tag : ∀ s, (∀ u ∈ s, isTagUnit u = true) → toLowerCase s = s
  isValidTimeZone : Text → Bool

structure ResolveCtx where
  /-- The id of a workspace given by id or name. -/
  workspace : Text → Option Text
  /-- The shells this computer offers, where they are known. -/
  hostShells : Option (List Text) := none
  check : Option (AutomationDef → List Text) := none

/-! Durations. -/

def unitMs (u : UInt16) : Option ℕ :=
  if u = 115 then some 1000
  else if u = 109 then some 60000
  else if u = 104 then some 3600000
  else if u = 100 then some 86400000
  else none

/-- The milliseconds of a text such as 90s, 10m, 2h or 1d. -/
def durationOf (s : Text) : Option ℕ :=
  let t := trim s
  match t.takeWhile isDigit, (t.dropWhile isDigit).dropWhile isSpace with
  | [], _ => none
  | digits, [u] => (unitMs u).map (decimal digits * ·)
  | _, _ => none

def parseDuration (v : Value) : Option ℕ := v.asText.bind durationOf

/-- A text that is a duration between bounds, trimmed. -/
def durationIn (lo hi : ℕ) (v : Value) : Option Text :=
  (v.asText.filter fun s => (durationOf s).any fun ms => lo ≤ ms && ms ≤ hi).map trim

/-! Tags. -/

def MAX_TAGS : ℕ := 10

/-- Each row of white space as one dash. -/
def dashes (s : Text) : Text :=
  match s with
  | [] => []
  | u :: t => if isSpace u then 45 :: dashes (t.dropWhile isSpace) else u :: dashes t
termination_by s.length
decreasing_by
  · have := (List.dropWhile_suffix isSpace (l := t)).length_le
    simp only [List.length_cons]
    omega
  · simp

variable (L : Language)

def normalizeTag (raw : Text) : Option Text :=
  let t := dashes (L.toLowerCase (trim raw))
  if t ≠ [] ∧ t.length ≤ 40 ∧ t.all isTagUnit = true then some t else none

/-- One pass of the loop over the tags, while there is room. -/
def addTag (out : List Text) (raw : Value) : List Text :=
  match raw.asText.bind (normalizeTag L) with
  | some t => if t ∈ out then out else out ++ [t]
  | none => out

def normalizeTags (raw : List Value) : List Text :=
  raw.foldl (fun out v => if out.length = MAX_TAGS then out else addTag L out v) []

/-! Patterns of names. -/

/-- A first character of one kind and the rest of another, up to a length. -/
def named (first rest : UInt16 → Bool) (max : ℕ) (s : Text) : Bool :=
  s.head?.any first && s.tail.all rest && decide (s.length ≤ max)

def isLower (u : UInt16) : Bool := 97 ≤ u && u ≤ 122

def isUpper (u : UInt16) : Bool := 65 ≤ u && u ≤ 90

def isLowerDigit (u : UInt16) : Bool := isLower u || isDigit u

def underscore : UInt16 := 95

def dash : UInt16 := 45

def nameRe : Text → Bool := named isLowerDigit (fun u => isLowerDigit u || u == dash) 60

def stepRe : Text → Bool :=
  named isLower (fun u => isLowerDigit u || u == underscore || u == dash) 31

def paramRe : Text → Bool :=
  named (fun u => isLower u || u == underscore) (fun u => isLowerDigit u || u == underscore) 40

def isTool (u : UInt16) : Bool := isLetter u || isDigit u || (js "_*:.()/ -").contains u

def toolRe : Text → Bool := named isTool isTool 120

def secretRe : Text → Bool :=
  named (fun u => isUpper u || u == underscore)
    (fun u => isUpper u || isDigit u || u == underscore) 64

def reservedEnv (s : Text) : Bool :=
  (js "FLEET_").isPrefixOf s || (js "ARG_").isPrefixOf s ||
    [js "PATH", js "HOME", js "USER", js "SHELL", js "PWD", js "LANG", js "TERM", js "SystemRoot",
      js "WSLENV"].contains s

def isDistro (u : UInt16) : Bool := isLetter u || isDigit u || (js "._-").contains u

def distroRe : Text → Bool := named isDistro isDistro 64

def joined (texts : List Text) : Text := (js ", ").intercalate texts

def indexed (list : Text) (i : ℕ) : Text := list ++ js "[" ++ js (toString i) ++ js "]"

/-! Params and the values given for them. -/

def checkParamValue (p : ParamDef) (v : Value) (place : Text) : Check Text ParamValue :=
  match p.type, v with
  | .string, .str s => pure (.string s)
  | .number, .num n =>
    if n.isFinite then pure (.number n) else .fail (place ++ js ": must be a number")
  | .boolean, .bool b => pure (.boolean b)
  | .enum, v =>
    match v, p.values with
    | .str s, some values =>
      if s ∈ values.items then pure (.string s)
      else .fail (place ++ js ": must be one of " ++ joined values.items)
    | _, values => .fail (place ++ js ": must be one of " ++
        (values.elim (js "undefined") fun values => joined values.items))
  | t, _ => .fail (place ++ js ": must be a " ++ t.name)

def typeOf (v : Option Value) : Option ParamType :=
  [ParamType.string, .number, .boolean, .enum].find? fun t =>
    (v.bind Value.asText) = some t.name

/-- A list of strings, which is not empty. -/
def textsOf (v : Option Value) : Option Listed :=
  match v with
  | some (.arr anchor items) => (items.mapM Value.asText).bind fun texts =>
      if texts = [] then none else some ⟨anchor, texts⟩
  | _ => none

def isTrue (v : Option Value) : Bool :=
  match v with
  | some (.bool true) => true
  | _ => false

def textWith (pattern : Text → Bool) (v : Option Value) : Option Text :=
  (v.bind Value.asText).filter pattern

/-- The values an enum lists; another param has none. -/
def validateValues (w : Text) (type : ParamType) (v : Option Value) :
    Check Text (Option Listed) :=
  if type = .enum then
    .orFail ((textsOf v).map some) (w ++ js ".values: an enum needs a list of strings")
  else pure none

/-- The body of the loop over the params. -/
def validateParam (i : ℕ) (out : List ParamDef) (p : Value) : Check Text ParamDef := do
  let w := indexed (js "params") i
  .refuse (!p.isObject) (w ++ js ": must be an object")
  let name ← .orFail (textWith paramRe (p.get "name"))
    (w ++ js ".name: lowercase letters, digits, _ (max 40)")
  .complain (out.any (·.name == name)) (w ++ js ".name: duplicate " ++ Cron.quoted name)
  let type ← .orFail (typeOf (p.get "type")) (w ++ js ".type: string, number, boolean or enum")
  let values ← validateValues w type (p.get "values")
  let param : ParamDef :=
    { name, type, values, required := isTrue (p.get "required")
      description := ((p.get "description").bind Value.asText).map (·.take 200) }
  match p.get "default" with
  | none => pure param
  | some v =>
    let default ← (checkParamValue param v (w ++ js ".default")).attempt
    pure { param with default }

def validateParams (raw : Option Value) : Check Text (List ParamDef) :=
  match raw with
  | none => pure []
  | some (.arr _ items) => .each validateParam 0 [] items
  | some _ => .complain true (js "params: must be a list") >>= fun _ => pure []

/-- The names that a list has as properties besides its places. -/
def arrayNames : List Text :=
  [js "at", js "concat", js "entries", js "every", js "fill", js "filter", js "find", js "flat",
    js "includes", js "join", js "keys", js "map", js "pop", js "push", js "reduce", js "reverse",
    js "shift", js "slice", js "some", js "sort", js "splice", js "unshift", js "values",
    js "with"]

/-- A property by any name; what is inherited counts as a value of no type. -/
def property (given : Value) (name : Text) : Option Value :=
  let inherited := if inheritedNames.contains name then some (.obj []) else none
  match given with
  | .obj fields => (fields.lookup name).or inherited
  | .arr _ items =>
    if name = js "length" then some (.num (.finite items.length))
    else if arrayNames.contains name then some (.obj []) else inherited
  | _ => inherited

def ownNames : Value → List Text
  | .obj fields => fields.map Prod.fst
  | .arr _ items => (List.range items.length).map fun i => js (toString i)
  | _ => []

/-- The one assignment that makes no property is that of a primitive to the prototype. -/
def assign (out : Args) (name : Text) (v : ParamValue) : Args :=
  if name = js "__proto__" then out
  else if out.any (·.1 == name) then out.map fun kv => if kv.1 = name then (name, v) else kv
  else out ++ [(name, v)]

/-- Form texts as numbers and booleans. -/
def coerceValue (p : ParamDef) (v : Value) : Value :=
  match v, p.type with
  | .str s, .number =>
    if trim s ≠ [] ∧ (L.toNumber s).isFinite = true then .num (L.toNumber s) else v
  | .str s, .boolean =>
    if s = js "true" then .bool true else if s = js "false" then .bool false else v
  | v, _ => v

/-- The value given for a param; an empty text is none. -/
def givenFor (given : Value) (p : ParamDef) : Option Value :=
  (property given p.name).filter fun v => v.asText ≠ some []

/-- One param's turn. -/
def validateArg (given : Value) (coerce : Bool) (out : Args) (p : ParamDef) : Check Text Args :=
  match givenFor given p with
  | none =>
    match p.default with
    | some d => pure (assign out p.name d)
    | none => do
      .complain p.required (p.name ++ js ": required")
      pure out
  | some v => do
    let value ← (checkParamValue p (if coerce then coerceValue L p v else v) p.name).attempt
    pure (value.elim out (assign out p.name))

def validateArgsFrom (given : Value) (coerce : Bool) : Args → List ParamDef → Check Text Args
  | out, [] => pure out
  | out, p :: ps => do
    let out ← validateArg L given coerce out p
    validateArgsFrom given coerce out ps

/-- Names that no param has. -/
def checkNames (params : List ParamDef) (given : Value) : Check Text Unit :=
  ⟨((ownNames given).filter fun k => !params.any (·.name == k)).map (· ++ js ": no such param"),
    some (), fun _ => rfl⟩

def validateArgs (params : List ParamDef) (raw : Value) (coerce : Bool) : Check Text Args := do
  let given := if raw.isObject then raw else .obj []
  checkNames params given
  validateArgsFrom L given coerce [] params

/-! Triggers. -/

variable (ctx : ResolveCtx)

/-- The id of the workspace a value names; an empty id is none. -/
def resolve (v : Option Value) : Option Text :=
  ((v.bind Value.asText).bind ctx.workspace).filter (· ≠ [])

def shown (v : Option Value) : Text :=
  v.elim (js "undefined") (Value.display L.numbers.text)

def eventNamed (v : Option Value) : Option EventName :=
  [EventName.sessionIdle, .todoCreated, .workspaceStarted].find? fun e =>
    (v.bind Value.asText) = some e.name

/-- The value of a property that need not be there. -/
def optional {α : Type} (v : Option Value) (f : Value → Check Text α) : Check Text (Option α) :=
  match v with
  | none => pure none
  | some v => some <$> f v

def validateEvent (w : Text) (ev : Value) : Check Text EventDef := do
  let on ← .orFail (eventNamed (ev.get "on"))
    (w ++ js ".event.on: one of session.idle, todo.created, workspace.started")
  let workspace ← optional (ev.get "workspace") fun v =>
    .orFail (resolve ctx (some v))
      (w ++ js ".event.workspace: unknown workspace " ++ Cron.quoted (shown L (some v)))
  let tag ← optional (ev.get "tag") fun v => do
    .refuse (on ≠ .todoCreated) (w ++ js ".event.tag: only todo.created events have tags")
    .orFail (v.asText.bind (normalizeTag L)) (w ++ js ".event.tag: a tag like \"ops\"")
  let debounce ← optional (ev.get "debounce") fun v =>
    .orFail (durationIn 0 3600000 v)
      (w ++ js ".event.debounce: a duration up to 1h, like \"2m\"")
  pure { on, workspace, tag, debounce }

/-- The params a schedule leaves without a value. -/
def missingFor (params : List ParamDef) : List Text :=
  (params.filter fun p => p.required && p.default.isNone).map (·.name)

def prefixed (w : Text) {α : Type} (x : Check Text α) : Check Text α :=
  ⟨x.errors.map (w ++ ·), x.value, fun h => x.settled (List.map_eq_nil_iff.mp h)⟩

def checkCron (w cron : Text) : Check Text Unit :=
  match Cron.parseCron cron with
  | .ok _ => pure ()
  | .error e => .fail (w ++ js ".schedule.cron: " ++ e)

def validateSchedule (w : Text) (params : List ParamDef) (s : Value) : Check Text ScheduleDef := do
  let cron ← .orFail ((s.get "cron").bind Value.asText)
    (w ++ js ".schedule.cron: required, e.g. \"*/30 8-18 * * 1-5\"")
  checkCron w cron
  let tz ← optional (s.get "tz") fun v =>
    .orFail (v.asText.filter L.isValidTimeZone) (w ++ js ".schedule.tz: unknown time zone")
  match s.get "args" with
  | some given => do
    let args ← (prefixed (w ++ js ".schedule.args: ") (validateArgs L params given false)).attempt
    pure { cron := trim cron, tz, args }
  | none => do
    .complain (missingFor params ≠ []) (w ++ js ".schedule.args: required param" ++
      (if (missingFor params).length > 1 then js "s " else js " ") ++ joined (missingFor params) ++
      (if (missingFor params).length > 1 then js " need" else js " needs") ++ js " a value")
    pure { cron := trim cron, tz }

def validateManual (w : Text) (m : Value) : Check Text (List Text) :=
  match m.get "allowFrom" with
  | none => pure []
  | some (.arr _ items) => .each (fun _ _ a =>
      .orFail (resolve ctx (some a))
        (w ++ js ".manual.allowFrom: unknown workspace " ++ Cron.quoted (shown L (some a))))
      0 [] items
  | some _ => do
    .complain true (w ++ js ".manual.allowFrom: must be a list of workspaces")
    pure []

/-- The body of the loop over the triggers. -/
def validateTrigger (params : List ParamDef) (i : ℕ) (t : Value) : Check Text TriggerDef := do
  let w := indexed (js "triggers") i
  .refuse (!t.isObject) (w ++ js ": must be an object")
  match t.get "event", t.get "schedule", t.get "manual" with
  | some ev, _, _ => .event <$> validateEvent L ctx w ev
  | none, some s, _ => .schedule <$> validateSchedule L w params s
  | none, none, some m => .manual <$> validateManual L ctx w m
  | none, none, none => .fail (w ++ js ": must be a schedule, manual or event trigger")

def validateTriggers (raw : Option Value) (params : List ParamDef) :
    Check Text (List TriggerDef) :=
  match raw with
  | some (.arr _ (t :: items)) =>
    .each (fun i _ t => validateTrigger L ctx params i t) 0 [] (t :: items)
  | _ => do
    .complain true (js "triggers: at least one trigger (schedule, manual or event)")
    pure []

/-! Steps. -/

def MAX_SCRIPT_CHARS : ℕ := 20000

def host : Text := js "host"

def automations : Text := js "automations"

/-- The shells a host step may name. -/
def shellRe (sh : Text) : Bool :=
  [js "bash", js "sh", js "zsh", js "pwsh", js "powershell"].contains sh ||
    ((js "wsl:").isPrefixOf sh && distroRe (sh.drop 4))

/-- Where a script runs: nothing stands for the automations workspace. -/
def validateRunIn (w : Text) (v : Option Value) : Check Text (Option Text) :=
  match v with
  | none => pure none
  | some v =>
    if v.asText = some automations then pure none
    else if v.asText = some host then pure (some host)
    else some <$> .orFail (resolve ctx (some v))
      (w ++ js ".script.runIn: host, or a container workspace name (unknown " ++
        Cron.quoted (shown L (some v)) ++ js ")")

def validateShell (w : Text) (runIn : Option Text) (v : Option Value) :
    Check Text (Option Text) :=
  match v with
  | some v => do
    let sh := Value.display L.numbers.text v
    .refuse (runIn ≠ some host)
      (w ++ js ".script.shell: only for runIn: host (containers use bash)")
    .refuse (!shellRe sh) (w ++ js ".script.shell: bash, sh, zsh, pwsh, powershell or wsl:<distro>")
    .refuse (ctx.hostShells.any fun shells => !shells.contains sh)
      (w ++ js ".script.shell: " ++ sh ++ js " isn't available on this computer (available: " ++
        joined (ctx.hostShells.getD []) ++ js ")")
    pure (some sh)
  | none =>
    if runIn = some host then
      match ctx.hostShells with
      | some [sh] => pure (some sh)
      | shells => .fail (w ++ js ".script.shell: pick the shell to run this on" ++
          (if shells.getD [] = [] then js " (bash, sh, zsh, pwsh, powershell or wsl:<distro>)"
            else js ": " ++ joined (shells.getD [])))
    else pure none

def secretList (v : Value) : Option (List Text) :=
  match v with
  | .arr _ items => (items.mapM Value.asText).filter fun keys =>
      keys.length ≤ 20 && keys.all fun k => secretRe k && !reservedEnv k
  | _ => none

/-- An object that is no list. -/
def mapping : Value → Option Value
  | .obj fields => some (.obj fields)
  | _ => none

def validateScript (w : Text) (raw : Value) : Check Text ScriptDef := do
  let o ← .orFail (mapping raw) (w ++ js ".script: a mapping with run: <script>")
  let run ← .orFail (((o.get "run").bind Value.asText).filter fun s => trim s ≠ [])
    (w ++ js ".script.run: the script text is required")
  .refuse (MAX_SCRIPT_CHARS < run.length) (w ++ js ".script.run: longer than 20000 characters")
  let runIn ← validateRunIn L ctx w (o.get "runIn")
  let shell ← validateShell L ctx w runIn (o.get "shell")
  let secrets ← optional (o.get "secrets") fun v =>
    .orFail (secretList v) (w ++ js ".script.secrets: a list of vault key names like " ++
      js "WEBEX_TOKEN (not FLEET_*/ARG_* or PATH, HOME, …)")
  .refuse (isTrue (o.get "ensureRunning") && runIn = some host)
    (w ++ js ".script.ensureRunning: not for host steps")
  let timeout ← optional (o.get "timeout") fun v =>
    .orFail (durationIn 5000 7200000 v)
      (w ++ js ".script.timeout: a duration between 5s and 2h, like \"2m\"")
  pure { run, runIn, shell, secrets := (secrets.getD []).eraseDups
         ensureRunning := isTrue (o.get "ensureRunning"), timeout }

def validateMode (w : Text) (v : Option Value) : Check Text Mode :=
  match v with
  | none | some .null => pure .live
  | some v => .orFail ([Mode.live, .fresh].find? fun m => v.asText = some m.name)
      (w ++ js ".prompt.mode: live or fresh")

def toolList (v : Value) : Option Listed :=
  match v with
  | .arr anchor items => ((items.mapM Value.asText).filter fun tools =>
      tools.length ≤ 30 && tools.all toolRe).map fun tools => ⟨anchor, tools⟩
  | _ => none

/-- What is wrong with a placeholder of a prompt, after the steps before it. -/
def placeholderError (params : List ParamDef) (out : List StepDef) (p : Placeholder) :
    Option Text :=
  if p.ns = js "args" then
    if params.any (fun x => some x.name == p.key) then none
    else some (p.whole ++ js " names no declared param")
  else if p.ns = js "trigger" then
    if [js "kind", js "workspace", js "todo"].contains (p.key.getD []) then none
    else some (p.whole ++ js ": use \x7b\x7btrigger.kind\x7d\x7d, " ++
      js "\x7b\x7btrigger.workspace\x7d\x7d or \x7b\x7btrigger.todo\x7d\x7d")
  else if p.ns = js "run" then
    if p.key = some (js "id") then none
    else some (p.whole ++ js ": only \x7b\x7brun.id\x7d\x7d is available")
  else if p.ns = js "steps" then
    if p.rest = js ".stdout" ∧ out.any (fun x => some x.id == p.key && x.isScript) = true then none
    else some (p.whole ++ js ": use \x7b\x7bsteps.<id>.stdout\x7d\x7d naming an earlier " ++
      js "script step")
  else some (js "unknown placeholder " ++ p.whole)

/-- Each placeholder's error, if it has one. -/
def checkPlaceholders (w : Text) (params : List ParamDef) (out : List StepDef) (message : Text) :
    Check Text Unit :=
  ⟨(placeholders message).filterMap fun p =>
    (placeholderError params out p).map (w ++ js ".prompt.message: " ++ ·), some (), fun _ => rfl⟩

def validatePrompt (w : Text) (params : List ParamDef) (out : List StepDef) (p : Value) :
    Check Text PromptDef := do
  .refuse ((p.get "workspace").any fun v => v.asText = some (js "$self"))
    (w ++ js ".prompt.workspace: $self only works in automations shipped in a loadout " ++
      js "(it means the workspace the loadout is installed into)")
  let workspace ← .orFail (resolve ctx (p.get "workspace"))
    (w ++ js ".prompt.workspace: unknown workspace " ++ Cron.quoted (match p.get "workspace" with
      | none | some .null => []
      | some v => shown L (some v)))
  let mode ← validateMode w (p.get "mode")
  let allowedTools ← optional (p.get "allowedTools") fun v => do
    .refuse (mode ≠ .fresh) (w ++ js ".prompt.allowedTools: only for fresh sessions")
    .orFail (toolList v) (w ++ js ".prompt.allowedTools: a list of tool names like " ++
      js "\"Bash(git log:*)\" or \"Read\"")
  let message ← .orFail (((p.get "message").bind Value.asText).filter fun s => trim s ≠ [])
    (w ++ js ".prompt.message: required")
  .complain (8000 < message.length) (w ++ js ".prompt.message: longer than 8000 characters")
  checkPlaceholders w params out message
  let timeout ← (optional (p.get "timeout") fun v =>
    .orFail (durationIn 10000 7200000 v)
      (w ++ js ".prompt.timeout: a duration between 10s and 2h, like \"10m\"")).attempt
  pure { workspace, mode, message, allowedTools, wait := isTrue (p.get "wait")
         ensureRunning := isTrue (p.get "ensureRunning"), timeout := timeout.join }

/-- The body of the loop over the steps. -/
def validateStep (params : List ParamDef) (i : ℕ) (out : List StepDef) (s : Value) :
    Check Text StepDef := do
  let w := indexed (js "steps") i
  .refuse (!s.isObject) (w ++ js ": must be an object")
  let id ← .orFail (textWith stepRe (s.get "id")) (w ++ js ".id: lowercase id like \"triage\"")
  .complain (out.any (·.id == id)) (w ++ js ".id: duplicate " ++ Cron.quoted id)
  match s.get "script", s.get "prompt" with
  | some script, _ => .script id <$> validateScript L ctx w script
  | none, some prompt => .prompt id <$> validatePrompt L ctx w params out prompt
  | none, none => .fail (w ++ js ": must be a prompt or script step")

def validateSteps (raw : Option Value) (params : List ParamDef) : Check Text (List StepDef) :=
  match raw with
  | some (.arr _ (s :: items)) => do
    .complain (10 < (s :: items).length) (js "steps: at most 10 steps")
    .each (validateStep L ctx params) 0 [] (s :: items)
  | _ => do
    .complain true (js "steps: at least one step")
    pure []

/-! The definition as a whole. -/

/-- A run may set its next fire no sooner than this after it ends. -/
def MIN_RESCHEDULE_FLOOR_MS : ℕ := 300000

def MAX_RESCHEDULE_FLOOR_MS : ℕ := 2592000000

def validateReschedule (raw : Option Value) : Check Text (Option Text) :=
  optional raw fun v => do
    let o ← .orFail (mapping v) (js "reschedule: a mapping like \x7b min: 30m \x7d")
    .orFail ((o.get "min").bind (durationIn MIN_RESCHEDULE_FLOOR_MS MAX_RESCHEDULE_FLOOR_MS))
      (js "reschedule.min: the soonest a run may schedule the next one, between 5m and 30d, " ++
        js "like \"30m\"")

/-- The property is there and is not one of the texts. -/
def otherThan (v : Option Value) (texts : List Text) : Bool :=
  v.any fun v => !(v.asText.any texts.contains)

def describe (v : Option Value) : Option Text :=
  ((v.bind Value.asText).filter fun s => trim s ≠ []).map fun s => (trim s).take 300

def listOf (v : Option Value) : Option (List Value) :=
  match v with
  | some (.arr _ items) => some items
  | _ => none

/-- The checks of a mapping, all made before the runtime's own refusals. -/
def validateFields (o : Value) : Check Text AutomationDef := do
  let name ← (.orFail (textWith nameRe (o.get "name"))
    (js "name: lowercase letters, digits and dashes, e.g. \"webex-triage\"") :
      Check Text Text).attempt
  .complain ((o.get "secrets").any fun v => !((listOf (some v)).any (·.isEmpty)))
    (js "secrets: declare them on the script step that needs them (script.secrets)")
  .complain (otherThan (o.get "concurrency") [js "skip", js "queue"])
    (js "concurrency: skip or queue")
  let timeout ← (optional (o.get "timeout") fun v =>
    .orFail (durationIn 60000 21600000 v)
      (js "timeout: a duration between 1m and 6h, like \"30m\"")).attempt
  let params ← validateParams (o.get "params")
  let triggers ← validateTriggers L ctx (o.get "triggers") params
  let steps ← validateSteps L ctx (o.get "steps") params
  let reschedule ← (validateReschedule (o.get "reschedule")).attempt
  pure { name := name.getD [], description := describe (o.get "description")
         tags := (listOf (o.get "tags")).map (normalizeTags L), triggers
         concurrency := if (o.get "concurrency").any (fun v => v.asText = some (js "queue"))
           then .queue else .skip
         timeout := timeout.join, params, reschedule := reschedule.join, steps }

def validateDefinition (raw : Value) : Check Text AutomationDef :=
  match raw with
  | .obj fields => do
    let d ← validateFields L ctx (.obj fields)
    let refused := (ctx.check.map fun check => check d).getD []
    if h : refused = [] then pure d else ⟨refused, none, fun he => absurd he h⟩
  | _ => .fail (js "the definition must be a YAML mapping")

/-! What an accepted definition has met. -/

variable {L : Language} {ctx : ResolveCtx}

@[simp] theorem accepts_optional {α : Type} {v : Option Value} {f : Value → Check Text α}
    {a : Option α} : (optional v f).Accepts a ↔
      match v with
      | none => a = none
      | some v => ∃ b, (f v).Accepts b ∧ a = some b := by
  cases v <;> simp [optional, eq_comm]

theorem validateFields_accepts {o : Value} {d : AutomationDef} :
    (validateFields L ctx o).Accepts d ↔
      textWith nameRe (o.get "name") = some d.name ∧
      (o.get "secrets").any (fun v => !((listOf (some v)).any (·.isEmpty))) = false ∧
      otherThan (o.get "concurrency") [js "skip", js "queue"] = false ∧
      (o.get "timeout").map (durationIn 60000 21600000) = d.timeout.map some ∧
      (validateParams (o.get "params")).Accepts d.params ∧
      (validateTriggers L ctx (o.get "triggers") d.params).Accepts d.triggers ∧
      (validateSteps L ctx (o.get "steps") d.params).Accepts d.steps ∧
      (validateReschedule (o.get "reschedule")).Accepts d.reschedule ∧
      d.description = describe (o.get "description") ∧
      d.tags = (listOf (o.get "tags")).map (normalizeTags L) ∧
      d.concurrency = (if (o.get "concurrency").any (fun v => v.asText = some (js "queue"))
        then .queue else .skip) := by
  simp only [validateFields, Check.accepts_bind, Check.accepts_attempt, Check.accepts_orFail,
    Check.accepts_complain, Check.accepts_pure, accepts_optional]
  constructor
  · rintro ⟨_, ⟨name, hname, rfl⟩, _, hsecrets, _, hconc, _, ⟨timeout, htimeout, rfl⟩, params,
      hparams, triggers, htriggers, steps, hsteps, _, ⟨reschedule, hres, rfl⟩, rfl⟩
    refine ⟨hname, hsecrets, hconc, ?_, hparams, htriggers, hsteps, hres, rfl, rfl, rfl⟩
    cases ht : o.get "timeout" with
    | none => simp_all
    | some v =>
      rw [ht] at htimeout
      obtain ⟨b, hb, rfl⟩ := htimeout
      simp [hb]
  · rintro ⟨hname, hsecrets, hconc, htimeout, hparams, htriggers, hsteps, hres, hdesc, htags,
      hqueue⟩
    refine ⟨_, ⟨d.name, hname, rfl⟩, (), hsecrets, (), hconc, _, ⟨d.timeout, ?_, rfl⟩, d.params,
      hparams, d.triggers, htriggers, d.steps, hsteps, _, ⟨d.reschedule, hres, rfl⟩, ?_⟩
    · cases ht : o.get "timeout" with
      | none => cases hd : d.timeout <;> simp_all
      | some v => cases hd : d.timeout <;> simp_all
    · obtain ⟨_, _, _, _, _, _, _, _, _⟩ := d
      simp_all

/-- What the runtime has against a definition. -/
def refusals (ctx : ResolveCtx) (d : AutomationDef) : List Text :=
  (ctx.check.map fun check => check d).getD []

theorem validateDefinition_accepts {raw : Value} {d : AutomationDef} :
    (validateDefinition L ctx raw).Accepts d ↔
      (∃ fields, raw = .obj fields) ∧ (validateFields L ctx raw).Accepts d ∧
        refusals ctx d = [] := by
  cases raw with
  | obj fields =>
    simp only [validateDefinition, Check.accepts_bind, Value.obj.injEq, exists_eq', true_and]
    constructor
    · rintro ⟨d', hd', h⟩
      split_ifs at h with hnone
      · obtain rfl : d' = d := by simpa using h
        exact ⟨hd', hnone⟩
      · exact absurd h.1 hnone
    · rintro ⟨hd, hnone⟩
      refine ⟨d, hd, ?_⟩
      rw [dif_pos (by exact hnone)]
      simp
  | null | bool | num | str | arr => simp [validateDefinition]

end ClaudeFleet.Definition
