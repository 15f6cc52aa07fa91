import Mathlib.Tactic
import Mathlib.Data.Rat.Defs

/-! Extraction of an events row from one transcript line. The JavaScript library functions
the code calls (JSON.parse, Date.parse, SHA-256, string trimming) are fields of `Runtime`;
everything else is the source's own logic. -/
namespace ClaudeFleet.IngestParse

inductive JsNumber
  | finite (value : ℚ)
  | infinite (negative : Bool)
  deriving DecidableEq

inductive Json
  | null
  | bool (value : Bool)
  | num (value : JsNumber)
  | str (value : String)
  | arr (items : List Json)
  | obj (fields : List (String × Json))

namespace Json

/-- `v.name` for a value other than null; only objects have the properties the code reads. -/
def field : Json → String → Option Json
  | .obj fields, name => (fields.reverse.find? fun f => f.1 = name).map Prod.snd
  | _, _ => none

def asString : Json → Option String
  | .str s => some s
  | _ => none

def asNumber : Json → Option JsNumber
  | .num n => some n
  | _ => none

def asArray : Json → Option (List Json)
  | .arr items => some items
  | _ => none

def isObject : Json → Bool
  | .arr _ => true
  | .obj _ => true
  | _ => false

def truthy : Json → Bool
  | .null => false
  | .bool b => b
  | .num (.finite q) => q ≠ 0
  | .num (.infinite _) => true
  | .str s => s ≠ ""
  | .arr _ => true
  | .obj _ => true

/-- `v ?? null`, with `none` for null. -/
def nullish : Option Json → Option Json
  | some .null => none
  | v => v

def stringField (v : Json) (name : String) : Option String := (v.field name).bind asString

mutual
/-- Whether String(v) throws: a toString of the value's own is not a function, and the string of an
array takes the strings of its items. -/
def unprintable : Json → Bool
  | .obj fields => fields.any fun f => f.1 = "toString"
  | .arr items => unprintableItems items
  | _ => false

def unprintableItems : List Json → Bool
  | [] => false
  | v :: items => v.unprintable || unprintableItems items
end

end Json

structure Runtime where
  /-- JSON.parse; `none` when it throws. -/
  parse : String → Option Json
  stringify : Json → String
  /-- String(v) of a value that is not a string. -/
  display : Json → String
  /-- Date.parse; `none` for NaN. -/
  dateParse : String → Option ℤ
  sha256 : String → String
  trim : String → String
  toLowerCase : String → String
  /-- A label cut to 160 UTF-16 units. -/
  clip : String → String
  /-- The absolute reset time a rate-limit message names, and the scope of the limit. -/
  parseResetText : String → ℤ → Option (ℤ × String)

/-- The length of a JavaScript string, in UTF-16 units. -/
def utf16Length (text : String) : ℕ :=
  (text.toList.map fun c => if c.val < 0x10000 then 1 else 2).sum

/-- JSON.parse and Date.parse on a few given texts, for lines that reach nothing else. -/
def Runtime.ofDocs (docs : List (String × Json)) (dates : List (String × ℤ)) : Runtime where
  parse line := (docs.find? fun d => d.1 = line).map Prod.snd
  stringify _ := ""
  display _ := ""
  dateParse text := (dates.find? fun d => d.1 = text).map Prod.snd
  sha256 line := line
  trim text := text
  toLowerCase text := text
  clip text := text
  parseResetText _ _ := none

structure EventColumns where
  ts : Option ℤ
  type : String
  subtype : Option String
  uuid : Option String
  parentUuid : Option String
  model : Option String
  inputTokens : Option ℚ
  outputTokens : Option ℚ
  cacheReadInputTokens : Option ℚ
  cacheCreationInputTokens : Option ℚ
  serviceTier : Option String
  toolName : Option String
  toolUseId : Option String
  toolInput : Option String
  toolResultIsError : Option ℕ
  dedupKey : String
  deriving DecidableEq

structure ParsedLine where
  parsed : Json
  message : Option Json
  type : String
  ts : Option ℤ
  dedupKey : String
  event : EventColumns

structure ToolDetail where
  name : Option String := none
  useId : Option String := none
  input : Option String := none
  resultIsError : Option ℕ := none
  deriving DecidableEq

variable (rt : Runtime)

def parseTimestamp (v : Option Json) : Option ℤ := (v.bind Json.asString).bind rt.dateParse

def numOrNull (v : Option Json) : Option ℚ :=
  match v.bind Json.asNumber with
  | some (.finite q) => some q
  | _ => none

/-- The first non-empty string among the identifying fields, else the whole input. -/
def summarizeToolInput (input : Option Json) : Option String :=
  match input with
  | none => none
  | some v =>
    if v.isObject then
      let pick := ["command", "file_path", "path", "pattern", "url", "description"].findSome?
        fun name => (v.stringField name).filter fun s => s ≠ ""
      some (rt.clip (pick.getD (rt.stringify v)))
    else none

/-- One block of `message.content`, when it settles the line's tool detail. -/
def toolBlock (block : Json) : Option ToolDetail :=
  if block.truthy then
    if block.stringField "type" = some "tool_use" ∧ (block.stringField "name").isSome then
      some { name := block.stringField "name", useId := block.stringField "id",
             input := summarizeToolInput rt (block.field "input") }
    else if block.stringField "type" = some "tool_result" then
      some { useId := block.stringField "tool_use_id",
             resultIsError := match block.field "is_error" with
               | some (.bool true) => some 1
               | _ => some 0 }
    else none
  else none

def extractToolDetail (message : Option Json) : ToolDetail :=
  match message with
  | none => {}
  | some m =>
    if m.truthy then
      match (m.field "content").bind Json.asArray with
      | none => {}
      | some content => (content.findSome? (toolBlock rt)).getD {}
    else {}

/-- Parse one raw line: `none` when it is not valid JSON, an error when it is the JSON
`null`, whose properties cannot be read, or when its type has no string. -/
def parseIngestLine (rawLine : String) : Except String (Option ParsedLine) :=
  match rt.parse rawLine with
  | none => .ok none
  | some .null => .error "Cannot read properties of null (reading 'type')"
  | some parsed =>
    if (Json.nullish (parsed.field "type")).any Json.unprintable then
      .error "Cannot convert object to primitive value"
    else
    let type := match Json.nullish (parsed.field "type") with
      | none => "unknown"
      | some (.str s) => s
      | some v => rt.display v
    let uuid := parsed.stringField "uuid"
    let ts := parseTimestamp rt (parsed.field "timestamp")
    let dedupKey := uuid.getD (rt.sha256 rawLine)
    let message := Json.nullish (parsed.field "message")
    let usage := Json.nullish (message.bind fun m => m.field "usage")
    let count := fun name => numOrNull (usage.bind fun u => u.field name)
    let tool := extractToolDetail rt message
    .ok (some
      { parsed := parsed
        message := message
        type := type
        ts := ts
        dedupKey := dedupKey
        event :=
          { ts := ts
            type := type
            subtype := parsed.stringField "subtype"
            uuid := uuid
            parentUuid := parsed.stringField "parentUuid"
            model := message.bind fun m => m.stringField "model"
            inputTokens := count "input_tokens"
            outputTokens := count "output_tokens"
            cacheReadInputTokens := count "cache_read_input_tokens"
            cacheCreationInputTokens := count "cache_creation_input_tokens"
            serviceTier := usage.bind fun u => u.stringField "service_tier"
            toolName := tool.name
            toolUseId := tool.useId
            toolInput := tool.input
            toolResultIsError := tool.resultIsError
            dedupKey := dedupKey } })

structure SessionTouch where
  startedAt : Option ℤ
  lastActiveAt : Option ℤ
  deriving DecidableEq

/-- One line's sessions upsert. A line without a timestamp sets `lastActiveAt` to null. -/
def touchOne (row : Option SessionTouch) (ts : Option ℤ) : SessionTouch :=
  match row with
  | none => ⟨ts, ts⟩
  | some r => ⟨r.startedAt.or ts, ts.map fun t => max (r.lastActiveAt.getD 0) t⟩

def foldSessionTouch (prev : Option SessionTouch) (tss : List (Option ℤ)) : Option SessionTouch :=
  tss.foldl (fun row ts => some (touchOne row ts)) prev

theorem foldSessionTouch_isSome (prev : Option SessionTouch) {tss : List (Option ℤ)}
    (h : tss ≠ []) : (foldSessionTouch prev tss).isSome := by
  cases tss with
  | nil => exact absurd rfl h
  | cons t tss =>
    have hfold : ∀ (ts : List (Option ℤ)) (row : Option SessionTouch), row.isSome →
        (ts.foldl (fun row ts => some (touchOne row ts)) row).isSome := by
      intro ts
      induction ts with
      | nil => exact fun _ hr => hr
      | cons t ts ih => exact fun _ _ => ih _ rfl
    exact hfold tss _ rfl

theorem foldSessionTouch_startedAt {prev : Option SessionTouch} {tss : List (Option ℤ)}
    {next : SessionTouch} (h : foldSessionTouch prev tss = some next)
    (hs : (∃ t, prev = some t ∧ t.startedAt.isSome) ∨ ∃ ts ∈ tss, ts.isSome) :
    next.startedAt.isSome := by
  induction tss generalizing prev with
  | nil =>
    rcases hs with ⟨t, rfl, ht⟩ | ⟨ts, hmem, _⟩
    · exact Option.some.inj h ▸ ht
    · cases hmem
  | cons ts tss ih =>
    refine ih h ?_
    rcases hs with ⟨t, rfl, ht⟩ | ⟨x, hmem, hx⟩
    · exact .inl ⟨_, rfl, by simp [touchOne, ht]⟩
    · rcases List.mem_cons.mp hmem with rfl | hmem
      · refine .inl ⟨_, rfl, ?_⟩
        cases prev with
        | none => exact hx
        | some t => simp [touchOne, hx]
      · exact .inr ⟨x, hmem, hx⟩

def wrapperTags : List String :=
  ["<local-command-caveat>", "<command-name>", "<command-message>", "<command-args>",
    "<local-command-stdout>", "<system-reminder>", "<bash-input>", "<bash-stdout>",
    "<bash-stderr>"]

def bareCaveat : String := "Caveat: The messages below were generated by the user"

def isSyntheticPromptText (text : String) : Bool :=
  let trimmed := rt.trim text
  trimmed = "" || bareCaveat.toList.isPrefixOf trimmed.toList ||
    wrapperTags.any fun tag => tag.toList.isPrefixOf trimmed.toList

inductive AnchorKind
  | limitHit
  | throttle
  deriving DecidableEq

structure AnchorInput where
  kind : AnchorKind
  httpStatus : Option JsNumber
  scope : Option String
  resetAt : Option ℤ
  windowStart : Option ℤ
  message : Option String
  rateLimits : Option String
  dedupKey : String
  deriving DecidableEq

def fiveHoursMs : ℤ := 5 * 60 * 60 * 1000

def firstText (parsed : Json) : Option String :=
  match ((parsed.field "message").bind fun m => m.field "content").bind Json.asArray with
  | none => none
  | some content => content.findSome? fun c =>
      if c.stringField "type" = some "text" then c.stringField "text" else none

/-- The rate-limit anchor a line carries, if any. -/
def extractAnchor (parsed : Json) (tsMs : ℤ) (dedupKey : String) : Option AnchorInput :=
  if parsed.stringField "error" = some "rate_limit" then
    let message := firstText parsed
    let reset := (message.filter fun m => m ≠ "").bind fun m => rt.parseResetText m tsMs
    some
      { kind := .limitHit
        httpStatus := some (((parsed.field "apiErrorStatus").bind Json.asNumber).getD
          (.finite 429))
        scope := reset.map Prod.snd
        resetAt := reset.map Prod.fst
        windowStart := (reset.filter fun r => r.2 = "session").map fun r => r.1 - fiveHoursMs
        message := message
        rateLimits := none
        dedupKey := dedupKey }
  else if parsed.stringField "type" = some "system" ∧
      parsed.stringField "subtype" = some "api_error" then
    match (parsed.field "error").bind fun err => (err.field "rateLimits").map fun rl => (err, rl) with
    | none => none
    | some (err, rl) =>
      if rl.isObject then
        some
          { kind := .throttle
            httpStatus := (err.field "status").bind Json.asNumber
            scope := none
            resetAt := none
            windowStart := none
            message := err.stringField "formatted"
            rateLimits := some (rt.stringify rl)
            dedupKey := dedupKey }
      else none
  else none

end ClaudeFleet.IngestParse
