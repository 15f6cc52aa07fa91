import Mathlib.Tactic
import ClaudeFleet.IngestParse
import ClaudeFleet.Transition

/-! Dispatch of the JSON-RPC lines of one MCP connection. A line is read, refused or admitted in one
synchronous step; the handler of an admitted line settles later, in any order, and its reaction
(the reply and the decrement of the in-flight count) runs before the next line is read. -/
namespace ClaudeFleet.McpDispatch
open IngestParse Transition

def maxInFlightPerConnection : ℕ := 16
def maxToolErrorChars : ℕ := 4096

/-- `slice text max` is text.slice(0, max). -/
def clipText (slice : String → ℕ → String) (text : String) (max : ℕ) : String :=
  if utf16Length text ≤ max then text
  else slice text max ++ "… [truncated " ++ toString (utf16Length text - max) ++ " chars]"

/-! What the handlers read of the host when they run. -/

inductive QueryFlavor
  | sqlite
  | postgres
  deriving DecidableEq

structure Tool where
  name : String
  description : String
  pgDescription : Option String
  inputSchema : Json

structure Host where
  tools : List Tool
  exposedTools : Option (List String)
  /-- The flavour of the attached read source. -/
  readSource : Option QueryFlavor
  storeless : Bool

def servedTools (host : Host) : List Tool :=
  match host.exposedTools with
  | none => host.tools
  | some exposed => host.tools.filter fun t => t.name ∈ exposed

def toolDescription (host : Host) (t : Tool) : String :=
  if host.readSource = some .postgres then
    match t.pgDescription with
    | none => t.description
    | some d => if d = "" then t.description else d
  else t.description

def standingRule : String :=
  "Fleet knowledge: when you settle a decision, find a root cause, learn a non-obvious fact or " ++
  "gotcha, or rule something out (and why), call record_claim with one short self-contained " ++
  "sentence or two, 1-3 topic slugs, and refs (issue/PR/file). Before re-investigating " ++
  "something, call search_claims — another session may already know. Never put secrets in " ++
  "claims; use visibility \"private\" for workspace-specific details."

def serverInstructions : String :=
  "When you start a server for the user to view (dev server, docs preview, report), call " ++
  "expose_port with its port and a short label."

def initializeResult (host : Host) : Json :=
  let served := (servedTools host).map Tool.name
  let instructions := "\n\n".intercalate
    ((if "record_claim" ∈ served ∧ "search_claims" ∈ served then [standingRule] else []) ++
      if "expose_port" ∈ served then [serverInstructions] else [])
  .obj ([("protocolVersion", .str "2024-11-05"), ("capabilities", .obj [("tools", .obj [])]),
      ("serverInfo", .obj [("name", .str "claude-fleet-state"), ("version", .str "1.0.0")])] ++
    if instructions = "" then [] else [("instructions", .str instructions)])

def toolsList (host : Host) : Json :=
  .obj [("tools", .arr ((servedTools host).map fun t => .obj [("name", .str t.name),
    ("description", .str (toolDescription host t)), ("inputSchema", t.inputSchema)]))]

/-- An Error; only an RpcError has a code. -/
structure JsError where
  code : Option ℤ
  message : String

/-- What a handler's promise settles to. -/
inductive Outcome
  | result (value : Json)
  | noReply
  | rejected (err : JsError)

inductive Thrown
  | error (message : String)
  | value (v : Json)

/-- How the awaited part of a tool call goes: the scope resolves or fails, whether a read source is
attached then, and what the tool's run gives (the text of its result, absent for undefined). -/
structure ToolRun where
  scope : Option Thrown
  readSource : Bool
  ran : Except Thrown (Option String)

def stateDbTools : List String :=
  ["list_sessions", "get_session", "get_cost", "list_events", "search_transcripts",
    "session_summary", "list_errors", "query", "mark_useful"]

section Handlers
variable (rt : Runtime) (slice : String → ℕ → String)

def conversionError : JsError := ⟨none, "Cannot convert object to primitive value"⟩

/-- String(v); an error for a value whose own toString is no function. -/
def stringOf (v : Option Json) : Except JsError String :=
  match v with
  | none => .ok "undefined"
  | some (.str s) => .ok s
  | some v => if v.unprintable then .error conversionError else .ok (rt.display v)

def toolFailure (thrown : Thrown) : Outcome :=
  let message : Except JsError String := match thrown with
    | .error message => .ok message
    | .value v => stringOf rt (some v)
  match message with
  | .error err => .rejected err
  | .ok message => .result (.obj
      [("content", .arr [.obj [("type", .str "text"),
        ("text", .str ("Error: " ++ clipText slice message maxToolErrorChars))]]),
       ("isError", .bool true)])

def toolResult (text : Option String) : Json :=
  .obj [("content", .arr [.obj ([("type", .str "text")] ++
    match text with
    | none => []
    | some text => [("text", .str text)])])]

def callTool (host : Host) (params : Json) (run : ToolRun) : Outcome :=
  let name := params.field "name"
  match (servedTools host).find? fun t => name.bind Json.asString = some t.name with
  | none =>
    match stringOf rt name with
    | .error err => .rejected err
    | .ok text => .rejected ⟨some (-32602), "Unknown tool: " ++ text⟩
  | some tool =>
    if host.readSource = none ∧ host.storeless = false then
      .rejected ⟨some (-32603), "Database not open"⟩
    else
      match run.scope with
      | some thrown => toolFailure rt slice thrown
      | none =>
        if run.readSource = false ∧ tool.name ∈ stateDbTools then
          toolFailure rt slice
            (.error (tool.name ++ " is unavailable while the history store is not open"))
        else
          match run.ran with
          | .error thrown => toolFailure rt slice thrown
          | .ok text => .result (toolResult text)

def notificationMethod (method : Json) : Prop :=
  ∃ m, method = .str m ∧ "notifications/".toList <+: m.toList

def handleMethod (host : Host) (method params : Json) (run : ToolRun) : Outcome :=
  match method with
  | .str m =>
    if m = "initialize" then .result (initializeResult host)
    else if m = "ping" then .result (.obj [])
    else if m = "tools/list" then .result (toolsList host)
    else if m = "tools/call" then callTool rt slice host params run
    else if "notifications/".toList <+: m.toList then .noReply
    else .rejected ⟨some (-32601), "Method not found: " ++ m⟩
  | _ => .rejected ⟨none, "method.startsWith is not a function"⟩

end Handlers

inductive Body
  | result (value : Json)
  | error (code : ℤ) (message : String)

structure Reply where
  id : Json
  body : Body

def parseError : Reply := ⟨.null, .error (-32700) "Parse error"⟩

def busyError (id : Json) (busy : ℕ) : Reply :=
  ⟨id, .error (-32000)
    ("busy: " ++ toString busy ++ " requests already in flight on this connection")⟩

/-- An admitted line whose handler has not settled. -/
structure Task where
  line : ℕ
  /-- The id to reply to; none for a notification. -/
  id : Option Json
  method : Json
  params : Json

/-- A connection. Lines are numbered in the order they were dispatched, and `sent` records with
each reply the line it was sent for. -/
structure Conn where
  lines : List String := []
  inFlight : ℕ := 0
  tasks : List Task := []
  sent : List (ℕ × Reply) := []

def Conn.repliesTo (c : Conn) (n : ℕ) : List Reply :=
  (c.sent.filter fun p => p.1 = n).map Prod.snd

def Conn.unsettled (c : Conn) (n : ℕ) : Prop := ∃ t ∈ c.tasks, t.line = n

def Conn.send (c : Conn) (n : ℕ) (replies : List Reply) : Conn :=
  { c with sent := c.sent ++ replies.map fun r => (n, r) }

section Dispatch
variable (rt : Runtime) (slice : String → ℕ → String)

def messageId (msg : Json) : Option Json := Json.nullish (msg.field "id")
def messageMethod (msg : Json) : Json := (Json.nullish (msg.field "method")).getD (.str "")
def messageParams (msg : Json) : Json := (Json.nullish (msg.field "params")).getD (.obj [])

/-- `none` when dispatchLine throws: the message is taken apart outside the try. -/
def dispatchLine (c : Conn) (line : String) : Option Conn :=
  let n := c.lines.length
  let c' := { c with lines := c.lines ++ [line] }
  match rt.parse line with
  | none => some (c'.send n [parseError])
  | some .null => none
  | some msg =>
    if maxInFlightPerConnection ≤ c.inFlight then
      some (c'.send n ((messageId msg).toList.map fun id => busyError id c.inFlight))
    else
      some { c' with
        inFlight := c.inFlight + 1
        tasks := c.tasks ++ [⟨n, messageId msg, messageMethod msg, messageParams msg⟩] }

/-- The replies of a settled handler. -/
def reactions (id : Option Json) (outcome : Outcome) : List Reply :=
  match id with
  | none => []
  | some id =>
    match outcome with
    | .result value => [⟨id, .result value⟩]
    | .noReply => []
    | .rejected err =>
      [⟨id, .error (err.code.getD (-32603)) (clipText slice err.message maxToolErrorChars)⟩]

def settle (c : Conn) (n : ℕ) (host : Host) (run : ToolRun) : Option Conn :=
  match c.tasks.find? fun t => t.line = n with
  | none => none
  | some t =>
    let outcome := handleMethod rt slice host t.method t.params run
    some { c.send n (reactions slice t.id outcome) with
      inFlight := c.inFlight - 1
      tasks := c.tasks.filter fun u => u.line ≠ n }

inductive Action
  /-- A complete line as the splitter hands it over. -/
  | line (raw : String)
  /-- The handler of line `n` settles. -/
  | settle (n : ℕ) (host : Host) (run : ToolRun)

def serveMcpConnection (c : Conn) (raw : String) : Option Conn :=
  if rt.trim raw = "" then some c else dispatchLine rt c (rt.trim raw)

def step (c : Conn) : Action → Option Conn
  | .line raw => serveMcpConnection rt c raw
  | .settle n host run => settle rt slice c n host run

end Dispatch

/-! The account of the lines: each has the replies its text asks for once its handler settled. -/

@[simp] theorem repliesTo_send (c : Conn) (n m : ℕ) (replies : List Reply) :
    (c.send n replies).repliesTo m = c.repliesTo m ++ if n = m then replies else [] := by
  have hnew : ((replies.map fun r => (n, r)).filter fun p => p.1 = m).map Prod.snd =
      if n = m then replies else [] := by
    by_cases h : n = m
    · simp [h, List.filter_map, Function.comp_def]
    · simp [h, List.filter_map, Function.comp_def]
  unfold Conn.repliesTo Conn.send
  rw [List.filter_append, List.map_append, hnew]

section Account
variable (rt : Runtime)

/-- The replies a settled line has: an id on a notifications/ method is answered only when the
connection was busy. -/
def Answered (text : String) (replies : List Reply) : Prop :=
  match rt.parse text with
  | none => replies = [parseError]
  | some msg =>
    match messageId msg with
    | none => replies = []
    | some id =>
      (∃ body, replies = [⟨id, body⟩]) ∨ notificationMethod (messageMethod msg) ∧ replies = []

/-- The task was made for the message of its line. -/
def Admitted (lines : List String) (t : Task) : Prop :=
  ∃ text msg, lines[t.line]? = some text ∧ rt.parse text = some msg ∧
    t.id = messageId msg ∧ t.method = messageMethod msg

structure Sound (c : Conn) : Prop where
  count : c.inFlight = c.tasks.length
  bound : c.inFlight ≤ maxInFlightPerConnection
  distinct : (c.tasks.map Task.line).Nodup
  admitted : ∀ t ∈ c.tasks, Admitted rt c.lines t
  quiet : ∀ n, c.lines.length ≤ n ∨ c.unsettled n → c.repliesTo n = []
  answered : ∀ n text, c.lines[n]? = some text → ¬ c.unsettled n →
    Answered rt text (c.repliesTo n)

theorem Sound.start : Sound rt {} where
  count := rfl
  bound := Nat.zero_le _
  distinct := List.nodup_nil
  admitted := by simp
  quiet := by simp [Conn.repliesTo]
  answered := by simp

variable {rt}

theorem Admitted.lt {lines : List String} {t : Task} (h : Admitted rt lines t) :
    t.line < lines.length := by
  obtain ⟨text, msg, hline, -⟩ := h
  exact (List.getElem?_eq_some_iff.mp hline).1

theorem Admitted.append {lines : List String} {t : Task} (h : Admitted rt lines t)
    (line : String) : Admitted rt (lines ++ [line]) t := by
  have hlt := h.lt
  obtain ⟨text, msg, hline, hrest⟩ := h
  exact ⟨text, msg, by rw [List.getElem?_append_left hlt, hline], hrest⟩

theorem dispatchLine_cases {c d : Conn} {line : String} (h : dispatchLine rt c line = some d) :
    (rt.parse line = none ∧
      d = Conn.send { c with lines := c.lines ++ [line] } c.lines.length [parseError]) ∨
    ∃ msg, rt.parse line = some msg ∧
      ((maxInFlightPerConnection ≤ c.inFlight ∧
        d = Conn.send { c with lines := c.lines ++ [line] } c.lines.length
          ((messageId msg).toList.map fun id => busyError id c.inFlight)) ∨
      (c.inFlight < maxInFlightPerConnection ∧
        d = { c with
          lines := c.lines ++ [line]
          inFlight := c.inFlight + 1
          tasks := c.tasks ++
            [⟨c.lines.length, messageId msg, messageMethod msg, messageParams msg⟩] })) := by
  unfold dispatchLine at h
  dsimp only at h
  split at h
  · next hp => exact .inl ⟨hp, (Option.some.inj h).symm⟩
  · cases h
  · next msg _ hp =>
    refine .inr ⟨msg, hp, ?_⟩
    split at h
    · next hb => exact .inl ⟨hb, (Option.some.inj h).symm⟩
    · next hb => exact .inr ⟨Nat.lt_of_not_le hb, (Option.some.inj h).symm⟩

/-- A line that is answered at once: no handler is started for it. -/
theorem Sound.answerLine {c : Conn} {line : String} {replies : List Reply} (hs : Sound rt c)
    (ha : Answered rt line replies) :
    Sound rt (Conn.send { c with lines := c.lines ++ [line] } c.lines.length replies) := by
  refine ⟨hs.count, hs.bound, hs.distinct, fun t ht => (hs.admitted t ht).append line, ?_, ?_⟩
  · intro n hn
    have hne : c.lines.length ≠ n := by
      rcases hn with hn | ⟨t, ht, rfl⟩
      · simp only [Conn.send, List.length_append, List.length_singleton] at hn
        omega
      · exact (hs.admitted t ht).lt.ne'
    have hold : c.lines.length ≤ n ∨ c.unsettled n := by
      rcases hn with hn | hn
      · simp only [Conn.send, List.length_append, List.length_singleton] at hn
        exact .inl (by omega)
      · exact .inr hn
    rw [repliesTo_send, if_neg hne, List.append_nil]
    exact hs.quiet n hold
  · intro n text hn hset
    rw [repliesTo_send]
    by_cases hlast : c.lines.length = n
    · subst hlast
      have htext : line = text := by simpa [Conn.send] using hn
      have hquiet : c.repliesTo c.lines.length = [] := hs.quiet _ (.inl le_rfl)
      rw [if_pos rfl]
      change Answered rt text (c.repliesTo c.lines.length ++ replies)
      rw [hquiet, List.nil_append, ← htext]
      exact ha
    · rw [if_neg hlast, List.append_nil]
      have hlt : n < c.lines.length := by
        have := (List.getElem?_eq_some_iff.mp hn).1
        simp only [Conn.send, List.length_append, List.length_singleton] at this
        omega
      have hsame : (c.lines ++ [line])[n]? = c.lines[n]? := List.getElem?_append_left hlt
      exact hs.answered n text (hsame.symm.trans hn) hset

theorem answered_parseError {line : String} (h : rt.parse line = none) :
    Answered rt line [parseError] := by
  simp only [Answered, h]

theorem answered_busy {line : String} {msg : Json} (h : rt.parse line = some msg) (busy : ℕ) :
    Answered rt line ((messageId msg).toList.map fun id => busyError id busy) := by
  simp only [Answered, h]
  cases messageId msg with
  | none => rfl
  | some id => exact .inl ⟨_, rfl⟩

theorem Sound.admitLine {c : Conn} {line : String} {msg : Json} (hs : Sound rt c)
    (hp : rt.parse line = some msg) (hb : c.inFlight < maxInFlightPerConnection) :
    Sound rt { c with
      lines := c.lines ++ [line]
      inFlight := c.inFlight + 1
      tasks := c.tasks ++
        [⟨c.lines.length, messageId msg, messageMethod msg, messageParams msg⟩] } := by
  have hold : ∀ n, (∃ t ∈ c.tasks, t.line = n) → n < c.lines.length := by
    rintro n ⟨t, ht, rfl⟩
    exact (hs.admitted t ht).lt
  refine ⟨?_, hb, ?_, ?_, ?_, ?_⟩
  · rw [List.length_append, List.length_singleton, hs.count]
  · rw [List.map_append, List.map_singleton, List.nodup_append]
    refine ⟨hs.distinct, List.nodup_singleton _, ?_⟩
    intro a ha b hb'
    obtain ⟨t, ht, rfl⟩ := List.mem_map.mp ha
    rw [List.mem_singleton] at hb'
    exact hb' ▸ (hs.admitted t ht).lt.ne
  · intro t ht
    rcases List.mem_append.mp ht with ht | ht
    · exact (hs.admitted t ht).append line
    · rw [List.mem_singleton] at ht
      subst ht
      exact ⟨line, msg, by simp, hp, rfl, rfl⟩
  · intro n hn
    apply hs.quiet n
    rcases hn with hn | ⟨t, ht, rfl⟩
    · simp only [List.length_append, List.length_singleton] at hn
      exact .inl (by omega)
    · rcases List.mem_append.mp ht with ht | ht
      · exact .inr ⟨t, ht, rfl⟩
      · rw [List.mem_singleton] at ht
        exact .inl (by rw [ht])
  · intro n text hn hset
    have hne : n ≠ c.lines.length := by
      rintro rfl
      exact hset ⟨_, List.mem_append_right _ (List.mem_singleton_self _), rfl⟩
    have hlt : n < c.lines.length := by
      have := (List.getElem?_eq_some_iff.mp hn).1
      simp only [List.length_append, List.length_singleton] at this
      omega
    have hsame : (c.lines ++ [line])[n]? = c.lines[n]? := List.getElem?_append_left hlt
    refine hs.answered n text (hsame.symm.trans hn) ?_
    rintro ⟨t, ht, rfl⟩
    exact hset ⟨t, List.mem_append_left _ ht, rfl⟩

theorem Sound.line {c d : Conn} {raw : String} (hs : Sound rt c)
    (h : serveMcpConnection rt c raw = some d) : Sound rt d := by
  unfold serveMcpConnection at h
  split at h
  · cases h
    exact hs
  · obtain ⟨hp, rfl⟩ | ⟨msg, hp, ⟨-, rfl⟩ | ⟨hb, rfl⟩⟩ := dispatchLine_cases h
    · exact hs.answerLine (answered_parseError hp)
    · exact hs.answerLine (answered_busy hp c.inFlight)
    · exact hs.admitLine hp hb

variable {slice : String → ℕ → String}

theorem toolFailure_ne_noReply (thrown : Thrown) : toolFailure rt slice thrown ≠ .noReply := by
  unfold toolFailure
  dsimp only
  split <;> simp

theorem callTool_ne_noReply (host : Host) (params : Json) (run : ToolRun) :
    callTool rt slice host params run ≠ .noReply := by
  unfold callTool
  dsimp only
  split
  · split <;> simp
  · split
    · simp
    · split
      · exact toolFailure_ne_noReply _
      · split
        · exact toolFailure_ne_noReply _
        · split
          · exact toolFailure_ne_noReply _
          · simp

theorem notificationMethod_of_noReply {host : Host} {method params : Json} {run : ToolRun}
    (h : handleMethod rt slice host method params run = .noReply) : notificationMethod method := by
  unfold handleMethod at h
  split at h
  · next m =>
    by_cases hcall : m = "tools/call"
    · subst hcall
      simp only [String.reduceEq, if_false, if_true] at h
      exact absurd h (callTool_ne_noReply host params run)
    · rw [if_neg hcall] at h
      split_ifs at h with h1 h2 h3 hpre
      exact ⟨m, rfl, hpre⟩
  · cases h

/-- Only a notifications/ method is left without a reply. -/
theorem reactions_handleMethod (id : Json) (host : Host) (method params : Json) (run : ToolRun) :
    (∃ body, reactions slice (some id) (handleMethod rt slice host method params run) =
      [⟨id, body⟩]) ∨
    notificationMethod method ∧
      reactions slice (some id) (handleMethod rt slice host method params run) = [] := by
  cases hout : handleMethod rt slice host method params run with
  | result value => exact .inl ⟨_, rfl⟩
  | rejected err => exact .inl ⟨_, rfl⟩
  | noReply => exact .inr ⟨notificationMethod_of_noReply hout, rfl⟩

theorem settle_cases {c d : Conn} {n : ℕ} {host : Host} {run : ToolRun}
    (h : settle rt slice c n host run = some d) :
    ∃ t ∈ c.tasks, t.line = n ∧
      d = { c.send n (reactions slice t.id (handleMethod rt slice host t.method t.params run)) with
        inFlight := c.inFlight - 1
        tasks := c.tasks.filter fun u => u.line ≠ n } := by
  unfold settle at h
  split at h
  · cases h
  · next t ht =>
    have hline : t.line = n := by simpa using List.find?_some ht
    exact ⟨t, List.mem_of_find?_eq_some ht, hline, (Option.some.inj h).symm⟩

theorem map_line_filter (tasks : List Task) (n : ℕ) :
    (tasks.filter fun u => u.line ≠ n).map Task.line =
      (tasks.map Task.line).filter fun m => m ≠ n := by
  rw [List.filter_map]
  rfl

theorem length_filter_line {tasks : List Task} {t : Task} (ht : t ∈ tasks)
    (hd : (tasks.map Task.line).Nodup) :
    (tasks.filter fun u => u.line ≠ t.line).length = tasks.length - 1 := by
  have hmem : t.line ∈ tasks.map Task.line := List.mem_map_of_mem ht
  calc (tasks.filter fun u => u.line ≠ t.line).length
      = ((tasks.map Task.line).filter fun m => m ≠ t.line).length := by
        rw [← map_line_filter, List.length_map]
    _ = ((tasks.map Task.line).erase t.line).length := by
        rw [hd.erase_eq_filter]
        exact congrArg List.length (List.filter_congr fun m _ => decide_not)
    _ = tasks.length - 1 := by rw [List.length_erase_of_mem hmem, List.length_map]

/-- What the reactions of a task's handler leave on its line. -/
theorem Admitted.answered {lines : List String} {t : Task} {text : String}
    (h : Admitted rt lines t) (hline : lines[t.line]? = some text) (host : Host) (run : ToolRun) :
    Answered rt text
      (reactions slice t.id (handleMethod rt slice host t.method t.params run)) := by
  obtain ⟨text', msg, hline', hp, hid, hmethod⟩ := h
  cases hline.symm.trans hline'
  simp only [Answered, hp, hid, hmethod]
  cases messageId msg with
  | none => rfl
  | some id => exact reactions_handleMethod id host (messageMethod msg) t.params run

theorem Sound.settle {c d : Conn} {n : ℕ} {host : Host} {run : ToolRun} (hs : Sound rt c)
    (h : settle rt slice c n host run = some d) : Sound rt d := by
  obtain ⟨t, ht, rfl, rfl⟩ := settle_cases h
  refine ⟨?_, (Nat.sub_le _ _).trans hs.bound, ?_, ?_, ?_, ?_⟩
  · dsimp only
    rw [length_filter_line ht hs.distinct, hs.count]
  · dsimp only
    rw [map_line_filter]
    exact hs.distinct.filter _
  · exact fun u hu => hs.admitted u (List.mem_of_mem_filter hu)
  · intro m hm
    have hne : t.line ≠ m := by
      rcases hm with hm | ⟨u, hu, rfl⟩
      · have hlt := (hs.admitted t ht).lt
        simp only [Conn.send] at hm
        omega
      · exact fun heq => of_decide_eq_true (List.mem_filter.mp hu).2 heq.symm
    have hold : c.lines.length ≤ m ∨ c.unsettled m := by
      rcases hm with hm | ⟨u, hu, rfl⟩
      · exact .inl hm
      · exact .inr ⟨u, List.mem_of_mem_filter hu, rfl⟩
    have hsent := repliesTo_send c t.line m
      (reactions slice t.id (handleMethod rt slice host t.method t.params run))
    rw [if_neg hne, List.append_nil, hs.quiet m hold] at hsent
    exact hsent
  · intro m text hm hset
    have hsent := repliesTo_send c t.line m
      (reactions slice t.id (handleMethod rt slice host t.method t.params run))
    by_cases hlast : t.line = m
    · subst hlast
      rw [if_pos rfl, hs.quiet t.line (.inr ⟨t, ht, rfl⟩), List.nil_append] at hsent
      have ha : Answered rt text
          (reactions slice t.id (handleMethod rt slice host t.method t.params run)) :=
        (hs.admitted t ht).answered hm host run
      rw [← hsent] at ha
      exact ha
    · rw [if_neg hlast, List.append_nil] at hsent
      have hold : ¬ c.unsettled m := by
        rintro ⟨u, hu, rfl⟩
        exact hset ⟨u, List.mem_filter.mpr ⟨hu, by simpa using Ne.symm hlast⟩, rfl⟩
      have ha := hs.answered m text hm hold
      rw [← hsent] at ha
      exact ha

theorem Sound.step {c d : Conn} {a : Action} (hs : Sound rt c) (h : step rt slice c a = some d) :
    Sound rt d := by
  cases a with
  | line raw => exact hs.line h
  | settle n host run => exact hs.settle h

end Account

end ClaudeFleet.McpDispatch
