import ClaudeFleet.Transition

/-! The host side of the embedder sidecar: a queue of requests, one in flight, a sidecar that is
started when it is needed and again after it is gone, with one timer for the three things that are
waited for. Spawned sidecars are numbered, and so are the calls of `embed`. The messages of one
chunk of output are handled one after another before anything else happens. -/
namespace ClaudeFleet.EmbedderClient

abbrev Bytes := List UInt8

def MAX_FRAME : ℕ := 64 * 1024 * 1024

def EMBEDDER_PROTOCOL : ℤ := 1

def EMBED_DIM : ℕ := 384

def CRASH_LOOP_FAILURES : ℕ := 3

def CRASH_LOOP_WINDOW_MS : ℤ := 5 * 60000

def MAX_BACKOFF_MS : ℕ := 30000

inductive MessageType
  | ready
  | fatal
  | other
  deriving DecidableEq

/-- The fields of a message that are read. One that is not of the type it is read as counts as
absent; `vectors` is decoded from base64. -/
structure Message where
  type : MessageType := .other
  protocol : Option ℤ := none
  id : Option ℤ := none
  error : Option String := none
  n : Option ℕ := none
  dim : Option ℕ := none
  vectors : Bytes := []
  deriving DecidableEq

/-- A JSON value. Only null has no fields to read. -/
inductive Value
  | null
  | message (m : Message)
  deriving DecidableEq

def readUInt32LE : Bytes → ℕ
  | a :: b :: c :: d :: _ => ((d.toNat * 256 + c.toNat) * 256 + b.toNat) * 256 + a.toNat
  | _ => 0

/-- The loop of `FrameDecoder.push`: the values it returns, `none` where it throws, and the buffer
it leaves. -/
def decode (parse : Bytes → Option Value) (buf : Bytes) : Option (List Value) × Bytes :=
  if buf.length < 4 then (some [], buf)
  else
    let len := readUInt32LE buf
    if MAX_FRAME < len then (none, buf)
    else if buf.length < 4 + len then (some [], buf)
    else
      match parse ((buf.take (4 + len)).drop 4) with
      | none => (none, buf)
      | some v =>
        let (vs, left) := decode parse (buf.drop (4 + len))
        (vs.map (v :: ·), left)
termination_by buf.length
decreasing_by
  rw [List.length_drop]
  omega

/-- A float is its four bytes. -/
abbrev Vector := List Bytes

def decodeVectors (bytes : Bytes) (n dim : ℕ) : Option (List Vector) :=
  if dim ≠ EMBED_DIM ∨ bytes.length ≠ n * dim * 4 then none
  else
    some ((List.range n).map fun i =>
      (List.range dim).map fun k => (bytes.drop ((i * dim + k) * 4)).take 4)

inductive Rejection
  | unavailable (reason : String)
  | failedTwice (why : String)
  | embedder (error : String)
  | count (n : Option ℕ) (texts : ℕ)
  | bytes (length n : ℕ) (dim : Option ℕ)
  deriving DecidableEq

inductive Outcome
  | resolved (vectors : List Vector)
  | rejected (why : Rejection)
  deriving DecidableEq

/-- What a reply settles its request with. -/
def outcome (texts : List String) (m : Message) : Outcome :=
  match m.error with
  | some e => .rejected (.embedder e)
  | none =>
    if m.n = some texts.length then
      match m.dim.bind (decodeVectors m.vectors texts.length) with
      | some vectors => .resolved vectors
      | none => .rejected (.bytes m.vectors.length texts.length m.dim)
    else .rejected (.count m.n texts.length)

structure Pending where
  no : ℕ
  texts : List String
  attempts : ℕ
  deriving DecidableEq

inductive Phase
  | idle
  | starting
  | ready
  | backoff
  | dead
  deriving DecidableEq

/-- What the timer is for. -/
inductive Timer
  | ready (c : ℕ)
  | request (c : ℕ)
  | backoff (ms : ℕ)
  deriving DecidableEq

structure Send where
  no : ℕ
  child : ℕ
  id : ℕ
  deriving DecidableEq

structure Settled where
  no : ℕ
  outcome : Outcome
  /-- The sidecar and its reply, where there was one. -/
  reply : Option (ℕ × Message)
  deriving DecidableEq

/-- `arrived` are the messages of the chunk that is being handled. The last four fields are the
record of what was asked, sent, answered and settled. -/
structure State where
  phase : Phase
  child : Option ℕ
  queue : List Pending
  inflight : Option (Pending × ℕ)
  nextId : ℕ
  failures : List ℤ
  timer : Option Timer
  lastFatal : String
  killed : Finset ℕ
  gone : Finset ℕ
  decoders : ℕ → Bytes
  spawned : ℕ
  arrived : List (ℕ × Value)
  submitted : List (List String)
  sends : List Send
  answered : List ℕ
  settled : List Settled

namespace State

def start : State where
  phase := .idle
  child := none
  queue := []
  inflight := none
  nextId := 1
  failures := []
  timer := none
  lastFatal := ""
  killed := ∅
  gone := ∅
  decoders _ := []
  spawned := 0
  arrived := []
  submitted := []
  sends := []
  answered := []
  settled := []

def settle (s : State) (no : ℕ) (o : Outcome) (reply : Option (ℕ × Message)) : State :=
  { s with settled := s.settled ++ [⟨no, o, reply⟩] }

def kill (s : State) (c : ℕ) (why : String) : State :=
  { s with lastFatal := why, killed := insert c s.killed }

/-- The requests that have not been settled. -/
def waiting (s : State) : List Pending := (s.inflight.map Prod.fst).toList ++ s.queue

def stop (s : State) (reason : String) : State :=
  { s with
    phase := .dead
    timer := none
    child := none
    inflight := none
    queue := []
    settled := s.settled ++
      s.waiting.map fun p => ⟨p.no, .rejected (.unavailable reason), none⟩ }

def pump (s : State) : State :=
  match s.phase, s.inflight, s.queue, s.child with
  | .ready, none, p :: queue, some c =>
    if c ∈ s.killed then s
    else
      { s with
        queue := queue
        inflight := some (p, s.nextId)
        nextId := s.nextId + 1
        timer := some (.request c)
        sends := s.sends ++ [⟨p.no, c, s.nextId⟩] }
  | _, _, _, _ => s

/-- A request that was in flight is tried once more, before all the others. -/
def retry (s : State) (why : String) : State :=
  match s.inflight with
  | none => s
  | some (p, _) =>
    let p := { p with attempts := p.attempts + 1 }
    let s := { s with inflight := none }
    if 2 ≤ p.attempts then s.settle p.no (.rejected (.failedTwice why)) none
    else { s with queue := p :: s.queue }

def onChildGone (s : State) (child : Option ℕ) (why : String) (now : ℤ) : State :=
  if child ≠ s.child ∨ s.phase = .dead then s
  else
    let s := { s with child := none, timer := none }.retry why
    let failures := (s.failures.filter fun f => now - f < CRASH_LOOP_WINDOW_MS) ++ [now]
    let s := { s with failures := failures }
    if CRASH_LOOP_FAILURES ≤ failures.length then { s with lastFatal := why }.stop why
    else if s.queue = [] then { s with phase := .idle }
    else
      { s with
        phase := .backoff
        timer := some (.backoff (min MAX_BACKOFF_MS (1000 * 2 ^ (failures.length - 1)))) }

/-- The spawn may throw. -/
def launch (s : State) (thrown : Option String) (now : ℤ) : State :=
  let s := { s with phase := .starting, lastFatal := "" }
  match thrown with
  | some e => s.onChildGone none ("spawn failed: " ++ e) now
  | none =>
    { s with
      child := some s.spawned
      spawned := s.spawned + 1
      timer := some (.ready s.spawned) }

def embed (s : State) (texts : List String) (thrown : Option String) (now : ℤ) : State :=
  let no := s.submitted.length
  let s := { s with submitted := s.submitted ++ [texts] }
  if texts = [] then s.settle no (.resolved []) none
  else if s.phase = .dead then
    s.settle no
      (.rejected (.unavailable (if s.lastFatal = "" then "stopped" else s.lastFatal))) none
  else
    let s : State := { s with queue := s.queue ++ [⟨no, texts, 0⟩] }
    if s.phase = .idle then s.launch thrown now else s.pump

def idText (id : Option ℤ) : String := (id.map toString).getD "undefined"

def onMessage (s : State) (c : ℕ) (m : Message) : State :=
  if s.child ≠ some c ∨ c ∈ s.killed then s
  else
    match m.type with
    | .ready =>
      if m.protocol ≠ some EMBEDDER_PROTOCOL then
        let why := "fleet-embedder speaks protocol " ++ (m.protocol.map toString).getD "none" ++
          ", host expects " ++ toString EMBEDDER_PROTOCOL
        (s.kill c why).stop why
      else { s with timer := none, phase := .ready }.pump
    | .fatal => { s with lastFatal := m.error.getD "undefined" }
    | .other =>
      match s.inflight with
      | none => s.kill c ("response id " ++ idText m.id ++ " does not match request none")
      | some (p, id) =>
        if m.id ≠ some (id : ℤ) then
          s.kill c ("response id " ++ idText m.id ++ " does not match request " ++ toString id)
        else
          ({ s with timer := none, inflight := none, answered := s.answered ++ [id] }.settle p.no
            (outcome p.texts m) (some (c, m))).pump

/-- The timer goes off. -/
def fire (s : State) (t : Timer) (thrown : Option String) (now : ℤ) : State :=
  let s := { s with timer := none }
  match t with
  | .ready c => s.kill c "no ready within timeout"
  | .request c => s.kill c "request timeout"
  | .backoff _ => s.launch thrown now

def receive (s : State) (parse : Bytes → Option Value) (c : ℕ) (chunk : Bytes) : State :=
  let (values, left) := decode parse (s.decoders c ++ chunk)
  let s := { s with decoders := Function.update s.decoders c left }
  match values with
  | none => s.kill c "protocol error"
  | some values => { s with arrived := values.map fun v => (c, v) }

/-- The error or exit event of a sidecar, of which the first counts. -/
def onGone (s : State) (c : ℕ) (why : String) (now : ℤ) : State :=
  if c ∈ s.gone then s else { s with gone := insert c s.gone }.onChildGone (some c) why now

end State

inductive Action
  | embed (texts : List String) (thrown : Option String) (now : ℤ)
  | data (c : ℕ) (chunk : Bytes)
  | deliver
  | error (c : ℕ) (message : String) (now : ℤ)
  | exit (c : ℕ) (code : String) (now : ℤ)
  | fire (thrown : Option String) (now : ℤ)
  | dispose
  deriving DecidableEq

def step (parse : Bytes → Option Value) (s : State) (a : Action) : Option State :=
  match s.arrived, a with
  | (c, .message m) :: rest, .deliver => some ({ s with arrived := rest }.onMessage c m)
  -- reading a field of null throws, and the rest of the chunk is lost
  | (_, .null) :: _, .deliver => some { s with arrived := [] }
  | [], .embed texts thrown now => some (s.embed texts thrown now)
  | [], .data c chunk => if c < s.spawned then some (s.receive parse c chunk) else none
  | [], .error c message now =>
    if c < s.spawned then some (s.onGone c ("spawn error: " ++ message) now) else none
  | [], .exit c code now =>
    if c < s.spawned then
      some (s.onGone c (if s.lastFatal = "" then "exited " ++ code else s.lastFatal) now)
    else none
  | [], .fire thrown now => s.timer.map fun t => s.fire t thrown now
  | [], .dispose => some (s.stop "disposed")
  | _, _ => none

def Value.isReady : Value → Bool
  | .message m => m.type = .ready ∧ m.protocol = some EMBEDDER_PROTOCOL
  | .null => false

/-- A sidecar that is listened to says ready only while no request is in flight. -/
def ReadyInTime (s : State) (a : Action) : Prop :=
  a = .deliver → ∀ x ∈ s.arrived.head?, x.2.isReady = true → s.child = some x.1 →
    x.1 ∉ s.killed → s.inflight = none

instance (s : State) (a : Action) : Decidable (ReadyInTime s a) :=
  inferInstanceAs (Decidable (a = .deliver → ∀ x ∈ s.arrived.head?, x.2.isReady = true →
    s.child = some x.1 → x.1 ∉ s.killed → s.inflight = none))

end ClaudeFleet.EmbedderClient
