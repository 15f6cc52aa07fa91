import ClaudeFleet.RingBuffer
import ClaudeFleet.Transition

/-! The broker: PTY sessions behind ids, one goroutine for each connection, one pump for each
session and one waiter for each attachment. A critical section (the manager's mutex, a session's,
a connection's write mutex) is one step, and the goroutines interleave freely. Sessions are
numbered by incarnation and attachments by order, so that the statements can tell the second
session under an id from the first. -/
namespace ClaudeFleet.BrokerServer
open RingBuffer

/-- The connection and channel a session delivers to. -/
structure Writer where
  conn : ℕ
  channel : ℕ
  serial : ℕ
  deriving DecidableEq

/-- An entry of a connection's attach table. The code has the id only; `session` and `serial` are
the incarnation and the attachment it was made for. -/
structure Entry where
  id : String
  session : ℕ
  serial : ℕ
  deriving DecidableEq

inductive Event
  | input (body : List UInt8)
  | resize (cols rows : ℕ)
  deriving DecidableEq

/-- An INPUT or RESIZE that reached a session, with the incarnation the channel was attached to. -/
structure Received where
  conn : ℕ
  channel : ℕ
  event : Event
  bound : Option ℕ
  deriving DecidableEq

/-- Where a session's pump stands: before the next read, after `ring.Write`, or after it read the
attached writer. -/
inductive Pump
  | idle
  | written (chunk : List UInt8)
  | sending (w : Writer) (chunk : List UInt8)
  deriving DecidableEq

structure Session where
  id : String
  ring : Ring
  stream : List UInt8 := []
  attached : Option Writer := none
  dead : Bool := false
  killed : Bool := false
  pump : Pump := .idle
  inputs : List Received := []

/-- The bytes an attach is given as history, and where in the stream they begin. -/
def Session.history (s : Session) : List UInt8 := replaySnapshot s.ring

def Session.historyPos (s : Session) : ℕ := s.stream.length - s.history.length

/-- Frames on the wire. `session` and `pos` say which bytes of which PTY stream a body is; `serial`
which attachment an ENDED was written for, `current` what was attached on the channel then, and
whether that had exited. `joined` marks the moment of `Session.Attach` and is no frame of the
protocol. -/
inductive Frame
  | created (id : String) (error : Option String)
  | attached (channel : ℕ) (error : Option String)
  | detached (channel : ℕ) (error : Option String)
  | closed (channel : ℕ) (error : Option String)
  | history (channel session pos : ℕ) (body : List UInt8)
  | output (channel session pos : ℕ) (body : List UInt8)
  | ended (channel serial : ℕ) (current : Option (Entry × Bool))
  | joined (channel session serial pos : ℕ)
  deriving DecidableEq

/-- Where a connection's goroutine stands. -/
inductive Pc
  | idle
  | reply (frame : Frame)
  | attaching (channel : ℕ) (id : String) (session : ℕ)
  | acking (channel : ℕ) (entry : Entry) (pos : ℕ) (history : List UInt8) (ended : Bool)
  | replaying (channel : ℕ) (entry : Entry) (pos : ℕ) (history : List UInt8) (ended : Bool)
  | ending (channel : ℕ) (entry : Entry)
  | detaching (channel session : ℕ)
  | closing (channel : ℕ) (session : Option ℕ)
  | feeding (channel session : ℕ) (event : Event)
  | leaving (ids : List String)
  | leavingOne (session : ℕ) (ids : List String)
  | gone
  deriving DecidableEq

structure Conn where
  attached : List (ℕ × Entry) := []
  pc : Pc := .idle
  broken : Bool := false
  log : List Frame := []

/-- `writeFrame` under the connection's mutex; on a lost connection it fails. -/
def Conn.say (x : Conn) (f : Frame) : Conn :=
  if x.broken then x else { x with log := x.log ++ [f] }

/-- The connection with a new entry in its table. -/
def Conn.joins (x : Conn) (ch : ℕ) (e : Entry) (pos : ℕ) : Conn :=
  { x with attached := (ch, e) :: x.attached }.say (.joined ch e.session e.serial pos)

/-- The table is a map: an entry is dropped with its channel. -/
def Conn.without (x : Conn) (ch : ℕ) : Conn :=
  { x with attached := x.attached.filter fun p => p.1 ≠ ch }

/-- A goroutine that waits for a session's end on behalf of one attachment. -/
structure Waiter where
  conn : ℕ
  channel : ℕ
  id : String
  session : ℕ
  checked : Bool := false
  deriving DecidableEq

structure Broker where
  ringBufBytes : ℤ
  sessions : ℕ → Session
  manager : String → Option ℕ := fun _ => none
  nextSession : ℕ := 0
  conns : ℕ → Conn := fun _ => {}
  nextConn : ℕ := 0
  waiters : ℕ → Option Waiter := fun _ => none
  nextSerial : ℕ := 0

/-- `NewManager` and a server without connections. -/
def newManager (ringBufBytes : ℤ) : Broker where
  ringBufBytes := if ringBufBytes ≤ 0 then 64 * 1024 else ringBufBytes
  sessions _ := { id := "", ring := newRingBuffer 0 }

namespace Broker

def setSession (b : Broker) (n : ℕ) (x : Session) : Broker :=
  { b with sessions := Function.update b.sessions n x }

def setConn (b : Broker) (c : ℕ) (x : Conn) : Broker :=
  { b with conns := Function.update b.conns c x }

def setPc (b : Broker) (c : ℕ) (pc : Pc) : Broker := b.setConn c { b.conns c with pc := pc }

/-- A frame for a connection's goroutine or for anyone who holds its writer. -/
def write (b : Broker) (c : ℕ) (f : Frame) : Broker := b.setConn c ((b.conns c).say f)

def entry (b : Broker) (c ch : ℕ) : Option Entry := (b.conns c).attached.lookup ch

/-- What is attached on a channel, and whether it has exited. -/
def current (b : Broker) (c ch : ℕ) : Option (Entry × Bool) :=
  (b.entry c ch).map fun e => (e, (b.sessions e.session).dead)

def dropEntry (b : Broker) (c ch : ℕ) : Broker := b.setConn c ((b.conns c).without ch)

/-- `Manager.Create`; `failure` is the PTY's error if it does not start. -/
def create (b : Broker) (c : ℕ) (id : String) (failure : Option String) : Broker :=
  if id = "" then b.setPc c (.reply (.created id (some "missing id")))
  else if (b.manager id).isSome then
    b.setPc c (.reply (.created id (some "session: id already in use")))
  else if failure.isSome then b.setPc c (.reply (.created id failure))
  else
    { b.setSession b.nextSession { id := id, ring := newRingBuffer b.ringBufBytes } with
      manager := Function.update b.manager id (some b.nextSession)
      nextSession := b.nextSession + 1 }.setPc c (.reply (.created id none))

/-- ATTACH up to the session's own mutex. -/
def attach (b : Broker) (c : ℕ) (id : String) (ch : ℕ) : Broker :=
  match b.manager id with
  | none => b.setPc c (.reply (.attached ch (some "no such session")))
  | some n =>
    match b.entry c ch with
    | some existing =>
      b.setPc c (.reply (.attached ch (some ("channel in use by session " ++ existing.id))))
    | none => b.setPc c (.attaching ch id n)

/-- `Session.Attach`, and the entry in the connection's table. -/
def attachSession (b : Broker) (c ch : ℕ) (id : String) (n : ℕ) : Broker :=
  let s := b.sessions n
  let e : Entry := ⟨id, n, b.nextSerial⟩
  let x := (b.conns c).joins ch e s.stream.length
  if s.dead then
    { b with nextSerial := b.nextSerial + 1 }.setConn c
      { x with pc := .acking ch e s.historyPos s.history true }
  else if s.attached.isSome then
    b.setPc c (.reply (.attached ch (some "session: already attached")))
  else
    { b.setSession n { s with attached := some ⟨c, ch, b.nextSerial⟩ } with
      nextSerial := b.nextSerial + 1 }.setConn c
      { x with pc := .acking ch e s.historyPos s.history false }

/-- What is left of ATTACH once ATTACHED and HISTORY are out. -/
def attachDone (b : Broker) (c ch : ℕ) (e : Entry) (ended : Bool) : Broker :=
  if ended then b.setPc c (.ending ch e)
  else
    { b with
      waiters := Function.update b.waiters e.serial
        (some { conn := c, channel := ch, id := e.id, session := e.session }) }.setPc c .idle

/-- `Session.Detach`: only for the connection that holds the session. -/
def detachSession (b : Broker) (c n : ℕ) : Broker :=
  match (b.sessions n).attached with
  | some w => if w.conn = c then b.setSession n { b.sessions n with attached := none } else b
  | none => b

def detach (b : Broker) (c ch : ℕ) : Broker :=
  match b.entry c ch with
  | none => b.setPc c (.reply (.detached ch (some "channel not attached")))
  | some e =>
    match b.manager e.id with
    | none => (b.dropEntry c ch).setPc c (.reply (.detached ch none))
    | some n => b.setPc c (.detaching ch n)

/-- CLOSE up to the kill: the id leaves the manager. -/
def close (b : Broker) (c ch : ℕ) : Broker :=
  match b.entry c ch with
  | none => b.setPc c (.reply (.closed ch (some "channel not attached")))
  | some e =>
    { b with manager := Function.update b.manager e.id none }.setPc c
      (.closing ch (b.manager e.id))

def kill (b : Broker) : Option ℕ → Broker
  | none => b
  | some n => b.setSession n { b.sessions n with killed := true }

/-- INPUT and RESIZE resolve the id anew. -/
def feed (b : Broker) (c ch : ℕ) (event : Event) : Broker :=
  match b.entry c ch with
  | none => b
  | some e =>
    match b.manager e.id with
    | none => b
    | some n => b.setPc c (.feeding ch n event)

/-- The PTY takes the input unless it is closed. -/
def receive (b : Broker) (c ch n : ℕ) (event : Event) : Broker :=
  if (b.sessions n).killed then b
  else
    b.setSession n { b.sessions n with
      inputs := (b.sessions n).inputs ++ [⟨c, ch, event, (b.entry c ch).map Entry.session⟩] }

end Broker

/-- A frame from the host. A body that is no JSON is answered and changes nothing. -/
inductive Request
  | create (id : String) (failure : Option String)
  | attach (id : String) (ch : ℕ)
  | detach (ch : ℕ)
  | close (ch : ℕ)
  | feed (ch : ℕ) (event : Event)
  deriving DecidableEq

def Broker.dispatch (b : Broker) (c : ℕ) : Request → Broker
  | .create id failure => b.create c id failure
  | .attach id ch => b.attach c id ch
  | .detach ch => b.detach c ch
  | .close ch => b.close c ch
  | .feed ch event => b.feed c ch event

/-- The connection goroutine's next critical section. A failed write ends the handler. -/
def Broker.resume (b : Broker) (c : ℕ) : Option Broker :=
  match (b.conns c).pc with
  | .idle | .gone => none
  | .reply f => some ((b.write c f).setPc c .idle)
  | .attaching ch id n => some (b.attachSession c ch id n)
  | .acking ch e pos history ended =>
    if (b.conns c).broken then some (b.setPc c .idle)
    else if history.length > 0 then
      some ((b.write c (.attached ch none)).setPc c (.replaying ch e pos history ended))
    else some ((b.write c (.attached ch none)).attachDone c ch e ended)
  | .replaying ch e pos history ended =>
    if (b.conns c).broken then some (b.setPc c .idle)
    else some ((b.write c (.history ch e.session pos history)).attachDone c ch e ended)
  | .ending ch e => some ((b.write c (.ended ch e.serial (b.current c ch))).setPc c .idle)
  | .detaching ch n =>
    some (((b.detachSession c n).dropEntry c ch).setPc c (.reply (.detached ch none)))
  | .closing ch n => some (((b.kill n).dropEntry c ch).setPc c (.reply (.closed ch none)))
  | .feeding ch n event => some ((b.receive c ch n event).setPc c .idle)
  | .leaving [] => some (b.setConn c { b.conns c with pc := .gone, broken := true })
  | .leaving (id :: ids) =>
    match b.manager id with
    | none => some (b.setPc c (.leaving ids))
    | some n => some (b.setPc c (.leavingOne n ids))
  | .leavingOne n ids => some ((b.detachSession c n).setPc c (.leaving ids))

inductive Action
  | accept
  | request (c : ℕ) (r : Request)
  | resume (c : ℕ)
  | disconnect (c : ℕ) (ids : List String)
  | lose (c : ℕ)
  | read (n : ℕ) (chunk : List UInt8)
  | lookup (n : ℕ)
  | send (n : ℕ)
  | exit (n : ℕ)
  | wake (k : ℕ)
  | notify (k : ℕ)
  deriving DecidableEq

/-- The pump's read buffer. -/
def pumpBytes : ℕ := 16 * 1024

def step (b : Broker) : Action → Option Broker
  | .accept => some { b with nextConn := b.nextConn + 1 }
  | .request c r =>
    if c < b.nextConn ∧ (b.conns c).pc = .idle then some (b.dispatch c r) else none
  | .resume c => b.resume c
  | .disconnect c ids =>
    -- a map is walked in any order
    if c < b.nextConn ∧ (b.conns c).pc = .idle ∧
        ids.Perm ((b.conns c).attached.map fun p => p.2.id) then
      some (b.setPc c (.leaving ids))
    else none
  | .lose c =>
    if c < b.nextConn then some (b.setConn c { b.conns c with broken := true }) else none
  | .read n chunk =>
    if n < b.nextSession ∧ (b.sessions n).killed = false ∧ (b.sessions n).pump = .idle ∧
        0 < chunk.length ∧ chunk.length ≤ pumpBytes then
      some (b.setSession n { b.sessions n with
        ring := RingBuffer.write (b.sessions n).ring chunk
        stream := (b.sessions n).stream ++ chunk
        pump := .written chunk })
    else none
  | .lookup n =>
    match (b.sessions n).pump with
    | .written chunk =>
      match (b.sessions n).attached with
      | none => some (b.setSession n { b.sessions n with pump := .idle })
      | some w => some (b.setSession n { b.sessions n with pump := .sending w chunk })
    | _ => none
  | .send n =>
    match (b.sessions n).pump with
    | .sending w chunk =>
      some ((b.setSession n { b.sessions n with pump := .idle }).write w.conn
        (.output w.channel n ((b.sessions n).stream.length - chunk.length) chunk))
    | _ => none
  | .exit n =>
    if n < b.nextSession ∧ (b.sessions n).dead = false then
      some (b.setSession n { b.sessions n with dead := true })
    else none
  | .wake k =>
    match b.waiters k with
    | some w =>
      if w.checked = false ∧ (b.sessions w.session).dead = true then
        if (b.entry w.conn w.channel).map Entry.id = some w.id then
          some { b with waiters := Function.update b.waiters k (some { w with checked := true }) }
        else some { b with waiters := Function.update b.waiters k none }
      else none
    | none => none
  | .notify k =>
    match b.waiters k with
    | some w =>
      if w.checked then
        some ({ b with waiters := Function.update b.waiters k none }.write w.conn
          (.ended w.channel k (b.current w.conn w.channel)))
      else none
    | none => none

end ClaudeFleet.BrokerServer
