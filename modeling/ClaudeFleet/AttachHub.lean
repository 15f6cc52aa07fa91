import ClaudeFleet.ReplayBuffer
import ClaudeFleet.Transition

/-! The attach hub: many viewers, one broker connection for each session. A callback or
handler up to its next await is one step, and steps of different handlers interleave freely.
The broker's sessions are part of the state, with a serial for each incarnation of an id. -/
namespace ClaudeFleet.AttachHub

open ReplayBuffer

def replayBytes : ℕ := 64 * 1024

inductive EndReason
  | exit
  | brokerGone
  | closed
  deriving DecidableEq

inductive JoinResult
  | ok
  | refused (error : String)
  deriving DecidableEq

/-- What a viewer's socket was sent. `joined` is history, not a frame: the viewer entered the
tap's map when its stream had this length. So are the tap and the position in `attached`. -/
inductive Frame
  | joined (channel tap position : ℕ)
  | attached (channel tap position : ℕ)
  | attachRefused (channel : ℕ) (error : String)
  | history (channel : ℕ) (body : List UInt8)
  | output (channel : ℕ) (body : List UInt8)
  | ended (channel : ℕ) (reason : EndReason)
  | detached (channel : ℕ)
  | detachRefused (channel : ℕ) (error : String)
  | closed (channel : ℕ)
  | closeRefused (channel : Option ℕ) (error : String)
  | created (id : String)
  | createRefused (id : Option String) (error : String)
  deriving DecidableEq

/-- `SessionTap`. `opening` is the connection of the shared open attempt; `stream` is all the
bodies the upstream delivered, kept for the statements. -/
structure Tap where
  id : String := ""
  viewers : List (ℕ × ℕ) := []
  replay : Buffer := {}
  upstream : Option ℕ := none
  opening : Option ℕ := none
  ended : Bool := false
  stream : List UInt8 := []

/-- Where a viewer's frame handler waits. `creating` holds the broker's answer once given:
the serial of the new incarnation, or none for a refusal. -/
inductive Pc
  | idle
  | joining (tap channel conn : ℕ)
  | attaching (tap channel : ℕ) (result : JoinResult)
  | leaving (conn : Option ℕ)
  | detaching (channel : ℕ) (conn : Option ℕ)
  | closing (tap channel conn : ℕ)
  | closed (tap channel : ℕ)
  | creating (id : String) (answer : Option (Option ℕ))
  deriving DecidableEq

structure Viewer where
  key : String
  channels : List (ℕ × ℕ) := []
  closed : Bool := false
  pc : Pc := .idle
  log : List Frame := []

inductive ConnStatus
  | up
  | detaching
  | closed
  deriving DecidableEq

/-- A connection opened by `BrokerOps.attach`: whether the broker accepted the attach, what
the open attempt returned, and the socket's status. -/
structure Conn where
  session : String := ""
  tap : ℕ := 0
  accepted : Bool := false
  result : Option JoinResult := none
  status : ConnStatus := .up
  deriving DecidableEq

structure Incarnation where
  serial : ℕ
  alive : Bool
  deriving DecidableEq

/-- The broker's session map. As history: the identity whose CREATE frame made an incarnation,
none if it was not made through the hub, and whether the hub got the reply. -/
structure Broker where
  sessions : String → Option Incarnation := fun _ => none
  nextSerial : ℕ := 0
  creator : ℕ → Option String := fun _ => none
  acked : ℕ → Bool := fun _ => false

/-- A pass of pruneDeadOwners: the mark, then the sessions listed as alive. -/
structure Prune where
  mark : ℕ
  live : Option (String → Bool)

structure Hub where
  taps : ℕ → Tap := fun _ => {}
  nextTap : ℕ := 0
  live : String → Option ℕ := fun _ => none
  viewers : ℕ → Viewer
  conns : ℕ → Conn := fun _ => {}
  nextConn : ℕ := 0
  owners : String → Option String := fun _ => none
  ownerSeq : String → Option ℕ := fun _ => none
  seq : ℕ := 0
  broker : Broker := {}
  prunes : ℕ → Option Prune := fun _ => none

/-- A hub nobody used yet; `key v` is the owner key of viewer `v`'s identity. -/
def Hub.initial (key : ℕ → String) : Hub := { viewers := fun v => { key := key v } }

def Hub.setTap (h : Hub) (t : ℕ) (x : Tap) : Hub := { h with taps := Function.update h.taps t x }

def Hub.setViewer (h : Hub) (v : ℕ) (x : Viewer) : Hub :=
  { h with viewers := Function.update h.viewers v x }

def Hub.setConn (h : Hub) (c : ℕ) (x : Conn) : Hub := { h with conns := Function.update h.conns c x }

def Hub.setPc (h : Hub) (v : ℕ) (pc : Pc) : Hub := h.setViewer v { h.viewers v with pc := pc }

/-- `reply`: nothing is sent to a closed viewer. -/
def Viewer.send (x : Viewer) (frames : List Frame) : Viewer :=
  if x.closed then x else { x with log := x.log ++ frames }

/-- The handler answers and ends. -/
def Hub.finish (h : Hub) (v : ℕ) (frames : List Frame) : Hub :=
  h.setViewer v { (h.viewers v).send frames with pc := .idle }

def Hub.setOwner (h : Hub) (id key : String) : Hub :=
  { h with
    owners := Function.update h.owners id (some key)
    ownerSeq := Function.update h.ownerSeq id (some (h.seq + 1))
    seq := h.seq + 1 }

def Hub.dropOwner (h : Hub) (id : String) : Hub :=
  { h with
    owners := Function.update h.owners id none
    ownerSeq := Function.update h.ownerSeq id none }

/-- Drop the owners that were set up to the mark and whose session is not listed. -/
def Hub.pruneOwners (h : Hub) (live : String → Bool) (mark : ℕ) : Hub :=
  let dead : String → Bool := fun id => (h.ownerSeq id).any fun seq => seq ≤ mark && !live id
  { h with
    owners := fun id => if dead id then none else h.owners id
    ownerSeq := fun id => if dead id then none else h.ownerSeq id }

/-- `onRetire`: the tap leaves the hub's map if it is still the one there. -/
def Hub.retire (h : Hub) (t : ℕ) : Hub :=
  { h with
    live := fun id => if h.live id = some t ∧ (h.taps t).id = id then none else h.live id }

/-- Send a frame on the channel of every viewer of the tap. -/
def Hub.broadcast (h : Hub) (t : ℕ) (frame : ℕ → Frame) : Hub :=
  { h with
    viewers := fun v => (h.viewers v).send
      (((h.taps t).viewers.filter fun m => m.1 = v).map fun m => frame m.2) }

def Hub.fanOut (h : Hub) (t : ℕ) (body : List UInt8) (frame : ℕ → Frame) : Hub :=
  (h.setTap t
    { h.taps t with
      replay := append replayBytes (h.taps t).replay body
      stream := (h.taps t).stream ++ body }).broadcast t frame

/-- `end`: the first reason wins; the upstream is forgotten. -/
def Hub.endTap (h : Hub) (t : ℕ) (reason : EndReason) : Hub :=
  if (h.taps t).ended then h
  else
    let g := (h.setTap t { h.taps t with ended := true, upstream := none }).retire t
    if reason = .exit then (g.dropOwner (h.taps t).id).broadcast t fun ch => .ended ch reason
    else g.broadcast t fun ch => .ended ch reason

/-- Start `detach` on a connection: it takes no more close events. -/
def Hub.detachConn (h : Hub) (c : ℕ) : Hub :=
  h.setConn c
    { h.conns c with
      status := if (h.conns c).status = .up then .detaching else (h.conns c).status }

/-- Forget the upstream, retire the tap and detach the connection. -/
def Hub.dropUpstream (h : Hub) (t : ℕ) : Hub :=
  let g := (h.setTap t { h.taps t with upstream := none }).retire t
  match (h.taps t).upstream with
  | some c => g.detachConn c
  | none => g

def Tap.withoutViewer (x : Tap) (v : ℕ) : Tap :=
  { x with viewers := x.viewers.filter fun m => m.1 ≠ v }

/-- The viewer is a member and the last one. -/
def Tap.lastViewer (x : Tap) (v : ℕ) : Bool :=
  decide (v ∈ x.viewers.map Prod.fst) && (x.withoutViewer v).viewers.isEmpty

/-- `leave`: the last viewer takes the upstream with it. -/
def Hub.leave (h : Hub) (t v : ℕ) : Hub :=
  let g := h.setTap t ((h.taps t).withoutViewer v)
  if (h.taps t).lastViewer v then g.dropUpstream t else g

/-- The connection whose detach `leave` waits for. -/
def Hub.leaveConn (h : Hub) (t v : ℕ) : Option ℕ :=
  if (h.taps t).lastViewer v then (h.taps t).upstream else none

/-- `viewers.set`: a member keeps its place. -/
def Tap.withViewer (x : Tap) (v ch : ℕ) : Tap :=
  if v ∈ x.viewers.map Prod.fst then
    { x with viewers := x.viewers.map fun m => if m.1 = v then (v, ch) else m }
  else { x with viewers := x.viewers ++ [(v, ch)] }

/-- `join` enters the viewer in the tap's map and returns. -/
def Hub.register (h : Hub) (v t ch : ℕ) : Hub :=
  (h.setTap t ((h.taps t).withViewer v ch)).setViewer v
    { (h.viewers v).send [.joined ch t (h.taps t).stream.length] with pc := .attaching t ch .ok }

/-- The live tap of a session, made on demand. -/
def Hub.tap (h : Hub) (id : String) : Hub × ℕ :=
  match h.live id with
  | some t => (h, t)
  | none =>
    ({ h.setTap h.nextTap { id := id } with
        nextTap := h.nextTap + 1
        live := Function.update h.live id (some h.nextTap) }, h.nextTap)

/-- Start an open attempt of the tap on a new connection. -/
def Hub.openTap (h : Hub) (t : ℕ) : Hub :=
  { (h.setConn h.nextConn { session := (h.taps t).id, tap := t }).setTap t
      { h.taps t with opening := some h.nextConn } with
    nextConn := h.nextConn + 1 }

/-- The synchronous part of `join`: wait for the tap's open attempt, or become a member. -/
def Hub.join (h : Hub) (v t ch : ℕ) : Hub :=
  if (h.taps t).upstream = none ∧ (h.taps t).ended = false then
    match (h.taps t).opening with
    | some c => h.setPc v (.joining t ch c)
    | none => (h.openTap t).setPc v (.joining t ch h.nextConn)
  else h.register v t ch

def validSessionId (id : String) : Bool :=
  id ≠ "" && id.length ≤ 128 && id.toList.all fun c => c.isAlphanum || c = '_' || c = '-'

def isChannel (c : ℕ) : Bool := c ≤ 0xffffffff

def Hub.hasChannel (h : Hub) (v ch : ℕ) : Bool := ch ∈ (h.viewers v).channels.map Prod.fst

/-- A channel of the viewer already reads this session. -/
def Hub.readsSession (h : Hub) (v : ℕ) (id : String) : Bool :=
  (h.viewers v).channels.any fun p => (h.taps p.2).id = id

/-- The ATTACH handler up to its await. -/
def Hub.attach (h : Hub) (v : ℕ) (id : String) (ch : ℕ) : Hub :=
  if !validSessionId id || !isChannel ch then h.finish v [.attachRefused ch "bad request"]
  else if h.hasChannel v ch then h.finish v [.attachRefused ch "channel in use"]
  else if h.readsSession v id then
    h.finish v [.attachRefused ch "session already attached on this connection"]
  else (h.tap id).1.join v (h.tap id).2 ch

/-- `join` after its await: a failed attempt is forgotten, and its tap too if it has no
viewer. -/
def Hub.joinResume (h : Hub) (v t ch : ℕ) : JoinResult → Hub
  | .ok => h.register v t ch
  | .refused error =>
    let g := h.setTap t { h.taps t with opening := none }
    (if (h.taps t).viewers = [] then g.retire t else g).setPc v (.attaching t ch (.refused error))

/-- What a newcomer is sent: ATTACHED, the replayed output, and ENDED if the tap has ended. -/
def welcome (x : Tap) (t ch : ℕ) : List Frame :=
  .attached ch t x.stream.length ::
    ((if snapshot x.replay = [] then [] else [.history ch (snapshot x.replay)]) ++
      if x.ended then [.ended ch .exit] else [])

/-- The ATTACH handler after `join`. -/
def Hub.attachResume (h : Hub) (v t ch : ℕ) : JoinResult → Hub
  | .refused error => h.finish v [.attachRefused ch error]
  | .ok =>
    if (h.viewers v).closed then (h.leave t v).setPc v (.leaving (h.leaveConn t v))
    else
      (h.setViewer v
        { h.viewers v with channels := (h.viewers v).channels ++ [(ch, t)] }).finish v
          (welcome (h.taps t) t ch)

def Viewer.withoutChannel (x : Viewer) (ch : ℕ) : Viewer :=
  { x with channels := x.channels.filter fun p => p.1 ≠ ch }

def Hub.dropChannel (h : Hub) (v ch : ℕ) : Hub := h.setViewer v ((h.viewers v).withoutChannel ch)

/-- The DETACH handler up to its await. -/
def Hub.detach (h : Hub) (v ch : ℕ) : Hub :=
  match (h.viewers v).channels.lookup ch with
  | none => h.finish v [.detachRefused ch "channel not attached"]
  | some t => ((h.dropChannel v ch).leave t v).setPc v (.detaching ch (h.leaveConn t v))

/-- The tap a CLOSE frame may close: the channel's, if the viewer's identity owns its session. -/
def Hub.ownedTap (h : Hub) (v ch : ℕ) : Option ℕ :=
  ((h.viewers v).channels.lookup ch).filter fun t =>
    h.owners (h.taps t).id = some (h.viewers v).key

/-- The CLOSE handler up to its await. -/
def Hub.close (h : Hub) (v ch : ℕ) : Hub :=
  match (h.viewers v).channels.lookup ch with
  | none => h.finish v [.closeRefused (some ch) "channel not attached"]
  | some t =>
    if h.owners (h.taps t).id ≠ some (h.viewers v).key then
      h.finish v [.closeRefused (some ch) "forbidden: only the session owner can close it"]
    else
      let g := h.dropChannel v ch
      match (h.taps t).upstream with
      | some c => g.setPc v (.closing t ch c)
      | none => (g.endTap t .closed).setPc v (.closed t ch)

/-- `dispose`: the socket is gone; leave every tap. -/
def Hub.dispose (h : Hub) (v : ℕ) : Hub :=
  (h.viewers v).channels.foldl (fun h p => h.leave p.2 v)
    (h.setViewer v { h.viewers v with closed := true, channels := [] })

/-- `shutdown`: drop the upstream of every live tap. -/
def Hub.shutdown (h : Hub) : Hub :=
  (List.range h.nextTap).foldl
    (fun h t => if h.live (h.taps t).id = some t then h.dropUpstream t else h) h

/-- The broker serves a CREATE: an id in its map, dead or alive, is refused. -/
def Broker.create (b : Broker) (id : String) (creator : Option String) : Broker × Option ℕ :=
  match b.sessions id with
  | some _ => (b, none)
  | none =>
    ({ b with
        sessions := Function.update b.sessions id (some ⟨b.nextSerial, true⟩)
        nextSerial := b.nextSerial + 1
        creator := Function.update b.creator b.nextSerial creator }, some b.nextSerial)

/-- The CREATE handler up to its await; `argsOk` is whether `hostCreateArgs` takes the args. -/
def Hub.create (h : Hub) (v : ℕ) (id : String) (argsOk : Bool) : Hub :=
  if !validSessionId id then h.finish v [.createRefused (some id) "bad session id"]
  else if !argsOk then h.finish v [.createRefused (some id) "forbidden: unsupported create args"]
  else h.setPc v (.creating id none)

/-- The CREATE handler after the broker made incarnation `n`. -/
def Hub.created (h : Hub) (v : ℕ) (id : String) (n : ℕ) : Hub :=
  { h.setOwner id (h.viewers v).key with
    broker := { h.broker with acked := Function.update h.broker.acked n true } }.finish v
      [.created id]

def Broker.alive (b : Broker) (id : String) : Bool := (b.sessions id).any Incarnation.alive

inductive Action
  | attach (v : ℕ) (id : String) (ch : ℕ)
  | joinResume (v : ℕ)
  | attachResume (v : ℕ)
  | leaveResume (v : ℕ)
  | detach (v ch : ℕ)
  | detachResume (v : ℕ)
  | close (v ch : ℕ)
  | closeReply (v : ℕ) (ok : Bool)
  | closeResume (v : ℕ)
  | create (v : ℕ) (id : String) (argsOk : Bool)
  | createReply (v : ℕ)
  | createFail (v : ℕ)
  | dispose (v : ℕ)
  | accept (c : ℕ)
  | openOk (c : ℕ)
  | openFail (c : ℕ) (error : String)
  | history (c : ℕ) (body : List UInt8)
  | output (c : ℕ) (body : List UInt8)
  | ended (c : ℕ)
  | gone (c : ℕ)
  | detached (c : ℕ)
  | shutdown
  | brokerCreate (v : ℕ)
  | brokerSpawn (id : String)
  | brokerExit (id : String)
  | brokerClose (id : String)
  | pruneMark (k : ℕ)
  | pruneList (k : ℕ)
  | pruneApply (k : ℕ)

/-- A viewer's next frame is handled when the previous handler is done and the viewer open. -/
def Hub.ready (h : Hub) (v : ℕ) : Prop := (h.viewers v).pc = .idle ∧ (h.viewers v).closed = false

instance (h : Hub) (v : ℕ) : Decidable (h.ready v) := inferInstanceAs (Decidable (_ ∧ _))

/-- A detach the handler waits for is over. -/
def Hub.detachDone (h : Hub) (c : Option ℕ) : Prop := ∀ x ∈ c, (h.conns x).status = .closed

instance (h : Hub) (c : Option ℕ) : Decidable (h.detachDone c) :=
  inferInstanceAs (Decidable (∀ x ∈ c, _))

def step (h : Hub) : Action → Option Hub
  | .attach v id ch => if h.ready v then some (h.attach v id ch) else none
  | .joinResume v =>
    match (h.viewers v).pc with
    | .joining t ch c => (h.conns c).result.map fun r => h.joinResume v t ch r
    | _ => none
  | .attachResume v =>
    match (h.viewers v).pc with
    | .attaching t ch r => some (h.attachResume v t ch r)
    | _ => none
  | .leaveResume v =>
    match (h.viewers v).pc with
    | .leaving c => if h.detachDone c then some (h.finish v []) else none
    | _ => none
  | .detach v ch => if h.ready v then some (h.detach v ch) else none
  | .detachResume v =>
    match (h.viewers v).pc with
    | .detaching ch c => if h.detachDone c then some (h.finish v [.detached ch]) else none
    | _ => none
  | .close v ch => if h.ready v then some (h.close v ch) else none
  | .closeReply v ok =>
    match (h.viewers v).pc with
    | .closing t ch _ =>
      if ok then some ((h.endTap t .closed).setPc v (.closed t ch))
      else some (h.finish v [.closeRefused none "broker request failed"])
    | _ => none
  | .closeResume v =>
    match (h.viewers v).pc with
    | .closed t ch => some ((h.dropOwner (h.taps t).id).finish v [.closed ch])
    | _ => none
  | .create v id argsOk =>
    if h.ready v then some (h.create v id argsOk) else none
  | .createReply v =>
    match (h.viewers v).pc with
    | .creating id (some (some n)) => some (h.created v id n)
    | .creating id (some none) =>
      some (h.finish v [.createRefused (some id) "session: id already in use"])
    | _ => none
  | .createFail v =>
    match (h.viewers v).pc with
    | .creating _ _ => some (h.finish v [.createRefused none "broker request failed"])
    | _ => none
  | .dispose v => if (h.viewers v).closed then none else some (h.dispose v)
  | .accept c =>
    if c < h.nextConn ∧ (h.conns c).status = .up ∧ (h.conns c).result = none then
      some (h.setConn c { h.conns c with accepted := true })
    else none
  | .openOk c =>
    if c < h.nextConn ∧ (h.conns c).accepted = true ∧ (h.conns c).result = none then
      some ((h.setConn c { h.conns c with result := some .ok }).setTap (h.conns c).tap
        { h.taps (h.conns c).tap with upstream := some c })
    else none
  | .openFail c error =>
    if c < h.nextConn ∧ (h.conns c).accepted = false ∧ (h.conns c).result = none then
      some (h.setConn c { h.conns c with result := some (.refused error), status := .closed })
    else none
  | .history c body =>
    if c < h.nextConn ∧ (h.conns c).status ≠ .closed then
      some (h.fanOut (h.conns c).tap body fun ch => .history ch body)
    else none
  | .output c body =>
    if c < h.nextConn ∧ (h.conns c).status ≠ .closed then
      some (h.fanOut (h.conns c).tap body fun ch => .output ch body)
    else none
  | .ended c =>
    if c < h.nextConn ∧ (h.conns c).status ≠ .closed then some (h.endTap (h.conns c).tap .exit)
    else none
  | .gone c =>
    if c < h.nextConn ∧ (h.conns c).status = .up then
      some ((h.setConn c { h.conns c with status := .closed }).endTap (h.conns c).tap .brokerGone)
    else none
  | .detached c =>
    if (h.conns c).status = .detaching then some (h.setConn c { h.conns c with status := .closed })
    else none
  | .shutdown => some h.shutdown
  | .brokerCreate v =>
    match (h.viewers v).pc with
    | .creating id none =>
      let made := h.broker.create id (some (h.viewers v).key)
      some ({ h with broker := made.1 }.setPc v (.creating id (some made.2)))
    | _ => none
  | .brokerSpawn id => some { h with broker := (h.broker.create id none).1 }
  | .brokerExit id =>
    some { h with
      broker := { h.broker with
        sessions := Function.update h.broker.sessions id
          ((h.broker.sessions id).map fun i => { i with alive := false }) } }
  | .brokerClose id =>
    some { h with
      broker := { h.broker with sessions := Function.update h.broker.sessions id none } }
  | .pruneMark k => some { h with prunes := Function.update h.prunes k (some ⟨h.seq, none⟩) }
  | .pruneList k =>
    match h.prunes k with
    | some ⟨mark, none⟩ =>
      some { h with prunes := Function.update h.prunes k (some ⟨mark, some h.broker.alive⟩) }
    | _ => none
  | .pruneApply k =>
    match h.prunes k with
    | some ⟨mark, some live⟩ =>
      some { h.pruneOwners live mark with prunes := Function.update h.prunes k none }
    | _ => none

end ClaudeFleet.AttachHub
