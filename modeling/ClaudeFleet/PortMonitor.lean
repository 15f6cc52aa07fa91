import ClaudeFleet.JsMap
import ClaudeFleet.JsText
import ClaudeFleet.Transition

/-! The monitors of the running workspaces: each polls the ports its broker lists, keeps those that
answer as HTTP servers, and reports them. -/
namespace ClaudeFleet.PortMonitor
open Js Transition

/-- A port that serves, as it is shown. -/
structure ServingPort where
  port : ℕ
  pid : Option ℤ
  cmdline : Option Text
  sessionId : Option Text
  firstSeenAt : ℤ
  deriving DecidableEq

def maxProbeAttempts : ℕ := 3

/-- A listening port as the broker reports it. -/
structure PortDetail where
  port : ℕ
  pid : Option ℤ
  cmdline : Option Text
  session : Option Text

/-- A set of ports, in the order in which they were added. -/
abbrev PortSet := JsMap ℕ Unit

namespace PortSet

def ofList (ports : List ℕ) : PortSet := .ofEntries (ports.map fun p => (p, ()))

def toList (s : PortSet) : List ℕ := s.rows.map Prod.fst

end PortSet

/-- The ports that are new since the last scan, and the ports of this one. -/
def diffPorts (prev : PortSet) (current exclude : List ℕ) : List ℕ × PortSet :=
  let next := PortSet.ofList (current.filter fun p => p ∉ exclude)
  (next.toList.filter fun p => !prev.has p, next)

/-- A poll between two of its probes. -/
structure Probing where
  byPort : JsMap ℕ PortDetail
  next : PortSet
  /-- The port that is being probed, and those still to be. -/
  port : ℕ
  rest : List ℕ
  changed : Bool

/-- What a poll waits for. -/
inductive Stage
  | resolving
  | readying
  | listing
  | probing (p : Probing)

/-- A monitor, which is polling exactly while it has a poll. -/
structure Monitor where
  workspaceId : Text
  seen : PortSet := .empty
  probeFails : JsMap ℕ ℕ := .empty
  poll : Option Stage := none
  serving : JsMap ℕ ServingPort := .empty
  /-- The ports of the latest listing, and those of them that a probe found serving since they
  appeared in one. -/
  listed : List ℕ := []
  passed : List ℕ := []
  /-- How often each port has appeared. -/
  appearances : ℕ → ℕ := fun _ => 0

/-- A call of `onDetected`, with the appearance of the port that it reports. -/
structure Detection where
  workspaceId : Text
  port : ℕ
  monitor : ℕ
  appearance : ℕ
  /-- The monitor had not been stopped. -/
  current : Bool

structure State where
  /-- All monitors there were, oldest first. -/
  all : List Monitor := []
  monitors : JsMap Text ℕ := .empty
  /-- What `onChanged` was last called with for each workspace. -/
  broadcast : Text → List ServingPort := fun _ => []
  detected : List Detection := []

def servingSorted (m : Monitor) : List ServingPort :=
  (m.serving.rows.map Prod.snd).mergeSort fun a b => a.port ≤ b.port

/-- A row differs from what the broker reports: another process, or another owner found. -/
def PortDetail.differs (d : PortDetail) (sp : ServingPort) : Bool :=
  d.pid ≠ sp.pid || d.session ≠ sp.sessionId

def PortDetail.serving (d : PortDetail) (port : ℕ) (now : ℤ) : ServingPort :=
  ⟨port, d.pid, d.cmdline, d.session, now⟩

def PortDetail.refresh (d : PortDetail) (now : ℤ) (port : ℕ) (sp : ServingPort) : ServingPort :=
  if d.pid ≠ sp.pid then d.serving port now
  else if d.session ≠ sp.sessionId then { sp with sessionId := d.session }
  else sp

/-- The rows of the ports that are still listed, and whether any row went or was changed. -/
def relist (serving : JsMap ℕ ServingPort) (byPort : JsMap ℕ PortDetail) (now : ℤ) :
    JsMap ℕ ServingPort × Bool :=
  let kept := serving.keepKeys byPort.has
  (kept.mapValues fun port sp => (byPort.get? port).elim sp fun d => d.refresh now port sp,
    serving.rows.any (fun e => !byPort.has e.1) ||
      kept.rows.any fun e => (byPort.get? e.1).any fun d => d.differs e.2)

namespace State

def put (s : State) (i : ℕ) (m : Monitor) : State := { s with all := s.all.set i m }

def isCurrent (s : State) (i : ℕ) (m : Monitor) : Bool :=
  s.monitors.get? m.workspaceId == some i

def startMonitor (s : State) (workspaceId : Text) : State :=
  { s with
    all := s.all ++ [{ workspaceId }]
    monitors := s.monitors.set workspaceId s.all.length }

def stopMonitor (s : State) (workspaceId : Text) : State :=
  match (s.monitors.get? workspaceId).bind fun i => s.all[i]? with
  | none => s
  | some m =>
    { s with
      monitors := s.monitors.delete workspaceId
      broadcast :=
        if 0 < m.serving.size then Function.update s.broadcast workspaceId [] else s.broadcast }

def startMissing (s : State) (running : List Text) : State :=
  running.foldl (fun s id => if s.monitors.has id then s else s.startMonitor id) s

/-- The workspaces whose monitors stop when those given are running. -/
def stopping (s : State) (running : List Text) : List Text :=
  (s.monitors.rows.map Prod.fst).filter fun id => id ∉ running

def reconcile (s : State) (running : List Text) : State :=
  let s := s.startMissing running
  (s.stopping running).foldl stopMonitor s

def dispose (s : State) : State := (s.monitors.rows.map Prod.fst).foldl stopMonitor s

/-- The poll goes on to the next port, or ends after the last. -/
def resume (s : State) (i : ℕ) (m : Monitor) (byPort : JsMap ℕ PortDetail) (next : PortSet)
    (changed : Bool) : List ℕ → State
  | port :: rest =>
    s.put i { m with poll := some (.probing ⟨byPort, next, port, rest, changed⟩) }
  | [] =>
    if s.isCurrent i m then
      let m := { m with seen := next, poll := none }
      { s.put i m with
        broadcast :=
          if changed then Function.update s.broadcast m.workspaceId (servingSorted m)
          else s.broadcast }
    else s.put i { m with poll := none }

/-- Current serving state across all monitored workspaces, those with none left out. -/
def snapshot (s : State) : List (Text × List ServingPort) :=
  s.monitors.rows.filterMap fun e =>
    (s.all[e.2]?).bind fun m => if 0 < m.serving.size then some (e.1, servingSorted m) else none

end State

/-- A list of ports has arrived. -/
def Monitor.list (m : Monitor) (details : List PortDetail) (byPort : JsMap ℕ PortDetail)
    (next : PortSet) (now : ℤ) : Monitor :=
  let ports := details.map (·.port)
  { m with
    serving := (relist m.serving byPort now).1
    probeFails := m.probeFails.keepKeys next.has
    listed := ports
    passed := m.passed.filter fun p => p ∈ ports
    appearances := fun p =>
      if p ∈ ports ∧ p ∉ m.listed then m.appearances p + 1 else m.appearances p }

section Service
variable (excludePorts : Text → List ℕ)

def onList (s : State) (i : ℕ) (m : Monitor) (details : List PortDetail) (now : ℤ) : State :=
  let byPort := JsMap.ofEntries (details.map fun d => (d.port, d))
  let (newly, next) := diffPorts m.seen (details.map (·.port)) (excludePorts m.workspaceId)
  s.resume i (m.list details byPort next now) byPort next (relist m.serving byPort now).2 newly

def onProbe (s : State) (i : ℕ) (m : Monitor) (p : Probing) (ok : Bool) (now : ℤ) : State :=
  if ok then
    let d := p.byPort.get? p.port
    let m := { m with
      probeFails := m.probeFails.delete p.port
      serving := m.serving.set p.port
        ⟨p.port, d.bind (·.pid), d.bind (·.cmdline), d.bind (·.session), now⟩
      passed := p.port :: m.passed }
    let s : State := { s with
      detected := s.detected ++
        [⟨m.workspaceId, p.port, i, m.appearances p.port, s.isCurrent i m⟩] }
    s.resume i m p.byPort p.next true p.rest
  else
    let fails := (m.probeFails.get? p.port).getD 0 + 1
    let m := { m with probeFails := m.probeFails.set p.port fails }
    s.resume i m p.byPort (if fails < maxProbeAttempts then p.next.delete p.port else p.next)
      p.changed p.rest

inductive Action
  | reconcile (running : List Text)
  | dispose
  /-- The timer of a monitor fires. -/
  | tick (workspaceId : Text)
  /-- The endpoint is resolved, or the broker is ready. -/
  | proceed (i : ℕ)
  | list (i : ℕ) (details : List PortDetail) (now : ℤ)
  | probe (i : ℕ) (ok : Bool) (now : ℤ)
  /-- What the poll of a monitor waits for fails. -/
  | fail (i : ℕ)

def step (s : State) : Action → Option State
  | .reconcile running => some (s.reconcile running)
  | .dispose => some s.dispose
  | .tick workspaceId =>
    (s.monitors.get? workspaceId).bind fun i =>
      (s.all[i]?).map fun m =>
        if m.poll.isSome then s else s.put i { m with poll := some .resolving }
  | .proceed i =>
    (s.all[i]?).bind fun m =>
      match m.poll with
      | some .resolving => some (s.put i { m with poll := some .readying })
      | some .readying => some (s.put i { m with poll := some .listing })
      | _ => none
  | .list i details now =>
    (s.all[i]?).bind fun m =>
      match m.poll with
      | some .listing => some (onList excludePorts s i m details now)
      | _ => none
  | .probe i ok now =>
    (s.all[i]?).bind fun m =>
      match m.poll with
      | some (.probing p) => some (onProbe s i m p ok now)
      | _ => none
  | .fail i =>
    (s.all[i]?).bind fun m =>
      match m.poll with
      | some _ => some (s.put i { m with poll := none })
      | none => none

end Service

end ClaudeFleet.PortMonitor
