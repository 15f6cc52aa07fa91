import ClaudeFleet.JsValue
import ClaudeFleet.PortMonitor

/-! Exposures of ports: declarations of the sessions joined with what the scans find, the popups
shown for them, and the row stored of each. The writes of an exposure follow one another, and the
awaits and timers are those of the exposure they belong to. -/
namespace ClaudeFleet.PortExposure
open Js Transition PortMonitor

def ephemeralMin : ℕ := 32768
def ephemeralMax : ℕ := 60999
def declareRatePerMin : ℕ := 10
def minuteMs : ℤ := 60000
def labelMax : ℕ := 80
def reasonMax : ℕ := 200
def localEndAfterFails : ℕ := 2

def isEphemeralPort (port : ℕ) : Bool := ephemeralMin ≤ port && port ≤ ephemeralMax

inductive ExposureSource
  | declared
  | scanned
  | both
  deriving DecidableEq

inductive ExposureOutcome
  | opened
  | dismissed
  | ignored
  | notServing
  deriving DecidableEq

inductive OpenVia
  | popup
  | rail
  | fallback
  deriving DecidableEq

inductive WorkspaceKind
  | container
  | local
  | remote
  deriving DecidableEq

structure ExposureRow where
  id : Text
  workspaceId : Text
  port : ℕ
  sessionId : Option Text := none
  cmdline : Option Text := none
  label : Option Text := none
  reason : Option Text := none
  source : ExposureSource := .scanned
  firstScannedAt : Option ℤ := none
  declaredAt : Option ℤ := none
  popupShownAt : Option ℤ := none
  outcome : Option ExposureOutcome := none
  openedVia : Option OpenVia := none
  openCount : ℕ := 0
  endedAt : Option ℤ := none
  deriving DecidableEq

/-- New values of some fields, all but those that name the exposure. -/
structure ExposurePatch where
  sessionId : Option (Option Text) := none
  cmdline : Option (Option Text) := none
  label : Option (Option Text) := none
  reason : Option (Option Text) := none
  source : Option ExposureSource := none
  firstScannedAt : Option (Option ℤ) := none
  declaredAt : Option (Option ℤ) := none
  popupShownAt : Option (Option ℤ) := none
  outcome : Option (Option ExposureOutcome) := none
  openedVia : Option (Option OpenVia) := none
  openCount : Option ℕ := none
  endedAt : Option (Option ℤ) := none
  deriving DecidableEq

def ExposureRow.assign (r : ExposureRow) (p : ExposurePatch) : ExposureRow :=
  { r with
    sessionId := p.sessionId.getD r.sessionId
    cmdline := p.cmdline.getD r.cmdline
    label := p.label.getD r.label
    reason := p.reason.getD r.reason
    source := p.source.getD r.source
    firstScannedAt := p.firstScannedAt.getD r.firstScannedAt
    declaredAt := p.declaredAt.getD r.declaredAt
    popupShownAt := p.popupShownAt.getD r.popupShownAt
    outcome := p.outcome.getD r.outcome
    openedVia := p.openedVia.getD r.openedVia
    openCount := p.openCount.getD r.openCount
    endedAt := p.endedAt.getD r.endedAt }

/-- A write of an exposure to the sink. -/
inductive Write
  | insert (row : ExposureRow)
  | update (id : Text) (patch : ExposurePatch)
  deriving DecidableEq

def Write.apply (sink : JsMap Text ExposureRow) : Write → JsMap Text ExposureRow
  | .insert row => sink.set row.id row
  | .update id patch =>
    match sink.get? id with
    | some row => sink.set id (row.assign patch)
    | none => sink

/-- A popup, with the row it was shown for. -/
structure Popup where
  row : ExposureRow
  declared : Bool

/-- An exposure, with the checks of it that are under way and what was done for it so far. -/
structure Live where
  row : ExposureRow
  serving : Bool := false
  isLocal : Bool
  declaredPopup : Bool := false
  waitTimer : Bool := false
  fallbackTimer : Bool := false
  pollTimer : Bool := false
  localFails : ℕ := 0
  /-- The setting for undeclared ports is being read. -/
  scheduling : Bool := false
  /-- A local probe is under way. -/
  probing : Bool := false
  popups : List Popup := []
  /-- The writes queued, the first of which have reached the sink and have settled. -/
  writes : List Write
  landed : ℕ := 0
  settled : ℕ := 0

def keyOf (workspaceId : Text) (port : ℕ) : Text := workspaceId ++ 58 :: js port.repr

namespace Live

def key (l : Live) : Text := keyOf l.row.workspaceId l.row.port

def patch (l : Live) (p : ExposurePatch) : Live :=
  { l with row := l.row.assign p, writes := l.writes ++ [.update l.row.id p] }

def showPopup (l : Live) (declared : Bool) (now : ℤ) : Live :=
  let l := { l with declaredPopup := declared || l.declaredPopup, fallbackTimer := false }
  let l := if l.row.popupShownAt = none then l.patch { popupShownAt := some (some now) } else l
  { l with popups := l.popups ++ [⟨l.row, declared⟩] }

/-- The end of an exposure, which is taken out of the map with it. -/
def finish (l : Live) (now : ℤ) : Live :=
  { l with waitTimer := false, fallbackTimer := false, pollTimer := false }.patch
    { endedAt := some (some now)
      outcome := some (some (l.row.outcome.getD (if l.serving then .ignored else .notServing))) }

end Live

structure Declaration where
  port : ℕ
  label : Text
  reason : Option Text

inductive DeclareError
  | port
  | ephemeral (n : ℕ)
  | label
  | reason
  | rate
  | unknownWorkspace
  | remoteWorkspace
  | notRunning
  deriving DecidableEq

def DeclareError.message : DeclareError → String
  | .port => "port must be an integer 1–65535"
  | .ephemeral n =>
    "port " ++ n.repr ++ " is in the ephemeral range (" ++ ephemeralMin.repr ++ "–" ++
      ephemeralMax.repr ++ ") the OS assigns to throwaway listeners such as test servers; bind " ++
      "the server to a fixed port below " ++ ephemeralMin.repr ++ " and declare that"
  | .label => "label is required (1–" ++ labelMax.repr ++ " chars)"
  | .reason => "reason must be a string of at most " ++ reasonMax.repr ++ " chars"
  | .rate =>
    "rate limited: at most " ++ declareRatePerMin.repr ++ " expose_port calls per minute"
  | .unknownWorkspace => "unknown workspace"
  | .remoteWorkspace => "expose_port is not supported for remote workspaces yet"
  | .notRunning => "workspace is not running"

/-- The port an argument gives, as a number or in digits. -/
def parsePort : Option Value → Option ℕ
  | some (.str s) =>
    if s ≠ [] ∧ s.all isDigit ∧ 1 ≤ decimal s ∧ decimal s ≤ 65535 then some (decimal s) else none
  | some (.num (.finite q)) =>
    if q.den = 1 ∧ 1 ≤ q ∧ q ≤ 65535 then some q.num.toNat else none
  | _ => none

def parseReason : Option Value → Except DeclareError (Option Text)
  | none | some .null => .ok none
  | some (.str s) =>
    if reasonMax < s.length then .error .reason
    else .ok (if trim s = [] then none else some (trim s))
  | some _ => .error .reason

def parseDeclare (a : Value) : Except DeclareError Declaration :=
  match parsePort (a.get "port") with
  | none => .error .port
  | some port =>
    if isEphemeralPort port then .error (.ephemeral port)
    else
      let label := trim (((a.get "label").bind Value.asText).getD [])
      if label = [] ∨ labelMax < label.length then .error .label
      else (parseReason (a.get "reason")).map fun reason => ⟨port, label, reason⟩

/-- A declaration that waits to hear of its workspace. -/
structure Call where
  workspaceId : Text
  declaration : Declaration

/-- A write that a flush waits for: that of an exposure, by its number. -/
structure Queued where
  exposure : ℕ
  write : ℕ
  deriving DecidableEq

/-- A call to flush: how many writes were queued, and how many of each exposure. -/
structure Flush where
  upTo : ℕ
  writes : List ℕ

structure State where
  /-- All exposures there were, oldest first. -/
  lives : List Live := []
  live : JsMap Text ℕ := .empty
  hits : Text → List ℤ := fun _ => []
  calls : List Call := []
  /-- All writes, of which the first have been passed; the next one waits for as many writes of
  its exposure as there were when its turn came. -/
  allWrites : List Queued := []
  passed : ℕ := 0
  awaiting : Option ℕ := none
  flushes : List Flush := []
  sink : JsMap Text ExposureRow := .empty
  /-- The writes in the order in which they reached the sink. -/
  log : List (ℕ × Write) := []

namespace State

/-- The exposure changes, and its new writes are queued. -/
def update (s : State) (i : ℕ) (f : Live → Live) : State :=
  match s.lives[i]? with
  | none => s
  | some l =>
    { s with
      lives := s.lives.set i (f l)
      allWrites := s.allWrites ++
        (List.range' (l.writes.length + 1) ((f l).writes.length - l.writes.length)).map (⟨i, ·⟩) }

/-- An exposure of the port begins with its insert. -/
def add (s : State) (l : Live) : State :=
  { s with
    lives := s.lives ++ [l]
    live := s.live.set l.key s.lives.length
    allWrites := s.allWrites ++ [⟨s.lives.length, 1⟩] }

def isCurrent (s : State) (i : ℕ) (l : Live) : Bool := s.live.get? l.key == some i

def finish (s : State) (i : ℕ) (l : Live) (now : ℤ) : State :=
  { s with live := s.live.delete l.key }.update i fun l => l.finish now

def takeRate (s : State) (workspaceId : Text) (now : ℤ) : State × Bool :=
  let recent := (s.hits workspaceId).filter fun t => now - t < minuteMs
  if declareRatePerMin ≤ recent.length then
    ({ s with hits := Function.update s.hits workspaceId recent }, false)
  else ({ s with hits := Function.update s.hits workspaceId (recent ++ [now]) }, true)

/-- A declaration up to its first await. -/
def declare (s : State) (workspaceId : Text) (args : Value) (now : ℤ) :
    State × Except DeclareError Unit :=
  match parseDeclare args with
  | .error e => (s, .error e)
  | .ok declaration =>
    match s.takeRate workspaceId now with
    | (s, false) => (s, .error .rate)
    | (s, true) => ({ s with calls := s.calls ++ [⟨workspaceId, declaration⟩] }, .ok ())

end State

inductive DeclareStatus
  | shown
  | waiting
  deriving DecidableEq

/-- What a declaration of a port that is already exposed does to the exposure. -/
def Live.redeclare (l : Live) (d : Declaration) (now : ℤ) : Live × DeclareStatus :=
  let p : ExposurePatch := { label := some (some d.label), reason := some d.reason }
  let l := l.patch (if l.row.declaredAt = none then
    { p with declaredAt := some (some now), source := some .both } else p)
  if !l.serving then (l, .waiting)
  else if !l.declaredPopup then (l.showPopup true now, .shown)
  else (l, .shown)

section Service
variable (newId : ℕ → Text)

/-- The exposure that a declaration opens. -/
def declaredLive (n : ℕ) (c : Call) (kind : WorkspaceKind) (now : ℤ) : Live :=
  let row : ExposureRow :=
    { id := newId n, workspaceId := c.workspaceId, port := c.declaration.port
      source := .declared, declaredAt := some now
      label := some c.declaration.label, reason := c.declaration.reason }
  { row, isLocal := kind = .local, waitTimer := true, probing := kind = .local
    writes := [.insert row] }

/-- The exposure that a scan opens. -/
def scannedLive (n : ℕ) (workspaceId : Text) (sp : ServingPort) (now : ℤ) : Live :=
  let row : ExposureRow :=
    { id := newId n, workspaceId, port := sp.port, source := .scanned
      firstScannedAt := some now, sessionId := sp.sessionId, cmdline := sp.cmdline }
  { row, isLocal := false, serving := true, scheduling := true, writes := [.insert row] }

/-- A declaration that has heard of its workspace. -/
def declared (s : State) (c : Call) (workspace : Option (WorkspaceKind × Bool)) (now : ℤ) :
    State × Except DeclareError DeclareStatus :=
  match workspace with
  | none => (s, .error .unknownWorkspace)
  | some (kind, running) =>
    if kind = .remote then (s, .error .remoteWorkspace)
    else if !running then (s, .error .notRunning)
    else
      match s.live.get? (keyOf c.workspaceId c.declaration.port) with
      | some i =>
        (s.update i fun l => (l.redeclare c.declaration now).1,
          .ok ((s.lives[i]?).elim .waiting fun l => (l.redeclare c.declaration now).2))
      | none => (s.add (declaredLive newId s.lives.length c kind now), .ok .waiting)

/-- What a snapshot does to the exposure of a port that is in it. -/
def Live.scan (l : Live) (sp : ServingPort) (now : ℤ) : Live :=
  if l.isLocal then l
  else if !l.serving then
    let l := { l with serving := true, waitTimer := false }
    (l.patch { source := some .both, firstScannedAt := some (some now),
               sessionId := some sp.sessionId, cmdline := some sp.cmdline }).showPopup true now
  else if sp.sessionId ≠ l.row.sessionId ∨ sp.cmdline ≠ l.row.cmdline then
    l.patch { sessionId := some sp.sessionId, cmdline := some sp.cmdline }
  else l

def scanPort (workspaceId : Text) (now : ℤ) (s : State) (sp : ServingPort) : State :=
  if isEphemeralPort sp.port then s
  else
    match s.live.get? (keyOf workspaceId sp.port) with
    | none => s.add (scannedLive newId s.lives.length workspaceId sp now)
    | some i => s.update i fun l => l.scan sp now

/-- The end of an exposure that a snapshot of its workspace no longer has. -/
def endAbsent (workspaceId : Text) (present : List ℕ) (now : ℤ) (s : State) (i : ℕ) : State :=
  match s.lives[i]? with
  | none => s
  | some l =>
    if l.row.workspaceId = workspaceId ∧ !l.isLocal ∧ l.serving ∧ l.row.port ∉ present then
      s.finish i l now
    else s

def onSnapshot (s : State) (workspaceId : Text) (ports : List ServingPort) (now : ℤ) : State :=
  let present := (ports.filter fun sp => !isEphemeralPort sp.port).map (·.port)
  let s := ports.foldl (scanPort newId workspaceId now) s
  (s.live.rows.map Prod.snd).foldl (endAbsent workspaceId present now) s

def recordOpen (s : State) (workspaceId : Text) (port : ℕ) (via : OpenVia) : State :=
  match s.live.get? (keyOf workspaceId port) with
  | none => s
  | some i => s.update i fun l =>
      l.patch { openCount := some (l.row.openCount + 1)
                openedVia := some (some (l.row.openedVia.getD via))
                outcome := some (some .opened) }

def recordDismiss (s : State) (workspaceId : Text) (port : ℕ) : State :=
  match s.live.get? (keyOf workspaceId port) with
  | none => s
  | some i => s.update i fun l =>
      if l.row.outcome = none then l.patch { outcome := some (some .dismissed) } else l

/-- The wait for a declared port to serve is over. -/
def onWait (s : State) (i : ℕ) (l : Live) (now : ℤ) : State :=
  let s := s.update i fun l => { l with waitTimer := false }
  if !l.serving && s.isCurrent i l then s.finish i l now else s

/-- The setting for undeclared ports has been read. -/
def scheduleFallback (s : State) (i : ℕ) (l : Live) (sec : ℤ) : State :=
  s.update i fun l' =>
    { l' with
      scheduling := false
      fallbackTimer := l'.fallbackTimer ||
        !(sec ≤ 0 || !s.isCurrent i l || l.row.declaredAt.isSome) }

def onFallback (s : State) (i : ℕ) (l : Live) (now : ℤ) : State :=
  s.update i fun l' =>
    let l' := { l' with fallbackTimer := false }
    if s.isCurrent i l && l.row.declaredAt.isNone && l.row.popupShownAt.isNone then
      l'.showPopup false now
    else l'

/-- A local probe has been answered. -/
def Live.probed (l : Live) (ok : Bool) (now : ℤ) : Live :=
  if ok then
    let l := { l with localFails := 0, pollTimer := true }
    if !l.serving then
      let l := { l with serving := true, waitTimer := false }
      (l.patch { firstScannedAt := some (some now) }).showPopup true now
    else l
  else if l.serving then { l with localFails := l.localFails + 1, pollTimer := true }
  else { l with pollTimer := true }

def onProbe (s : State) (i : ℕ) (l : Live) (ok : Bool) (now : ℤ) : State :=
  if !s.isCurrent i l then s.update i fun l => { l with probing := false }
  else if !ok && l.serving && localEndAfterFails ≤ l.localFails + 1 then
    (s.update i fun l => { l with probing := false, localFails := l.localFails + 1 }).finish i l now
  else s.update i fun l => { l with probing := false }.probed ok now

inductive Action
  | declare (workspaceId : Text) (args : Value) (now : ℤ)
  /-- A declaration hears of its workspace, or fails to. -/
  | workspace (n : ℕ) (found : Option (Option (WorkspaceKind × Bool))) (now : ℤ)
  | onSnapshot (workspaceId : Text) (ports : List ServingPort) (now : ℤ)
  | recordOpen (workspaceId : Text) (port : ℕ) (via : OpenVia)
  | recordDismiss (workspaceId : Text) (port : ℕ)
  | wait (i : ℕ) (now : ℤ)
  /-- The setting for undeclared ports is read, as zero if that fails. -/
  | setting (i : ℕ) (sec : ℤ)
  | fallback (i : ℕ) (now : ℤ)
  | poll (i : ℕ)
  | probed (i : ℕ) (ok : Bool) (now : ℤ)
  /-- The next write of an exposure reaches the sink. -/
  | land (i : ℕ)
  | settle (i : ℕ)
  /-- The turn of the next write that flushes wait for comes, and passes. -/
  | turn
  | pass
  | flush

def step (s : State) : Action → Option State
  | .declare workspaceId args now => some (s.declare workspaceId args now).1
  | .workspace n found now =>
    (s.calls[n]?).map fun c =>
      let s := { s with calls := s.calls.eraseIdx n }
      match found with
      | none => s
      | some workspace => (declared newId s c workspace now).1
  | .onSnapshot workspaceId ports now => some (onSnapshot newId s workspaceId ports now)
  | .recordOpen workspaceId port via => some (recordOpen s workspaceId port via)
  | .recordDismiss workspaceId port => some (recordDismiss s workspaceId port)
  | .wait i now =>
    (s.lives[i]?).bind fun l => if l.waitTimer then some (onWait s i l now) else none
  | .setting i sec =>
    (s.lives[i]?).bind fun l => if l.scheduling then some (scheduleFallback s i l sec) else none
  | .fallback i now =>
    (s.lives[i]?).bind fun l => if l.fallbackTimer then some (onFallback s i l now) else none
  | .poll i =>
    (s.lives[i]?).bind fun l =>
      if l.pollTimer then
        some (s.update i fun l => { l with pollTimer := false, probing := true })
      else none
  | .probed i ok now =>
    (s.lives[i]?).bind fun l => if l.probing then some (onProbe s i l ok now) else none
  | .land i =>
    (s.lives[i]?).bind fun l =>
      (l.writes[l.settled]?).bind fun w =>
        if l.landed = l.settled then
          some { s with
            lives := s.lives.set i { l with landed := l.landed + 1 }
            sink := w.apply s.sink
            log := s.log ++ [(i, w)] }
        else none
  | .settle i =>
    (s.lives[i]?).bind fun l =>
      if l.landed = l.settled + 1 then
        some { s with lives := s.lives.set i { l with settled := l.settled + 1 } }
      else none
  | .turn =>
    (s.allWrites[s.passed]?).bind fun q =>
      if s.awaiting.isNone then
        (s.lives[q.exposure]?).map fun l => { s with awaiting := some l.writes.length }
      else none
  | .pass =>
    (s.allWrites[s.passed]?).bind fun q =>
      (s.lives[q.exposure]?).bind fun l =>
        s.awaiting.bind fun n =>
          if n ≤ l.settled then some { s with passed := s.passed + 1, awaiting := none } else none
  | .flush =>
    some { s with
      flushes := s.flushes ++ [⟨s.allWrites.length, s.lives.map fun l => l.writes.length⟩] }

end Service

end ClaudeFleet.PortExposure
