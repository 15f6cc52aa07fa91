import ClaudeFleet.Transition

/-! The background capture scheduler: triggers from ingest and from search hits are judged, queued by
session, started two at a time, and admitted one after another against the interval and the daily
cap. Every await is a step; what a judgement reads is up to the environment, since it may be out of
date by the time it is used. -/
namespace ClaudeFleet.CaptureScheduler

inductive Visibility
  | fleet
  | priv
  deriving DecidableEq

structure CaptureSettings where
  enabled : Bool := true
  onSearchHit : Bool := true
  searchTopSessions : ℕ := 3
  recaptureAfterTurns : ℤ := 30
  contextBands : List ℚ := [17 / 20]
  turnsEvery : ℕ := 0
  model : String := "session"
  captureVisibility : Visibility := .fleet
  deriving DecidableEq

structure CaptureSignals where
  workspaceId : String
  model : Option String := none
  contextTokens : ℕ := 0
  userTurns : ℤ := 0
  compactions : ℕ := 0
  deriving DecidableEq

inductive RunStatus
  | running
  | done
  | failed
  | timedOut
  deriving DecidableEq

/-- A row of capture_runs. -/
structure CaptureRun where
  id : String
  workspaceId : String
  sessionId : String
  forkSessionId : String
  trigger : String
  status : RunStatus := .running
  startedAt : ℤ
  userTurns : Option ℤ := none
  visibility : Option Visibility := none
  compactions : Option ℕ := none
  deriving DecidableEq

structure Pending where
  workspaceId : String
  sessionId : String
  model : Option String := none
  userTurns : ℤ := 0
  trigger : String
  query : Option String := none
  queuedAt : ℤ
  compactions : ℕ := 0
  deriving DecidableEq

inductive SearchTool
  | searchTranscripts
  | searchClaims
  | query
  deriving DecidableEq

structure SearchHitEvent where
  callerWorkspaceId : String
  allowedWorkspaces : List String
  tool : SearchTool
  query : String
  sessionIds : List String

def maxConcurrentCaptures : ℕ := 2

def queueTtlMs : ℤ := 15 * 60000

def captureMinIntervalMs : ℤ := 10 * 60000

/-- The first of two rows by `started_at` and `id`, both descending. -/
def laterOf : Option CaptureRun → CaptureRun → Option CaptureRun
  | none, r => some r
  | some q, r =>
    if q.startedAt < r.startedAt ∨ q.startedAt = r.startedAt ∧ q.id < r.id then some r else some q

/-- `lastFor`: the run of the session that started last. -/
def lastFor (rows : List CaptureRun) (sessionId : String) : Option CaptureRun :=
  (rows.filter fun r => r.sessionId = sessionId).foldl laterOf none

/-- `countSince` -/
def countSince (rows : List CaptureRun) (ts : ℤ) : ℕ :=
  (rows.filter fun r => ts ≤ r.startedAt).length

/-- The queue is a map by session in the order of first insertion. -/
def enter (queue : List Pending) (p : Pending) : List Pending :=
  if queue.any fun q => q.sessionId = p.sessionId then
    queue.map fun q => if q.sessionId = p.sessionId then p else q
  else queue ++ [p]

/-- Where the promise chain `admitting` has a run. -/
inductive AdmitPc
  | waiting
  | last (now : ℤ)
  | gotLast (now : ℤ) (last : Option CaptureRun)
  | cap (now : ℤ)
  | count (now : ℤ)
  | counted (now : ℤ) (n : ℕ)
  | inserting (now : ℤ)

inductive IngestPc
  | automation
  | global
  | settings
  | signals (settings : CaptureSettings)
  | last (settings : CaptureSettings) (sig : CaptureSignals) (now : ℤ)

inductive SearchPc
  | global
  | caller
  | automation (caller : CaptureSettings) (sessionId : String) (rest : List String)
  | signals (caller : CaptureSettings) (sessionId : String) (rest : List String)
  | own (caller : CaptureSettings) (sessionId : String) (rest : List String) (sig : CaptureSignals)
  | last (caller : CaptureSettings) (sessionId : String) (rest : List String)
    (sig : CaptureSignals) (own : CaptureSettings) (now : ℤ)

/-- `ticket` is the place of an admission in the chain. -/
inductive RunPc
  | global
  | settings
  | target (visibility : Visibility)
  | admitting (forkSessionId : String) (visibility : Visibility) (ticket : ℕ) (pc : AdmitPc)
  | topics (runId : String)
  | executing (runId : String)
  | finishing (runId : String) (status : RunStatus)
  | refinishing (runId : String)

inductive Job
  | ingest (workspaceId sessionId : String) (pc : IngestPc)
  | search (e : SearchHitEvent) (pc : SearchPc)
  | run (p : Pending) (pc : RunPc)

/-- `decideCapture` with `seedCaptureState` and `policyFromSettings`: the policy may be any
function of its own state `P`. -/
structure Policy (P : Type) where
  seed : CaptureSignals → Option CaptureRun → CaptureSettings → P
  decide : CaptureSignals → P → CaptureSettings → ℤ → Option String × P

/-- `rows` and `clock` outlive the app; `settled` admissions of the chain have ended. -/
structure State (P : Type) where
  clock : ℤ
  rows : List CaptureRun
  policy : String → Option P
  lastStartedAt : String → Option ℤ
  queue : List Pending
  inFlight : Finset String
  inFlightWorkspaces : String → ℕ
  checking : Finset String
  forks : Finset String
  stopped : Bool
  dropped : ℕ
  next : ℕ
  jobs : ℕ → Option Job
  tickets : ℕ
  settled : ℕ

variable {P : Type}

namespace State

/-- The app's memory when it starts. -/
def start (clock : ℤ) (rows : List CaptureRun) (forks : Finset String) : State P where
  clock := clock
  rows := rows
  policy _ := none
  lastStartedAt _ := none
  queue := []
  inFlight := ∅
  inFlightWorkspaces _ := 0
  checking := ∅
  forks := forks
  stopped := false
  dropped := 0
  next := 0
  jobs _ := none
  tickets := 0
  settled := 0

def setJob (s : State P) (t : ℕ) (j : Job) : State P :=
  { s with jobs := Function.update s.jobs t (some j) }

def endJob (s : State P) (t : ℕ) : State P := { s with jobs := Function.update s.jobs t none }

def spawn (s : State P) (j : Job) : State P :=
  { s.setJob s.next j with next := s.next + 1 }

def recentlyStarted (s : State P) (sessionId : String) (now : ℤ) : Bool :=
  (s.lastStartedAt sessionId).any fun t => now - t < captureMinIntervalMs

def launch (s : State P) (p : Pending) : State P :=
  { s with
    inFlight := insert p.sessionId s.inFlight
    inFlightWorkspaces := Function.update s.inFlightWorkspaces p.workspaceId
      (s.inFlightWorkspaces p.workspaceId + 1) }.spawn (.run p .global)

theorem length_eraseP_lt {queue : List Pending} {f : Pending → Bool} {p : Pending}
    (h : queue.find? f = some p) :
    (queue.eraseP fun q => q.sessionId = p.sessionId).length < queue.length := by
  have hmem := List.mem_of_find?_eq_some h
  rw [List.length_eraseP_of_mem hmem (by simp)]
  have := List.length_pos_of_mem hmem
  omega

/-- The loop of `pump` -/
def pump (s : State P) : State P :=
  if s.stopped = false ∧ s.inFlight.card < maxConcurrentCaptures then
    match _h : s.queue.find? fun p => p.sessionId ∉ s.inFlight with
    | none => s
    | some p =>
      let s' := { s with queue := s.queue.eraseP fun q => q.sessionId = p.sessionId }
      if s.clock - p.queuedAt > queueTtlMs then s'.pump else (s'.launch p).pump
  else s
termination_by s.queue.length
decreasing_by
  · exact length_eraseP_lt _h
  · exact length_eraseP_lt _h

def enqueue (s : State P) (p : Pending) : State P := { s with queue := enter s.queue p }.pump

/-- The `finally` of a run in `pump`. -/
def endRun (s : State P) (t : ℕ) (p : Pending) : State P :=
  { s.endJob t with
    inFlight := s.inFlight.erase p.sessionId
    inFlightWorkspaces := Function.update s.inFlightWorkspaces p.workspaceId
      (s.inFlightWorkspaces p.workspaceId - 1) }.pump

end State

/-- What an await resolves to. `lost` is a store call that took effect and whose answer did not
arrive. -/
inductive Answer
  | failed
  | lost (id : String)
  | done
  | flag (b : Bool)
  | settings (o : Option CaptureSettings)
  | signals (o : Option CaptureSignals)
  | last (o : Option CaptureRun)
  | target (forkSessionId : Option String)
  | inserted (id : String)
  | exited (status : RunStatus)

def modelFor (settings : CaptureSettings) (sig : CaptureSignals) : Option String :=
  if settings.model = "session" then sig.model else some settings.model

variable (policy : Policy P)

namespace State

/-- The end of `onIngest`. -/
def endIngest (s : State P) (t : ℕ) (sessionId : String) : State P :=
  { s.endJob t with checking := s.checking.erase sessionId }

/-- `considerIngest` from the policy on. -/
def judgeIngest (s : State P) (t : ℕ) (workspaceId sessionId : String)
    (settings : CaptureSettings) (sig : CaptureSignals) (now : ℤ) (state : P) : State P :=
  let (trigger, next) := policy.decide sig state settings now
  let s' := { s with policy := Function.update s.policy sessionId (some next) }
  match trigger with
  | none => s'.endIngest t sessionId
  | some trigger =>
    (s'.enqueue
      { workspaceId := workspaceId, sessionId := sessionId, model := modelFor settings sig
        userTurns := sig.userTurns, compactions := sig.compactions, trigger := trigger
        queuedAt := now }).endIngest t sessionId

def resumeIngest (s : State P) (t : ℕ) (workspaceId sessionId : String) (pc : IngestPc) :
    Answer → Option (State P)
  | .failed => some (s.endIngest t sessionId)
  | .flag b =>
    match pc with
    | .automation =>
      some (if b then s.endIngest t sessionId
        else s.setJob t (.ingest workspaceId sessionId .global))
    | .global =>
      some (if b then s.setJob t (.ingest workspaceId sessionId .settings)
        else s.endIngest t sessionId)
    | _ => none
  | .settings o =>
    match pc, o with
    | .settings, some settings =>
      some (if settings.enabled then s.setJob t (.ingest workspaceId sessionId (.signals settings))
        else s.endIngest t sessionId)
    | .settings, none => some (s.endIngest t sessionId)
    | _, _ => none
  | .signals o =>
    match pc, o with
    | .signals settings, some sig =>
      some (if s.recentlyStarted sessionId s.clock then s.endIngest t sessionId
        else
          match s.policy sessionId with
          | some state =>
            s.judgeIngest policy t workspaceId sessionId settings sig s.clock state
          | none => s.setJob t (.ingest workspaceId sessionId (.last settings sig s.clock)))
    | .signals _, none => some (s.endIngest t sessionId)
    | _, _ => none
  | .last o =>
    match pc with
    | .last settings sig now =>
      some (s.judgeIngest policy t workspaceId sessionId settings sig now
        (policy.seed sig o settings))
    | _ => none
  | _ => none

/-- The loop of `considerSearch`, up to its next await. -/
def searchLoop (s : State P) (t : ℕ) (e : SearchHitEvent) (caller : CaptureSettings) :
    List String → State P
  | [] => s.endJob t
  | sessionId :: rest =>
    if sessionId ∈ s.forks ∨ sessionId ∈ s.inFlight then s.searchLoop t e caller rest
    else s.setJob t (.search e (.automation caller sessionId rest))

/-- `considerSearch` from `own` to `lastFor`. -/
def judgeOwn (s : State P) (t : ℕ) (e : SearchHitEvent) (caller : CaptureSettings)
    (sessionId : String) (rest : List String) (sig : CaptureSignals)
    (own : Option CaptureSettings) : State P :=
  match own with
  | some own =>
    if own.enabled ∧ s.recentlyStarted sessionId s.clock = false then
      s.setJob t (.search e (.last caller sessionId rest sig own s.clock))
    else s.searchLoop t e caller rest
  | none => s.searchLoop t e caller rest

/-- `considerSearch` after `lastFor`: too soon, or too few turns since. -/
def tooSoon (last : Option CaptureRun) (sig : CaptureSignals) (own : CaptureSettings) (now : ℤ) :
    Bool :=
  last.any fun r => now - r.startedAt < captureMinIntervalMs ∨
    sig.userTurns - r.userTurns.getD 0 < own.recaptureAfterTurns

def resumeSearch (s : State P) (t : ℕ) (e : SearchHitEvent) (pc : SearchPc) :
    Answer → Option (State P)
  | .failed => some (s.endJob t)
  | .flag b =>
    match pc with
    | .global => some (if b then s.setJob t (.search e .caller) else s.endJob t)
    | .automation caller sessionId rest =>
      some (if b then s.searchLoop t e caller rest
        else s.setJob t (.search e (.signals caller sessionId rest)))
    | _ => none
  | .settings o =>
    match pc with
    | .caller =>
      match o with
      | some caller =>
        some (if caller.enabled ∧ caller.onSearchHit then
            s.searchLoop t e caller (e.sessionIds.eraseDups.take caller.searchTopSessions)
          else s.endJob t)
      | none => some (s.endJob t)
    | .own caller sessionId rest sig => some (s.judgeOwn t e caller sessionId rest sig o)
    | _ => none
  | .signals o =>
    match pc, o with
    | .signals caller sessionId rest, some sig =>
      some (if sig.workspaceId ∉ e.allowedWorkspaces then s.searchLoop t e caller rest
        else if sig.workspaceId = e.callerWorkspaceId then
          s.judgeOwn t e caller sessionId rest sig (some caller)
        else s.setJob t (.search e (.own caller sessionId rest sig)))
    | .signals caller _ rest, none => some (s.searchLoop t e caller rest)
    | _, _ => none
  | .last o =>
    match pc with
    | .last caller sessionId rest sig own now =>
      some (if tooSoon o sig own now then s.searchLoop t e caller rest
        else
          (s.enqueue
            { workspaceId := sig.workspaceId, sessionId := sessionId, model := modelFor own sig
              userTurns := sig.userTurns, compactions := sig.compactions, trigger := "search"
              query := some (if e.tool = .query then "SQL: " ++ e.query else e.query)
              queuedAt := now }).searchLoop t e caller rest)
    | _ => none
  | _ => none

variable (cap : ℕ) (startOfLocalDay : ℤ → ℤ)

/-- The admission ends without a run. -/
def dropRun (s : State P) (t : ℕ) (p : Pending) : State P :=
  { s with settled := s.settled + 1 }.endRun t p

/-- `runs.start` -/
def book (s : State P) (p : Pending) (forkSessionId : String) (visibility : Visibility) (now : ℤ)
    (id : String) : State P :=
  { s with
    rows := s.rows ++
      [{ id := id, workspaceId := p.workspaceId, sessionId := p.sessionId
         forkSessionId := forkSessionId, trigger := p.trigger, startedAt := now
         userTurns := some p.userTurns, visibility := some visibility
         compactions := some p.compactions }] }

/-- The body of `admit`, once its turn in the chain has come. -/
def resumeAdmit (s : State P) (t : ℕ) (p : Pending) (fork : String) (visibility : Visibility)
    (ticket : ℕ) (pc : AdmitPc) (a : Answer) : Option (State P) :=
  let goto := fun (s : State P) pc => s.setJob t (.run p (.admitting fork visibility ticket pc))
  match pc, a with
  | .waiting, .done =>
    if s.settled = ticket then
      some (if s.recentlyStarted p.sessionId s.clock then s.dropRun t p
        else goto s (.last s.clock))
    else none
  | .last now, .done => some (goto s (.gotLast now (lastFor s.rows p.sessionId)))
  | .gotLast now last, .done =>
    some (if last.any fun r => now - r.startedAt < captureMinIntervalMs then s.dropRun t p
      else goto s (.cap now))
  | .cap now, .done => some (goto s (.count now))
  | .count now, .done => some (goto s (.counted now (countSince s.rows (startOfLocalDay now))))
  | .counted now n, .done =>
    some (if cap ≤ n then { s with dropped := s.dropped + 1 }.dropRun t p
      else
        goto { s with
          lastStartedAt := Function.update s.lastStartedAt p.sessionId (some now)
          forks := insert fork s.forks } (.inserting now))
  | .inserting now, .inserted id =>
    some ({ s.book p fork visibility now id with settled := s.settled + 1 }.setJob t
      (.run p (.topics id)))
  | .inserting now, .lost id => some ((s.book p fork visibility now id).dropRun t p)
  | .last _, .failed | .cap _, .failed | .count _, .failed | .inserting _, .failed =>
    some (s.dropRun t p)
  | _, _ => none

/-- `runs.finish` -/
def finish (s : State P) (id : String) (status : RunStatus) : State P :=
  { s with rows := s.rows.map fun r => if r.id = id then { r with status := status } else r }

def resumeRun (s : State P) (t : ℕ) (p : Pending) (pc : RunPc) (a : Answer) : Option (State P) :=
  match pc, a with
  | .global, .flag b => some (if b then s.setJob t (.run p .settings) else s.endRun t p)
  | .settings, .settings o =>
    some (match o with
      | some settings =>
        if settings.enabled then s.setJob t (.run p (.target settings.captureVisibility))
        else s.endRun t p
      | none => s.endRun t p)
  | .target visibility, .target o =>
    some (match o with
      | some fork =>
        { s with tickets := s.tickets + 1 }.setJob t
          (.run p (.admitting fork visibility s.tickets .waiting))
      | none => s.endRun t p)
  | .global, .failed | .settings, .failed | .target _, .failed => some (s.endRun t p)
  | .admitting fork visibility ticket pc, a =>
    s.resumeAdmit cap startOfLocalDay t p fork visibility ticket pc a
  -- a failed topics lookup is no failure of the run
  | .topics id, .done | .topics id, .failed => some (s.setJob t (.run p (.executing id)))
  | .executing id, .exited status => some (s.setJob t (.run p (.finishing id status)))
  | .executing id, .failed => some (s.setJob t (.run p (.refinishing id)))
  | .finishing id status, .done => some ((s.finish id status).endRun t p)
  | .finishing id status, .lost _ => some ((s.finish id status).setJob t (.run p (.refinishing id)))
  | .finishing id _, .failed => some (s.setJob t (.run p (.refinishing id)))
  | .refinishing id, .done | .refinishing id, .lost _ => some ((s.finish id .failed).endRun t p)
  | .refinishing _, .failed => some (s.endRun t p)
  | _, _ => none

end State

inductive Action
  | onIngest (workspaceId sessionId : String)
  | onSearchHit (e : SearchHitEvent)
  | resume (t : ℕ) (a : Answer)
  | tick (ms : ℕ)
  | stop
  | resumeAll
  | restart (seeded : Bool)
  | failRunning

variable (cap : ℕ) (startOfLocalDay : ℤ → ℤ)

def step (s : State P) : Action → Option (State P)
  | .onIngest workspaceId sessionId =>
    if s.stopped ∨ sessionId ∈ s.forks ∨ sessionId ∈ s.checking then some s
    else
      some ({ s with checking := insert sessionId s.checking }.spawn
        (.ingest workspaceId sessionId .automation))
  | .onSearchHit e =>
    -- a fork's own search is no hit
    if s.stopped ∨ e.sessionIds = [] ∨ s.inFlightWorkspaces e.callerWorkspaceId ≠ 0 then some s
    else some (s.spawn (.search e .global))
  | .resume t a =>
    match s.jobs t with
    | some (.ingest workspaceId sessionId pc) => s.resumeIngest policy t workspaceId sessionId pc a
    | some (.search e pc) => s.resumeSearch t e pc a
    | some (.run p pc) => s.resumeRun cap startOfLocalDay t p pc a
    | none => none
  | .tick ms => some { s with clock := s.clock + ms }
  | .stop => some { s with stopped := true, queue := [] }
  | .resumeAll => some { s with stopped := false }
  | .restart seeded =>
    some (.start s.clock s.rows (if seeded then (s.rows.map CaptureRun.forkSessionId).toFinset
      else ∅))
  | .failRunning =>
    some { s with
      rows := s.rows.map fun r => if r.status = .running then { r with status := .failed } else r }

end ClaudeFleet.CaptureScheduler
