import ClaudeFleet.Transition

/-! The fenced singleton lease. `memoryLeaseStore` is one row; a `LeaseManager` acquires,
renews and gives it up through store calls that take effect at an arbitrary later moment.
Clock readings are integers: the store's clock is `time`, and each manager's monotonic
clock reads `time + offset` for an arbitrary origin. A store shared between managers
judges expiry on its own clock, so a call runs with the store clock of its execution. -/
namespace ClaudeFleet.Lease

structure LeaseRow where
  holder : Option String
  epoch : ℕ
  expiresAt : ℤ
  deriving DecidableEq, Repr

def memoryLeaseStore : LeaseRow := ⟨none, 0, 0⟩

def tryAcquire (row : LeaseRow) (holder : String) (now : ℤ) (ttlMs : ℕ) : LeaseRow × Option ℕ :=
  if row.holder ≠ none ∧ row.holder ≠ some holder ∧ row.expiresAt > now then (row, none)
  else (⟨some holder, row.epoch + 1, now + ttlMs⟩, some (row.epoch + 1))

def renew (row : LeaseRow) (holder : String) (epoch : ℕ) (now : ℤ) (ttlMs : ℕ) :
    LeaseRow × Bool :=
  if row.holder ≠ some holder ∨ row.epoch ≠ epoch then (row, false)
  else ({ row with expiresAt := now + ttlMs }, true)

def release (row : LeaseRow) (holder : String) (epoch : ℕ) : LeaseRow :=
  if row.holder = some holder ∧ row.epoch = epoch then { row with holder := none, expiresAt := 0 }
  else row

inductive LeaseState
  | standby
  | holder
  deriving DecidableEq, Repr

inductive LostReason
  | superseded
  | unreachable
  deriving DecidableEq, Repr

inductive LeaseEvent
  | acquired (epoch : ℕ)
  | lost (reason : LostReason)
  deriving DecidableEq, Repr

/-- A manager's options; the constructor throws unless `renewMs < ttlMs`. -/
structure LeaseOptions where
  holder : String
  renewMs : ℕ
  ttlMs : ℕ
  offset : ℤ
  renew_lt_ttl : renewMs < ttlMs

/-- What the step in flight awaits: a store call, with the monotonic time `m` it captured. -/
inductive Awaiting
  | tryAcquire (call : ℕ) (m : ℤ)
  | renew (call : ℕ) (m : ℤ)
  | release (call : ℕ)
  deriving DecidableEq, Repr

structure LeaseManager where
  state : LeaseState := .standby
  epoch : ℕ := 0
  deadline : ℤ := 0
  deadlineTimer : Bool := false
  timer : Bool := false
  ticking : Option Awaiting := none
  stopped : Bool := false
  stopping : ℕ := 0
  emitted : List LeaseEvent := []
  deriving DecidableEq, Repr

namespace LeaseManager

def halt (m : LeaseManager) : LeaseManager :=
  { m with stopped := true, timer := false, deadlineTimer := false }

def lose (m : LeaseManager) (reason : LostReason) : LeaseManager :=
  if m.state ≠ .holder then m
  else { ({ m with state := .standby } : LeaseManager).halt with
    emitted := m.emitted ++ [.lost reason] }

def extend (m : LeaseManager) (o : LeaseOptions) (start : ℤ) : LeaseManager :=
  { m with deadline := start + o.ttlMs - o.renewMs, deadlineTimer := true }

def acquired (m : LeaseManager) (epoch : ℕ) : LeaseManager :=
  { m with state := .holder, epoch := epoch, emitted := m.emitted ++ [.acquired epoch] }

end LeaseManager

inductive StoreOp
  | tryAcquire
  | renew (epoch : ℕ)
  | release (epoch : ℕ)
  deriving DecidableEq, Repr

inductive StoreReply
  | epoch (granted : Option ℕ)
  | renewed (ok : Bool)
  | released
  deriving DecidableEq, Repr

/-- A store call; `reply` is set when the store has executed it. -/
structure StoreCall (ι : Type) where
  who : ι
  op : StoreOp
  reply : Option StoreReply

structure System (ι : Type) where
  row : LeaseRow
  time : ℤ
  managers : ι → LeaseManager
  calls : ℕ → Option (StoreCall ι)
  nextCall : ℕ

inductive Action (ι : Type)
  | advance (elapsed : ℕ)
  | start (i : ι)
  | tick (i : ι)
  | execute (call : ℕ)
  | reply (i : ι)
  | timeout (i : ι)
  | reject (i : ι)
  | deadlineTimer (i : ι)
  | markLost (i : ι)
  | stop (i : ι)
  | stopResume (i : ι)

variable {ι : Type} [DecidableEq ι] (o : ι → LeaseOptions)

def mono (s : System ι) (i : ι) : ℤ := s.time + (o i).offset

/-- The `state` getter. -/
def state (s : System ι) (i : ι) : LeaseState :=
  if (s.managers i).state = .holder ∧ mono o s i ≥ (s.managers i).deadline then .standby
  else (s.managers i).state

def setManager (s : System ι) (i : ι) (m : LeaseManager) : System ι :=
  { s with managers := Function.update s.managers i m }

/-- Issue a store call for `i` and leave its manager as `m`. -/
def issue (s : System ι) (i : ι) (op : StoreOp) (m : LeaseManager) : System ι :=
  { setManager s i m with
    calls := Function.update s.calls s.nextCall (some ⟨i, op, none⟩)
    nextCall := s.nextCall + 1 }

def execute (row : LeaseRow) (time : ℤ) (p : LeaseOptions) : StoreOp → LeaseRow × StoreReply
  | .tryAcquire =>
    let r := tryAcquire row p.holder time p.ttlMs
    (r.1, .epoch r.2)
  | .renew epoch =>
    let r := renew row p.holder epoch time p.ttlMs
    (r.1, .renewed r.2)
  | .release epoch => (release row p.holder epoch, .released)

/-- `tick`: concurrent calls share the step in flight; otherwise `step` runs to its first await. -/
def tick (s : System ι) (i : ι) : System ι :=
  let m := s.managers i
  if m.ticking ≠ none ∨ m.stopped then s
  else if m.state = .standby then
    issue s i .tryAcquire { m with ticking := some (.tryAcquire s.nextCall (mono o s i)) }
  else if mono o s i ≥ m.deadline then setManager s i (m.lose .unreachable)
  else issue s i (.renew m.epoch) { m with ticking := some (.renew s.nextCall (mono o s i)) }

/-- The awaited store call answered: `step` resumes. -/
def resume (s : System ι) (i : ι) (m : LeaseManager) :
    Awaiting → StoreReply → Option (System ι)
  | .tryAcquire _ _, .epoch none => some (setManager s i { m with ticking := none })
  | .tryAcquire _ t, .epoch (some e) =>
    if m.stopped then
      some (issue s i (.release e) { m with ticking := some (.release s.nextCall) })
    else
      let m' : LeaseManager := { m with ticking := none }
      some (setManager s i ((m'.acquired e).extend (o i) t))
  | .renew _ t, .renewed true =>
    let m' : LeaseManager := { m with ticking := none }
    some (setManager s i (if m.state = .holder ∧ m.stopped = false then m'.extend (o i) t else m'))
  | .renew _ _, .renewed false =>
    let m' : LeaseManager := { m with ticking := none }
    some (setManager s i (m'.lose .superseded))
  | .release _, .released => some (setManager s i { m with ticking := none })
  | _, _ => none

/-- `step`'s catch block, for a store call that timed out or rejected otherwise. -/
def failed (s : System ι) (i : ι) (timedOut : Bool) : Option (System ι) :=
  let m := s.managers i
  let m' : LeaseManager := { m with ticking := none }
  match m.ticking with
  | none => none
  | some (.release _) => some (setManager s i m')
  | some _ =>
    some (setManager s i
      (if m.state = .holder ∧ (timedOut ∨ mono o s i ≥ m.deadline) then m'.lose .unreachable
      else m'))

/-- The end of `stop`, after its wait for the step in flight. -/
def finishStop (s : System ι) (i : ι) (m : LeaseManager) : System ι :=
  if m.state = .holder then issue s i (.release m.epoch) { m with state := .standby }
  else setManager s i { m with state := .standby }

def Awaiting.call : Awaiting → ℕ
  | .tryAcquire c _ => c
  | .renew c _ => c
  | .release c => c

def step (s : System ι) : Action ι → Option (System ι)
  | .advance elapsed => some { s with time := s.time + elapsed }
  | .start i =>
    let m := s.managers i
    if m.timer ∨ m.stopped then some s
    else some (tick o (setManager s i { m with timer := true }) i)
  | .tick i => some (tick o s i)
  | .execute c =>
    match s.calls c with
    | some ⟨i, op, none⟩ =>
      let r := execute s.row s.time (o i) op
      some { s with
        row := r.1
        calls := Function.update s.calls c (some ⟨i, op, some r.2⟩) }
    | _ => none
  | .reply i =>
    match (s.managers i).ticking with
    | none => none
    | some a =>
      match (s.calls a.call).bind StoreCall.reply with
      | none => none
      | some r => resume o s i (s.managers i) a r
  | .timeout i => failed o s i true
  | .reject i => failed o s i false
  | .deadlineTimer i =>
    let m : LeaseManager := { s.managers i with deadlineTimer := false }
    if (s.managers i).deadlineTimer = false then none
    else if m.state ≠ .holder ∨ m.stopped then some (setManager s i m)
    else if mono o s i ≥ m.deadline then some (setManager s i (m.lose .unreachable))
    else some (setManager s i { m with deadlineTimer := true })
  | .markLost i => some (setManager s i ((s.managers i).lose .superseded))
  | .stop i =>
    let m := (s.managers i).halt
    if m.ticking = none then some (finishStop s i m)
    else some (setManager s i { m with stopping := m.stopping + 1 })
  | .stopResume i =>
    let m := s.managers i
    if m.stopping = 0 then none else some (finishStop s i { m with stopping := m.stopping - 1 })

/-- Freshly constructed managers on a store whose row is arbitrary. -/
def initial (row : LeaseRow) (time : ℤ) : System ι :=
  ⟨row, time, fun _ => {}, fun _ => none, 0⟩

end ClaudeFleet.Lease
