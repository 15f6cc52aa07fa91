import Mathlib.Tactic
import Mathlib.Order.Bounds.Basic
import ClaudeFleet.Transition
import ClaudeFleet.Automations

/-! The schedule ticks of the automation service, one at a time, among edits, switches and the
next fires that ending runs choose. A tick decides on the rows it listed, commits each fire by
conditional writes and only then starts it; every store call is one step. The log records what was
committed and started. -/
namespace ClaudeFleet.Automations
open Transition

/-- How a start ended; a refusal leaves no run. -/
inductive StartOutcome
  | run
  | queued
  | skipped (error : String)
  | failed (message : String)
  | refused (error : StartError)
  deriving DecidableEq

/-- `start` for a due schedule, with what it makes of its errors. -/
def startDue (deps : Deps) (id : String) (due : Due) (row : Option AutomationRecord) (now : ℤ)
    (st : Standing) : StartOutcome :=
  let req : RunRequest :=
    { kind := due.kind, cron := due.cron, args := due.args.map fun kv => (kv.1, .value kv.2) }
  match startGates deps id req row with
  | .error (.disabled name) => .refused (.disabled name)
  | .error (.refused name reasons) => .refused (.refused name reasons)
  | .error e => .failed e.message
  | .ok (a, _) =>
    match beginRun a req now st with
    | .rateSkipped => .skipped "rate limit: at most one run per minute"
    | .busySkipped => .skipped "a run was already in progress"
    | .queue => .queued
    | .run => .run

/-- A due row whose first conditional write went through. -/
structure Fire where
  number : ℕ
  now : ℤ
  listed : AutomationRecord
  due : Due
  deriving DecidableEq

inductive Event
  | edited (id : String)
  | switched (id : String) (enabled : Bool)
  /-- The write of `settleNext`. -/
  | chosen (id : String) (run : ℕ) (time : ℤ)
  /-- The first conditional write of a fire, with the row it met. -/
  | guarded (fire : Fire) (row : AutomationRecord)
  /-- The second one: the next fire that `run` chose is taken. -/
  | consumed (fire : Fire) (run : ℕ)
  | started (fire : Fire) (outcome : StartOutcome)
  deriving DecidableEq

inductive TickPc
  | idle
  | listing (now : ℤ)
  | rows (now : ℤ) (rest : List AutomationRecord)
  | clearing (fire : Fire) (rest : List AutomationRecord)
  | starting (fire : Fire) (rest : List AutomationRecord)
  deriving DecidableEq

/-- `settleNext` under way for a run of an automation at a version. -/
structure Settle where
  id : String
  version : ℕ
  succeeded : Bool
  requestedAt : ℤ
  now : ℤ
  /-- The time to write, once the row has been read. -/
  applied : Option ℤ
  deriving DecidableEq

structure State where
  table : Rows
  /-- The latest time any call has read. -/
  clock : ℤ
  tick : TickPc := .idle
  settles : ℕ → Option Settle := fun _ => none
  /-- The runs so far; each settles once. -/
  runs : ℕ := 0
  fires : ℕ := 0
  log : List Event := []

inductive Action
  | tick (now : ℤ)
  /-- The tick's next store call, with what a start then finds. -/
  | advance (now : ℤ) (st : Standing)
  | update (id : String) (d : AutomationDef) (expectedVersion : Option ℕ)
  | setEnabled (id : String) (enabled : Bool) (now : ℤ)
  | settle (id : String) (version : ℕ) (succeeded : Bool) (requestedAt : ℤ) (now : ℤ)
  | settleRead (run : ℕ)
  | settleWrite (run : ℕ)

variable {Spec : Type} (crons : Crons Spec) (deps : Deps)

def Fire.guard (f : Fire) : WriteGuard := ⟨f.listed.version, some f.listed.nextRunAt⟩

def State.record (s : State) (e : Event) : State := { s with log := s.log ++ [e] }

/-- Only a fire that a run chose has a second write. -/
def afterGuard (f : Fire) (rest : List AutomationRecord) : TickPc :=
  if f.due.kind = .rescheduled then .clearing f rest else .starting f rest

/-- One listed row: if it is due, its first conditional write. -/
def stepRow (s : State) (now : ℤ) (a : AutomationRecord) (rest : List AutomationRecord) : State :=
  match dueSchedule crons a now with
  | none => { s with tick := .rows now rest }
  | some due =>
    let f : Fire := ⟨s.fires, now, a, due⟩
    match s.table.get a.id with
    | none => { s with tick := .rows now rest }
    | some row =>
      let w := setLastScheduled s.table a.id now f.guard
      if w.2 then
        ({ s with table := w.1, fires := s.fires + 1,
                  tick := afterGuard f rest } : State).record (.guarded f row)
      else { s with tick := .rows now rest }

/-- The second conditional write of a fire that a run chose. -/
def stepClear (s : State) (f : Fire) (rest : List AutomationRecord) : State :=
  let w := setNextRun s.table f.listed.id none f.guard
  if w.2 then
    ({ s with table := w.1, tick := .starting f rest } : State).record
      (.consumed f (((s.table.get f.listed.id).bind (·.nextRunBy)).getD 0))
  else { s with tick := .rows f.now rest }

def stepTick (s : State) (now : ℤ) (st : Standing) : Option State :=
  match s.tick with
  | .idle => none
  | .listing t => some { s with tick := .rows t (list s.table) }
  | .rows _ [] => some { s with tick := .idle }
  | .rows t (a :: rest) => some (stepRow crons s t a rest)
  | .clearing f rest => some (stepClear s f rest)
  | .starting f rest =>
    some (({ s with tick := .rows f.now rest } : State).record
      (.started f (startDue deps f.listed.id f.due (s.table.get f.listed.id) now st)))

/-- `settleNext` once it has the row: the time to write, if the run went well and the automation
is unchanged. -/
def Settle.decide (w : Settle) (cur : Option AutomationRecord) : Option ℤ :=
  match cur with
  | none => none
  | some cur =>
    match cur.definition.reschedule.bind parseDuration with
    | none => none
    | some floorMs =>
      if w.succeeded && cur.enabled && cur.version == w.version then
        some (applyFloor w.requestedAt w.now floorMs)
      else none

def State.setSettle (s : State) (n : ℕ) (o : Option Settle) : State :=
  { s with settles := Function.update s.settles n o }

/-- Conditional in the store: an edit or switch after the read wins over the run's request. -/
def stepSettleWrite (s : State) (n : ℕ) (w : Settle) (time : ℤ) : State :=
  let r := setNextRun s.table w.id (some (time, n)) ⟨w.version, none⟩
  if r.2 then (({ s with table := r.1 } : State).setSettle n none).record (.chosen w.id n time)
  else s.setSettle n none

def step (s : State) : Action → Option State
  | .tick now =>
    if s.tick = .idle ∧ s.clock ≤ now then some { s with clock := now, tick := .listing now }
    else none
  | .advance now st => stepTick crons deps s now st
  | .update id d expectedVersion =>
    some (match update s.table id d expectedVersion with
      | none => s
      | some T => ({ s with table := T } : State).record (.edited id))
  | .setEnabled id enabled now =>
    if s.clock ≤ now then
      some (({ s with table := setEnabled s.table id enabled now, clock := now } : State).record
        (.switched id enabled))
    else none
  | .settle id version succeeded requestedAt now =>
    if s.clock ≤ now then
      some (({ s with clock := now, runs := s.runs + 1 } : State).setSettle s.runs
        (some ⟨id, version, succeeded, requestedAt, now, none⟩))
    else none
  | .settleRead n =>
    match s.settles n with
    | some ⟨id, version, succeeded, requestedAt, now, none⟩ =>
      let w : Settle := ⟨id, version, succeeded, requestedAt, now, none⟩
      match w.decide (s.table.get id) with
      | none => some (s.setSettle n none)
      | some time => some (s.setSettle n (some { w with applied := some time }))
    | _ => none
  | .settleWrite n =>
    match s.settles n with
    | some w => w.applied.map (stepSettleWrite s n w)
    | none => none

end ClaudeFleet.Automations
