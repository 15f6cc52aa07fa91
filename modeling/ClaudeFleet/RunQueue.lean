import Mathlib.Tactic
import ClaudeFleet.Automations
import ClaudeFleet.JsMap
import ClaudeFleet.Transition

/-! The runs of the automations: a request claims its automation or waits in its queue, and a run
that ends hands the claim to the one that waits. Any store call may fail. -/
namespace ClaudeFleet.RunQueue
open Automations Transition

inductive Status
  | queued
  | running
  | ended
  deriving DecidableEq

/-- A row of the runs table. -/
structure Run where
  automationId : String
  version : ℕ
  request : RunRequest
  args : Args
  status : Status
  deriving DecidableEq

/-- Where a call stands: the store call, or the promise, that it waits for. -/
inductive Pc
  | idle
  /-- `start` waits for the row of the automation. -/
  | asked (id : String) (req : RunRequest)
  | looked (id : String) (req : RunRequest) (row : Option AutomationRecord)
  /-- The automation is claimed, and the row of the run is being written. -/
  | inserting (a : AutomationRecord) (req : RunRequest) (args : Args)
  | enqueuing (a : AutomationRecord) (req : RunRequest) (args : Args)
  /-- The row of a skipped run is being written. -/
  | recording (a : AutomationRecord) (req : RunRequest) (args : Args)
  /-- The promise of the call is settled, with a run or with an error. -/
  | settled (r : Option ℕ)
  | executing (a : AutomationRecord) (r : ℕ)
  /-- The outcome of the run is being written. -/
  | ending (a : AutomationRecord) (r : ℕ)
  /-- `settleNext` is under way. -/
  | settling (a : AutomationRecord) (r : ℕ)
  /-- The run has ended and waits for the promise of the queued one. -/
  | promoting (a : AutomationRecord) (t : ℕ)
  | rereading (a : AutomationRecord) (q : ℕ)
  | marking (a : AutomationRecord) (q : ℕ)
  | fetching (a : AutomationRecord) (q : ℕ)
  | finished
  deriving DecidableEq

/-- A run that begins to execute. -/
structure Beginning where
  automation : AutomationRecord
  request : RunRequest
  args : Args
  promoted : Bool
  deriving DecidableEq

/-- `calls` are the calls of `start`, each going on as the execution of its run; `begun` and
`claims` record what began and when an automation was claimed. -/
structure State where
  rows : Rows := Table.empty
  runs : List Run := []
  claimed : Finset String := ∅
  queued : JsMap String ℕ := JsMap.empty
  lastStart : String → Option ℤ := fun _ => none
  now : ℤ := 0
  calls : ℕ → Pc := fun _ => .idle
  begun : List Beginning := []
  claims : List (String × RunRequest × ℤ) := []

inductive Action
  | ask (p : ℕ) (id : String) (req : RunRequest)
  /-- What call `p` waits for is there, and it goes on to the next such point. -/
  | go (p : ℕ)
  /-- The store call of `p` rejects, after its write has landed or without it. -/
  | fail (p : ℕ) (landed : Bool)
  /-- Automations are created, edited, switched or removed. -/
  | write (rows : Rows)
  | wait (ms : ℕ)

namespace State

def goto (s : State) (p : ℕ) (pc : Pc) : State := { s with calls := Function.update s.calls p pc }

def insertRun (s : State) (run : Run) : State := { s with runs := s.runs ++ [run] }

def setRunStatus (s : State) (r : ℕ) (status : Status) : State :=
  { s with runs := s.runs.modify r fun run => { run with status := status } }

def release (s : State) (id : String) : State := { s with claimed := s.claimed.erase id }

def standing (s : State) (id : String) : Standing :=
  ⟨id ∈ s.claimed, (s.queued.get? id).isSome, s.lastStart id⟩

/-- `execute` begins. -/
def begin (s : State) (p : ℕ) (a : AutomationRecord) (r : ℕ) (run : Run) (promoted : Bool) :
    State :=
  { s.goto p (.executing a r) with begun := s.begun ++ [⟨a, run.request, run.args, promoted⟩] }

def newRun (a : AutomationRecord) (req : RunRequest) (args : Args) (status : Status) : Run :=
  ⟨a.id, a.version, req, args, status⟩

end State

open State

/-- The part of `start` that runs at once, after the row is read. -/
def admitted (deps : Deps) (s : State) (p : ℕ) (id : String) (req : RunRequest)
    (row : Option AutomationRecord) : State :=
  match startGates deps id req row with
  | .error _ => s.goto p (.settled none)
  | .ok (a, args) =>
    match beginRun a req s.now (s.standing a.id) with
    | .rateSkipped => s.goto p (.recording a req args)
    | .busySkipped => s.goto p (.recording a req args)
    | .queue => { s.goto p (.enqueuing a req args) with queued := s.queued.set a.id p }
    | .run =>
      { s.goto p (.inserting a req args) with
        claimed := insert a.id s.claimed
        lastStart := Function.update s.lastStart a.id (some s.now)
        claims := s.claims ++ [(a.id, req, s.now)] }

/-- The end of a run, once its status and its next fire are written: the queued run is taken. -/
def handOn (s : State) (p : ℕ) (a : AutomationRecord) : State :=
  match s.queued.get? a.id with
  | none => (s.goto p .finished).release a.id
  | some t => { s.goto p (.promoting a t) with queued := s.queued.delete a.id }

def go (deps : Deps) (s : State) (p : ℕ) : Option State :=
  match s.calls p with
  | .asked id req => some (s.goto p (.looked id req (s.rows.get id)))
  | .looked id req row => some (admitted deps s p id req row)
  | .inserting a req args =>
    some ((s.insertRun (newRun a req args .running)).begin p a s.runs.length
      (newRun a req args .running) false)
  | .enqueuing a req args =>
    some ((s.insertRun (newRun a req args .queued)).goto p (.settled (some s.runs.length)))
  | .recording a req args =>
    some ((s.insertRun (newRun a req args .ended)).goto p (.settled (some s.runs.length)))
  | .executing a r => some (s.goto p (.ending a r))
  | .ending a r => some ((s.setRunStatus r .ended).goto p (.settling a r))
  | .settling a _ => some (handOn s p a)
  | .promoting a t =>
    match s.calls t with
    | .settled (some q) => some (s.goto p (.rereading a q))
    | .settled none => some ((s.goto p .finished).release a.id)
    | _ => none
  | .rereading a q =>
    match s.rows.get a.id with
    | none => some ((s.goto p .finished).release a.id)
    | some cur => some (s.goto p (.marking cur q))
  | .marking a q => some ((s.setRunStatus q .running).goto p (.fetching a q))
  | .fetching a q => (s.runs[q]?).map fun run => s.begin p a q run true
  | .idle => none
  | .settled _ => none
  | .finished => none

/-- A rejected store call: `start` throws, and the end of a run releases its claim. -/
def fail (s : State) (p : ℕ) (landed : Bool) : Option State :=
  match s.calls p with
  | .asked _ _ => some (s.goto p (.settled none))
  | .inserting a req args =>
    some (((if landed then s.insertRun (newRun a req args .running) else s).goto p
      (.settled none)).release a.id)
  | .enqueuing a req args =>
    let t := (if landed then s.insertRun (newRun a req args .queued) else s).goto p (.settled none)
    some (if s.queued.get? a.id = some p then { t with queued := s.queued.delete a.id } else t)
  | .recording a req args =>
    some ((if landed then s.insertRun (newRun a req args .ended) else s).goto p (.settled none))
  | .ending a r =>
    some (((if landed then s.setRunStatus r .ended else s).goto p .finished).release a.id)
  | .settling a _ => some ((s.goto p .finished).release a.id)
  | .rereading a _ => some ((s.goto p .finished).release a.id)
  | .marking a q =>
    some (((if landed then s.setRunStatus q .running else s).goto p .finished).release a.id)
  | .fetching a _ => some ((s.goto p .finished).release a.id)
  | _ => none

def step (deps : Deps) (s : State) : Action → Option State
  | .ask p id req => if s.calls p = .idle then some (s.goto p (.asked id req)) else none
  | .go p => go deps s p
  | .fail p landed => fail s p landed
  | .write rows => some { s with rows := rows }
  | .wait ms => some { s with now := s.now + ms }

/-! Who holds a claim. -/

/-- The automation a call holds the claim of. -/
def Pc.holds : Pc → Option String
  | .inserting a _ _ => some a.id
  | .executing a _ => some a.id
  | .ending a _ => some a.id
  | .settling a _ => some a.id
  | .promoting a _ => some a.id
  | .rereading a _ => some a.id
  | .marking a _ => some a.id
  | .fetching a _ => some a.id
  | _ => none

/-- Every claim is held by one call. -/
structure Exclusive (s : State) : Prop where
  one : ∀ p p' id, (s.calls p).holds = some id → (s.calls p').holds = some id → p = p'
  claimed : ∀ id, id ∈ s.claimed ↔ ∃ p, (s.calls p).holds = some id

section Exclusive

variable {s s' : State} {p : ℕ} {pc : Pc} {id : String}

theorem Exclusive.keep (h : Exclusive s) (hcalls : s'.calls = Function.update s.calls p pc)
    (hclaimed : s'.claimed = s.claimed) (hp : pc.holds = (s.calls p).holds) : Exclusive s' := by
  have heq : ∀ q, (s'.calls q).holds = (s.calls q).holds := by
    intro q
    rw [hcalls]
    by_cases hq : q = p
    · rw [hq, Function.update_self, hp]
    · rw [Function.update_of_ne hq]
  refine ⟨fun q q' i hi hi' => h.one q q' i (heq q ▸ hi) (heq q' ▸ hi'), fun i => ?_⟩
  rw [hclaimed, h.claimed]
  simp only [heq]

theorem Exclusive.claim (h : Exclusive s) (hcalls : s'.calls = Function.update s.calls p pc)
    (hclaimed : s'.claimed = insert id s.claimed) (hold : (s.calls p).holds = none)
    (hp : pc.holds = some id) (hfree : id ∉ s.claimed) : Exclusive s' := by
  have hother : ∀ q, q ≠ p → s'.calls q = s.calls q := fun q hq => by
    rw [hcalls, Function.update_of_ne hq]
  have hself : (s'.calls p).holds = some id := by rw [hcalls, Function.update_self, hp]
  have hnone : ∀ q, q ≠ p → (s'.calls q).holds ≠ some id := fun q hq hid =>
    hfree ((h.claimed id).mpr ⟨q, hother q hq ▸ hid⟩)
  refine ⟨fun q q' i hi hi' => ?_, fun i => ?_⟩
  · by_cases hq : q = p
    · by_cases hq' : q' = p
      · rw [hq, hq']
      · rw [hq, hself] at hi
        exact absurd (hi ▸ hi') (hnone q' hq')
    · by_cases hq' : q' = p
      · rw [hq', hself] at hi'
        exact absurd (hi' ▸ hi) (hnone q hq)
      · exact h.one q q' i (hother q hq ▸ hi) (hother q' hq' ▸ hi')
  · rw [hclaimed, Finset.mem_insert, h.claimed]
    constructor
    · rintro (rfl | ⟨q, hq⟩)
      · exact ⟨p, hself⟩
      · have hne : q ≠ p := by
          rintro rfl
          rw [hold] at hq
          cases hq
        exact ⟨q, (hother q hne).symm ▸ hq⟩
    · rintro ⟨q, hq⟩
      by_cases hqp : q = p
      · rw [hqp, hself] at hq
        exact .inl (Option.some.inj hq).symm
      · exact .inr ⟨q, hother q hqp ▸ hq⟩

theorem Exclusive.release (h : Exclusive s) (hcalls : s'.calls = Function.update s.calls p pc)
    (hclaimed : s'.claimed = s.claimed.erase id) (hold : (s.calls p).holds = some id)
    (hp : pc.holds = none) : Exclusive s' := by
  have hother : ∀ q, q ≠ p → s'.calls q = s.calls q := fun q hq => by
    rw [hcalls, Function.update_of_ne hq]
  have hself : (s'.calls p).holds = none := by rw [hcalls, Function.update_self, hp]
  have hne : ∀ q i, (s'.calls q).holds = some i → q ≠ p ∧ (s.calls q).holds = some i := by
    intro q i hi
    have hqp : q ≠ p := by
      rintro rfl
      rw [hself] at hi
      cases hi
    exact ⟨hqp, hother q hqp ▸ hi⟩
  refine ⟨fun q q' i hi hi' => h.one q q' i (hne q i hi).2 (hne q' i hi').2, fun i => ?_⟩
  rw [hclaimed, Finset.mem_erase, h.claimed]
  constructor
  · rintro ⟨hi, q, hq⟩
    have hqp : q ≠ p := by
      rintro rfl
      exact hi (Option.some.inj (hq.symm.trans hold))
    exact ⟨q, (hother q hqp).symm ▸ hq⟩
  · rintro ⟨q, hq⟩
    obtain ⟨hqp, hqi⟩ := hne q i hq
    exact ⟨fun hi => hqp (h.one q p id (hi ▸ hqi) hold), q, hqi⟩

end Exclusive

section Claims

variable {deps : Deps} {s t : State} {p : ℕ} {act : Action}

theorem startGates_row {id : String} {req : RunRequest} {row : Option AutomationRecord}
    {a : AutomationRecord} {args : Args} (h : startGates deps id req row = .ok (a, args)) :
    row = some a ∧ validateArgs deps.toNumber a.definition.params req.args req.coerce = .ok args ∧
      refusals deps a = [] ∧ (a.enabled = true ∨ req.kind = .manual) := by
  unfold startGates at h
  cases row with
  | none => cases h
  | some b =>
    dsimp only at h
    cases hargs : validateArgs deps.toNumber b.definition.params req.args req.coerce with
    | error errors =>
      rw [hargs] at h
      cases h
    | ok given =>
      rw [hargs] at h
      dsimp only at h
      split_ifs at h with hrefused hdisabled
      cases h
      refine ⟨rfl, hargs, not_not.mp hrefused, ?_⟩
      simpa [Classical.or_iff_not_imp_left] using hdisabled

/-- A run starts at once only when its automation is free. -/
theorem free_of_run {a : AutomationRecord} {req : RunRequest}
    (h : beginRun a req s.now (s.standing a.id) = .run) : a.id ∉ s.claimed := by
  unfold beginRun at h
  split_ifs at h with hrate hclaimed hqueue
  simpa [State.standing] using hclaimed

theorem Exclusive.admitted (h : Exclusive s) {id : String} {req : RunRequest}
    {row : Option AutomationRecord} (hp : (s.calls p).holds = none) :
    Exclusive (admitted deps s p id req row) := by
  unfold RunQueue.admitted
  cases startGates deps id req row with
  | error e => exact h.keep rfl rfl hp.symm
  | ok v =>
    obtain ⟨a, args⟩ := v
    dsimp only
    cases hbegin : beginRun a req s.now (s.standing a.id) with
    | rateSkipped => exact h.keep rfl rfl hp.symm
    | busySkipped => exact h.keep rfl rfl hp.symm
    | queue => exact h.keep rfl rfl hp.symm
    | run => exact h.claim rfl rfl hp rfl (free_of_run hbegin)

theorem Exclusive.go (h : Exclusive s) (hgo : go deps s p = some t) : Exclusive t := by
  unfold RunQueue.go at hgo
  generalize hp : s.calls p = pc at hgo
  cases pc with
  | idle => cases hgo
  | settled r => cases hgo
  | finished => cases hgo
  | asked id req =>
    obtain rfl := Option.some.inj hgo
    exact h.keep (p := p) rfl rfl (by rw [hp]; rfl)
  | looked id req row =>
    obtain rfl := Option.some.inj hgo
    exact h.admitted (by rw [hp]; rfl)
  | inserting a req args =>
    obtain rfl := Option.some.inj hgo
    exact h.keep (p := p) rfl rfl (by rw [hp]; rfl)
  | enqueuing a req args =>
    obtain rfl := Option.some.inj hgo
    exact h.keep (p := p) rfl rfl (by rw [hp]; rfl)
  | recording a req args =>
    obtain rfl := Option.some.inj hgo
    exact h.keep (p := p) rfl rfl (by rw [hp]; rfl)
  | executing a r =>
    obtain rfl := Option.some.inj hgo
    exact h.keep (p := p) rfl rfl (by rw [hp]; rfl)
  | ending a r =>
    obtain rfl := Option.some.inj hgo
    exact h.keep (p := p) rfl rfl (by rw [hp]; rfl)
  | settling a r =>
    obtain rfl := Option.some.inj hgo
    unfold handOn
    split
    · exact h.release (p := p) rfl rfl (by rw [hp]; rfl) rfl
    · exact h.keep (p := p) rfl rfl (by rw [hp]; rfl)
  | promoting a w =>
    dsimp only at hgo
    split at hgo
    · cases hgo
      exact h.keep (p := p) rfl rfl (by rw [hp]; rfl)
    · cases hgo
      exact h.release (p := p) rfl rfl (by rw [hp]; rfl) rfl
    · cases hgo
  | rereading a q =>
    dsimp only at hgo
    split at hgo
    · cases hgo
      exact h.release (p := p) rfl rfl (by rw [hp]; rfl) rfl
    · next cur hcur =>
      cases hgo
      have hid : cur.id = a.id := (Table.get_eq_some.mp hcur).2
      exact h.keep (p := p) rfl rfl (by rw [hp]; exact congrArg some hid)
  | marking a q =>
    obtain rfl := Option.some.inj hgo
    exact h.keep (p := p) rfl rfl (by rw [hp]; rfl)
  | fetching a q =>
    obtain ⟨run, -, rfl⟩ := Option.map_eq_some_iff.mp hgo
    exact h.keep (p := p) rfl rfl (by rw [hp]; rfl)

theorem Exclusive.fail (h : Exclusive s) {landed : Bool} (hfail : fail s p landed = some t) :
    Exclusive t := by
  unfold RunQueue.fail at hfail
  generalize hp : s.calls p = pc at hfail
  cases pc with
  | asked id req =>
    obtain rfl := Option.some.inj hfail
    exact h.keep (p := p) rfl rfl (by rw [hp]; rfl)
  | inserting a req args =>
    obtain rfl := Option.some.inj hfail
    cases landed <;> exact h.release (p := p) rfl rfl (by rw [hp]; rfl) rfl
  | enqueuing a req args =>
    obtain rfl := Option.some.inj hfail
    cases landed <;> split <;> exact h.keep (p := p) rfl rfl (by rw [hp]; rfl)
  | recording a req args =>
    obtain rfl := Option.some.inj hfail
    cases landed <;> exact h.keep (p := p) rfl rfl (by rw [hp]; rfl)
  | ending a r =>
    obtain rfl := Option.some.inj hfail
    cases landed <;> exact h.release (p := p) rfl rfl (by rw [hp]; rfl) rfl
  | settling a r =>
    obtain rfl := Option.some.inj hfail
    exact h.release (p := p) rfl rfl (by rw [hp]; rfl) rfl
  | rereading a q =>
    obtain rfl := Option.some.inj hfail
    exact h.release (p := p) rfl rfl (by rw [hp]; rfl) rfl
  | marking a q =>
    obtain rfl := Option.some.inj hfail
    cases landed <;> exact h.release (p := p) rfl rfl (by rw [hp]; rfl) rfl
  | fetching a q =>
    obtain rfl := Option.some.inj hfail
    exact h.release (p := p) rfl rfl (by rw [hp]; rfl) rfl
  | _ => cases hfail

theorem Exclusive.step (h : Exclusive s) (hs : step deps s act = some t) : Exclusive t := by
  cases act with
  | ask p id req =>
    simp only [RunQueue.step] at hs
    split_ifs at hs with hidle
    cases hs
    exact h.keep (p := p) rfl rfl (by rw [hidle]; rfl)
  | go p => exact h.go hs
  | fail p landed => exact h.fail hs
  | write rows =>
    cases hs
    exact ⟨h.one, h.claimed⟩
  | wait ms =>
    cases hs
    exact ⟨h.one, h.claimed⟩

theorem exclusive_start : Exclusive {} where
  one := by
    intro p p' id hp
    cases hp
  claimed := by
    intro id
    constructor
    · exact fun hid => absurd hid (Finset.notMem_empty id)
    · rintro ⟨p, hp⟩
      cases hp

end Claims

/-- An automation is claimed as long as one of its runs is starting, executing or ending, whatever
store calls fail, and of all its runs one at most executes. -/
theorem one_run_executes {deps : Deps} {as : List Action} {s : State}
    (hr : run (step deps) {} as = some s) :
    (∀ p p' a a' r r', s.calls p = .executing a r → s.calls p' = .executing a' r' → a.id = a'.id →
      p = p' ∧ r = r') ∧
    ∀ id, id ∈ s.claimed ↔ ∃ p, (s.calls p).holds = some id := by
  have hex : Exclusive s := run_invariant (fun _ _ _ h hs => h.step hs) exclusive_start hr
  refine ⟨?_, hex.claimed⟩
  intro p p' a a' r r' hp hp' hid
  have hpp : p = p' := hex.one p p' a.id (by rw [hp]; rfl) (by rw [hp', hid]; rfl)
  subst hpp
  cases hp.symm.trans hp'
  exact ⟨rfl, rfl⟩

def queueing : AutomationRecord :=
  ⟨"a", "check", true, 1, { name := "check", triggers := [], concurrency := some .queue }, 0, none,
    none, none⟩

def permissive : Deps := ⟨fun _ => none, fun _ => [], fun _ => none⟩

def byUser : RunRequest := { kind := .manual, asker := some .user }

/-- Two requests: the second run waits for the first. -/
def twoRuns : List Action :=
  [.write ⟨[queueing], by simp⟩, .ask 0 "a" byUser, .go 0, .go 0, .go 0, .ask 1 "a" byUser, .go 1,
    .go 1, .go 0, .go 0, .go 1, .go 0, .go 0, .go 0, .go 0, .go 0, .go 0, .go 0, .go 0]

theorem one_run_executes_twoRuns :
    ∃ s, run (step permissive) {} (twoRuns.take 9) = some s ∧ s.claimed = {"a"} ∧
      s.queued.get? "a" = some 1 ∧
      ∀ id, id ∈ s.claimed ↔ ∃ p, (s.calls p).holds = some id := by
  have hrun : (run (step permissive) {} (twoRuns.take 9)).any
      (fun s => s.claimed == {"a"} && s.queued.get? "a" == some 1) = true := by decide +kernel
  obtain ⟨s, hs, hstate⟩ := (Option.any_eq_true _ _).mp hrun
  obtain ⟨hclaimed, hqueued⟩ := Bool.and_eq_true_iff.mp hstate
  exact ⟨s, hs, eq_of_beq hclaimed, eq_of_beq hqueued, (one_run_executes hs).2⟩

end ClaudeFleet.RunQueue
