import Mathlib.Tactic
import ClaudeFleet.Transition

/-! The supervisor of a Postgres store: attempts to bring it up until one succeeds, then pings of
what it holds. Attempts, pings and foreign work run one after another; services may be restarted
beside them. -/
namespace ClaudeFleet.StoreSupervisor
open Transition

inductive Phase
  | starting
  | importing
  | ready
  | down
  deriving DecidableEq

structure Status where
  phase : Phase := .starting
  detail : Option String := none
  progress : Option String := none
  notice : Option String := none
  deriving DecidableEq

/-- What waits to run alone: an attempt or a ping of the loop, or work from outside. -/
inductive Job
  | bringUp
  | watch (down : Bool)
  | other (n : ℕ)
  deriving DecidableEq

/-- Where the job that runs stands: the call it waits for. Stores have the numbers they were opened
with. -/
inductive Pc
  | opening
  | preparing (store : ℕ)
  /-- The attempt failed with this message, or the supervisor was stopped. -/
  | closing (store : ℕ) (failure : Option String)
  | starting (store : ℕ) (notice : Option String)
  | pinging (store : ℕ) (down : Bool)
  | reviving (store : ℕ)
  | repairing
  /-- Work from outside, with the stores it was given. -/
  | running (n : ℕ) (stores : Option ℕ)
  deriving DecidableEq

/-- Where `run` stands. -/
inductive Loop
  | idle
  | bringing (backoff : ℕ)
  | backoff (ms : ℕ)
  | sleeping (down : Bool)
  | watching
  | finished
  deriving DecidableEq

structure State where
  status : Status := {}
  stopped : Bool := false
  stores : Option ℕ := none
  servicesFailed : Option String := none
  /-- What the tail of `exclusive` is chained after; the first one may be in flight. -/
  queue : List Job := []
  flight : Option Pc := none
  loop : Loop := .idle
  /-- The restarts of the services that go on. -/
  restarts : ℕ := 0
  opened : ℕ := 0
  closed : Finset ℕ := ∅
  prepared : Finset ℕ := ∅
  /-- What `whenReady` was resolved with. -/
  resolved : Option ℕ := none
  log : List (String × String) := []
  deriving DecidableEq

/-- The answer of the call a job waits for: its value, or the message of what it threw. -/
inductive Answer
  | ok (notice : Option String)
  | error (message : String)
  deriving DecidableEq

inductive Action
  | run
  | stop
  | exclusive (n : ℕ)
  /-- The first job begins: those before it have settled. -/
  | begin
  | answer (a : Answer)
  /-- A message while the store opens, or progress of its import. -/
  | report (text : String)
  | slept
  | restartServices
  | restarted (a : Answer)
  deriving DecidableEq

variable (maxBackoffMs : ℕ) (repair : Bool)

namespace State

def set (s : State) (f : Status → Status) : State := { s with status := f s.status }

def note (s : State) (type text : String) : State := { s with log := s.log ++ [(type, text)] }

def push (s : State) (j : Job) : State := { s with queue := s.queue ++ [j] }

/-- The head of a loop of `run`. -/
def loopTop (s : State) (backoff : ℕ) : State :=
  if !s.stopped && s.stores.isNone then { s.push .bringUp with loop := .bringing backoff }
  else if !s.stopped then { s with loop := .sleeping false }
  else { s with loop := .finished }

/-- An attempt is over, and the next job may begin. -/
def broughtUp (s : State) (failed : Bool) : State :=
  let t := { s with flight := none, queue := s.queue.tail }
  match s.loop with
  | .bringing backoff => if failed then { t with loop := .backoff backoff } else t.loopTop backoff
  | _ => t

def watched (s : State) (down : Bool) : State :=
  let t := { s with flight := none, queue := s.queue.tail }
  if !s.stopped && s.stores.isSome then { t with loop := .sleeping down }
  else { t with loop := .finished }

/-- The end of `startServices`. -/
def services (s : State) (a : Answer) : State :=
  match a with
  | .ok _ => { s with servicesFailed := none }
  | .error m =>
    { (if some m = s.servicesFailed then s else s.note "store-ready-failed" m) with
      servicesFailed := some m }

end State

def begin (s : State) : Option State :=
  match s.flight, s.queue with
  | none, .bringUp :: _ =>
    some (if s.stopped then s.broughtUp false else { s with flight := some .opening })
  | none, .watch down :: _ =>
    some (match s.stopped, s.stores with
      | false, some store => { s with flight := some (.pinging store down) }
      | _, _ => s.watched down)
  | none, .other n :: _ => some { s with flight := some (.running n s.stores) }
  | _, _ => none

def answer (s : State) (a : Answer) : Option State :=
  match s.flight, a with
  | some .opening, .ok _ =>
    some { s with flight := some (.preparing s.opened), opened := s.opened + 1 }
  | some .opening, .error m =>
    some (((s.note "store-open-failed" m).set fun st =>
      { st with phase := .down, detail := some m, progress := none }).broughtUp true)
  | some (.preparing store), .ok notice =>
    let t := { s with prepared := insert store s.prepared }
    some (if s.stopped then { t with flight := some (.closing store none) }
      else { t with stores := some store, flight := some (.starting store notice) })
  | some (.preparing store), .error m => some { s with flight := some (.closing store (some m)) }
  | some (.closing store failure), _ =>
    let t := { s with closed := insert store s.closed }
    some (match failure with
      | none => t.broughtUp false
      | some m => ((t.note "store-open-failed" m).set fun st =>
          { st with phase := .down, detail := some m, progress := none }).broughtUp true)
  | some (.starting store notice), a =>
    let t := s.services a
    some (({ t with resolved := t.resolved.or (some store) }.set fun st =>
      { st with phase := .ready, detail := t.servicesFailed, progress := none,
                notice := notice }).broughtUp false)
  | some (.pinging store down), .ok _ =>
    let t := if down then s.set fun st => { st with phase := .ready, detail := s.servicesFailed }
      else s
    some (if s.servicesFailed.isSome then { t with flight := some (.reviving store) }
      else t.watched false)
  | some (.pinging _ down), .error m =>
    let t := (if down then s else s.note "store-unreachable" m).set fun st =>
      { st with phase := .down, detail := some m }
    some (if repair then { t with flight := some .repairing } else t.watched true)
  | some (.reviving _), a =>
    let t := s.services a
    some ((t.set fun st => { st with detail := t.servicesFailed }).watched false)
  | some .repairing, .ok _ => some (s.watched true)
  | some .repairing, .error m => some ((s.set fun st => { st with detail := some m }).watched true)
  | some (.running _ _), _ => some { s with flight := none, queue := s.queue.tail }
  | none, _ => none

def step (s : State) : Action → Option State
  | .run => if s.loop = .idle then some (s.loopTop 1000) else none
  | .stop => some { s with stopped := true }
  | .exclusive n => some (s.push (.other n))
  | .begin => begin s
  | .answer a => answer repair s a
  | .report text =>
    match s.flight with
    | some .opening => some (s.set fun st => { st with phase := .starting, detail := some text })
    | some (.preparing _) =>
      some (s.set fun st => { st with phase := .importing, progress := some text, detail := none })
    | _ => none
  | .slept =>
    match s.loop with
    | .backoff ms => some (s.loopTop (min (ms * 2) maxBackoffMs))
    | .sleeping down => some { s.push (.watch down) with loop := .watching }
    | _ => none
  | .restartServices =>
    some (if s.stores.isSome then { s with restarts := s.restarts + 1 } else s)
  | .restarted a =>
    if s.restarts = 0 then none
    else
      let t := s.services a
      some ({ t with restarts := s.restarts - 1 }.set fun st =>
        { st with detail := t.servicesFailed })

/-! What is open. -/

/-- The store that is held is open and prepared, and every other one is closed. -/
structure Rest (s : State) : Prop where
  others : ∀ x < s.opened, x ∉ s.closed → s.stores = some x
  held : ∀ x, s.stores = some x → x < s.opened ∧ x ∉ s.closed ∧ x ∈ s.prepared
  closed : ∀ x ∈ s.closed, x < s.opened

/-- An attempt has this store open, and every other one is closed. -/
structure Fresh (s : State) (x : ℕ) : Prop where
  none : s.stores = none
  last : s.opened = x + 1
  open_ : x ∉ s.closed
  others : ∀ y < x, y ∈ s.closed
  closed : ∀ y ∈ s.closed, y < s.opened

/-- What the job in flight relies on. -/
def Ok (s : State) : Option Pc → Prop
  | none => Rest s
  | some .opening => Rest s ∧ s.stores = none
  | some (.preparing x) => Fresh s x
  | some (.closing x _) => Fresh s x
  | some (.starting x _) => Rest s ∧ s.stores = some x
  | some (.pinging x _) => Rest s ∧ s.stores = some x
  | some (.reviving x) => Rest s ∧ s.stores = some x
  | some .repairing => Rest s
  | some (.running _ stores) => Rest s ∧ stores = s.stores

def Pc.job : Pc → Job → Bool
  | .opening, .bringUp => true
  | .preparing _, .bringUp => true
  | .closing _ _, .bringUp => true
  | .starting _ _, .bringUp => true
  | .pinging _ _, .watch _ => true
  | .reviving _, .watch _ => true
  | .repairing, .watch _ => true
  | .running _ _, .other _ => true
  | _, _ => false

def Job.isLoop : Job → Bool
  | .other _ => false
  | _ => true

/-- The jobs of `run` in the queue: the one it waits for. -/
def Loop.Waits : Loop → List Job → Prop
  | .bringing _, js => js = [.bringUp]
  | .watching, js => ∃ down, js = [.watch down]
  | _, js => js = []

structure Inv (s : State) : Prop where
  head : ∀ pc, s.flight = some pc → ∃ j rest, s.queue = j :: rest ∧ pc.job j = true
  waits : s.loop.Waits (s.queue.filter Job.isLoop)
  ok : Ok s s.flight
  unset : Job.bringUp ∈ s.queue → (∀ x notice, s.flight ≠ some (.starting x notice)) →
    s.stores = none
  resolved : ∀ x, s.resolved = some x → s.stores = some x
  phase : s.status.phase = .ready → s.stores.isSome = true

section Inv

variable {maxBackoffMs : ℕ} {repair : Bool} {s t : State} {act : Action} {pc : Pc} {j : Job}

theorem Rest.congr (h : Rest s) (hstores : t.stores = s.stores) (hopened : t.opened = s.opened)
    (hclosed : t.closed = s.closed) (hprepared : s.prepared ⊆ t.prepared) : Rest t where
  others x hx hc := by
    rw [hopened] at hx
    rw [hclosed] at hc
    rw [hstores, h.others x hx hc]
  held x hx := by
    obtain ⟨hlt, hopen, hprep⟩ := h.held x (hstores ▸ hx)
    exact ⟨hopened ▸ hlt, hclosed ▸ hopen, hprepared hprep⟩
  closed x hx := hopened ▸ h.closed x (hclosed ▸ hx)

theorem Fresh.congr {x : ℕ} (h : Fresh s x) (hstores : t.stores = s.stores)
    (hopened : t.opened = s.opened) (hclosed : t.closed = s.closed) : Fresh t x where
  none := hstores.trans h.none
  last := hopened.trans h.last
  open_ := hclosed ▸ h.open_
  others y hy := hclosed ▸ h.others y hy
  closed y hy := hopened ▸ h.closed y (hclosed ▸ hy)

theorem Ok.congr {f : Option Pc} (h : Ok s f) (hstores : t.stores = s.stores)
    (hopened : t.opened = s.opened) (hclosed : t.closed = s.closed)
    (hprepared : t.prepared = s.prepared) : Ok t f := by
  have hrest : Rest s → Rest t :=
    fun hr => hr.congr hstores hopened hclosed (hprepared ▸ Finset.Subset.refl _)
  cases f with
  | none => exact hrest h
  | some pc =>
    cases pc with
    | opening => exact ⟨hrest h.1, hstores.trans h.2⟩
    | preparing x => exact Fresh.congr h hstores hopened hclosed
    | closing x failure => exact Fresh.congr h hstores hopened hclosed
    | starting x notice => exact ⟨hrest h.1, hstores.trans h.2⟩
    | pinging x down => exact ⟨hrest h.1, hstores.trans h.2⟩
    | reviving x => exact ⟨hrest h.1, hstores.trans h.2⟩
    | repairing => exact hrest h
    | running n stores => exact ⟨hrest h.1, h.2.trans hstores.symm⟩

theorem Loop.Waits.alone {loop : Loop} {js : List Job} (h : loop.Waits (j :: js)) : js = [] := by
  cases loop with
  | bringing b => exact (List.cons.inj h).2
  | watching =>
    obtain ⟨down, h⟩ := h
    exact (List.cons.inj h).2
  | idle => cases h
  | backoff ms => cases h
  | sleeping down => cases h
  | finished => cases h

theorem Loop.Waits.brings {loop : Loop} {js : List Job} (h : loop.Waits (.bringUp :: js)) :
    ∃ backoff, loop = .bringing backoff := by
  cases loop with
  | bringing b => exact ⟨b, rfl⟩
  | watching =>
    obtain ⟨down, h⟩ := h
    cases h
  | idle => cases h
  | backoff ms => cases h
  | sleeping down => cases h
  | finished => cases h

/-- A job of the loop is the only one in the queue. -/
theorem Inv.alone (h : Inv s) {rest : List Job} (hq : s.queue = j :: rest)
    (hj : j.isLoop = true) : rest.filter Job.isLoop = [] := by
  have hw := h.waits
  rw [hq, List.filter_cons_of_pos hj] at hw
  exact hw.alone

theorem not_mem_of_filter {js : List Job} (h : js.filter Job.isLoop = []) : Job.bringUp ∉ js := by
  intro hmem
  have hin : Job.bringUp ∈ js.filter Job.isLoop := List.mem_filter.mpr ⟨hmem, rfl⟩
  rw [h] at hin
  cases hin

/-- The loop goes on where it waits for no job. -/
theorem Inv.onward (h : Inv s) (hjobs : s.queue.filter Job.isLoop = []) {loop : Loop}
    (hloop : loop.Waits []) : Inv { s with loop := loop } where
  head := h.head
  waits := by
    rw [hjobs]
    exact hloop
  ok := h.ok.congr rfl rfl rfl rfl
  unset := h.unset
  resolved := h.resolved
  phase := h.phase

/-- A job that is queued leaves the one in flight at the head. -/
theorem Inv.pushed (h : Inv s) {loop : Loop}
    (hwaits : loop.Waits ((s.queue ++ [j]).filter Job.isLoop))
    (hunset : j = .bringUp → s.stores = none) : Inv { s.push j with loop := loop } where
  head pc hpc := by
    obtain ⟨j', rest, hq, hj⟩ := h.head pc hpc
    exact ⟨j', rest ++ [j], by simp [State.push, hq], hj⟩
  waits := hwaits
  ok := h.ok.congr rfl rfl rfl rfl
  unset hmem hne := by
    rcases List.mem_append.mp hmem with hmem | hmem
    · exact h.unset hmem hne
    · exact hunset (List.mem_singleton.mp hmem).symm
  resolved := h.resolved
  phase := h.phase

theorem Inv.loopTop (h : Inv s) (hjobs : s.queue.filter Job.isLoop = []) (backoff : ℕ) :
    Inv (s.loopTop backoff) := by
  unfold State.loopTop
  split_ifs with hbring hwatch
  · simp only [Bool.and_eq_true, Option.isNone_iff_eq_none] at hbring
    refine h.pushed ?_ (fun _ => hbring.2)
    rw [List.filter_append, hjobs]
    rfl
  · exact h.onward hjobs rfl
  · exact h.onward hjobs rfl

/-- A job of the loop has come to its end with this state. -/
theorem Inv.ended (h : Inv s) {rest : List Job} (hq : s.queue = j :: rest) (hj : j.isLoop = true)
    (hrest : Rest t) (hqueue : t.queue = s.queue)
    (hresolved : ∀ x, t.resolved = some x → t.stores = some x)
    (hphase : t.status.phase = .ready → t.stores.isSome = true) {loop : Loop}
    (hloop : loop.Waits []) :
    Inv { t with flight := none, queue := t.queue.tail, loop := loop } where
  head pc hpc := by cases hpc
  waits := by
    show loop.Waits (t.queue.tail.filter Job.isLoop)
    rw [hqueue, hq, List.tail_cons, h.alone hq hj]
    exact hloop
  ok := hrest.congr rfl rfl rfl fun _ hx => hx
  unset hmem _ := by
    have hmem : Job.bringUp ∈ t.queue.tail := hmem
    rw [hqueue, hq, List.tail_cons] at hmem
    exact absurd hmem (not_mem_of_filter (h.alone hq hj))
  resolved := hresolved
  phase := hphase

theorem Inv.broughtUp (h : Inv s) {rest : List Job} {failed : Bool}
    (hq : s.queue = .bringUp :: rest) (hrest : Rest t)
    (hresolved : ∀ x, t.resolved = some x → t.stores = some x)
    (hphase : t.status.phase = .ready → t.stores.isSome = true)
    (hqueue : t.queue = s.queue := by rfl) (hloop : t.loop = s.loop := by rfl) :
    Inv (t.broughtUp failed) := by
  have hw := h.waits
  rw [hq, List.filter_cons_of_pos rfl] at hw
  obtain ⟨b, hl⟩ := hw.brings
  unfold State.broughtUp
  rw [hloop, hl]
  dsimp only
  split_ifs
  · exact h.ended hq rfl hrest hqueue hresolved hphase rfl
  · have hended : Inv { t with flight := none, queue := t.queue.tail, loop := .idle } :=
      h.ended hq rfl hrest hqueue hresolved hphase rfl
    have hjobs : t.queue.tail.filter Job.isLoop = [] := by
      rw [hqueue, hq]
      exact h.alone hq rfl
    exact hended.loopTop hjobs b

theorem Inv.watched (h : Inv s) {rest : List Job} {down down' : Bool}
    (hq : s.queue = .watch down :: rest) (hrest : Rest t)
    (hresolved : ∀ x, t.resolved = some x → t.stores = some x)
    (hphase : t.status.phase = .ready → t.stores.isSome = true)
    (hqueue : t.queue = s.queue := by rfl) : Inv (t.watched down') := by
  unfold State.watched
  split_ifs
  · exact h.ended hq rfl hrest hqueue hresolved hphase rfl
  · exact h.ended hq rfl hrest hqueue hresolved hphase rfl

/-- The job in flight goes on to another call, or what is not modelled by the invariant changes. -/
theorem Inv.goes (h : Inv s) (hqueue : t.queue = s.queue) (hloop : t.loop = s.loop)
    (hhead : ∀ pc, t.flight = some pc → ∃ j rest, s.queue = j :: rest ∧ pc.job j = true)
    (hok : Ok t t.flight)
    (hunset : Job.bringUp ∈ s.queue → (∀ x notice, t.flight ≠ some (.starting x notice)) →
      t.stores = none)
    (hresolved : ∀ x, t.resolved = some x → t.stores = some x)
    (hphase : t.status.phase = .ready → t.stores.isSome = true) : Inv t where
  head pc hpc := by
    rw [hqueue]
    exact hhead pc hpc
  waits := by
    rw [hqueue, hloop]
    exact h.waits
  ok := hok
  unset hmem := hunset (hqueue ▸ hmem)
  resolved := hresolved
  phase := hphase

theorem services_eq (s : State) (a : Answer) :
    ∃ failed log, s.services a = { s with servicesFailed := failed, log := log } := by
  cases a with
  | ok notice => exact ⟨none, s.log, rfl⟩
  | error m =>
    simp only [State.services]
    split_ifs
    · exact ⟨some m, s.log, rfl⟩
    · exact ⟨some m, _, rfl⟩

/-- A good ping changes the status only. -/
theorem pinged_eq (s : State) (down : Bool) : ∃ st, (if down then s.set fun st =>
    { st with phase := .ready, detail := s.servicesFailed } else s) = { s with status := st } := by
  split_ifs
  · exact ⟨_, rfl⟩
  · exact ⟨s.status, rfl⟩

/-- A failed ping is logged when it is the first one. -/
theorem unreachable_eq (s : State) (down : Bool) (m : String) : ∃ log,
    (if down then s else s.note "store-unreachable" m) = { s with log := log } := by
  split_ifs
  · exact ⟨s.log, rfl⟩
  · exact ⟨_, rfl⟩

theorem Inv.begin (h : Inv s) (hs : begin s = some t) : Inv t := by
  unfold StoreSupervisor.begin at hs
  split at hs
  · next rest hf hq =>
    obtain rfl := Option.some.inj hs
    have hrest : Rest s := by
      have hok := h.ok
      rwa [hf] at hok
    have hmem : Job.bringUp ∈ s.queue := hq ▸ List.mem_cons_self
    have hnone : s.stores = none := h.unset hmem (by simp [hf])
    split_ifs
    · exact h.broughtUp hq hrest h.resolved h.phase
    · refine h.goes rfl rfl (fun pc hpc => ?_) ⟨hrest.congr rfl rfl rfl (fun _ hx => hx), hnone⟩
        (fun _ _ => hnone) h.resolved h.phase
      obtain rfl := Option.some.inj hpc
      exact ⟨_, _, hq, rfl⟩
  · next down rest hf hq =>
    obtain rfl := Option.some.inj hs
    have hrest : Rest s := by
      have hok := h.ok
      rwa [hf] at hok
    split
    · next x hstopped hx =>
      refine h.goes rfl rfl (fun pc hpc => ?_) ⟨hrest.congr rfl rfl rfl (fun _ hx => hx), hx⟩
        (fun hmem _ => h.unset hmem (by simp [hf])) h.resolved h.phase
      obtain rfl := Option.some.inj hpc
      exact ⟨_, _, hq, rfl⟩
    · exact h.watched hq hrest h.resolved h.phase
  · next n rest hf hq =>
    obtain rfl := Option.some.inj hs
    have hrest : Rest s := by
      have hok := h.ok
      rwa [hf] at hok
    refine h.goes rfl rfl (fun pc hpc => ?_) ⟨hrest.congr rfl rfl rfl (fun _ hx => hx), rfl⟩
      (fun hmem _ => h.unset hmem (by simp [hf])) h.resolved h.phase
    obtain rfl := Option.some.inj hpc
    exact ⟨_, _, hq, rfl⟩
  · cases hs

theorem Inv.bringing (h : Inv s) (hf : s.flight = some pc)
    (hpc : ∀ j, pc.job j = true → j = .bringUp) : ∃ rest, s.queue = .bringUp :: rest := by
  obtain ⟨j, rest, hq, hj⟩ := h.head pc hf
  exact ⟨rest, hpc j hj ▸ hq⟩

theorem Inv.watching (h : Inv s) (hf : s.flight = some pc)
    (hpc : ∀ j, pc.job j = true → ∃ down, j = .watch down) :
    ∃ down rest, s.queue = .watch down :: rest := by
  obtain ⟨j, rest, hq, hj⟩ := h.head pc hf
  obtain ⟨down, rfl⟩ := hpc j hj
  exact ⟨down, rest, hq⟩

theorem Rest.opened (h : Rest s) (hnone : s.stores = none) (hstores : t.stores = none)
    (hopened : t.opened = s.opened + 1) (hclosed : t.closed = s.closed) : Fresh t s.opened where
  none := hstores
  last := hopened
  open_ hin := absurd (h.closed _ (hclosed ▸ hin)) (lt_irrefl _)
  others y hy := by
    by_contra hout
    have hheld := h.others y hy (hclosed ▸ hout)
    rw [hnone] at hheld
    cases hheld
  closed y hy := by
    have := h.closed y (hclosed ▸ hy)
    omega

theorem Fresh.kept {x : ℕ} (h : Fresh s x) (hstores : t.stores = some x)
    (hopened : t.opened = s.opened) (hclosed : t.closed = s.closed) (hprepared : x ∈ t.prepared) :
    Rest t where
  others y hy hc := by
    rw [hopened, h.last] at hy
    rw [hclosed] at hc
    have hyx : ¬ y < x := fun hlt => hc (h.others y hlt)
    rw [hstores, show y = x by omega]
  held y hy := by
    obtain rfl := Option.some.inj (hstores.symm.trans hy)
    refine ⟨?_, hclosed ▸ h.open_, hprepared⟩
    rw [hopened, h.last]
    omega
  closed y hy := hopened ▸ h.closed y (hclosed ▸ hy)

theorem Fresh.dropped {x : ℕ} (h : Fresh s x) (hstores : t.stores = s.stores)
    (hopened : t.opened = s.opened) (hclosed : t.closed = insert x s.closed) : Rest t where
  others y hy hc := by
    rw [hopened, h.last] at hy
    rw [hclosed, Finset.mem_insert, not_or] at hc
    exact absurd (h.others y (by omega)) hc.2
  held y hy := by
    rw [hstores, h.none] at hy
    cases hy
  closed y hy := by
    rw [hclosed, Finset.mem_insert] at hy
    rw [hopened]
    rcases hy with rfl | hy
    · rw [h.last]
      omega
    · exact h.closed y hy

theorem Inv.answer (h : Inv s) {a : Answer} (hs : answer repair s a = some t) : Inv t := by
  unfold StoreSupervisor.answer at hs
  have hok := h.ok
  generalize hf : s.flight = f at hs hok
  cases f with
  | none => cases hs
  | some pc =>
    cases pc with
    | opening =>
      obtain ⟨hrest, hnone⟩ := hok
      obtain ⟨rest, hq⟩ := h.bringing hf (fun j hj => by cases j <;> first | rfl | cases hj)
      cases a with
      | ok notice =>
        obtain rfl := Option.some.inj hs
        refine h.goes rfl rfl (fun pc hpc => ?_) (hrest.opened hnone hnone rfl rfl)
          (fun _ _ => hnone) h.resolved h.phase
        obtain rfl := Option.some.inj hpc
        exact ⟨_, _, hq, rfl⟩
      | error m =>
        obtain rfl := Option.some.inj hs
        refine h.broughtUp hq ?_ h.resolved (fun hphase => by cases hphase)
        exact hrest.congr rfl rfl rfl fun _ hx => hx
    | preparing x =>
      obtain ⟨rest, hq⟩ := h.bringing hf (fun j hj => by cases j <;> first | rfl | cases hj)
      have hfresh : Fresh s x := hok
      cases a with
      | ok notice =>
        obtain rfl := Option.some.inj hs
        dsimp only
        split_ifs
        · refine h.goes rfl rfl (fun pc hpc => ?_) (hfresh.congr rfl rfl rfl)
            (fun _ _ => hfresh.none) h.resolved h.phase
          obtain rfl := Option.some.inj hpc
          exact ⟨_, _, hq, rfl⟩
        · refine h.goes rfl rfl (fun pc hpc => ?_)
            ⟨hfresh.kept rfl rfl rfl (Finset.mem_insert_self ..), rfl⟩
            (fun _ hne => absurd rfl (hne x notice)) (fun y hy => ?_) (fun _ => rfl)
          · obtain rfl := Option.some.inj hpc
            exact ⟨_, _, hq, rfl⟩
          · have hheld := h.resolved y hy
            rw [hfresh.none] at hheld
            cases hheld
      | error m =>
        obtain rfl := Option.some.inj hs
        refine h.goes rfl rfl (fun pc hpc => ?_) (hfresh.congr rfl rfl rfl)
          (fun _ _ => hfresh.none) h.resolved h.phase
        obtain rfl := Option.some.inj hpc
        exact ⟨_, _, hq, rfl⟩
    | closing x failure =>
      obtain ⟨rest, hq⟩ := h.bringing hf (fun j hj => by cases j <;> first | rfl | cases hj)
      have hfresh : Fresh s x := hok
      obtain rfl := Option.some.inj hs
      cases failure with
      | none =>
        refine h.broughtUp hq ?_ h.resolved h.phase
        exact hfresh.dropped rfl rfl rfl
      | some m =>
        refine h.broughtUp hq ?_ h.resolved (fun hphase => by cases hphase)
        exact hfresh.dropped rfl rfl rfl
    | starting x notice =>
      obtain ⟨hrest, hx⟩ := hok
      obtain ⟨rest, hq⟩ := h.bringing hf (fun j hj => by cases j <;> first | rfl | cases hj)
      obtain rfl := Option.some.inj hs
      obtain ⟨failed, log, heq⟩ := services_eq s a
      rw [heq]
      refine h.broughtUp hq ?_ (fun y hy => ?_) (fun _ => Option.isSome_iff_exists.mpr ⟨x, hx⟩)
      · exact hrest.congr rfl rfl rfl fun _ hx => hx
      · rcases Option.or_eq_some_iff.mp hy with hy | ⟨-, hy⟩
        · exact h.resolved y hy
        · exact hx.trans hy
    | pinging x down =>
      obtain ⟨hrest, hx⟩ := hok
      obtain ⟨down', rest, hq⟩ :=
        h.watching hf (fun j hj => by cases j <;> first | exact ⟨_, rfl⟩ | cases hj)
      have hsome : s.stores.isSome = true := Option.isSome_iff_exists.mpr ⟨x, hx⟩
      have hnotin : Job.bringUp ∉ s.queue := fun hmem => by
        have hnone := h.unset hmem (by simp [hf])
        rw [hnone] at hsome
        cases hsome
      cases a with
      | ok notice =>
        obtain rfl := Option.some.inj hs
        obtain ⟨st, heq⟩ := pinged_eq s down
        rw [heq]
        dsimp only
        split_ifs
        · refine h.goes rfl rfl (fun pc hpc => ?_) ⟨hrest.congr rfl rfl rfl fun _ hx => hx, hx⟩
            (fun hmem _ => absurd hmem hnotin) h.resolved (fun _ => hsome)
          obtain rfl := Option.some.inj hpc
          exact ⟨_, _, hq, rfl⟩
        · refine h.watched hq ?_ h.resolved (fun _ => hsome)
          exact hrest.congr rfl rfl rfl fun _ hx => hx
      | error m =>
        obtain rfl := Option.some.inj hs
        obtain ⟨log, heq⟩ := unreachable_eq s down m
        rw [heq]
        split_ifs
        · refine h.goes rfl rfl (fun pc hpc => ?_) (hrest.congr rfl rfl rfl fun _ hx => hx)
            (fun hmem _ => absurd hmem hnotin) h.resolved (fun _ => hsome)
          obtain rfl := Option.some.inj hpc
          exact ⟨_, _, hq, rfl⟩
        · refine h.watched hq ?_ h.resolved (fun _ => hsome)
          exact hrest.congr rfl rfl rfl fun _ hx => hx
    | reviving x =>
      obtain ⟨hrest, hx⟩ := hok
      obtain ⟨down, rest, hq⟩ :=
        h.watching hf (fun j hj => by cases j <;> first | exact ⟨_, rfl⟩ | cases hj)
      obtain rfl := Option.some.inj hs
      obtain ⟨failed, log, heq⟩ := services_eq s a
      rw [heq]
      refine h.watched hq ?_ h.resolved (fun _ => Option.isSome_iff_exists.mpr ⟨x, hx⟩)
      exact hrest.congr rfl rfl rfl fun _ hx => hx
    | repairing =>
      have hrest : Rest s := hok
      obtain ⟨down, rest, hq⟩ :=
        h.watching hf (fun j hj => by cases j <;> first | exact ⟨_, rfl⟩ | cases hj)
      cases a with
      | ok notice =>
        obtain rfl := Option.some.inj hs
        exact h.watched hq hrest h.resolved h.phase
      | error m =>
        obtain rfl := Option.some.inj hs
        refine h.watched hq ?_ h.resolved h.phase
        exact hrest.congr rfl rfl rfl fun _ hx => hx
    | running n stores =>
      obtain ⟨hrest, -⟩ := hok
      obtain ⟨j, rest, hq, hj⟩ := h.head _ hf
      obtain rfl := Option.some.inj hs
      have hother : j.isLoop = false := by
        cases j <;> first | rfl | cases hj
      constructor
      · rintro pc ⟨⟩
      · have hw := h.waits
        rw [hq, List.filter_cons_of_neg (by simp [hother])] at hw
        rw [hq]
        exact hw
      · exact hrest.congr rfl rfl rfl fun _ hx => hx
      · intro hmem _
        exact h.unset (List.mem_of_mem_tail hmem) (by simp [hf])
      · exact h.resolved
      · exact h.phase

/-- What the loop and the jobs rely on is left as it is. -/
theorem Inv.kept (h : Inv s) (hqueue : t.queue = s.queue) (hflight : t.flight = s.flight)
    (hloop : t.loop = s.loop) (hstores : t.stores = s.stores) (hopened : t.opened = s.opened)
    (hclosed : t.closed = s.closed) (hprepared : t.prepared = s.prepared)
    (hresolved : t.resolved = s.resolved)
    (hphase : t.status.phase = .ready → t.stores.isSome = true) : Inv t := by
  refine h.goes hqueue hloop (fun pc hpc => h.head pc (hflight ▸ hpc)) ?_ (fun hmem hne => ?_)
    (fun x hx => ?_) hphase
  · rw [hflight]
    exact h.ok.congr hstores hopened hclosed hprepared
  · rw [hstores]
    exact h.unset hmem (hflight ▸ hne)
  · rw [hstores]
    exact h.resolved x (hresolved ▸ hx)

theorem Inv.step (h : Inv s) (hs : step maxBackoffMs repair s act = some t) : Inv t := by
  cases act with
  | run =>
    simp only [StoreSupervisor.step] at hs
    split_ifs at hs with hidle
    obtain rfl := Option.some.inj hs
    have hw := h.waits
    rw [hidle] at hw
    exact h.loopTop hw 1000
  | stop =>
    obtain rfl := Option.some.inj hs
    exact h.kept rfl rfl rfl rfl rfl rfl rfl rfl h.phase
  | exclusive n =>
    obtain rfl := Option.some.inj hs
    have hwaits : s.loop.Waits ((s.queue ++ [Job.other n]).filter Job.isLoop) := by
      rw [List.filter_append, show [Job.other n].filter Job.isLoop = [] from rfl, List.append_nil]
      exact h.waits
    exact h.pushed hwaits (fun hj => by cases hj)
  | begin => exact h.begin hs
  | answer a => exact h.answer hs
  | report text =>
    simp only [StoreSupervisor.step] at hs
    have hok := h.ok
    split at hs
    · next hf =>
      obtain rfl := Option.some.inj hs
      exact h.kept rfl rfl rfl rfl rfl rfl rfl rfl (fun hphase => by cases hphase)
    · next x hf =>
      obtain rfl := Option.some.inj hs
      exact h.kept rfl rfl rfl rfl rfl rfl rfl rfl (fun hphase => by cases hphase)
    · cases hs
  | slept =>
    simp only [StoreSupervisor.step] at hs
    have hw := h.waits
    split at hs
    · next ms hl =>
      obtain rfl := Option.some.inj hs
      rw [hl] at hw
      exact h.loopTop hw _
    · next down hl =>
      obtain rfl := Option.some.inj hs
      rw [hl] at hw
      refine h.pushed ?_ (fun hj => by cases hj)
      rw [List.filter_append, show s.queue.filter Job.isLoop = [] from hw]
      exact ⟨down, rfl⟩
    · cases hs
  | restartServices =>
    obtain rfl := Option.some.inj hs
    split_ifs
    · exact h.kept rfl rfl rfl rfl rfl rfl rfl rfl h.phase
    · exact h
  | restarted a =>
    simp only [StoreSupervisor.step] at hs
    split_ifs at hs
    obtain rfl := Option.some.inj hs
    obtain ⟨failed, log, heq⟩ := services_eq s a
    rw [heq]
    exact h.kept rfl rfl rfl rfl rfl rfl rfl rfl h.phase

theorem inv_start : Inv {} where
  head pc hpc := by cases hpc
  waits := rfl
  ok := {
    others := fun x hx => absurd hx (Nat.not_lt_zero x)
    held := fun x hx => by cases hx
    closed := fun x hx => absurd hx (Finset.notMem_empty x) }
  unset _ _ := rfl
  resolved x hx := by cases hx
  phase hphase := by cases hphase

theorem inv_run {acts : List Action} (h : run (StoreSupervisor.step maxBackoffMs repair) {} acts =
    some s) : Inv s :=
  run_invariant (fun _ _ _ hinv hs => hinv.step hs) inv_start h

@[simp] theorem State.loopTop_stores (s : State) (backoff : ℕ) :
    (s.loopTop backoff).stores = s.stores := by
  unfold State.loopTop
  split_ifs <;> rfl

@[simp] theorem State.watched_stores (s : State) (down : Bool) :
    (s.watched down).stores = s.stores := by
  unfold State.watched
  split_ifs <;> rfl

@[simp] theorem State.broughtUp_stores (s : State) (failed : Bool) :
    (s.broughtUp failed).stores = s.stores := by
  unfold State.broughtUp
  split
  · split_ifs
    · rfl
    · rw [State.loopTop_stores]
  · rfl

theorem State.services_stores (s : State) (a : Answer) : (s.services a).stores = s.stores := by
  obtain ⟨failed, log, heq⟩ := services_eq s a
  rw [heq]

theorem begin_stores (hs : StoreSupervisor.begin s = some t) : t.stores = s.stores := by
  unfold StoreSupervisor.begin at hs
  split at hs
  · obtain rfl := Option.some.inj hs
    split_ifs
    · exact s.broughtUp_stores false
    · rfl
  · next down rest hf hq =>
    obtain rfl := Option.some.inj hs
    split
    · rfl
    · exact s.watched_stores down
  · obtain rfl := Option.some.inj hs
    rfl
  · cases hs

/-- Only an attempt that has prepared its store changes what is held. -/
theorem answer_stores {a : Answer} (hs : StoreSupervisor.answer repair s a = some t) :
    t.stores = s.stores ∨ ∃ x, s.flight = some (.preparing x) := by
  unfold StoreSupervisor.answer at hs
  split at hs
  · obtain rfl := Option.some.inj hs
    exact .inl rfl
  · obtain rfl := Option.some.inj hs
    exact .inl (State.broughtUp_stores ..)
  · next x notice hf =>
    exact .inr ⟨x, hf⟩
  · next x m hf =>
    exact .inr ⟨x, hf⟩
  · next x failure hf =>
    obtain rfl := Option.some.inj hs
    cases failure with
    | none => exact .inl (State.broughtUp_stores ..)
    | some m => exact .inl (State.broughtUp_stores ..)
  · obtain rfl := Option.some.inj hs
    exact .inl ((State.broughtUp_stores ..).trans (State.services_stores ..))
  · next x down notice hf =>
    obtain rfl := Option.some.inj hs
    obtain ⟨st, heq⟩ := pinged_eq s down
    rw [heq]
    dsimp only
    split_ifs
    · exact .inl rfl
    · exact .inl (State.watched_stores ..)
  · next x down m hf =>
    obtain rfl := Option.some.inj hs
    obtain ⟨log, heq⟩ := unreachable_eq s down m
    rw [heq]
    split_ifs
    · exact .inl rfl
    · exact .inl (State.watched_stores ..)
  · obtain rfl := Option.some.inj hs
    exact .inl ((State.watched_stores ..).trans (State.services_stores ..))
  · obtain rfl := Option.some.inj hs
    exact .inl (State.watched_stores ..)
  · obtain rfl := Option.some.inj hs
    exact .inl (State.watched_stores ..)
  · obtain rfl := Option.some.inj hs
    exact .inl rfl
  · cases hs

theorem Inv.holds (h : Inv s) {x : ℕ} (hx : s.stores = some x)
    (hs : StoreSupervisor.step maxBackoffMs repair s act = some t) : t.stores = some x := by
  rw [← hx]
  cases act with
  | run =>
    simp only [StoreSupervisor.step] at hs
    split_ifs at hs
    obtain rfl := Option.some.inj hs
    exact s.loopTop_stores 1000
  | stop =>
    obtain rfl := Option.some.inj hs
    rfl
  | exclusive n =>
    obtain rfl := Option.some.inj hs
    rfl
  | begin => exact begin_stores hs
  | answer a =>
    rcases answer_stores hs with heq | ⟨y, hf⟩
    · exact heq
    · have hfresh : Fresh s y := by
        have hok := h.ok
        rwa [hf] at hok
      rw [hfresh.none] at hx
      cases hx
  | report text =>
    simp only [StoreSupervisor.step] at hs
    split at hs
    · obtain rfl := Option.some.inj hs
      rfl
    · obtain rfl := Option.some.inj hs
      rfl
    · cases hs
  | slept =>
    simp only [StoreSupervisor.step] at hs
    split at hs
    · obtain rfl := Option.some.inj hs
      exact s.loopTop_stores _
    · obtain rfl := Option.some.inj hs
      rfl
    · cases hs
  | restartServices =>
    obtain rfl := Option.some.inj hs
    split_ifs <;> rfl
  | restarted a =>
    simp only [StoreSupervisor.step] at hs
    split_ifs at hs
    obtain rfl := Option.some.inj hs
    exact s.services_stores _

/-- Two stores are never open at once. -/
theorem Ok.unique (h : Ok s s.flight) {x y : ℕ} (hx : x < s.opened) (hxc : x ∉ s.closed)
    (hy : y < s.opened) (hyc : y ∉ s.closed) : x = y := by
  have hrest : Rest s → x = y :=
    fun hr => Option.some.inj ((hr.others x hx hxc).symm.trans (hr.others y hy hyc))
  have hfresh : ∀ z, Fresh s z → x = y := fun z hz => by
    have hlast := hz.last
    have hxz : ¬ x < z := fun hlt => hxc (hz.others x hlt)
    have hyz : ¬ y < z := fun hlt => hyc (hz.others y hlt)
    omega
  generalize s.flight = f at h
  cases f with
  | none => exact hrest h
  | some pc =>
    cases pc with
    | opening => exact hrest h.1
    | preparing z => exact hfresh z h
    | closing z failure => exact hfresh z h
    | starting z notice => exact hrest h.1
    | pinging z down => exact hrest h.1
    | reviving z => exact hrest h.1
    | repairing => exact hrest h
    | running n stores => exact hrest h.1

theorem Ok.held (h : Ok s s.flight) {x : ℕ} (hx : s.stores = some x) :
    x ∉ s.closed ∧ x ∈ s.prepared := by
  have hrest : Rest s → x ∉ s.closed ∧ x ∈ s.prepared := fun hr => (hr.held x hx).2
  have hfresh : ∀ z, Fresh s z → x ∉ s.closed ∧ x ∈ s.prepared := fun z hz => by
    rw [hz.none] at hx
    cases hx
  generalize s.flight = f at h
  cases f with
  | none => exact hrest h
  | some pc =>
    cases pc with
    | opening => exact hrest h.1
    | preparing z => exact hfresh z h
    | closing z failure => exact hfresh z h
    | starting z notice => exact hrest h.1
    | pinging z down => exact hrest h.1
    | reviving z => exact hrest h.1
    | repairing => exact hrest h
    | running n stores => exact hrest h.1

end Inv

/-- However attempts, pings, restarts, foreign work and the stop interleave, at most one store is
open; the one that is held is open and prepared, is never replaced, and is the one that `whenReady`
and foreign work get; and the status is ready only while one is held. -/
theorem one_store_open {acts : List Action} {s : State}
    (h : run (step maxBackoffMs repair) {} acts = some s) :
    (∀ x < s.opened, ∀ y < s.opened, x ∉ s.closed → y ∉ s.closed → x = y) ∧
      (∀ x, s.stores = some x → x ∉ s.closed ∧ x ∈ s.prepared ∧
        ∀ more t, run (step maxBackoffMs repair) s more = some t → t.stores = some x) ∧
      (∀ x, s.resolved = some x → s.stores = some x) ∧
      (∀ n stores, s.flight = some (.running n stores) → stores = s.stores) ∧
      (s.status.phase = .ready → s.stores.isSome = true) := by
  have hinv := inv_run h
  refine ⟨fun x hx y hy hxc hyc => hinv.ok.unique hx hxc hy hyc, fun x hx => ?_, hinv.resolved,
    fun n stores hf => ?_, hinv.phase⟩
  · obtain ⟨hopen, hprep⟩ := hinv.ok.held hx
    refine ⟨hopen, hprep, fun more t hmore => ?_⟩
    exact (run_invariant (I := fun u => Inv u ∧ u.stores = some x)
      (fun u a v hu hs => ⟨hu.1.step hs, hu.1.holds hu.2 hs⟩) ⟨hinv, hx⟩ hmore).2
  · have hok := hinv.ok
    rw [hf] at hok
    exact hok.2

/-- The first attempt opens a store that it cannot prepare, the second one is held; work from
outside runs before the first ping, which fails. -/
def secondHeld : List Action :=
  [.run, .begin, .answer (.ok none), .answer (.error "copy"), .answer (.ok none), .slept, .begin,
    .answer (.ok none), .answer (.ok none), .exclusive 0, .answer (.error "services"), .begin,
    .answer (.ok none), .slept, .begin, .answer (.error "refused")]

theorem one_store_open_secondHeld : ∃ s, run (step 30000 true) {} secondHeld = some s ∧
    s.stores = some 1 ∧ s.closed = {0} ∧
    (∀ x < s.opened, ∀ y < s.opened, x ∉ s.closed → y ∉ s.closed → x = y) := by
  have hrun : run (step 30000 true) {} secondHeld = some _ := rfl
  exact ⟨_, hrun, by decide, by decide, (one_store_open 30000 true hrun).1⟩

end ClaudeFleet.StoreSupervisor
