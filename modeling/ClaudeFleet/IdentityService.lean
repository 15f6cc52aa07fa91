import ClaudeFleet.Transition

/-! The GitHub sign-in of the app: a token and its profile in two cells of the vault (or in memory
where there is no vault), written only by jobs of one promise chain, under an epoch that sign-out,
cancel, start and a finished sign-in bump. Every await is a step, GitHub may answer in any order,
and a write of the vault may fail with or without effect. -/
namespace ClaudeFleet.Identity

structure Saved where
  token : String
  /-- The JSON of the profile. -/
  profile : String
  deriving DecidableEq

/-- The cells of the scope in the vault. -/
structure Bag where
  token : Option String := none
  profile : Option String := none
  deriving DecidableEq

/-- A sign-in in progress. `called` is the number of sign-outs before its `signInStart`. -/
structure Pending where
  called : ℕ := 0
  inflight : Bool := false
  finishing : Bool := false
  deriving DecidableEq

/-- A sign-in's save carries its sign-in and has no token to compare; a refresh saves only over
its own token. -/
inductive SaveFrom
  | signIn (called : ℕ)
  | refresh
  deriving DecidableEq

inductive JobKind
  | save (s : Saved) (epoch : ℕ) (origin : SaveFrom)
  | settled
  /-- Of the sign-out with this number. -/
  | clear (k : ℕ)
  | revoke (token : String)
  deriving DecidableEq

inductive JobPc
  | queued
  | profile
  | token
  deriving DecidableEq

structure Job where
  id : ℕ
  kind : JobKind
  pc : JobPc := .queued
  deriving DecidableEq

inductive Result
  | loaded (o : Option Saved)
  | done (b : Bool)
  | rejected
  deriving DecidableEq

inductive Pc
  /-- `status`, up to its first read. -/
  | settling (epoch : ℕ) (refresh : Bool) (job : ℕ)
  | refreshing (epoch : ℕ) (saved : Saved)
  | saving (epoch job : ℕ)
  | revoking (job : ℕ)
  /-- `signInStart` waits for the client id and the device code. -/
  | starting (called : ℕ)
  | polling (flow : ℕ)
  /-- `finishSignIn` reads the profile. -/
  | finishing (flow : ℕ) (token : String) (epoch : ℕ)
  | storing (flow saveEpoch job : ℕ)
  | confirming (flow job : ℕ)
  deriving DecidableEq

/-- What happened, for the record: a save that began to write, a sign-in that is stored, the
sign-outs that resolved, and every answer of `load` that is not null. -/
inductive Event
  | saved (s : Saved)
  | completed (called : ℕ)
  | signedOut (k : ℕ)
  | loaded (s : Saved)
  deriving DecidableEq

/-- The head of `chain` is the job that runs. -/
structure State where
  vault : Bag
  memory : Option Saved
  pending : Option ℕ
  flows : ℕ → Pending
  begun : ℕ
  epoch : ℕ
  chain : List Job
  jobs : ℕ
  results : ℕ → Option Result
  tasks : ℕ → Option Pc
  next : ℕ
  signOuts : ℕ
  log : List Event

/-- What the code is used with: whether there is a vault, and `isProfile` of the parsed JSON. -/
structure Env where
  persisted : Bool
  isProfile : String → Bool

namespace State

def start : State where
  vault := {}
  memory := none
  pending := none
  flows _ := {}
  begun := 0
  epoch := 0
  chain := []
  jobs := 0
  results _ := none
  tasks _ := none
  next := 0
  signOuts := 0
  log := []

def load (env : Env) (s : State) : Option Saved :=
  if env.persisted = false then s.memory
  else
    match s.vault.token, s.vault.profile with
    | some token, some profile =>
      if token ≠ "" ∧ env.isProfile profile then some ⟨token, profile⟩ else none
    | _, _ => none

def setTask (s : State) (t : ℕ) (pc : Pc) : State :=
  { s with tasks := Function.update s.tasks t (some pc) }

def endTask (s : State) (t : ℕ) : State := { s with tasks := Function.update s.tasks t none }

def spawn (s : State) (pc : Pc) : State := { s.setTask s.next pc with next := s.next + 1 }

/-- `serial` -/
def serial (s : State) (kind : JobKind) : State :=
  { s with chain := s.chain ++ [⟨s.jobs, kind, .queued⟩], jobs := s.jobs + 1 }

def setFlow (s : State) (f : ℕ) (p : Pending) : State :=
  { s with flows := Function.update s.flows f p }

def record (s : State) (e : Event) : State := { s with log := s.log ++ [e] }

/-- The answer of `load` goes on record. -/
def recordLoad (s : State) (o : Option Saved) : State :=
  match o with
  | some x => s.record (.loaded x)
  | none => s

/-- The job that runs settles, and the next may begin. -/
def settle (s : State) (j : Job) (r : Result) : State :=
  { s with chain := s.chain.tail, results := Function.update s.results j.id (some r) }

def goto (s : State) (j : Job) (pc : JobPc) : State :=
  { s with chain := { j with pc := pc } :: s.chain.tail }

end State

/-- How a write of the vault ends. `lost` is one that took effect and failed. -/
inductive Write
  | ok
  | failed
  | lost
  deriving DecidableEq

namespace State

/-- `clearNow` -/
def clearNow (env : Env) (s : State) (w : Write) : State :=
  { s with memory := none, vault := if env.persisted ∧ w ≠ .failed then {} else s.vault }

/-- Whether `clearNow` resolves. -/
def cleared (env : Env) (w : Write) : Bool := !env.persisted || decide (w = .ok)

/-- What a save has done when both cells are written. -/
def complete (s : State) (origin : SaveFrom) : State :=
  match origin with
  | .signIn called => s.record (.completed called)
  | .refresh => s

/-- The checks of `save`, and its write where there is no vault. -/
def beginSave (env : Env) (s : State) (j : Job) (x : Saved) (epoch : ℕ) (origin : SaveFrom) : State :=
  if epoch ≠ s.epoch then s.settle j (.done false)
  else
    let o := s.load env
    let s := if origin = .refresh then s.recordLoad o else s
    if origin = .refresh ∧ o.map Saved.token ≠ some x.token then s.settle j (.done false)
    else
      let s := s.record (.saved x)
      if env.persisted then s.goto j .profile
      else ({ s with memory := some x }.complete origin).settle j (.done true)

/-- The next step of the job that runs. -/
def work (env : Env) (s : State) (j : Job) (w : Write) : State :=
  match j.kind, j.pc with
  | .save x epoch origin, .queued => s.beginSave env j x epoch origin
  | .save x _ _, .profile =>
    let s' := { s with vault := { s.vault with profile := some x.profile } }
    match w with
    | .ok => s'.goto j .token
    | .failed => s.settle j .rejected
    | .lost => s'.settle j .rejected
  | .save x _ origin, .token =>
    let s' := { s with vault := { s.vault with token := some x.token } }
    match w with
    | .ok => (s'.complete origin).settle j (.done true)
    | .failed => s.settle j .rejected
    | .lost => s'.settle j .rejected
  | .settled, _ =>
    let o := s.load env
    (s.recordLoad o).settle j (.loaded o)
  | .clear k, _ =>
    let s' := s.clearNow env w
    if cleared env w then (s'.record (.signedOut k)).settle j (.done true)
    else s'.settle j .rejected
  | .revoke token, _ =>
    let o := s.load env
    let s := s.recordLoad o
    if o.map Saved.token ≠ some token then s.settle j (.done false)
    else
      (s.clearNow env w).settle j (if cleared env w then .done true else .rejected)

/-- The `finally` of a poll. -/
def release (s : State) (f : ℕ) : State :=
  { s with pending := if s.pending = some f then none else s.pending }

end State

/-- What GitHub answers. -/
inductive Answer
  | ok
  | failed
  | unauthorized
  | profile (p : String)
  | token (t : String)
  | waiting
  | network
  deriving DecidableEq

/-- Where a poll stands in time. -/
inductive Clock
  | early
  | due
  | expired
  deriving DecidableEq

namespace State

def signInPoll (s : State) (clock : Clock) : State :=
  match s.pending with
  | none => s
  | some f =>
    let p := s.flows f
    if p.inflight ∨ p.finishing then s
    else
      match clock with
      | .expired => { s with pending := none }
      | .early => s
      | .due => (s.setFlow f { p with inflight := true }).spawn (.polling f)

/-- `signInPoll` after GitHub's answer. -/
def polled (s : State) (t f : ℕ) (a : Answer) : Option State :=
  let s := s.setFlow f { s.flows f with inflight := false }
  match a with
  | .token token =>
    some (if s.pending ≠ some f then s.endTask t
      else
        (s.setFlow f { s.flows f with finishing := true }).setTask t (.finishing f token s.epoch))
  | .waiting => some (s.endTask t)
  | .network => some (s.endTask t)
  | .failed => some (s.release f |>.endTask t)
  | _ => none

def resume (s : State) (t : ℕ) (a : Answer) : Pc → Option State
  | .settling epoch refresh job =>
    match s.results job with
    | some (.loaded (some x)) =>
      some (if refresh then s.setTask t (.refreshing epoch x) else s.endTask t)
    | some _ => some (s.endTask t)
    | none => none
  | .refreshing epoch x =>
    match a with
    | .profile p =>
      some ((s.serial (.save ⟨x.token, p⟩ epoch .refresh)).setTask t (.saving epoch s.jobs))
    | .unauthorized => some ((s.serial (.revoke x.token)).setTask t (.revoking s.jobs))
    | .failed => some ((if epoch ≠ s.epoch then s.serial .settled else s).endTask t)
    | _ => none
  | .saving epoch job =>
    match s.results job with
    | some (.done true) =>
      some ((if epoch ≠ s.epoch then s.serial .settled else s).endTask t)
    | some (.done false) => some ((s.serial .settled).endTask t)
    | some _ => some ((if epoch ≠ s.epoch then s.serial .settled else s).endTask t)
    | none => none
  | .revoking job =>
    match s.results job with
    | some (.done false) => some ((s.serial .settled).endTask t)
    | some _ => some (s.endTask t)
    | none => none
  | .starting called =>
    match a with
    | .ok =>
      some ({ s.setFlow s.begun { called := called } with
        epoch := s.epoch + 1
        pending := some s.begun
        begun := s.begun + 1 }.endTask t)
    | .failed => some (s.endTask t)
    | _ => none
  | .polling f => s.polled t f a
  | .finishing f token epoch =>
    match a with
    | .profile p =>
      some (if epoch ≠ s.epoch then (s.release f).endTask t
        else
          ({ s with epoch := s.epoch + 1 }.serial
            (.save ⟨token, p⟩ (s.epoch + 1) (.signIn (s.flows f).called))).setTask t
              (.storing f (s.epoch + 1) s.jobs))
    | .failed => some ((s.release f).endTask t)
    | _ => none
  | .storing f saveEpoch job =>
    match s.results job with
    | some (.done true) =>
      some (if saveEpoch ≠ s.epoch then (s.serial .settled).setTask t (.confirming f s.jobs)
        else (s.release f).endTask t)
    | some _ => some ((s.release f).endTask t)
    | none => none
  | .confirming f job =>
    match s.results job with
    | some _ => some ((s.release f).endTask t)
    | none => none

/-- The app ends and starts again: only the vault is left. -/
def crash (s : State) : State :=
  { start with
    vault := s.vault
    flows := s.flows
    begun := s.begun
    jobs := s.jobs
    next := s.next
    signOuts := s.signOuts
    log := s.log }

end State

inductive Action
  | status (refresh : Bool)
  | signInStart
  | signInPoll (clock : Clock)
  | signInCancel
  | signOut
  /-- `bearerToken`, `currentLogin` or `packagesToken` -/
  | read
  | resume (t : ℕ) (a : Answer)
  | work (w : Write)
  | crash
  deriving DecidableEq

def step (env : Env) (s : State) : Action → Option State
  | .status refresh =>
    some ((s.serial .settled).spawn (.settling s.epoch refresh s.jobs))
  | .signInStart => some (s.spawn (.starting s.signOuts))
  | .signInPoll clock => some (s.signInPoll clock)
  | .signInCancel => some { s with pending := none, epoch := s.epoch + 1 }
  | .signOut =>
    some ({ s with pending := none, epoch := s.epoch + 1, signOuts := s.signOuts + 1 }.serial
      (.clear (s.signOuts + 1)))
  | .read => some (s.serial .settled)
  | .resume t a => (s.tasks t).bind (s.resume t a)
  | .work w => s.chain.head?.map fun j => s.work env j w
  | .crash => some s.crash

/-- The vault holds no token, or this one. -/
def State.Free (s : State) (x : Saved) : Prop := ∀ t ∈ s.vault.token, t = x.token

def Pc.isStarting : Pc → Bool
  | .starting _ => true
  | _ => false

def JobKind.saves : JobKind → Option (Saved × SaveFrom)
  | .save x _ origin => some (x, origin)
  | _ => none

/-- A save that ends between its two cells finds no other token there, and the token of a sign-in
is not stored by a write that fails; no sign-out is called while a `signInStart` waits. -/
def Orderly (s : State) : Action → Prop
  | .signOut => ∀ t < s.next, (s.tasks t).any Pc.isStarting = false
  | .work w => ∀ j ∈ s.chain.head?, ∀ y ∈ j.kind.saves,
    (j.pc = .profile → w = .lost → s.Free y.1) ∧
      (j.pc = .token → (w = .failed → s.Free y.1) ∧ (w = .lost → y.2 = .refresh))
  | .crash => ∀ j ∈ s.chain.head?, ∀ y ∈ j.kind.saves, j.pc = .token → s.Free y.1
  | _ => True

instance (s : State) (x : Saved) : Decidable (s.Free x) :=
  inferInstanceAs (Decidable (∀ t ∈ s.vault.token, t = x.token))

instance (s : State) : (a : Action) → Decidable (Orderly s a)
  | .status _ | .signInStart | .signInPoll _ | .signInCancel | .read | .resume _ _ => isTrue trivial
  | .signOut => inferInstanceAs (Decidable (∀ t < s.next, (s.tasks t).any Pc.isStarting = false))
  | .work w => inferInstanceAs (Decidable (∀ j ∈ s.chain.head?, ∀ y ∈ j.kind.saves,
    (j.pc = .profile → w = .lost → s.Free y.1) ∧
      (j.pc = .token → (w = .failed → s.Free y.1) ∧ (w = .lost → y.2 = .refresh))))
  | .crash => inferInstanceAs (Decidable (∀ j ∈ s.chain.head?, ∀ y ∈ j.kind.saves,
    j.pc = .token → s.Free y.1))

end ClaudeFleet.Identity
