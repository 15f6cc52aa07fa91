import Mathlib.Tactic
import ClaudeFleet.Transition

/-! Notifications: the policy that delivers or holds a request, and the service over its store. A
request reads the settings and stores its row later; the ticks, one at a time, track quiet periods
and send a digest when one ends. Every store call is one step, and a crash drops what is under
way. -/
namespace ClaudeFleet.Notify
open Transition

inductive Kind
  | post
  | todo
  | inputWait
  | postRejected
  | digest
  | test
  | runFailed
  | proposal
  | captureSettings
  deriving DecidableEq

inductive Priority
  | low
  | normal
  | high
  | urgent
  deriving DecidableEq

inductive Level
  | all
  | high
  | urgent
  | off
  deriving DecidableEq

inductive SourceKind
  | user
  | workspace
  | automation
  deriving DecidableEq

structure Source where
  kind : SourceKind
  id : Option String
  deriving DecidableEq

inductive ScopeKind
  | key
  | source
  | tag
  | global
  deriving DecidableEq

structure Rule where
  id : String
  scopeKind : ScopeKind
  scopeValue : String
  level : Level
  snoozeUntil : Option ℤ
  deriving DecidableEq

inductive Bypass
  | none
  | urgent
  | urgentInput
  deriving DecidableEq

structure Downtime where
  id : String
  enabled : Bool
  days : List ℕ
  startMin : ℕ
  endMin : ℕ
  bypass : Bypass
  deriving DecidableEq

structure Pause where
  /-- Until resumed when absent. -/
  endsAt : Option ℤ
  letUrgent : Bool
  setAt : ℤ
  deriving DecidableEq

inductive HeldReason
  | rule (id : String)
  | defaultLevel
  | pause
  | downtime (id : String)
  deriving DecidableEq

structure NotifyRequest where
  kind : Kind
  priority : Priority
  source : Source
  dedupeKey : Option String
  tags : List String
  deriving DecidableEq

structure Settings where
  rules : List Rule := []
  defaultLevel : Level := .all
  pause : Option Pause := none
  downtimes : List Downtime := []
  deriving DecidableEq

/-! The policy. -/

def strictness : Level → ℕ
  | .all => 0
  | .high => 1
  | .urgent => 2
  | .off => 3

def sourceScopeValue (s : Source) : String :=
  match s.kind with
  | .user => "user"
  | .workspace => "workspace:" ++ s.id.getD ""
  | .automation => "automation:" ++ s.id.getD ""

def levelAllows (level : Level) (priority : Priority) : Bool :=
  match level with
  | .all => true
  | .high => priority = .high || priority = .urgent
  | .urgent => priority = .urgent
  | .off => false

structure EffectiveRule where
  level : Level
  ruleId : Option String
  deriving DecidableEq

def asEffective (r : Rule) (now : ℤ) : EffectiveRule :=
  ⟨if r.snoozeUntil.any fun t => now < t then .off else r.level, some r.id⟩

/-- The strictest of the rules of the tags, the first of equals. -/
def strictest : List EffectiveRule → Option EffectiveRule
  | [] => none
  | r :: rs =>
    some (rs.foldl (fun a b => if strictness a.level < strictness b.level then b else a) r)

def effectiveRule (req : NotifyRequest) (rules : List Rule) (defaultLevel : Level) (now : ℤ) :
    EffectiveRule :=
  let find := fun kind value => rules.find? fun r => r.scopeKind = kind ∧ r.scopeValue = value
  let src := sourceScopeValue req.source
  let byKey := (req.dedupeKey.filter fun k => k ≠ "").bind fun k => find .key (src ++ ":" ++ k)
  let byTags := strictest ((req.tags.filterMap (find .tag)).map fun r => asEffective r now)
  match byKey.or (find .source src) with
  | some r => asEffective r now
  | none => byTags.getD ⟨defaultLevel, none⟩

structure Window where
  downtime : Downtime
  start : ℤ

def pauseActive (p : Option Pause) (now : ℤ) : Bool :=
  p.any fun p => p.endsAt.all fun t => now < t

section Policy
-- the start of the window of an enabled downtime that contains a time, in the host's local time
variable (windowAt : Downtime → ℤ → Option ℤ)

def activeDowntime (ds : List Downtime) (now : ℤ) : Option Window :=
  ds.findSome? fun d => if d.enabled then (windowAt d now).map (Window.mk d) else none

/-- Delivered when `none`. -/
def resolve (req : NotifyRequest) (ctx : Settings) (now : ℤ) : Option HeldReason :=
  if req.kind = .test ∨ req.kind = .digest then none
  else
    let eff := effectiveRule req ctx.rules ctx.defaultLevel now
    if levelAllows eff.level req.priority = false then
      some (eff.ruleId.elim .defaultLevel .rule)
    else
      let dt := activeDowntime windowAt ctx.downtimes now
      let deciding := ctx.pause.filter fun p =>
        pauseActive ctx.pause now && dt.all fun w => w.start ≤ p.setAt
      match deciding, dt with
      | some p, _ => if req.priority = .urgent ∧ p.letUrgent then none else some .pause
      | none, some w =>
        if (w.downtime.bypass ≠ .none ∧ req.priority = .urgent) ∨
            (w.downtime.bypass = .urgentInput ∧ req.kind = .inputWait) then none
        else some (.downtime w.downtime.id)
      | none, none => none

end Policy

/-! The store and the service. -/

structure Row where
  id : ℕ
  ts : ℤ
  kind : Kind
  title : String
  body : Option String
  priority : Priority
  source : Source
  dedupeKey : Option String
  tags : List String
  heldReason : Option HeldReason
  digested : Bool
  clearedAt : Option ℤ
  deriving DecidableEq

def Row.delivered (r : Row) : Bool := r.heldReason.isNone

/-- Held by a pause or a downtime. -/
def Row.heldQuiet (r : Row) : Bool :=
  match r.heldReason with
  | some .pause => true
  | some (.downtime _) => true
  | _ => false

structure Store where
  settings : Settings := {}
  notifications : List Row := []
  quietSince : Option ℤ := none
  nextId : ℕ := 0
  deriving DecidableEq

structure Input where
  req : NotifyRequest
  title : String
  body : Option String
  deriving DecidableEq

def Store.insert (st : Store) (input : Input) (ts : ℤ) (heldReason : Option HeldReason) : Store :=
  { st with
    notifications := st.notifications ++
      [{ id := st.nextId, ts := ts, kind := input.req.kind, title := input.title,
         body := input.body, priority := input.req.priority, source := input.req.source,
         dedupeKey := input.req.dedupeKey, tags := input.req.tags, heldReason := heldReason,
         digested := false, clearedAt := none }]
    nextId := st.nextId + 1 }

/-- The rows in the order of their times, then of their ids. -/
def Store.heldQuietSince (st : Store) (since : ℤ) : List Row :=
  (st.notifications.filter fun r => r.heldQuiet ∧ r.digested = false ∧ since ≤ r.ts).insertionSort
    fun a b => a.ts < b.ts ∨ a.ts = b.ts ∧ a.id ≤ b.id

def Store.markDigested (st : Store) (ids : List ℕ) : Store :=
  { st with
    notifications := st.notifications.map fun r =>
      if r.id ∈ ids then { r with digested := true } else r }

def Store.clearByKey (st : Store) (key : String) (now : ℤ) : Store :=
  { st with
    notifications := st.notifications.map fun r =>
      if r.dedupeKey = some key ∧ r.clearedAt = none then { r with clearedAt := some now } else r }

/-- A request under way, with what it has read so far. -/
structure Request where
  input : Input
  now : ℤ
  rules : Option (List Rule) := none
  defaultLevel : Option Level := none
  pause : Option (Option Pause) := none
  downtimes : Option (List Downtime) := none
  deriving DecidableEq

inductive Part
  | rules
  | defaultLevel
  | pause
  | downtimes
  deriving DecidableEq

def Request.read (r : Request) (s : Settings) : Part → Request
  | .rules => { r with rules := some s.rules }
  | .defaultLevel => { r with defaultLevel := some s.defaultLevel }
  | .pause => { r with pause := some s.pause }
  | .downtimes => { r with downtimes := some s.downtimes }

/-- What the request resolves against, once all four reads are back. -/
def Request.settings (r : Request) : Option Settings :=
  match r.rules, r.defaultLevel, r.pause, r.downtimes with
  | some rules, some level, some pause, some downtimes => some ⟨rules, level, pause, downtimes⟩
  | _, _, _, _ => none

/-- What a tick found of the quiet period, and the ids of the rows held at that moment. -/
structure Found where
  now : ℤ
  pause : Option Pause
  window : Option Window
  due : List ℕ

def Found.quiet (f : Found) : Bool := f.pause.isSome || f.window.isSome

/-- The next store call of the tick under way. -/
inductive Phase
  | getPause (now : ℤ)
  /-- The pause as read; an expired one is cleared next. -/
  | clearPause (now : ℤ)
  | downtimes (now : ℤ) (live : Option Pause)
  | getQuietSince (f : Found)
  | setQuietSince (since : ℤ)
  | clearQuietSince (f : Found) (since : ℤ)
  | readHeld (f : Found) (since : ℤ)
  | markDigested (f : Found) (held : List Row)
  | sendDigest (f : Found) (held : List Row)

/-- A digest as sent, with the rows it counts. -/
structure Digest where
  id : ℕ
  found : Found
  counted : List ℕ

structure State where
  store : Store := {}
  requests : List Request := []
  tick : Option Phase := none
  /-- The digests sent, and what the ticks found that ran to their end outside a quiet period. -/
  digests : List Digest := []
  finished : List Found := []

/-- How many digests count the notification. -/
def State.counts (s : State) (id : ℕ) : ℕ := s.digests.countP fun d => id ∈ d.counted

def digestBody (held : List Row) : String :=
  let inputs := held.countP fun n => n.kind = .inputWait ∧ n.clearedAt = none
  let todos := held.countP fun n => n.kind = .todo
  let urgent := held.countP fun n => n.priority = .urgent
  let other := held.length - inputs - todos
  " · ".intercalate
    ((if inputs = 0 then [] else [toString inputs ++ " needs input"]) ++
     (if todos = 0 then [] else [toString todos ++ " todo" ++ (if 1 < todos then "s" else "") ++
       if urgent = 0 then " (none urgent)" else ""]) ++
     if other = 0 then [] else [toString other ++ " other"])

def digestInput (held : List Row) : Input :=
  { req :=
      { kind := .digest
        priority := if held.any fun n => n.priority = .urgent then .urgent else .normal
        source := ⟨.user, none⟩
        dedupeKey := none
        tags := [] }
    title := "Notifications resumed: " ++ toString held.length ++ " held"
    body := some (digestBody held) }

inductive Action
  /-- The user changes rules, default level, pause or downtimes. -/
  | configure (settings : Settings)
  | clearByKey (key : String) (now : ℤ)
  | request (input : Input) (now : ℤ)
  | read (n : ℕ) (part : Part)
  /-- A request stores its row. -/
  | insert (n : ℕ)
  | startTick (now : ℤ)
  /-- The tick under way makes its next store call. -/
  | tick (now : ℤ)
  | crash

section Service
variable (windowAt : Downtime → ℤ → Option ℤ)

/-- The tick ends here. -/
def State.finish (s : State) (f : Found) : State :=
  { s with
    tick := none
    finished := if f.quiet then s.finished else f :: s.finished }

def tickOnce (s : State) (now' : ℤ) : Phase → State
  | .getPause now =>
    let pause := s.store.settings.pause
    if pauseActive pause now then { s with tick := some (.downtimes now pause) }
    else if pause.isSome then { s with tick := some (.clearPause now) }
    else { s with tick := some (.downtimes now none) }
  | .clearPause now =>
    { s with
      store := { s.store with settings := { s.store.settings with pause := none } }
      tick := some (.downtimes now none) }
  | .downtimes now live =>
    { s with
      tick := some (.getQuietSince
        { now := now
          pause := live
          window := activeDowntime windowAt s.store.settings.downtimes now
          due := (s.store.notifications.filter Row.heldQuiet).map Row.id }) }
  | .getQuietSince f =>
    match f.quiet, s.store.quietSince with
    | true, none =>
      { s with
        tick := some (.setQuietSince (min ((f.pause.map Pause.setAt).getD f.now)
          ((f.window.map Window.start).getD f.now))) }
    | false, some since => { s with tick := some (.clearQuietSince f since) }
    | _, _ => s.finish f
  | .setQuietSince since =>
    { s with store := { s.store with quietSince := some since }, tick := none }
  | .clearQuietSince f since =>
    { s with
      store := { s.store with quietSince := none }
      tick := some (.readHeld f since) }
  | .readHeld f since =>
    let held := s.store.heldQuietSince since
    if held = [] then s.finish f else { s with tick := some (.markDigested f held) }
  | .markDigested f held =>
    { s with
      store := s.store.markDigested (held.map Row.id)
      tick := some (.sendDigest f held) }
  | .sendDigest f held =>
    -- a digest is delivered whatever its own request reads of the settings
    State.finish
      { s with
        store := s.store.insert (digestInput held) now'
          (resolve windowAt (digestInput held).req s.store.settings now')
        digests := ⟨s.store.nextId, f, held.map Row.id⟩ :: s.digests } f

def step (s : State) : Action → Option State
  | .configure settings => some { s with store := { s.store with settings := settings } }
  | .clearByKey key now => some { s with store := s.store.clearByKey key now }
  | .request input now => some { s with requests := s.requests ++ [{ input := input, now := now }] }
  | .read n part =>
    match s.requests[n]? with
    | none => none
    | some r => some { s with requests := s.requests.set n (r.read s.store.settings part) }
  | .insert n =>
    match s.requests[n]? with
    | none => none
    | some r =>
      r.settings.map fun settings =>
        { s with
          store := s.store.insert r.input r.now (resolve windowAt r.input.req settings r.now)
          requests := s.requests.eraseIdx n }
  | .startTick now =>
    match s.tick with
    | none => some { s with tick := some (.getPause now) }
    | some _ => none
  | .tick now => s.tick.map (tickOnce windowAt s now)
  | .crash => some { s with requests := [], tick := none }

end Service
end ClaudeFleet.Notify
