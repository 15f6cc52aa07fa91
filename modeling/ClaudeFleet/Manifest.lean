import ClaudeFleet.Control
import ClaudeFleet.Transition

/-! The operations that rewrite a workspace's manifest, and the control check that reads it. An
operation reads the whole manifest, awaits whatever its work is, and writes the whole object back.
Each read and each atomic write of a manifest is one step. What an operation still does after its
write (log entries, scripts, notifications) does not touch a manifest and is not followed. -/
namespace ClaudeFleet.Manifest
open Capture Control

/-- The spec a form sends to `workspace:writeManifest`. An optional key that the form leaves out is
`none`; a key that it sets to undefined is `some none`. -/
structure Edit (R : Type) where
  name : String
  kind : WorkspaceKind
  installedLoadouts : Option (List InstalledLoadout) := none
  control : Option (Option ControlConfig) := none
  accessibility : Option (Option AccessibilityConfig) := none
  knowledgeCapture : Option (Option Patch) := none
  lastUsedAt : ℤ
  rest : Option R → R

inductive Op (R : Type)
  | touchWorkspaceUsed
  | installLoadout (loadoutId : String)
  | uninstallLoadout (loadoutId : String)
  | setCapture (patch : Patch)
  | applyApproved (before after : CaptureSettings)
  | edit (e : Edit R)
  /-- The committee rail: it reads the manifest, swaps in the new grants and sends all of it. -/
  | regrant (control : Option ControlConfig)

/-- What an operation does to the manifest it has read. -/
inductive Change (R : Type)
  | used (now : ℤ)
  | installed (record : InstalledLoadout)
  | uninstalled (loadoutId : String)
  | captured (next : CaptureSettings)
  | edited (e : Edit R) (workspaceRoot : String)
  | regranted (control : Option ControlConfig) (workspaceRoot : String)

inductive Outcome
  | written
  | absent
  | unchanged
  | proposed
  | threw (message : String)
  deriving DecidableEq

inductive Pc (R : Type)
  | reading
  | working (read : Option (WorkspaceSpec R))
  | trusting (read : WorkspaceSpec R) (after : CaptureSettings)
  | proposing
  | writing (read : Option (WorkspaceSpec R)) (c : Change R)
  | finished (o : Outcome)

/-- `assertControl` reads both manifests at once, and decides when it has the two. -/
inductive CheckPc (R : Type)
  | reading (caller target : Option (Option (WorkspaceSpec R)))
  | decided (r : Except String Unit)

inductive Task (R : Type)
  | op (workspaceId : String) (o : Op R) (pc : Pc R)
  | check (callerId targetId : String) (verb : CommitteeVerb) (pc : CheckPc R)

structure State (R : Type) where
  manifests : String → Option (WorkspaceSpec R)
  next : ℕ
  tasks : ℕ → Option (Task R)

variable {R : Type}

def State.start (manifests : String → Option (WorkspaceSpec R)) : State R :=
  ⟨manifests, 0, fun _ => none⟩

def State.goto (s : State R) (t : ℕ) (x : Task R) : State R :=
  { s with tasks := Function.update s.tasks t (some x) }

def State.spawn (s : State R) (x : Task R) : State R :=
  { s.goto s.next x with next := s.next + 1 }

/-- `readWorkspaceManifest` -/
def State.read (s : State R) (id : String) : Option (WorkspaceSpec R) :=
  (s.manifests id).map WorkspaceSpec.parse

/-- `{ ...(existing ?? {}), ...spec, workspaceRoot }` -/
def Edit.over (e : Edit R) (id workspaceRoot : String) (existing : Option (WorkspaceSpec R)) :
    WorkspaceSpec R where
  id := id
  name := e.name
  workspaceRoot := workspaceRoot
  kind := e.kind
  installedLoadouts :=
    e.installedLoadouts.getD ((existing.map WorkspaceSpec.installedLoadouts).getD [])
  control := e.control.getD (existing.bind WorkspaceSpec.control)
  accessibility := e.accessibility.getD (existing.bind WorkspaceSpec.accessibility)
  knowledgeCapture := e.knowledgeCapture.getD (existing.bind WorkspaceSpec.knowledgeCapture)
  lastUsedAt := e.lastUsedAt
  rest := e.rest (existing.map WorkspaceSpec.rest)

/-- The object that is written. -/
def Change.apply (id : String) (m : Option (WorkspaceSpec R)) :
    Change R → Option (WorkspaceSpec R)
  | .used now => m.map fun ws => { ws with lastUsedAt := now }
  | .installed record => m.map fun ws =>
    { ws with
      installedLoadouts := (ws.installedLoadouts.filter fun l => l.id ≠ record.id) ++ [record] }
  | .uninstalled loadoutId => m.map fun ws =>
    { ws with installedLoadouts := ws.installedLoadouts.filter fun l => l.id ≠ loadoutId }
  | .captured next => m.map fun ws =>
    { ws with
      knowledgeCapture := if isDefaultCaptureSettings next then none else some next.toPatch }
  | .edited e workspaceRoot => some (e.over id workspaceRoot m)
  | .regranted control workspaceRoot => m.map fun ws =>
    { ws with control := control, workspaceRoot := workspaceRoot }

/-- `writeWorkspaceManifest` -/
def State.write (s : State R) (id : String) (m : Option (WorkspaceSpec R)) : State R :=
  { s with manifests := Function.update s.manifests id (m.map WorkspaceSpec.toWrite) }

inductive Answer
  | now (now : ℤ)
  | ok
  | failed (message : String)
  | record (r : InstalledLoadout)
  | root (path : String)
  | trusted (b : Bool)
  | caller
  | target

def notRemote (kind : WorkspaceKind) (existing : Option (WorkspaceSpec R)) : Bool :=
  kind ≠ .remote && !existing.any fun ws => ws.kind = .remote

def remoteError : String := "Remote workspaces are added and renamed from their own form"

/-- An operation has read its manifest. -/
def Op.afterRead (id : String) (now : ℤ) (m : Option (WorkspaceSpec R)) : Op R → Pc R
  | .touchWorkspaceUsed =>
    match m with
    | none => .finished .absent
    | some ws => .writing (some ws) (.used now)
  | .installLoadout _ =>
    match m with
    | none => .finished (.threw s!"no workspace {id}")
    | some ws =>
      if ws.kind ≠ .container then
        .finished (.threw ("Loadouts can only be installed into container workspaces " ++
          "(local runs in your own repo; remote is managed by its deployment)."))
      else .working (some ws)
  | .uninstallLoadout _ =>
    match m with
    | none => .finished .absent
    | some ws => .working (some ws)
  | .setCapture patch =>
    match m with
    | none => .finished (.threw "workspace not found")
    | some ws =>
      if ws.kind = .remote then
        .finished (.threw "knowledge capture is not available for remote workspaces")
      else
        let before := effectiveCaptureSettings ws
        let after := normalizeCaptureSettings (some (before.toPatch.spread patch))
        if before = after then .finished .unchanged
        else if (classifyNeedsApproval before after).isEmpty then .writing (some ws) (.captured after)
        else .trusting ws after
  | .applyApproved before after =>
    match m with
    | none => .finished (.threw "workspace not found")
    | some ws =>
      .writing (some ws) (.captured (normalizeCaptureSettings
        (some ((effectiveCaptureSettings ws).toPatch.spread (diffCaptureSettings before after)))))
  | .edit e => if notRemote e.kind m then .working m else .finished (.threw remoteError)
  | .regrant _ =>
    match m with
    | none => .finished .absent
    | some ws => .working (some ws)

/-- An operation has done its work between the read and the write. `existing` is the manifest as it
is now, which the handler of a regrant looks at. -/
def Op.afterWork (m existing : Option (WorkspaceSpec R)) : Op R → Answer → Option (Pc R)
  | .installLoadout loadoutId, .record r =>
    some (.writing m (.installed { r with id := loadoutId }))
  | .uninstallLoadout loadoutId, .ok => some (.writing m (.uninstalled loadoutId))
  | .edit e, .root path => some (.writing m (.edited e path))
  | .regrant control, .root path =>
    if m.all fun ws => notRemote ws.kind existing then some (.writing m (.regranted control path))
    else some (.finished (.threw remoteError))
  | _, _ => none

def State.resumeOp (s : State R) (t : ℕ) (id : String) (o : Op R) (pc : Pc R) (a : Answer) :
    Option (State R) :=
  let goto := fun (s : State R) pc => some (s.goto t (.op id o pc))
  match pc, a with
  | .finished _, _ => none
  | _, .failed e => goto s (.finished (.threw e))
  | .reading, .now now => goto s (o.afterRead id now (s.read id))
  | .working m, a =>
    match o.afterWork m (s.read id) a with
    | none => none
    | some pc => goto s pc
  | .trusting ws after, .trusted b =>
    if b then goto s (.writing (some ws) (.captured after)) else goto s .proposing
  | .proposing, .ok => goto s (.finished .proposed)
  | .writing m c, .ok => goto (s.write id (c.apply id m)) (.finished .written)
  | _, _ => none

/-- Both manifests are there, or one more read is awaited. -/
def settle (callerId targetId : String) (verb : CommitteeVerb) :
    Option (Option (WorkspaceSpec R)) → Option (Option (WorkspaceSpec R)) → CheckPc R
  | some caller, some target => .decided (decideControl caller target callerId targetId verb)
  | caller, target => .reading caller target

def State.resumeCheck (s : State R) (t : ℕ) (callerId targetId : String) (verb : CommitteeVerb)
    (pc : CheckPc R) (a : Answer) : Option (State R) :=
  match pc, a with
  | .reading none target, .caller =>
    some (s.goto t (.check callerId targetId verb
      (settle callerId targetId verb (some (s.read callerId)) target)))
  | .reading caller none, .target =>
    some (s.goto t (.check callerId targetId verb
      (settle callerId targetId verb caller (some (s.read targetId)))))
  | _, _ => none

inductive Action (R : Type)
  | start (workspaceId : String) (o : Op R)
  | assertControl (callerId targetId : String) (verb : CommitteeVerb)
  | resume (t : ℕ) (a : Answer)

def step (s : State R) : Action R → Option (State R)
  | .start id o => some (s.spawn (.op id o .reading))
  | .assertControl callerId targetId verb =>
    some (s.spawn (.check callerId targetId verb (.reading none none)))
  | .resume t a =>
    match s.tasks t with
    | some (.op id o pc) => s.resumeOp t id o pc a
    | some (.check callerId targetId verb pc) => s.resumeCheck t callerId targetId verb pc a
    | none => none

end ClaudeFleet.Manifest
