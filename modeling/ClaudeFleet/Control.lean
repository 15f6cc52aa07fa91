import ClaudeFleet.CaptureSettings
import ClaudeFleet.IngestParse

/-! The workspace manifest, and the committee control that it decides. Both the outbound grant of
the caller and the inbound opt-in of the target are fields of a manifest. -/
namespace ClaudeFleet.Control
open Capture IngestParse

inductive CommitteeVerb
  | read
  | post
  | pause
  deriving DecidableEq

structure ControlGrant where
  id : String
  verbs : List CommitteeVerb
  deriving DecidableEq

structure ControlConfig where
  canControl : List ControlGrant
  deriving DecidableEq

structure AccessibilityConfig where
  reachable : Bool
  acceptFrom : List String := []
  roleHint : Option String := none
  deriving DecidableEq

inductive WorkspaceKind
  | container
  | localProcess
  | remote
  deriving DecidableEq

structure HookRecord where
  event : String
  entry : Json

structure Merges where
  claudeMd : Bool := false
  settingsKeys : List String := []
  mcpServers : List String := []
  hooks : List HookRecord := []

structure InstalledLoadout where
  id : String
  title : String
  files : List String
  merges : Merges := {}
  automations : List String := []
  installedAt : ℤ

/-- The fields that only an edit sets are in `rest`. -/
structure WorkspaceSpec (R : Type) where
  id : String
  name : String
  workspaceRoot : String
  kind : WorkspaceKind
  installedLoadouts : List InstalledLoadout := []
  control : Option ControlConfig := none
  accessibility : Option AccessibilityConfig := none
  knowledgeCapture : Option Patch := none
  lastUsedAt : ℤ
  rest : R

variable {R : Type}

def sanitizeControl (c : ControlConfig) : Option ControlConfig :=
  let grants := c.canControl.filter fun g => g.verbs ≠ []
  if grants = [] then none else some ⟨grants⟩

def sanitizeAccessibility (a : AccessibilityConfig) : AccessibilityConfig :=
  { a with roleHint := a.roleHint.filter fun h => h ≠ "" }

/-- What `readWorkspaceManifest` makes of the stored object. -/
def WorkspaceSpec.parse (m : WorkspaceSpec R) : WorkspaceSpec R :=
  { m with
    control := m.control.bind sanitizeControl
    accessibility := m.accessibility.map sanitizeAccessibility
    knowledgeCapture :=
      m.knowledgeCapture.map fun k => (normalizeCaptureSettings (some k)).toPatch }

/-- What `writeWorkspaceManifest` stores. -/
def WorkspaceSpec.toWrite (m : WorkspaceSpec R) : WorkspaceSpec R :=
  { m with
    knowledgeCapture :=
      m.knowledgeCapture.map fun k => (normalizeCaptureSettings (some k)).toPatch }

def effectiveCaptureSettings (m : WorkspaceSpec R) : CaptureSettings :=
  normalizeCaptureSettings m.knowledgeCapture

def isManager (m : WorkspaceSpec R) : Bool :=
  m.control.any fun c => 0 < c.canControl.length

def CommitteeVerb.name : CommitteeVerb → String
  | .read => "read"
  | .post => "post"
  | .pause => "pause"

/-- The caller holds this verb for this target. -/
def holdsVerb (m : WorkspaceSpec R) (targetId : String) (verb : CommitteeVerb) : Bool :=
  (m.control.bind fun c => c.canControl.find? fun g => g.id = targetId).any fun g =>
    g.verbs.contains verb

def isReachable (m : WorkspaceSpec R) : Bool := m.accessibility.any fun a => a.reachable

/-- `decideControl`: a permit, or the reason of the denial. -/
def decideControl (caller target : Option (WorkspaceSpec R)) (callerId targetId : String)
    (verb : CommitteeVerb) : Except String Unit :=
  if callerId = targetId then .error "a workspace cannot control itself"
  else match caller, target with
    | none, _ => .error s!"unknown caller workspace: {callerId}"
    | some _, none => .error s!"unknown target workspace: {targetId}"
    | some c, some t =>
      if c.kind ≠ .container then
        .error "caller is a local workspace (committee control is container-only)"
      else if t.kind ≠ .container then
        .error "target is a local workspace (committee control is container-only)"
      else if isManager t then
        .error
          s!"target {targetId} is a manager; managers cannot be controlled by another manager"
      else if !isReachable t then
        .error s!"target {targetId} has not opted in (not reachable)"
      else if t.accessibility.any fun a => a.acceptFrom ≠ [] ∧ callerId ∉ a.acceptFrom then
        .error s!"target {targetId} does not accept caller {callerId}"
      else if !holdsVerb c targetId verb then
        .error s!"caller {callerId} lacks '{verb.name}' grant for {targetId}"
      else .ok ()

end ClaudeFleet.Control
