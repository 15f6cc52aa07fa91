import Mathlib.Tactic
import Mathlib.Data.Rat.Floor

/-! The knowledge capture settings of a workspace. Numbers are exact: a value that is not a finite
number is absent. -/
namespace ClaudeFleet.Capture

inductive CaptureVisibility
  | fleet
  | priv
  deriving DecidableEq

structure CaptureSettings where
  enabled : Bool
  onSearchHit : Bool
  searchTopSessions : ℤ
  recaptureAfterTurns : ℤ
  contextBands : List ℚ
  turnsEvery : ℤ
  model : String
  transcriptRetentionDays : ℤ
  captureVisibility : CaptureVisibility
  deriving DecidableEq

/-- An object with some of the settings. A field of the wrong type counts as absent, which is how
`normalizeCaptureSettings` reads it. -/
structure Patch where
  enabled : Option Bool := none
  onSearchHit : Option Bool := none
  searchTopSessions : Option ℚ := none
  recaptureAfterTurns : Option ℚ := none
  contextBands : Option (List ℚ) := none
  turnsEvery : Option ℚ := none
  model : Option String := none
  transcriptRetentionDays : Option ℚ := none
  captureVisibility : Option CaptureVisibility := none
  deriving DecidableEq

def CaptureSettings.toPatch (s : CaptureSettings) : Patch where
  enabled := some s.enabled
  onSearchHit := some s.onSearchHit
  searchTopSessions := some s.searchTopSessions
  recaptureAfterTurns := some s.recaptureAfterTurns
  contextBands := some s.contextBands
  turnsEvery := some s.turnsEvery
  model := some s.model
  transcriptRetentionDays := some s.transcriptRetentionDays
  captureVisibility := some s.captureVisibility

/-- `{ ...p, ...q }` -/
def Patch.spread (p q : Patch) : Patch where
  enabled := q.enabled <|> p.enabled
  onSearchHit := q.onSearchHit <|> p.onSearchHit
  searchTopSessions := q.searchTopSessions <|> p.searchTopSessions
  recaptureAfterTurns := q.recaptureAfterTurns <|> p.recaptureAfterTurns
  contextBands := q.contextBands <|> p.contextBands
  turnsEvery := q.turnsEvery <|> p.turnsEvery
  model := q.model <|> p.model
  transcriptRetentionDays := q.transcriptRetentionDays <|> p.transcriptRetentionDays
  captureVisibility := q.captureVisibility <|> p.captureVisibility

def defaultCaptureSettings : CaptureSettings where
  enabled := true
  onSearchHit := true
  searchTopSessions := 3
  recaptureAfterTurns := 30
  contextBands := [85 / 100]
  turnsEvery := 0
  model := "session"
  transcriptRetentionDays := 365
  captureVisibility := .fleet

/-- `Math.round` -/
def round (x : ℚ) : ℤ := ⌊x + 1 / 2⌋

def clampInt (v : Option ℚ) (min' max' dflt : ℤ) : ℤ :=
  match v with
  | none => dflt
  | some x => min max' (max min' (round x))

def normalizeContextBands (v : List ℚ) : List ℚ :=
  let vals := v.map fun x => (round (min (95 / 100) (max (1 / 2) x) * 100) : ℚ) / 100
  (vals.dedup.insertionSort (· ≤ ·)).take 4

def modelChar (c : Char) : Bool :=
  ('a' ≤ c && c ≤ 'z') || ('0' ≤ c && c ≤ '9') || c == '.' || c == '-' || c == '[' || c == ']'

/-- The test of CAPTURE_MODEL_RE. -/
def isModelId (s : String) : Bool :=
  let tail := s.toList.drop 7
  s.toList.take 7 == "claude-".toList && tail.all modelChar && 1 ≤ tail.length && tail.length ≤ 60

def normalizeTurnsEvery (v : Option ℚ) : ℤ :=
  let t := (v.map round).getD 0
  if t ≤ 0 then 0 else min 500 (max 10 t)

/-- `normalizeCaptureSettings` of an object, or of no value. -/
def normalizeCaptureSettings (v : Option Patch) : CaptureSettings :=
  match v with
  | none => defaultCaptureSettings
  | some o =>
    let d := defaultCaptureSettings
    { enabled := o.enabled.getD d.enabled
      onSearchHit := o.onSearchHit.getD d.onSearchHit
      searchTopSessions := clampInt o.searchTopSessions 1 5 d.searchTopSessions
      recaptureAfterTurns := clampInt o.recaptureAfterTurns 10 500 d.recaptureAfterTurns
      contextBands := (o.contextBands.map normalizeContextBands).getD d.contextBands
      turnsEvery := normalizeTurnsEvery o.turnsEvery
      model := (o.model.filter fun m => m = "session" ∨ isModelId m).getD d.model
      transcriptRetentionDays :=
        clampInt o.transcriptRetentionDays 30 3650 d.transcriptRetentionDays
      captureVisibility := if o.captureVisibility = some .priv then .priv else .fleet }

def isDefaultCaptureSettings (s : CaptureSettings) : Bool := s = defaultCaptureSettings

/-- A field, when it differs. -/
def changed {α β : Type} [DecidableEq α] (before after : α) (f : α → β) : Option β :=
  if before = after then none else some (f after)

def diffCaptureSettings (before after : CaptureSettings) : Patch where
  enabled := changed before.enabled after.enabled id
  onSearchHit := changed before.onSearchHit after.onSearchHit id
  searchTopSessions := changed before.searchTopSessions after.searchTopSessions fun x => (x : ℚ)
  recaptureAfterTurns :=
    changed before.recaptureAfterTurns after.recaptureAfterTurns fun x => (x : ℚ)
  contextBands := changed before.contextBands after.contextBands id
  turnsEvery := changed before.turnsEvery after.turnsEvery fun x => (x : ℚ)
  model := changed before.model after.model id
  transcriptRetentionDays :=
    changed before.transcriptRetentionDays after.transcriptRetentionDays fun x => (x : ℚ)
  captureVisibility := changed before.captureVisibility after.captureVisibility id

/-- Why a change needs the user's approval. -/
inductive Reason
  | captureOn
  | searchHitOn
  | moreSessions (before after : ℤ)
  | recapturesSooner (before after : ℤ)
  | addsBand (before after : List ℚ)
  | lowersBand (before after : List ℚ)
  | periodicOn (every : ℤ)
  | moreOften (before after : ℤ)
  | model (after : String)
  | publishes
  | deletesSooner (before after : ℤ)

def bandReasons (before after : List ℚ) : List Reason :=
  let b := before.insertionSort (· ≤ ·)
  let a := after.insertionSort (· ≤ ·)
  if b.length < a.length then [.addsBand b a]
  else if (a.zip b).any fun x => x.1 < x.2 then [.lowersBand b a]
  else []

def turnsReasons (before after : ℤ) : List Reason :=
  if before = 0 ∧ 0 < after then [.periodicOn after]
  else if 0 < before ∧ 0 < after ∧ after < before then [.moreOften before after]
  else []

def reason (b : Bool) (r : Reason) : List Reason := if b then [r] else []

/-- `classifyNeedsApproval`: approval is needed where there is a reason. -/
def classifyNeedsApproval (before after : CaptureSettings) : List Reason :=
  [reason (!before.enabled && after.enabled) .captureOn,
    reason (!before.onSearchHit && after.onSearchHit) .searchHitOn,
    reason (before.searchTopSessions < after.searchTopSessions)
      (.moreSessions before.searchTopSessions after.searchTopSessions),
    reason (after.recaptureAfterTurns < before.recaptureAfterTurns)
      (.recapturesSooner before.recaptureAfterTurns after.recaptureAfterTurns),
    bandReasons before.contextBands after.contextBands,
    turnsReasons before.turnsEvery after.turnsEvery,
    reason (after.model ≠ "session" && after.model ≠ before.model) (.model after.model),
    reason (before.captureVisibility = .priv && after.captureVisibility = .fleet) .publishes,
    reason (after.transcriptRetentionDays < before.transcriptRetentionDays)
      (.deletesSooner before.transcriptRetentionDays after.transcriptRetentionDays)].flatten

end ClaudeFleet.Capture
