import ClaudeFleet.JsMap
import ClaudeFleet.JsValue
import ClaudeFleet.SelfDelimiting
import ClaudeFleet.TextOrder
import ClaudeFleet.Transition

/-! The status files of the running sessions: the last status of each file, the snapshot of one
status for each session, and the changes of it that are emitted. -/
namespace ClaudeFleet.PeerStatusWatcher
open Js Transition

inductive PeerStatusKind
  | busy
  | idle
  | waiting
  deriving DecidableEq

def PeerStatusKind.text : PeerStatusKind → Text
  | .busy => js "busy"
  | .idle => js "idle"
  | .waiting => js "waiting"

def PeerStatusKind.ofText (s : Text) : Option PeerStatusKind :=
  if s = js "busy" then some .busy
  else if s = js "idle" then some .idle
  else if s = js "waiting" then some .waiting
  else none

/-- A status, which waits for something that has a text if for anything. -/
structure PeerStatus where
  sessionId : Text
  status : PeerStatusKind
  waitingFor : Option Text
  statusUpdatedAt : Option ℚ
  waits : waitingFor ≠ some []
  deriving DecidableEq

/-- A finite number; the two zeros are one. -/
def finiteNumber : Value → Option ℚ
  | .num (.finite q) => some q
  | .num .negZero => some 0
  | _ => none

/-- A text that is not empty. -/
def filledText : Value → Option Text
  | .str [] => none
  | .str (u :: s) => some (u :: s)
  | _ => none

theorem filledText_ne (v : Option Value) : v.bind filledText ≠ some [] := by
  cases v with
  | none => simp
  | some v =>
    cases v with
    | str s => cases s <;> simp [filledText]
    | _ => simp [filledText]

/-- The status in a file's text, where `parseJson` reads JSON. -/
def parsePeerStatus (parseJson : Text → Option Value) (raw : Text) : Option PeerStatus := do
  let o ← parseJson raw
  let sessionId ← (o.get "sessionId").bind filledText
  let status ← ((o.get "status").bind Value.asText).bind PeerStatusKind.ofText
  return {
    sessionId, status
    waitingFor := (o.get "waitingFor").bind filledText
    statusUpdatedAt := (o.get "statusUpdatedAt").bind finiteNumber
    waits := filledText_ne _ }

def isNewer (a b : PeerStatus) : Bool :=
  match a.statusUpdatedAt, b.statusUpdatedAt with
  | some ta, some tb => decide (tb ≤ ta)
  | some _, none => true
  | none, some _ => false
  | none, none => true

/-- One more status, in the place of that of its session unless that is newer. -/
def reduceStep (out : JsMap Text PeerStatus) (e : PeerStatus) : JsMap Text PeerStatus :=
  match out.get? e.sessionId with
  | none => out.set e.sessionId e
  | some prev => if isNewer e prev then out.set e.sessionId e else out

def reducePeerStatuses (entries : List PeerStatus) : JsMap Text PeerStatus :=
  entries.foldl reduceStep .empty

def values {V : Type} (m : JsMap Text V) : List V := m.rows.map Prod.snd

/-- What the key of a snapshot says of a status. -/
abbrev Shown := Text × PeerStatusKind × Option Text

def shown (s : PeerStatus) : Shown := (s.sessionId, s.status, s.waitingFor)

def item (s : Shown) : Text := s.1 ++ (58 :: (s.2.1.text ++ (58 :: s.2.2.getD [])))

def snapshotKey (snapshot : List PeerStatus) : Text :=
  [(124 : UInt16)].intercalate (sortTexts (snapshot.map fun s => item (shown s)))

/-- The watcher's maps, and the snapshot it emitted last. -/
structure Watcher where
  byPath : JsMap Text PeerStatus := .empty
  lastKey : Text := []
  emitted : List PeerStatus := []

def snapshot (w : Watcher) : List PeerStatus :=
  values (reducePeerStatuses (values w.byPath))

def ingest (parseJson : Text → Option Value) (w : Watcher) (path raw : Text) : Watcher × Bool :=
  match parsePeerStatus parseJson raw with
  | none => (w, false)
  | some parsed =>
    match w.byPath.get? path with
    | some prev =>
      if shown prev = shown parsed then (w, false)
      else ({ w with byPath := w.byPath.set path parsed }, true)
    | none => ({ w with byPath := w.byPath.set path parsed }, true)

def drop (w : Watcher) (path : Text) : Watcher × Bool :=
  ({ w with byPath := w.byPath.delete path }, (w.byPath.get? path).isSome)

def emitIfChanged (w : Watcher) : Watcher :=
  let key := snapshotKey (snapshot w)
  if key = w.lastKey then w else { w with lastKey := key, emitted := snapshot w }

inductive Action
  | ingest (path raw : Text)
  | drop (path : Text)

def step (parseJson : Text → Option Value) (w : Watcher) : Action → Option Watcher
  | .ingest path raw => some (emitIfChanged (ingest parseJson w path raw).1)
  | .drop path => some (emitIfChanged (drop w path).1)

/-- What the files say: the last status read of each path that was not removed since, in the order
in which they were read. -/
def onRecord (parseJson : Text → Option Value) (as : List Action) : JsMap Text PeerStatus :=
  as.foldl (fun m a =>
    match a with
    | .ingest path raw =>
      match parsePeerStatus parseJson raw with
      | none => m
      | some parsed => (m.delete path).set path parsed
    | .drop path => m.delete path) .empty

/-- One status is to be preferred to another: it is stamped later, or it alone is stamped, or neither
is and it was read later. -/
def Beats (readLater : Prop) (a b : PeerStatus) : Prop :=
  match a.statusUpdatedAt, b.statusUpdatedAt with
  | some ta, some tb => tb < ta
  | some _, none => True
  | none, some _ => False
  | none, none => readLater

/-- None of the statuses of its session beats it. -/
def Chosen (entries : List PeerStatus) (s : PeerStatus) : Prop :=
  ∃ before after, entries = before ++ s :: after ∧
    (∀ r ∈ before, r.sessionId = s.sessionId → ¬Beats False r s) ∧
    ∀ r ∈ after, r.sessionId = s.sessionId → ¬Beats True r s

/-- The parts of the key can be told apart. -/
def Separable (s : PeerStatus) : Prop :=
  (58 ∉ s.sessionId ∧ 124 ∉ s.sessionId) ∧ 124 ∉ s.waitingFor.getD []

instance (s : PeerStatus) : Decidable (Separable s) :=
  inferInstanceAs (Decidable (_ ∧ _))

/-- A status that is read differs from the one its path has in more than its stamp, if in that; and
where it has no stamp, it is not read again after another one of its session that has none. -/
def Orderly (parseJson : Text → Option Value) (w : Watcher) : Action → Prop
  | .ingest path raw => ∀ parsed ∈ parsePeerStatus parseJson raw,
    Separable parsed ∧
    (∀ prev ∈ w.byPath.get? path, shown prev = shown parsed →
      prev.statusUpdatedAt = parsed.statusUpdatedAt) ∧
    (parsed.statusUpdatedAt = none → ∀ e ∈ w.byPath.following path,
      e.2.sessionId = parsed.sessionId → e.2.statusUpdatedAt ≠ none)
  | .drop _ => True

end ClaudeFleet.PeerStatusWatcher
