import ClaudeFleet.JsonlWatcher

/-! No line is lost as long as an offset is only taken for a position in a file that still begins
with the bytes that were read up to it. The watcher itself compares sizes only. -/
namespace ClaudeFleet.JsonlWatcher
open Records HostIngest Transition

variable {L : Type} (lineOf : Bytes → Option L)

/-- The file at the open handle. -/
def Watcher.content (w : Watcher L) (unlinked : Option Bytes) : Bytes :=
  unlinked.getD (w.file.getD [])

def AllPassed (w : Watcher L) (content : Bytes) : Prop :=
  ∀ l ∈ lines lineOf content, l ∈ w.passed

structure FileState.Ok (w : Watcher L) (state : FileState) : Prop where
  length : state.seen.length = state.offset
  boundary : Boundary newline state.seen
  passed : AllPassed lineOf w state.seen

def Phase.Ok (w : Watcher L) : Phase → Prop
  | .idle => True
  | .stat state => state.Ok lineOf w
  | .openFile state => state.Ok lineOf w
  | .fstat state _ => state.Ok lineOf w
  | .read state _ _ => state.Ok lineOf w
  | .ingest state bytes =>
    FileState.Ok lineOf w ⟨state.offset + bytes.length, state.seen ++ bytes⟩

/-- What a run has found of a file that was not written since. -/
def Fresh (w : Watcher L) (content : Bytes) : Phase → Prop
  | .idle => AllPassed lineOf w content
  | .stat _ => True
  | .openFile state => state.offset < content.length
  | .fstat state unlinked => unlinked = none ∧ state.offset < content.length
  | .read state unlinked size => unlinked = none ∧ size = content.length ∧ state.offset < size
  | .ingest _ _ => AllPassed lineOf w content

structure Covered (w : Watcher L) : Prop where
  files : ∀ state, w.files = some state → state.Ok lineOf w
  phase : w.phase.Ok lineOf w
  fresh : ∀ content, w.file = some content →
    w.owed = true ∨ 0 < w.queue ∨ Fresh lineOf w content w.phase

variable {lineOf}

theorem lines_append {a : Bytes} (h : Boundary newline a) (b : Bytes) :
    lines lineOf (a ++ b) = lines lineOf a ++ lines lineOf b := by
  unfold lines
  rw [complete_append h, List.filterMap_append]

theorem AllPassed.mono {w v : Watcher L} {content : Bytes} (h : AllPassed lineOf w content)
    (hpassed : w.passed ⊆ v.passed) : AllPassed lineOf v content :=
  fun l hl => hpassed (h l hl)

theorem FileState.Ok.mono {w v : Watcher L} {state : FileState} (h : state.Ok lineOf w)
    (hpassed : w.passed ⊆ v.passed) : state.Ok lineOf v :=
  ⟨h.length, h.boundary, h.passed.mono hpassed⟩

theorem Phase.Ok.mono {w v : Watcher L} {p : Phase} (h : p.Ok lineOf w)
    (hpassed : w.passed ⊆ v.passed) : p.Ok lineOf v := by
  cases p with
  | idle => trivial
  | stat state => exact FileState.Ok.mono h hpassed
  | openFile state => exact FileState.Ok.mono h hpassed
  | fstat state unlinked => exact FileState.Ok.mono h hpassed
  | read state unlinked size => exact FileState.Ok.mono h hpassed
  | ingest state bytes => exact FileState.Ok.mono h hpassed

theorem Phase.Ok.unlinkHandle {w : Watcher L} {p : Phase} (h : p.Ok lineOf w) (content : Bytes) :
    (unlinkHandle content p).Ok lineOf w := by
  cases p with
  | fstat state unlinked => cases unlinked <;> exact h
  | read state unlinked size => cases unlinked <;> exact h
  | idle => exact h
  | stat state => exact h
  | openFile state => exact h
  | ingest state bytes => exact h

theorem Fresh.mono {w v : Watcher L} {content : Bytes} {p : Phase}
    (h : Fresh lineOf w content p) (hpassed : w.passed ⊆ v.passed) : Fresh lineOf v content p := by
  cases p with
  | idle => exact AllPassed.mono h hpassed
  | stat state => trivial
  | openFile state => exact h
  | fstat state unlinked => exact h
  | read state unlinked size => exact h
  | ingest state bytes => exact AllPassed.mono h hpassed

/-- A step that passes nothing on keeps the states it keeps. -/
theorem Covered.set {w : Watcher L} (hw : Covered lineOf w) {files : Option FileState} {p : Phase}
    (hfiles : ∀ state, files = some state → state.Ok lineOf w) (hp : p.Ok lineOf w)
    (hfresh : ∀ content, w.file = some content → w.owed = false → w.queue = 0 →
      Fresh lineOf w content w.phase → Fresh lineOf w content p) :
    Covered lineOf { w with files := files, phase := p } := by
  have hpassed : w.passed ⊆ { w with files := files, phase := p }.passed := fun _ h => h
  refine ⟨fun state hs => (hfiles state hs).mono hpassed, hp.mono hpassed, fun content hc => ?_⟩
  rcases hw.fresh content hc with howed | hqueue | hold
  · exact .inl howed
  · exact .inr (.inl hqueue)
  · by_cases howed : w.owed = true
    · exact .inl howed
    · by_cases hqueue : w.queue = 0
      · exact .inr (.inr ((hfresh content hc (by simpa using howed) hqueue hold).mono hpassed))
      · exact .inr (.inl (Nat.pos_of_ne_zero hqueue))

def exLineOf (raw : Bytes) : Option Bytes := if raw = [] then none else some raw

def oneRun : List Action := [.process, .stat, .openFile, .fstat, .read, .ingest true]

/-- A file is read, deleted and created again, with its events between the runs. -/
def exRun : List Action :=
  ([.create [97, 10], .event .add] : List Action) ++ oneRun ++
    ([.delete, .event .unlink, .create [98, 10, 99, 10], .event .add] : List Action) ++ oneRun

end ClaudeFleet.JsonlWatcher
