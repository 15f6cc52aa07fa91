import ClaudeFleet.JsValue

/-! What a script step prints: JSON lines that ask for todos, notifications, a state to keep or a
next run, and plain output. -/
namespace ClaudeFleet.ScriptOutput
open Js

def EXIT_NOTHING_TO_DO : ℤ := 10

def MAX_EMITS_PER_STEP : ℕ := 50

def MAX_TEXT_CHARS : ℕ := 16000

def MAX_STATE_CHARS : ℕ := 64000

/-- The language's JSON: the fields of a text in braces, if it parses, and the text of a value. -/
structure Json where
  parse : Text → Option (List (Text × Value))
  stringify : Value → Text

structure ScriptEmits where
  todos : List Value := []
  notifies : List Value := []
  /-- Without one the old state is kept. -/
  state : Option Value := none
  next : Option Value := none
  text : Text := []
  warnings : List Text := []

/-- What the loop over the lines has read. -/
structure Reading where
  out : ScriptEmits := {}
  text : List Text := []
  dropped : ℕ := 0

def carriage : UInt16 := 13

def openBrace : UInt16 := 123

def closeBrace : UInt16 := 125

/-- The line without the carriage return its end may begin with. -/
def stripCarriage (line : Text) : Text :=
  if line.getLast? = some carriage then line.dropLast else line

/-- The text split at line feeds, each with the carriage return before it. -/
def splitLines (s : Text) : List Text :=
  (lines s).dropLast.map stripCarriage ++ (lines s).getLast?.toList

/-- An object that is no array. -/
def isRecord : Value → Bool
  | .obj _ => true
  | _ => false

variable (J : Json)

namespace Reading

def plain (r : Reading) (line : Text) : Reading := { r with text := r.text ++ [line] }

def warn (r : Reading) (warning : Text) : Reading :=
  { r with out := { r.out with warnings := r.out.warnings ++ [warning] } }

def emit (r : Reading) (key : Text) (body : Value) : Reading :=
  if !isRecord body then r.warn (key ++ js " must be an object")
  else if MAX_EMITS_PER_STEP ≤ r.out.todos.length + r.out.notifies.length then
    { r with dropped := r.dropped + 1 }
  else if key = js "todo" then { r with out := { r.out with todos := r.out.todos ++ [body] } }
  else { r with out := { r.out with notifies := r.out.notifies ++ [body] } }

def keep (r : Reading) (state : Value) : Reading :=
  if MAX_STATE_CHARS < (J.stringify state).length then
    r.warn (js "state is larger than " ++ js (toString MAX_STATE_CHARS) ++
      js " characters; not saved")
  else { r with out := { r.out with state := some state } }

def line (r : Reading) (line : Text) : Reading :=
  let t := trim line
  if t.head? = some openBrace ∧ t.getLast? = some closeBrace then
    match J.parse t with
    | none => (r.warn (js "not JSON, kept as text: " ++ t.take 80)).plain line
    | some [(key, v)] =>
      if key = js "todo" ∨ key = js "notify" then r.emit key v
      else if key = js "next" then { r with out := { r.out with next := some v } }
      else if key = js "state" then r.keep J v
      else r.plain line
    | some _ => r.plain line
  else r.plain line

end Reading

def droppedWarning (n : ℕ) : Text :=
  js "only " ++ js (toString MAX_EMITS_PER_STEP) ++ js " todos/notifications per step; " ++
    js (toString n) ++ js " dropped"

/-- The end of a text that is too long. -/
def lastChars (n : ℕ) (s : Text) : Text := s.drop (s.length - n)

def parseScriptOutput (stdout : Text) : ScriptEmits :=
  let r := (splitLines stdout).foldl (Reading.line J) {}
  { r.out with
    warnings := r.out.warnings ++ (if r.dropped = 0 then [] else [droppedWarning r.dropped])
    text := lastChars MAX_TEXT_CHARS (trimEnd ([newline].intercalate r.text)) }

/-- The last few lines of a stream. -/
def tail (s : Text) (lines chars : ℕ) : Text :=
  let all := splitLines (trimEnd s)
  lastChars chars ([newline].intercalate (all.drop (all.length - lines)))

/-! What each line asks for by itself. -/

inductive Ask
  | todo (body : Value)
  | notify (body : Value)
  | next (v : Value)
  | state (v : Value)
  | nothing

namespace Ask

def todo? : Ask → Option Value
  | .todo v => some v
  | _ => none

def notify? : Ask → Option Value
  | .notify v => some v
  | _ => none

def next? : Ask → Option Value
  | .next v => some v
  | _ => none

def state? : Ask → Option Value
  | .state v => some v
  | _ => none

def emits : Ask → Bool
  | .todo _ | .notify _ => true
  | _ => false

end Ask

/-- What a line asks for, whether it is plain output, and the warning it gives. -/
structure Meaning where
  ask : Ask := .nothing
  plain : Bool := false
  warning : Option Text := none

def meaning (line : Text) : Meaning :=
  let t := trim line
  if t.head? = some openBrace ∧ t.getLast? = some closeBrace then
    match J.parse t with
    | none => { plain := true, warning := some (js "not JSON, kept as text: " ++ t.take 80) }
    | some [(key, v)] =>
      if key = js "todo" ∨ key = js "notify" then
        if !isRecord v then { warning := some (key ++ js " must be an object") }
        else if key = js "todo" then { ask := .todo v }
        else { ask := .notify v }
      else if key = js "next" then { ask := .next v }
      else if key = js "state" then
        if MAX_STATE_CHARS < (J.stringify v).length then
          { warning := some (js "state is larger than " ++ js (toString MAX_STATE_CHARS) ++
              js " characters; not saved") }
        else { ask := .state v }
      else { plain := true }
    | some _ => { plain := true }
  else { plain := true }

/-- What the lines ask for. -/
def asks (ls : List Text) : List Ask := ls.map fun line => (meaning J line).ask

/-- Those todos and notifications that fit in a step. -/
def kept (as : List Ask) : List Ask := (as.filter Ask.emits).take MAX_EMITS_PER_STEP

/-- The lines read so far. -/
structure Read (ls : List Text) (r : Reading) : Prop where
  todos : r.out.todos = (kept (asks J ls)).filterMap Ask.todo?
  notifies : r.out.notifies = (kept (asks J ls)).filterMap Ask.notify?
  next : r.out.next = ((asks J ls).filterMap Ask.next?).getLast?
  state : r.out.state = ((asks J ls).filterMap Ask.state?).getLast?
  text : r.text = ls.filter fun line => (meaning J line).plain
  warnings : r.out.warnings = ls.filterMap fun line => (meaning J line).warning
  dropped : r.dropped = ((asks J ls).filter Ask.emits).length - MAX_EMITS_PER_STEP

section Read

variable {J : Json} {ls : List Text} {r : Reading} {l : Text}

/-- Every todo or notification that fits is one or the other. -/
theorem length_kept (as : List Ask) : ((kept as).filterMap Ask.todo?).length +
    ((kept as).filterMap Ask.notify?).length = (kept as).length := by
  have hall : ∀ a ∈ kept as, a.emits = true := fun a ha =>
    (List.mem_filter.mp (List.mem_of_mem_take ha)).2
  generalize kept as = bs at hall
  induction bs with
  | nil => rfl
  | cons a bs ih =>
    have hbs := ih fun b hb => hall b (List.mem_cons_of_mem _ hb)
    have ha := hall a List.mem_cons_self
    cases a with
    | todo v =>
      simp only [List.filterMap_cons, Ask.todo?, Ask.notify?, List.length_cons]
      omega
    | notify v =>
      simp only [List.filterMap_cons, Ask.todo?, Ask.notify?, List.length_cons]
      omega
    | next v => cases ha
    | state v => cases ha
    | nothing => cases ha

theorem asks_concat : asks J (ls ++ [l]) = asks J ls ++ [(meaning J l).ask] := by
  simp [asks]

theorem kept_concat_of_not {as : List Ask} {a : Ask} (ha : a.emits = false) :
    kept (as ++ [a]) = kept as := by
  simp [kept, List.filter_append, ha]

theorem kept_concat {as : List Ask} {a : Ask} (ha : a.emits = true) : kept (as ++ [a]) =
    if (as.filter Ask.emits).length < MAX_EMITS_PER_STEP then kept as ++ [a] else kept as := by
  have hfilter : [a].filter Ask.emits = [a] := by simp [ha]
  rw [kept, List.filter_append, hfilter, List.take_append]
  split_ifs with hlen
  · rw [List.take_of_length_le (by simp; omega) (l := [a])]
    rfl
  · rw [Nat.sub_eq_zero_of_le (by omega)]
    simp [kept]

theorem Read.nil : Read J [] {} where
  todos := rfl
  notifies := rfl
  next := rfl
  state := rfl
  text := rfl
  warnings := rfl
  dropped := rfl

/-- A line that asks for neither a todo nor a notification. -/
theorem Read.other (h : Read J ls r) {m : Meaning} {t : Reading} (hm : meaning J l = m)
    (hask : m.ask.emits = false) (htodos : t.out.todos = r.out.todos)
    (hnotifies : t.out.notifies = r.out.notifies) (hnext : t.out.next = m.ask.next?.or r.out.next)
    (hstate : t.out.state = m.ask.state?.or r.out.state)
    (htext : t.text = r.text ++ if m.plain then [l] else [])
    (hwarnings : t.out.warnings = r.out.warnings ++ m.warning.toList)
    (hdropped : t.dropped = r.dropped) : Read J (ls ++ [l]) t where
  todos := by rw [htodos, h.todos, asks_concat, hm, kept_concat_of_not hask]
  notifies := by rw [hnotifies, h.notifies, asks_concat, hm, kept_concat_of_not hask]
  next := by
    rw [hnext, h.next, asks_concat, hm, List.filterMap_append, List.getLast?_append]
    cases hn : m.ask.next? <;> simp [hn]
  state := by
    rw [hstate, h.state, asks_concat, hm, List.filterMap_append, List.getLast?_append]
    cases hs : m.ask.state? <;> simp [hs]
  text := by
    rw [htext, h.text, List.filter_append, ← hm]
    cases hp : (meaning J l).plain <;> simp [hp]
  warnings := by
    rw [hwarnings, h.warnings, List.filterMap_append, ← hm]
    cases hw : (meaning J l).warning <;> simp [hw]
  dropped := by
    rw [hdropped, h.dropped, asks_concat, hm, List.filter_append]
    simp [hask]

/-- A todo or a notification. -/
theorem Read.emit (h : Read J ls r) {a : Ask} {t : Reading} (hm : meaning J l = { ask := a })
    (ha : a.emits = true) (hnext : t.out.next = r.out.next) (hstate : t.out.state = r.out.state)
    (htext : t.text = r.text) (hwarnings : t.out.warnings = r.out.warnings)
    (hfull : MAX_EMITS_PER_STEP ≤ r.out.todos.length + r.out.notifies.length →
      t.out.todos = r.out.todos ∧ t.out.notifies = r.out.notifies ∧ t.dropped = r.dropped + 1)
    (hfits : r.out.todos.length + r.out.notifies.length < MAX_EMITS_PER_STEP →
      t.out.todos = r.out.todos ++ a.todo?.toList ∧
        t.out.notifies = r.out.notifies ++ a.notify?.toList ∧ t.dropped = r.dropped) :
    Read J (ls ++ [l]) t := by
  have hlen : r.out.todos.length + r.out.notifies.length =
      min MAX_EMITS_PER_STEP ((asks J ls).filter Ask.emits).length := by
    rw [h.todos, h.notifies, length_kept, kept, List.length_take]
  have hask : (meaning J l).ask = a := by rw [hm]
  have hcount : ((asks J (ls ++ [l])).filter Ask.emits).length =
      ((asks J ls).filter Ask.emits).length + 1 := by
    rw [asks_concat, hask, List.filter_append]
    simp [ha]
  have hnone : a.next? = none ∧ a.state? = none := by cases a <;> first | exact ⟨rfl, rfl⟩ | cases ha
  have hkept : kept (asks J (ls ++ [l])) =
      if r.out.todos.length + r.out.notifies.length < MAX_EMITS_PER_STEP
        then kept (asks J ls) ++ [a] else kept (asks J ls) := by
    rw [asks_concat, hask, kept_concat ha, hlen]
    have hiff : ((asks J ls).filter Ask.emits).length < MAX_EMITS_PER_STEP ↔
        min MAX_EMITS_PER_STEP ((asks J ls).filter Ask.emits).length < MAX_EMITS_PER_STEP := by
      omega
    simp only [hiff]
  have hsame : t.out.next = ((asks J (ls ++ [l])).filterMap Ask.next?).getLast? ∧
      t.out.state = ((asks J (ls ++ [l])).filterMap Ask.state?).getLast? := by
    rw [hnext, hstate, h.next, h.state, asks_concat, hask, List.filterMap_append,
      List.filterMap_append]
    simp [hnone]
  have hrest : t.text = (ls ++ [l]).filter (fun line => (meaning J line).plain) ∧
      t.out.warnings = (ls ++ [l]).filterMap fun line => (meaning J line).warning := by
    rw [htext, hwarnings, h.text, h.warnings, List.filter_append, List.filterMap_append]
    simp [hm]
  by_cases hfit : r.out.todos.length + r.out.notifies.length < MAX_EMITS_PER_STEP
  · obtain ⟨htodos, hnotifies, hdropped⟩ := hfits hfit
    rw [if_pos hfit] at hkept
    refine ⟨?_, ?_, hsame.1, hsame.2, hrest.1, hrest.2, ?_⟩
    · rw [htodos, h.todos, hkept, List.filterMap_append]
      cases ha : a.todo? <;> simp [ha]
    · rw [hnotifies, h.notifies, hkept, List.filterMap_append]
      cases ha : a.notify? <;> simp [ha]
    · rw [hdropped, h.dropped, hcount]
      omega
  · obtain ⟨htodos, hnotifies, hdropped⟩ := hfull (by omega)
    rw [if_neg hfit] at hkept
    refine ⟨?_, ?_, hsame.1, hsame.2, hrest.1, hrest.2, ?_⟩
    · rw [htodos, h.todos, hkept]
    · rw [hnotifies, h.notifies, hkept]
    · rw [hdropped, h.dropped, hcount]
      omega

theorem Read.emitted (h : Read J ls r) {key : Text} {v : Value}
    (hbraces : (trim l).head? = some openBrace ∧ (trim l).getLast? = some closeBrace)
    (hp : J.parse (trim l) = some [(key, v)]) (hkey : key = js "todo" ∨ key = js "notify") :
    Read J (ls ++ [l]) (r.emit key v) := by
  unfold Reading.emit
  cases hv : isRecord v with
  | false =>
    have hm : meaning J l = { warning := some (key ++ js " must be an object") } := by
      simp [meaning, hbraces, hp, hkey, hv]
    exact h.other hm rfl rfl rfl rfl rfl (List.append_nil _).symm rfl rfl
  | true =>
    simp only [Bool.not_true, Bool.false_eq_true, if_false]
    by_cases htodo : key = js "todo"
    · have hm : meaning J l = { ask := .todo v } := by
        simp [meaning, hbraces, hp, hv, htodo]
      rw [if_pos htodo]
      split_ifs with hfull
      · exact h.emit hm rfl rfl rfl rfl rfl (fun _ => ⟨rfl, rfl, rfl⟩) (fun hfits => by omega)
      · exact h.emit hm rfl rfl rfl rfl rfl (fun hfull' => absurd hfull' hfull)
          (fun _ => ⟨rfl, (List.append_nil _).symm, rfl⟩)
    · have hm : meaning J l = { ask := .notify v } := by
        simp only [meaning, if_pos hbraces, hp, if_pos hkey, hv, if_neg htodo, Bool.not_true,
          Bool.false_eq_true, if_false]
      rw [if_neg htodo]
      split_ifs with hfull
      · exact h.emit hm rfl rfl rfl rfl rfl (fun _ => ⟨rfl, rfl, rfl⟩) (fun hfits => by omega)
      · exact h.emit hm rfl rfl rfl rfl rfl (fun hfull' => absurd hfull' hfull)
          (fun _ => ⟨(List.append_nil _).symm, rfl, rfl⟩)

theorem Read.line (h : Read J ls r) : Read J (ls ++ [l]) (r.line J l) := by
  unfold Reading.line
  dsimp only
  split_ifs with hbraces
  · split
    · next hp =>
      have hm : meaning J l = ⟨.nothing, true, some (js "not JSON, kept as text: " ++
          (trim l).take 80)⟩ := by
        simp only [meaning, if_pos hbraces, hp]
      exact h.other hm rfl rfl rfl rfl rfl rfl rfl rfl
    · next key v hp =>
      split_ifs with hemit hnext hstate
      · exact h.emitted hbraces hp hemit
      · have hm : meaning J l = { ask := .next v } := by
          simp only [meaning, if_pos hbraces, hp, if_neg hemit, if_pos hnext]
        exact h.other hm rfl rfl rfl rfl rfl (List.append_nil _).symm (List.append_nil _).symm rfl
      · unfold Reading.keep
        split_ifs with hlarge
        · have hm : meaning J l = { warning := some (js "state is larger than " ++
              js (toString MAX_STATE_CHARS) ++ js " characters; not saved") } := by
            simp only [meaning, if_pos hbraces, hp, if_neg hemit, if_neg hnext, if_pos hstate,
              if_pos hlarge]
          exact h.other hm rfl rfl rfl rfl rfl (List.append_nil _).symm rfl rfl
        · have hm : meaning J l = { ask := .state v } := by
            simp only [meaning, if_pos hbraces, hp, if_neg hemit, if_neg hnext, if_pos hstate,
              if_neg hlarge]
          exact h.other hm rfl rfl rfl rfl rfl (List.append_nil _).symm (List.append_nil _).symm
            rfl
      · have hm : meaning J l = { plain := true } := by
          simp only [meaning, if_pos hbraces, hp, if_neg hemit, if_neg hnext, if_neg hstate]
        exact h.other hm rfl rfl rfl rfl rfl rfl (List.append_nil _).symm rfl
    · next fields hfields hp =>
      have hm : meaning J l = { plain := true } := by
        simp only [meaning, if_pos hbraces]
        split
        · next hn =>
          rw [hp] at hn
          cases hn
        · next key v hkv =>
          rw [hp] at hkv
          exact absurd (Option.some.inj hkv) (hfields key v)
        · rfl
      exact h.other hm rfl rfl rfl rfl rfl rfl (List.append_nil _).symm rfl
  · have hm : meaning J l = { plain := true } := by
      simp only [meaning, if_neg hbraces]
    exact h.other hm rfl rfl rfl rfl rfl rfl (List.append_nil _).symm rfl

end Read

end ClaudeFleet.ScriptOutput
