import Mathlib.Tactic
import Mathlib.Order.Bounds.Basic
import Mathlib.Data.List.Sort
import ClaudeFleet.Table

/-! Automations: their definitions, the rows of the store with its conditional writes, what is due
on a schedule, and the checks a run request meets before it starts. -/
namespace ClaudeFleet.Automations

inductive ParamType
  | string
  | number
  | boolean
  | enum
  deriving DecidableEq

inductive ParamValue
  | string (s : String)
  | number (n : ℚ)
  | boolean (b : Bool)
  deriving DecidableEq

structure ParamDef where
  name : String
  type : ParamType
  required : Bool := false
  default : Option ParamValue := none
  values : List String := []
  deriving DecidableEq

abbrev Args := List (String × ParamValue)

structure Schedule where
  cron : String
  tz : Option String := none
  args : Args := []
  deriving DecidableEq

inductive EventName
  | sessionIdle
  | todoCreated
  | workspaceStarted
  deriving DecidableEq

structure EventFilter where
  on : EventName
  workspace : Option String := none
  tag : Option String := none
  debounce : Option String := none
  deriving DecidableEq

inductive TriggerDef
  | schedule (s : Schedule)
  | manual (allowFrom : List String)
  | event (e : EventFilter)
  deriving DecidableEq

inductive Mode
  | live
  | fresh
  deriving DecidableEq

structure PromptStep where
  workspace : String
  mode : Mode
  message : String
  ensureRunning : Bool := false
  allowedTools : List String := []
  deriving DecidableEq

structure ScriptStep where
  run : String
  /-- The automations workspace when absent, this computer when `host`, else a workspace id. -/
  runIn : Option String := none
  shell : Option String := none
  secrets : List String := []
  ensureRunning : Bool := false
  deriving DecidableEq

inductive StepDef
  | prompt (id : String) (step : PromptStep)
  | script (id : String) (step : ScriptStep)
  deriving DecidableEq

inductive Concurrency
  | skip
  | queue
  deriving DecidableEq

structure AutomationDef where
  name : String
  triggers : List TriggerDef
  concurrency : Option Concurrency := none
  params : List ParamDef := []
  /-- Runs may set their own next fire, no sooner than this duration after the run ends. -/
  reschedule : Option String := none
  steps : List StepDef := []
  deriving DecidableEq

structure AutomationRecord where
  id : String
  name : String
  enabled : Bool
  version : ℕ
  definition : AutomationDef
  createdAt : ℤ
  lastScheduledAt : Option ℤ
  /-- A next fire chosen by a run; it replaces the cron until it fires. -/
  nextRunAt : Option ℤ
  nextRunBy : Option ℕ
  deriving DecidableEq

/-- The `automations` table. -/
abbrev Rows := Table AutomationRecord.id

/-! Durations. -/

def isSpace (c : Char) : Bool :=
  c.toNat ∈ [9, 10, 11, 12, 13, 32, 160, 5760, 8232, 8233, 8239, 8287, 12288, 65279] ||
    (8192 ≤ c.toNat && c.toNat ≤ 8202)

def unitMs : Char → Option ℤ
  | 's' => some 1000
  | 'm' => some 60000
  | 'h' => some 3600000
  | 'd' => some 86400000
  | _ => none

def trim (cs : List Char) : List Char :=
  ((cs.dropWhile isSpace).reverse.dropWhile isSpace).reverse

def parseDuration (v : String) : Option ℤ :=
  let cs := trim v.toList
  let digits := cs.takeWhile Char.isDigit
  match digits, (cs.dropWhile Char.isDigit).dropWhile isSpace with
  | [], _ => none
  | ds, [u] => (unitMs u).map fun ms =>
      (ds.foldl (fun n c => 10 * n + ((c.toNat : ℤ) - 48)) 0) * ms
  | _, _ => none

/-! The store's writes. -/

/-- A conditional write: the row must still be this version, enabled and, when given, hold this
next run time. -/
structure WriteGuard where
  version : ℕ
  nextRunAt : Option (Option ℤ) := none
  deriving DecidableEq

def guarded (g : WriteGuard) (r : AutomationRecord) : Bool :=
  r.version == g.version && r.enabled &&
    match g.nextRunAt with
    | none => true
    | some t => r.nextRunAt == t

def list (T : Rows) : List AutomationRecord :=
  T.rows.insertionSort fun a b => a.name ≤ b.name

def byName (T : Rows) (name : String) : Option AutomationRecord :=
  T.rows.find? fun r => r.name == name

/-- A new version drops any next fire a run of the old one chose. -/
def AutomationRecord.edited (d : AutomationDef) (r : AutomationRecord) : AutomationRecord :=
  { r with name := d.name, version := r.version + 1, definition := d,
           nextRunAt := none, nextRunBy := none }

theorem AutomationRecord.edited_id (d : AutomationDef) (r : AutomationRecord) :
    (r.edited d).id = r.id := rfl

/-- Nothing when the call throws: no such row, a version that moved, or a name that is taken. -/
def update (T : Rows) (id : String) (d : AutomationDef) (expectedVersion : Option ℕ) :
    Option Rows :=
  match T.get id with
  | none => none
  | some cur =>
    if expectedVersion.any (cur.version != ·) then none
    else if (byName T d.name).any (·.id != id) then none
    else some (T.updateWhere (·.id == id) (AutomationRecord.edited d)
      (AutomationRecord.edited_id d))

/-- A first version under a fresh id; nothing when the name is taken. -/
def create (T : Rows) (id : String) (d : AutomationDef) (now : ℤ) : Option Rows :=
  if (byName T d.name).isSome then none
  else some (T.insertIgnore ⟨id, d.name, true, 1, d, now, some now, none, none⟩)

def remove (T : Rows) (id : String) : Rows := T.deleteWhere (·.id == id)

/-- Enabling restarts the schedule clock; either way a run-chosen next fire is dropped. -/
def AutomationRecord.switched (enabled : Bool) (now : ℤ) (r : AutomationRecord) :
    AutomationRecord :=
  { r with enabled := enabled, nextRunAt := none, nextRunBy := none,
           lastScheduledAt := if enabled then some now else r.lastScheduledAt }

theorem AutomationRecord.switched_id (enabled : Bool) (now : ℤ) (r : AutomationRecord) :
    (r.switched enabled now).id = r.id := rfl

def setEnabled (T : Rows) (id : String) (enabled : Bool) (now : ℤ) : Rows :=
  T.updateWhere (·.id == id) (AutomationRecord.switched enabled now)
    (AutomationRecord.switched_id enabled now)

/-- The rows after a conditional write, and whether it changed one. -/
def conditional (T : Rows) (id : String) (g : WriteGuard)
    (f : AutomationRecord → AutomationRecord) (hf : ∀ r, (f r).id = r.id) : Rows × Bool :=
  let p := fun r : AutomationRecord => r.id == id && guarded g r
  (T.updateWhere p f hf, T.rows.any p)

def AutomationRecord.scheduled (ts : ℤ) (r : AutomationRecord) : AutomationRecord :=
  { r with lastScheduledAt := some ts }

theorem AutomationRecord.scheduled_id (ts : ℤ) (r : AutomationRecord) :
    (r.scheduled ts).id = r.id := rfl

def setLastScheduled (T : Rows) (id : String) (ts : ℤ) (g : WriteGuard) : Rows × Bool :=
  conditional T id g (AutomationRecord.scheduled ts) (AutomationRecord.scheduled_id ts)

/-- The next fire and the run that chose it; nothing clears it. -/
def AutomationRecord.withNext (next : Option (ℤ × ℕ)) (r : AutomationRecord) : AutomationRecord :=
  { r with nextRunAt := next.map Prod.fst, nextRunBy := next.map Prod.snd }

theorem AutomationRecord.withNext_id (next : Option (ℤ × ℕ)) (r : AutomationRecord) :
    (r.withNext next).id = r.id := rfl

def setNextRun (T : Rows) (id : String) (next : Option (ℤ × ℕ)) (g : WriteGuard) : Rows × Bool :=
  conditional T id g (AutomationRecord.withNext next) (AutomationRecord.withNext_id next)

/-- Never sooner than the approved floor after the run ended. -/
def applyFloor (requestedAt endedAt minMs : ℤ) : ℤ :=
  if requestedAt < endedAt + minMs then endedAt + minMs else requestedAt

/-! What is due. -/

inductive TriggerKind
  | schedule
  | manual
  | catchUp
  | event
  | rescheduled
  deriving DecidableEq

/-- Cron expressions and their fire times, in milliseconds. -/
structure Crons (Spec : Type) where
  parseCron : String → Option Spec
  nextFire : Spec → ℤ → Option String → Option ℤ

structure Due where
  kind : TriggerKind
  cron : Option String
  slot : ℤ
  args : Args
  deriving DecidableEq

def scheduleTriggers (a : AutomationRecord) : List Schedule :=
  a.definition.triggers.filterMap fun
    | .schedule s => some s
    | _ => none

def AutomationRecord.since (a : AutomationRecord) : ℤ := a.lastScheduledAt.getD a.createdAt

variable {Spec : Type} (crons : Crons Spec)

/-- The due slot of one trigger; an invalid cron is passed over. -/
def dueTrigger (since now : ℤ) (s : Schedule) : Option Due :=
  match crons.parseCron s.cron with
  | none => none
  | some spec =>
    match crons.nextFire spec since s.tz with
    | none => none
    | some slot =>
      if now < slot then none
      else
        let following := crons.nextFire spec slot s.tz
        let catchUp := following.any (· ≤ now) && decide (now - slot > 120000)
        some ⟨if catchUp then .catchUp else .schedule, some s.cron, slot, s.args⟩

/-- The earlier of two dues, the first on a tie. -/
def sooner : Option Due → Option Due → Option Due
  | none, d => d
  | some best, none => some best
  | some best, some d => if d.slot < best.slot then some d else some best

def dueSchedule (a : AutomationRecord) (now : ℤ) : Option Due :=
  if !a.enabled then none
  else
    match a.nextRunAt with
    | some at' => if at' ≤ now then some ⟨.rescheduled, none, at', []⟩ else none
    | none =>
      (scheduleTriggers a).foldl (fun best s => sooner best (dueTrigger crons a.since now s)) none

/-- The assumption on cron: the next fire is the least later slot, if there is one. -/
def Crons.Lawful (slots : Spec → Option String → Set ℤ) : Prop :=
  ∀ spec after tz,
    match crons.nextFire spec after tz with
    | some t => IsLeast {u | u ∈ slots spec tz ∧ after < u} t
    | none => ∀ u ∈ slots spec tz, u ≤ after

/-- The due is a slot of one of the triggers, and no trigger has an earlier one after the time the
row was last scheduled. -/
def EarliestDue (slots : Spec → Option String → Set ℤ) (a : AutomationRecord) (now : ℤ)
    (d : Due) : Prop :=
  (∃ s ∈ scheduleTriggers a, ∃ spec, crons.parseCron s.cron = some spec ∧
    d.cron = some s.cron ∧ d.args = s.args ∧ d.slot ∈ slots spec s.tz ∧ a.since < d.slot ∧
      d.slot ≤ now) ∧
  ∀ s ∈ scheduleTriggers a, ∀ spec, crons.parseCron s.cron = some spec →
    ∀ u ∈ slots spec s.tz, a.since < u → d.slot ≤ u

/-- The best due of the triggers seen so far: one of them, and no slot of any of them is earlier. -/
def BestOf (slots : Spec → Option String → Set ℤ) (since now : ℤ) (seen : List Schedule) :
    Option Due → Prop
  | none => ∀ s ∈ seen, dueTrigger crons since now s = none
  | some d => (∃ s ∈ seen, dueTrigger crons since now s = some d) ∧
      ∀ s ∈ seen, ∀ spec, crons.parseCron s.cron = some spec →
        ∀ u ∈ slots spec s.tz, since < u → d.slot ≤ u

section Due
variable {crons : Crons Spec} {slots : Spec → Option String → Set ℤ}

theorem dueTrigger_some (hlaw : crons.Lawful slots) {since now : ℤ} {s : Schedule} {d : Due}
    (h : dueTrigger crons since now s = some d) :
    ∃ spec, crons.parseCron s.cron = some spec ∧ d.cron = some s.cron ∧ d.args = s.args ∧
      IsLeast {u | u ∈ slots spec s.tz ∧ since < u} d.slot ∧ d.slot ≤ now ∧
      d.kind ≠ .rescheduled := by
  simp only [dueTrigger] at h
  cases hp : crons.parseCron s.cron with
  | none => simp [hp] at h
  | some spec =>
    have hleast := hlaw spec since s.tz
    cases hn : crons.nextFire spec since s.tz with
    | none => simp [hp, hn] at h
    | some slot =>
      simp only [hp, hn] at h
      rw [hn] at hleast
      split_ifs at h with hlt hc
      all_goals
        obtain rfl := Option.some.inj h
        exact ⟨spec, rfl, rfl, rfl, hleast, not_lt.mp hlt, by simp⟩

theorem dueTrigger_none (hlaw : crons.Lawful slots) {since now : ℤ} {s : Schedule} {spec : Spec}
    (h : dueTrigger crons since now s = none) (hp : crons.parseCron s.cron = some spec) {u : ℤ}
    (hu : u ∈ slots spec s.tz) (hlt : since < u) : now < u := by
  have hleast := hlaw spec since s.tz
  simp only [dueTrigger, hp] at h
  cases hn : crons.nextFire spec since s.tz with
  | none =>
    rw [hn] at hleast
    exact absurd (hleast u hu) (by omega)
  | some slot =>
    rw [hn] at hleast
    have hle : slot ≤ u := hleast.2 ⟨hu, hlt⟩
    simp only [hn] at h
    split_ifs at h with hslot
    omega

theorem BestOf.snoc (hlaw : crons.Lawful slots) {since now : ℤ} {seen : List Schedule}
    {best : Option Due} (h : BestOf crons slots since now seen best) (s : Schedule) :
    BestOf crons slots since now (seen ++ [s])
      (sooner best (dueTrigger crons since now s)) := by
  have hs := @dueTrigger_some _ crons slots hlaw since now s
  have hnone := @dueTrigger_none _ crons slots hlaw since now s
  cases best with
  | none =>
    cases hd : dueTrigger crons since now s with
    | none =>
      intro s' hs'
      rcases List.mem_append.mp hs' with hs' | hs'
      · exact h s' hs'
      · rwa [List.mem_singleton.mp hs']
    | some d =>
      refine ⟨⟨s, by simp, hd⟩, ?_⟩
      intro s' hs' spec hp u hu hlt
      obtain ⟨spec₀, hp₀, -, -, hleast, hnow, -⟩ := hs hd
      rcases List.mem_append.mp hs' with hs' | hs'
      · have := dueTrigger_none hlaw (h s' hs') hp hu hlt
        omega
      · obtain rfl := List.mem_singleton.mp hs'
        obtain rfl : spec₀ = spec := Option.some.inj (hp₀.symm.trans hp)
        exact hleast.2 ⟨hu, hlt⟩
  | some b =>
    obtain ⟨⟨s₀, hmem, hb⟩, hleastb⟩ := h
    obtain ⟨-, -, -, -, -, hnowb, -⟩ := dueTrigger_some hlaw hb
    cases hd : dueTrigger crons since now s with
    | none =>
      refine ⟨⟨s₀, List.mem_append_left _ hmem, hb⟩, ?_⟩
      intro s' hs' spec hp u hu hlt
      rcases List.mem_append.mp hs' with hs' | hs'
      · exact hleastb s' hs' spec hp u hu hlt
      · obtain rfl := List.mem_singleton.mp hs'
        have := hnone hd hp hu hlt
        omega
    | some d =>
      obtain ⟨spec₀, hp₀, -, -, hleast, hnow, -⟩ := hs hd
      have hown : ∀ spec, crons.parseCron s.cron = some spec →
          ∀ u ∈ slots spec s.tz, since < u → d.slot ≤ u := by
        intro spec hp u hu hlt
        obtain rfl : spec₀ = spec := Option.some.inj (hp₀.symm.trans hp)
        exact hleast.2 ⟨hu, hlt⟩
      simp only [sooner]
      split_ifs with hlt
      · refine ⟨⟨s, by simp, hd⟩, ?_⟩
        intro s' hs' spec hp u hu hu'
        rcases List.mem_append.mp hs' with hs' | hs'
        · exact hlt.le.trans (hleastb s' hs' spec hp u hu hu')
        · obtain rfl := List.mem_singleton.mp hs'
          exact hown spec hp u hu hu'
      · refine ⟨⟨s₀, List.mem_append_left _ hmem, hb⟩, ?_⟩
        intro s' hs' spec hp u hu hu'
        rcases List.mem_append.mp hs' with hs' | hs'
        · exact hleastb s' hs' spec hp u hu hu'
        · obtain rfl := List.mem_singleton.mp hs'
          exact (not_lt.mp hlt).trans (hown spec hp u hu hu')

theorem bestOf_foldl (hlaw : crons.Lawful slots) {since now : ℤ} (rest : List Schedule) :
    ∀ (seen : List Schedule) (best : Option Due),
      BestOf crons slots since now seen best →
      BestOf crons slots since now (seen ++ rest)
        (rest.foldl (fun best s => sooner best (dueTrigger crons since now s)) best) := by
  induction rest with
  | nil =>
    intro seen best h
    simpa using h
  | cons s rest ih =>
    intro seen best h
    have := ih (seen ++ [s]) _ (h.snoc hlaw s)
    simpa using this

/-- What a tick finds due: the time a run chose, or the earliest slot of the schedule. -/
theorem dueSchedule_some (hlaw : crons.Lawful slots) {a : AutomationRecord} {now : ℤ} {d : Due}
    (h : dueSchedule crons a now = some d) :
    a.enabled = true ∧
      ((d.kind = .rescheduled ∧ a.nextRunAt = some d.slot ∧ d.slot ≤ now) ∨
        (d.kind ≠ .rescheduled ∧ a.nextRunAt = none ∧ EarliestDue crons slots a now d)) := by
  simp only [dueSchedule] at h
  split_ifs at h with hen
  have henabled : a.enabled = true := by simpa using hen
  refine ⟨henabled, ?_⟩
  cases hnext : a.nextRunAt with
  | some time =>
    simp only [hnext] at h
    split_ifs at h with hle
    obtain rfl := Option.some.inj h
    exact Or.inl ⟨rfl, rfl, hle⟩
  | none =>
    simp only [hnext] at h
    have hbest := bestOf_foldl hlaw (scheduleTriggers a) [] none
      (show BestOf crons slots a.since now [] none by simp [BestOf])
    rw [h] at hbest
    obtain ⟨⟨s, hs, hd⟩, hleast⟩ := hbest
    obtain ⟨spec, hp, hcron, hargs, hslot, hle, hkind⟩ := dueTrigger_some hlaw hd
    exact Or.inr ⟨hkind, rfl, ⟨s, hs, spec, hp, hcron, hargs, hslot.1.1, hslot.1.2, hle⟩, hleast⟩

end Due

section Writes
variable {T : Rows} {id : String}

/-- A conditional write that went through met a row that matched, and changed that row only. -/
theorem conditional_true {g : WriteGuard} {f : AutomationRecord → AutomationRecord}
    {hf : ∀ r, (f r).id = r.id} (h : (conditional T id g f hf).2 = true) :
    ∃ r, T.get id = some r ∧ guarded g r = true ∧
      ∀ k, (conditional T id g f hf).1.get k = if k = id then some (f r) else T.get k := by
  obtain ⟨r, hr, hp⟩ := List.any_eq_true.mp h
  simp only [Bool.and_eq_true, beq_iff_eq] at hp
  have hget : T.get id = some r := Table.get_eq_some.mpr ⟨hr, hp.1⟩
  refine ⟨r, hget, hp.2, ?_⟩
  intro k
  simp only [conditional, Table.get_updateWhere]
  by_cases hk : k = id
  · subst hk
    simp [hget, hp.1, hp.2]
  · rw [if_neg hk]
    cases hx : T.get k with
    | none => rfl
    | some x =>
      have hxk := (Table.get_eq_some.mp hx).2
      simp [hxk, hk]

theorem get_updateWhere_id (f : AutomationRecord → AutomationRecord) (hf : ∀ r, (f r).id = r.id)
    (k : String) :
    (T.updateWhere (·.id == id) f hf).get k = if k = id then (T.get k).map f else T.get k := by
  rw [Table.get_updateWhere]
  cases hx : T.get k with
  | none => simp
  | some x =>
    have hxk : x.id = k := (Table.get_eq_some.mp hx).2
    by_cases hk : k = id
    · simp [hxk, hk]
    · simp [hxk, hk]

theorem setEnabled_get (enabled : Bool) (now : ℤ) (k : String) :
    (setEnabled T id enabled now).get k =
      if k = id then (T.get k).map (AutomationRecord.switched enabled now) else T.get k :=
  get_updateWhere_id _ _ k

theorem conditional_of_guarded {g : WriteGuard} {f : AutomationRecord → AutomationRecord}
    {hf : ∀ r, (f r).id = r.id} {r : AutomationRecord} (hget : T.get id = some r)
    (hg : guarded g r = true) : (conditional T id g f hf).2 = true := by
  obtain ⟨hr, hid⟩ := Table.get_eq_some.mp hget
  exact List.any_eq_true.mpr ⟨r, hr, by simp [hid, hg]⟩

theorem update_some {d : AutomationDef} {expectedVersion : Option ℕ} {U : Rows}
    (h : update T id d expectedVersion = some U) :
    ∃ r, T.get id = some r ∧
      ∀ k, U.get k = if k = id then some (r.edited d) else T.get k := by
  simp only [update] at h
  cases hr : T.get id with
  | none => simp [hr] at h
  | some r =>
    simp only [hr] at h
    split_ifs at h
    obtain rfl := Option.some.inj h
    refine ⟨r, rfl, ?_⟩
    intro k
    rw [get_updateWhere_id]
    by_cases hk : k = id
    · simp [hk, hr]
    · simp [hk]

end Writes

/-! The checks of a run request. -/

/-- An argument as a caller gives it; `other` is null, a list or an object. -/
inductive RawValue
  | value (v : ParamValue)
  | other
  deriving DecidableEq

abbrev RawArgs := List (String × RawValue)

def ParamType.name : ParamType → String
  | .string => "string"
  | .number => "number"
  | .boolean => "boolean"
  | .enum => "enum"

def checkParamValue (p : ParamDef) (v : RawValue) : Except String ParamValue :=
  match p.type, v with
  | .string, .value (.string s) => .ok (.string s)
  | .number, .value (.number n) => .ok (.number n)
  | .boolean, .value (.boolean b) => .ok (.boolean b)
  | .enum, .value (.string s) =>
    if s ∈ p.values then .ok (.string s)
    else .error (p.name ++ ": must be one of " ++ ", ".intercalate p.values)
  | .enum, _ => .error (p.name ++ ": must be one of " ++ ", ".intercalate p.values)
  | t, _ => .error (p.name ++ ": must be a " ++ t.name)

/-- A property of a plain object; every one inherits `constructor`. -/
def property (given : RawArgs) (name : String) : Option RawValue :=
  match given.lookup name with
  | some v => some v
  | none => if name = "constructor" then some .other else none

def assign (out : Args) (name : String) (v : ParamValue) : Args :=
  if out.any (·.1 == name) then out.map fun kv => if kv.1 = name then (name, v) else kv
  else out ++ [(name, v)]

/-- Form texts as numbers and booleans; `toNumber` is the finite number a text stands for. -/
def coerceValue (toNumber : String → Option ℚ) (p : ParamDef) : RawValue → RawValue
  | .value (.string s) =>
    match p.type with
    | .number =>
      if trim s.toList = [] then .value (.string s)
      else (toNumber s).elim (.value (.string s)) fun n => .value (.number n)
    | .boolean =>
      if s = "true" then .value (.boolean true)
      else if s = "false" then .value (.boolean false)
      else .value (.string s)
    | _ => .value (.string s)
  | v => v

/-- One param's turn: the errors and the values so far. -/
def validateParam (toNumber : String → Option ℚ) (given : RawArgs) (coerce : Bool)
    (acc : List String × Args) (p : ParamDef) : List String × Args :=
  match property given p.name with
  | none | some (.value (.string "")) =>
    match p.default with
    | some d => (acc.1, assign acc.2 p.name d)
    | none => if p.required then (acc.1 ++ [p.name ++ ": required"], acc.2) else acc
  | some v =>
    match checkParamValue p (if coerce then coerceValue toNumber p v else v) with
    | .ok w => (acc.1, assign acc.2 p.name w)
    | .error e => (acc.1 ++ [e], acc.2)

def validateArgs (toNumber : String → Option ℚ) (params : List ParamDef) (raw : RawArgs)
    (coerce : Bool) : Except (List String) Args :=
  let unknown := (raw.map Prod.fst).filter fun k => !params.any (·.name == k)
  let (errors, out) := params.foldl (validateParam toNumber raw coerce)
    (unknown.map (· ++ ": no such param"), [])
  if errors = [] then .ok out else .error errors

inductive SourceKind
  | user
  | workspace
  | automation
  deriving DecidableEq

structure RunRequest where
  kind : TriggerKind
  /-- Who asked, when someone did. -/
  asker : Option SourceKind := none
  cron : Option String := none
  args : RawArgs := []
  callerSupplied : Bool := false
  coerce : Bool := false
  deriving DecidableEq

/-- The rest of the program as a start consults it. -/
structure Deps where
  toNumber : String → Option ℚ
  checkDefinition : AutomationDef → List String
  mayRun : AutomationRecord → Option String

inductive StartError
  | notFound (id : String)
  | invalidArguments (errors : List String)
  /-- This runtime refuses the automation; timer callers skip it without recording a run. -/
  | refused (name : String) (reasons : List String)
  /-- A non-manual start of a disabled automation; timer callers skip it quietly. -/
  | disabled (name : String)
  deriving DecidableEq

def StartError.message : StartError → String
  | .notFound id => "automation " ++ id ++ " not found"
  | .invalidArguments errors => "invalid arguments: " ++ "; ".intercalate errors
  | .refused name reasons => name ++ " can't run here: " ++ "; ".intercalate reasons
  | .disabled name => name ++ " is disabled"

def refusals (deps : Deps) (a : AutomationRecord) : List String :=
  deps.checkDefinition a.definition ++ (deps.mayRun a).toList.filter (· ≠ "")

/-- The part of `start` from the row it read to its first look at the runs under way. -/
def startGates (deps : Deps) (id : String) (req : RunRequest) (row : Option AutomationRecord) :
    Except StartError (AutomationRecord × Args) :=
  match row with
  | none => .error (.notFound id)
  | some a =>
    match validateArgs deps.toNumber a.definition.params req.args req.coerce with
    | .error errors => .error (.invalidArguments errors)
    | .ok args =>
      if refusals deps a ≠ [] then .error (.refused a.name (refusals deps a))
      else if !a.enabled && req.kind != .manual then .error (.disabled a.name)
      else .ok (a, args)

/-- What the service's maps say of one automation. -/
structure Standing where
  claimed : Bool
  queued : Bool
  lastStart : Option ℤ
  deriving DecidableEq

inductive Begin
  | rateSkipped
  | queue
  | busySkipped
  | run
  deriving DecidableEq

def RATE_MS : ℤ := 60000

def RunRequest.userManual (req : RunRequest) : Bool :=
  req.kind == .manual && req.asker == some .user

def beginRun (a : AutomationRecord) (req : RunRequest) (now : ℤ) (st : Standing) : Begin :=
  if !req.userManual && st.lastStart.any (fun last => decide (now - last < RATE_MS)) &&
      !st.claimed then .rateSkipped
  else if st.claimed then
    if a.definition.concurrency = some .queue ∧ st.queued = false then .queue else .busySkipped
  else .run

end ClaudeFleet.Automations
