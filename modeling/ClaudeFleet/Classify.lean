import ClaudeFleet.Automations
import ClaudeFleet.Cron

/-! How a proposed change of an automation is classified: low-risk changes may be applied without
the user. -/
namespace ClaudeFleet.Classify
open Js Cron Automations

def MIN_LOW_RISK_INTERVAL_MS : ℤ := 5 * 60000

/-- Monday, 5 January 2026, in UTC. -/
def SAMPLED_FROM : ℤ := 1767571200000

/-- The clock of a time zone by its name, and the names of workspaces. -/
structure Names where
  zone : Option String → Zone
  workspace : String → String

variable (N : Names)

/-! How often an automation fires. -/

def lesser (min : Option ℤ) (gap : ℤ) : Option ℤ :=
  match min with
  | none => some gap
  | some m => if gap < m then some gap else some m

/-- The smallest of the next gaps between fires. -/
def sampleGaps (spec : CronSpec) (tz : Zone) : ℕ → ℤ → Option ℤ → Option ℤ
  | 0, _, min => min
  | n + 1, prev, min =>
    match nextFire spec prev tz with
    | none => min
    | some next => sampleGaps spec tz n next (lesser min (next - prev))

def sampleTrigger (min : Option ℤ) : TriggerDef → Option ℤ
  | .schedule s =>
    match parseCron (js s.cron) with
    | .error _ => min
    | .ok spec =>
      match nextFire spec SAMPLED_FROM (N.zone s.tz) with
      | none => min
      | some prev => sampleGaps spec (N.zone s.tz) 48 prev min
  | _ => min

/-- The smallest gap between consecutive fires of a schedule, over the sampled ones. -/
def minScheduleInterval (d : AutomationDef) : Option ℤ := d.triggers.foldl (sampleTrigger N) none

/-! What an automation may do. -/

def modeName : Mode → String
  | .live => "live"
  | .fresh => "fresh"

def eventName : EventName → String
  | .sessionIdle => "session.idle"
  | .todoCreated => "todo.created"
  | .workspaceStarted => "workspace.started"

def stepKey (p : PromptStep) : String := p.workspace ++ "|" ++ modeName p.mode

def promptKeys (steps : List StepDef) : List String :=
  steps.filterMap fun s =>
    match s with
    | .prompt _ p => some (stepKey p)
    | .script .. => none

def stepId : StepDef → String
  | .prompt id _ => id
  | .script id _ => id

/-- The step that a map of the steps by their ids has for this id. -/
def stepOf (steps : List StepDef) (id : String) : Option StepDef :=
  steps.reverse.find? fun s => stepId s = id

def promptOf (steps : List StepDef) (id : String) : Option PromptStep :=
  match stepOf steps id with
  | some (.prompt _ p) => some p
  | _ => none

def scriptOf (steps : List StepDef) (id : String) : Option ScriptStep :=
  match stepOf steps id with
  | some (.script _ s) => some s
  | _ => none

def allowFrom (ts : List TriggerDef) : List String :=
  (ts.flatMap fun t =>
    match t with
    | .manual ids => ids
    | _ => []).eraseDups

def eventKey (e : EventFilter) : String :=
  eventName e.on ++ "|" ++ e.workspace.getD "" ++ "|" ++ e.tag.getD ""

def events (ts : List TriggerDef) : List String :=
  (ts.flatMap fun t =>
    match t with
    | .event e => [eventKey e]
    | _ => []).eraseDups

def hasSchedule (d : AutomationDef) : Bool :=
  d.triggers.any fun t =>
    match t with
    | .schedule _ => true
    | _ => false

def onHost : StepDef → Bool
  | .script _ s => s.runIn == some "host"
  | .prompt .. => false

/-! The reasons for which a change needs the user. -/

def reason (b : Bool) (text : String) : List String := if b then [text] else []

/-- `Math.round` of a quotient. -/
def rounded (ms per : ℤ) : ℤ := (2 * ms + per) / (2 * per)

def every (ms : ℤ) : String :=
  if ms < 3600000 then "every " ++ toString (rounded ms 60000) ++ " min"
  else if ms < 86400000 then "every " ++ toString (rounded ms 3600000) ++ " h"
  else "daily or less"

def rescheduleFlag (min : String) : String :=
  "sets its own next run (no sooner than " ++ min ++ ")"

/-- Where a script runs, in the words of a reason. -/
def target (s : ScriptStep) : String :=
  match s.runIn with
  | none => "the automations workspace"
  | some w => if w = "host" then "your computer"
    else if w = "" then "the automations workspace"
    else N.workspace w

def scriptReasons (id : String) (old : Option ScriptStep) (s : ScriptStep) : List String :=
  match old with
  | none => ["adds a script step (" ++ id ++ ")"]
  | some o =>
    let gained := s.secrets.filter (· ∉ o.secrets)
    reason (o.run ≠ s.run) ("changes the " ++ id ++ " script") ++
    reason (o.runIn.getD "" ≠ s.runIn.getD "" ∨ o.shell.getD "" ≠ s.shell.getD "")
      ("moves " ++ id ++ " to " ++ target N s) ++
    reason (gained ≠ []) ("gives " ++ id ++ " secrets " ++ ", ".intercalate gained) ++
    reason (s.ensureRunning && !o.ensureRunning) (id ++ " may start its workspace")

def promptReasons (keys : List String) (id : String) (old : Option PromptStep) (p : PromptStep) :
    List String :=
  let added := (p.allowedTools).filter (· ∉ (old.map (·.allowedTools)).getD [])
  reason (stepKey p ∉ keys ∧ old.map stepKey ≠ some (stepKey p))
    (if old.map (·.workspace) = some p.workspace then
      "switches " ++ id ++ " to a " ++ modeName p.mode ++ " session"
    else "prompts " ++ N.workspace p.workspace ++ " (" ++ modeName p.mode ++ ")") ++
  reason (added ≠ []) ("lets " ++ id ++ " use " ++ ", ".intercalate added) ++
  reason (p.ensureRunning && !old.any (·.ensureRunning))
    (id ++ " may start " ++ N.workspace p.workspace)

def stepReasons (before : List StepDef) : StepDef → List String
  | .script id s => scriptReasons N id (scriptOf before id) s
  | .prompt id p => promptReasons N (promptKeys before) id (promptOf before id) p

def triggerReasons (before after : List TriggerDef) : List String :=
  let added := (allowFrom after).filter (· ∉ allowFrom before)
  reason (added ≠ []) ("lets " ++ ", ".intercalate (added.map N.workspace) ++ " run it") ++
  reason ((events after).any (· ∉ events before)) ("adds an event trigger")

/-- The schedule fires more often than every five minutes, and more often than it did. -/
def fasterReasons (old new : Option ℤ) : List String :=
  match new with
  | none => []
  | some iv =>
    reason (iv < MIN_LOW_RISK_INTERVAL_MS && old.all (iv < ·))
      ("runs " ++ every iv ++ " (faster than every 5 min)")

def scheduledReasons (reasons : List String) (old new : Option ℤ) : List String :=
  match new with
  | none => []
  | some iv =>
    reason (old.isNone && !reasons.any (fun r => "runs ".toList <+: r.toList))
      ("adds a schedule (" ++ every iv ++ ")")

def duration (min : String) : ℤ := (parseDuration min).getD 0

def rescheduleReasons (before after : AutomationDef) : List String :=
  match after.reschedule with
  | none => []
  | some min =>
    (match before.reschedule with
    | none => [rescheduleFlag min]
    | some old =>
      reason (duration min < duration old)
        ("lets it set its next run sooner (" ++ old ++ " → " ++ min ++ ")")) ++
    reason (hasSchedule before && !hasSchedule after)
      ("drops its schedule (it then runs only when a run reschedules it, by hand or on an event)")

def hostReasons (reasons : List String) (steps : List StepDef) : List String :=
  reason (steps.any onHost && !reasons.any fun r => "your computer".toList <:+: r.toList)
    ("has a step that runs on your computer")

def changeReasons (before after : AutomationDef) : List String :=
  let old := minScheduleInterval N before
  let new := minScheduleInterval N after
  let touching := after.steps.flatMap (stepReasons N before.steps) ++
    triggerReasons N before.triggers after.triggers ++ fasterReasons old new
  let firing := touching ++ scheduledReasons touching old new ++ rescheduleReasons before after
  firing ++ hostReasons firing after.steps

/-- The verdict on a change. -/
structure Classified where
  lowRisk : Bool
  reasons : List String
  deriving DecidableEq

def classifyChange (before : Option AutomationDef) (after : AutomationDef) : Classified :=
  match before with
  | none => ⟨false, ["new automation"]⟩
  | some b => ⟨changeReasons N b after = [], changeReasons N b after⟩

/-! What no low-risk change widens. -/

/-- A script of the second is one of the first, and can do no more there. -/
structure ScriptWithin (old s : ScriptStep) : Prop where
  run : s.run = old.run
  runIn : s.runIn.getD "" = old.runIn.getD ""
  shell : s.shell.getD "" = old.shell.getD ""
  secrets : s.secrets ⊆ old.secrets
  starts : s.ensureRunning = true → old.ensureRunning = true

/-- What the second definition may touch, the first may touch, step by step; it fires as seldom, or
every five minutes at most; and it sets its next run no sooner. -/
structure Within (before after : AutomationDef) : Prop where
  prompts : ∀ id p, .prompt id p ∈ after.steps →
    ∃ id' q, .prompt id' q ∈ before.steps ∧ q.workspace = p.workspace ∧ q.mode = p.mode
  tools : ∀ id p, .prompt id p ∈ after.steps →
    p.allowedTools ⊆ ((promptOf before.steps id).map (·.allowedTools)).getD []
  starts : ∀ id p, .prompt id p ∈ after.steps → p.ensureRunning = true →
    (promptOf before.steps id).any (·.ensureRunning) = true
  scripts : ∀ id s, .script id s ∈ after.steps →
    ∃ old, scriptOf before.steps id = some old ∧ ScriptWithin old s
  runners : allowFrom after.triggers ⊆ allowFrom before.triggers
  events : events after.triggers ⊆ events before.triggers
  interval : ∀ iv, minScheduleInterval N after = some iv →
    ∃ old, minScheduleInterval N before = some old ∧ min old MIN_LOW_RISK_INTERVAL_MS ≤ iv
  reschedule : ∀ m, after.reschedule = some m →
    ∃ old, before.reschedule = some old ∧ duration old ≤ duration m ∧
      (hasSchedule before = true → hasSchedule after = true)

section Within

variable {N} {a b c : AutomationDef} {id text : String} {t : Bool}

@[simp] theorem reason_eq_nil : reason t text = [] ↔ t = false := by
  unfold reason
  split <;> simp_all

theorem mem_of_stepOf {steps : List StepDef} {s : StepDef} (h : stepOf steps id = some s) :
    s ∈ steps ∧ stepId s = id := by
  refine ⟨List.mem_reverse.mp (List.mem_of_find?_eq_some h), ?_⟩
  simpa using List.find?_some h

theorem mem_of_promptOf {steps : List StepDef} {p : PromptStep} (h : promptOf steps id = some p) :
    .prompt id p ∈ steps := by
  unfold promptOf at h
  split at h
  · next i q hstep =>
    obtain rfl := Option.some.inj h
    obtain ⟨hmem, hid⟩ := mem_of_stepOf hstep
    exact hid ▸ hmem
  · cases h

theorem mem_of_scriptOf {steps : List StepDef} {s : ScriptStep} (h : scriptOf steps id = some s) :
    .script id s ∈ steps := by
  unfold scriptOf at h
  split at h
  · next i q hstep =>
    obtain rfl := Option.some.inj h
    obtain ⟨hmem, hid⟩ := mem_of_stepOf hstep
    exact hid ▸ hmem
  · cases h

theorem mem_promptKeys {steps : List StepDef} {key : String} :
    key ∈ promptKeys steps ↔ ∃ id p, .prompt id p ∈ steps ∧ stepKey p = key := by
  rw [promptKeys, List.mem_filterMap]
  constructor
  · rintro ⟨s, hs, hkey⟩
    cases s with
    | prompt id p => exact ⟨id, p, hs, Option.some.inj hkey⟩
    | script id s => cases hkey
  · rintro ⟨id, p, hp, rfl⟩
    exact ⟨_, hp, rfl⟩

theorem stepKey_inj {p q : PromptStep} :
    stepKey q = stepKey p ↔ q.workspace = p.workspace ∧ q.mode = p.mode := by
  constructor
  · intro h
    have hchars := congrArg String.toList h
    simp only [stepKey, String.toList_append, List.append_assoc] at hchars
    cases hq : q.mode <;> cases hp : p.mode <;> rw [hq, hp] at hchars
    · exact ⟨String.toList_inj.mp (List.append_cancel_right hchars), rfl⟩
    · exact absurd (congrArg List.getLast? hchars) (by simp [modeName])
    · exact absurd (congrArg List.getLast? hchars) (by simp [modeName])
    · exact ⟨String.toList_inj.mp (List.append_cancel_right hchars), rfl⟩
  · rintro ⟨hworkspace, hmode⟩
    rw [stepKey, stepKey, hworkspace, hmode]

theorem filter_notMem_eq_nil {xs ys : List String} : xs.filter (· ∉ ys) = [] ↔ xs ⊆ ys := by
  simp [List.filter_eq_nil_iff, List.subset_def]

theorem scriptReasons_eq_nil {old : Option ScriptStep} {s : ScriptStep} :
    scriptReasons N id old s = [] ↔ ∃ o, old = some o ∧ ScriptWithin o s := by
  cases old with
  | none => simp [scriptReasons]
  | some o =>
    simp only [scriptReasons, List.append_eq_nil_iff, reason_eq_nil, decide_eq_false_iff_not,
      not_not, filter_notMem_eq_nil, not_or, Option.some.injEq, exists_eq_left']
    constructor
    · rintro ⟨⟨⟨hrun, hin, hshell⟩, hsecrets⟩, hstarts⟩
      refine ⟨hrun.symm, hin.symm, hshell.symm, hsecrets, fun hs => ?_⟩
      simpa [hs] using hstarts
    · rintro ⟨hrun, hin, hshell, hsecrets, hstarts⟩
      refine ⟨⟨⟨hrun.symm, hin.symm, hshell.symm⟩, hsecrets⟩, ?_⟩
      cases hs : s.ensureRunning with
      | false => rfl
      | true => simp [hstarts hs]

theorem promptReasons_eq_nil {keys : List String} {old : Option PromptStep} {p : PromptStep}
    (hold : ∀ o, old = some o → stepKey o ∈ keys) :
    promptReasons N keys id old p = [] ↔ stepKey p ∈ keys ∧
      p.allowedTools ⊆ (old.map (·.allowedTools)).getD [] ∧
      (p.ensureRunning = true → old.any (·.ensureRunning) = true) := by
  have hkey : ¬ (stepKey p ∉ keys ∧ old.map stepKey ≠ some (stepKey p)) ↔ stepKey p ∈ keys := by
    constructor
    · intro h
      by_contra hp
      refine h ⟨hp, fun hsome => ?_⟩
      obtain ⟨o, ho, hokey⟩ := Option.map_eq_some_iff.mp hsome
      exact hp (hokey ▸ hold o ho)
    · exact fun h hne => hne.1 h
  simp only [promptReasons, List.append_eq_nil_iff, reason_eq_nil, decide_eq_false_iff_not, hkey,
    not_not, filter_notMem_eq_nil, and_assoc]
  refine and_congr_right fun _ => and_congr_right fun _ => ?_
  cases p.ensureRunning <;> simp

/-- No step of the change gives a reason. -/
theorem stepReasons_eq_nil {before after : List StepDef} :
    after.flatMap (stepReasons N before) = [] ↔
      (∀ id p, .prompt id p ∈ after →
        ∃ id' q, .prompt id' q ∈ before ∧ q.workspace = p.workspace ∧ q.mode = p.mode) ∧
      (∀ id p, .prompt id p ∈ after →
        p.allowedTools ⊆ ((promptOf before id).map (·.allowedTools)).getD []) ∧
      (∀ id p, .prompt id p ∈ after → p.ensureRunning = true →
        (promptOf before id).any (·.ensureRunning) = true) ∧
      ∀ id s, .script id s ∈ after → ∃ old, scriptOf before id = some old ∧ ScriptWithin old s := by
  have hold : ∀ id o, promptOf before id = some o → stepKey o ∈ promptKeys before :=
    fun id o ho => mem_promptKeys.mpr ⟨id, o, mem_of_promptOf ho, rfl⟩
  rw [List.flatMap_eq_nil_iff]
  constructor
  · intro h
    have hprompt : ∀ id p, .prompt id p ∈ after → _ := fun id p hp =>
      (promptReasons_eq_nil (hold id)).mp (h _ hp)
    refine ⟨fun id p hp => ?_, fun id p hp => (hprompt id p hp).2.1,
      fun id p hp => (hprompt id p hp).2.2, fun id s hs => scriptReasons_eq_nil.mp (h _ hs)⟩
    obtain ⟨id', q, hq, hkey⟩ := mem_promptKeys.mp (hprompt id p hp).1
    exact ⟨id', q, hq, stepKey_inj.mp hkey⟩
  · rintro ⟨hkeys, htools, hstarts, hscripts⟩ s hs
    cases s with
    | prompt id p =>
      obtain ⟨id', q, hq, hsame⟩ := hkeys id p hs
      exact (promptReasons_eq_nil (hold id)).mpr
        ⟨mem_promptKeys.mpr ⟨id', q, hq, stepKey_inj.mpr hsame⟩, htools id p hs, hstarts id p hs⟩
    | script id s => exact scriptReasons_eq_nil.mpr (hscripts id s hs)

theorem triggerReasons_eq_nil {before after : List TriggerDef} :
    triggerReasons N before after = [] ↔
      allowFrom after ⊆ allowFrom before ∧ events after ⊆ events before := by
  simp [triggerReasons, List.subset_def]

/-- The two looks at the schedule, when there is no reason before them. -/
theorem intervalReasons_eq_nil {old new : Option ℤ} :
    fasterReasons old new = [] ∧ scheduledReasons [] old new = [] ↔
      ∀ iv, new = some iv → ∃ o, old = some o ∧ min o MIN_LOW_RISK_INTERVAL_MS ≤ iv := by
  cases new with
  | none => simp [fasterReasons, scheduledReasons]
  | some iv =>
    cases old with
    | none => simp [scheduledReasons]
    | some o =>
      simp only [fasterReasons, scheduledReasons, reason_eq_nil, Option.all_some,
        Option.isNone_some, Bool.false_and, Bool.and_eq_false_imp, decide_eq_true_eq,
        decide_eq_false_iff_not, Option.some.injEq, forall_eq', exists_eq_left', min_le_iff, and_true]
      omega

theorem rescheduleReasons_eq_nil :
    rescheduleReasons a b = [] ↔ ∀ m, b.reschedule = some m →
      ∃ old, a.reschedule = some old ∧ duration old ≤ duration m ∧
        (hasSchedule a = true → hasSchedule b = true) := by
  unfold rescheduleReasons
  cases b.reschedule with
  | none => simp
  | some m =>
    cases a.reschedule with
    | none => simp
    | some old => simp

theorem hostReasons_eq_nil {steps : List StepDef} :
    hostReasons [] steps = [] ↔ steps.any onHost = false := by
  simp [hostReasons]

/-- There is no reason exactly when the change stays within what was there, off the host. -/
theorem changeReasons_eq_nil :
    changeReasons N a b = [] ↔ Within N a b ∧ b.steps.any onHost = false := by
  have hall : changeReasons N a b = [] ↔
      (b.steps.flatMap (stepReasons N a.steps) = [] ∧
        triggerReasons N a.triggers b.triggers = []) ∧
      (fasterReasons (minScheduleInterval N a) (minScheduleInterval N b) = [] ∧
        scheduledReasons [] (minScheduleInterval N a) (minScheduleInterval N b) = []) ∧
      rescheduleReasons a b = [] ∧ hostReasons [] b.steps = [] := by
    simp only [changeReasons, List.append_eq_nil_iff]
    constructor
    · rintro ⟨⟨⟨⟨⟨hsteps, htriggers⟩, hfaster⟩, hscheduled⟩, hreschedule⟩, hhost⟩
      rw [hsteps, htriggers, hfaster] at hscheduled hhost
      rw [List.append_nil, List.append_nil] at hscheduled hhost
      rw [hscheduled, hreschedule] at hhost
      exact ⟨⟨hsteps, htriggers⟩, ⟨hfaster, hscheduled⟩, hreschedule, hhost⟩
    · rintro ⟨⟨hsteps, htriggers⟩, ⟨hfaster, hscheduled⟩, hreschedule, hhost⟩
      rw [hsteps, htriggers, hfaster, hreschedule]
      exact ⟨⟨⟨⟨⟨rfl, rfl⟩, rfl⟩, hscheduled⟩, rfl⟩, by simpa [hscheduled] using hhost⟩
  rw [hall, stepReasons_eq_nil, triggerReasons_eq_nil, intervalReasons_eq_nil,
    rescheduleReasons_eq_nil, hostReasons_eq_nil]
  constructor
  · rintro ⟨⟨⟨hprompts, htools, hstarts, hscripts⟩, hrunners, hevents⟩, hinterval, hresched, hhost⟩
    exact ⟨⟨hprompts, htools, hstarts, hscripts, hrunners, hevents, hinterval, hresched⟩, hhost⟩
  · rintro ⟨h, hhost⟩
    exact ⟨⟨⟨h.prompts, h.tools, h.starts, h.scripts⟩, h.runners, h.events⟩, h.interval,
      h.reschedule, hhost⟩

theorem ScriptWithin.trans {o p q : ScriptStep} (h : ScriptWithin o p) (h' : ScriptWithin p q) :
    ScriptWithin o q :=
  ⟨h'.run.trans h.run, h'.runIn.trans h.runIn, h'.shell.trans h.shell,
    fun _ hk => h.secrets (h'.secrets hk), fun hs => h.starts (h'.starts hs)⟩

theorem Within.trans (h : Within N a b) (h' : Within N b c) : Within N a c where
  prompts id p hp := by
    obtain ⟨id', q, hq, hworkspace, hmode⟩ := h'.prompts id p hp
    obtain ⟨id'', r, hr, hworkspace', hmode'⟩ := h.prompts id' q hq
    exact ⟨id'', r, hr, hworkspace'.trans hworkspace, hmode'.trans hmode⟩
  tools id p hp tool htool := by
    have hb := h'.tools id p hp htool
    cases hq : promptOf b.steps id with
    | none => simp [hq] at hb
    | some q =>
      rw [hq] at hb
      exact h.tools id q (mem_of_promptOf hq) hb
  starts id p hp hstart := by
    have hb := h'.starts id p hp hstart
    cases hq : promptOf b.steps id with
    | none => simp [hq] at hb
    | some q =>
      rw [hq] at hb
      exact h.starts id q (mem_of_promptOf hq) hb
  scripts id s hs := by
    obtain ⟨q, hq, hqs⟩ := h'.scripts id s hs
    obtain ⟨o, ho, hoq⟩ := h.scripts id q (mem_of_scriptOf hq)
    exact ⟨o, ho, hoq.trans hqs⟩
  runners _ hw := h.runners (h'.runners hw)
  events _ he := h.events (h'.events he)
  interval iv hiv := by
    obtain ⟨j, hj, hjle⟩ := h'.interval iv hiv
    obtain ⟨o, ho, hole⟩ := h.interval j hj
    exact ⟨o, ho, le_trans (le_min hole (min_le_right ..)) hjle⟩
  reschedule m hm := by
    obtain ⟨q, hq, hqm, hkeep⟩ := h'.reschedule m hm
    obtain ⟨o, ho, hoq, hkeep'⟩ := h.reschedule q hq
    exact ⟨o, ho, hoq.trans hqm, fun hs => hkeep (hkeep' hs)⟩

end Within

/-- The verdict, as proposals keep it. -/
def lowRisk (before : Option AutomationDef) (after : AutomationDef) : Bool :=
  (classifyChange N before after).lowRisk

variable {N}

theorem within_of_lowRisk {a b : AutomationDef} (h : lowRisk N (some a) b = true) :
    Within N a b ∧ b.steps.any onHost = false :=
  changeReasons_eq_nil.mp (of_decide_eq_true h)

theorem within_of_chain {a b : AutomationDef}
    (h : Relation.TransGen (fun a b => lowRisk N (some a) b = true) a b) :
    Within N a b ∧ b.steps.any onHost = false := by
  induction h with
  | single h => exact within_of_lowRisk h
  | tail _ h ih =>
    obtain ⟨hwithin, hhost⟩ := within_of_lowRisk h
    exact ⟨ih.1.trans hwithin, hhost⟩

end ClaudeFleet.Classify
