import ClaudeFleet.RunRecord

/-! A run comes to an end: its loops ask for no longer than their limits let them, as each sleep
takes time. -/
namespace ClaudeFleet.Runner
open Js Template Definition Calls Calls.Prog ScriptOutput

def slept : Event Call.Reply Failure → Bool
  | ⟨.sleep _, .ok _⟩ => true
  | _ => false

/-- The clock does not go back, and moves on by a millisecond at least while one sleeps. -/
def Ticks (d : Deps) : Prop :=
  ∀ h es (t t' : ℤ), d.answers .now h = .ok t → d.answers .now (h ++ es) = .ok t' →
    t + (es.countP slept : ℤ) ≤ t'

section Ends

variable {d : Deps} {h es : List (Event Call.Reply Failure)}

theorem total_ask {c : Call} : (ask d c).Total := total_call

theorem now_eq {t : ℤ} (hr : now d h = some (.ok t, es)) :
    es.countP slept = 0 ∧ d.answers .now h = .ok t := by
  obtain ⟨hanswer, rfl⟩ := Prod.mk.inj (Option.some.inj hr)
  change (d.answers .now h).mapError _ = .ok t at hanswer
  cases ha : d.answers .now h with
  | ok t' =>
    rw [ha] at hanswer
    cases hanswer
    exact ⟨rfl, rfl⟩
  | error message =>
    rw [ha] at hanswer
    cases hanswer

theorem sleep_eq {ms : ℤ} {u : Unit} (hr : ask d (.sleep ms) h = some (.ok u, es)) :
    es.countP slept = 1 := by
  obtain ⟨hu, rfl⟩ := Prod.mk.inj (Option.some.inj hr)
  rw [hu]
  rfl

/-- The loop goes on while less time has gone by than its limit, each round sleeps once, and there
are more rounds than milliseconds left. -/
theorem ends_poll (hticks : Ticks d) {done : Program Bool} (hdone : done.Total)
    {limit start : ℤ} (period : ℤ) {fuel : ℕ} (hstart : d.answers .now h = .ok start) :
    0 < fuel → limit < fuel + es.countP slept →
    (poll d done limit start period fuel).Ends (h ++ es) := by
  induction fuel generalizing es with
  | zero => exact fun hfuel => absurd hfuel (lt_irrefl 0)
  | succ fuel ih =>
    intro _ hlimit
    refine (hdone _).bind fun isDone es₁ _ => ?_
    split_ifs
    · exact total_pure _
    refine Ends.bind (total_ask _) fun t es₂ hnow => ?_
    obtain ⟨hcount₂, ht⟩ := now_eq hnow
    split_ifs with hlate
    · exact total_pure _
    refine Ends.bind (total_ask _) fun u es₃ hsleep => ?_
    have hgone : start + ((es ++ es₁).countP slept : ℤ) ≤ t := by
      refine hticks h (es ++ es₁) start t hstart ?_
      rw [← List.append_assoc]
      exact ht
    have hcount : (es ++ es₁ ++ es₂ ++ es₃).countP slept = (es ++ es₁).countP slept + 1 := by
      rw [List.countP_append, List.countP_append, hcount₂, sleep_eq hsleep]
    have hmore : es.countP slept ≤ (es ++ es₁).countP slept := by
      rw [List.countP_append]
      exact Nat.le_add_right ..
    rw [show h ++ es ++ es₁ ++ es₂ ++ es₃ = h ++ (es ++ es₁ ++ es₂ ++ es₃) by
      simp only [List.append_assoc]]
    refine ih ?_ ?_
    · push_cast at hlimit
      omega
    · rw [hcount]
      push_cast at hlimit ⊢
      omega

/-- What a step's limit is at most. -/
theorem stepTimeout_le {a : Automation} {started : ℤ} {own : Option Text} {default : ℕ} {t : ℤ}
    (hr : stepTimeout d a started own default h = some (.ok t, es)) :
    t ≤ ((own.bind durationOf).getD default : ℕ) := by
  have hshows : (stepTimeout d a started own default).Shows (fun _ => (none : Option Unit))
      (fun t _ => t ≤ ((own.bind durationOf).getD default : ℕ)) fun _ _ => True := by
    refine Shows.bind shows_true (fun _ _ _ => ?_) fun _ _ _ => trivial
    exact shows_pure (min_le_left _ _)
  exact hshows h _ es hr

theorem ends_waitFresh (hticks : Ticks d) (ws session : Text) {timeoutMs : ℤ} {fuel : ℕ}
    (hfuel : timeoutMs < fuel) (hpos : 0 < fuel) : (waitFresh d fuel ws session timeoutMs).Total := by
  intro h
  refine Ends.bind (total_ask _) fun start es hnow => ?_
  obtain ⟨hcount, hstart⟩ := now_eq hnow
  refine Ends.bind (ends_poll hticks ?_ FRESH_POLL_MS hstart hpos ?_) fun isOver es' _ => ?_
  · exact total_ask.bind fun _ => total_pure
  · rw [hcount]
    omega
  · split_ifs
    · exact total_pure _
    · exact total_ask.bind (fun _ => total_fail) _

theorem ends_waitIdle (hticks : Ticks d) (ws : Text) {timeoutMs : ℤ} {fuel : ℕ}
    (hfuel : timeoutMs < fuel) (hpos : 0 < fuel) : (waitIdle d fuel ws timeoutMs).Total := by
  intro h
  refine Ends.bind (total_ask _) fun start es hnow => ?_
  obtain ⟨hcount, hstart⟩ := now_eq hnow
  refine Ends.bind (ends_poll hticks total_ask POLL_MS hstart hpos ?_) fun sawBusy es' _ => ?_
  · rw [hcount]
    push_cast
    omega
  split_ifs
  · rw [List.append_assoc]
    refine Ends.bind (ends_poll hticks ?_ POLL_MS hstart hpos ?_) fun idle es'' _ => ?_
    · exact total_ask.bind fun _ => total_pure
    · omega
    · split_ifs
      · exact total_pure _
      · exact total_ask.bind (fun _ => total_fail) _
  · exact total_pure _

theorem total_prepare (ws : Text) (ensureRunning : Bool) : (prepare d ws ensureRunning).Total := by
  refine total_ask.bind fun name => total_ask.bind fun state => ?_
  split
  · exact total_fail
  · exact total_fail
  · exact total_pure
  · cases ensureRunning with
    | true => exact total_ask
    | false => exact total_fail

theorem total_triggerWorkspace (run : Run) : (triggerWorkspace d run).Total := by
  unfold triggerWorkspace
  split
  · exact total_pure
  · exact total_ask.bind fun _ => total_pure

theorem total_readSecrets (vaultOf : Option Text) (keys : List Text) :
    (readSecrets d vaultOf keys).Total := by
  induction keys with
  | nil => exact total_pure
  | cons key keys ih =>
    have hsecret : (secret d vaultOf key).Total := by
      unfold secret
      split
      · exact total_ask
      · exact total_pure
    refine hsecret.bind fun v => ?_
    split
    · exact ih.bind fun _ => total_pure
    · exact total_ask.bind fun _ => total_fail
    · exact total_fail

theorem total_emitAll (kind : Text) {emit : Value → Program Unit} (hemit : ∀ v, (emit v).Total)
    (vs : List Value) : (emitAll d kind emit vs).Total := by
  induction vs with
  | nil => exact total_pure
  | cons v vs ih =>
    refine (hemit v).attempt.bind fun r => ih.bind fun rest => ?_
    split
    · exact total_pure
    · exact total_pure

theorem total_applyEmits (res : ExecResult) (step : Text) (out : ScriptEmits) :
    (applyEmits d res step out).Total := by
  unfold applyEmits
  split_ifs
  · exact total_pure
  refine (total_emitAll _ (fun _ => total_ask) _).bind fun todos => ?_
  refine (total_emitAll _ (fun _ => total_ask) _).bind fun notes => ?_
  have hkeep : (keepState d out.state).Total := by
    unfold keepState
    split
    · exact total_pure
    · exact total_ask
  have hnext : (requestNext d step out.next).Total := by
    unfold requestNext
    split
    · exact total_pure
    · refine total_ask.attempt.bind fun r => ?_
      split
      · exact total_pure
      · exact total_pure
  exact hkeep.bind fun _ => hnext.bind fun _ => total_pure

theorem total_finish (row : ℕ) (status : RunStatus) (patch : Patch) :
    (finish d row status patch).Total := total_ask.bind fun _ => total_ask

theorem total_runScriptStep (a : Automation) (run : Run) (id : Text) (sc : ScriptDef) (row : ℕ)
    (timeoutMs : ℤ) : (runScriptStep d a run id sc row timeoutMs).Total := by
  unfold runScriptStep
  split_ifs
  · exact total_fail
  refine total_ask.bind fun auto => ?_
  dsimp only
  split_ifs
  · exact total_fail
  have hprepare : (prepareTarget d (targetWorkspace sc auto) sc.ensureRunning).Total := by
    unfold prepareTarget
    split
    · exact total_pure
    · exact total_prepare _ sc.ensureRunning
  refine hprepare.bind fun _ => (total_readSecrets _ sc.secrets).bind fun secrets => ?_
  refine total_ask.bind fun state => (total_triggerWorkspace run).bind fun from_ => ?_
  refine total_ask.bind fun res => (total_applyEmits res id _).bind fun counts => ?_
  unfold conclude
  split
  · exact (total_finish row _ _).bind fun _ => total_fail
  · split
    · exact (total_finish row _ _).bind fun _ => total_fail
    · exact (total_finish row _ _).bind fun _ => total_pure

theorem total_checkRunTimeout (a : Automation) (started : ℤ) :
    (checkRunTimeout d a started).Total := by
  refine total_ask.bind fun t => ?_
  split
  · exact total_fail
  · exact total_pure

theorem total_stepTimeout (a : Automation) (started : ℤ) (own : Option Text) (default : ℕ) :
    (stepTimeout d a started own default).Total := total_ask.bind fun _ => total_pure

/-- The limit of a prompt step by itself. -/
def promptLimit (p : PromptDef) : ℕ := (p.timeout.bind durationOf).getD DEFAULT_STEP_TIMEOUT_MS

theorem total_promptBody (hticks : Ticks d) {fuel : ℕ} (a : Automation) (run : Run)
    (callerSupplied : Bool) (started : ℤ) (outputs : Outputs) (id : Text) (p : PromptDef)
    (hfuel : promptLimit p < fuel) :
    (promptBody d fuel a run callerSupplied started outputs id p).Total := by
  refine (total_checkRunTimeout a started).bind fun _ => ?_
  refine (total_prepare _ p.ensureRunning).bind fun _ => (total_triggerWorkspace run).bind ?_
  intro from_ h
  refine Ends.bind (total_stepTimeout a started _ _ _) fun timeout es htimeout => ?_
  have hlimit : timeout < fuel := by
    have hle : timeout ≤ (promptLimit p : ℕ) := stepTimeout_le htimeout
    omega
  cases p.mode with
  | fresh =>
    refine Total.bind total_ask (fun _ => ?_) _
    refine Total.bind ?_ fun _ => total_pure
    exact (ends_waitFresh hticks _ _ hlimit (by omega)).finally' total_ask
  | live =>
    refine Total.bind total_ask (fun res => ?_) _
    refine Total.bind ?_ fun _ => total_pure
    unfold waitLive
    split_ifs
    · exact ends_waitIdle hticks _ hlimit (by omega)
    · exact total_pure

theorem total_stepFailed (row : ℕ) (id : Text) (e : Failure) : (stepFailed d row id e).Total := by
  have hfinish : (finishOpen d row e).Total := by
    unfold finishOpen
    split
    · exact total_pure
    · exact total_finish row _ _
  exact hfinish.bind fun _ => total_pure

/-- The fuel is enough for the loops of the step. -/
def Fuelled (fuel : ℕ) : StepDef → Prop
  | .prompt _ p => promptLimit p < fuel
  | .script .. => True

theorem total_executeStep (hticks : Ticks d) {fuel : ℕ} (a : Automation) (run : Run)
    (callerSupplied : Bool) (started : ℤ) (outputs : Outputs) {step : StepDef}
    (hfuel : Fuelled fuel step) :
    (executeStep d fuel a run callerSupplied started outputs step).Total := by
  cases step with
  | script id sc =>
    have hplace : (scriptPlace d sc).Total := by
      unfold scriptPlace
      split
      · exact total_pure
      · exact total_ask
    refine hplace.bind fun place => total_ask.bind fun t => total_ask.bind fun row => ?_
    refine Total.rescue ?_ (total_stepFailed row id)
    refine (total_checkRunTimeout a started).bind fun _ => ?_
    refine (total_stepTimeout a started _ _).bind fun timeout => ?_
    refine (total_runScriptStep a run id sc row timeout).bind fun r => ?_
    split
    · exact total_pure
    · exact total_pure
  | prompt id p =>
    refine total_ask.bind fun t => total_ask.bind fun row => ?_
    refine Total.rescue ?_ (total_stepFailed row id)
    refine (total_promptBody hticks a run callerSupplied started outputs id p hfuel).bind
      fun patch => ?_
    exact (total_finish row _ patch).bind fun _ => total_pure

theorem total_executeSteps (hticks : Ticks d) {fuel : ℕ} (a : Automation) (run : Run)
    (callerSupplied : Bool) (started : ℤ) {steps : List StepDef}
    (hfuel : ∀ step ∈ steps, Fuelled fuel step) : ∀ outputs : Outputs,
    (executeSteps d fuel a run callerSupplied started outputs steps).Total := by
  induction steps with
  | nil => exact fun outputs => total_pure
  | cons step steps ih =>
    intro outputs
    refine (total_executeStep hticks a run callerSupplied started outputs
      (hfuel step List.mem_cons_self)).bind fun r => ?_
    split
    · exact ih (fun s hs => hfuel s (List.mem_cons_of_mem _ hs)) _
    · exact total_pure

end Ends

/-- A run always comes to an end when its clock moves on while it sleeps, whatever everything else
answers: its loops go round fewer times than a step's limit has milliseconds. -/
theorem executeRun_ends {d : Deps} (hticks : Ticks d) {fuel : ℕ} (a : Automation) (run : Run)
    (callerSupplied : Bool) (hfuel : ∀ step ∈ a.definition.steps, Fuelled fuel step) :
    (executeRun d fuel a run callerSupplied).Total :=
  total_ask.bind fun started => total_executeSteps hticks a run callerSupplied started hfuel []

/-- A session that never ends, by a clock that only sleeping moves on. -/
def hanging : Deps where
  answers c h :=
    match c with
    | .now => .ok (h.countP slept : ℤ)
    | .sleep _ | .ensureRunning _ | .spawnFresh .. | .closeFresh .. => .ok ()
    | .workspaceState _ => .ok (some .running)
    | .workspaceName id => .ok id
    | .post .. => .ok (js "attached", none)
    | .busy _ => .ok true
    | .freshState .. => .ok .alive
    | .execScript .. => .ok ⟨0, [], [], false⟩
    | .automationsWorkspace => .ok none
    | .secret .. => .ok none
    | .emitTodo _ | .emitNotify _ | .requestNext .. | .setState _ | .finishStep .. => .ok ()
    | .getState => .ok none
    | .startStep .. => .ok h.length
  json := ⟨fun _ => none, fun _ => []⟩
  numbers := ones
  toUpperCase := id

theorem ticks_hanging : Ticks hanging := by
  intro h es t t' ht ht'
  obtain rfl := Except.ok.inj ht
  obtain rfl := Except.ok.inj ht'
  rw [List.countP_append]
  push_cast
  exact le_rfl

def oncePrompted : Automation where
  id := js "a"
  name := js "nightly"
  definition := {
    name := js "nightly"
    triggers := []
    steps := [.prompt (js "check") { workspace := js "W", mode := .fresh, message := [] }] }

theorem executeRun_ends_hanging :
    (executeRun hanging 600001 oncePrompted ⟨js "r", js "manual", none, []⟩ false).Total := by
  refine executeRun_ends ticks_hanging oncePrompted _ false fun step hstep => ?_
  obtain rfl := List.mem_singleton.mp hstep
  exact Nat.lt_succ_self 600000

end ClaudeFleet.Runner
