import ClaudeFleet.Validation

/-! The validator and the renderer on the placeholders of a prompt. -/
namespace ClaudeFleet.Definition
open Js Template

/-- Where the text that takes the place of a placeholder comes from. -/
inductive Source
  | output (id : Text)
  | runId
  | triggerKind
  | triggerWorkspace
  | triggerTodo
  | arg (key : Text) (v : ParamValue)
  /-- A property that every object has. -/
  | inherited (key : Text)
  deriving DecidableEq

/-- The branch of the replacement that a placeholder takes; in none of them it is left as it
stands. -/
def source (r : RenderCtx) (p : Placeholder) : Option Source :=
  match outputKey r p, p.key with
  | some key, _ => some (.output key)
  | none, none => none
  | none, some key =>
    if p.ns = js "run" ∧ key = js "id" then some .runId
    else if p.ns = js "trigger" ∧ key = js "kind" then some .triggerKind
    else if p.ns = js "trigger" ∧ key = js "workspace" then some .triggerWorkspace
    else if p.ns = js "trigger" ∧ key = js "todo" then some .triggerTodo
    else if p.ns = js "args" ∧ hasKey r.args key = true then
      match r.args.lookup key with
      | some v => some (.arg key v)
      | none => some (.inherited key)
    else none

def Source.text (N : NumberText) (r : RenderCtx) : Source → Text
  | .output id => js "[output of step " ++ id ++ js ", see below]"
  | .runId => r.runId
  | .triggerKind => r.triggerKind
  | .triggerWorkspace => r.triggerWorkspace.getD []
  | .triggerTodo => r.triggerTodo.getD []
  | .arg key v =>
    if r.callerSupplied then js "[" ++ key ++ js ", see caller-supplied input below]" else v.text N
  | .inherited key =>
    if r.callerSupplied then js "[" ++ key ++ js ", see caller-supplied input below]"
    else inheritedText key

theorem substitute_eq (N : NumberText) (r : RenderCtx) (p : Placeholder) :
    substitute N r p = (source r p).elim p.whole (·.text N r) := by
  cases hout : outputKey r p with
  | some key => simp [substitute, source, hout, Source.text]
  | none =>
    cases hkey : p.key with
    | none => simp [substitute, source, hout, hkey]
    | some key =>
      simp only [substitute, source, hout, hkey]
      split_ifs <;> cases r.args.lookup key <;> simp_all [Source.text]

/-- The source has the namespace and the key the validator has checked: a declared param's own
value, the output of a script step that comes before, or one of the run's own facts. -/
def Agrees (params : List ParamDef) (before : List StepDef) (r : RenderCtx) (p : Placeholder) :
    Source → Prop
  | .output id => p.ns = js "steps" ∧ p.key = some id ∧ p.rest = js ".stdout" ∧
      (∃ s ∈ before, s.isScript = true ∧ s.id = id) ∧
        (r.stepOutputs.any fun o => (o.lookup id).isSome) = true
  | .runId => p.ns = js "run" ∧ p.key = some (js "id")
  | .triggerKind => p.ns = js "trigger" ∧ p.key = some (js "kind")
  | .triggerWorkspace => p.ns = js "trigger" ∧ p.key = some (js "workspace")
  | .triggerTodo => p.ns = js "trigger" ∧ p.key = some (js "todo")
  | .arg key v => p.ns = js "args" ∧ p.key = some key ∧ (∃ x ∈ params, x.name = key) ∧
      r.args.lookup key = some v
  | .inherited _ => False

variable (L : Language) {ctx : ResolveCtx}

/-! What the validator has accepted. -/

theorem checkPlaceholders_accepts {w : Text} {params : List ParamDef} {out : List StepDef}
    {message : Text} {u : Unit} : (checkPlaceholders w params out message).Accepts u ↔
      ∀ p ∈ placeholders message, placeholderError params out p = none := by
  simp [checkPlaceholders, Check.Accepts]

theorem validatePrompt_placeholders {L : Language} {w : Text} {params : List ParamDef}
    {out : List StepDef} {raw : Value} {d : PromptDef}
    (h : (validatePrompt L ctx w params out raw).Accepts d) :
    ∀ p ∈ placeholders d.message, placeholderError params out p = none := by
  simp only [validatePrompt, Check.accepts_bind, Check.accepts_pure, checkPlaceholders_accepts] at h
  obtain ⟨_, _, _, _, _, _, _, _, message, _, _, _, _, hall, _, _, rfl⟩ := h
  exact hall

/-- A prompt of an accepted list of steps has been checked against the steps before it. -/
theorem validateSteps_prompt {L : Language} {raw : Option Value} {params : List ParamDef}
    {before after : List StepDef} {id : Text} {d : PromptDef}
    (h : (validateSteps L ctx raw params).Accepts (before ++ .prompt id d :: after)) :
    ∀ p ∈ placeholders d.message, placeholderError params before p = none := by
  have hempty : ∀ u : Unit, ¬((do
      Check.complain true (js "steps: at least one step")
      pure []) : Check Text (List StepDef)).Accepts (before ++ .prompt id d :: after) := by
    simp
  unfold validateSteps at h
  split at h
  · rename_i anchor s items
    simp only [Check.accepts_bind, Check.accepts_complain] at h
    obtain ⟨_, -, h⟩ := h
    obtain ⟨steps, hsteps, hlen, hall⟩ := Check.accepts_each.mp h
    rw [List.nil_append] at hsteps
    subst hsteps
    have hlt : before.length < (s :: items).length := by
      rw [← hlen]
      simp
    obtain ⟨raw, hraw⟩ : ∃ raw, (s :: items)[before.length]? = some raw :=
      ⟨_, List.getElem?_eq_getElem hlt⟩
    have hstep := hall before.length raw (.prompt id d) hraw (by simp)
    simp only [List.nil_append, List.take_left', validateStep, Check.accepts_bind] at hstep
    obtain ⟨_, -, name, -, _, -, hstep⟩ := hstep
    split at hstep
    · simp at hstep
    · simp only [Check.accepts_map, StepDef.prompt.injEq] at hstep
      obtain ⟨d', hd', -, rfl⟩ := hstep
      exact validatePrompt_placeholders hd'
    · simp at hstep
  · exact absurd h (hempty ())

theorem placeholderError_none {params : List ParamDef} {out : List StepDef} {p : Placeholder} :
    placeholderError params out p = none ↔
      (p.ns = js "args" ∧ ∃ x ∈ params, some x.name = p.key) ∨
      (p.ns = js "trigger" ∧
        p.key ∈ [some (js "kind"), some (js "workspace"), some (js "todo")]) ∨
      (p.ns = js "run" ∧ p.key = some (js "id")) ∨
      (p.ns = js "steps" ∧ p.rest = js ".stdout" ∧
        ∃ x ∈ out, some x.id = p.key ∧ x.isScript = true) := by
  have htrigger : [js "kind", js "workspace", js "todo"].contains (p.key.getD []) = true ↔
      p.key ∈ [some (js "kind"), some (js "workspace"), some (js "todo")] := by
    cases p.key with
    | none => decide
    | some key => simp
  unfold placeholderError
  simp only [htrigger]
  split_ifs with h₁ h₂ h₃ h₄ h₅ h₆ h₇ h₈
  all_goals simp_all

/-! What an accepted argument map holds. -/

theorem lookup_eq_none {α : Type} {out : List (Text × α)} {key : Text} :
    out.lookup key = none ↔ key ∉ out.map Prod.fst := by
  rw [List.lookup_eq_none_iff]
  constructor
  · intro h hmem
    obtain ⟨kv, hkv, rfl⟩ := List.mem_map.mp hmem
    simpa using h kv hkv
  · intro h kv hkv
    simpa using fun heq : key = kv.1 => h (heq ▸ List.mem_map_of_mem hkv)

theorem lookup_replace {out : Args} {name key : Text} {v : ParamValue} :
    (out.map fun kv => if kv.1 = name then (name, v) else kv).lookup key =
      if key = name then (out.lookup key).map fun _ => v else out.lookup key := by
  induction out with
  | nil => simp
  | cons kv out ih =>
    rw [List.map_cons, List.lookup_cons, List.lookup_cons, ih]
    by_cases hk : key = kv.1
    · subst hk
      by_cases hn : kv.1 = name <;> simp [hn]
    · have hne : (key == kv.1) = false := by simpa using hk
      by_cases hn : kv.1 = name
      · have hne' : (key == name) = false := by simpa [hn] using hk
        have hkn : key ≠ name := by simpa using hne'
        simp [hn, hne', hkn]
      · simp [hn, hne]

theorem lookup_assign {out : Args} {name key : Text} {v : ParamValue} (h : name ≠ js "__proto__") :
    (assign out name v).lookup key = if key = name then some v else out.lookup key := by
  have hany : out.any (·.1 == name) = true ↔ name ∈ out.map Prod.fst := by simp
  rw [assign, if_neg h]
  split_ifs with hin hkey hkey
  · rw [lookup_replace, if_pos hkey, hkey]
    cases hl : out.lookup name with
    | none => exact absurd (hany.mp hin) (lookup_eq_none.mp hl)
    | some w => rfl
  · rw [lookup_replace, if_neg hkey]
  · have hl : out.lookup key = none := lookup_eq_none.mpr (hkey ▸ fun hm => hin (hany.mpr hm))
    subst hkey
    rw [List.lookup_append, hl]
    simp
  · have hne : (key == name) = false := by simpa using hkey
    simp [List.lookup_append, List.lookup_cons, hne]

/-- The map is given a value for a param: one of the caller's that is not an empty text, or the
param's default. -/
def HasValue (given : Value) (p : ParamDef) : Prop :=
  p.name ≠ js "__proto__" ∧ ((givenFor given p).isSome ∨ p.default.isSome)

theorem validateArg_lookup {L : Language} {given : Value} {coerce : Bool} {out out' : Args}
    {p : ParamDef} (h : (validateArg L given coerce out p).Accepts out') (key : Text) :
    (out'.lookup key).isSome ↔
      (out.lookup key).isSome ∨ p.name = key ∧ HasValue given p := by
  have hassign : ∀ v, ((assign out p.name v).lookup key).isSome ↔
      (out.lookup key).isSome ∨ p.name = key ∧ p.name ≠ js "__proto__" := by
    intro v
    by_cases hproto : p.name = js "__proto__"
    · simp [assign, hproto]
    · rw [lookup_assign hproto]
      by_cases hk : key = p.name
      · simp [hk, hproto]
      · simp [hk, Ne.symm hk]
  unfold validateArg at h
  cases hgiven : givenFor given p with
  | none =>
    rw [hgiven] at h
    cases hdefault : p.default with
    | some d =>
      obtain rfl : assign out p.name d = out' := by simpa [hdefault] using h
      simp [hassign, HasValue, hgiven, hdefault]
    | none =>
      obtain ⟨-, rfl⟩ : p.required = false ∧ out = out' := by simpa [hdefault] using h
      simp [HasValue, hgiven, hdefault]
  | some v =>
    rw [hgiven] at h
    simp only [Check.accepts_bind, Check.accepts_attempt, Check.accepts_pure] at h
    obtain ⟨_, ⟨w, -, rfl⟩, rfl⟩ := h
    simp [hassign, HasValue, hgiven]

theorem validateArgsFrom_lookup {L : Language} {given : Value} {coerce : Bool}
    {params : List ParamDef} : ∀ {out out' : Args},
      (validateArgsFrom L given coerce out params).Accepts out' → ∀ key : Text,
        ((out'.lookup key).isSome ↔
          (out.lookup key).isSome ∨ ∃ p ∈ params, p.name = key ∧ HasValue given p) := by
  induction params with
  | nil =>
    intro out out' h key
    obtain rfl : out = out' := by simpa [validateArgsFrom] using h
    simp
  | cons p params ih =>
    intro out out' h key
    simp only [validateArgsFrom, Check.accepts_bind] at h
    obtain ⟨mid, hmid, hrest⟩ := h
    rw [ih hrest key, validateArg_lookup hmid key]
    simp [or_assoc]

/-- The arguments as validation reads them: anything but an object gives none. -/
def givenArgs (raw : Value) : Value := if raw.isObject then raw else .obj []

theorem validateArgs_lookup {L : Language} {params : List ParamDef} {raw : Value} {coerce : Bool}
    {args : Args} (h : (validateArgs L params raw coerce).Accepts args) (key : Text) :
    (args.lookup key).isSome ↔ ∃ p ∈ params, p.name = key ∧ HasValue (givenArgs raw) p := by
  simp only [validateArgs, Check.accepts_bind] at h
  obtain ⟨_, -, h⟩ := h
  rw [validateArgsFrom_lookup h key]
  simp [givenArgs]

/-! The branches of the replacement. -/

theorem outputKey_none {r : RenderCtx} {p : Placeholder} (h : p.ns ≠ js "steps") :
    outputKey r p = none := by
  simp [outputKey, h]

theorem source_arg {r : RenderCtx} {p : Placeholder} {key : Text} {v : ParamValue}
    (hns : p.ns = js "args") (hkey : p.key = some key) (hv : r.args.lookup key = some v) :
    source r p = some (.arg key v) := by
  have hout : outputKey r p = none := outputKey_none (by simp [hns])
  have hmem : key ∈ r.args.map Prod.fst := by
    by_contra hnot
    rw [lookup_eq_none.mpr hnot] at hv
    cases hv
  have hhas : hasKey r.args key = true := by
    simp only [hasKey, Bool.or_eq_true, List.contains_iff_mem]
    exact Or.inl hmem
  simp [source, hout, hkey, hns, hhas, hv]

theorem source_output {r : RenderCtx} {p : Placeholder} {key : Text}
    {outputs : List (Text × Text)} (hns : p.ns = js "steps") (hkey : p.key = some key)
    (hrest : p.rest = js ".stdout") (houtputs : r.stepOutputs = some outputs)
    (hv : (outputs.lookup key).isSome = true) : source r p = some (.output key) := by
  have hmem : key ∈ outputs.map Prod.fst := by
    by_contra hnot
    rw [lookup_eq_none.mpr hnot] at hv
    cases hv
  have hout : outputKey r p = some key := by
    simp only [outputKey, hkey, hns, hrest, houtputs, hasKey, Option.any_some]
    rw [Option.filter_eq_some_iff]
    simp only [decide_true, Bool.true_and, true_and, Bool.or_eq_true, List.contains_iff_mem]
    exact Or.inl hmem
  simp [source, hout]

/-- In a run of an accepted definition with an accepted argument map, whose earlier script steps
have produced outputs, every placeholder of a prompt is replaced from the namespace and the key
it was checked against, exactly when every param the message names has a value. -/
theorem placeholders_agree_iff {raw : Value} {d : AutomationDef}
    (hdef : (validateDefinition L ctx raw).Accepts d) {rawArgs : Value} {coerce : Bool}
    {args : Args} (hargs : (validateArgs L d.params rawArgs coerce).Accepts args)
    {before after : List StepDef} {id : Text} {prompt : PromptDef}
    (hsteps : d.steps = before ++ .prompt id prompt :: after) {r : RenderCtx}
    (hr : r.args = args) {outputs : List (Text × Text)} (houtputs : r.stepOutputs = some outputs)
    (hran : ∀ s ∈ before, s.isScript = true → (outputs.lookup s.id).isSome = true) :
    (∀ p ∈ placeholders prompt.message, ∃ src, source r p = some src ∧
        Agrees d.params before r p src) ↔
      ∀ p ∈ placeholders prompt.message, p.ns = js "args" →
        ∃ x ∈ d.params, p.key = some x.name ∧ HasValue (givenArgs rawArgs) x := by
  have hfields := validateFields_accepts.mp (validateDefinition_accepts.mp hdef).2.1
  have hchecked := hfields.2.2.2.2.2.2.1
  rw [hsteps] at hchecked
  have herror := fun p hp => placeholderError_none.mp (validateSteps_prompt hchecked p hp)
  subst hr
  constructor
  · intro hall p hp hns
    obtain ⟨src, hsrc, hagree⟩ := hall p hp
    obtain ⟨key, v, rfl⟩ : ∃ key v, src = .arg key v := by
      cases src with
      | arg key v => exact ⟨key, v, rfl⟩
      | _ => simp [Agrees, hns] at hagree
    obtain ⟨-, hkey, -, hlookup⟩ := hagree
    obtain ⟨x, hx, rfl, hvalue⟩ := (validateArgs_lookup hargs key).mp (by rw [hlookup]; rfl)
    exact ⟨x, hx, hkey, hvalue⟩
  · intro hall p hp
    obtain ⟨hns, -⟩ | ⟨hns, hkey⟩ | ⟨hns, hkey⟩ | ⟨hns, hrest, s, hs, hkey, hscript⟩ :=
      herror p hp
    · obtain ⟨x, hx, hkey, hvalue⟩ := hall p hp hns
      obtain ⟨v, hv⟩ := Option.isSome_iff_exists.mp
        ((validateArgs_lookup hargs x.name).mpr ⟨x, hx, rfl, hvalue⟩)
      exact ⟨.arg x.name v, source_arg hns hkey hv, hns, hkey, ⟨x, hx, rfl⟩, hv⟩
    · have hout : outputKey r p = none := outputKey_none (by simp [hns])
      simp only [List.mem_cons, List.not_mem_nil, or_false] at hkey
      obtain hkey | hkey | hkey := hkey
      · exact ⟨.triggerKind, by simp [source, hout, hkey, hns], hns, hkey⟩
      · exact ⟨.triggerWorkspace, by simp [source, hout, hkey, hns], hns, hkey⟩
      · exact ⟨.triggerTodo, by simp [source, hout, hkey, hns], hns, hkey⟩
    · have hout : outputKey r p = none := outputKey_none (by simp [hns])
      exact ⟨.runId, by simp [source, hout, hkey, hns], hns, hkey⟩
    · have hv := hran s hs hscript
      exact ⟨.output s.id, source_output hns hkey.symm hrest houtputs hv, hns, hkey.symm, hrest,
        ⟨s, hs, hscript, rfl⟩, by simp [houtputs, hv]⟩

def lowerUnit (u : UInt16) : UInt16 := if 65 ≤ u ∧ u ≤ 90 then u + 32 else u

theorem lowerUnit_tag {u : UInt16} (h : isTagUnit u = true) : lowerUnit u = u := by
  have hout : ¬(65 ≤ u ∧ u ≤ 90) := by
    rintro ⟨hlow, hhigh⟩
    rw [UInt16.le_iff_toNat_le] at hlow hhigh
    simp only [isTagUnit, isDigit, Bool.or_eq_true, Bool.and_eq_true, decide_eq_true_eq, beq_iff_eq,
      UInt16.le_iff_toNat_le, ← UInt16.toNat_inj] at h
    simp only [UInt16.toNat_ofNat] at hlow hhigh h
    omega
  exact if_neg hout

/-- The language as far as plain texts go. -/
def plain : Language where
  numbers := ones
  toNumber _ := .nan
  toLowerCase s := s.map lowerUnit
  lower_tag s hs := by
    rw [List.map_congr_left fun u hu => lowerUnit_tag (hs u hu), List.map_id']
  isValidTimeZone s := s = js "UTC"

/-- One workspace is known, by its id. -/
def oneWorkspace : ResolveCtx := ⟨fun s => if s = js "w1" then some s else none, none, none⟩

def reportMessage : Text := js "Report what changed since \x7b\x7bargs.since\x7d\x7d"

/-- A definition with one param, which is optional and has no default. -/
def report : Value :=
  .record [("name", some (.str (js "report"))),
    ("triggers", some (.arr none [.record [("manual", some .null)]])),
    ("params", some (.arr none
      [.record [("name", some (.str (js "since"))), ("type", some (.str (js "string")))]])),
    ("steps", some (.arr none [.record [("id", some (.str (js "check"))),
      ("prompt", some (.record [("workspace", some (.str (js "w1"))),
        ("message", some (.str reportMessage))]))]]))]

def reportPrompt : PromptDef := { workspace := js "w1", mode := .live, message := reportMessage }

def reportDef : AutomationDef :=
  { name := js "report", triggers := [.manual []]
    params := [{ name := js "since", type := .string }]
    steps := [.prompt (js "check") reportPrompt] }

def noon : Value := .obj [(js "since", .str (js "noon"))]

def reportRun (args : Args) : RenderCtx :=
  { automationName := js "report", runId := js "r1", triggerKind := js "manual"
    triggerWorkspace := none, triggerTodo := none, args, callerSupplied := false
    stepOutputs := some [] }

theorem placeholders_agree_report :
    (∀ p ∈ placeholders reportMessage,
      ∃ src, source (reportRun [(js "since", .string (js "noon"))]) p = some src ∧
        Agrees reportDef.params [] (reportRun [(js "since", .string (js "noon"))]) p src) ↔
      ∀ p ∈ placeholders reportMessage, p.ns = js "args" → ∃ x ∈ reportDef.params,
        p.key = some x.name ∧ HasValue (givenArgs noon) x :=
  @placeholders_agree_iff plain oneWorkspace report reportDef (by decide +kernel) noon false
    [(js "since", .string (js "noon"))] (by decide +kernel) [] [] (js "check") reportPrompt rfl
    (reportRun [(js "since", .string (js "noon"))]) rfl [] rfl (by simp)

/-- The argument is left out, and its placeholder stays in the prompt. -/
theorem placeholder_left :
    (validateDefinition plain oneWorkspace report).Accepts reportDef ∧
      (validateArgs plain reportDef.params (.obj []) false).Accepts [] ∧
        ∃ p ∈ placeholders reportMessage, source (reportRun []) p = none := by
  decide +kernel

end ClaudeFleet.Definition
