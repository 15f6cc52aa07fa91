import ClaudeFleet.Manifest

/-! Whether the writes of a manifest add up to a serial order. They do in the runs where every write
finds the manifest as its operation read it; the code does not check that, and a write that finds
another manifest puts back what the operation read. -/
namespace ClaudeFleet.Manifest
open Transition Capture Control

variable {R : Type}

/-- What is stored after a change to the manifest as it is. -/
def store (id : String) (m : Option (WorkspaceSpec R)) (c : Change R) : Option (WorkspaceSpec R) :=
  (c.apply id (m.map WorkspaceSpec.parse)).map WorkspaceSpec.toWrite

def replay (id : String) (m : Option (WorkspaceSpec R)) (cs : List (Change R)) :
    Option (WorkspaceSpec R) :=
  cs.foldl (store id) m

/-- The operation, on this manifest, writes this change. -/
def Chooses (m : Option (WorkspaceSpec R)) (c : Change R) : Op R → Prop
  | .touchWorkspaceUsed => m.isSome ∧ ∃ now, c = .used now
  | .installLoadout loadoutId =>
    ∃ ws r, m = some ws ∧ ws.kind = .container ∧ r.id = loadoutId ∧ c = .installed r
  | .uninstallLoadout loadoutId => m.isSome ∧ c = .uninstalled loadoutId
  | .setCapture patch =>
    ∃ ws after, m = some ws ∧ ws.kind ≠ .remote ∧
      after = normalizeCaptureSettings (some ((effectiveCaptureSettings ws).toPatch.spread patch)) ∧
      effectiveCaptureSettings ws ≠ after ∧ c = .captured after
  | .applyApproved before after =>
    ∃ ws, m = some ws ∧ c = .captured (normalizeCaptureSettings
      (some ((effectiveCaptureSettings ws).toPatch.spread (diffCaptureSettings before after))))
  | .edit e => notRemote e.kind m ∧ ∃ root, c = .edited e root
  | .regrant control => m.isSome ∧ ∃ root, c = .regranted control root

/-- What an operation keeps from its read until its write. -/
def OpSound (o : Op R) : Pc R → Prop
  | .working m =>
    match o with
    | .installLoadout _ => ∃ ws, m = some ws ∧ ws.kind = .container
    | .edit e => notRemote e.kind m
    | _ => m.isSome
  | .trusting ws after => Chooses (some ws) (.captured after) o
  | .writing m c => Chooses m c o
  | _ => True

def isWritten : Pc R → Bool
  | .finished .written => true
  | _ => false

/-- The change that a step writes, with the manifest that it was made from. -/
def commits (s : State R) : Action R → Option (String × Option (WorkspaceSpec R) × Change R)
  | .resume t .ok =>
    match s.tasks t with
    | some (.op id _ (.writing m c)) => some (id, m, c)
    | _ => none
  | _ => none

theorem afterRead_sound (id : String) (now : ℤ) (m : Option (WorkspaceSpec R)) (o : Op R) :
    OpSound o (o.afterRead id now m) ∧ isWritten (o.afterRead id now m) = false := by
  cases o with
  | touchWorkspaceUsed =>
    cases m with
    | none => exact ⟨trivial, rfl⟩
    | some ws => exact ⟨⟨rfl, now, rfl⟩, rfl⟩
  | installLoadout loadoutId =>
    cases m with
    | none => exact ⟨trivial, rfl⟩
    | some ws =>
      simp only [Op.afterRead]
      split_ifs with hkind
      · exact ⟨trivial, rfl⟩
      · exact ⟨⟨ws, rfl, not_not.mp hkind⟩, rfl⟩
  | uninstallLoadout loadoutId =>
    cases m with
    | none => exact ⟨trivial, rfl⟩
    | some ws => exact ⟨rfl, rfl⟩
  | setCapture patch =>
    cases m with
    | none => exact ⟨trivial, rfl⟩
    | some ws =>
      simp only [Op.afterRead]
      split_ifs with hremote hsame hgate
      · exact ⟨trivial, rfl⟩
      · exact ⟨trivial, rfl⟩
      · exact ⟨⟨ws, _, rfl, hremote, rfl, hsame, rfl⟩, rfl⟩
      · exact ⟨⟨ws, _, rfl, hremote, rfl, hsame, rfl⟩, rfl⟩
  | applyApproved before after =>
    cases m with
    | none => exact ⟨trivial, rfl⟩
    | some ws => exact ⟨⟨ws, rfl, rfl⟩, rfl⟩
  | edit e =>
    simp only [Op.afterRead]
    split_ifs with hremote
    · exact ⟨hremote, rfl⟩
    · exact ⟨trivial, rfl⟩
  | regrant control =>
    cases m with
    | none => exact ⟨trivial, rfl⟩
    | some ws => exact ⟨rfl, rfl⟩

theorem afterWork_sound {m existing : Option (WorkspaceSpec R)} {o : Op R} {a : Answer} {pc : Pc R}
    (h : OpSound o (.working m)) (hpc : o.afterWork m existing a = some pc) : OpSound o pc := by
  unfold Op.afterWork at hpc
  split at hpc
  · obtain ⟨ws, hm, hkind⟩ := h
    obtain rfl := Option.some.inj hpc
    exact ⟨ws, _, hm, hkind, rfl, rfl⟩
  · obtain rfl := Option.some.inj hpc
    exact ⟨h, rfl⟩
  · obtain rfl := Option.some.inj hpc
    exact ⟨h, _, rfl⟩
  · split_ifs at hpc
    · obtain rfl := Option.some.inj hpc
      exact ⟨h, _, rfl⟩
    · obtain rfl := Option.some.inj hpc
      trivial
  · cases hpc

theorem afterWork_not_written {m existing : Option (WorkspaceSpec R)} {o : Op R} {a : Answer}
    {pc : Pc R} (hpc : o.afterWork m existing a = some pc) : isWritten pc = false := by
  unfold Op.afterWork at hpc
  split at hpc
  · obtain rfl := Option.some.inj hpc
    rfl
  · obtain rfl := Option.some.inj hpc
    rfl
  · obtain rfl := Option.some.inj hpc
    rfl
  · split_ifs at hpc <;> obtain rfl := Option.some.inj hpc <;> rfl
  · cases hpc

/-- What a step does to the manifests and the tasks. -/
inductive Effect (s : State R) : Action R → State R → Prop
  | start {id : String} {o : Op R} : Effect s (.start id o) (s.spawn (.op id o .reading))
  | assertControl {callerId targetId : String} {verb : CommitteeVerb} :
    Effect s (.assertControl callerId targetId verb)
      (s.spawn (.check callerId targetId verb (.reading none none)))
  | op {t : ℕ} {a : Answer} {id : String} {o : Op R} {pc pc' : Pc R}
    (ht : s.tasks t = some (.op id o pc)) (hsound : OpSound o pc → OpSound o pc')
    (hold : isWritten pc = false) (hnew : isWritten pc' = false)
    (hquiet : commits s (.resume t a) = none) :
    Effect s (.resume t a) (s.goto t (.op id o pc'))
  | write {t : ℕ} {id : String} {o : Op R} {m : Option (WorkspaceSpec R)} {c : Change R}
    (ht : s.tasks t = some (.op id o (.writing m c))) :
    Effect s (.resume t .ok) ((s.write id (c.apply id m)).goto t (.op id o (.finished .written)))
  | caller {t : ℕ} {callerId targetId : String} {verb : CommitteeVerb}
    {target : Option (Option (WorkspaceSpec R))}
    (ht : s.tasks t = some (.check callerId targetId verb (.reading none target))) :
    Effect s (.resume t .caller) (s.goto t (.check callerId targetId verb
      (settle callerId targetId verb (some (s.read callerId)) target)))
  | target {t : ℕ} {callerId targetId : String} {verb : CommitteeVerb}
    {caller : Option (Option (WorkspaceSpec R))}
    (ht : s.tasks t = some (.check callerId targetId verb (.reading caller none))) :
    Effect s (.resume t .target) (s.goto t (.check callerId targetId verb
      (settle callerId targetId verb caller (some (s.read targetId)))))

theorem resumeOp_effect {s s' : State R} {t : ℕ} {id : String} {o : Op R} {pc : Pc R} {a : Answer}
    (ht : s.tasks t = some (.op id o pc)) (h : s.resumeOp t id o pc a = some s') :
    Effect s (.resume t a) s' := by
  unfold State.resumeOp at h
  dsimp only at h
  split at h
  · cases h
  · next hpc =>
    obtain rfl := Option.some.inj h
    refine .op ht (fun _ => trivial) ?_ rfl rfl
    cases pc with
    | finished o => exact absurd rfl (hpc o)
    | _ => rfl
  · obtain rfl := Option.some.inj h
    obtain ⟨hsound, hne⟩ := afterRead_sound id _ (s.read id) o
    exact .op ht (fun _ => hsound) rfl hne rfl
  · split at h
    · cases h
    · next hwork =>
      obtain rfl := Option.some.inj h
      refine .op ht (fun hs => afterWork_sound hs hwork) rfl (afterWork_not_written hwork) ?_
      cases a <;> simp [commits, ht]
  · split_ifs at h
    · obtain rfl := Option.some.inj h
      exact .op ht (fun h => h) rfl rfl rfl
    · obtain rfl := Option.some.inj h
      exact .op ht (fun _ => trivial) rfl rfl rfl
  · obtain rfl := Option.some.inj h
    refine .op ht (fun _ => trivial) rfl rfl ?_
    simp [commits, ht]
  · obtain rfl := Option.some.inj h
    exact .write ht
  · cases h

theorem step_effect {s s' : State R} {a : Action R} (h : step s a = some s') : Effect s a s' := by
  cases a with
  | start id o =>
    obtain rfl := Option.some.inj h
    exact .start
  | assertControl callerId targetId verb =>
    obtain rfl := Option.some.inj h
    exact .assertControl
  | resume t a =>
    simp only [step] at h
    split at h
    · next ht => exact resumeOp_effect ht h
    · next ht =>
      unfold State.resumeCheck at h
      split at h
      · obtain rfl := Option.some.inj h
        exact .caller ht
      · obtain rfl := Option.some.inj h
        exact .target ht
      · cases h
    · cases h

structure Sound (s : State R) : Prop where
  ops : ∀ t id o pc, s.tasks t = some (.op id o pc) → OpSound o pc
  fresh : ∀ t, s.next ≤ t → s.tasks t = none

theorem tasks_goto {s : State R} {t j : ℕ} {x y : Task R} (h : (s.goto t y).tasks j = some x) :
    j = t ∧ x = y ∨ j ≠ t ∧ s.tasks j = some x := by
  by_cases hj : j = t
  · subst hj
    simp only [State.goto, Function.update_self, Option.some.injEq] at h
    exact Or.inl ⟨rfl, h.symm⟩
  · simp only [State.goto, Function.update_of_ne hj] at h
    exact Or.inr ⟨hj, h⟩

theorem Sound.lt {s : State R} (h : Sound s) {t : ℕ} {x : Task R} (ht : s.tasks t = some x) :
    t < s.next := by
  by_contra hge
  exact absurd (ht.symm.trans (h.fresh t (not_lt.mp hge))) nofun

theorem Sound.goto {s s' : State R} (h : Sound s) {t : ℕ} {x y : Task R}
    (ht : s.tasks t = some x) (htasks : s'.tasks = s.tasks) (hnext : s'.next = s.next)
    (hy : ∀ id o pc, y = .op id o pc → OpSound o pc) : Sound (s'.goto t y) where
  ops := by
    intro j id o pc hj
    rcases tasks_goto hj with ⟨-, hj⟩ | ⟨-, hj⟩
    · exact hy id o pc hj.symm
    · rw [htasks] at hj
      exact h.ops j id o pc hj
  fresh := by
    intro j hj
    have hge : s.next ≤ j := hnext ▸ hj
    simp only [State.goto, Function.update_of_ne ((h.lt ht).trans_le hge).ne', htasks]
    exact h.fresh j hge

theorem Sound.spawn {s : State R} (h : Sound s) {x : Task R}
    (hx : ∀ id o pc, x = .op id o pc → OpSound o pc) : Sound (s.spawn x) where
  ops := by
    intro j id o pc hj
    rcases tasks_goto hj with ⟨-, hj⟩ | ⟨-, hj⟩
    · exact hx id o pc hj.symm
    · exact h.ops j id o pc hj
  fresh := by
    intro j hj
    have hlt : s.next < j := hj
    simp only [State.spawn, State.goto, Function.update_of_ne hlt.ne']
    exact h.fresh j hlt.le

theorem Sound.effect {s s' : State R} {a : Action R} (h : Sound s) (he : Effect s a s') :
    Sound s' := by
  cases he with
  | start =>
    refine h.spawn fun id o pc heq => ?_
    cases heq
    trivial
  | assertControl => exact h.spawn fun id o pc heq => (nomatch heq)
  | op ht hsound hold hnew hquiet =>
    refine h.goto ht rfl rfl fun id o pc heq => ?_
    cases heq
    exact hsound (h.ops _ _ _ _ ht)
  | write ht =>
    refine h.goto ht rfl rfl fun id o pc heq => ?_
    cases heq
    trivial
  | caller ht => exact h.goto ht rfl rfl fun id o pc heq => (nomatch heq)
  | target ht => exact h.goto ht rfl rfl fun id o pc heq => (nomatch heq)

/-- Every write finds the manifest as its operation read it. -/
def FreshWrite (s : State R) (a : Action R) : Prop :=
  ∀ id m c, commits s a = some (id, m, c) → s.read id = m

theorem commits_write {s : State R} {t : ℕ} {id : String} {o : Op R}
    {m : Option (WorkspaceSpec R)} {c : Change R}
    (ht : s.tasks t = some (.op id o (.writing m c))) :
    commits s (.resume t .ok) = some (id, m, c) := by
  simp only [commits, ht]

/-- The log holds the writes of manifest `id`, in the order in which they were made. -/
structure SerialOrder (m₀ : Option (WorkspaceSpec R)) (id : String) (log : List (ℕ × Change R))
    (s : State R) : Prop where
  stored : s.manifests id = replay id m₀ (log.map Prod.snd)
  once : (log.map Prod.fst).Nodup
  finished : ∀ t o, s.tasks t = some (.op id o (.finished .written)) → t ∈ log.map Prod.fst
  chosen : Justified (fun before e => ∃ o, s.tasks e.1 = some (.op id o (.finished .written)) ∧
    Chooses ((replay id m₀ (before.map Prod.snd)).map WorkspaceSpec.parse) e.2 o) log

/-- A step that neither writes this manifest nor moves a task that has. -/
theorem SerialOrder.frame {m₀ : Option (WorkspaceSpec R)} {id : String}
    {log : List (ℕ × Change R)} {s s' : State R} (h : SerialOrder m₀ id log s)
    (hstored : s'.manifests id = s.manifests id)
    (htasks : ∀ t o, s'.tasks t = some (.op id o (.finished .written)) ↔
      s.tasks t = some (.op id o (.finished .written))) : SerialOrder m₀ id log s' where
  stored := hstored.trans h.stored
  once := h.once
  finished := fun t o ht => h.finished t o ((htasks t o).mp ht)
  chosen := by
    intro before e after heq
    obtain ⟨o, ho, hchosen⟩ := h.chosen before e after heq
    exact ⟨o, (htasks e.1 o).mpr ho, hchosen⟩

theorem written_goto {s s' : State R} {t : ℕ} {x y : Task R} {id : String}
    (ht : s.tasks t = some x) (htasks : s'.tasks = s.tasks)
    (hx : ∀ o, x ≠ .op id o (.finished .written)) (hy : ∀ o, y ≠ .op id o (.finished .written))
    (j : ℕ) (o : Op R) : (s'.goto t y).tasks j = some (.op id o (.finished .written)) ↔
      s.tasks j = some (.op id o (.finished .written)) := by
  constructor
  · intro hj
    rcases tasks_goto hj with ⟨-, hj⟩ | ⟨-, hj⟩
    · exact absurd hj.symm (hy o)
    · rwa [htasks] at hj
  · intro hj
    have hne : j ≠ t := by
      rintro rfl
      exact hx o (Option.some.inj (ht.symm.trans hj))
    simp only [State.goto, Function.update_of_ne hne, htasks, hj]

theorem written_spawn {s : State R} (h : Sound s) {x : Task R} {id : String}
    (hx : ∀ o, x ≠ .op id o (.finished .written)) (j : ℕ) (o : Op R) :
    (s.spawn x).tasks j = some (.op id o (.finished .written)) ↔
      s.tasks j = some (.op id o (.finished .written)) := by
  constructor
  · intro hj
    rcases tasks_goto hj with ⟨-, hj⟩ | ⟨-, hj⟩
    · exact absurd hj.symm (hx o)
    · exact hj
  · intro hj
    simp only [State.spawn, State.goto, Function.update_of_ne (h.lt hj).ne, hj]

theorem not_written {pc : Pc R} (h : isWritten pc = false) {id id' : String} {o o' : Op R} :
    Task.op id o pc ≠ .op id' o' (.finished .written) := by
  intro heq
  cases heq
  cases h

/-- A write that finds the manifest as it was read takes its place at the end of the order. -/
theorem SerialOrder.write {m₀ : Option (WorkspaceSpec R)} {log : List (ℕ × Change R)}
    {s : State R} {t : ℕ} {id : String} {o : Op R} {m : Option (WorkspaceSpec R)} {c : Change R}
    (h : SerialOrder m₀ id log s) (ht : s.tasks t = some (.op id o (.writing m c)))
    (hfresh : s.read id = m) (hchooses : Chooses m c o) :
    SerialOrder m₀ id (log ++ [(t, c)])
      ((s.write id (c.apply id m)).goto t (.op id o (.finished .written))) := by
  have hread : (replay id m₀ (log.map Prod.snd)).map WorkspaceSpec.parse = m := by
    rw [← h.stored]
    exact hfresh
  have hnot : t ∉ log.map Prod.fst := by
    intro hmem
    obtain ⟨e, he, rfl⟩ := List.mem_map.mp hmem
    obtain ⟨before, after, heq⟩ := List.append_of_mem he
    obtain ⟨o', ho', -⟩ := h.chosen before e after heq
    exact absurd (ht.symm.trans ho') (by simp)
  have hself : ((s.write id (c.apply id m)).goto t (.op id o (.finished .written))).tasks t =
      some (.op id o (.finished .written)) := by
    simp only [State.goto, Function.update_self]
  refine ⟨?_, ?_, ?_, ?_⟩
  · simp only [State.goto, State.write, Function.update_self, List.map_append, replay,
      List.foldl_append, List.map_cons, List.map_nil, List.foldl_cons, List.foldl_nil, store]
    rw [← hread, replay]
  · rw [List.map_append, List.map_cons, List.map_nil]
    exact List.nodup_append.mpr ⟨h.once, by simp, by
      intro a ha b hb heq
      obtain rfl := List.mem_singleton.mp hb
      exact hnot (heq ▸ ha)⟩
  · intro j o' hj
    rw [List.map_append, List.mem_append]
    rcases tasks_goto hj with ⟨rfl, -⟩ | ⟨-, hj⟩
    · exact Or.inr (by simp)
    · exact Or.inl (h.finished j o' hj)
  · refine Justified.snoc ?_ ⟨o, hself, by rw [hread]; exact hchooses⟩
    intro before e after heq
    obtain ⟨o', ho', hchosen⟩ := h.chosen before e after heq
    have hne : e.1 ≠ t := by
      rintro rfl
      exact hnot (heq ▸ List.mem_map_of_mem (by simp))
    refine ⟨o', ?_, hchosen⟩
    simp only [State.goto, State.write, Function.update_of_ne hne, ho']

theorem SerialOrder.effect {m₀ : Option (WorkspaceSpec R)} {id : String}
    {log : List (ℕ × Change R)} {s s' : State R} {a : Action R} (h : SerialOrder m₀ id log s)
    (hs : Sound s) (hfresh : FreshWrite s a) (he : Effect s a s') :
    ∃ log', SerialOrder m₀ id log' s' := by
  cases he with
  | start => exact ⟨log, h.frame rfl (written_spawn hs fun o => not_written rfl)⟩
  | assertControl => exact ⟨log, h.frame rfl (written_spawn hs fun o => nofun)⟩
  | op ht hsound hold hnew hquiet =>
    exact ⟨log, h.frame rfl
      (written_goto ht rfl (fun o => not_written hold) fun o => not_written hnew)⟩
  | @write t id' o m c ht =>
    by_cases hid : id' = id
    · subst hid
      exact ⟨_, h.write ht (hfresh _ _ _ (commits_write ht)) (hs.ops _ _ _ _ ht)⟩
    · refine ⟨log, h.frame ?_ (written_goto ht rfl (fun o => not_written rfl) fun o heq => ?_)⟩
      · simp only [State.goto, State.write, Function.update_of_ne (Ne.symm hid)]
      · cases heq
        exact hid rfl
  | caller ht => exact ⟨log, h.frame rfl (written_goto ht rfl (fun o => nofun) fun o => nofun)⟩
  | target ht => exact ⟨log, h.frame rfl (written_goto ht rfl (fun o => nofun) fun o => nofun)⟩

/-- The two manifests that a control check reads. -/
inductive Side
  | caller
  | target

def Side.who (callerId targetId : String) : Side → String
  | .caller => callerId
  | .target => targetId

/-- The manifest, as it is read, does not stand in the way of the verb. -/
def Side.Allows (targetId : String) (verb : CommitteeVerb) (m : Option (WorkspaceSpec R)) :
    Side → Prop
  | .caller => ∃ ws, m = some ws ∧ holdsVerb ws targetId verb = true
  | .target => ∃ ws, m = some ws ∧ isReachable ws = true

/-- The key `control` of the object that an edit sends. -/
def Change.setsControl : Change R → Option (Option ControlConfig)
  | .edited e _ => e.control
  | .regranted control _ => some control
  | _ => none

def Change.setsAccessibility : Change R → Option (Option AccessibilityConfig)
  | .edited e _ => e.accessibility
  | _ => none

/-- The change is an edit that itself grants the verb, or makes the target reachable. -/
def Side.Gives (targetId : String) (verb : CommitteeVerb) (c : Change R) : Side → Prop
  | .caller => ∃ ctl, c.setsControl = some ctl ∧
    ((ctl.bind sanitizeControl).bind fun c => c.canControl.find? fun g => g.id = targetId).any
      (fun g => g.verbs.contains verb) = true
  | .target => ∃ acc, c.setsAccessibility = some (some acc) ∧ acc.reachable = true

theorem sanitizeControl_idem (c : ControlConfig) :
    (sanitizeControl c).bind sanitizeControl = sanitizeControl c := by
  unfold sanitizeControl
  dsimp only
  split_ifs with h
  · rfl
  · simp only [Option.bind_some, List.filter_filter, Bool.and_self, if_neg h]

/-- What a change does to the control of the manifest, as the next read has it. -/
theorem control_store {id : String} {m : Option (WorkspaceSpec R)} {c : Change R}
    {ws : WorkspaceSpec R} (h : (store id m c).map WorkspaceSpec.parse = some ws) :
    (∃ ctl, c.setsControl = some ctl ∧ ws.control = ctl.bind sanitizeControl) ∨
      ws.control = (m.map WorkspaceSpec.parse).bind WorkspaceSpec.control := by
  have hsame : ∀ x : WorkspaceSpec R, (x.parse.control.bind sanitizeControl) = x.parse.control := by
    intro x
    cases hx : x.control with
    | none => simp [WorkspaceSpec.parse, hx]
    | some ctl => simp [WorkspaceSpec.parse, hx, sanitizeControl_idem]
  cases c with
  | edited e root =>
    obtain rfl := Option.some.inj h
    cases he : e.control with
    | some ctl =>
      refine Or.inl ⟨ctl, he, ?_⟩
      simp [WorkspaceSpec.parse, WorkspaceSpec.toWrite, Edit.over, he]
    | none =>
      refine Or.inr ?_
      cases m with
      | none => simp [WorkspaceSpec.parse, WorkspaceSpec.toWrite, Edit.over, he]
      | some x =>
        have := hsame x
        simpa [WorkspaceSpec.parse, WorkspaceSpec.toWrite, Edit.over, he] using this
  | regranted ctl root =>
    cases m with
    | none => cases h
    | some x =>
      obtain rfl := Option.some.inj h
      exact Or.inl ⟨ctl, rfl, rfl⟩
  | _ =>
    cases m with
    | none => cases h
    | some x =>
      obtain rfl := Option.some.inj h
      exact Or.inr (hsame x)

@[simp]
theorem isReachable_parse (x : WorkspaceSpec R) : isReachable x.parse = isReachable x := by
  cases h : x.accessibility <;> simp [isReachable, WorkspaceSpec.parse, h, sanitizeAccessibility]

@[simp]
theorem isReachable_toWrite (x : WorkspaceSpec R) : isReachable x.toWrite = isReachable x := rfl

theorem reachable_store {id : String} {m : Option (WorkspaceSpec R)} {c : Change R}
    {ws : WorkspaceSpec R} (h : (store id m c).map WorkspaceSpec.parse = some ws)
    (hreach : isReachable ws = true) :
    (∃ acc, c.setsAccessibility = some (some acc) ∧ acc.reachable = true) ∨
      ∃ x, m.map WorkspaceSpec.parse = some x ∧ isReachable x = true := by
  cases c with
  | edited e root =>
    obtain rfl := Option.some.inj h
    rw [isReachable_parse, isReachable_toWrite] at hreach
    unfold isReachable Edit.over at hreach
    cases he : e.accessibility with
    | some acc =>
      rw [he] at hreach
      obtain ⟨acc, rfl, hacc⟩ := (Option.any_eq_true _ _).mp hreach
      exact Or.inl ⟨acc, he, hacc⟩
    | none =>
      rw [he] at hreach
      cases m with
      | none => cases hreach
      | some x => exact Or.inr ⟨x.parse, rfl, hreach⟩
  | _ =>
    cases m with
    | none => cases h
    | some x =>
      obtain rfl := Option.some.inj h
      rw [isReachable_parse, isReachable_toWrite] at hreach
      exact Or.inr ⟨x.parse, rfl, hreach⟩

/-- Only an edit that gives it makes a manifest allow what it did not. -/
theorem Side.allows_store {side : Side} {targetId : String} {verb : CommitteeVerb} {id : String}
    {m : Option (WorkspaceSpec R)} {c : Change R}
    (h : side.Allows targetId verb ((store id m c).map WorkspaceSpec.parse)) :
    side.Gives targetId verb c ∨ side.Allows targetId verb (m.map WorkspaceSpec.parse) := by
  cases side with
  | caller =>
    obtain ⟨ws, hws, hholds⟩ := h
    rcases control_store hws with ⟨ctl, hctl, heq⟩ | heq
    · refine Or.inl ⟨ctl, hctl, ?_⟩
      rw [← heq]
      exact hholds
    · cases m with
      | none =>
        rw [holdsVerb, heq] at hholds
        cases hholds
      | some x =>
        refine Or.inr ⟨x.parse, rfl, ?_⟩
        rw [holdsVerb, heq] at hholds
        exact hholds
  | target =>
    obtain ⟨ws, hws, hreach⟩ := h
    exact reachable_store hws hreach

theorem Side.denied_replay {side : Side} {targetId : String} {verb : CommitteeVerb} {id : String}
    {cs : List (Change R)} {m : Option (WorkspaceSpec R)}
    (hm : ¬ side.Allows targetId verb (m.map WorkspaceSpec.parse))
    (hcs : ∀ c ∈ cs, ¬ side.Gives targetId verb c) :
    ¬ side.Allows targetId verb ((replay id m cs).map WorkspaceSpec.parse) := by
  induction cs generalizing m with
  | nil => exact hm
  | cons c cs ih =>
    refine ih (fun h => ?_) fun c hc => hcs c (List.mem_cons_of_mem _ hc)
    rcases side.allows_store h with hgives | hbefore
    · exact hcs c List.mem_cons_self hgives
    · exact hm hbefore

/-- A finished regrant that gives no verb leaves the verb denied, in whatever order the others
stand, when none of them gives it. -/
theorem SerialOrder.denied {m₀ : Option (WorkspaceSpec R)} {id : String}
    {log : List (ℕ × Change R)} {s : State R} (h : SerialOrder m₀ id log s) {t : ℕ}
    (ht : s.tasks t = some (.op id (.regrant none) (.finished .written))) {targetId : String}
    {verb : CommitteeVerb} (hothers : ∀ j o m c, s.tasks j = some (.op id o (.finished .written)) →
      Chooses m c o → ¬ Side.caller.Gives targetId verb c) :
    ¬ Side.caller.Allows targetId verb (s.read id) := by
  obtain ⟨e, he, rfl⟩ := List.mem_map.mp (h.finished t _ ht)
  obtain ⟨before, after, heq⟩ := List.append_of_mem he
  obtain ⟨o, ho, hchosen⟩ := h.chosen before e after heq
  obtain rfl : Op.regrant none = o := by simpa using ht.symm.trans ho
  obtain ⟨-, root, hroot⟩ := hchosen
  have hread : s.read id = (replay id (store id (replay id m₀ (before.map Prod.snd)) e.2)
      (after.map Prod.snd)).map WorkspaceSpec.parse := by
    rw [State.read, h.stored, heq]
    simp [replay]
  rw [hread]
  refine Side.denied_replay ?_ ?_
  · rintro ⟨ws, hws, hholds⟩
    rw [hroot] at hws
    cases hm : replay id m₀ (before.map Prod.snd) with
    | none =>
      rw [hm] at hws
      cases hws
    | some x =>
      rw [hm] at hws
      cases hws
      cases hholds
  · intro c hc
    obtain ⟨e', he', rfl⟩ := List.mem_map.mp hc
    obtain ⟨before', after', heq'⟩ := List.append_of_mem
      (heq ▸ List.mem_append_right _ (List.mem_cons_of_mem _ he'))
    obtain ⟨o', ho', hchosen'⟩ := h.chosen before' e' after' heq'
    exact hothers e'.1 o' _ e'.2 ho' hchosen'

theorem decideControl_ok {caller target : Option (WorkspaceSpec R)} {callerId targetId : String}
    {verb : CommitteeVerb} (h : decideControl caller target callerId targetId verb = .ok ()) :
    Side.caller.Allows targetId verb caller ∧ Side.target.Allows targetId verb target := by
  unfold decideControl at h
  split_ifs at h
  split at h
  · cases h
  · cases h
  · next c t =>
    split_ifs at h with _ _ _ hreach _ hverb
    exact ⟨⟨c, rfl, by simpa using hverb⟩, ⟨t, rfl, by simpa using hreach⟩⟩

def Side.seen (c t : Option (Option (WorkspaceSpec R))) : Side → Option (Option (WorkspaceSpec R))
  | .caller => c
  | .target => t

/-- The check has not seen a manifest of this side that allows the verb. -/
def Side.Barred (side : Side) (targetId : String) (verb : CommitteeVerb) : CheckPc R → Prop
  | .reading c t => ∀ m, side.seen c t = some m → ¬ side.Allows targetId verb m
  | .decided r => r ≠ .ok ()

theorem Side.barred_settle {side : Side} {callerId targetId : String} {verb : CommitteeVerb}
    {caller target : Option (Option (WorkspaceSpec R))}
    (h : side.Barred targetId verb (.reading caller target)) :
    side.Barred targetId verb (settle callerId targetId verb caller target) := by
  unfold settle
  split
  · next c t =>
    intro hok
    obtain ⟨hcaller, htarget⟩ := decideControl_ok hok
    cases side with
    | caller => exact h c rfl hcaller
    | target => exact h t rfl htarget
  · exact h

/-- The manifest of one side does not allow the verb, and no check begun since has seen it allow
the verb. -/
structure Revoked (side : Side) (callerId targetId : String) (verb : CommitteeVerb) (since : ℕ)
    (s : State R) : Prop where
  manifest : ¬ side.Allows targetId verb (s.read (side.who callerId targetId))
  checks : ∀ t ≥ since, ∀ pc, s.tasks t = some (.check callerId targetId verb pc) →
    side.Barred targetId verb pc
  later : since ≤ s.next

/-- No step commits an edit that gives the verb back. -/
def NotGiven (side : Side) (callerId targetId : String) (verb : CommitteeVerb) (s : State R)
    (a : Action R) : Prop :=
  ∀ m c, commits s a = some (side.who callerId targetId, m, c) → ¬ side.Gives targetId verb c

theorem Revoked.goto {side : Side} {callerId targetId : String} {verb : CommitteeVerb}
    {since : ℕ} {s : State R} (h : Revoked side callerId targetId verb since s) {t : ℕ}
    {y : Task R} (hy : ∀ pc, t ≥ since → y = .check callerId targetId verb pc →
      side.Barred targetId verb pc) : Revoked side callerId targetId verb since (s.goto t y) where
  manifest := h.manifest
  checks := by
    intro j hj pc hpc
    rcases tasks_goto hpc with ⟨rfl, heq⟩ | ⟨-, hpc⟩
    · exact hy pc hj heq.symm
    · exact h.checks j hj pc hpc
  later := h.later

theorem Revoked.effect {side : Side} {callerId targetId : String} {verb : CommitteeVerb}
    {since : ℕ} {s s' : State R} {a : Action R} (h : Revoked side callerId targetId verb since s)
    (hfresh : FreshWrite s a) (hnot : NotGiven side callerId targetId verb s a)
    (he : Effect s a s') : Revoked side callerId targetId verb since s' := by
  cases he with
  | @start id o =>
    have hgoto := h.goto (t := s.next) (y := .op id o .reading) fun pc _ heq => (nomatch heq)
    exact ⟨hgoto.manifest, hgoto.checks, Nat.le_succ_of_le h.later⟩
  | @assertControl callerId' targetId' verb' =>
    have hgoto := h.goto (t := s.next) (y := .check callerId' targetId' verb' (.reading none none))
      fun pc _ heq => by
        cases heq
        intro m hm
        cases side <;> cases hm
    exact ⟨hgoto.manifest, hgoto.checks, Nat.le_succ_of_le h.later⟩
  | op ht hsound hold hnew hquiet => exact h.goto fun pc _ heq => (nomatch heq)
  | @write t id o m c ht =>
    refine Revoked.goto (s := s.write id (c.apply id m)) ⟨?_, h.checks, h.later⟩
      fun pc _ heq => (nomatch heq)
    by_cases hid : id = side.who callerId targetId
    · subst hid
      intro hallows
      have hread := hfresh _ _ _ (commits_write ht)
      have hstored : (s.write (side.who callerId targetId)
          (c.apply (side.who callerId targetId) m)).read (side.who callerId targetId) =
          (store (side.who callerId targetId) (s.manifests (side.who callerId targetId)) c).map
            WorkspaceSpec.parse := by
        simp only [State.read, State.write, Function.update_self, store]
        rw [← hread, State.read]
      rw [hstored] at hallows
      rcases side.allows_store hallows with hgives | hbefore
      · exact hnot m c (commits_write ht) hgives
      · exact h.manifest hbefore
    · have hsame : (s.write id (c.apply id m)).read (side.who callerId targetId) =
          s.read (side.who callerId targetId) := by
        simp only [State.read, State.write, Function.update_of_ne (Ne.symm hid)]
      rw [hsame]
      exact h.manifest
  | @caller t callerId' targetId' verb' target ht =>
    refine h.goto fun pc hge heq => ?_
    cases heq
    refine side.barred_settle fun m hm => ?_
    cases side with
    | caller =>
      obtain rfl := Option.some.inj hm
      exact h.manifest
    | target => exact h.checks t hge _ ht m hm
  | @target t callerId' targetId' verb' caller ht =>
    refine h.goto fun pc hge heq => ?_
    cases heq
    refine side.barred_settle fun m hm => ?_
    cases side with
    | caller => exact h.checks t hge _ ht m hm
    | target =>
      obtain rfl := Option.some.inj hm
      exact h.manifest

theorem Sound.start (manifests : String → Option (WorkspaceSpec R)) :
    Sound (State.start manifests) where
  ops := fun _ _ _ _ h => nomatch h
  fresh := fun _ _ => rfl

theorem reachable_sound {manifests : String → Option (WorkspaceSpec R)} {as : List (Action R)}
    {s : State R} (hr : run step (.start manifests) as = some s) : Sound s :=
  run_invariant (fun _ _ _ h hs => h.effect (step_effect hs)) (.start manifests) hr

theorem SerialOrder.start (manifests : String → Option (WorkspaceSpec R)) (id : String) :
    SerialOrder (manifests id) id [] (State.start manifests) where
  stored := rfl
  once := List.nodup_nil
  finished := fun _ _ h => nomatch h
  chosen := .nil _

theorem Sound.revoked {s : State R} (h : Sound s) {side : Side} {callerId targetId : String}
    {verb : CommitteeVerb}
    (hnot : ¬ side.Allows targetId verb (s.read (side.who callerId targetId))) :
    Revoked side callerId targetId verb s.next s where
  manifest := hnot
  checks := by
    intro t ht pc hpc
    exact absurd (hpc.symm.trans (h.fresh t ht)) nofun
  later := le_rfl

/-- Where every write finds the manifest as its operation read it, each manifest holds the changes
of all the operations that wrote it, made one after the other, and what one state of a manifest
denies stays denied until an edit gives it: no control check begun since then permits it. -/
theorem updates_not_lost {manifests : String → Option (WorkspaceSpec R)} {as : List (Action R)}
    {s : State R} (hr : run step (.start manifests) as = some s)
    (hfresh : Along step FreshWrite (.start manifests) as) :
    (∀ id, ∃ log, SerialOrder (manifests id) id log s) ∧
    ∀ (side : Side) callerId targetId verb as₁ as₂ u, as = as₁ ++ as₂ →
      run step (.start manifests) as₁ = some u →
      ¬ side.Allows targetId verb (u.read (side.who callerId targetId)) →
      Along step (NotGiven side callerId targetId verb) u as₂ →
        ¬ side.Allows targetId verb (s.read (side.who callerId targetId)) ∧
        ∀ t ≥ u.next, s.tasks t ≠ some (.check callerId targetId verb (.decided (.ok ()))) := by
  constructor
  · intro id
    have hinv := run_invariant_along
      (I := fun s => Sound s ∧ ∃ log, SerialOrder (manifests id) id log s)
      (fun s a t h hok hs => ?_) ⟨.start manifests, [], .start manifests id⟩ hr hfresh
    · exact hinv.2
    · obtain ⟨hsound, log, hlog⟩ := h
      have he := step_effect hs
      exact ⟨hsound.effect he, hlog.effect hsound hok he⟩
  · rintro side callerId targetId verb as₁ as₂ u rfl hu hnot hgiven
    obtain ⟨u', hu', hrest⟩ := run_append.mp hr
    obtain rfl := Option.some.inj (hu.symm.trans hu')
    have hafter := (along_append.mp hfresh).2 u hu
    have hinv := run_invariant_along (I := Revoked side callerId targetId verb u.next)
      (fun s a t h hok hs => h.effect hok.1 hok.2 (step_effect hs))
      ((reachable_sound hu).revoked hnot) hrest (hafter.and hgiven)
    refine ⟨hinv.manifest, fun t ht hdone => ?_⟩
    exact hinv.checks t ht _ hdone rfl

def exManifests : String → Option (WorkspaceSpec Unit)
  | "a" => some
    { id := "a", name := "manager", workspaceRoot := "/a", kind := .container, lastUsedAt := 0
      control := some ⟨[⟨"b", [.read]⟩]⟩, rest := () }
  | "b" => some
    { id := "b", name := "expert", workspaceRoot := "/b", kind := .container, lastUsedAt := 0
      accessibility := some { reachable := true }, rest := () }
  | _ => none

/-- The grant of "a" is taken away, "a" is used, and "a" asks for "b". -/
def exInTurn : List (Action Unit) :=
  [.start "a" (.regrant none), .resume 0 (.now 1), .resume 0 (.root "/a"), .resume 0 .ok,
    .start "a" .touchWorkspaceUsed, .resume 1 (.now 2), .resume 1 .ok,
    .assertControl "a" "b" .read, .resume 2 .caller, .resume 2 .target]

theorem updates_not_lost_inTurn : ∃ s, run step (.start exManifests) exInTurn = some s ∧
    (s.manifests "a").map WorkspaceSpec.lastUsedAt = some 2 ∧
    (∃ log, SerialOrder (exManifests "a") "a" log s) ∧
    s.tasks 2 ≠ some (.check "a" "b" .read (.decided (.ok ()))) := by
  have hfresh : Along step FreshWrite (.start exManifests) exInTurn := by
    refine ⟨?_, ?_, ?_, ?_, ?_, ?_, ?_, ?_, ?_, ?_, trivial⟩ <;> intro id m c h <;> cases h
    -- the two writes
    · rfl
    · rfl
  refine ⟨_, rfl, rfl, (updates_not_lost rfl hfresh).1 "a", ?_⟩
  refine ((updates_not_lost rfl hfresh).2 .caller "a" "b" .read (exInTurn.take 4) (exInTurn.drop 4)
    _ rfl rfl ?_ ?_).2 2 (by decide)
  · rintro ⟨ws, hws, hholds⟩
    cases hws
    cases hholds
  · refine ⟨?_, ?_, ?_, ?_, ?_, ?_, trivial⟩ <;> rintro m c h ⟨ctl, hctl, -⟩ <;> cases h
    cases hctl

/-- "a" is used while its grant is taken away, and then asks for "b". -/
def exCrossed : List (Action Unit) :=
  [.start "a" .touchWorkspaceUsed, .resume 0 (.now 1), .start "a" (.regrant none),
    .resume 1 (.now 2), .resume 1 (.root "/a"), .resume 1 .ok, .resume 0 .ok,
    .assertControl "a" "b" .read, .resume 2 .caller, .resume 2 .target]

/-- The write that was read before the edit brings the grant back, and the check permits. -/
theorem updates_lost : ∃ u s, run step (.start exManifests) (exCrossed.take 6) = some u ∧
    run step u (exCrossed.drop 6) = some s ∧
    ¬ Side.caller.Allows "b" .read (u.read "a") ∧
    Along step (NotGiven .caller "a" "b" .read) u (exCrossed.drop 6) ∧
    s.tasks 2 = some (.check "a" "b" .read (.decided (.ok ()))) ∧
    ¬ ∃ log, SerialOrder (exManifests "a") "a" log s := by
  refine ⟨_, _, rfl, rfl, ?_, ?_, rfl, ?_⟩
  · rintro ⟨ws, hws, hholds⟩
    cases hws
    cases hholds
  · refine ⟨?_, ?_, ?_, ?_, trivial⟩ <;> rintro m c h ⟨ctl, hctl, -⟩ <;> cases h
    cases hctl
  · rintro ⟨log, hlog⟩
    refine hlog.denied (t := 1) rfl ?_ (⟨_, rfl, rfl⟩ : Side.caller.Allows "b" .read _)
    intro j o m c hj hchooses hgives
    match j, hj with
    | 0, hj =>
      cases hj
      obtain ⟨-, now, rfl⟩ := hchooses
      obtain ⟨ctl, hctl, -⟩ := hgives
      cases hctl
    | 1, hj =>
      cases hj
      obtain ⟨-, root, rfl⟩ := hchooses
      obtain ⟨ctl, hctl, hany⟩ := hgives
      cases hctl
      cases hany
    | 2, hj => cases hj
    | _ + 3, hj => cases hj

end ClaudeFleet.Manifest
