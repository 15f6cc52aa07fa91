import ClaudeFleet.QueryScope

/-! A caller that is forgotten gets nothing more: its calls that have not checked the generation
for the last time end without rows. -/
namespace ClaudeFleet.QueryIsolation
open Transition

/-- Task `t` goes on; another task stays as it is, or is woken from the line for a slot. -/
structure Beside (t : ℕ) (s s' : State) : Prop where
  generations : s'.generations = s.generations
  self : ∀ y, s'.tasks t = some y → ∃ x, s.tasks t = some x ∧ y.request = x.request ∧
    y.role = x.role ∧ y.gen = x.gen
  others : ∀ j, j ≠ t → s'.tasks j = s.tasks j ∨
    ∃ z, s.tasks j = some z ∧ s'.tasks j = some { z with pc := .starting }

theorem Beside.congr {t : ℕ} {s s' s'' : State} (h : Beside t s s')
    (hgens : s''.generations = s'.generations) (htasks : s''.tasks = s'.tasks) :
    Beside t s s'' := by
  refine ⟨hgens.trans h.generations, ?_, ?_⟩
  · rw [htasks]
    exact h.self
  · rw [htasks]
    exact h.others

theorem State.free_tasks (s : State) (j : ℕ) : s.free.tasks j = s.tasks j ∨
    ∃ z, s.tasks j = some z ∧ s.free.tasks j = some { z with pc := .starting } := by
  unfold State.free
  split
  · exact Or.inl rfl
  · next first rest hwaiting =>
    by_cases hj : j = first
    · subst hj
      cases hz : s.tasks j with
      | none => simp
      | some z => exact Or.inr ⟨z, rfl, by simp⟩
    · exact Or.inl (Function.update_of_ne hj ..)

theorem State.free_generations (s : State) : s.free.generations = s.generations := by
  unfold State.free
  split <;> rfl

theorem Beside.free {t : ℕ} {s s' : State} (h : Beside t s s') : Beside t s s'.free := by
  refine ⟨s'.free_generations.trans h.generations, ?_, ?_⟩
  · intro y hy
    rcases s'.free_tasks t with hsame | ⟨z, hz, hwoken⟩
    · exact h.self y (hsame ▸ hy)
    · rw [hwoken] at hy
      obtain rfl := Option.some.inj hy
      exact h.self z hz
  · intro j hj
    rcases s'.free_tasks j with hsame | ⟨z, hz, hwoken⟩
    · rw [hsame]
      exact h.others j hj
    · right
      rcases h.others j hj with hold | ⟨w, hw, hold⟩
      · exact ⟨z, hold ▸ hz, hwoken⟩
      · rw [hold] at hz
        obtain rfl := Option.some.inj hz
        exact ⟨w, hw, hwoken⟩

theorem Beside.put {t : ℕ} {s : State} {x y : Task} (hx : s.tasks t = some x)
    (hrequest : y.request = x.request) (hrole : y.role = x.role) (hgen : y.gen = x.gen) :
    Beside t s (s.put t y) := by
  refine ⟨rfl, ?_, fun j hj => Or.inl (Function.update_of_ne hj ..)⟩
  intro z hz
  have hself : (s.put t y).tasks t = some y := Function.update_self ..
  rw [hself] at hz
  obtain rfl := Option.some.inj hz
  exact ⟨x, hx, hrequest, hrole, hgen⟩

theorem Beside.goto {t : ℕ} {s : State} {x : Task} (hx : s.tasks t = some x) (pc : Pc) :
    Beside t s (s.goto t x pc) :=
  .put hx rfl rfl rfl

theorem Beside.refuse {t : ℕ} {s : State} {x : Task} (hx : s.tasks t = some x) (e : Failure) :
    Beside t s (s.refuse t x e) := by
  have hput : Beside t s (s.put t { x with pc := .finished, outcome := some (.error e) }) :=
    .put hx rfl rfl rfl
  exact hput.congr rfl rfl

theorem Beside.settle {t : ℕ} {s : State} {x : Task} (hx : s.tasks t = some x)
    (result : Except Failure (List String)) : Beside t s (s.settle t x result) := by
  unfold State.settle
  split_ifs
  · exact (Beside.goto hx .finished).congr rfl rfl
  · have hput := Beside.put (y := { x with pc := .finished, outcome := some result }) hx rfl rfl rfl
    exact hput.free.congr rfl rfl

/-- The state differs only in what no task is made of. -/
theorem Beside.of_same {t : ℕ} {s s' s'' : State} (h : Beside t s' s'')
    (hgens : s'.generations = s.generations) (htasks : s'.tasks = s.tasks) : Beside t s s'' := by
  refine ⟨h.generations.trans hgens, ?_, ?_⟩
  · rw [← htasks]
    exact h.self
  · rw [← htasks]
    exact h.others

variable {opts : Options} {eval : Eval}

theorem Beside.ensureRole {t : ℕ} {s : State} {x : Task} (hx : s.tasks t = some x) (retry : Bool) :
    Beside t s (s.ensureRole opts t x retry) := by
  unfold State.ensureRole
  split_ifs
  · exact .goto hx _
  · exact .goto hx _
  · exact .settle hx _
  · exact (Beside.goto hx _).congr rfl rfl

theorem Beside.runAs {t : ℕ} {s : State} {x : Task} (hx : s.tasks t = some x) (q : QueryArgs)
    (retry : Bool) : Beside t s (s.runAs t x q retry) := by
  unfold State.runAs
  split_ifs
  · exact .settle hx _
  · exact .goto hx _
  · exact .settle hx _

theorem Beside.ranAs {t : ℕ} {s : State} {x : Task} (hx : s.tasks t = some x) (retry : Bool)
    (result : Except Failure (List String)) : Beside t s (s.ranAs opts t x retry result) := by
  unfold State.ranAs
  split
  · split_ifs
    · refine Beside.of_same (Beside.ensureRole ?_ true) rfl rfl
      exact hx
    · exact .settle hx _
  · exact .settle hx _

theorem resumeQuery_beside {s s' : State} {t : ℕ} {x : Task} {scope : Finset String}
    {q : QueryArgs} {o : Outcome} (hx : s.tasks t = some x)
    (hs : s.resumeQuery opts eval t x scope q o = some s') : Beside t s s' := by
  unfold State.resumeQuery at hs
  split at hs
  case h_1 =>
    split_ifs at hs <;> obtain rfl := Option.some.inj hs
    · exact .refuse hx _
    · exact (Beside.goto hx _).congr rfl rfl
    · exact .refuse hx _
    · exact (Beside.goto hx _).congr rfl rfl
  case h_2 =>
    obtain rfl := Option.some.inj hs
    exact .ensureRole hx false
  case h_3 =>
    split at hs <;> obtain rfl := Option.some.inj hs
    · exact (Beside.goto hx _).congr rfl rfl
    · refine Beside.of_same (Beside.settle ?_ _) rfl rfl
      exact hx
  case h_4 =>
    obtain rfl := Option.some.inj hs
    exact .runAs hx q true
  case h_5 =>
    split_ifs at hs <;> obtain rfl := Option.some.inj hs
    · exact .settle hx _
    · exact .goto hx _
  case h_6 =>
    split at hs <;> obtain rfl := Option.some.inj hs
    · refine Beside.of_same (Beside.runAs ?_ q false) rfl rfl
      exact hx
    · exact .settle hx _
    · refine Beside.of_same (Beside.settle ?_ _) rfl rfl
      exact hx
  case h_7 =>
    split at hs <;> obtain rfl := Option.some.inj hs
    · exact .goto hx _
    · exact .ranAs hx _ _
  case h_8 | h_9 =>
    split at hs <;> obtain rfl := Option.some.inj hs
    · exact .goto hx _
    · exact .goto hx _
  case h_10 =>
    obtain rfl := Option.some.inj hs
    exact .ranAs hx _ _
  all_goals cases hs

theorem resumeForget_beside {s s' : State} {t : ℕ} {x : Task} {o : Outcome}
    (hx : s.tasks t = some x) (hs : s.resumeForget t x o = some s') : Beside t s s' := by
  unfold State.resumeForget at hs
  split at hs
  · split_ifs at hs
    obtain rfl := Option.some.inj hs
    exact .goto hx _
  · split at hs <;> obtain rfl := Option.some.inj hs
    · exact (Beside.goto hx _).congr rfl rfl
    · exact (Beside.goto hx _).congr rfl rfl
  · split at hs <;> obtain rfl := Option.some.inj hs
    · exact (Beside.goto hx _).congr rfl rfl
    · exact (Beside.goto hx _).congr rfl rfl
  · cases hs

theorem le_bump (generations : String → ℕ) (role r : String) :
    generations r ≤ Function.update generations role (generations role + 1) r := by
  by_cases hr : r = role
  · rw [hr, Function.update_self]
    exact Nat.le_succ _
  · rw [Function.update_of_ne hr]

/-- What a step can do to the tasks: start one, or go on with one. -/
theorem step_beside {s s' : State} {a : Action} (hs : step opts eval s a = some s') :
    s'.tasks = s.tasks ∧ s'.generations = s.generations ∨
    (∃ x, s'.tasks = Function.update s.tasks s.tickets (some x) ∧
      (∀ r, s.generations r ≤ s'.generations r) ∧ x.gen ≤ s'.generations x.role ∧
      ∀ caller scope q, x.request = .query caller scope q → x.role = opts.roleFor caller) ∨
    ∃ t, (s.tasks t).isSome = true ∧ Beside t s s' := by
  cases a with
  | query caller scope args =>
    simp only [step] at hs
    split_ifs at hs <;> obtain rfl := Option.some.inj hs
    · exact Or.inl ⟨rfl, rfl⟩
    · refine Or.inr (Or.inl ⟨_, rfl, fun r => le_rfl, le_rfl, ?_⟩)
      intro caller' scope' q hreq
      cases hreq
      rfl
  | forgetCaller caller =>
    simp only [step] at hs
    split_ifs at hs <;> obtain rfl := Option.some.inj hs
    · exact Or.inl ⟨rfl, rfl⟩
    · refine Or.inr (Or.inl ⟨_, rfl, le_bump s.generations _, ?_, ?_⟩)
      · simp [State.enqueue]
      · simp
  | resume t o =>
    simp only [step] at hs
    split at hs
    · next x hx =>
      refine Or.inr (Or.inr ⟨t, by rw [hx]; rfl, ?_⟩)
      split at hs
      · exact resumeQuery_beside hx hs
      · exact resumeForget_beside hx hs
    · cases hs
  | interrupt t e =>
    simp only [step] at hs
    split at hs
    · next x hx =>
      obtain ⟨pc, hpc, rfl⟩ := Option.map_eq_some_iff.mp hs
      exact Or.inr (Or.inr ⟨t, by rw [hx]; rfl, .goto hx pc⟩)
    · cases hs
  | late t =>
    simp only [step] at hs
    split at hs
    · next x hx =>
      split_ifs at hs
      obtain rfl := Option.some.inj hs
      refine Or.inr (Or.inr ⟨t, by rw [hx]; rfl, Beside.free (Beside.put hx ?_ ?_ ?_)⟩) <;> rfl
    · cases hs
  | commit db =>
    obtain rfl := Option.some.inj hs
    exact Or.inl ⟨rfl, rfl⟩

variable (opts) in
/-- A task knows its role, and a generation that the role has had. -/
def Registered (s : State) : Prop :=
  ∀ t x, s.tasks t = some x → x.gen ≤ s.generations x.role ∧
    ∀ caller scope q, x.request = .query caller scope q → x.role = opts.roleFor caller

theorem step_registered {s s' : State} {a : Action} (h : Registered opts s)
    (hs : step opts eval s a = some s') : Registered opts s' := by
  intro t y hy
  rcases step_beside hs with ⟨htasks, hgens⟩ | ⟨x, htasks, hgens, hgen, hrole⟩ | ⟨j, -, hbeside⟩
  · rw [htasks] at hy
    rw [hgens]
    exact h t y hy
  · rw [htasks] at hy
    by_cases ht : t = s.tickets
    · rw [ht, Function.update_self] at hy
      obtain rfl := Option.some.inj hy
      exact ⟨hgen, hrole⟩
    · rw [Function.update_of_ne ht] at hy
      obtain ⟨hold, hrole⟩ := h t y hy
      exact ⟨hold.trans (hgens _), hrole⟩
  · rw [hbeside.generations]
    by_cases ht : t = j
    · subst ht
      obtain ⟨x, hx, hreq, hrole, hgen⟩ := hbeside.self y hy
      rw [hreq, hrole, hgen]
      exact h t x hx
    · rcases hbeside.others t ht with hsame | ⟨z, hz, hwoken⟩
      · rw [hsame] at hy
        exact h t y hy
      · rw [hwoken] at hy
        obtain rfl := Option.some.inj hy
        exact h t z hz

/-- The call has still to check its generation in `writeScope`. -/
def Pc.unchecked : Pc → Bool
  | .waiting | .slot | .starting => true
  | .ensuring retry | .ensured retry => !retry
  | .scoping | .connecting _ | .executing _ | .reading _ _ | .closing _ _
  | .ending | .dropping | .finished => false

theorem Pc.not_shut_of_scoped {pc : Pc} (hwork : pc.working = true) (h : pc.scoped = true) :
    ¬ (pc.unchecked = true ∨ pc = .finished) := by
  cases pc <;> simp_all [Pc.scoped, Pc.unchecked, Pc.working]

/-- A query whose generation is over, and that has no rows. -/
structure Shut (generations : String → ℕ) (x : Task) : Prop where
  query : ∃ caller scope q, x.request = .query caller scope q
  gen : x.gen < generations x.role
  pc : x.pc.unchecked = true ∨ x.pc = .finished
  outcome : ∀ rows, x.outcome ≠ some (.ok rows)

def ShutAt (s : State) (t : ℕ) : Prop := ∃ x, s.tasks t = some x ∧ Shut s.generations x

theorem Shut.goto {generations : String → ℕ} {x : Task} (h : Shut generations x) (pc : Pc)
    (hpc : pc.unchecked = true ∨ pc = .finished) : Shut generations { x with pc := pc } :=
  ⟨h.query, h.gen, hpc, h.outcome⟩

theorem ShutAt.put {s : State} {t : ℕ} {y : Task} (h : Shut s.generations y) :
    ShutAt (s.put t y) t :=
  ⟨y, Function.update_self .., h⟩

theorem ShutAt.free {s : State} {t : ℕ} (h : ShutAt s t) : ShutAt s.free t := by
  obtain ⟨x, hx, hshut⟩ := h
  rw [← s.free_generations] at hshut
  rcases s.free_tasks t with hsame | ⟨z, hz, hwoken⟩
  · exact ⟨x, hsame.trans hx, hshut⟩
  · rw [hx] at hz
    obtain rfl := Option.some.inj hz
    exact ⟨_, hwoken, hshut.goto .starting (Or.inl rfl)⟩

theorem ShutAt.settle {s : State} {t : ℕ} {x : Task} (h : Shut s.generations x) (e : Failure) :
    ShutAt (s.settle t x (.error e)) t := by
  unfold State.settle
  split_ifs
  · obtain ⟨y, hy, hshut⟩ := ShutAt.put (s := s) (t := t) (h.goto .finished (Or.inr rfl))
    exact ⟨y, hy, hshut⟩
  · have hput : Shut s.generations { x with pc := .finished, outcome := some (.error e) } :=
      ⟨h.query, h.gen, Or.inr rfl, fun _ => nofun⟩
    obtain ⟨y, hy, hshut⟩ := (ShutAt.put (t := t) hput).free
    exact ⟨y, hy, hshut⟩

/-- The query itself goes on: its next check of the generation is its last step. -/
theorem resumeQuery_shut {s s' : State} {t : ℕ} {x : Task} {scope : Finset String}
    {q : QueryArgs} {o : Outcome} (hpre : opts.preprovisioned = none) (h : Shut s.generations x)
    (hs : s.resumeQuery opts eval t x scope q o = some s') : ShutAt s' t := by
  have hgen : s.generations x.role ≠ x.gen := h.gen.ne'
  have hpc := h.pc
  unfold State.resumeQuery at hs
  split at hs
  case h_1 =>
    rw [if_pos hgen] at hs
    split_ifs at hs
    obtain rfl := Option.some.inj hs
    exact ⟨_, Function.update_self .., h.query, h.gen, Or.inr rfl, fun _ => nofun⟩
  case h_2 =>
    obtain rfl := Option.some.inj hs
    unfold State.ensureRole
    rw [hpre, if_pos hgen]
    split_ifs with _ hensured
    · contradiction
    · exact .put (h.goto _ (Or.inl rfl))
    · exact .settle h removed
  case h_3 retry hpc' =>
    have hretry : retry = false := by simpa [hpc', Pc.unchecked] using hpc
    subst hretry
    split at hs <;> obtain rfl := Option.some.inj hs
    · exact .put (h.goto _ (Or.inl rfl))
    · refine ShutAt.settle ?_ _
      exact h
  case h_5 =>
    rw [if_pos hgen] at hs
    obtain rfl := Option.some.inj hs
    exact .settle h removed
  case h_11 | h_12 | h_13 | h_14 => cases hs
  all_goals simp_all [Pc.unchecked]

theorem ShutAt.beside {s s' : State} {t j : ℕ} (h : ShutAt s t) (hbeside : Beside j s s')
    (hne : t ≠ j) : ShutAt s' t := by
  obtain ⟨x, hx, hshut⟩ := h
  rw [← hbeside.generations] at hshut
  rcases hbeside.others t hne with hsame | ⟨z, hz, hwoken⟩
  · exact ⟨x, hsame.trans hx, hshut⟩
  · rw [hx] at hz
    obtain rfl := Option.some.inj hz
    exact ⟨_, hwoken, hshut.goto .starting (Or.inl rfl)⟩

theorem step_shut {s s' : State} {a : Action} {t : ℕ} (hpre : opts.preprovisioned = none)
    (hunborn : s.tasks s.tickets = none) (h : ShutAt s t) (hs : step opts eval s a = some s') :
    ShutAt s' t := by
  obtain ⟨x, hx, hshut⟩ := h
  have hborn : t ≠ s.tickets := by
    rintro rfl
    rw [hunborn] at hx
    cases hx
  -- a step that starts another task
  have hstart : ∀ (u : State) (z : Task), (∀ r, s.generations r ≤ u.generations r) →
      u.tasks = Function.update s.tasks s.tickets (some z) → ShutAt u t := by
    intro u z hle htasks
    refine ⟨x, ?_, hshut.query, hshut.gen.trans_le (hle _), hshut.pc, hshut.outcome⟩
    rw [htasks, Function.update_of_ne hborn]
    exact hx
  cases a with
  | query caller scope args =>
    simp only [step] at hs
    split_ifs at hs <;> obtain rfl := Option.some.inj hs
    · exact ⟨x, hx, hshut⟩
    · exact hstart _ _ (fun _ => le_rfl) rfl
  | forgetCaller caller =>
    simp only [step] at hs
    split_ifs at hs <;> obtain rfl := Option.some.inj hs
    · exact ⟨x, hx, hshut⟩
    · exact hstart _ _ (le_bump s.generations _) rfl
  | resume j o =>
    simp only [step] at hs
    split at hs
    · next z hz =>
      by_cases hj : t = j
      · subst hj
        obtain rfl := Option.some.inj (hz.symm.trans hx)
        obtain ⟨caller, scope, q, hreq⟩ := hshut.query
        rw [hreq] at hs
        exact resumeQuery_shut hpre hshut hs
      · refine ShutAt.beside ⟨x, hx, hshut⟩ ?_ hj
        split at hs
        · exact resumeQuery_beside hz hs
        · exact resumeForget_beside hz hs
    · cases hs
  | interrupt j e =>
    simp only [step] at hs
    split at hs
    · next z hz =>
      obtain ⟨pc, hpc, rfl⟩ := Option.map_eq_some_iff.mp hs
      by_cases hj : t = j
      · subst hj
        obtain rfl := Option.some.inj (hz.symm.trans hx)
        obtain ⟨_, _, hwork, hscoped⟩ := Pc.interrupted_cases hpc
        exact absurd hshut.pc (Pc.not_shut_of_scoped hwork hscoped)
      · exact ShutAt.beside ⟨x, hx, hshut⟩ (.goto hz pc) hj
    · cases hs
  | late j =>
    simp only [step] at hs
    split at hs
    · next z hz =>
      split_ifs at hs
      obtain rfl := Option.some.inj hs
      by_cases hj : t = j
      · subst hj
        obtain rfl := Option.some.inj (hz.symm.trans hx)
        refine ShutAt.free (ShutAt.put ?_)
        exact ⟨hshut.query, hshut.gen, hshut.pc, by simp⟩
      · refine ShutAt.beside ⟨x, hx, hshut⟩ (Beside.free (Beside.put hz ?_ ?_ ?_)) hj <;> rfl
    · cases hs
  | commit db =>
    obtain rfl := Option.some.inj hs
    exact ⟨x, hx, hshut⟩

/-- No call has been made yet. -/
structure Idle (s : State) : Prop where
  tickets : s.tickets = 0
  tasks : ∀ t, s.tasks t = none
  released : ∀ t, s.released t = false
  waiting : s.waiting = []

theorem Idle.isolated {s : State} (h : Idle s) (seen : Snapshot → Prop) :
    Isolated eval seen s := by
  refine ⟨fun t _ => ⟨h.tasks t, h.released t⟩, ?_, ?_, ?_, ?_, ?_⟩
  · intro t x hx
    rw [h.tasks] at hx
    cases hx
  · intro t x hx
    rw [h.tasks] at hx
    cases hx
  · rw [h.waiting]
    nofun
  · rw [h.waiting]
    exact List.nodup_nil
  · intro t x _ _ _ hx
    rw [h.tasks] at hx
    cases hx

theorem Isolated.mono {s : State} {seen seen' : Snapshot → Prop}
    (hle : ∀ snapshot, seen snapshot → seen' snapshot) (h : Isolated eval seen s) :
    Isolated eval seen' s := by
  have hread : ∀ {role scope q rows}, ReadIn eval seen role scope q rows →
      ReadIn eval seen' role scope q rows := by
    rintro role scope q rows ⟨snapshot, hseen, hscope, hanswer⟩
    exact ⟨snapshot, hle snapshot hseen, hscope, hanswer⟩
  refine ⟨h.unborn, h.released, h.turn, h.line, h.nodup, ?_⟩
  intro t x caller scope q hx hreq
  have hsound := h.sound t x caller scope q hx hreq
  refine ⟨hsound.stands, ?_, ?_, ?_⟩
  · intro retry snapshot hpc
    obtain ⟨hseen, hscope⟩ := hsound.reading retry snapshot hpc
    exact ⟨hle snapshot hseen, hscope⟩
  · intro retry rows hpc
    exact hread (hsound.closing retry rows hpc)
  · intro rows hrows
    obtain ⟨hpc, hrows⟩ := hsound.outcome rows hrows
    exact ⟨hpc, hread hrows⟩

/-- The snapshot is the database as it stood at some moment of the run. -/
def Occurred (opts : Options) (eval : Eval) (s₀ : State) (as : List Action) (snapshot : Snapshot) :
    Prop :=
  ∃ as₁ as₂ u, as = as₁ ++ as₂ ∧ run (step opts eval) s₀ as₁ = some u ∧
    snapshot = ⟨u.db, u.grants⟩

theorem run_isolated {s₀ s : State} {as : List Action} (h₀ : Idle s₀)
    (hrun : run (step opts eval) s₀ as = some s) :
    Isolated eval (Occurred opts eval s₀ as) s ∧ Registered opts s := by
  refine run_invariant_history
    (I := fun as s => Isolated eval (Occurred opts eval s₀ as) s ∧ Registered opts s) ?_ ?_ hrun
  · refine ⟨h₀.isolated _, fun t x hx => ?_⟩
    rw [h₀.tasks] at hx
    cases hx
  · rintro as s a t hr ⟨hiso, hreg⟩ hs
    have hlonger : Isolated eval (Occurred opts eval s₀ (as ++ [a])) s := by
      refine hiso.mono ?_
      rintro snapshot ⟨as₁, as₂, u, rfl, hu, hsnap⟩
      exact ⟨as₁, as₂ ++ [a], u, by simp, hu, hsnap⟩
    exact ⟨step_isolated hlonger ⟨as, [a], s, rfl, hr, rfl⟩ hs, step_registered hreg hs⟩

/-- The rows of the workspaces in the scope, and those of `perf_events` that have no workspace. -/
def shared (scope : Finset String) (r : Row) : Bool :=
  r.workspaceId.any (fun w => w ∈ scope) || r.table == .perfEvents && r.workspaceId.isNone

theorem policy_eq_shared (scope : Finset String) (r : Row) : policy scope r = shared scope r := by
  unfold policy shared
  cases r.workspaceId with
  | none => cases r.table <;> rfl
  | some w => cases r.table <;> simp

theorem answer_congr {q : QueryArgs} {scope : Finset String} {db db' : List Row}
    (h : db.filter (shared scope) = db'.filter (shared scope)) :
    answer eval q scope db = answer eval q scope db' := by
  have hpolicy : policy scope = shared scope := funext (policy_eq_shared scope)
  simp only [answer, visible, hpolicy, h]

/-- Calls that are still to be checked when their caller is forgotten get no rows. -/
theorem forgotten_unanswered {s₀ u s : State} {as₁ as₂ : List Action} {t : ℕ} {y x : Task}
    {caller : String} {scope : Finset String} {q : QueryArgs} (h₀ : Idle s₀)
    (hpre : opts.preprovisioned = none) (hu : run (step opts eval) s₀ as₁ = some u)
    (hy : u.tasks t = some y) (hreq : y.request = .query caller scope q)
    (hpc : y.pc.unchecked = true)
    (hs : run (step opts eval) u (.forgetCaller caller :: as₂) = some s) (hx : s.tasks t = some x)
    (rows : List String) : x.outcome ≠ some (.ok rows) := by
  obtain ⟨hiso, hreg⟩ := run_isolated h₀ hu
  obtain ⟨v, hv, hrest⟩ := run_cons hs
  have hlive : y.pc.isFinished = false := by
    by_contra hfin
    rw [Bool.not_eq_false, Pc.isFinished_iff] at hfin
    rw [hfin] at hpc
    cases hpc
  have hshut : ShutAt v t := by
    simp only [step, hpre, Option.isSome_none, Bool.false_eq_true, if_false] at hv
    obtain rfl := Option.some.inj hv
    have hborn : t ≠ u.tickets := by
      rintro rfl
      rw [(hiso.unborn _ le_rfl).1] at hy
      cases hy
    obtain ⟨hgen, hrole⟩ := hreg t y hy
    have hname : y.role = opts.callerRole caller := by
      rw [hrole caller scope q hreq, Options.roleFor, hpre, Option.getD_none]
    refine ⟨y, ?_, ⟨caller, scope, q, hreq⟩, ?_, Or.inl hpc, ?_⟩
    · exact (Function.update_of_ne hborn ..).trans hy
    · rw [hname] at hgen ⊢
      simpa [State.enqueue] using Nat.lt_succ_of_le hgen
    · intro rows hrows
      exact (hiso.sound t y caller scope q hy hreq).unanswered hlive (P := fun _ => False) rows hrows
  have hend : Isolated eval (fun _ => True) s ∧ ShutAt s t := by
    refine run_invariant (I := fun s => Isolated eval (fun _ => True) s ∧ ShutAt s t) ?_ ?_ hrest
    · rintro s a s' ⟨hiso, hshut⟩ hs
      exact ⟨step_isolated hiso trivial hs, step_shut hpre (hiso.unborn _ le_rfl).1 hshut hs⟩
    · exact ⟨step_isolated (hiso.mono fun _ _ => trivial) trivial hv, hshut⟩
  obtain ⟨z, hz, hzshut⟩ := hend.2
  obtain rfl := Option.some.inj (hz.symm.trans hx)
  exact hzshut.outcome rows

/-- Every answer was read in a snapshot whose grants for the role of the call are its scope, so it
depends on no row outside it but those of `perf_events` without a workspace; and, unless the login
is pre-provisioned, a call that is answered had checked its generation before its caller was
forgotten. -/
theorem answered_in_scope (opts : Options) (eval : Eval) (s₀ : State) (h₀ : Idle s₀)
    (as : List Action) (s : State) (hrun : run (step opts eval) s₀ as = some s) (t : ℕ) (x : Task)
    (caller : String) (scope : Finset String) (q : QueryArgs) (rows : List String)
    (hx : s.tasks t = some x) (hreq : x.request = .query caller scope q)
    (hrows : x.outcome = some (.ok rows)) :
    (∃ as₁ as₂ u, as = as₁ ++ as₂ ∧ run (step opts eval) s₀ as₁ = some u ∧
      scopeOf u.grants (opts.roleFor caller) = scope ∧
      ∀ db : List Row, db.filter (shared scope) = u.db.filter (shared scope) →
        answer eval q scope db = .ok rows) ∧
    (opts.preprovisioned = none → ∀ as₁ as₂ u y scope' q',
      as = as₁ ++ .forgetCaller caller :: as₂ → run (step opts eval) s₀ as₁ = some u →
      u.tasks t = some y → y.request = .query caller scope' q' → y.pc.unchecked = false) := by
  obtain ⟨hiso, hreg⟩ := run_isolated h₀ hrun
  constructor
  · obtain ⟨-, snapshot, ⟨as₁, as₂, u, has, hu, rfl⟩, hscope, hanswer⟩ :=
      (hiso.sound t x caller scope q hx hreq).outcome rows hrows
    rw [(hreg t x hx).2 caller scope q hreq] at hscope
    exact ⟨as₁, as₂, u, has, hu, hscope, fun db hdb => (answer_congr hdb).trans hanswer⟩
  · intro hpre as₁ as₂ u y scope' q' has hu hy hreq'
    by_contra hpc
    rw [Bool.not_eq_false] at hpc
    rw [has] at hrun
    obtain ⟨u', hu', hrest⟩ := run_append.mp hrun
    obtain rfl := Option.some.inj (hu'.symm.trans hu)
    exact forgotten_unanswered h₀ hpre hu hy hreq' hpc hrest hx rows hrows

/-- Every caller logs in as one role. -/
def sharedLogin : Options where
  callerRole := id
  preprovisioned := some "query"

/-- The SQL that lists the rows it sees. -/
def listing : Eval := fun _ _ rows => .ok (rows.map fun r => .ok r.columns)

def idle (db : List Row) : State where
  db := db
  grants := ∅
  generations _ := 0
  pending _ := 0
  ensured _ := false
  pools _ := false
  active := 0
  waiting := []
  tickets := 0
  tasks _ := none
  released _ := false

theorem idle_idle (db : List Row) : Idle (idle db) := ⟨rfl, fun _ => rfl, fun _ => rfl, rfl⟩

def lists : QueryArgs where
  sql := "SELECT * FROM sessions"
  maxRows := 10

/-- A session of each of two workspaces. -/
def twoSessions : List Row :=
  [⟨.sessions, some "a", "of a", none⟩, ⟨.sessions, some "b", "of b", none⟩]

/-- The first call is late while its work goes on, and the second waits for it. -/
def lateThenNext : List Action :=
  ([.query "a" {"a"} lists, .query "b" {"b"} lists] : List Action) ++
    (List.replicate 6 (.resume 0 .ok) : List Action) ++
    ([.late 0, .resume 0 .ok, .interrupt 0 ⟨"Connection terminated", none⟩,
      .resume 0 .ok] : List Action) ++ (List.replicate 9 (.resume 1 .ok) : List Action)

def Task.answeredWith (x : Task) (rows : List String) : Bool :=
  match x.outcome with
  | some (.ok out) => out = rows
  | _ => false

theorem Task.answeredWith_iff {x : Task} {rows : List String} :
    x.answeredWith rows = true ↔ x.outcome = some (.ok rows) := by
  unfold Task.answeredWith
  split <;> simp_all

theorem answered_in_scope_lateThenNext :
    ((run (step sharedLogin listing) (idle twoSessions) lateThenNext).any fun s =>
      (s.tasks 1).any fun x =>
        decide (x.request = .query "b" {"b"} lists) && x.answeredWith ["of b"]) = true ∧
    ∀ s x, run (step sharedLogin listing) (idle twoSessions) lateThenNext = some s →
      s.tasks 1 = some x → x.request = .query "b" {"b"} lists → x.outcome = some (.ok ["of b"]) →
      ∃ as₁ as₂ u, lateThenNext = as₁ ++ as₂ ∧
        run (step sharedLogin listing) (idle twoSessions) as₁ = some u ∧
        scopeOf u.grants "query" = {"b"} :=
  ⟨by decide +kernel, fun s x hrun hx hreq hrows => by
    obtain ⟨as₁, as₂, u, has, hu, hscope, -⟩ := (answered_in_scope sharedLogin listing
      (idle twoSessions) (idle_idle _) lateThenNext s hrun 1 x "b" {"b"} lists ["of b"] hx hreq
      hrows).1
    exact ⟨as₁, as₂, u, has, hu, hscope⟩⟩

theorem exists_answered (r : Option State) (rows : List String)
    (h : (r.any fun s => (s.tasks 0).any fun x => x.answeredWith rows) = true) :
    ∃ s x, r = some s ∧ s.tasks 0 = some x ∧ x.outcome = some (.ok rows) := by
  obtain ⟨s, hs, h⟩ := (Option.any_eq_true _ _).mp h
  obtain ⟨x, hx, h⟩ := (Option.any_eq_true _ _).mp h
  exact ⟨s, x, hs, hx, Task.answeredWith_iff.mp h⟩

def startsCall : List Action := [.query "a" {"a"} lists]

def finishesCall : List Action := List.replicate 9 (.resume 0 .ok)

/-- A measurement that belongs to no workspace. -/
def appWide (columns : String) : List Row := [⟨.perfEvents, none, columns, none⟩]

/-- Under a pre-provisioned login a call goes on when its caller is forgotten while it waits for
the lock; and databases that agree on the rows of the workspaces in its scope, as these two that
have none, may give it different answers. -/
theorem answered_beyond_scope :
    (∃ u y s x, run (step sharedLogin listing) (idle twoSessions) startsCall = some u ∧
      u.tasks 0 = some y ∧ y.pc = .waiting ∧
      run (step sharedLogin listing) (idle twoSessions)
        (startsCall ++ .forgetCaller "a" :: finishesCall) = some s ∧
      s.tasks 0 = some x ∧ x.outcome = some (.ok ["of a"])) ∧
    (∀ r ∈ appWide "one" ++ appWide "two", r.workspaceId = none) ∧
    (∃ s x, run (step sharedLogin listing) (idle (appWide "one")) (startsCall ++ finishesCall) =
        some s ∧ s.tasks 0 = some x ∧ x.outcome = some (.ok ["one"])) ∧
    ∃ s x, run (step sharedLogin listing) (idle (appWide "two")) (startsCall ++ finishesCall) =
        some s ∧ s.tasks 0 = some x ∧ x.outcome = some (.ok ["two"]) := by
  refine ⟨?_, by decide, ?_, ?_⟩
  · obtain ⟨s, x, hs, hx, hrows⟩ := exists_answered
      (run (step sharedLogin listing) (idle twoSessions)
        (startsCall ++ .forgetCaller "a" :: finishesCall)) ["of a"] (by decide +kernel)
    exact ⟨_, _, s, x, rfl, rfl, rfl, hs, hx, hrows⟩
  · exact exists_answered _ _ (by decide +kernel)
  · exact exists_answered _ _ (by decide +kernel)

end ClaudeFleet.QueryIsolation
