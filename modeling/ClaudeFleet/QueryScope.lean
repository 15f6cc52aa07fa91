import ClaudeFleet.QueryIsolation

/-! Whatever a call returns it read under its own scope: from the commit of its scope until its
work settles a call is the only task of its role that is past the lock, and so the only one that
writes the role's grants. -/
namespace ClaudeFleet.QueryIsolation
open Transition

theorem mem_scopeOf {grants : Finset (String × String)} {role w : String} :
    w ∈ scopeOf grants role ↔ (role, w) ∈ grants := by
  simp only [scopeOf, Finset.mem_image, Finset.mem_filter, Prod.exists, exists_eq_right]

theorem scopeOf_rewriteScope (grants : Finset (String × String)) (role : String)
    (scope : Finset String) : scopeOf (rewriteScope grants role scope) role = scope := by
  ext w
  simp [mem_scopeOf, rewriteScope]

theorem scopeOf_rewriteScope_ne (grants : Finset (String × String)) {role other : String}
    (h : other ≠ role) (scope : Finset String) :
    scopeOf (rewriteScope grants role scope) other = scopeOf grants other := by
  ext w
  simp [mem_scopeOf, rewriteScope, h, h.symm]

theorem scopeOf_filter_ne (grants : Finset (String × String)) {role other : String}
    (h : other ≠ role) :
    scopeOf (grants.filter fun g => g.1 ≠ role) other = scopeOf grants other := by
  ext w
  simp [mem_scopeOf, h]

theorem State.tail_eq_true {s : State} {role : String} {t : ℕ} (h : s.tail role t = true) :
    ∀ j < t, ∀ z, s.tasks j = some z → z.role = role → s.released j = true := by
  induction t with
  | zero =>
    intro j hj
    omega
  | succ t ih =>
    intro j hj z hz hrole
    simp only [State.tail, Bool.and_eq_true, Bool.or_eq_true] at h
    rcases Nat.lt_succ_iff_lt_or_eq.mp hj with hj | rfl
    · exact ih h.1 j hj z hz hrole
    · rcases h.2 with h | h
      · exact h
      · simp [hz, hrole] at h

/-- The scope of the call stands in mcp_grants. -/
def Pc.scoped : Pc → Bool
  | .ensuring retry | .ensured retry => retry
  | .connecting _ | .executing _ | .reading _ _ | .closing _ _ => true
  | .waiting | .slot | .starting | .scoping | .ending | .dropping | .finished => false

def Pc.isFinished : Pc → Bool
  | .finished => true
  | _ => false

theorem Pc.isFinished_iff {pc : Pc} : pc.isFinished = true ↔ pc = .finished := by
  cases pc <;> simp [Pc.isFinished]

variable (eval : Eval) (seen : Snapshot → Prop)

/-- The rows are the answer of a snapshot that was seen, under exactly this scope. -/
def ReadIn (role : String) (scope : Finset String) (q : QueryArgs) (rows : List String) : Prop :=
  ∃ snapshot, seen snapshot ∧ scopeOf snapshot.grants role = scope ∧
    answer eval q scope snapshot.db = .ok rows

structure Sound (grants : Finset (String × String)) (x : Task) (scope : Finset String)
    (q : QueryArgs) : Prop where
  stands : x.pc.scoped = true → scopeOf grants x.role = scope
  reading : ∀ retry snapshot, x.pc = .reading retry snapshot →
    seen snapshot ∧ scopeOf snapshot.grants x.role = scope
  closing : ∀ retry rows, x.pc = .closing retry (.ok rows) → ReadIn eval seen x.role scope q rows
  outcome : ∀ rows, x.outcome = some (.ok rows) →
    x.pc = .finished ∧ ReadIn eval seen x.role scope q rows

structure Isolated (s : State) : Prop where
  unborn : ∀ t, s.tickets ≤ t → s.tasks t = none ∧ s.released t = false
  released : ∀ t x, s.tasks t = some x → s.released t = x.pc.isFinished
  turn : ∀ t x, s.tasks t = some x → x.pc ≠ .waiting →
    ∀ j < t, ∀ z, s.tasks j = some z → z.role = x.role → s.released j = true
  line : ∀ t ∈ s.waiting, ∃ x, s.tasks t = some x ∧ x.pc = .slot
  nodup : s.waiting.Nodup
  sound : ∀ t x caller scope q, s.tasks t = some x → x.request = .query caller scope q →
    Sound eval seen s.grants x scope q

variable {eval seen}

/-- Of two tasks of one role past the lock, one is done with it. -/
theorem Isolated.exclusive {s : State} (h : Isolated eval seen s) {t j : ℕ} {x z : Task}
    (hx : s.tasks t = some x) (hz : s.tasks j = some z) (hrole : z.role = x.role) (hne : j ≠ t)
    (hxpc : x.pc ≠ .waiting) (hxlive : x.pc.isFinished = false) (hzpc : z.pc ≠ .waiting) :
    z.pc.isFinished = true := by
  rcases Nat.lt_or_gt_of_ne hne with hlt | hgt
  · rw [← h.released j z hz]
    exact h.turn t x hx hxpc j hlt z hz hrole
  · have hrel := h.turn j z hz hzpc t hgt x hx hrole.symm
    rw [h.released t x hx, hxlive] at hrel
    cases hrel

theorem Pc.scoped_live {pc : Pc} (h : pc.scoped = true) :
    pc ≠ .waiting ∧ pc.isFinished = false := by
  cases pc <;> simp_all [Pc.scoped, Pc.isFinished]

theorem Sound.grants {grants grants' : Finset (String × String)} {x : Task} {scope : Finset String}
    {q : QueryArgs} (h : Sound eval seen grants x scope q)
    (hg : x.pc.scoped = true → scopeOf grants' x.role = scopeOf grants x.role) :
    Sound eval seen grants' x scope q :=
  ⟨fun hs => (hg hs).trans (h.stands hs), h.reading, h.closing, h.outcome⟩

theorem Isolated.notMem_waiting {s : State} (h : Isolated eval seen s) {t : ℕ} {x : Task}
    (hx : s.tasks t = some x) (hpc : x.pc ≠ .slot) : t ∉ s.waiting := by
  intro ht
  obtain ⟨z, hz, hzpc⟩ := h.line t ht
  rw [hx] at hz
  exact hpc (Option.some.inj hz ▸ hzpc)

/-- Rows are handed out at the end. -/
theorem Sound.unanswered {grants : Finset (String × String)} {x : Task} {scope : Finset String}
    {q : QueryArgs} (h : Sound eval seen grants x scope q) (hlive : x.pc.isFinished = false)
    {P : List String → Prop} : ∀ rows, x.outcome = some (.ok rows) → P rows := by
  intro rows hrows
  rw [(h.outcome rows hrows).1] at hlive
  cases hlive

/-- The task goes on, and may change the grants of its role while it is past the lock. -/
theorem Isolated.move {s s' : State} (h : Isolated eval seen s) {t : ℕ} {x y : Task}
    (hx : s.tasks t = some x) (hnotin : t ∉ s.waiting) (hlive : x.pc.isFinished = false)
    (hrole : y.role = x.role) (htickets : s'.tickets = s.tickets)
    (htasks : s'.tasks = Function.update s.tasks t (some y))
    (hreleased : ∀ j, s'.released j = if j = t then y.pc.isFinished else s.released j)
    (hwaiting : s'.waiting = s.waiting ∨ y.pc = .slot ∧ s'.waiting = s.waiting ++ [t])
    (hturn : ∀ j < t, ∀ z, s.tasks j = some z → z.role = x.role → s.released j = true)
    (hgrants : ∀ r, r ≠ x.role ∨ x.pc = .waiting → scopeOf s'.grants r = scopeOf s.grants r)
    (hsound : ∀ caller scope q, y.request = .query caller scope q →
      Sound eval seen s'.grants y scope q) : Isolated eval seen s' := by
  have hself : s'.tasks t = some y := by rw [htasks, Function.update_self]
  have hother : ∀ j, j ≠ t → s'.tasks j = s.tasks j := fun j hj => by
    rw [htasks, Function.update_of_ne hj]
  have hline : ∀ j ∈ s.waiting, j ≠ t ∧ ∃ z, s'.tasks j = some z ∧ z.pc = .slot := by
    intro j hj
    obtain ⟨z, hz, hzpc⟩ := h.line j hj
    have hne : j ≠ t := ne_of_mem_of_not_mem hj hnotin
    exact ⟨hne, z, (hother j hne).trans hz, hzpc⟩
  refine ⟨?_, ?_, ?_, ?_, ?_, ?_⟩
  · intro j hj
    rw [htickets] at hj
    have hne : j ≠ t := by
      rintro rfl
      rw [(h.unborn j hj).1] at hx
      cases hx
    rw [hother j hne, hreleased, if_neg hne]
    exact h.unborn j hj
  · intro j z hz
    rw [hreleased]
    split_ifs with heq
    · subst heq
      rw [hself] at hz
      rw [Option.some.inj hz]
    · rw [hother j heq] at hz
      exact h.released j z hz
  · intro j z hz hzpc i hij w hw hwrole
    rw [hreleased]
    by_cases hj : j = t
    · subst hj
      rw [hself] at hz
      obtain rfl := Option.some.inj hz
      rw [if_neg hij.ne]
      rw [hother i hij.ne] at hw
      exact hturn i hij w hw (hwrole.trans hrole)
    · rw [hother j hj] at hz
      by_cases hi : i = t
      · subst hi
        rw [hself] at hw
        obtain rfl := Option.some.inj hw
        have hrel := h.turn j z hz hzpc i hij x hx (hrole.symm.trans hwrole)
        rw [h.released i x hx, hlive] at hrel
        cases hrel
      · rw [if_neg hi]
        rw [hother i hi] at hw
        exact h.turn j z hz hzpc i hij w hw hwrole
  · intro j hj
    rcases hwaiting with hsame | ⟨hy, hadd⟩
    · rw [hsame] at hj
      exact (hline j hj).2
    · rw [hadd] at hj
      rcases List.mem_append.mp hj with hj | hj
      · exact (hline j hj).2
      · rw [List.mem_singleton.mp hj]
        exact ⟨y, hself, hy⟩
  · rcases hwaiting with hsame | ⟨-, hadd⟩
    · rw [hsame]
      exact h.nodup
    · rw [hadd]
      exact h.nodup.append (List.nodup_singleton t)
        (List.disjoint_singleton.mpr fun ht => (hline t ht).1 rfl)
  · intro j z caller scope q hz hreq
    by_cases heq : j = t
    · subst heq
      rw [hself] at hz
      obtain rfl := Option.some.inj hz
      exact hsound caller scope q hreq
    · rw [hother j heq] at hz
      refine (h.sound j z caller scope q hz hreq).grants fun hscoped => hgrants _ ?_
      by_contra hcon
      push Not at hcon
      obtain ⟨hzpc, hzlive⟩ := Pc.scoped_live hscoped
      have := h.exclusive hx hz hcon.1 heq hcon.2 hlive hzpc
      rw [hzlive] at this
      cases this

theorem Isolated.congr {s s' : State} (h : Isolated eval seen s) (htickets : s'.tickets = s.tickets)
    (htasks : s'.tasks = s.tasks) (hreleased : s'.released = s.released)
    (hwaiting : s'.waiting = s.waiting) (hgrants : s'.grants = s.grants) :
    Isolated eval seen s' := by
  refine ⟨?_, ?_, ?_, ?_, ?_, ?_⟩
  · rw [htickets, htasks, hreleased]
    exact h.unborn
  · rw [htasks, hreleased]
    exact h.released
  · rw [htasks, hreleased]
    exact h.turn
  · rw [hwaiting, htasks]
    exact h.line
  · rw [hwaiting]
    exact h.nodup
  · rw [htasks, hgrants]
    exact h.sound

/-- A slot that is freed wakes the first task in line. -/
theorem Isolated.free {s : State} (h : Isolated eval seen s) : Isolated eval seen s.free := by
  unfold State.free
  split
  · exact h.congr rfl rfl rfl rfl rfl
  · next t rest hwaiting =>
    obtain ⟨x, hx, hpc⟩ := h.line t (by rw [hwaiting]; exact List.mem_cons_self)
    have hnodup := h.nodup
    rw [hwaiting] at hnodup
    obtain ⟨hnotin, hrest⟩ := List.nodup_cons.mp hnodup
    -- the task leaves the line, and then goes on
    have hout : Isolated eval seen { s with waiting := rest } := by
      refine ⟨h.unborn, h.released, h.turn, fun j hj => h.line j ?_, hrest, h.sound⟩
      rw [hwaiting]
      exact List.mem_cons_of_mem t hj
    refine hout.move hx hnotin (by rw [hpc]; rfl) (y := { x with pc := .starting }) rfl rfl
      (by rw [hx]; rfl) ?_ (Or.inl rfl) ?_ (fun _ _ => rfl) ?_
    · intro j
      dsimp only
      split_ifs with hj
      · rw [hj, h.released t x hx, hpc]
        rfl
      · rfl
    · exact h.turn t x hx (by rw [hpc]; nofun)
    · intro caller scope q hreq
      have hsound := h.sound t x caller scope q hx hreq
      exact ⟨nofun, nofun, nofun, hsound.unanswered (by rw [hpc]; rfl)⟩

/-- The task is past the lock, and not in the line for a slot. -/
structure Holds (s : State) (t : ℕ) (x : Task) : Prop where
  task : s.tasks t = some x
  past : x.pc ≠ .waiting
  slot : x.pc ≠ .slot
  live : x.pc.isFinished = false

theorem Holds.of_working {s : State} {t : ℕ} {x : Task} (hx : s.tasks t = some x)
    (h : x.pc.working = true) : Holds s t x := by
  refine ⟨hx, ?_, ?_, ?_⟩
  · intro hpc
    rw [hpc] at h
    cases h
  · intro hpc
    rw [hpc] at h
    cases h
  · by_contra hpc
    rw [Bool.not_eq_false, Pc.isFinished_iff] at hpc
    rw [hpc] at h
    cases h

theorem Isolated.goto {s : State} (h : Isolated eval seen s) {t : ℕ} {x : Task} (hx : Holds s t x)
    (pc : Pc) (hpc : pc.isFinished = false)
    (hsound : ∀ caller scope q, x.request = .query caller scope q →
      Sound eval seen s.grants { x with pc := pc } scope q) : Isolated eval seen (s.goto t x pc) := by
  refine h.move hx.task (h.notMem_waiting hx.task hx.slot) hx.live (y := { x with pc := pc }) rfl rfl
    rfl ?_ (Or.inl rfl) (h.turn t x hx.task hx.past) (fun _ _ => rfl) hsound
  intro j
  split_ifs with hj
  · rw [hpc, hj, ← hx.live]
    exact h.released t x hx.task
  · rfl

/-- The task ends, and gives its lock back. -/
theorem Isolated.finish {s : State} (h : Isolated eval seen s) {t : ℕ} {x : Task}
    (hx : Holds s t x) (outcome : Option (Except Failure (List String)))
    (hsound : ∀ caller scope q, x.request = .query caller scope q → ∀ rows,
      outcome = some (.ok rows) → ReadIn eval seen x.role scope q rows) :
    Isolated eval seen { s with
      tasks := Function.update s.tasks t
        (some { x with pc := .finished, outcome := outcome })
      released := Function.update s.released t true } := by
  refine h.move hx.task (h.notMem_waiting hx.task hx.slot) hx.live
    (y := { x with pc := .finished, outcome := outcome }) rfl rfl
    rfl ?_ (Or.inl rfl) (h.turn t x hx.task hx.past) (fun _ _ => rfl) ?_
  · intro j
    dsimp only
    split_ifs with hj
    · rw [hj, Function.update_self]
      rfl
    · rw [Function.update_of_ne hj]
  · intro caller scope q hreq
    exact ⟨nofun, nofun, nofun, fun rows hrows => ⟨rfl, hsound caller scope q hreq rows hrows⟩⟩

theorem State.free_release (s : State) (t : ℕ) (role : String) :
    s.free.release t role = (s.release t role).free := by
  unfold State.free State.release
  cases s.waiting <;> rfl

theorem Isolated.settle {s : State} (h : Isolated eval seen s) {t : ℕ} {x : Task}
    (hx : Holds s t x) {result : Except Failure (List String)}
    (hresult : ∀ caller scope q, x.request = .query caller scope q → ∀ rows, result = .ok rows →
      ReadIn eval seen x.role scope q rows) : Isolated eval seen (s.settle t x result) := by
  unfold State.settle
  split_ifs
  · have hdone := h.finish hx x.outcome fun caller scope q hreq =>
      (h.sound t x caller scope q hx.task hreq).unanswered hx.live
    exact hdone.congr rfl rfl rfl rfl rfl
  · have hdone := h.finish hx (some result) fun caller scope q hreq rows hrows =>
      hresult caller scope q hreq rows (Option.some.inj hrows)
    rw [State.free_release]
    exact Isolated.free (hdone.congr rfl rfl rfl rfl rfl)

theorem Isolated.fail {s : State} (h : Isolated eval seen s) {t : ℕ} {x : Task} (hx : Holds s t x)
    (e : Failure) : Isolated eval seen (s.settle t x (.error e)) :=
  h.settle hx fun _ _ _ _ => nofun

variable {opts : Options}

/-- `ensureRole` of the retry comes after the scope is written. -/
theorem Isolated.ensureRole {s : State} (h : Isolated eval seen s) {t : ℕ} {x : Task}
    (hx : Holds s t x) {retry : Bool} (hretry : retry = true → x.pc.scoped = true) :
    Isolated eval seen (s.ensureRole opts t x retry) := by
  have hgo : ∀ pc : Pc, pc = .ensuring retry ∨ pc = .ensured retry →
      Isolated eval seen (s.goto t x pc) := by
    intro pc hpc
    refine h.goto hx pc (by rcases hpc with rfl | rfl <;> rfl) fun caller scope q hreq => ?_
    have hsound := h.sound t x caller scope q hx.task hreq
    refine ⟨fun hscoped => hsound.stands (hretry ?_), ?_, ?_, hsound.unanswered hx.live⟩
    · rcases hpc with rfl | rfl <;> exact hscoped
    · rcases hpc with rfl | rfl <;> nofun
    · rcases hpc with rfl | rfl <;> nofun
  unfold State.ensureRole
  split_ifs
  · exact hgo _ (Or.inl rfl)
  · exact hgo _ (Or.inr rfl)
  · exact h.fail hx removed
  · exact (hgo _ (Or.inl rfl)).congr rfl rfl rfl rfl rfl

theorem Isolated.runAs {s : State} (h : Isolated eval seen s) {t : ℕ} {x : Task}
    (hx : Holds s t x) {q : QueryArgs} {retry : Bool}
    (hscope : ∀ caller scope q, x.request = .query caller scope q →
      scopeOf s.grants x.role = scope) : Isolated eval seen (s.runAs t x q retry) := by
  unfold State.runAs
  split_ifs
  · exact h.fail hx _
  · refine h.goto hx (.connecting retry) rfl fun caller scope q hreq => ?_
    exact ⟨fun _ => hscope caller scope q hreq, nofun, nofun,
      (h.sound t x caller scope q hx.task hreq).unanswered hx.live⟩
  · exact h.fail hx _

theorem Isolated.ranAs {s : State} (h : Isolated eval seen s) {t : ℕ} {x : Task}
    (hx : Holds s t x) {retry : Bool} {result : Except Failure (List String)}
    (hpc : x.pc.scoped = true)
    (hresult : ∀ caller scope q, x.request = .query caller scope q → ∀ rows, result = .ok rows →
      ReadIn eval seen x.role scope q rows) : Isolated eval seen (s.ranAs opts t x retry result) := by
  unfold State.ranAs
  split
  · split_ifs
    · have hforgot : Isolated eval seen
          { s with ensured := Function.update s.ensured x.role false } :=
        h.congr rfl rfl rfl rfl rfl
      exact hforgot.ensureRole ⟨hx.task, hx.past, hx.slot, hx.live⟩ fun _ => hpc
    · exact h.fail hx _
  · exact h.settle hx hresult

/-- The grants of a role change under a task past the role's lock that has no scope standing. -/
theorem Isolated.regrant {s : State} (h : Isolated eval seen s) {t : ℕ} {x : Task}
    (hx : Holds s t x) (hpc : x.pc.scoped = false) {grants : Finset (String × String)}
    (hgrants : ∀ r, r ≠ x.role → scopeOf grants r = scopeOf s.grants r) :
    Isolated eval seen { s with grants := grants } := by
  refine h.move hx.task (h.notMem_waiting hx.task hx.slot) hx.live (y := x) rfl rfl
    (by rw [← hx.task, Function.update_eq_self]) ?_ (Or.inl rfl) (h.turn t x hx.task hx.past)
    (fun r hr => hgrants r (hr.resolve_right hx.past)) fun caller scope q hreq => ?_
  · intro j
    dsimp only
    split_ifs with hj
    · rw [hj]
      exact h.released t x hx.task
    · rfl
  · refine (h.sound t x caller scope q hx.task hreq).grants fun hscoped => ?_
    rw [hpc] at hscoped
    cases hscoped

/-- The task's turn comes, and it goes on to wait for a slot or to work. -/
theorem Isolated.enter {s s' : State} (h : Isolated eval seen s) {t : ℕ} {x : Task}
    (hx : s.tasks t = some x) (hpc : x.pc = .waiting) (htail : s.tail x.role t = true) {pc : Pc}
    (hnew : pc = .starting ∨ pc = .slot ∨ pc = .ending) (htickets : s'.tickets = s.tickets)
    (htasks : s'.tasks = Function.update s.tasks t (some { x with pc := pc }))
    (hreleased : s'.released = s.released)
    (hwaiting : s'.waiting = s.waiting ∨ pc = .slot ∧ s'.waiting = s.waiting ++ [t])
    (hgrants : s'.grants = s.grants) : Isolated eval seen s' := by
  have hfin : pc.isFinished = false := by rcases hnew with rfl | rfl | rfl <;> rfl
  have hlive : x.pc.isFinished = false := by rw [hpc]; rfl
  refine h.move hx (h.notMem_waiting hx (by rw [hpc]; nofun)) hlive (y := { x with pc := pc }) rfl
    htickets htasks ?_ hwaiting (State.tail_eq_true htail) (fun _ _ => by rw [hgrants])
    fun caller scope q hreq => ?_
  · intro j
    rw [hreleased]
    split_ifs with hj
    · rw [hj, h.released t x hx, hlive, hfin]
    · rfl
  · have hsound := h.sound t x caller scope q hx hreq
    rcases hnew with rfl | rfl | rfl <;> exact ⟨nofun, nofun, nofun, hsound.unanswered hlive⟩

/-- A query whose turn comes throws. -/
theorem Isolated.refuse {s : State} (h : Isolated eval seen s) {t : ℕ} {x : Task}
    (hx : s.tasks t = some x) (hpc : x.pc = .waiting) (htail : s.tail x.role t = true)
    (e : Failure) : Isolated eval seen (s.refuse t x e) := by
  have hentered : Isolated eval seen (s.goto t x .starting) :=
    h.enter hx hpc htail (Or.inl rfl) rfl rfl rfl (Or.inl rfl) rfl
  have hholds : Holds (s.goto t x .starting) t { x with pc := .starting } :=
    ⟨Function.update_self .., nofun, nofun, rfl⟩
  refine (hentered.finish hholds (some (.error e)) fun _ _ _ _ _ => nofun).congr rfl ?_ rfl rfl rfl
  exact (Function.update_idem ..).symm

theorem resumeQuery_isolated {s s' : State} (h : Isolated eval seen s)
    (hseen : seen ⟨s.db, s.grants⟩) {t : ℕ} {x : Task} {caller : String} {scope : Finset String}
    {q : QueryArgs} {o : Outcome} (hx : s.tasks t = some x)
    (hreq : x.request = .query caller scope q)
    (hs : s.resumeQuery opts eval t x scope q o = some s') : Isolated eval seen s' := by
  have hsound := h.sound t x caller scope q hx hreq
  -- the request of the task is this query
  have hthis : ∀ {P : Finset String → QueryArgs → Prop}, P scope q →
      ∀ caller' scope' q', x.request = .query caller' scope' q' → P scope' q' := by
    intro P hP caller' scope' q' hreq'
    rw [hreq] at hreq'
    cases hreq'
    exact hP
  unfold State.resumeQuery at hs
  split at hs
  case h_1 hpc =>
    split_ifs at hs with htail hgen hactive hfull <;> obtain rfl := Option.some.inj hs
    · exact h.refuse hx hpc htail _
    · exact h.enter hx hpc htail (Or.inl rfl) rfl rfl rfl (Or.inl rfl) rfl
    · exact h.refuse hx hpc htail _
    · exact h.enter hx hpc htail (Or.inr (Or.inl rfl)) rfl rfl rfl (Or.inr ⟨rfl, rfl⟩) rfl
  case h_2 hpc =>
    obtain rfl := Option.some.inj hs
    exact h.ensureRole ⟨hx, by simp [hpc], by simp [hpc], by simp [hpc, Pc.isFinished]⟩ nofun
  case h_3 retry hpc =>
    have hholds : Holds s t x := .of_working hx (by rw [hpc]; rfl)
    split at hs <;> obtain rfl := Option.some.inj hs
    · have hmoved : Isolated eval seen (s.goto t x (.ensured retry)) := by
        refine h.goto hholds (.ensured retry) rfl (hthis ?_)
        refine ⟨fun hscoped => hsound.stands ?_, nofun, nofun, hsound.unanswered hholds.live⟩
        rw [hpc]
        exact hscoped
      exact hmoved.congr rfl rfl rfl rfl rfl
    · have hoff : Isolated eval seen
          { s with ensured := Function.update s.ensured x.role false } :=
        h.congr rfl rfl rfl rfl rfl
      exact hoff.fail ⟨hholds.task, hholds.past, hholds.slot, hholds.live⟩ _
  case h_4 hpc =>
    obtain rfl := Option.some.inj hs
    have hscope : scopeOf s.grants x.role = scope := hsound.stands (by rw [hpc]; rfl)
    exact h.runAs (.of_working hx (by rw [hpc]; rfl)) (hthis hscope)
  case h_5 hpc =>
    have hholds : Holds s t x := .of_working hx (by rw [hpc]; rfl)
    split_ifs at hs <;> obtain rfl := Option.some.inj hs
    · exact h.fail hholds _
    · exact h.goto hholds .scoping rfl (hthis ⟨nofun, nofun, nofun, hsound.unanswered hholds.live⟩)
  case h_6 hpc =>
    have hholds : Holds s t x := .of_working hx (by rw [hpc]; rfl)
    have hwritten : Isolated eval seen { s with grants := rewriteScope s.grants x.role scope } :=
      h.regrant hholds (by rw [hpc]; rfl) fun r hr => scopeOf_rewriteScope_ne _ hr _
    have hholds' : Holds { s with grants := rewriteScope s.grants x.role scope } t x :=
      ⟨hholds.task, hholds.past, hholds.slot, hholds.live⟩
    split at hs <;> obtain rfl := Option.some.inj hs
    · exact hwritten.runAs hholds' (hthis (scopeOf_rewriteScope _ _ _))
    · exact h.fail hholds _
    · exact hwritten.fail hholds' _
  case h_7 retry hpc =>
    have hholds : Holds s t x := .of_working hx (by rw [hpc]; rfl)
    have hscoped : x.pc.scoped = true := by rw [hpc]; rfl
    split at hs <;> obtain rfl := Option.some.inj hs
    · refine h.goto hholds (.executing retry) rfl (hthis ?_)
      exact ⟨fun _ => hsound.stands hscoped, nofun, nofun, hsound.unanswered hholds.live⟩
    · exact h.ranAs hholds hscoped fun _ _ _ _ _ => nofun
  case h_8 retry hpc =>
    have hholds : Holds s t x := .of_working hx (by rw [hpc]; rfl)
    have hscope : scopeOf s.grants x.role = scope := hsound.stands (by rw [hpc]; rfl)
    split at hs <;> obtain rfl := Option.some.inj hs
    · refine h.goto hholds _ rfl (hthis ⟨fun _ => hscope, ?_, nofun, hsound.unanswered hholds.live⟩)
      intro retry' snapshot hread
      cases hread
      exact ⟨hseen, hscope⟩
    · exact h.goto hholds _ rfl (hthis ⟨fun _ => hscope, nofun, nofun, hsound.unanswered hholds.live⟩)
  case h_9 retry snapshot hpc =>
    have hholds : Holds s t x := .of_working hx (by rw [hpc]; rfl)
    have hscope : scopeOf s.grants x.role = scope := hsound.stands (by rw [hpc]; rfl)
    obtain ⟨hsnap, hsnapScope⟩ := hsound.reading retry snapshot hpc
    split at hs <;> obtain rfl := Option.some.inj hs
    · refine h.goto hholds _ rfl (hthis ⟨fun _ => hscope, nofun, ?_, hsound.unanswered hholds.live⟩)
      intro retry' rows hclosing
      injection hclosing with _ hanswer
      rw [hsnapScope] at hanswer
      exact ⟨snapshot, hsnap, hsnapScope, hanswer⟩
    · exact h.goto hholds _ rfl (hthis ⟨fun _ => hscope, nofun, nofun, hsound.unanswered hholds.live⟩)
  case h_10 retry result hpc =>
    obtain rfl := Option.some.inj hs
    refine h.ranAs (.of_working hx (by rw [hpc]; rfl)) (by rw [hpc]; rfl)
      (hthis fun rows hrows => hsound.closing retry rows ?_)
    cases result with
    | error e => cases hrows
    | ok rows' => rw [hpc, Except.ok.inj hrows]
  all_goals cases hs

theorem resumeForget_isolated {s s' : State} (h : Isolated eval seen s) {t : ℕ} {x : Task}
    {o : Outcome} {caller : String} (hx : s.tasks t = some x) (hreq : x.request = .forget caller)
    (hs : s.resumeForget t x o = some s') : Isolated eval seen s' := by
  have hnot : ∀ caller' scope q, x.request ≠ .query caller' scope q := by
    intro caller' scope q hquery
    rw [hreq] at hquery
    cases hquery
  have hend : ∀ s, Isolated eval seen s → Holds s t x → Isolated eval seen
      { s.goto t x .finished with released := Function.update s.released t true } := by
    intro s h hholds
    exact h.finish hholds x.outcome fun _ _ _ hquery => absurd hquery (hnot _ _ _)
  unfold State.resumeForget at hs
  split at hs
  · next hpc =>
    split_ifs at hs with htail
    obtain rfl := Option.some.inj hs
    exact h.enter hx hpc htail (Or.inr (Or.inr rfl)) rfl rfl rfl (Or.inl rfl) rfl
  · next hpc =>
    have hholds : Holds s t x :=
      ⟨hx, by rw [hpc]; nofun, by rw [hpc]; nofun, by rw [hpc]; rfl⟩
    split at hs <;> obtain rfl := Option.some.inj hs
    · have hmoved : Isolated eval seen (s.goto t x .dropping) :=
        h.goto hholds .dropping rfl fun _ _ _ hquery => absurd hquery (hnot _ _ _)
      exact hmoved.congr rfl rfl rfl rfl rfl
    · exact hend s h hholds
  · next hpc =>
    have hholds : Holds s t x :=
      ⟨hx, by rw [hpc]; nofun, by rw [hpc]; nofun, by rw [hpc]; rfl⟩
    split at hs <;> obtain rfl := Option.some.inj hs
    · exact hend s h hholds
    · have hdropped : Isolated eval seen
          { s with grants := s.grants.filter fun g => g.1 ≠ x.role } :=
        h.regrant hholds (by rw [hpc]; rfl) fun r hr => scopeOf_filter_ne _ hr
      exact hend _ hdropped ⟨hholds.task, hholds.past, hholds.slot, hholds.live⟩
  · cases hs

/-- The caller is told that its call is late, and the call goes on. -/
theorem Isolated.abandon {s : State} (h : Isolated eval seen s) {t : ℕ} {x : Task}
    (hx : Holds s t x) (e : Failure) :
    Isolated eval seen (s.put t { x with abandoned := true, outcome := some (.error e) }) := by
  refine h.move hx.task (h.notMem_waiting hx.task hx.slot) hx.live
    (y := { x with abandoned := true, outcome := some (.error e) }) rfl rfl
    rfl ?_ (Or.inl rfl) (h.turn t x hx.task hx.past) (fun _ _ => rfl) fun caller scope q hreq => ?_
  · intro j
    split_ifs with hj
    · rw [hj]
      exact h.released t x hx.task
    · rfl
  · have hsound := h.sound t x caller scope q hx.task hreq
    exact ⟨hsound.stands, hsound.reading, hsound.closing, nofun⟩

/-- A new task waits for its lock. -/
theorem Isolated.enqueue {s : State} (h : Isolated eval seen s) {x : Task} (hpc : x.pc = .waiting)
    (houtcome : x.outcome = none) : Isolated eval seen (s.enqueue x) := by
  have hself : (s.enqueue x).tasks s.tickets = some x := Function.update_self ..
  have hother : ∀ j, j ≠ s.tickets → (s.enqueue x).tasks j = s.tasks j :=
    fun j hj => Function.update_of_ne hj ..
  have hborn : ∀ j z, s.tasks j = some z → j < s.tickets := by
    intro j z hz
    by_contra hj
    rw [(h.unborn j (Nat.le_of_not_lt hj)).1] at hz
    cases hz
  refine ⟨?_, ?_, ?_, ?_, h.nodup, ?_⟩
  · intro j hj
    have hj : s.tickets + 1 ≤ j := hj
    rw [hother j (by omega)]
    exact h.unborn j (by omega)
  · intro j z hz
    by_cases heq : j = s.tickets
    · subst heq
      rw [hself] at hz
      rw [← Option.some.inj hz, hpc]
      exact (h.unborn _ le_rfl).2
    · rw [hother j heq] at hz
      exact h.released j z hz
  · intro j z hz hzpc i hij w hw hrole
    by_cases heq : j = s.tickets
    · subst heq
      rw [hself] at hz
      exact absurd (Option.some.inj hz ▸ hpc) hzpc
    · rw [hother j heq] at hz
      have := hborn j z hz
      rw [hother i (by omega)] at hw
      exact h.turn j z hz hzpc i hij w hw hrole
  · intro j hj
    obtain ⟨z, hz, hzpc⟩ := h.line j hj
    exact ⟨z, (hother j (hborn j z hz).ne).trans hz, hzpc⟩
  · intro j z caller scope q hz hreq
    by_cases heq : j = s.tickets
    · subst heq
      rw [hself] at hz
      obtain rfl := Option.some.inj hz
      refine ⟨?_, ?_, ?_, ?_⟩
      · rw [hpc]
        nofun
      · rw [hpc]
        nofun
      · rw [hpc]
        nofun
      · rw [houtcome]
        nofun
    · rw [hother j heq] at hz
      exact h.sound j z caller scope q hz hreq

theorem Pc.interrupted_cases {pc pc' : Pc} {e : Failure} (h : pc.interrupted e = some pc') :
    ∃ retry, pc' = .closing retry (.error e) ∧ pc.working = true ∧ pc.scoped = true := by
  unfold Pc.interrupted at h
  split at h
  · exact ⟨_, (Option.some.inj h).symm, rfl, rfl⟩
  · exact ⟨_, (Option.some.inj h).symm, rfl, rfl⟩
  · cases h

theorem step_isolated {s s' : State} {a : Action} (h : Isolated eval seen s)
    (hseen : seen ⟨s.db, s.grants⟩) (hs : step opts eval s a = some s') :
    Isolated eval seen s' := by
  cases a with
  | query caller scope args =>
    simp only [step] at hs
    split_ifs at hs <;> obtain rfl := Option.some.inj hs
    · exact h
    · refine Isolated.enqueue ?_ ?_ ?_
      · exact h.congr rfl rfl rfl rfl rfl
      · rfl
      · rfl
  | forgetCaller caller =>
    simp only [step] at hs
    split_ifs at hs <;> obtain rfl := Option.some.inj hs
    · exact h
    · refine Isolated.enqueue ?_ ?_ ?_
      · exact h.congr rfl rfl rfl rfl rfl
      · rfl
      · rfl
  | resume t o =>
    simp only [step] at hs
    split at hs
    · next x hx =>
      split at hs
      · next hreq => exact resumeQuery_isolated h hseen hx hreq hs
      · next hreq => exact resumeForget_isolated h hx hreq hs
    · cases hs
  | interrupt t e =>
    simp only [step] at hs
    split at hs
    · next x hx =>
      obtain ⟨pc, hpc, rfl⟩ := Option.map_eq_some_iff.mp hs
      obtain ⟨retry, rfl, hwork, hscoped⟩ := Pc.interrupted_cases hpc
      refine h.goto (.of_working hx hwork) _ rfl fun caller scope q hreq => ?_
      have hsound := h.sound t x caller scope q hx hreq
      exact ⟨fun _ => hsound.stands hscoped, nofun, nofun,
        hsound.unanswered (Holds.of_working hx hwork).live⟩
    · cases hs
  | late t =>
    simp only [step] at hs
    split at hs
    · next x hx =>
      split_ifs at hs with hlate
      obtain rfl := Option.some.inj hs
      exact Isolated.free (h.abandon (.of_working hx hlate.1) _)
    · cases hs
  | commit db =>
    obtain rfl := Option.some.inj hs
    exact h.congr rfl rfl rfl rfl rfl

end ClaudeFleet.QueryIsolation
