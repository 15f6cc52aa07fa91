import ClaudeFleet.QueryRevocation

/-! The books of the MCP query: a slot for each call whose work is awaited, a place in `pending` for
each call at its role's lock, and a line of bounded length for the slots. -/
namespace ClaudeFleet.QueryIsolation
open Transition

/-- How many of the first `n` entries meet `p`. -/
def census {α : Type} (p : α → Bool) (n : ℕ) (f : ℕ → Option α) : ℕ :=
  ∑ i ∈ Finset.range n, ((f i).any p).toNat

section Census
variable {α : Type} {p : α → Bool} {n : ℕ} {f : ℕ → Option α}

theorem census_update {t : ℕ} (ht : t < n) (x y : α) (hx : f t = some x) :
    census p n (Function.update f t (some y)) + (p x).toNat = census p n f + (p y).toNat := by
  have hmem : t ∈ Finset.range n := Finset.mem_range.mpr ht
  unfold census
  rw [← Finset.add_sum_erase _ _ hmem,
    ← Finset.add_sum_erase (Finset.range n) (fun i => ((f i).any p).toNat) hmem]
  have hrest : ∑ i ∈ (Finset.range n).erase t,
      ((Function.update f t (some y) i).any p).toNat =
        ∑ i ∈ (Finset.range n).erase t, ((f i).any p).toNat := by
    refine Finset.sum_congr rfl fun i hi => ?_
    rw [Function.update_of_ne (Finset.ne_of_mem_erase hi)]
  rw [hrest, Function.update_self, hx]
  simp only [Option.any_some]
  omega

theorem census_succ (y : α) :
    census p (n + 1) (Function.update f n (some y)) = census p n f + (p y).toNat := by
  unfold census
  rw [Finset.sum_range_succ, Function.update_self]
  congr 1
  refine Finset.sum_congr rfl fun i hi => ?_
  rw [Function.update_of_ne (Finset.mem_range.mp hi).ne]

theorem census_le {q : α → Bool} (h : ∀ x, p x = true → q x = true) :
    census p n f ≤ census q n f := by
  refine Finset.sum_le_sum fun i _ => ?_
  cases hi : f i with
  | none => simp
  | some x =>
    cases hp : p x with
    | false => simp [hp]
    | true => simp [hp, h x hp]

theorem census_congr {q : α → Bool} (h : ∀ i x, f i = some x → p x = q x) :
    census p n f = census q n f := by
  refine Finset.sum_congr rfl fun i _ => ?_
  cases hi : f i with
  | none => rfl
  | some x => simp [h i x hi]

theorem census_eq_zero (h : ∀ i x, f i = some x → p x = false) : census p n f = 0 := by
  refine Finset.sum_eq_zero fun i _ => ?_
  cases hi : f i with
  | none => rfl
  | some x => simp [h i x hi]

end Census

def State.count (s : State) (p : Task → Bool) : ℕ := census p s.tickets s.tasks

def Pc.isSlot : Pc → Bool
  | .slot => true
  | _ => false

def Pc.isStarting : Pc → Bool
  | .starting => true
  | _ => false

/-- The work has begun and not settled. -/
def Task.running (x : Task) : Bool := x.pc.working

/-- The call was given a slot, and has not given it back. -/
def Task.holding (x : Task) : Bool := (x.pc.isStarting || x.pc.working) && !x.abandoned

def Request.isQuery : Request → Bool
  | .query _ _ _ => true
  | .forget _ => false

/-- A query of the role that holds its lock or waits for it. -/
def Task.inLine (role : String) (x : Task) : Bool :=
  x.request.isQuery && decide (x.role = role) && !x.pc.isFinished

variable (opts : Options)

/-- The books, of which `spare` slots and a place in `pending` are still to be given back. -/
structure Accounted (spare : ℕ) (owed : Option String) (s : State) : Prop where
  unborn : ∀ t, s.tickets ≤ t → s.tasks t = none
  active : s.active = s.count Task.holding + spare
  cap : s.active ≤ opts.maxConcurrent
  full : s.waiting ≠ [] → s.active = opts.maxConcurrent
  room : s.waiting.length ≤ opts.maxQueued
  nodup : s.waiting.Nodup
  line : ∀ t, t ∈ s.waiting ↔ ∃ x, s.tasks t = some x ∧ x.pc = .slot
  fresh : ∀ t x, s.tasks t = some x → x.abandoned = true →
    x.pc.working = true ∨ x.pc = .finished
  pending : ∀ role,
    s.pending role = s.count (Task.inLine role) + (decide (owed = some role)).toNat

variable {opts} {spare : ℕ} {owed : Option String} {s : State} {t : ℕ} {x y : Task}

theorem Accounted.congr {s' : State} (h : Accounted opts spare owed s)
    (htasks : s'.tasks = s.tasks) (htickets : s'.tickets = s.tickets)
    (hactive : s'.active = s.active) (hwaiting : s'.waiting = s.waiting)
    (hpending : s'.pending = s.pending) : Accounted opts spare owed s' := by
  refine ⟨?_, ?_, ?_, ?_, ?_, ?_, ?_, ?_, ?_⟩
  · rw [htasks, htickets]
    exact h.unborn
  · rw [hactive, State.count, htasks, htickets]
    exact h.active
  · rw [hactive]
    exact h.cap
  · rw [hwaiting, hactive]
    exact h.full
  · rw [hwaiting]
    exact h.room
  · rw [hwaiting]
    exact h.nodup
  · rw [hwaiting, htasks]
    exact h.line
  · rw [htasks]
    exact h.fresh
  · simp only [hpending, State.count, htasks, htickets]
    exact h.pending

theorem Accounted.born (h : Accounted opts spare owed s) (hx : s.tasks t = some x) :
    t < s.tickets := by
  by_contra hle
  rw [h.unborn t (not_lt.mp hle)] at hx
  cases hx

/-- A task that is not in the line for a slot goes on. -/
theorem Accounted.put (h : Accounted opts spare owed s) (hx : s.tasks t = some x)
    (hslot : x.pc ≠ .slot) (hslot' : y.pc ≠ .slot) {spare' : ℕ} {owed' : Option String}
    (hhold : y.holding.toNat + spare' = x.holding.toNat + spare)
    (hline : ∀ role, (y.inLine role).toNat + (decide (owed' = some role)).toNat =
      (x.inLine role).toNat + (decide (owed = some role)).toNat)
    (hfresh : y.abandoned = true → y.pc.working = true ∨ y.pc = .finished) :
    Accounted opts spare' owed' (s.put t y) := by
  have hcount : ∀ p, (s.put t y).count p + (p x).toNat = s.count p + (p y).toNat :=
    fun p => census_update (h.born hx) x y hx
  refine ⟨?_, ?_, h.cap, h.full, h.room, h.nodup, ?_, ?_, ?_⟩
  · intro j hj
    have hne : j ≠ t := by
      rintro rfl
      exact absurd (h.born hx) (not_lt.mpr hj)
    exact (Function.update_of_ne hne ..).trans (h.unborn j hj)
  · have hactive := h.active
    have := hcount Task.holding
    show s.active = _
    omega
  · intro j
    rw [show (s.put t y).waiting = s.waiting from rfl, h.line j]
    by_cases hj : j = t
    · subst hj
      simp [State.put, hx, hslot, hslot']
    · simp [State.put, Function.update_of_ne hj]
  · intro j z hz
    by_cases hj : j = t
    · subst hj
      simp only [State.put, Function.update_self, Option.some.injEq] at hz
      exact hz ▸ hfresh
    · exact h.fresh j z ((Function.update_of_ne hj ..).symm.trans hz)
  · intro role
    have hpending := h.pending role
    have := hcount (Task.inLine role)
    have := hline role
    show s.pending role = _
    omega

/-- A freed slot goes to the first in line, or is counted as free. -/
theorem Accounted.free (h : Accounted opts (spare + 1) owed s) :
    Accounted opts spare owed s.free := by
  have hactive := h.active
  unfold State.free
  split
  · next hnil =>
    refine ⟨h.unborn, ?_, ?_, fun hne => absurd hnil hne, h.room, h.nodup, h.line, h.fresh,
      h.pending⟩
    · show s.active - 1 = s.count Task.holding + spare
      omega
    · exact (Nat.sub_le _ _).trans h.cap
  · next next rest hwaiting =>
    obtain ⟨x, hx, hpc⟩ := (h.line next).mp (by rw [hwaiting]; exact List.mem_cons_self)
    have hnodup := h.nodup
    rw [hwaiting] at hnodup
    obtain ⟨hnotin, hrest⟩ := List.nodup_cons.mp hnodup
    have hnew : x.abandoned = false := by
      rw [Bool.eq_false_iff]
      intro hlate
      rcases h.fresh next x hx hlate with hwork | hfin
      · rw [hpc] at hwork
        cases hwork
      · rw [hpc] at hfin
        cases hfin
    have hcount : ∀ p, census p s.tickets
        (Function.update s.tasks next (some { x with pc := .starting })) + (p x).toNat =
          s.count p + (p { x with pc := .starting }).toNat :=
      fun p => census_update (h.born hx) x _ hx
    rw [hx]
    refine ⟨?_, ?_, h.cap, ?_, ?_, hrest, ?_, ?_, ?_⟩
    · intro j hj
      have hne : j ≠ next := by
        rintro rfl
        exact absurd (h.born hx) (not_lt.mpr hj)
      exact (Function.update_of_ne hne ..).trans (h.unborn j hj)
    · have := hcount Task.holding
      have hbefore : x.holding = false := by simp [Task.holding, hpc, Pc.isStarting, Pc.working]
      have hafter : Task.holding { x with pc := .starting } = true := by
        simp [Task.holding, Pc.isStarting, hnew]
      rw [hbefore, hafter] at this
      simp only [Bool.toNat_true, Bool.toNat_false] at this
      show s.active = census Task.holding s.tickets
        (Function.update s.tasks next (some { x with pc := .starting })) + spare
      omega
    · exact fun _ => h.full (by rw [hwaiting]; exact List.cons_ne_nil _ _)
    · have hroom := h.room
      rw [hwaiting] at hroom
      exact (Nat.le_succ _).trans hroom
    · intro j
      have hline := h.line j
      rw [hwaiting] at hline
      by_cases hj : j = next
      · subst hj
        simp [hnotin]
      · simpa [Function.update_of_ne hj, hj] using hline
    · intro j z hz
      by_cases hj : j = next
      · subst hj
        simp only [Option.map_some, Function.update_self, Option.some.injEq] at hz
        rw [← hz, hnew]
        simp
      · exact h.fresh j z ((Function.update_of_ne hj ..).symm.trans hz)
    · intro role
      have := hcount (Task.inLine role)
      have hsame : Task.inLine role { x with pc := .starting } = x.inLine role := by
        simp [Task.inLine, hpc, Pc.isFinished]
      rw [hsame] at this
      have hpending := h.pending role
      show s.pending role = census (Task.inLine role) s.tickets
        (Function.update s.tasks next (some { x with pc := .starting })) + _
      omega

theorem Accounted.release {role : String} (h : Accounted opts spare (some role) s) (t : ℕ) :
    Accounted opts spare none (s.release t role) := by
  refine ⟨h.unborn, h.active, h.cap, h.full, h.room, h.nodup, h.line, h.fresh, ?_⟩
  intro r
  have hpending := h.pending r
  by_cases hr : r = role
  · subst hr
    simp only [decide_true, Bool.toNat_true] at hpending
    show Function.update s.pending r (s.pending r - 1) r = s.count (Task.inLine r) + 0
    rw [Function.update_self]
    omega
  · have hne : ¬ some role = some r := fun heq => hr (Option.some.inj heq).symm
    simp only [hne, decide_false, Bool.toNat_false] at hpending
    show Function.update s.pending role (s.pending role - 1) r = s.count (Task.inLine r) + 0
    rw [Function.update_of_ne hr]
    exact hpending

/-- A query past its slot. -/
structure Granted (s : State) (t : ℕ) (x : Task) : Prop where
  task : s.tasks t = some x
  query : x.request.isQuery = true
  pc : x.pc.isStarting = true ∨ x.pc.working = true

theorem Granted.slot (hx : Granted s t x) : x.pc ≠ .slot := by
  intro hpc
  have := hx.pc
  rw [hpc] at this
  simp [Pc.isStarting, Pc.working] at this

theorem Granted.live (hx : Granted s t x) : x.pc.isFinished = false := by
  have := hx.pc
  cases hpc : x.pc <;> simp_all [Pc.isStarting, Pc.working, Pc.isFinished]

theorem Granted.holding (hx : Granted s t x) : x.holding = !x.abandoned := by
  have := hx.pc
  simp [Task.holding, this]

theorem Pc.working_live {pc : Pc} (h : pc.working = true) :
    pc ≠ .slot ∧ pc.isFinished = false := by
  cases pc <;> simp_all [Pc.working, Pc.isFinished]

theorem Accounted.goto (h : Accounted opts 0 none s) (hx : Granted s t x) {pc : Pc}
    (hpc : pc.working = true) : Accounted opts 0 none (s.goto t x pc) := by
  obtain ⟨hslot, hlive⟩ := Pc.working_live hpc
  refine h.put hx.task hx.slot hslot ?_ ?_ (fun _ => Or.inl hpc)
  · rw [hx.holding]
    simp [Task.holding, hpc]
  · intro role
    simp [Task.inLine, hlive, hx.live]

/-- The work settles: a call that was awaited gives its slot back, and both give the lock back. -/
theorem Accounted.settle (h : Accounted opts 0 none s) (hx : Granted s t x)
    (result : Except Failure (List String)) : Accounted opts 0 none (s.settle t x result) := by
  have hput : ∀ outcome k, (!x.abandoned).toNat = k → Accounted opts k (some x.role)
      (s.put t { x with pc := .finished, outcome := outcome }) := by
    intro outcome k hk
    refine h.put hx.task hx.slot (by nofun) ?_ ?_ (fun _ => Or.inr rfl)
    · rw [hx.holding, hk]
      simp [Task.holding, Pc.isStarting, Pc.working]
    · intro role
      have hdone : Pc.isFinished .finished = true := rfl
      simp [Task.inLine, hdone, hx.query, hx.live]
  unfold State.settle
  split_ifs with hlate
  · have hdone := hput x.outcome 0 (by simp [hlate])
    exact hdone.release t
  · have hdone := hput (some result) 1 (by simp [hlate])
    exact hdone.free.release t

/-- The query ends before it has a slot. -/
theorem Accounted.refuse (h : Accounted opts 0 none s) (hx : s.tasks t = some x)
    (hquery : x.request.isQuery = true) (hpc : x.pc = .waiting) (e : Failure) :
    Accounted opts 0 none (s.refuse t x e) := by
  have hput : Accounted opts 0 (some x.role)
      (s.put t { x with pc := .finished, outcome := some (.error e) }) := by
    refine h.put hx (by rw [hpc]; nofun) (by nofun) ?_ ?_ (fun _ => Or.inr rfl)
    · simp [Task.holding, hpc, Pc.isStarting, Pc.working]
    · intro role
      simp [Task.inLine, hpc, Pc.isFinished, hquery]
  exact hput.release t

section Operations
variable {eval : Eval}

theorem Accounted.ensureRole (h : Accounted opts 0 none s) (hx : Granted s t x) (retry : Bool) :
    Accounted opts 0 none (s.ensureRole opts t x retry) := by
  unfold State.ensureRole
  split_ifs
  · exact h.goto hx rfl
  · exact h.goto hx rfl
  · exact h.settle hx _
  · refine Accounted.goto ?_ ?_ rfl
    · exact h.congr rfl rfl rfl rfl rfl
    · exact ⟨hx.task, hx.query, hx.pc⟩

theorem Accounted.runAs (h : Accounted opts 0 none s) (hx : Granted s t x) (q : QueryArgs)
    (retry : Bool) : Accounted opts 0 none (s.runAs t x q retry) := by
  unfold State.runAs
  split_ifs
  · exact h.settle hx _
  · exact h.goto hx rfl
  · exact h.settle hx _

theorem Accounted.ranAs (h : Accounted opts 0 none s) (hx : Granted s t x) (retry : Bool)
    (result : Except Failure (List String)) :
    Accounted opts 0 none (s.ranAs opts t x retry result) := by
  unfold State.ranAs
  split
  · split_ifs
    · refine Accounted.ensureRole ?_ ?_ true
      · exact h.congr rfl rfl rfl rfl rfl
      · exact ⟨hx.task, hx.query, hx.pc⟩
    · exact h.settle hx _
  · exact h.settle hx _

/-- A call past its lock takes a slot. -/
theorem Accounted.enter (h : Accounted opts 0 none s) (hx : s.tasks t = some x)
    (hpc : x.pc = .waiting) (hfree : s.active < opts.maxConcurrent) :
    Accounted opts 0 none ({ s with active := s.active + 1 }.goto t x .starting) := by
  have hnew : x.abandoned = false := by
    rw [Bool.eq_false_iff]
    intro hlate
    have := h.fresh t x hx hlate
    simp [hpc, Pc.working] at this
  have htaken : Accounted opts 1 none { s with active := s.active + 1 } := by
    refine ⟨h.unborn, ?_, hfree, ?_, h.room, h.nodup, h.line, h.fresh, h.pending⟩
    · have := h.active
      show s.active + 1 = s.count Task.holding + 1
      omega
    · intro hne
      have := h.full hne
      omega
  refine htaken.put hx (by simp [hpc]) (by simp) ?_ ?_ ?_
  · simp [Task.holding, hpc, hnew, Pc.isStarting, Pc.working]
  · intro role
    simp [Task.inLine, hpc, Pc.isFinished]
  · simp [hnew]

/-- A call past its lock joins the line for a slot. -/
theorem Accounted.wait (h : Accounted opts 0 none s) (hx : s.tasks t = some x)
    (hpc : x.pc = .waiting) (hfull : ¬ s.active < opts.maxConcurrent)
    (hroom : ¬ opts.maxQueued ≤ s.waiting.length) :
    Accounted opts 0 none ({ s with waiting := s.waiting ++ [t] }.goto t x .slot) := by
  have hcount : ∀ p, census p s.tickets
      (Function.update s.tasks t (some { x with pc := .slot })) + (p x).toNat =
        s.count p + (p { x with pc := .slot }).toNat :=
    fun p => census_update (h.born hx) x _ hx
  have hnotin : t ∉ s.waiting := by
    intro hin
    obtain ⟨z, hz, hzpc⟩ := (h.line t).mp hin
    rw [hx] at hz
    obtain rfl := Option.some.inj hz
    rw [hpc] at hzpc
    cases hzpc
  have hnew : x.abandoned = false := by
    rw [Bool.eq_false_iff]
    intro hlate
    have := h.fresh t x hx hlate
    simp [hpc, Pc.working] at this
  refine ⟨?_, ?_, h.cap, ?_, ?_, ?_, ?_, ?_, ?_⟩
  · intro j hj
    have hne : j ≠ t := by
      rintro rfl
      exact absurd (h.born hx) (not_lt.mpr hj)
    exact (Function.update_of_ne hne ..).trans (h.unborn j hj)
  · have := hcount Task.holding
    have hboth : x.holding = false ∧ Task.holding { x with pc := .slot } = false := by
      simp [Task.holding, hpc, Pc.isStarting, Pc.working]
    rw [hboth.1, hboth.2] at this
    have hactive := h.active
    show s.active = census Task.holding s.tickets
      (Function.update s.tasks t (some { x with pc := .slot })) + 0
    simp only [Bool.toNat_false] at this
    omega
  · have := h.cap
    intro _
    show s.active = opts.maxConcurrent
    omega
  · show (s.waiting ++ [t]).length ≤ opts.maxQueued
    rw [List.length_append, List.length_singleton]
    omega
  · exact h.nodup.append (List.nodup_singleton t) (List.disjoint_singleton.mpr hnotin)
  · intro j
    have hline := h.line j
    show j ∈ s.waiting ++ [t] ↔ _
    by_cases hj : j = t
    · subst hj
      simp [State.goto, State.put]
    · simpa [State.goto, State.put, Function.update_of_ne hj, hj] using hline
  · intro j z hz
    by_cases hj : j = t
    · subst hj
      simp only [State.goto, State.put, Function.update_self, Option.some.injEq] at hz
      rw [← hz, hnew]
      simp
    · exact h.fresh j z ((Function.update_of_ne hj ..).symm.trans hz)
  · intro role
    have := hcount (Task.inLine role)
    have hsame : Task.inLine role { x with pc := .slot } = x.inLine role := by
      simp [Task.inLine, hpc, Pc.isFinished]
    rw [hsame] at this
    have hpending := h.pending role
    show s.pending role = census (Task.inLine role) s.tickets
      (Function.update s.tasks t (some { x with pc := .slot })) + _
    omega

theorem resumeQuery_accounted {s' : State} {scope : Finset String} {q : QueryArgs} {o : Outcome}
    (h : Accounted opts 0 none s) (hx : s.tasks t = some x) (hquery : x.request.isQuery = true)
    (hs : s.resumeQuery opts eval t x scope q o = some s') : Accounted opts 0 none s' := by
  have hgrant : x.pc.isStarting = true ∨ x.pc.working = true → Granted s t x :=
    fun hpc => ⟨hx, hquery, hpc⟩
  unfold State.resumeQuery at hs
  split at hs
  case h_1 hpc =>
    split_ifs at hs with _ _ hfree hroom <;> obtain rfl := Option.some.inj hs
    · exact h.refuse hx hquery hpc removed
    · exact h.enter hx hpc hfree
    · exact h.refuse hx hquery hpc busy
    · exact h.wait hx hpc hfree hroom
  case h_2 hpc =>
    obtain rfl := Option.some.inj hs
    exact h.ensureRole (hgrant (by rw [hpc]; exact Or.inl rfl)) false
  case h_3 hpc =>
    have hx := hgrant (by rw [hpc]; exact Or.inr rfl)
    split at hs <;> obtain rfl := Option.some.inj hs
    · refine Accounted.goto ?_ ?_ rfl
      · exact h.congr rfl rfl rfl rfl rfl
      · exact ⟨hx.task, hx.query, hx.pc⟩
    · refine Accounted.settle ?_ ?_ _
      · exact h.congr rfl rfl rfl rfl rfl
      · exact ⟨hx.task, hx.query, hx.pc⟩
  case h_4 hpc =>
    obtain rfl := Option.some.inj hs
    exact h.runAs (hgrant (by rw [hpc]; exact Or.inr rfl)) q true
  case h_5 hpc =>
    have hx := hgrant (by rw [hpc]; exact Or.inr rfl)
    split_ifs at hs <;> obtain rfl := Option.some.inj hs
    · exact h.settle hx _
    · exact h.goto hx rfl
  case h_6 hpc =>
    have hx := hgrant (by rw [hpc]; exact Or.inr rfl)
    split at hs <;> obtain rfl := Option.some.inj hs
    · refine Accounted.runAs ?_ ?_ q false
      · exact h.congr rfl rfl rfl rfl rfl
      · exact ⟨hx.task, hx.query, hx.pc⟩
    · exact h.settle hx _
    · refine Accounted.settle ?_ ?_ _
      · exact h.congr rfl rfl rfl rfl rfl
      · exact ⟨hx.task, hx.query, hx.pc⟩
  case h_7 hpc =>
    have hx := hgrant (by rw [hpc]; exact Or.inr rfl)
    split at hs <;> obtain rfl := Option.some.inj hs
    · exact h.goto hx rfl
    · exact h.ranAs hx _ _
  case h_8 hpc =>
    have hx := hgrant (by rw [hpc]; exact Or.inr rfl)
    split at hs <;> obtain rfl := Option.some.inj hs
    · exact h.goto hx rfl
    · exact h.goto hx rfl
  case h_9 hpc =>
    have hx := hgrant (by rw [hpc]; exact Or.inr rfl)
    split at hs <;> obtain rfl := Option.some.inj hs
    · exact h.goto hx rfl
    · exact h.goto hx rfl
  case h_10 hpc =>
    obtain rfl := Option.some.inj hs
    exact h.ranAs (hgrant (by rw [hpc]; exact Or.inr rfl)) _ _
  all_goals cases hs

/-- `forgetCaller` is in no book. -/
theorem resumeForget_accounted {s' : State} {o : Outcome} (h : Accounted opts 0 none s)
    (hx : s.tasks t = some x) (hforget : x.request.isQuery = false)
    (hs : s.resumeForget t x o = some s') : Accounted opts 0 none s' := by
  have hgoto : ∀ pc : Pc, pc ≠ .slot → (pc.isStarting || pc.working) = false →
      x.pc ≠ .slot → (x.pc.isStarting || x.pc.working) = false → x.abandoned = false →
      Accounted opts 0 none (s.goto t x pc) := by
    intro pc hslot hidle hslot' hidle' hnew
    refine h.put hx hslot' hslot ?_ ?_ (by simp [hnew])
    · simp [Task.holding, hidle, hidle']
    · intro role
      simp [Task.inLine, hforget]
  have hnew : x.pc.working = false → x.pc.isFinished = false → x.abandoned = false := by
    intro hwork hfin
    rw [Bool.eq_false_iff]
    intro hlate
    rcases h.fresh t x hx hlate with h₁ | h₁
    · rw [hwork] at h₁
      cases h₁
    · rw [h₁] at hfin
      cases hfin
  unfold State.resumeForget at hs
  split at hs
  · next hpc =>
    split_ifs at hs
    obtain rfl := Option.some.inj hs
    exact hgoto .ending (by nofun) rfl (by rw [hpc]; nofun) (by rw [hpc]; rfl)
      (hnew (by rw [hpc]; rfl) (by rw [hpc]; rfl))
  · next hpc =>
    have hnew := hnew (by rw [hpc]; rfl) (by rw [hpc]; rfl)
    split at hs <;> obtain rfl := Option.some.inj hs
    · exact (hgoto .dropping (by nofun) rfl (by rw [hpc]; nofun) (by rw [hpc]; rfl) hnew).congr
        rfl rfl rfl rfl rfl
    · exact (hgoto .finished (by nofun) rfl (by rw [hpc]; nofun) (by rw [hpc]; rfl) hnew).congr
        rfl rfl rfl rfl rfl
  · next hpc =>
    have hnew := hnew (by rw [hpc]; rfl) (by rw [hpc]; rfl)
    have hdone := hgoto .finished (by nofun) rfl (by rw [hpc]; nofun) (by rw [hpc]; rfl) hnew
    split at hs <;> obtain rfl := Option.some.inj hs
    · exact hdone.congr rfl rfl rfl rfl rfl
    · exact hdone.congr rfl rfl rfl rfl rfl
  · cases hs

theorem Accounted.enqueue (h : Accounted opts 0 owed s) (hpc : y.pc = .waiting)
    (hnew : y.abandoned = false)
    (howed : ∀ role, (decide (owed = some role)).toNat = (y.inLine role).toNat) :
    Accounted opts 0 none (s.enqueue y) := by
  have hcount : ∀ p, (s.enqueue y).count p = s.count p + (p y).toNat := fun p => census_succ y
  have hborn : ∀ j, (s.enqueue y).tasks j = if j = s.tickets then some y else s.tasks j :=
    fun j => Function.update_apply ..
  refine ⟨?_, ?_, h.cap, h.full, h.room, h.nodup, ?_, ?_, ?_⟩
  · intro j hj
    have hlt : s.tickets < j := hj
    rw [hborn, if_neg hlt.ne']
    exact h.unborn j hlt.le
  · have hactive := h.active
    have := hcount Task.holding
    have hidle : y.holding = false := by simp [Task.holding, hpc, Pc.isStarting, Pc.working]
    rw [hidle] at this
    simp only [Bool.toNat_false] at this
    show s.active = _
    omega
  · intro j
    rw [show (s.enqueue y).waiting = s.waiting from rfl, h.line j, hborn]
    split_ifs with hj
    · simp [hj, h.unborn s.tickets le_rfl, hpc]
    · rfl
  · intro j z hz
    rw [hborn] at hz
    split_ifs at hz
    · rw [← Option.some.inj hz, hnew]
      simp
    · exact h.fresh j z hz
  · intro role
    have hpending := h.pending role
    have := hcount (Task.inLine role)
    have := howed role
    show s.pending role = _ + (decide (none = some role)).toNat
    simp only [reduceCtorEq, decide_false, Bool.toNat_false]
    omega

/-- The query that is late gives its slot back, and keeps its place at the lock. -/
theorem Accounted.abandon (h : Accounted opts 0 none s) (hx : s.tasks t = some x)
    (hwork : x.pc.working = true) (hnew : x.abandoned = false) (e : Failure) :
    Accounted opts 0 none
      (s.put t { x with abandoned := true, outcome := some (.error e) }).free := by
  have hslot := (Pc.working_live hwork).1
  have hput : Accounted opts 1 none
      (s.put t { x with abandoned := true, outcome := some (.error e) }) := by
    refine h.put hx hslot ?_ ?_ ?_ ?_
    · exact hslot
    · simp [Task.holding, hwork, hnew]
    · exact fun _ => rfl
    · exact fun _ => Or.inl hwork
  exact hput.free

theorem step_accounted {s' : State} {a : Action} (h : Accounted opts 0 none s)
    (hs : step opts eval s a = some s') : Accounted opts 0 none s' := by
  cases a with
  | query caller scope args =>
    simp only [step] at hs
    split_ifs at hs <;> obtain rfl := Option.some.inj hs
    · exact h
    · have hplace : Accounted opts 0 (some (opts.roleFor caller))
          { s with
            pending := Function.update s.pending (opts.roleFor caller)
              (s.pending (opts.roleFor caller) + 1) } := by
        refine ⟨h.unborn, h.active, h.cap, h.full, h.room, h.nodup, h.line, h.fresh, ?_⟩
        intro role
        have hpending := h.pending role
        simp only [reduceCtorEq, decide_false, Bool.toNat_false, Nat.add_zero] at hpending
        show Function.update s.pending _ _ role = s.count (Task.inLine role) + _
        by_cases hr : role = opts.roleFor caller
        · subst hr
          simp [hpending]
        · have hne : ¬ some (opts.roleFor caller) = some role :=
            fun heq => hr (Option.some.inj heq).symm
          simp [hr, hne, hpending]
      refine hplace.enqueue rfl rfl ?_
      intro role
      simp [Task.inLine, Request.isQuery, Pc.isFinished]
  | forgetCaller caller =>
    simp only [step] at hs
    split_ifs at hs <;> obtain rfl := Option.some.inj hs
    · exact h
    · refine Accounted.enqueue (h.congr ?_ ?_ ?_ ?_ ?_) rfl rfl ?_
      all_goals first | rfl | skip
      intro role
      simp [Task.inLine, Request.isQuery]
  | resume t o =>
    simp only [step] at hs
    split at hs
    · next x hx =>
      split at hs
      · next hreq => exact resumeQuery_accounted h hx (by rw [hreq]; rfl) hs
      · next hreq => exact resumeForget_accounted h hx (by rw [hreq]; rfl) hs
    · cases hs
  | interrupt t e =>
    simp only [step] at hs
    split at hs
    · next x hx =>
      obtain ⟨pc, hpc, rfl⟩ := Option.map_eq_some_iff.mp hs
      obtain ⟨hwork, hwork'⟩ : x.pc.working = true ∧ pc.working = true := by
        cases hxpc : x.pc <;> simp_all [Pc.interrupted, Pc.working] <;> subst hpc <;> rfl
      obtain ⟨hslot, hlive⟩ := Pc.working_live hwork
      obtain ⟨hslot', hlive'⟩ := Pc.working_live hwork'
      refine h.put hx hslot hslot' ?_ ?_ (fun _ => Or.inl hwork')
      · simp [Task.holding, hwork, hwork']
      · intro role
        simp [Task.inLine, hlive, hlive']
    · cases hs
  | late t =>
    simp only [step] at hs
    split at hs
    · next x hx =>
      split_ifs at hs with hlate
      obtain rfl := Option.some.inj hs
      exact h.abandon hx hlate.1 hlate.2 _
    · cases hs
  | commit db =>
    obtain rfl := Option.some.inj hs
    exact h.congr rfl rfl rfl rfl rfl

end Operations

/-- A `PgQueryIsolation` as it is constructed. -/
structure Constructed (s : State) : Prop extends Idle s where
  active : s.active = 0
  pending : ∀ role, s.pending role = 0

theorem Constructed.accounted (h : Constructed s) : Accounted opts 0 none s := by
  have hcount : ∀ p, s.count p = 0 := by
    intro p
    refine census_eq_zero fun i x hx => ?_
    rw [h.tasks i] at hx
    cases hx
  refine ⟨fun t _ => h.tasks t, ?_, ?_, ?_, ?_, ?_, ?_, ?_, ?_⟩
  · rw [h.active, hcount]
  · rw [h.active]
    exact Nat.zero_le _
  · exact fun hne => absurd h.waiting hne
  · rw [h.waiting]
    exact Nat.zero_le _
  · rw [h.waiting]
    exact List.nodup_nil
  · intro t
    simp [h.waiting, h.tasks t]
  · intro t x hx
    rw [h.tasks t] at hx
    cases hx
  · intro role
    rw [h.pending, hcount]
    rfl

/-- The tasks in the line are those that wait for a slot. -/
theorem Accounted.waiting_length (h : Accounted opts spare owed s) :
    s.count (fun x => x.pc.isSlot) = s.waiting.length := by
  have hset : ((Finset.range s.tickets).filter fun i =>
      (s.tasks i).any (fun x => x.pc.isSlot) = true) = s.waiting.toFinset := by
    ext i
    rw [Finset.mem_filter, List.mem_toFinset, h.line i, Option.any_eq_true]
    constructor
    · rintro ⟨-, x, hx, hslot⟩
      refine ⟨x, hx, ?_⟩
      cases hpc : x.pc <;> simp_all [Pc.isSlot]
    · rintro ⟨x, hx, hslot⟩
      exact ⟨Finset.mem_range.mpr (h.born hx), x, hx, by rw [hslot]; rfl⟩
  rw [← List.toFinset_card_of_nodup h.nodup, ← hset, Finset.card_filter, State.count, census]
  refine Finset.sum_congr rfl fun i _ => ?_
  cases (s.tasks i).any fun x => x.pc.isSlot <;> rfl

/-- In every run the calls whose work is awaited are within the bound, `pending` counts the queries
of a role that have not given its lock back, the line for a slot is within its bound, and once no
call has a slot all slots are free and nobody waits. -/
theorem admission_accounted (opts : Options) (eval : Eval) (s₀ : State) (h₀ : Constructed s₀)
    (as : List Action) (s : State) (hrun : run (step opts eval) s₀ as = some s) :
    s.count (fun x => x.running && !x.abandoned) ≤ opts.maxConcurrent ∧
    (∀ role, s.pending role = ((Finset.range s.tickets).filter fun t =>
      (s.tasks t).any (fun x => x.request.isQuery && x.role = role) = true ∧
        s.released t = false).card) ∧
    s.count (fun x => x.pc.isSlot) ≤ opts.maxQueued ∧
    ((∀ t x, s.tasks t = some x → x.pc ≠ .starting ∧ (x.running = true → x.abandoned = true)) →
      s.active = 0 ∧ (0 < opts.maxConcurrent → s.waiting = [] ∧
        ∀ t x, s.tasks t = some x → x.pc ≠ .slot)) := by
  have hacc : Accounted opts 0 none s :=
    run_invariant (fun _ _ _ h hs => step_accounted h hs) h₀.accounted hrun
  have hiso := (run_isolated h₀.toIdle hrun).1
  refine ⟨?_, ?_, ?_, ?_⟩
  · have hle : s.count (fun x => x.running && !x.abandoned) ≤ s.count Task.holding := by
      refine census_le fun x hx => ?_
      simp_all [Task.running, Task.holding]
    have hactive := hacc.active
    exact hle.trans (by rw [← Nat.add_zero (s.count Task.holding), ← hactive]; exact hacc.cap)
  · intro role
    have hpending := hacc.pending role
    simp only [reduceCtorEq, decide_false, Bool.toNat_false, Nat.add_zero] at hpending
    rw [hpending, Finset.card_filter, State.count, census]
    refine Finset.sum_congr rfl fun t _ => ?_
    cases hx : s.tasks t with
    | none => rfl
    | some x =>
      have hreleased := hiso.released t x hx
      rw [hreleased]
      simp only [Option.any_some, Task.inLine]
      split_ifs with hin
      · rw [Bool.toNat_eq_one, hin.1, hin.2]
        rfl
      · rw [Bool.toNat_eq_zero, Bool.eq_false_iff]
        simpa using hin
  · rw [hacc.waiting_length]
    exact hacc.room
  · intro hnone
    have hzero : s.active = 0 := by
      rw [hacc.active, State.count, census_eq_zero]
      intro t x hx
      obtain ⟨hstart, hwork⟩ := hnone t x hx
      have hstart' : x.pc.isStarting = false := by
        cases hpc : x.pc <;> simp_all [Pc.isStarting]
      rw [Task.holding, hstart', Bool.false_or]
      cases hw : x.pc.working with
      | false => rfl
      | true => rw [hwork hw]; rfl
    refine ⟨hzero, fun hpos => ?_⟩
    have hempty : s.waiting = [] := by
      by_contra hne
      have := hacc.full hne
      omega
    refine ⟨hempty, fun t x hx hslot => ?_⟩
    have hin := (hacc.line t).mpr ⟨x, hx, hslot⟩
    rw [hempty] at hin
    cases hin

/-- Each caller has its own role. -/
def ownRoles (maxConcurrent : ℕ) : Options where
  callerRole := id
  maxConcurrent := maxConcurrent

theorem constructed_idle (db : List Row) : Constructed (idle db) :=
  ⟨idle_idle db, rfl, fun _ => rfl⟩

/-- Two callers, of which the second waits for the slot of the first. -/
def oneWaits : List Action :=
  [.query "a" {"a"} lists, .query "b" {"b"} lists, .resume 0 .ok, .resume 1 .ok, .resume 0 .ok]

theorem admission_accounted_oneWaits :
    ((run (step (ownRoles 1) listing) (idle []) oneWaits).any fun s =>
      s.count (fun x => x.running && !x.abandoned) = 1 && s.count (fun x => x.pc.isSlot) = 1) =
        true ∧
    ∀ s, run (step (ownRoles 1) listing) (idle []) oneWaits = some s →
      s.count (fun x => x.running && !x.abandoned) ≤ 1 :=
  ⟨by decide +kernel, fun s hrun =>
    (admission_accounted (ownRoles 1) listing (idle []) (constructed_idle _) oneWaits s hrun).1⟩

/-- The first is late, and the second gets its slot. -/
def lateOverlap : List Action := oneWaits ++ ([.late 0, .resume 1 .ok] : List Action)

theorem exists_of_any {r : Option State} {p : State → Bool} (h : r.any p = true) :
    ∃ s, r = some s ∧ p s = true :=
  (Option.any_eq_true _ _).mp h

/-- The work of a call that is late goes on beside the work of the call that got its slot; a call
has a slot before its work begins; and where there are no slots a call waits for ever. -/
theorem admission_exceeded :
    (∃ s, run (step (ownRoles 1) listing) (idle []) lateOverlap = some s ∧
      (ownRoles 1).maxConcurrent < s.count Task.running) ∧
    (∃ s, run (step (ownRoles 1) listing) (idle []) [.query "a" {"a"} lists, .resume 0 .ok] =
        some s ∧ s.count Task.running = 0 ∧ s.active = 1) ∧
    ∃ s, run (step (ownRoles 0) listing) (idle []) [.query "a" {"a"} lists, .resume 0 .ok] =
        some s ∧ s.count Task.running = 0 ∧ s.waiting = [0] := by
  refine ⟨?_, ?_, ?_⟩
  · obtain ⟨s, hs, h⟩ := exists_of_any
      (r := run (step (ownRoles 1) listing) (idle []) lateOverlap)
      (p := fun s => decide ((ownRoles 1).maxConcurrent < s.count Task.running))
      (by decide +kernel)
    exact ⟨s, hs, of_decide_eq_true h⟩
  · obtain ⟨s, hs, h⟩ := exists_of_any
      (r := run (step (ownRoles 1) listing) (idle []) [.query "a" {"a"} lists, .resume 0 .ok])
      (p := fun s => decide (s.count Task.running = 0 ∧ s.active = 1)) (by decide +kernel)
    exact ⟨s, hs, of_decide_eq_true h⟩
  · obtain ⟨s, hs, h⟩ := exists_of_any
      (r := run (step (ownRoles 0) listing) (idle []) [.query "a" {"a"} lists, .resume 0 .ok])
      (p := fun s => decide (s.count Task.running = 0 ∧ s.waiting = [0])) (by decide +kernel)
    exact ⟨s, hs, of_decide_eq_true h⟩

end ClaudeFleet.QueryIsolation
