import Mathlib.Tactic
import ClaudeFleet.CapturePolicy

/-! What a change of the capture settings does to the number of captures along the signals of a
session: exactly which of the changes that need no approval never raise it. -/
namespace ClaudeFleet.Capture

/-- The captures of a session along its signals. -/
def triggers (cfg : CapturePolicyConfig) (prior : Bool) :
    Option SessionCaptureState → List (ℤ × Signals) → ℕ
  | _, [] => 0
  | state, x :: rest =>
    let r := decideCapture x.2 state prior cfg x.1
    (if r.1.isSome then 1 else 0) + triggers cfg prior (some r.2) rest

def finalState (cfg : CapturePolicyConfig) (prior : Bool) :
    Option SessionCaptureState → List (ℤ × Signals) → Option SessionCaptureState
  | state, [] => state
  | state, x :: rest =>
    finalState cfg prior (some (decideCapture x.2 state prior cfg x.1).2) rest

/-- Neither the clock nor the counts of the session go back. -/
def Trajectory (signals : List (ℤ × Signals)) : Prop :=
  signals.Pairwise fun x y =>
    x.1 ≤ y.1 ∧ x.2.userTurns ≤ y.2.userTurns ∧ x.2.compactions ≤ y.2.compactions

/-- The counts of the session do not go back; the clock may. -/
def Progress (signals : List (ℤ × Signals)) : Prop :=
  signals.Pairwise fun x y =>
    x.2.userTurns ≤ y.2.userTurns ∧ x.2.compactions ≤ y.2.compactions

theorem Trajectory.progress {signals : List (ℤ × Signals)} (h : Trajectory signals) :
    Progress signals :=
  h.imp fun hxy => hxy.2

theorem triggers_eq_zero {cfg : CapturePolicyConfig} {prior : Bool} (hbands : cfg.bands = [])
    (hturns : cfg.turnsEvery = 0) {state : Option SessionCaptureState}
    {signals : List (ℤ × Signals)} : triggers cfg prior state signals = 0 := by
  induction signals generalizing state with
  | nil => rfl
  | cons x rest ih =>
    have hnone : (decideCapture x.2 state prior cfg x.1).1.isSome = false := by
      rw [Bool.eq_false_iff, Ne, decide_isSome]
      simp [BandDue, TurnsDue, hbands, hturns]
    simp [triggers, hnone, ih]

theorem triggers_append (cfg : CapturePolicyConfig) (prior : Bool)
    (state : Option SessionCaptureState) (xs ys : List (ℤ × Signals)) :
    triggers cfg prior state (xs ++ ys) =
      triggers cfg prior state xs + triggers cfg prior (finalState cfg prior state xs) ys := by
  induction xs generalizing state with
  | nil => simp [triggers, finalState]
  | cons x xs ih =>
    simp only [List.cons_append, triggers, finalState, ih]
    omega

theorem finalState_append (cfg : CapturePolicyConfig) (prior : Bool)
    (state : Option SessionCaptureState) (xs ys : List (ℤ × Signals)) :
    finalState cfg prior state (xs ++ ys) =
      finalState cfg prior (finalState cfg prior state xs) ys := by
  induction xs generalizing state with
  | nil => rfl
  | cons x xs ih => exact ih _

/-! Settings that never cost more. -/

/-- One policy never captures sooner than another: it has no bands, or one band and no periodic
capture. -/
structure Cheaper (A B : CapturePolicyConfig) : Prop where
  interval : A.minIntervalMs = B.minIntervalMs
  turns : 0 < A.turnsEvery → 0 < B.turnsEvery ∧ B.turnsEvery ≤ A.turnsEvery
  bands : A.bands = [] ∨
    A.turnsEvery = 0 ∧ ∃ a, A.bands = [a] ∧ ∃ b ∈ B.bands, b ≤ a

/-- At equal counts the second policy captured no later than the first. -/
structure Level (A : CapturePolicyConfig) (sa sb : SessionCaptureState) : Prop where
  last : ∀ t, sb.lastCaptureAt = some t → ∃ u, sa.lastCaptureAt = some u ∧ t ≤ u
  turns : sb.turnsAtLastCapture ≤ sa.turnsAtLastCapture
  fired : A.bands ≠ [] → sa.fired = [] → sb.fired = []

/-- The second policy is `d` captures ahead of the first. -/
structure Lead (A : CapturePolicyConfig) (now : ℤ) (turns d : ℕ) (sa sb : SessionCaptureState) :
    Prop where
  seen : sa.compactionsSeen = sb.compactionsSeen
  own : ∀ b ∈ sa.fired, b ∈ A.bands
  last : ∀ t, sb.lastCaptureAt = some t → t ≤ now
  turns : sb.turnsAtLastCapture ≤ turns
  level : d = 0 → Level A sa sb

section Sufficient
variable {A B : CapturePolicyConfig} {sa sb : SessionCaptureState} {now : ℤ}
  {sig : Signals} {d : ℕ}

theorem Lead.opened (h : Lead A now sig.userTurns d sa sb) :
    Lead A now sig.userTurns d (opened sig sa) (opened sig sb) := by
  unfold Capture.opened
  rw [← h.seen]
  split_ifs with hlt
  · refine ⟨rfl, by simp, h.last, h.turns, ?_⟩
    intro hd
    exact ⟨(h.level hd).last, (h.level hd).turns, fun _ _ => rfl⟩
  · exact h

theorem blocked_of_level (hc : Cheaper A B) (h : Level A sa sb)
    (hfree : blocked A now sa = false) : blocked B now sb = false := by
  cases hb : sb.lastCaptureAt with
  | none => simp [blocked, hb]
  | some t =>
    obtain ⟨u, hu, hle⟩ := h.last t hb
    simp only [blocked, hu, Option.any_some, decide_eq_false_iff_not, not_lt] at hfree
    simp only [blocked, hb, Option.any_some, decide_eq_false_iff_not, not_lt]
    rw [← hc.interval]
    omega

/-- At equal counts, whatever makes the first policy capture makes the second capture. -/
theorem due_of_level (hc : Cheaper A B) (h : Level A sa sb) (hown : ∀ b ∈ sa.fired, b ∈ A.bands)
    (hdue : BandDue A sig sa ∨ TurnsDue A sig sa) : BandDue B sig sb ∨ TurnsDue B sig sb := by
  rcases hdue with ⟨a, ha, hle, hnot⟩ | ⟨hpos, hdue⟩
  · rcases hc.bands with hnil | ⟨-, a', hbands, b, hb, hba⟩
    · rw [hnil] at ha
      cases ha
    · have haa : a = a' := by simpa [hbands] using ha
      have hfired : sa.fired = [] := by
        apply List.eq_nil_iff_forall_not_mem.mpr
        intro x hx
        have hxa : x = a' := by simpa [hbands] using hown x hx
        exact hnot (haa ▸ hxa ▸ hx)
      refine Or.inl ⟨b, hb, hba.trans (haa ▸ hle), ?_⟩
      rw [h.fired (by simp [hbands]) hfired]
      simp
  · obtain ⟨hposB, hleB⟩ := hc.turns hpos
    have hturns := h.turns
    exact Or.inr ⟨hposB, by omega⟩

/-- One signal: the captures of the first policy are covered by the lead and the captures of the
second, and the rest of the lead remains. -/
theorem Lead.step (prior : Bool) (hc : Cheaper A B) (h : Lead A now sig.userTurns d sa sb) :
    ∃ d', (if (decideCapture sig (some sa) prior A now).1.isSome then 1 else 0) + d' =
        (if (decideCapture sig (some sb) prior B now).1.isSome then 1 else 0) + d ∧
      Lead A now sig.userTurns d' (decideCapture sig (some sa) prior A now).2
        (decideCapture sig (some sb) prior B now).2 := by
  have ho : Lead A now sig.userTurns d (before sig (some sa) prior) (before sig (some sb) prior) :=
    h.opened
  cases hA : (decideCapture sig (some sa) prior A now).1.isSome with
  | false =>
    cases hB : (decideCapture sig (some sb) prior B now).1.isSome with
    | false =>
      rw [decide_none hA, decide_none hB]
      exact ⟨d, by simp, ho⟩
    | true =>
      obtain ⟨fired, heq, -, -, -⟩ := decide_some hB
      rw [decide_none hA, heq]
      refine ⟨d + 1, by simp; omega, ho.seen, ho.own, ?_, le_rfl, by simp⟩
      intro t ht
      exact (Option.some.inj ht).symm.le
  | true =>
    obtain ⟨hfree, hdue⟩ := decide_isSome.mp hA
    obtain ⟨firedA, heqA, hownA, -, hbandA⟩ := decide_some hA
    have hown : ∀ b ∈ firedA, b ∈ A.bands := by
      intro b hb
      rcases hownA b hb with hold | hin
      · exact ho.own b hold
      · exact hin
    -- a capture leaves a band fired unless there are none
    have hnil : A.bands ≠ [] → firedA ≠ [] := by
      intro hne
      have hband : BandDue A sig (before sig (some sa) prior) := by
        rcases hdue with hband | hturns
        · exact hband
        · rcases hc.bands with hempty | ⟨hzero, -⟩
          · exact absurd hempty hne
          · exact absurd hturns.1 (by omega)
      obtain ⟨b, -, hb⟩ := hbandA hband
      exact List.ne_nil_of_mem hb
    cases hB : (decideCapture sig (some sb) prior B now).1.isSome with
    | false =>
      cases d with
      | zero =>
        have hlevel := ho.level rfl
        have hB' := decide_isSome.mpr ⟨blocked_of_level hc hlevel hfree,
          due_of_level hc hlevel ho.own hdue⟩
        rw [hB] at hB'
        cases hB'
      | succ d =>
        rw [decide_none hB, heqA]
        refine ⟨d, by simp; omega, ho.seen, hown, ho.last, ho.turns, ?_⟩
        intro _
        exact ⟨fun t ht => ⟨now, rfl, ho.last t ht⟩, ho.turns,
          fun hne hfired => absurd hfired (hnil hne)⟩
    | true =>
      obtain ⟨firedB, heqB, -, -, -⟩ := decide_some hB
      rw [heqA, heqB]
      refine ⟨d, rfl, ho.seen, hown, ?_, le_rfl, ?_⟩
      · intro t ht
        exact (Option.some.inj ht).symm.le
      · intro _
        refine ⟨?_, le_rfl, fun hne hfired => absurd hfired (hnil hne)⟩
        intro t ht
        exact ⟨now, rfl, (Option.some.inj ht).symm.le⟩

theorem Lead.later {turns turns' : ℕ} {now' : ℤ} (h : Lead A now turns d sa sb)
    (hnow : now ≤ now') (hturns : turns ≤ turns') : Lead A now' turns' d sa sb := by
  refine ⟨h.seen, h.own, fun t ht => (h.last t ht).trans hnow, ?_, h.level⟩
  have := h.turns
  omega

theorem triggers_le_of_lead (prior : Bool) (hc : Cheaper A B) (signals : List (ℤ × Signals)) :
    ∀ {d turns : ℕ} {now : ℤ} {sa sb : SessionCaptureState}, Trajectory signals →
      Lead A now turns d sa sb → (∀ x ∈ signals, now ≤ x.1 ∧ turns ≤ x.2.userTurns) →
      triggers A prior (some sa) signals ≤ triggers B prior (some sb) signals + d := by
  induction signals with
  | nil =>
    intro d turns now sa sb _ _ _
    simp [triggers]
  | cons x rest ih =>
    intro d turns now sa sb htraj hlead hbound
    obtain ⟨hfirst, hrest⟩ := List.pairwise_cons.mp htraj
    obtain ⟨hnow, hturns⟩ := hbound x List.mem_cons_self
    obtain ⟨d', heq, hlead'⟩ := Lead.step prior hc (hlead.later hnow hturns)
    have := ih hrest hlead' fun y hy => ⟨(hfirst y hy).1, (hfirst y hy).2.1⟩
    simp only [triggers]
    omega

/-- From the initial state the cheaper policy never captures more. -/
theorem triggers_le_of_cheaper (prior : Bool) (hc : Cheaper A B) {signals : List (ℤ × Signals)}
    (htraj : Trajectory signals) :
    triggers A prior none signals ≤ triggers B prior none signals := by
  cases signals with
  | nil => exact le_rfl
  | cons x rest =>
    have hlead : Lead A x.1 x.2.userTurns 0 (initialState x.2 prior) (initialState x.2 prior) := by
      refine ⟨rfl, by simp [initialState], by simp [initialState], ?_, ?_⟩
      · unfold initialState
        split_ifs
        · exact le_rfl
        · exact Int.natCast_nonneg _
      · intro _
        exact ⟨by simp [initialState], le_rfl, fun _ _ => rfl⟩
    have hbound : ∀ y ∈ x :: rest, x.1 ≤ y.1 ∧ x.2.userTurns ≤ y.2.userTurns := by
      intro y hy
      rcases List.mem_cons.mp hy with rfl | hy
      · exact ⟨le_rfl, le_rfl⟩
      · have := (List.pairwise_cons.mp htraj).1 y hy
        exact ⟨this.1, this.2.1⟩
    have := triggers_le_of_lead prior hc _ htraj hlead hbound
    simpa [triggers, decideCapture] using this

end Sufficient

/-! Settings that cost more on some signals. The second policy is made to capture eight minutes
before the first, and then, in a new epoch and while the first still waits, to spend all its bands
in one capture. -/

/-- A state in which just the bands up to `g` have fired. -/
structure Looks (cfg : CapturePolicyConfig) (s : SessionCaptureState) (last : Option ℤ) (turns : ℤ)
    (seen : ℕ) (g : ℚ) : Prop where
  last : s.lastCaptureAt = last
  turns : s.turnsAtLastCapture = turns
  seen : s.compactionsSeen = seen
  fired : ∀ b ∈ cfg.bands, b ∈ s.fired ↔ b ≤ g

/-- The threshold `g` as signals with `c` compactions find it. -/
def Opens (seen : ℕ) (g : ℚ) (c : ℕ) (g' : ℚ) : Prop :=
  seen = c ∧ g' = g ∨ seen < c ∧ g' = 0

section Looks
variable {cfg : CapturePolicyConfig} {s : SessionCaptureState} {last : Option ℤ} {turns now : ℤ}
  {seen : ℕ} {g g' : ℚ} {sig : Signals}

theorem Looks.opened (h : Looks cfg s last turns seen g) (hpos : ∀ b ∈ cfg.bands, 0 < b)
    (hg : Opens seen g sig.compactions g') (prior : Bool) :
    Looks cfg (before sig (some s) prior) last turns sig.compactions g' := by
  simp only [before, Option.getD_some, Capture.opened]
  rcases hg with ⟨heq, rfl⟩ | ⟨hlt, rfl⟩
  · rw [if_neg (by rw [h.seen, heq]; exact lt_irrefl _)]
    exact ⟨h.last, h.turns, h.seen.trans heq, h.fired⟩
  · rw [if_pos (by rw [h.seen]; exact hlt)]
    refine ⟨h.last, h.turns, rfl, ?_⟩
    intro b hb
    have := hpos b hb
    constructor
    · intro hmem
      cases hmem
    · intro hle
      exact absurd this (not_lt.mpr hle)

theorem Looks.free (h : Looks cfg s last turns seen g)
    (hfree : ∀ t, last = some t → cfg.minIntervalMs ≤ now - t) : blocked cfg now s = false := by
  cases hl : last with
  | none => simp [blocked, h.last, hl]
  | some t =>
    have := hfree t hl
    simp only [blocked, h.last, hl, Option.any_some, decide_eq_false_iff_not]
    omega

theorem Looks.bandDue (h : Looks cfg s last turns seen g) :
    BandDue cfg sig s ↔ ∃ b ∈ cfg.bands, g < b ∧ b ≤ sig.fill := by
  constructor
  · rintro ⟨b, hb, hle, hnot⟩
    exact ⟨b, hb, not_le.mp fun hg => hnot ((h.fired b hb).mpr hg), hle⟩
  · rintro ⟨b, hb, hlt, hle⟩
    exact ⟨b, hb, hle, fun hmem => absurd ((h.fired b hb).mp hmem) (not_le.mpr hlt)⟩

theorem Looks.waits {t : ℤ} (h : Looks cfg s (some t) turns seen g) (prior : Bool) (now : ℤ)
    (sig : Signals)
    (hpos : ∀ b ∈ cfg.bands, 0 < b) (hg : Opens seen g sig.compactions g')
    (hlt : now - t < cfg.minIntervalMs) :
    (decideCapture sig (some s) prior cfg now).1.isSome = false ∧
      Looks cfg (decideCapture sig (some s) prior cfg now).2 (some t) turns sig.compactions g' := by
  have ho := h.opened hpos hg prior
  have hb : blocked cfg now (before sig (some s) prior) = true := by
    simp [blocked, ho.last, hlt]
  rw [decide_blocked hb]
  exact ⟨rfl, ho⟩

theorem Looks.firesBand (h : Looks cfg s last turns seen g) (prior : Bool) (now : ℤ)
    (sig : Signals)
    (hpos : ∀ b ∈ cfg.bands, 0 < b) (hg : Opens seen g sig.compactions g')
    (hfree : ∀ t, last = some t → cfg.minIntervalMs ≤ now - t)
    (hdue : ∃ b ∈ cfg.bands, g' < b ∧ b ≤ sig.fill) :
    (decideCapture sig (some s) prior cfg now).1.isSome = true ∧
      Looks cfg (decideCapture sig (some s) prior cfg now).2 (some now) sig.userTurns
        sig.compactions sig.fill := by
  have ho := h.opened hpos hg prior
  obtain ⟨top, -, htop, -, hmax, fired, hfired, heq⟩ :=
    decide_band (ho.free hfree) (ho.bandDue.mpr hdue)
  rw [heq]
  refine ⟨rfl, rfl, rfl, ho.seen, ?_⟩
  obtain ⟨b₀, -, hg₀, hle₀⟩ := hdue
  intro b hb
  show b ∈ fired ↔ b ≤ sig.fill
  rw [hfired b]
  constructor
  · rintro (hold | ⟨-, hle⟩)
    · exact ((ho.fired b hb).mp hold).trans (hg₀.le.trans hle₀)
    · exact hle.trans htop
  · intro hle
    by_cases hold : b ∈ (before sig (some s) prior).fired
    · exact Or.inl hold
    · exact Or.inr ⟨hb, hmax b hb hle hold⟩

theorem Looks.firesTurns (h : Looks cfg s last turns seen g) (prior : Bool) (now : ℤ)
    (sig : Signals)
    (hpos : ∀ b ∈ cfg.bands, 0 < b) (hg : Opens seen g sig.compactions g')
    (hfree : ∀ t, last = some t → cfg.minIntervalMs ≤ now - t)
    (hno : ∀ b ∈ cfg.bands, b ≤ sig.fill → b ≤ g')
    (hdue : 0 < cfg.turnsEvery ∧ cfg.turnsEvery ≤ sig.userTurns - turns) :
    (decideCapture sig (some s) prior cfg now).1.isSome = true ∧
      Looks cfg (decideCapture sig (some s) prior cfg now).2 (some now) sig.userTurns
        sig.compactions g' := by
  have ho := h.opened hpos hg prior
  have hband : ¬ BandDue cfg sig (before sig (some s) prior) := by
    rw [ho.bandDue]
    rintro ⟨b, hb, hlt, hle⟩
    exact absurd (hno b hb hle) (not_le.mpr hlt)
  have hturns : TurnsDue cfg sig (before sig (some s) prior) := by
    unfold TurnsDue
    rw [ho.turns]
    exact hdue
  rw [decide_noBand (ho.free hfree) hband, if_pos hturns]
  exact ⟨rfl, rfl, rfl, ho.seen, ho.fired⟩

theorem Looks.idles (h : Looks cfg s last turns seen g) (prior : Bool) (now : ℤ)
    (sig : Signals)
    (hpos : ∀ b ∈ cfg.bands, 0 < b) (hg : Opens seen g sig.compactions g')
    (hfree : ∀ t, last = some t → cfg.minIntervalMs ≤ now - t)
    (hno : ∀ b ∈ cfg.bands, b ≤ sig.fill → b ≤ g')
    (hnot : ¬ (0 < cfg.turnsEvery ∧ cfg.turnsEvery ≤ sig.userTurns - turns)) :
    (decideCapture sig (some s) prior cfg now).1.isSome = false ∧
      Looks cfg (decideCapture sig (some s) prior cfg now).2 last turns sig.compactions g' := by
  have ho := h.opened hpos hg prior
  have hband : ¬ BandDue cfg sig (before sig (some s) prior) := by
    rw [ho.bandDue]
    rintro ⟨b, hb, hlt, hle⟩
    exact absurd (hno b hb hle) (not_le.mpr hlt)
  have hturns : ¬ TurnsDue cfg sig (before sig (some s) prior) := by
    unfold TurnsDue
    rw [ho.turns]
    exact hnot
  rw [decide_noBand (ho.free hfree) hband, if_neg hturns]
  exact ⟨rfl, ho⟩

end Looks

/-- A policy as normalized settings give it. -/
structure WellSet (cfg : CapturePolicyConfig) : Prop where
  interval : cfg.minIntervalMs = 600000
  low : ∀ b ∈ cfg.bands, 0 < b
  high : ∀ b ∈ cfg.bands, b ≤ 1
  sorted : cfg.bands.Pairwise (· < ·)
  turns : cfg.turnsEvery = 0 ∨ 10 ≤ cfg.turnsEvery

/-- The second policy captured once more than the first, at `τ`. -/
structure Ahead (A B : CapturePolicyConfig) (prior : Bool) (τ : ℤ) (u : ℕ)
    (signals : List (ℤ × Signals)) : Prop where
  traj : Trajectory signals
  bound : ∀ x ∈ signals, x.1 ≤ τ ∧ x.2.userTurns ≤ u ∧ x.2.compactions ≤ 0
  lead : triggers B prior none signals = triggers A prior none signals + 1
  first : ∃ s last w g, finalState A prior none signals = some s ∧
    Looks A s last w 0 g ∧ w ≤ u ∧ ∀ t, last = some t → t ≤ 0
  second : ∃ s g, finalState B prior none signals = some s ∧ Looks B s (some τ) u 0 g

section Ahead
variable {A B cfg : CapturePolicyConfig} {prior : Bool}

theorem Looks.start (hset : WellSet cfg) (prior : Bool) (now : ℤ) :
    (decideCapture ⟨0, 0, 0⟩ none prior cfg now).1.isSome = false ∧
      Looks cfg (decideCapture ⟨0, 0, 0⟩ none prior cfg now).2 none 0 0 0 := by
  have hinit : Looks cfg (initialState ⟨0, 0, 0⟩ prior) none 0 0 0 := by
    refine ⟨rfl, by simp [initialState], rfl, ?_⟩
    intro b hb
    have := hset.low b hb
    simp [initialState, this]
  exact hinit.idles prior now ⟨0, 0, 0⟩ hset.low (Or.inl ⟨rfl, rfl⟩) (by simp)
    (fun b _ hle => hle) (by simp)

/-- The second policy captures at a count of turns at which the first does not. -/
theorem ahead_turns (hA : WellSet A) (hB : WellSet B) {n : ℕ} (hn : B.turnsEvery = n)
    (hpos : 0 < n) (hfewer : A.turnsEvery = 0 ∨ B.turnsEvery < A.turnsEvery) (prior : Bool)
    {τ : ℤ} (hτ : 600000 ≤ τ) : Ahead A B prior τ n [(0, ⟨0, 0, 0⟩), (τ, ⟨0, n, 0⟩)] := by
  obtain ⟨a₁, hla⟩ := Looks.start hA prior 0
  obtain ⟨a₂, hla⟩ := hla.idles prior τ ⟨0, n, 0⟩ hA.low (Or.inl ⟨rfl, rfl⟩) (by simp)
    (fun b _ hle => hle) (by simp; omega)
  obtain ⟨b₁, hlb⟩ := Looks.start hB prior 0
  obtain ⟨b₂, hlb⟩ := hlb.firesTurns prior τ ⟨0, n, 0⟩ hB.low (Or.inl ⟨rfl, rfl⟩) (by simp)
    (fun b _ hle => hle) (by simp [hn, hpos])
  refine ⟨?_, ?_, ?_, ⟨_, none, 0, 0, rfl, hla, by simp, by simp⟩, ⟨_, 0, rfl, hlb⟩⟩
  · simp [Trajectory]
    omega
  · simp
    omega
  · simp [triggers, a₁, a₂, b₁, b₂]

/-- Both policies have seen the fill `y`, and captured if there is a band up to it. -/
theorem seen_gap (hset : WellSet cfg) (y : ℚ) (prior : Bool) :
    ∃ s last, finalState cfg prior none [(0, ⟨0, 0, 0⟩), (0, ⟨y, 0, 0⟩)] = some s ∧
      Looks cfg s last 0 0 y ∧ (∀ t, last = some t → t ≤ 0) ∧
      triggers cfg prior none [(0, ⟨0, 0, 0⟩), (0, ⟨y, 0, 0⟩)] =
        if ∃ b ∈ cfg.bands, b ≤ y then 1 else 0 := by
  obtain ⟨h₁, hl⟩ := Looks.start hset prior 0
  by_cases hdue : ∃ b ∈ cfg.bands, b ≤ y
  · obtain ⟨b, hb, hle⟩ := hdue
    obtain ⟨h₂, hl⟩ := hl.firesBand prior 0 ⟨y, 0, 0⟩ hset.low (Or.inl ⟨rfl, rfl⟩) (by simp)
      ⟨b, hb, hset.low b hb, hle⟩
    refine ⟨_, _, rfl, hl, by simp, ?_⟩
    rw [if_pos ⟨b, hb, hle⟩]
    simp [triggers, h₁, h₂]
  · have hno : ∀ b ∈ cfg.bands, ¬ b ≤ y := fun b hb hle => hdue ⟨b, hb, hle⟩
    obtain ⟨h₂, hl⟩ := hl.idles prior 0 ⟨y, 0, 0⟩ hset.low (Or.inl ⟨rfl, rfl⟩) (by simp)
      (fun b hb hle => absurd hle (hno b hb)) (by simp)
    refine ⟨_, none, rfl, ⟨hl.last, hl.turns, hl.seen, ?_⟩, by simp, ?_⟩
    · intro b hb
      rw [hl.fired b hb]
      have := hset.low b hb
      exact ⟨fun hle => absurd this (not_lt.mpr hle), fun hle => absurd hle (hno b hb)⟩
    · rw [if_neg hdue]
      simp [triggers, h₁, h₂]

/-- The second policy captures at a band that the first does not have. -/
theorem ahead_gap (hA : WellSet A) (hB : WellSet B) {x y : ℚ} (hx : x ∈ B.bands) (hxy : y < x)
    (hgap : ∀ b ∈ A.bands, b ≤ x → b ≤ y)
    (hsame : (∃ b ∈ A.bands, b ≤ y) ↔ ∃ b ∈ B.bands, b ≤ y) (prior : Bool) {τ : ℤ}
    (hτ : 600000 ≤ τ) :
    Ahead A B prior τ 0 ([(0, ⟨0, 0, 0⟩), (0, ⟨y, 0, 0⟩)] ++ [(τ, ⟨x, 0, 0⟩)]) := by
  obtain ⟨sa, la, ha, hla, hta, hca⟩ := seen_gap hA y prior
  obtain ⟨sb, lb, hb, hlb, htb, hcb⟩ := seen_gap hB y prior
  obtain ⟨a₃, hla⟩ := hla.idles prior τ ⟨x, 0, 0⟩ hA.low (Or.inl ⟨rfl, rfl⟩)
    (by rw [hA.interval]; intro t ht; have := hta t ht; omega) hgap (by simp)
  obtain ⟨b₃, hlb⟩ := hlb.firesBand prior τ ⟨x, 0, 0⟩ hB.low (Or.inl ⟨rfl, rfl⟩)
    (by rw [hB.interval]; intro t ht; have := htb t ht; omega) ⟨x, hx, hxy, le_rfl⟩
  refine ⟨?_, ?_, ?_, ⟨_, la, 0, y, ?_, hla, by simp, hta⟩, ⟨_, x, ?_, hlb⟩⟩
  · simp [Trajectory]
    omega
  · simp
    omega
  · rw [triggers_append, triggers_append, ha, hb, hca, hcb]
    simp [triggers, a₃, b₃, hsame]
  · simp only [finalState_append, ha]
    rfl
  · simp only [finalState_append, hb]
    rfl

end Ahead

/-- Both policies captured equally often, the second eight minutes before the first. -/
structure Offset (A B : CapturePolicyConfig) (prior : Bool) (τ : ℤ) (u c : ℕ)
    (signals : List (ℤ × Signals)) : Prop where
  traj : Trajectory signals
  bound : ∀ x ∈ signals, x.1 ≤ τ + 480000 ∧ x.2.userTurns ≤ u ∧ x.2.compactions ≤ c
  equal : triggers A prior none signals = triggers B prior none signals
  first : ∃ s g, finalState A prior none signals = some s ∧ Looks A s (some (τ + 480000)) u c g
  second : ∃ s g, finalState B prior none signals = some s ∧ Looks B s (some τ) u c g

/-- Eight minutes after the second policy captured, in a new epoch, a band of the first fires and
the second waits. -/
theorem Ahead.offset {A B : CapturePolicyConfig} {prior : Bool} {τ : ℤ} {u : ℕ}
    {signals : List (ℤ × Signals)} (h : Ahead A B prior τ u signals) (hA : WellSet A)
    (hB : WellSet B) (hbands : A.bands ≠ []) (hτ : 600000 ≤ τ) :
    Offset A B prior τ u 1 (signals ++ [(τ + 480000, ⟨1, u, 1⟩)]) := by
  obtain ⟨a, ha⟩ := List.exists_mem_of_ne_nil _ hbands
  obtain ⟨sa, last, w, g, hsa, hla, -, hlast⟩ := h.first
  obtain ⟨sb, gb, hsb, hlb⟩ := h.second
  obtain ⟨a₁, hla⟩ := hla.firesBand prior (τ + 480000) ⟨1, u, 1⟩ hA.low
    (Or.inr ⟨Nat.zero_lt_one, rfl⟩)
    (by rw [hA.interval]; intro t ht; have := hlast t ht; omega) ⟨a, ha, hA.low a ha, hA.high a ha⟩
  obtain ⟨b₁, hlb⟩ := hlb.waits prior (τ + 480000) ⟨1, u, 1⟩ hB.low (Or.inr ⟨Nat.zero_lt_one, rfl⟩)
    (by rw [hB.interval]; omega)
  refine ⟨?_, ?_, ?_, ⟨_, 1, ?_, hla⟩, ⟨_, 0, ?_, hlb⟩⟩
  · refine List.pairwise_append.mpr ⟨h.traj, by simp, ?_⟩
    intro x hx y hy
    obtain ⟨h₁, h₂, h₃⟩ := h.bound x hx
    rw [List.mem_singleton.mp hy]
    exact ⟨by show x.1 ≤ τ + 480000; omega, h₂, h₃.trans (Nat.zero_le 1)⟩
  · intro x hx
    rcases List.mem_append.mp hx with hx | hx
    · obtain ⟨h₁, h₂, h₃⟩ := h.bound x hx
      exact ⟨by omega, h₂, h₃.trans (Nat.zero_le 1)⟩
    · rw [List.mem_singleton.mp hx]
      exact ⟨le_rfl, le_rfl, le_rfl⟩
  · rw [triggers_append, triggers_append, hsa, hsb, h.lead]
    simp [triggers, a₁, b₁]
  · rw [finalState_append, hsa]
    rfl
  · rw [finalState_append, hsb]
    rfl

section Exploit
variable {A B : CapturePolicyConfig} {prior : Bool} {τ : ℤ} {u c : ℕ}
  {signals : List (ℤ × Signals)}

/-- What signals after an offset do: they follow on, and the first policy captures more. -/
theorem dearer_of_offset (h : Offset A B prior τ u c signals) (more : List (ℤ × Signals))
    (htraj : Trajectory more)
    (hbound : ∀ x ∈ more, τ + 480000 ≤ x.1 ∧ u ≤ x.2.userTurns ∧ c ≤ x.2.compactions)
    (hmore : ∀ sa sb ga gb, Looks A sa (some (τ + 480000)) u c ga → Looks B sb (some τ) u c gb →
      triggers B prior (some sb) more < triggers A prior (some sa) more) :
    ∃ signals, Trajectory signals ∧
      triggers B prior none signals < triggers A prior none signals := by
  refine ⟨signals ++ more, ?_, ?_⟩
  · refine List.pairwise_append.mpr ⟨h.traj, htraj, ?_⟩
    intro x hx y hy
    obtain ⟨h₁, h₂, h₃⟩ := h.bound x hx
    obtain ⟨k₁, k₂, k₃⟩ := hbound y hy
    exact ⟨h₁.trans k₁, h₂.trans k₂, h₃.trans k₃⟩
  · obtain ⟨sa, ga, ha, hla⟩ := h.first
    obtain ⟨sb, gb, hb, hlb⟩ := h.second
    rw [triggers_append, triggers_append, ha, hb, h.equal]
    have := hmore sa sb ga gb hla hlb
    omega

/-- With a band and periodic capture. -/
theorem dearer_turns (h : Offset A B prior τ u c signals) (hA : WellSet A) (hB : WellSet B)
    (hAbands : A.bands ≠ []) (hBbands : B.bands ≠ []) {n : ℕ} (hn : A.turnsEvery = n)
    (hpos : 0 < n) (hBturns : 10 ≤ B.turnsEvery) :
    ∃ signals, Trajectory signals ∧
      triggers B prior none signals < triggers A prior none signals := by
  obtain ⟨a, ha⟩ := List.exists_mem_of_ne_nil _ hAbands
  obtain ⟨b, hb⟩ := List.exists_mem_of_ne_nil _ hBbands
  refine dearer_of_offset h [(τ + 600000, ⟨1, u + n - 1, c + 1⟩),
    (τ + 1200000, ⟨0, u + n, c + 1⟩), (τ + 1800000, ⟨1, u + n, c + 1⟩)] ?_ ?_ ?_
  · simp [Trajectory]
  · simp
    omega
  · intro sa sb ga gb hla hlb
    obtain ⟨a₁, hla⟩ := hla.waits prior (τ + 600000) ⟨1, u + n - 1, c + 1⟩ hA.low
      (Or.inr ⟨Nat.lt_succ_self c, rfl⟩) (by rw [hA.interval]; omega)
    obtain ⟨a₂, hla⟩ := hla.firesTurns prior (τ + 1200000) ⟨0, u + n, c + 1⟩ hA.low
      (Or.inl ⟨rfl, rfl⟩) (by rw [hA.interval]; intro t ht; cases ht; omega)
      (fun b hb hle => hle) (by rw [hn]; push_cast; omega)
    obtain ⟨a₃, -⟩ := hla.firesBand prior (τ + 1800000) ⟨1, u + n, c + 1⟩ hA.low
      (Or.inl ⟨rfl, rfl⟩) (by rw [hA.interval]; intro t ht; cases ht; omega)
      ⟨a, ha, hA.low a ha, hA.high a ha⟩
    obtain ⟨b₁, hlb⟩ := hlb.firesBand prior (τ + 600000) ⟨1, u + n - 1, c + 1⟩
      hB.low (Or.inr ⟨Nat.lt_succ_self c, rfl⟩) (by rw [hB.interval]; intro t ht; cases ht; omega)
      ⟨b, hb, hB.low b hb, hB.high b hb⟩
    obtain ⟨b₂, hlb⟩ := hlb.idles prior (τ + 1200000) ⟨0, u + n, c + 1⟩ hB.low
      (Or.inl ⟨rfl, rfl⟩) (by rw [hB.interval]; intro t ht; cases ht; omega)
      (fun b hb _ => hB.high b hb) (by push_cast; omega)
    obtain ⟨b₃, -⟩ := hlb.idles prior (τ + 1800000) ⟨1, u + n, c + 1⟩ hB.low
      (Or.inl ⟨rfl, rfl⟩) (by rw [hB.interval]; intro t ht; cases ht; omega)
      (fun b hb _ => hB.high b hb) (by push_cast; omega)
    simp [triggers, a₁, a₂, a₃, b₁, b₂, b₃]

/-- With two bands. -/
theorem dearer_bands (h : Offset A B prior τ u c signals) (hA : WellSet A) (hB : WellSet B)
    (hBbands : B.bands ≠ []) {a a' : ℚ} (ha : a ∈ A.bands) (ha' : a' ∈ A.bands) (hlt : a < a') :
    ∃ signals, Trajectory signals ∧
      triggers B prior none signals < triggers A prior none signals := by
  obtain ⟨b, hb⟩ := List.exists_mem_of_ne_nil _ hBbands
  refine dearer_of_offset h [(τ + 600000, ⟨1, u, c + 1⟩), (τ + 1200000, ⟨a, u, c + 1⟩),
    (τ + 1800000, ⟨1, u, c + 1⟩)] ?_ ?_ ?_
  · simp [Trajectory]
  · simp
  · intro sa sb ga gb hla hlb
    obtain ⟨a₁, hla⟩ := hla.waits prior (τ + 600000) ⟨1, u, c + 1⟩ hA.low
      (Or.inr ⟨Nat.lt_succ_self c, rfl⟩) (by rw [hA.interval]; omega)
    obtain ⟨a₂, hla⟩ := hla.firesBand prior (τ + 1200000) ⟨a, u, c + 1⟩ hA.low
      (Or.inl ⟨rfl, rfl⟩) (by rw [hA.interval]; intro t ht; cases ht; omega)
      ⟨a, ha, hA.low a ha, le_rfl⟩
    obtain ⟨a₃, -⟩ := hla.firesBand prior (τ + 1800000) ⟨1, u, c + 1⟩ hA.low
      (Or.inl ⟨rfl, rfl⟩) (by rw [hA.interval]; intro t ht; cases ht; omega)
      ⟨a', ha', hlt, hA.high a' ha'⟩
    have hsame : ∀ t : ℤ, ¬ (0 < B.turnsEvery ∧ B.turnsEvery ≤ ((u : ℕ) : ℤ) - (u : ℕ)) := by omega
    obtain ⟨b₁, hlb⟩ := hlb.firesBand prior (τ + 600000) ⟨1, u, c + 1⟩
      hB.low (Or.inr ⟨Nat.lt_succ_self c, rfl⟩) (by rw [hB.interval]; intro t ht; cases ht; omega)
      ⟨b, hb, hB.low b hb, hB.high b hb⟩
    obtain ⟨b₂, hlb⟩ := hlb.idles prior (τ + 1200000) ⟨a, u, c + 1⟩ hB.low
      (Or.inl ⟨rfl, rfl⟩) (by rw [hB.interval]; intro t ht; cases ht; omega)
      (fun b hb _ => hB.high b hb) (hsame 0)
    obtain ⟨b₃, -⟩ := hlb.idles prior (τ + 1800000) ⟨1, u, c + 1⟩ hB.low
      (Or.inl ⟨rfl, rfl⟩) (by rw [hB.interval]; intro t ht; cases ht; omega)
      (fun b hb _ => hB.high b hb) (hsame 0)
    simp [triggers, a₁, a₂, a₃, b₁, b₂, b₃]

/-- Where the clock goes back after the second policy captured, that policy waits for the clock
while the first captures twice more. -/
theorem dearer_of_ahead (h : Ahead A B prior 2000000 u signals) (hB : WellSet B)
    {x y : Signals} (hxy : Progress [(600000, x), (1200000, y)]) (hu : u ≤ x.userTurns)
    (hA : ∀ sa last w g, Looks A sa last w 0 g → w ≤ u → (∀ t, last = some t → t ≤ 0) →
      triggers A prior (some sa) [(600000, x), (1200000, y)] = 2) :
    ∃ signals, Progress signals ∧
      triggers B prior none signals < triggers A prior none signals := by
  obtain ⟨sa, last, w, g, hsa, hla, hw, hlast⟩ := h.first
  obtain ⟨sb, gb, hsb, hlb⟩ := h.second
  have hopen : ∀ (seen c : ℕ) (g : ℚ), seen ≤ c → ∃ g', Opens seen g c g' := by
    intro seen c g hle
    rcases hle.lt_or_eq with hlt | heq
    · exact ⟨0, Or.inr ⟨hlt, rfl⟩⟩
    · exact ⟨g, Or.inl ⟨heq, rfl⟩⟩
  have hcounts : x.userTurns ≤ y.userTurns ∧ x.compactions ≤ y.compactions := by
    simpa [Progress] using hxy
  obtain ⟨g₁, hg₁⟩ := hopen 0 x.compactions gb (Nat.zero_le _)
  obtain ⟨b₁, hlb⟩ := hlb.waits prior 600000 x hB.low hg₁ (by rw [hB.interval]; omega)
  obtain ⟨g₂, hg₂⟩ := hopen x.compactions y.compactions g₁ hcounts.2
  obtain ⟨b₂, -⟩ := hlb.waits prior 1200000 y hB.low hg₂ (by rw [hB.interval]; omega)
  refine ⟨signals ++ [(600000, x), (1200000, y)], ?_, ?_⟩
  · refine List.pairwise_append.mpr ⟨h.traj.progress, hxy, ?_⟩
    intro z hz q hq
    obtain ⟨-, hzu, hzc⟩ := h.bound z hz
    have hq' : x.userTurns ≤ q.2.userTurns := by
      simp only [List.mem_cons, List.not_mem_nil, or_false] at hq
      rcases hq with rfl | rfl
      · exact le_rfl
      · exact hcounts.1
    exact ⟨hzu.trans (hu.trans hq'), hzc.trans (Nat.zero_le _)⟩
  · rw [triggers_append, triggers_append, hsa, hsb, h.lead,
      hA sa last w g hla hw hlast]
    simp [triggers, b₁, b₂]

/-- The first policy captures twice: at a band in two epochs, or periodically. -/
theorem dearer_back (h : Ahead A B prior 2000000 u signals) (hA : WellSet A) (hB : WellSet B)
    (hsome : A.bands ≠ [] ∨ A.turnsEvery ≠ 0) :
    ∃ signals, Progress signals ∧
      triggers B prior none signals < triggers A prior none signals := by
  by_cases hbands : A.bands = []
  · obtain ⟨n, hn⟩ : ∃ n : ℕ, A.turnsEvery = n ∧ 0 < n :=
      ⟨A.turnsEvery.toNat, by rcases hA.turns with hz | hz <;> simp_all; omega⟩
    have hno : ∀ (fill g : ℚ), ∀ b ∈ A.bands, b ≤ fill → b ≤ g := by
      rw [hbands]
      intro fill g b hb
      cases hb
    refine dearer_of_ahead h hB (x := ⟨0, u + n, 0⟩) (y := ⟨0, u + n + n, 0⟩) (by simp [Progress])
      (Nat.le_add_right u n) ?_
    intro sa last w g hla hw hlast
    obtain ⟨a₁, hla⟩ := hla.firesTurns prior 600000 ⟨0, u + n, 0⟩ hA.low (Or.inl ⟨rfl, rfl⟩)
      (by rw [hA.interval]; intro t ht; have := hlast t ht; omega) (hno 0 g)
      (by rw [hn.1]; push_cast; omega)
    obtain ⟨a₂, -⟩ := hla.firesTurns prior 1200000 ⟨0, u + n + n, 0⟩ hA.low (Or.inl ⟨rfl, rfl⟩)
      (by rw [hA.interval]; intro t ht; cases ht; omega) (hno 0 g)
      (by rw [hn.1]; push_cast; omega)
    simp [triggers, a₁, a₂]
  · obtain ⟨a, ha⟩ := List.exists_mem_of_ne_nil _ hbands
    have hdue : ∃ b ∈ A.bands, 0 < b ∧ b ≤ 1 := ⟨a, ha, hA.low a ha, hA.high a ha⟩
    refine dearer_of_ahead h hB (x := ⟨1, u, 1⟩) (y := ⟨1, u, 2⟩) (by simp [Progress]) le_rfl ?_
    intro sa last w g hla _ hlast
    obtain ⟨a₁, hla⟩ := hla.firesBand prior 600000 ⟨1, u, 1⟩ hA.low
      (Or.inr ⟨Nat.zero_lt_one, rfl⟩)
      (by rw [hA.interval]; intro t ht; have := hlast t ht; omega) hdue
    obtain ⟨a₂, -⟩ := hla.firesBand prior 1200000 ⟨1, u, 2⟩ hA.low
      (Or.inr ⟨Nat.one_lt_two, rfl⟩) (by rw [hA.interval]; intro t ht; cases ht; omega) hdue
    simp [triggers, a₁, a₂]

end Exploit

/-! Settings that need no approval. -/

/-- Nothing that decides on captures was raised: not more bands, none lower, and turns no more
often. -/
structure Unraised (A B : CapturePolicyConfig) : Prop where
  length : A.bands.length ≤ B.bands.length
  zip : ∀ p ∈ A.bands.zip B.bands, p.2 ≤ p.1
  turns : A.turnsEvery ≠ 0 → B.turnsEvery ≠ 0 ∧ B.turnsEvery ≤ A.turnsEvery

theorem first_difference : ∀ (a b : List ℚ), a.Pairwise (· < ·) → b.Pairwise (· < ·) →
    a.length ≤ b.length → (∀ p ∈ a.zip b, p.2 ≤ p.1) → a ≠ b →
    ∃ x ∈ b, x ∉ a ∧ ∀ z, z < x → (z ∈ a ↔ z ∈ b) := by
  intro a
  induction a with
  | nil =>
    intro b _ hb _ _ hne
    cases b with
    | nil => exact absurd rfl hne
    | cons b₀ b =>
      refine ⟨b₀, List.mem_cons_self, by simp, ?_⟩
      intro z hz
      have hlow := (List.pairwise_cons.mp hb).1
      simp only [List.not_mem_nil, List.mem_cons, false_iff, not_or]
      exact ⟨hz.ne, fun hmem => absurd (hlow z hmem) (not_lt.mpr hz.le)⟩
  | cons a₀ a ih =>
    intro b ha hb hlen hzip hne
    cases b with
    | nil => simp at hlen
    | cons b₀ b =>
      obtain ⟨hlowA, hrestA⟩ := List.pairwise_cons.mp ha
      obtain ⟨hlowB, hrestB⟩ := List.pairwise_cons.mp hb
      have hle : b₀ ≤ a₀ := hzip (a₀, b₀) (by simp)
      rcases hle.lt_or_eq with hlt | rfl
      · have hA : ∀ z, z ≤ b₀ → z ∉ a₀ :: a := by
          intro z hz hmem
          rcases List.mem_cons.mp hmem with rfl | hmem
          · exact absurd hlt (not_lt.mpr hz)
          · exact absurd (hlt.trans (hlowA z hmem)) (not_lt.mpr hz)
        refine ⟨b₀, List.mem_cons_self, hA b₀ le_rfl, ?_⟩
        intro z hz
        refine ⟨fun hmem => absurd hmem (hA z hz.le), ?_⟩
        intro hmem
        rcases List.mem_cons.mp hmem with rfl | hmem
        · exact absurd hz (lt_irrefl _)
        · exact absurd (hlowB z hmem) (not_lt.mpr hz.le)
      · obtain ⟨x, hx, hnot, hsame⟩ := ih b hrestA hrestB (by simpa using hlen)
          (fun p hp => hzip p (by simp [hp])) (fun heq => hne (by rw [heq]))
        refine ⟨x, List.mem_cons_of_mem _ hx, ?_, ?_⟩
        · intro hmem
          rcases List.mem_cons.mp hmem with rfl | hmem
          · exact absurd (hlowB x hx) (lt_irrefl _)
          · exact hnot hmem
        · intro z hz
          simp only [List.mem_cons, hsame z hz]

/-- A fill under `x` and over every value of a list under `x`. -/
theorem exists_below (l : List ℚ) {x : ℚ} (hx : 0 < x) :
    ∃ y < x, ∀ z ∈ l, z < x → z ≤ y := by
  induction l with
  | nil => exact ⟨0, hx, by simp⟩
  | cons z l ih =>
    obtain ⟨y, hy, hall⟩ := ih
    by_cases hz : z < x
    · refine ⟨max y z, max_lt hy hz, ?_⟩
      intro q hq hlt
      rcases List.mem_cons.mp hq with rfl | hq
      · exact le_max_right _ _
      · exact (hall q hq hlt).trans (le_max_left _ _)
    · refine ⟨y, hy, ?_⟩
      intro q hq hlt
      rcases List.mem_cons.mp hq with rfl | hq
      · exact absurd hlt hz
      · exact hall q hq hlt

section Unraised
variable {A B : CapturePolicyConfig}

/-- Two policies of which one is lower are told apart by some signals. -/
theorem exists_ahead (hA : WellSet A) (hB : WellSet B) (h : Unraised A B)
    (hne : ¬ (A.bands = B.bands ∧ A.turnsEvery = B.turnsEvery)) (prior : Bool) {τ : ℤ}
    (hτ : 600000 ≤ τ) : ∃ u signals, Ahead A B prior τ u signals := by
  by_cases hturns : A.turnsEvery = B.turnsEvery
  · have hbands : A.bands ≠ B.bands := fun heq => hne ⟨heq, hturns⟩
    obtain ⟨x, hx, hnot, hsame⟩ :=
      first_difference _ _ hA.sorted hB.sorted h.length h.zip hbands
    obtain ⟨y, hy, hall⟩ := exists_below A.bands (hB.low x hx)
    have hgap : ∀ b ∈ A.bands, b ≤ x → b ≤ y := by
      intro b hb hle
      have hbx : b ≠ x := fun heq => hnot (heq ▸ hb)
      exact hall b hb (lt_of_le_of_ne hle hbx)
    refine ⟨0, _, ahead_gap hA hB hx hy hgap ?_ prior hτ⟩
    constructor
    · rintro ⟨b, hb, hle⟩
      exact ⟨b, (hsame b (hle.trans_lt hy)).mp hb, hle⟩
    · rintro ⟨b, hb, hle⟩
      exact ⟨b, (hsame b (hle.trans_lt hy)).mpr hb, hle⟩
  · have hpos : B.turnsEvery ≠ 0 := by
      intro hz
      by_cases ha : A.turnsEvery = 0
      · exact hturns (ha.trans hz.symm)
      · exact (h.turns ha).1 hz
    have hten : 10 ≤ B.turnsEvery := hB.turns.resolve_left hpos
    have hfewer : A.turnsEvery = 0 ∨ B.turnsEvery < A.turnsEvery := by
      by_cases ha : A.turnsEvery = 0
      · exact Or.inl ha
      · exact Or.inr (lt_of_le_of_ne (h.turns ha).2 (Ne.symm hturns))
    have hcast : B.turnsEvery = (B.turnsEvery.toNat : ℕ) := by omega
    exact ⟨_, _, ahead_turns hA hB hcast (by omega) hfewer prior hτ⟩

theorem WellSet.eq (hA : WellSet A) (hB : WellSet B) (hbands : A.bands = B.bands)
    (hturns : A.turnsEvery = B.turnsEvery) : A = B := by
  have hinterval := hA.interval.trans hB.interval.symm
  cases A
  cases B
  simp_all

/-- Signals in any order of time. -/
theorem never_raised_iff (hA : WellSet A) (hB : WellSet B) (h : Unraised A B) (prior : Bool) :
    (∀ signals, Progress signals → triggers A prior none signals ≤ triggers B prior none signals) ↔
      A.bands = B.bands ∧ A.turnsEvery = B.turnsEvery ∨ A.bands = [] ∧ A.turnsEvery = 0 := by
  constructor
  · intro hle
    by_contra hnot
    obtain ⟨hdiff, hsome⟩ := not_or.mp hnot
    obtain ⟨u, signals, hahead⟩ :=
      exists_ahead hA hB h hdiff prior (by norm_num : (600000 : ℤ) ≤ 2000000)
    obtain ⟨signals, hprog, hlt⟩ := dearer_back hahead hA hB (by tauto)
    exact absurd (hle signals hprog) (not_le.mpr hlt)
  · rintro (⟨hbands, hturns⟩ | ⟨hbands, hturns⟩) signals -
    · rw [hA.eq hB hbands hturns]
    · rw [triggers_eq_zero hbands hturns]
      exact Nat.zero_le _

/-- Signals in the order of time. -/
theorem never_raised_inOrder_iff (hA : WellSet A) (hB : WellSet B) (h : Unraised A B)
    (prior : Bool) :
    (∀ signals, Trajectory signals → triggers A prior none signals ≤ triggers B prior none signals)
      ↔ A.bands = [] ∨ A.bands = B.bands ∧ A.turnsEvery = B.turnsEvery ∨
        A.turnsEvery = 0 ∧ A.bands.length ≤ 1 := by
  constructor
  · intro hle
    by_contra hnot
    obtain ⟨hbands, hnot⟩ := not_or.mp hnot
    obtain ⟨hdiff, hmany⟩ := not_or.mp hnot
    have hBbands : B.bands ≠ [] := by
      intro hnil
      have hlen := h.length
      rw [hnil] at hlen
      exact hbands (List.eq_nil_of_length_eq_zero (Nat.le_zero.mp hlen))
    obtain ⟨u, signals, hahead⟩ := exists_ahead hA hB h hdiff prior (le_refl 600000)
    have hoffset := hahead.offset hA hB hbands le_rfl
    obtain ⟨signals, htraj, hlt⟩ : ∃ signals, Trajectory signals ∧
        triggers B prior none signals < triggers A prior none signals := by
      by_cases hturns : A.turnsEvery = 0
      · obtain ⟨a, a', rest, hcons⟩ : ∃ a a' rest, A.bands = a :: a' :: rest := by
          rcases hA' : A.bands with _ | ⟨a, _ | ⟨a', rest⟩⟩
          · exact absurd hA' hbands
          · exact absurd ⟨hturns, by simp [hA']⟩ hmany
          · exact ⟨a, a', rest, rfl⟩
        have hsorted := hA.sorted
        rw [hcons] at hsorted
        have hmem : a ∈ A.bands ∧ a' ∈ A.bands := by simp [hcons]
        exact dearer_bands hoffset hA hB hBbands hmem.1 hmem.2
          ((List.pairwise_cons.mp hsorted).1 a' List.mem_cons_self)
      · have hten : 10 ≤ A.turnsEvery := hA.turns.resolve_left hturns
        have hcast : A.turnsEvery = (A.turnsEvery.toNat : ℕ) := by omega
        exact dearer_turns hoffset hA hB hbands hBbands hcast (by omega)
          (hB.turns.resolve_left (h.turns hturns).1)
    exact absurd (hle signals htraj) (not_le.mpr hlt)
  · intro hcond signals htraj
    by_cases hsame : A.bands = B.bands ∧ A.turnsEvery = B.turnsEvery
    · rw [hA.eq hB hsame.1 hsame.2]
    · refine triggers_le_of_cheaper prior ⟨hA.interval.trans hB.interval.symm, ?_, ?_⟩ htraj
      · intro hpos
        obtain ⟨hne, hle⟩ := h.turns hpos.ne'
        rcases hB.turns with hz | hten
        · exact absurd hz hne
        · exact ⟨by omega, hle⟩
      · rcases hcond with hnil | hsame' | ⟨hturns, hone⟩
        · exact Or.inl hnil
        · exact absurd hsame' hsame
        · rcases hA' : A.bands with _ | ⟨a, rest⟩
          · exact Or.inl rfl
          · have hrest : rest = [] := by
              rw [hA'] at hone
              exact List.eq_nil_of_length_eq_zero (by simpa using hone)
            subst hrest
            refine Or.inr ⟨hturns, a, rfl, ?_⟩
            rcases hB' : B.bands with _ | ⟨b, rest⟩
            · have hlen := h.length
              simp [hA', hB'] at hlen
            · exact ⟨b, List.mem_cons_self, h.zip (a, b) (by simp [hA', hB'])⟩

end Unraised

/-- The bands of normalized settings. -/
structure GoodBands (bands : List ℚ) : Prop where
  sorted : bands.Pairwise (· < ·)
  low : ∀ b ∈ bands, 0 < b
  high : ∀ b ∈ bands, b ≤ 1

theorem goodBands_normalize (v : List ℚ) : GoodBands (normalizeContextBands v) := by
  have hvals : ∀ b ∈ normalizeContextBands v, ∃ x : ℚ,
      (round (min (95 / 100) (max (1 / 2) x) * 100) : ℚ) / 100 = b := by
    intro b hb
    have hb := List.mem_of_mem_take hb
    rw [List.mem_insertionSort, List.mem_dedup] at hb
    obtain ⟨x, -, rfl⟩ := List.mem_map.mp hb
    exact ⟨x, rfl⟩
  have hround : ∀ x : ℚ, 50 ≤ round (min (95 / 100) (max (1 / 2) x) * 100) ∧
      round (min (95 / 100) (max (1 / 2) x) * 100) ≤ 95 := by
    intro x
    have h₁ : 1 / 2 ≤ min (95 / 100) (max (1 / 2) x) :=
      le_min (by norm_num) (le_max_left _ _)
    have h₂ : min (95 / 100) (max (1 / 2) x) ≤ 95 / 100 := min_le_left _ _
    constructor
    · refine Int.le_floor.mpr ?_
      push_cast
      linarith
    · refine Int.lt_add_one_iff.mp (Int.floor_lt.mpr ?_)
      push_cast
      linarith
  constructor
  · have hle : (normalizeContextBands v).Pairwise (· ≤ ·) :=
      (List.pairwise_insertionSort (· ≤ ·) _).sublist (List.take_sublist _ _)
    have hne : (normalizeContextBands v).Pairwise (· ≠ ·) :=
      ((List.perm_insertionSort (· ≤ ·) _).nodup_iff.mpr (List.nodup_dedup _)).sublist
        (List.take_sublist _ _)
    exact hle.imp₂ (fun _ _ h₁ h₂ => lt_of_le_of_ne h₁ h₂) hne
  · intro b hb
    obtain ⟨x, rfl⟩ := hvals b hb
    have : (50 : ℚ) ≤ round (min (95 / 100) (max (1 / 2) x) * 100) := by
      exact_mod_cast (hround x).1
    linarith
  · intro b hb
    obtain ⟨x, rfl⟩ := hvals b hb
    have : (round (min (95 / 100) (max (1 / 2) x) * 100) : ℚ) ≤ 95 := by
      exact_mod_cast (hround x).2
    linarith

theorem goodBands_settings (v : Option Patch) :
    GoodBands (normalizeCaptureSettings v).contextBands := by
  have hdefault : GoodBands defaultCaptureSettings.contextBands := by
    refine ⟨by simp [defaultCaptureSettings], ?_, ?_⟩
    all_goals
      intro b hb
      have hb : b = 85 / 100 := by simpa [defaultCaptureSettings] using hb
      rw [hb]
      norm_num
  rcases v with _ | o
  · exact hdefault
  · rcases hbands : o.contextBands with _ | bands
    · simpa [normalizeCaptureSettings, hbands] using hdefault
    · simpa [normalizeCaptureSettings, hbands] using goodBands_normalize bands

theorem turnsEvery_settings (v : Option Patch) :
    (normalizeCaptureSettings v).turnsEvery = 0 ∨ 10 ≤ (normalizeCaptureSettings v).turnsEvery := by
  rcases v with _ | o
  · exact Or.inl rfl
  · simp only [normalizeCaptureSettings, normalizeTurnsEvery]
    split_ifs
    · exact Or.inl rfl
    · exact Or.inr (le_min (by norm_num) (le_max_left _ _))

theorem GoodBands.policy {s : CaptureSettings} (h : GoodBands s.contextBands) :
    (policyFromSettings s).bands = s.contextBands :=
  List.Pairwise.insertionSort_eq (h.sorted.imp fun hlt => hlt.le)

theorem wellSet_settings (v : Option Patch) :
    WellSet (policyFromSettings (normalizeCaptureSettings v)) := by
  have hgood := goodBands_settings v
  refine ⟨rfl, ?_, ?_, ?_, turnsEvery_settings v⟩
  · rw [hgood.policy]
    exact hgood.low
  · rw [hgood.policy]
    exact hgood.high
  · rw [hgood.policy]
    exact hgood.sorted

theorem unraised_of_noApproval {before after : CaptureSettings}
    (hb : before.turnsEvery = 0 ∨ 10 ≤ before.turnsEvery)
    (ha : after.turnsEvery = 0 ∨ 10 ≤ after.turnsEvery)
    (h : classifyNeedsApproval before after = []) :
    Unraised (policyFromSettings after) (policyFromSettings before) := by
  have hall := List.flatten_eq_nil_iff.mp h
  have hbands : bandReasons before.contextBands after.contextBands = [] := hall _ (by simp)
  have hturns : turnsReasons before.turnsEvery after.turnsEvery = [] := hall _ (by simp)
  simp only [bandReasons] at hbands
  split_ifs at hbands with hlen hzip
  refine ⟨not_lt.mp hlen, ?_, ?_⟩
  · intro p hp
    by_contra hlt
    exact hzip (List.any_eq_true.mpr ⟨p, hp, by simpa using hlt⟩)
  · intro hne
    simp only [turnsReasons] at hturns
    split_ifs at hturns with h₁ h₂
    change before.turnsEvery ≠ 0 ∧ before.turnsEvery ≤ after.turnsEvery
    have hten : 10 ≤ after.turnsEvery := ha.resolve_left hne
    rcases hb with hb | hb
    · omega
    · omega

/-- A change of the settings that needs no approval never raises the captures of a session exactly
when the policy stays the same or captures nothing more; and, if the clock does not go back,
exactly when it stays the same, has no bands, or has one band and no periodic capture. -/
theorem unapproved_never_raises_iff (v w : Option Patch) (prior : Bool)
    (h : classifyNeedsApproval (normalizeCaptureSettings v) (normalizeCaptureSettings w) = []) :
    ((∀ signals, Progress signals →
        triggers (policyFromSettings (normalizeCaptureSettings w)) prior none signals ≤
          triggers (policyFromSettings (normalizeCaptureSettings v)) prior none signals) ↔
      (normalizeCaptureSettings w).contextBands = (normalizeCaptureSettings v).contextBands ∧
          (normalizeCaptureSettings w).turnsEvery = (normalizeCaptureSettings v).turnsEvery ∨
        (normalizeCaptureSettings w).contextBands = [] ∧
          (normalizeCaptureSettings w).turnsEvery = 0) ∧
    ((∀ signals, Trajectory signals →
        triggers (policyFromSettings (normalizeCaptureSettings w)) prior none signals ≤
          triggers (policyFromSettings (normalizeCaptureSettings v)) prior none signals) ↔
      (normalizeCaptureSettings w).contextBands = [] ∨
        (normalizeCaptureSettings w).contextBands = (normalizeCaptureSettings v).contextBands ∧
          (normalizeCaptureSettings w).turnsEvery = (normalizeCaptureSettings v).turnsEvery ∨
        (normalizeCaptureSettings w).turnsEvery = 0 ∧
          (normalizeCaptureSettings w).contextBands.length ≤ 1) := by
  have hun := unraised_of_noApproval (turnsEvery_settings v) (turnsEvery_settings w) h
  have hany := never_raised_iff (wellSet_settings w) (wellSet_settings v) hun prior
  have horder := never_raised_inOrder_iff (wellSet_settings w) (wellSet_settings v) hun prior
  rw [(goodBands_settings w).policy, (goodBands_settings v).policy] at hany horder
  exact ⟨hany, horder⟩

def twoBands : Patch := { contextBands := some [50 / 100, 60 / 100] }

def oneBand : Patch := { contextBands := some [90 / 100] }

/-- Sixty percent of the context, and ninety percent eleven minutes later. -/
def slowFill : List (ℤ × Signals) := [(0, ⟨60 / 100, 0, 0⟩), (660000, ⟨90 / 100, 0, 0⟩)]

theorem unapproved_never_raises_oneBand :
    triggers (policyFromSettings (normalizeCaptureSettings (some oneBand))) false none slowFill ≤
      triggers (policyFromSettings (normalizeCaptureSettings (some twoBands))) false none
        slowFill :=
  (unapproved_never_raises_iff (some twoBands) (some oneBand) false (by decide +kernel)).2.mpr
    (Or.inr (Or.inr (by decide +kernel))) slowFill (by simp [Trajectory, slowFill])

/-- The upper of the two bands, raised. -/
def upperRaised : Patch := { contextBands := some [50 / 100, 90 / 100] }

/-- Raising a band splits one capture of two bands into two captures. -/
theorem raised_band_costs_more :
    ¬ ∀ v w : Option Patch,
      classifyNeedsApproval (normalizeCaptureSettings v) (normalizeCaptureSettings w) = [] →
      ∀ (prior : Bool) (signals : List (ℤ × Signals)), Trajectory signals →
        triggers (policyFromSettings (normalizeCaptureSettings w)) prior none signals ≤
          triggers (policyFromSettings (normalizeCaptureSettings v)) prior none signals := by
  intro h
  have htraj : Trajectory slowFill := by simp [Trajectory, slowFill]
  have hle := h (some twoBands) (some upperRaised) (by decide +kernel) false slowFill htraj
  revert hle
  decide +kernel

end ClaudeFleet.Capture
