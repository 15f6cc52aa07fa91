import Mathlib.Tactic
import Mathlib.Data.List.Sort
import ClaudeFleet.CaptureSettings

/-! The ingest policy of knowledge capture: context bands, periodic turns and the interval between
two captures of a session. The context fill is an exact rational. -/
namespace ClaudeFleet.Capture

structure CapturePolicyConfig where
  bands : List ℚ
  turnsEvery : ℤ
  minIntervalMs : ℤ
  deriving DecidableEq

def CAPTURE_MIN_INTERVAL_MS : ℤ := 10 * 60000

structure SessionCaptureState where
  /-- The bands that fired since the last compaction. -/
  fired : List ℚ
  compactionsSeen : ℕ
  turnsAtLastCapture : ℤ
  lastCaptureAt : Option ℤ
  deriving DecidableEq

/-- What an ingest reports of a session. -/
structure Signals where
  fill : ℚ
  userTurns : ℕ
  compactions : ℕ
  deriving DecidableEq

inductive CaptureTrigger
  | ctx (pct : ℤ)
  | turns
  | search
  deriving DecidableEq

def bandTrigger (band : ℚ) : CaptureTrigger := .ctx (round (band * 100))

def policyFromSettings (s : CaptureSettings) : CapturePolicyConfig where
  bands := s.contextBands.insertionSort (· ≤ ·)
  turnsEvery := s.turnsEvery
  minIntervalMs := CAPTURE_MIN_INTERVAL_MS

/-- A session with no state yet; one that was never captured counts its turns from the start. -/
def initialState (sig : Signals) (hasPriorRun : Bool) : SessionCaptureState :=
  ⟨[], sig.compactions, if hasPriorRun then sig.userTurns else 0, none⟩

/-- The state as the signals find it: a compaction makes every band fire anew. -/
def opened (sig : Signals) (s : SessionCaptureState) : SessionCaptureState :=
  if s.compactionsSeen < sig.compactions then
    { s with fired := [], compactionsSeen := sig.compactions }
  else s

def blocked (cfg : CapturePolicyConfig) (now : ℤ) (s : SessionCaptureState) : Bool :=
  s.lastCaptureAt.any fun t => decide (now - t < cfg.minIntervalMs)

/-- The state after a capture. -/
def captured (sig : Signals) (now : ℤ) (fired : List ℚ) (s : SessionCaptureState) :
    SessionCaptureState :=
  { s with fired := fired, turnsAtLastCapture := sig.userTurns, lastCaptureAt := some now }

/-- Periodic capture is due. -/
def TurnsDue (cfg : CapturePolicyConfig) (sig : Signals) (s : SessionCaptureState) : Prop :=
  0 < cfg.turnsEvery ∧ cfg.turnsEvery ≤ sig.userTurns - s.turnsAtLastCapture

instance (cfg : CapturePolicyConfig) (sig : Signals) (s : SessionCaptureState) :
    Decidable (TurnsDue cfg sig s) :=
  inferInstanceAs (Decidable (0 < cfg.turnsEvery ∧
    cfg.turnsEvery ≤ sig.userTurns - s.turnsAtLastCapture))

/-- The bands that are crossed and have not fired, ascending. -/
def crossed (cfg : CapturePolicyConfig) (sig : Signals) (s : SessionCaptureState) : List ℚ :=
  (cfg.bands.insertionSort (· ≤ ·)).filter fun b => b ≤ sig.fill ∧ b ∉ s.fired

def decideCapture (sig : Signals) (state : Option SessionCaptureState) (hasPriorRun : Bool)
    (cfg : CapturePolicyConfig) (now : ℤ) : Option CaptureTrigger × SessionCaptureState :=
  let s := opened sig (state.getD (initialState sig hasPriorRun))
  if blocked cfg now s then (none, s)
  else
    match (crossed cfg sig s).getLast? with
    | some top =>
      (some (bandTrigger top),
        captured sig now
          (s.fired ++ (cfg.bands.insertionSort (· ≤ ·)).filter (· ≤ top)).eraseDups s)
    | none =>
      if TurnsDue cfg sig s then
        (some .turns, captured sig now s.fired s)
      else (none, s)

/-! What a decision can be. -/

section Spec
variable {sig : Signals} {state : Option SessionCaptureState} {prior : Bool}
  {cfg : CapturePolicyConfig} {now : ℤ}

/-- The state a decision starts from. -/
def before (sig : Signals) (state : Option SessionCaptureState) (prior : Bool) :
    SessionCaptureState :=
  opened sig (state.getD (initialState sig prior))

/-- A band is crossed that has not fired. -/
def BandDue (cfg : CapturePolicyConfig) (sig : Signals) (s : SessionCaptureState) : Prop :=
  ∃ b ∈ cfg.bands, b ≤ sig.fill ∧ b ∉ s.fired

theorem decide_blocked (h : blocked cfg now (before sig state prior) = true) :
    decideCapture sig state prior cfg now = (none, before sig state prior) := by
  simp only [before] at h
  simp only [decideCapture, h, if_true, before]

theorem getLast?_filter_max {bands : List ℚ} {p : ℚ → Bool} {top : ℚ}
    (hsorted : bands.Pairwise (· ≤ ·)) (h : (bands.filter p).getLast? = some top) :
    top ∈ bands ∧ p top = true ∧ ∀ b ∈ bands, p b = true → b ≤ top := by
  have hmem := List.mem_of_getLast? h
  obtain ⟨hin, hp⟩ := List.mem_filter.mp hmem
  refine ⟨hin, hp, ?_⟩
  intro b hb hpb
  obtain ⟨init, hinit⟩ := List.getLast?_eq_some_iff.mp h
  have hfsorted : (bands.filter p).Pairwise (· ≤ ·) := hsorted.filter p
  have hbf : b ∈ init ++ [top] := hinit ▸ List.mem_filter.mpr ⟨hb, hpb⟩
  rw [hinit, List.pairwise_append] at hfsorted
  rcases List.mem_append.mp hbf with hb | hb
  · exact hfsorted.2.2 b hb top (by simp)
  · exact (List.mem_singleton.mp hb).le

theorem decide_band (hfree : blocked cfg now (before sig state prior) = false)
    (h : BandDue cfg sig (before sig state prior)) :
    ∃ top ∈ cfg.bands, top ≤ sig.fill ∧ top ∉ (before sig state prior).fired ∧
      (∀ b ∈ cfg.bands, b ≤ sig.fill → b ∉ (before sig state prior).fired → b ≤ top) ∧
      ∃ fired, (∀ b, b ∈ fired ↔ b ∈ (before sig state prior).fired ∨ b ∈ cfg.bands ∧ b ≤ top) ∧
        decideCapture sig state prior cfg now =
          (some (bandTrigger top), captured sig now fired (before sig state prior)) := by
  have hsorted : (cfg.bands.insertionSort (· ≤ ·)).Pairwise (· ≤ ·) :=
    List.pairwise_insertionSort (· ≤ ·) cfg.bands
  have hmem : ∀ b, b ∈ cfg.bands.insertionSort (· ≤ ·) ↔ b ∈ cfg.bands :=
    fun b => List.mem_insertionSort (· ≤ ·)
  cases htop : (crossed cfg sig (before sig state prior)).getLast? with
  | none =>
    obtain ⟨b, hb, hle, hnot⟩ := h
    have hnil := List.getLast?_eq_none_iff.mp htop
    have hin : b ∈ crossed cfg sig (before sig state prior) :=
      List.mem_filter.mpr ⟨(hmem b).mpr hb, by simp [hle, hnot]⟩
    rw [hnil] at hin
    cases hin
  | some top =>
    obtain ⟨hin, hp, hmax⟩ := getLast?_filter_max hsorted htop
    simp only [decide_eq_true_eq] at hp hmax
    refine ⟨top, (hmem top).mp hin, hp.1, hp.2, ?_, ?_⟩
    · exact fun b hb hle hnot => hmax b ((hmem b).mpr hb) ⟨hle, hnot⟩
    · refine ⟨((before sig state prior).fired ++
        (cfg.bands.insertionSort (· ≤ ·)).filter (· ≤ top)).eraseDups, ?_, ?_⟩
      · intro b
        simp only [List.mem_eraseDups, List.mem_append, List.mem_filter, hmem, decide_eq_true_eq]
      · simp only [before] at hfree htop
        simp only [decideCapture, hfree, Bool.false_eq_true, if_false, htop, before]

theorem decide_noBand (hfree : blocked cfg now (before sig state prior) = false)
    (h : ¬ BandDue cfg sig (before sig state prior)) :
    decideCapture sig state prior cfg now =
      if TurnsDue cfg sig (before sig state prior) then
        (some .turns, captured sig now (before sig state prior).fired (before sig state prior))
      else (none, before sig state prior) := by
  have hnil : crossed cfg sig (before sig state prior) = [] := by
    apply List.filter_eq_nil_iff.mpr
    intro b hb hp
    simp only [decide_eq_true_eq] at hp
    exact h ⟨b, (List.mem_insertionSort (· ≤ ·)).mp hb, hp.1, hp.2⟩
  simp only [before] at hfree hnil
  simp only [decideCapture, hfree, Bool.false_eq_true, if_false, hnil, List.getLast?_nil]
  rfl

/-- A decision captures exactly when the interval has passed and a band or the turns are due. -/
theorem decide_isSome :
    (decideCapture sig state prior cfg now).1.isSome = true ↔
      blocked cfg now (before sig state prior) = false ∧
        (BandDue cfg sig (before sig state prior) ∨ TurnsDue cfg sig (before sig state prior)) := by
  cases hb : blocked cfg now (before sig state prior) with
  | true => simp [decide_blocked hb]
  | false =>
    by_cases hband : BandDue cfg sig (before sig state prior)
    · obtain ⟨top, -, -, -, -, fired, -, heq⟩ := decide_band hb hband
      simp [heq, hband]
    · rw [decide_noBand hb hband]
      by_cases hturns : TurnsDue cfg sig (before sig state prior)
      · rw [if_pos hturns]
        simp [hturns]
      · rw [if_neg hturns]
        simp [hband, hturns]

/-- A decision that captures nothing leaves the state as the signals found it. -/
theorem decide_none (h : (decideCapture sig state prior cfg now).1.isSome = false) :
    (decideCapture sig state prior cfg now).2 = before sig state prior := by
  cases hb : blocked cfg now (before sig state prior) with
  | true => rw [decide_blocked hb]
  | false =>
    by_cases hband : BandDue cfg sig (before sig state prior)
    · obtain ⟨top, -, -, -, -, fired, -, heq⟩ := decide_band hb hband
      simp [heq] at h
    · rw [decide_noBand hb hband] at h ⊢
      split_ifs at h ⊢ with hturns
      · cases h
      · rfl

/-- A capture counts turns and time from now on, and keeps what fired. -/
theorem decide_some (h : (decideCapture sig state prior cfg now).1.isSome = true) :
    ∃ fired, (decideCapture sig state prior cfg now).2 =
        captured sig now fired (before sig state prior) ∧
      (∀ b ∈ fired, b ∈ (before sig state prior).fired ∨ b ∈ cfg.bands) ∧
      (∀ b ∈ (before sig state prior).fired, b ∈ fired) ∧
      (BandDue cfg sig (before sig state prior) → ∃ b ∈ cfg.bands, b ∈ fired) := by
  obtain ⟨hb, hdue⟩ := decide_isSome.mp h
  by_cases hband : BandDue cfg sig (before sig state prior)
  · obtain ⟨top, htop, -, -, -, fired, hfired, heq⟩ := decide_band hb hband
    refine ⟨fired, by rw [heq], ?_, ?_, ?_⟩
    · intro b hbf
      rcases (hfired b).mp hbf with hold | ⟨hin, -⟩
      · exact Or.inl hold
      · exact Or.inr hin
    · exact fun b hbf => (hfired b).mpr (Or.inl hbf)
    · exact fun _ => ⟨top, htop, (hfired top).mpr (Or.inr ⟨htop, le_rfl⟩)⟩
  · have hturns : TurnsDue cfg sig (before sig state prior) := hdue.resolve_left hband
    refine ⟨(before sig state prior).fired, ?_, fun b hbf => Or.inl hbf, fun b hbf => hbf,
      fun hd => absurd hd hband⟩
    rw [decide_noBand hb hband, if_pos hturns]

end Spec

end ClaudeFleet.Capture
