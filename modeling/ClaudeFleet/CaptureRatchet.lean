import Mathlib.Order.Defs.Unbundled
import ClaudeFleet.CaptureSettings

/-! Changes of the capture settings that a workspace makes by itself. A change that needs no
approval goes down in a preorder, so a chain of them stays below the settings it started from. -/
namespace ClaudeFleet.Capture

/-- What the manifest may hold under `knowledgeCapture`. -/
inductive Stored
  | off
  | object (o : Patch)
  | other

/-- `normalizeCaptureSettings` of any value. -/
def normalizeStored : Stored → CaptureSettings
  | .off => { defaultCaptureSettings with enabled := false }
  | .object o => normalizeCaptureSettings (some o)
  | .other => normalizeCaptureSettings none

/-- What `write` puts in the manifest. -/
def store (next : CaptureSettings) : Stored :=
  if isDefaultCaptureSettings next then .other else .object next.toPatch

inductive SetStatus
  | unchanged
  | applied (reasons : List Reason)
  | proposed (reasons : List Reason)

/-- `set` of a patch, in a workspace that is trusted or not. -/
def set (trusted : Bool) (stored : Stored) (patch : Patch) : SetStatus × Stored :=
  let before := normalizeStored stored
  let after := normalizeCaptureSettings (some (before.toPatch.spread patch))
  if before = after then (.unchanged, stored)
  else
    let reasons := classifyNeedsApproval before after
    if reasons.isEmpty || trusted then (.applied reasons, store after)
    else (.proposed reasons, stored)

/-- A sequence of calls, each with the workspace trusted or not at that time. -/
def setAll (stored : Stored) : List (Bool × Patch) → List SetStatus × Stored
  | [] => ([], stored)
  | c :: calls =>
    let r := set c.1 stored c.2
    let rest := setAll r.2 calls
    (r.1 :: rest.1, rest.2)

/-- The change was not applied, or it needed no approval. -/
def SetStatus.unasked : SetStatus → Prop
  | .applied reasons => reasons = []
  | _ => True

/-! The order. -/

/-- The settings `a` need no approval where `b` was. -/
structure Below (a b : CaptureSettings) : Prop where
  enabled : a.enabled = true → b.enabled = true
  onSearchHit : a.onSearchHit = true → b.onSearchHit = true
  searchTopSessions : a.searchTopSessions ≤ b.searchTopSessions
  recaptureAfterTurns : b.recaptureAfterTurns ≤ a.recaptureAfterTurns
  bandCount : a.contextBands.length ≤ b.contextBands.length
  bands : ∀ p ∈ (a.contextBands.insertionSort (· ≤ ·)).zip (b.contextBands.insertionSort (· ≤ ·)),
    p.2 ≤ p.1
  turnsEvery : 0 < a.turnsEvery →
    b.turnsEvery ≠ 0 ∧ (0 < b.turnsEvery → b.turnsEvery ≤ a.turnsEvery)
  model : a.model = "session" ∨ a.model = b.model
  visibility : a.captureVisibility = .fleet → b.captureVisibility = .fleet
  retention : b.transcriptRetentionDays ≤ a.transcriptRetentionDays

theorem reason_eq_nil {b : Bool} {r : Reason} : reason b r = [] ↔ b = false := by
  cases b <;> simp [reason]

theorem bandReasons_eq_nil {before after : List ℚ} :
    bandReasons before after = [] ↔ after.length ≤ before.length ∧
      ∀ p ∈ (after.insertionSort (· ≤ ·)).zip (before.insertionSort (· ≤ ·)), p.2 ≤ p.1 := by
  simp only [bandReasons, List.length_insertionSort]
  split_ifs with hlen hlow
  · simp [hlen]
  · obtain ⟨p, hp, hlt⟩ := List.any_eq_true.mp hlow
    simp only [false_iff, not_and]
    intro _ h
    exact absurd (of_decide_eq_true hlt) (not_lt.mpr (h p hp))
  · simp only [true_iff]
    refine ⟨not_lt.mp hlen, fun p hp => ?_⟩
    by_contra hlt
    exact hlow (List.any_eq_true.mpr ⟨p, hp, by simpa using hlt⟩)

theorem turnsReasons_eq_nil {before after : ℤ} :
    turnsReasons before after = [] ↔
      (0 < after → before ≠ 0 ∧ (0 < before → before ≤ after)) := by
  simp only [turnsReasons]
  split_ifs with h₁ h₂
  · simp [h₁.1, h₁.2]
  · simp only [false_iff]
    omega
  · simp only [true_iff]
    omega

theorem visibility_iff {a b : CaptureVisibility} :
    (decide (b = .priv) && decide (a = .fleet)) = false ↔ (a = .fleet → b = .fleet) := by
  cases a <;> cases b <;> simp

theorem needsNoApproval_iff {before after : CaptureSettings} :
    classifyNeedsApproval before after = [] ↔ Below after before := by
  simp only [classifyNeedsApproval, List.flatten_eq_nil_iff, List.forall_mem_cons, reason_eq_nil,
    bandReasons_eq_nil, turnsReasons_eq_nil, visibility_iff]
  constructor
  · rintro ⟨h₁, h₂, h₃, h₄, ⟨h₅, h₆⟩, h₇, h₈, h₉, h₁₀, -⟩
    refine ⟨?_, ?_, by simpa using h₃, by simpa using h₄, h₅, h₆, h₇, ?_, h₉, by simpa using h₁₀⟩
    · intro he
      simpa [he] using h₁
    · intro he
      simpa [he] using h₂
    · by_contra hne
      simp only [not_or] at hne
      simp [hne.1, hne.2] at h₈
  · intro h
    refine ⟨?_, ?_, by simpa using h.searchTopSessions, by simpa using h.recaptureAfterTurns,
      ⟨h.bandCount, h.bands⟩, h.turnsEvery, ?_, h.visibility, by simpa using h.retention, by simp⟩
    · cases he : after.enabled with
      | true => simp [h.enabled he]
      | false => simp
    · cases he : after.onSearchHit with
      | true => simp [h.onSearchHit he]
      | false => simp
    · rcases h.model with hm | hm <;> simp [hm]

theorem zip_le_iff {l m : List ℚ} :
    (∀ p ∈ l.zip m, p.2 ≤ p.1) ↔
      ∀ (i : ℕ) (hl : i < l.length) (hm : i < m.length), m[i] ≤ l[i] := by
  constructor
  · intro h i hl hm
    have hz : i < (l.zip m).length := by
      rw [List.length_zip]
      exact lt_min hl hm
    have hmem := List.getElem_mem hz
    rw [List.getElem_zip] at hmem
    exact h _ hmem
  · intro h p hp
    obtain ⟨i, hz, rfl⟩ := List.mem_iff_getElem.mp hp
    rw [List.length_zip] at hz
    rw [List.getElem_zip]
    exact h i (lt_of_lt_of_le hz (min_le_left _ _)) (lt_of_lt_of_le hz (min_le_right _ _))

theorem Below.refl (a : CaptureSettings) : Below a a where
  enabled := id
  onSearchHit := id
  searchTopSessions := le_refl _
  recaptureAfterTurns := le_refl _
  bandCount := le_refl _
  bands := zip_le_iff.mpr fun _ _ _ => le_refl _
  turnsEvery := fun h => ⟨h.ne', fun _ => le_refl _⟩
  model := Or.inr rfl
  visibility := id
  retention := le_refl _

theorem Below.trans {a b c : CaptureSettings} (hb₀ : 0 ≤ b.turnsEvery) (hab : Below a b)
    (hbc : Below b c) : Below a c where
  enabled := fun h => hbc.enabled (hab.enabled h)
  onSearchHit := fun h => hbc.onSearchHit (hab.onSearchHit h)
  searchTopSessions := hab.searchTopSessions.trans hbc.searchTopSessions
  recaptureAfterTurns := hbc.recaptureAfterTurns.trans hab.recaptureAfterTurns
  bandCount := hab.bandCount.trans hbc.bandCount
  bands := by
    refine zip_le_iff.mpr fun i ha hc => ?_
    -- the shorter list decides which places are compared, and `b` has them all
    have hb : i < (b.contextBands.insertionSort (· ≤ ·)).length := by
      rw [List.length_insertionSort] at ha ⊢
      exact lt_of_lt_of_le ha hab.bandCount
    exact (zip_le_iff.mp hbc.bands i hb hc).trans (zip_le_iff.mp hab.bands i ha hb)
  turnsEvery := by
    intro ha
    obtain ⟨hb, hle⟩ := hab.turnsEvery ha
    have hpos : 0 < b.turnsEvery := lt_of_le_of_ne hb₀ (Ne.symm hb)
    obtain ⟨hc, hle'⟩ := hbc.turnsEvery hpos
    exact ⟨hc, fun h => (hle' h).trans (hle hpos)⟩
  model := by
    rcases hab.model with h | h
    · exact Or.inl h
    · rcases hbc.model with h' | h'
      · exact Or.inl (h.trans h')
      · exact Or.inr (h.trans h')
  visibility := fun h => hbc.visibility (hab.visibility h)
  retention := hbc.retention.trans hab.retention

/-! Normalized settings. -/

def Within (lo hi n : ℤ) : Prop := lo ≤ n ∧ n ≤ hi

/-- A band as whole hundredths in its range. -/
def IsBand (b : ℚ) : Prop := ∃ n : ℤ, Within 50 95 n ∧ b = n / 100

structure Normal (s : CaptureSettings) : Prop where
  searchTopSessions : Within 1 5 s.searchTopSessions
  recaptureAfterTurns : Within 10 500 s.recaptureAfterTurns
  bands : ∀ b ∈ s.contextBands, IsBand b
  sorted : s.contextBands.Pairwise (· < ·)
  bandCount : s.contextBands.length ≤ 4
  turnsEvery : s.turnsEvery = 0 ∨ Within 10 500 s.turnsEvery
  model : s.model = "session" ∨ isModelId s.model = true
  retention : Within 30 3650 s.transcriptRetentionDays

theorem round_int (n : ℤ) : round (n : ℚ) = n := by
  rw [round, Int.floor_eq_iff]
  constructor <;> linarith

theorem clampInt_within {lo hi d : ℤ} (h : lo ≤ hi) (hd : Within lo hi d) (v : Option ℚ) :
    Within lo hi (clampInt v lo hi d) := by
  cases v with
  | none => exact hd
  | some x => exact ⟨le_min h (le_max_left _ _), min_le_left _ _⟩

theorem clampInt_of_within {lo hi n : ℤ} (h : Within lo hi n) (d : ℤ) :
    clampInt (some (n : ℚ)) lo hi d = n := by
  rw [clampInt, round_int, max_eq_right h.1, min_eq_right h.2]

theorem isBand_normalize (x : ℚ) :
    IsBand ((round (min (95 / 100) (max (1 / 2) x) * 100) : ℚ) / 100) := by
  have h₁ : 1 / 2 ≤ min (95 / 100) (max (1 / 2) x) := le_min (by norm_num) (le_max_left _ _)
  have h₂ : min (95 / 100) (max (1 / 2) x) ≤ 95 / 100 := min_le_left _ _
  refine ⟨_, ⟨?_, ?_⟩, rfl⟩
  · refine Int.le_floor.mpr ?_
    push_cast
    linarith
  · refine Int.lt_add_one_iff.mp (Int.floor_lt.mpr ?_)
    push_cast
    linarith

theorem normalize_of_isBand {b : ℚ} (h : IsBand b) :
    (round (min (95 / 100) (max (1 / 2) b) * 100) : ℚ) / 100 = b := by
  obtain ⟨n, ⟨hlo, hhi⟩, rfl⟩ := h
  have hlo' : (50 : ℚ) ≤ n := by exact_mod_cast hlo
  have hhi' : (n : ℚ) ≤ 95 := by exact_mod_cast hhi
  have hmax : max (1 / 2) ((n : ℚ) / 100) = n / 100 := max_eq_right (by linarith)
  have hmin : min (95 / 100) ((n : ℚ) / 100) = n / 100 := min_eq_right (by linarith)
  rw [hmax, hmin, div_mul_cancel₀ _ (by norm_num), round_int]

theorem sorted_normalizeContextBands (v : List ℚ) :
    (normalizeContextBands v).Pairwise (· < ·) := by
  have hle : (normalizeContextBands v).Pairwise (· ≤ ·) :=
    (List.pairwise_insertionSort (· ≤ ·) _).sublist (List.take_sublist _ _)
  have hne : (normalizeContextBands v).Pairwise (· ≠ ·) :=
    ((List.perm_insertionSort (· ≤ ·) _).nodup_iff.mpr (List.nodup_dedup _)).sublist
      (List.take_sublist _ _)
  exact hle.imp₂ (fun _ _ h₁ h₂ => lt_of_le_of_ne h₁ h₂) hne

theorem isBand_normalizeContextBands {v : List ℚ} {b : ℚ} (h : b ∈ normalizeContextBands v) :
    IsBand b := by
  have hb := List.mem_of_mem_take h
  rw [List.mem_insertionSort, List.mem_dedup] at hb
  obtain ⟨x, -, rfl⟩ := List.mem_map.mp hb
  exact isBand_normalize x

/-- Sorted bands of whole hundredths are left as they are. -/
theorem normalizeContextBands_eq_self {v : List ℚ} (hband : ∀ b ∈ v, IsBand b)
    (hsorted : v.Pairwise (· < ·)) (hcount : v.length ≤ 4) : normalizeContextBands v = v := by
  have hvals : (v.map fun x => (round (min (95 / 100) (max (1 / 2) x) * 100) : ℚ) / 100) = v := by
    conv_rhs => rw [← List.map_id v]
    exact List.map_congr_left fun b hb => normalize_of_isBand (hband b hb)
  have hnodup : v.Nodup := hsorted.imp fun h => h.ne
  have hle : v.Pairwise (· ≤ ·) := hsorted.imp fun h => h.le
  simp only [normalizeContextBands]
  rw [hvals, hnodup.dedup, hle.insertionSort_eq, List.take_of_length_le hcount]

theorem normal_default : Normal defaultCaptureSettings where
  searchTopSessions := ⟨by decide, by decide⟩
  recaptureAfterTurns := ⟨by decide, by decide⟩
  bands := by
    intro b hb
    refine ⟨85, ⟨by norm_num, by norm_num⟩, ?_⟩
    simpa [defaultCaptureSettings] using hb
  sorted := List.pairwise_singleton _ _
  bandCount := by decide
  turnsEvery := Or.inl rfl
  model := Or.inl rfl
  retention := ⟨by decide, by decide⟩

theorem normalizeTurnsEvery_within (v : Option ℚ) :
    normalizeTurnsEvery v = 0 ∨ Within 10 500 (normalizeTurnsEvery v) := by
  simp only [normalizeTurnsEvery]
  split_ifs
  · exact Or.inl rfl
  · exact Or.inr ⟨le_min (by norm_num) (le_max_left _ _), min_le_left _ _⟩

theorem normal_normalize (v : Option Patch) : Normal (normalizeCaptureSettings v) := by
  cases v with
  | none => exact normal_default
  | some o =>
    refine ⟨clampInt_within (by norm_num) normal_default.searchTopSessions _,
      clampInt_within (by norm_num) normal_default.recaptureAfterTurns _, ?_, ?_, ?_,
      normalizeTurnsEvery_within _, ?_, clampInt_within (by norm_num) normal_default.retention _⟩
    · intro b hb
      cases hbands : o.contextBands with
      | none => exact normal_default.bands b (by simpa [normalizeCaptureSettings, hbands] using hb)
      | some bands =>
        exact isBand_normalizeContextBands
          (by simpa [normalizeCaptureSettings, hbands] using hb : b ∈ normalizeContextBands bands)
    · cases hbands : o.contextBands with
      | none => simpa [normalizeCaptureSettings, hbands] using normal_default.sorted
      | some bands =>
        simpa [normalizeCaptureSettings, hbands] using sorted_normalizeContextBands bands
    · cases hbands : o.contextBands with
      | none => simpa [normalizeCaptureSettings, hbands] using normal_default.bandCount
      | some bands =>
        simp only [normalizeCaptureSettings, hbands, Option.map_some, Option.getD_some]
        exact List.length_take_le _ _
    · cases hmodel : o.model with
      | none => exact Or.inl (by simp [normalizeCaptureSettings, hmodel, defaultCaptureSettings])
      | some m =>
        by_cases hm : m = "session" ∨ isModelId m = true
        · simp [normalizeCaptureSettings, hmodel, Option.filter, hm]
        · exact Or.inl
            (by simp [normalizeCaptureSettings, hmodel, Option.filter, hm, defaultCaptureSettings])

theorem normal_normalizeStored (v : Stored) : Normal (normalizeStored v) := by
  cases v with
  | off => exact { normal_default with }
  | object o => exact normal_normalize (some o)
  | other => exact normal_normalize none

theorem normalizeTurnsEvery_of_within {n : ℤ} (h : n = 0 ∨ Within 10 500 n) :
    normalizeTurnsEvery (some (n : ℚ)) = n := by
  simp only [normalizeTurnsEvery, Option.map_some, Option.getD_some, round_int]
  rcases h with rfl | ⟨hlo, hhi⟩
  · simp
  · rw [if_neg (by omega), max_eq_right hlo, min_eq_right hhi]

/-- Normalized settings read back as they are. -/
theorem Normal.normalize_toPatch {s : CaptureSettings} (h : Normal s) :
    normalizeCaptureSettings (some s.toPatch) = s := by
  have hbands := normalizeContextBands_eq_self h.bands h.sorted h.bandCount
  have hmodel : s.model = "session" ∨ isModelId s.model = true := h.model
  simp only [normalizeCaptureSettings, CaptureSettings.toPatch, Option.getD_some, Option.map_some,
    clampInt_of_within h.searchTopSessions, clampInt_of_within h.recaptureAfterTurns,
    clampInt_of_within h.retention, normalizeTurnsEvery_of_within h.turnsEvery, hbands,
    Option.filter, hmodel, decide_true, if_true]
  cases s with
  | mk enabled onSearchHit top after bands every model days visibility => cases visibility <;> rfl

theorem normalizeStored_store (s : CaptureSettings) (h : Normal s) :
    normalizeStored (store s) = s := by
  by_cases hd : s = defaultCaptureSettings
  · subst hd
    simp [store, isDefaultCaptureSettings, normalizeStored, normalizeCaptureSettings]
  · simp only [store, isDefaultCaptureSettings, hd, decide_false, Bool.false_eq_true, if_false]
    exact h.normalize_toPatch

/-! Changes made one by one. -/

theorem needsNoApproval_trans (u v w : Stored)
    (huv : classifyNeedsApproval (normalizeStored u) (normalizeStored v) = [])
    (hvw : classifyNeedsApproval (normalizeStored v) (normalizeStored w) = []) :
    classifyNeedsApproval (normalizeStored u) (normalizeStored w) = [] := by
  rw [needsNoApproval_iff] at huv hvw ⊢
  have hv : 0 ≤ (normalizeStored v).turnsEvery := by
    rcases (normal_normalizeStored v).turnsEvery with h | h
    · exact h.ge
    · exact (by norm_num : (0 : ℤ) ≤ 10).trans h.1
  exact Below.trans hv hvw huv

theorem needsNoApproval_refl (a : CaptureSettings) : classifyNeedsApproval a a = [] :=
  needsNoApproval_iff.mpr (Below.refl a)

/-- One call: a change that was applied without reasons goes down, and any other leaves the
settings. -/
theorem set_unasked {trusted : Bool} {stored : Stored} {patch : Patch}
    (h : (set trusted stored patch).1.unasked) :
    classifyNeedsApproval (normalizeStored stored)
      (normalizeStored (set trusted stored patch).2) = [] := by
  simp only [set] at h ⊢
  split_ifs at h ⊢ with heq happly
  · exact needsNoApproval_refl _
  · rw [normalizeStored_store _ (normal_normalize _)]
    exact h
  · exact needsNoApproval_refl _

theorem setAll_unasked (calls : List (Bool × Patch)) : ∀ stored : Stored,
    (∀ status ∈ (setAll stored calls).1, status.unasked) →
      classifyNeedsApproval (normalizeStored stored)
        (normalizeStored (setAll stored calls).2) = [] := by
  induction calls with
  | nil => exact fun stored _ => needsNoApproval_refl _
  | cons c calls ih =>
    intro stored h
    have hone : (set c.1 stored c.2).1.unasked := h _ (by simp [setAll])
    have hrest := ih (set c.1 stored c.2).2 fun status hs => h status (by simp [setAll, hs])
    exact needsNoApproval_trans _ _ _ (set_unasked hone) hrest

/-- In a workspace that is not trusted no call applies a change that needs approval. -/
theorem setAll_untrusted (calls : List (Bool × Patch)) (h : ∀ c ∈ calls, c.1 = false) :
    ∀ stored : Stored, ∀ status ∈ (setAll stored calls).1, status.unasked := by
  induction calls with
  | nil => simp [setAll]
  | cons c calls ih =>
    intro stored status hs
    simp only [setAll, List.mem_cons] at hs
    rcases hs with rfl | hs
    · have hc := h c (by simp)
      simp only [set, hc, Bool.or_false]
      split_ifs with heq hnil
      · trivial
      · simpa [SetStatus.unasked] using hnil
      · trivial
    · exact ih (fun d hd => h d (by simp [hd])) _ status hs

theorem needsNoApproval_preorder : IsPreorder Stored
    (fun u v => classifyNeedsApproval (normalizeStored u) (normalizeStored v) = []) where
  refl := fun v => needsNoApproval_refl (normalizeStored v)
  trans := needsNoApproval_trans

/-- Needing no approval is a preorder on normalized settings, so calls that each apply what needs
none, among them all the calls of a workspace that is not trusted, never reach settings that would
have needed approval at once. Reading the settings back changes nothing. -/
theorem approval_ratchet :
    IsPreorder Stored
      (fun u v => classifyNeedsApproval (normalizeStored u) (normalizeStored v) = []) ∧
    (∀ (stored : Stored) (calls : List (Bool × Patch)),
      (∀ status ∈ (setAll stored calls).1, status.unasked) →
        classifyNeedsApproval (normalizeStored stored)
          (normalizeStored (setAll stored calls).2) = []) ∧
    (∀ (stored : Stored) (calls : List (Bool × Patch)), (∀ c ∈ calls, c.1 = false) →
      ∀ status ∈ (setAll stored calls).1, status.unasked) ∧
    ∀ v : Stored, normalizeStored (.object (normalizeStored v).toPatch) = normalizeStored v ∧
      normalizeStored (store (normalizeStored v)) = normalizeStored v := by
  refine ⟨needsNoApproval_preorder, fun stored calls => setAll_unasked calls stored,
    fun stored calls h => setAll_untrusted calls h stored, fun v => ?_⟩
  have hnormal := normal_normalizeStored v
  exact ⟨hnormal.normalize_toPatch, normalizeStored_store _ hnormal⟩

end ClaudeFleet.Capture
