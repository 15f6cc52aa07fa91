import ClaudeFleet.CapturePolicy
import ClaudeFleet.CaptureCost
import ClaudeFleet.Transition

/-! The capture scheduler as one session sees it, with the settings of its workspace. Judging an
ingest or a search hit, starting a queued trigger, admitting it and writing its row are steps of
their own; the times that they read come from the environment, which may set the clock back. The
state of the policy is memory: after a restart it is rebuilt from the last row. -/
namespace ClaudeFleet.Capture

/-- A row of capture_runs. -/
structure CaptureRun where
  trigger : CaptureTrigger
  startedAt : ℤ
  userTurns : ℕ
  compactions : Option ℕ
  deriving DecidableEq

/-- No two runs of a session start at one time, so that the order of ids decides nothing. -/
def laterOf (last : Option CaptureRun) (r : CaptureRun) : Option CaptureRun :=
  match last with
  | none => some r
  | some q => if q.startedAt ≤ r.startedAt then some r else some q

def lastFor (runs : List CaptureRun) : Option CaptureRun := runs.foldl laterOf none

/-- Every band up to the one of the last run counts as fired, when that run was a context-band
capture and the session has not compacted since. -/
def seedCaptureState (sig : Signals) (last : Option CaptureRun) (cfg : CapturePolicyConfig) :
    SessionCaptureState :=
  match last with
  | none => ⟨[], sig.compactions, 0, none⟩
  | some r =>
    let fired :=
      match r.trigger with
      | .ctx pct =>
        if r.compactions = some sig.compactions then
          cfg.bands.filter fun b => round (b * 100) ≤ pct
        else []
      | _ => []
    ⟨fired, sig.compactions, sig.userTurns, some r.startedAt⟩

structure Pending where
  trigger : CaptureTrigger
  userTurns : ℕ
  compactions : ℕ
  queuedAt : ℤ
  deriving DecidableEq

inductive RunPc
  /-- On the way to its admission. -/
  | started
  | inserting (now : ℤ)
  | running
  deriving DecidableEq

/-- `runs` outlives the app. An ingest whose state is not in memory waits in `judging` for the last
row, a search hit in `searching`. -/
structure Session where
  compactions : ℕ
  userTurns : ℕ
  runs : List CaptureRun
  state : Option SessionCaptureState
  lastStartedAt : Option ℤ
  judging : Option (Signals × ℤ)
  searching : List (Signals × ℤ)
  queued : Option Pending
  inFlight : Option (Pending × RunPc)
  deriving DecidableEq

def QUEUE_TTL_MS : ℤ := 15 * 60000

inductive Insert
  | ok
  | failed
  /-- The row is there, and the answer did not arrive. -/
  | lost
  deriving DecidableEq

inductive Action
  /-- The session goes on, by some compactions and user turns. -/
  | grow (compactions userTurns : ℕ)
  | ingest (fill : ℚ) (now : ℤ)
  | ingestLast
  | searchHit (fill : ℚ) (now : ℤ)
  | searchLast (i : ℕ)
  /-- A store read of a judgement fails. -/
  | ingestFails
  | searchFails (i : ℕ)
  /-- A slot is free. -/
  | pump (now : ℤ)
  /-- The run ends before its admission: switched off, no target, or a read that failed. -/
  | skip
  | admission (now : ℤ) (underCap : Bool)
  | insert (a : Insert)
  | finish
  /-- The queue is cleared. -/
  | stop
  | restart
  deriving DecidableEq

namespace Session

def start : Session := ⟨0, 0, [], none, none, none, [], none, none⟩

def signals (s : Session) (fill : ℚ) : Signals := ⟨fill, s.userTurns, s.compactions⟩

def recentlyStarted (s : Session) (now : ℤ) : Bool :=
  s.lastStartedAt.any fun t => decide (now - t < CAPTURE_MIN_INTERVAL_MS)

/-- A queued trigger is replaced by the newest. -/
def enqueue (s : Session) (trigger : CaptureTrigger) (sig : Signals) (now : ℤ) : Session :=
  { s with queued := some ⟨trigger, sig.userTurns, sig.compactions, now⟩ }

/-- `considerIngest` from the policy on. -/
def judge (s : Session) (cfg : CapturePolicyConfig) (sig : Signals) (state : SessionCaptureState)
    (now : ℤ) : Session :=
  let d := decideCapture sig (some state) true cfg now
  let s := { s with state := some d.2, judging := none }
  match d.1 with
  | none => s
  | some trigger => s.enqueue trigger sig now

/-- `considerSearch` after `lastFor` -/
def searchDue (last : Option CaptureRun) (sig : Signals) (recaptureAfterTurns now : ℤ) : Bool :=
  !last.any fun r => decide (now - r.startedAt < CAPTURE_MIN_INTERVAL_MS) ||
    decide ((sig.userTurns : ℤ) - r.userTurns < recaptureAfterTurns)

/-- `runs.start` -/
def book (s : Session) (p : Pending) (now : ℤ) : Session :=
  { s with runs := s.runs ++ [⟨p.trigger, now, p.userTurns, some p.compactions⟩] }

/-- The guards of an admission, which reads the time first. -/
def admits (s : Session) (now : ℤ) (underCap : Bool) : Bool :=
  !s.recentlyStarted now &&
    !((lastFor s.runs).any fun r => decide (now - r.startedAt < CAPTURE_MIN_INTERVAL_MS)) &&
    underCap

end Session

open Session

def step (settings : CaptureSettings) (s : Session) : Action → Option Session
  | .grow compactions userTurns =>
    some { s with
      compactions := s.compactions + compactions
      userTurns := s.userTurns + userTurns }
  | .ingest fill now =>
    -- one ingest of a session is judged at a time
    if s.judging.isSome ∨ settings.enabled = false ∨ s.recentlyStarted now then some s
    else
      match s.state with
      | some state =>
        some (s.judge (policyFromSettings settings) (s.signals fill) state now)
      | none => some { s with judging := some (s.signals fill, now) }
  | .ingestLast =>
    match s.judging with
    | some (sig, now) =>
      let cfg := policyFromSettings settings
      some (s.judge cfg sig (seedCaptureState sig (lastFor s.runs) cfg) now)
    | none => none
  | .searchHit fill now =>
    if s.inFlight.isSome ∨ settings.enabled = false ∨ s.recentlyStarted now then some s
    else some { s with searching := s.searching ++ [(s.signals fill, now)] }
  | .searchLast i =>
    match s.searching[i]? with
    | some (sig, now) =>
      let s' := { s with searching := s.searching.eraseIdx i }
      some (if searchDue (lastFor s.runs) sig settings.recaptureAfterTurns now then
          s'.enqueue .search sig now
        else s')
    | none => none
  | .ingestFails => some { s with judging := none }
  | .searchFails i => some { s with searching := s.searching.eraseIdx i }
  | .pump now =>
    match s.queued, s.inFlight with
    | some p, none =>
      some { s with
        queued := none
        inFlight := if QUEUE_TTL_MS < now - p.queuedAt then none else some (p, .started) }
    | _, _ => none
  | .skip =>
    match s.inFlight with
    | some (_, .started) => some { s with inFlight := none }
    | _ => none
  | .admission now underCap =>
    match s.inFlight with
    | some (p, .started) =>
      some (if s.admits now underCap then
          { s with lastStartedAt := some now, inFlight := some (p, .inserting now) }
        else { s with inFlight := none })
    | _ => none
  | .insert a =>
    match s.inFlight with
    | some (p, .inserting now) =>
      match a with
      | .ok => some { s.book p now with inFlight := some (p, .running) }
      | .failed => some { s with inFlight := none }
      | .lost => some { s.book p now with inFlight := none }
    | _ => none
  | .finish =>
    match s.inFlight with
    | some (_, .running) => some { s with inFlight := none }
    | _ => none
  | .stop => some { s with queued := none }
  | .restart =>
    some { start with compactions := s.compactions, userTurns := s.userTurns, runs := s.runs }

/-- A context-band run of the epoch. -/
def CaptureRun.bandOf (c : ℕ) (r : CaptureRun) : Bool :=
  match r.trigger with
  | .ctx _ => r.compactions = some c
  | _ => false

/-- The same band captured twice in one epoch. -/
def SameBand (r r' : CaptureRun) : Prop :=
  (∃ pct, r.trigger = .ctx pct) ∧ r.trigger = r'.trigger ∧ r.compactions = r'.compactions

/-- Where the state of the policy is rebuilt, the last row is a band run of the current epoch
whenever there is one. -/
def Recalls (s : Session) (a : Action) : Prop :=
  a = .ingestLast → ∀ j ∈ s.judging, (∃ r ∈ s.runs, r.bandOf j.1.compactions = true) →
    ∃ r ∈ lastFor s.runs, r.bandOf j.1.compactions = true

instance (s : Session) (a : Action) : Decidable (Recalls s a) :=
  inferInstanceAs (Decidable (a = .ingestLast → ∀ j ∈ s.judging,
    (∃ r ∈ s.runs, r.bandOf j.1.compactions = true) →
      ∃ r ∈ lastFor s.runs, r.bandOf j.1.compactions = true))

/-! What the scheduler has of a session: its runs, the one on the way to its row, the queued one. -/

/-- A trigger with the epoch it was decided in. -/
abbrev Firing := CaptureTrigger × Option ℕ

def CaptureRun.firing (r : CaptureRun) : Firing := (r.trigger, r.compactions)

def Pending.firing (p : Pending) : Firing := (p.trigger, some p.compactions)

/-- A run in flight that has no row yet. -/
def unbooked : Option (Pending × RunPc) → List Firing
  | some (_, .running) => []
  | some (p, _) => [p.firing]
  | none => []

def Session.waiting (s : Session) : List Firing :=
  unbooked s.inFlight ++ (s.queued.map Pending.firing).toList

def Session.firings (s : Session) : List Firing := s.runs.map CaptureRun.firing ++ s.waiting

/-- The bands of one epoch fire upwards. -/
def Upwards (x y : Firing) : Prop :=
  ∀ p q c, x = (.ctx p, some c) → y = (.ctx q, some c) → p < q

/-- The state of the policy has every band that fired in the epoch it has seen. -/
structure Remembers (cfg : CapturePolicyConfig) (l : List Firing) (st : SessionCaptureState) :
    Prop where
  epoch : ∀ p c, (CaptureTrigger.ctx p, some c) ∈ l → c ≤ st.compactionsSeen
  fired : ∀ p, (CaptureTrigger.ctx p, some st.compactionsSeen) ∈ l →
    ∀ b ∈ cfg.bands, round (b * 100) ≤ p → b ∈ st.fired

structure Sound (cfg : CapturePolicyConfig) (s : Session) : Prop where
  upwards : s.firings.Pairwise Upwards
  epoch : ∀ p c, (CaptureTrigger.ctx p, some c) ∈ s.firings → c ≤ s.compactions
  known : ∀ st ∈ s.state, Remembers cfg s.firings st ∧ st.compactionsSeen ≤ s.compactions
  unknown : s.state = none → ∀ p c, (CaptureTrigger.ctx p, c) ∉ s.waiting
  judging : ∀ j ∈ s.judging, s.state = none ∧ j.1.compactions ≤ s.compactions ∧
    ∀ p c, (CaptureTrigger.ctx p, some c) ∈ s.firings → c ≤ j.1.compactions
  times : s.runs.Pairwise fun r r' => r.startedAt < r'.startedAt
  inserting : ∀ p now, s.inFlight = some (p, .inserting now) → ∀ r ∈ s.runs, r.startedAt < now
  counted : ∀ r ∈ s.runs, ∃ c, r.compactions = some c

theorem start_sound (cfg : CapturePolicyConfig) : Sound cfg start := by
  constructor <;> simp [start, firings, waiting, unbooked]

/-! The last row. -/

theorem foldl_laterOf_of_lt {runs : List CaptureRun} {q : CaptureRun}
    (h : (q :: runs).Pairwise fun r r' => r.startedAt < r'.startedAt) :
    runs.foldl laterOf (some q) = (q :: runs).getLast? := by
  induction runs generalizing q with
  | nil => rfl
  | cons r runs ih =>
    obtain ⟨hq, hrest⟩ := List.pairwise_cons.mp h
    have hle : q.startedAt ≤ r.startedAt := (hq r List.mem_cons_self).le
    simp only [List.foldl_cons, laterOf, if_pos hle, List.getLast?_cons_cons]
    exact ih hrest

theorem lastFor_eq_getLast {runs : List CaptureRun}
    (h : runs.Pairwise fun r r' => r.startedAt < r'.startedAt) :
    lastFor runs = runs.getLast? := by
  cases runs with
  | nil => rfl
  | cons r runs => exact foldl_laterOf_of_lt h

/-- No row starts after the last one. -/
theorem le_lastFor {runs : List CaptureRun} {last : CaptureRun}
    (h : runs.Pairwise fun r r' => r.startedAt < r'.startedAt) (hl : lastFor runs = some last) :
    ∃ before, runs = before ++ [last] ∧ ∀ r ∈ runs, r.startedAt ≤ last.startedAt := by
  rw [lastFor_eq_getLast h] at hl
  obtain ⟨before, rfl⟩ := List.getLast?_eq_some_iff.mp hl
  refine ⟨before, rfl, ?_⟩
  intro r hr
  rcases List.mem_append.mp hr with hr | hr
  · exact ((List.pairwise_append.mp h).2.2 r hr last (by simp)).le
  · rw [List.mem_singleton.mp hr]

/-! One decision. -/

/-- Bands are whole percents. -/
def Percents (cfg : CapturePolicyConfig) : Prop := ∀ b ∈ cfg.bands, ∃ n : ℤ, b = n / 100

theorem round_percent (n : ℤ) : round ((n : ℚ) / 100 * 100) = n := by
  have h : (n : ℚ) / 100 * 100 = n := by ring
  rw [h, round, Int.floor_intCast_add]
  norm_num

theorem Percents.le {cfg : CapturePolicyConfig} (h : Percents cfg) {b top : ℚ} (hb : b ∈ cfg.bands)
    (ht : top ∈ cfg.bands) (hle : round (b * 100) ≤ round (top * 100)) : b ≤ top := by
  obtain ⟨n, rfl⟩ := h b hb
  obtain ⟨m, rfl⟩ := h top ht
  rw [round_percent, round_percent] at hle
  have : (n : ℚ) ≤ m := by exact_mod_cast hle
  linarith

theorem percents_settings (v : Option Patch) :
    Percents (policyFromSettings (normalizeCaptureSettings v)) := by
  have hdefault : ∀ b ∈ defaultCaptureSettings.contextBands, ∃ n : ℤ, b = n / 100 := by
    intro b hb
    have hb : b = 85 / 100 := by simpa [defaultCaptureSettings] using hb
    exact ⟨85, by rw [hb]; norm_num⟩
  have hbands : ∀ b ∈ (normalizeCaptureSettings v).contextBands, ∃ n : ℤ, b = n / 100 := by
    rcases v with _ | o
    · exact hdefault
    · rcases hbands : o.contextBands with _ | bands
      · simpa [normalizeCaptureSettings, hbands] using hdefault
      · intro b hb
        simp only [normalizeCaptureSettings, hbands, Option.map_some, Option.getD_some] at hb
        have hb := List.mem_of_mem_take hb
        rw [List.mem_insertionSort, List.mem_dedup] at hb
        obtain ⟨x, -, rfl⟩ := List.mem_map.mp hb
        exact ⟨_, rfl⟩
  intro b hb
  exact hbands b ((List.mem_insertionSort (· ≤ ·)).mp hb)

section Decide
variable {cfg : CapturePolicyConfig} {l : List Firing} {st : SessionCaptureState} {sig : Signals}
  {now : ℤ}

theorem Remembers.afresh (h : Remembers cfg l st) (hle : st.compactionsSeen ≤ sig.compactions) :
    Remembers cfg l (opened sig st) ∧ (opened sig st).compactionsSeen = sig.compactions := by
  simp only [opened]
  split
  · next hlt =>
    refine ⟨⟨fun p c hm => (h.epoch p c hm).trans hlt.le, ?_⟩, rfl⟩
    -- nothing has fired in the new epoch
    intro p hm
    exact absurd (h.epoch p _ hm) (by simpa using hlt)
  · next hge => exact ⟨h, by omega⟩

/-- A band that fires is above every band that fired in the epoch. -/
theorem Remembers.decide (h : Remembers cfg l st) (hpct : Percents cfg)
    (hle : st.compactionsSeen ≤ sig.compactions) :
    (decideCapture sig (some st) true cfg now).2.compactionsSeen = sig.compactions ∧
      ((decideCapture sig (some st) true cfg now).1 = none →
        Remembers cfg l (decideCapture sig (some st) true cfg now).2) ∧
      ∀ trigger, (decideCapture sig (some st) true cfg now).1 = some trigger →
        (∀ x ∈ l, Upwards x (trigger, some sig.compactions)) ∧
          Remembers cfg (l ++ [(trigger, some sig.compactions)])
            (decideCapture sig (some st) true cfg now).2 := by
  obtain ⟨hopen, hseen⟩ := h.afresh hle
  have hbefore : before sig (some st) true = opened sig st := rfl
  rcases hb : blocked cfg now (opened sig st) with _ | _
  · by_cases hband : BandDue cfg sig (opened sig st)
    · obtain ⟨top, htop, -, hnot, -, fired, hfired, heq⟩ :=
        @decide_band sig (some st) true cfg now (hbefore ▸ hb) (hbefore ▸ hband)
      rw [hbefore] at heq hnot hfired
      simp only [heq]
      refine ⟨hseen, fun hn => by simp at hn, ?_⟩
      intro trigger ht
      obtain rfl := Option.some.inj ht
      constructor
      · rintro ⟨t, c'⟩ hx p q c hxe hye
        simp only [bandTrigger, Prod.mk.injEq, CaptureTrigger.ctx.injEq,
          Option.some.injEq] at hxe hye
        obtain ⟨rfl, rfl⟩ := hxe
        obtain ⟨rfl, rfl⟩ := hye
        by_contra hge
        exact hnot (hopen.fired p (hseen ▸ hx) top htop (by omega))
      · constructor
        · intro p c hm
          rcases List.mem_append.mp hm with hm | hm
          · exact hopen.epoch p c hm
          · simp only [List.mem_singleton, Prod.mk.injEq, Option.some.injEq] at hm
            simp only [captured, hseen, hm.2, le_refl]
        · intro p hm b hbin hble
          simp only [captured] at hm ⊢
          rw [hfired]
          rcases List.mem_append.mp hm with hm | hm
          · exact Or.inl (hopen.fired p hm b hbin hble)
          · simp only [List.mem_singleton, Prod.mk.injEq, bandTrigger,
              CaptureTrigger.ctx.injEq] at hm
            exact Or.inr ⟨hbin, hpct.le hbin htop (hm.1 ▸ hble)⟩
    · have heq := @decide_noBand sig (some st) true cfg now (hbefore ▸ hb) (hbefore ▸ hband)
      rw [hbefore] at heq
      split_ifs at heq with hturns
      · simp only [heq]
        refine ⟨hseen, fun hn => by simp at hn, ?_⟩
        intro trigger ht
        obtain rfl := Option.some.inj ht
        refine ⟨?_, ?_, ?_⟩
        · intro x hx p q c hxe hye
          simp at hye
        · intro p c hm
          exact hopen.epoch p c (by simpa using hm)
        · intro p hm
          exact hopen.fired p (by simpa [captured] using hm)
      · simp only [heq]
        exact ⟨hseen, fun _ => hopen, fun trigger ht => by simp at ht⟩
  · have heq := @decide_blocked sig (some st) true cfg now (hbefore ▸ hb)
    rw [hbefore] at heq
    simp only [heq]
    exact ⟨hseen, fun _ => hopen, fun trigger ht => by simp at ht⟩

/-- The state that is rebuilt from the last row. -/
theorem remembers_seed {runs : List CaptureRun}
    (hup : (runs.map CaptureRun.firing).Pairwise Upwards)
    (htimes : runs.Pairwise fun r r' => r.startedAt < r'.startedAt)
    (hepoch : ∀ p c, (CaptureTrigger.ctx p, some c) ∈ runs.map CaptureRun.firing →
      c ≤ sig.compactions)
    (hrecall : (∃ r ∈ runs, r.bandOf sig.compactions = true) →
      ∃ r ∈ lastFor runs, r.bandOf sig.compactions = true) :
    Remembers cfg (runs.map CaptureRun.firing) (seedCaptureState sig (lastFor runs) cfg) ∧
      (seedCaptureState sig (lastFor runs) cfg).compactionsSeen = sig.compactions := by
  have hseen : (seedCaptureState sig (lastFor runs) cfg).compactionsSeen = sig.compactions := by
    cases lastFor runs <;> rfl
  refine ⟨⟨fun p c hm => hseen ▸ hepoch p c hm, ?_⟩, hseen⟩
  intro p hm b hb hle
  rw [hseen] at hm
  obtain ⟨r, hr, hfiring⟩ := List.mem_map.mp hm
  simp only [CaptureRun.firing, Prod.mk.injEq] at hfiring
  obtain ⟨last, hlast, hband⟩ := hrecall ⟨r, hr, by simp [CaptureRun.bandOf, hfiring]⟩
  simp only [Option.mem_def] at hlast
  obtain ⟨before, hruns, -⟩ := le_lastFor htimes hlast
  simp only [CaptureRun.bandOf] at hband
  split at hband
  · next pct htrigger =>
    simp only [decide_eq_true_eq] at hband
    simp only [seedCaptureState, hlast, htrigger, hband, if_true, List.mem_filter,
      decide_eq_true_eq]
    refine ⟨hb, hle.trans ?_⟩
    -- the band of an earlier run of the epoch is below
    rw [hruns] at hr hup
    rcases List.mem_append.mp hr with hr | hr
    · rw [List.map_append, List.pairwise_append] at hup
      refine (hup.2.2 r.firing (List.mem_map_of_mem hr) last.firing (by simp) p pct sig.compactions
        ?_ ?_).le
      · simp [CaptureRun.firing, hfiring]
      · simp [CaptureRun.firing, htrigger, hband]
    · obtain rfl := List.mem_singleton.mp hr
      have : CaptureTrigger.ctx p = .ctx pct := hfiring.1.symm.trans htrigger
      simp only [CaptureTrigger.ctx.injEq] at this
      exact this.le
  · simp at hband

end Decide

/-! The steps of a session. -/

section Step
variable {cfg : CapturePolicyConfig} {s s' : Session}

theorem Remembers.mono {l l' : List Firing} {st : SessionCaptureState} (h : Remembers cfg l st)
    (hsub : ∀ p c, (CaptureTrigger.ctx p, some c) ∈ l' → (CaptureTrigger.ctx p, some c) ∈ l) :
    Remembers cfg l' st :=
  ⟨fun p c hm => h.epoch p c (hsub p c hm), fun p hm => h.fired p (hsub p _ hm)⟩

/-- A step that at most forgets what waits. -/
theorem Sound.shrink (h : Sound cfg s) (hwaiting : s'.waiting.Sublist s.waiting)
    (hruns : s'.runs = s.runs) (hcompactions : s.compactions ≤ s'.compactions)
    (hstate : s'.state = s.state) (hjudging : ∀ j ∈ s'.judging, j ∈ s.judging)
    (hinserting : ∀ p now, s'.inFlight = some (p, .inserting now) → s'.inFlight = s.inFlight) :
    Sound cfg s' := by
  have hsub : s'.firings.Sublist s.firings := by
    simp only [firings, hruns]
    exact hwaiting.append_left _
  constructor
  · exact h.upwards.sublist hsub
  · exact fun p c hm => (h.epoch p c (hsub.subset hm)).trans hcompactions
  · intro st hst
    obtain ⟨hknown, hle⟩ := h.known st (hstate ▸ hst)
    exact ⟨hknown.mono fun p c hm => hsub.subset hm, hle.trans hcompactions⟩
  · exact fun hnone p c hm => h.unknown (hstate ▸ hnone) p c (hwaiting.subset hm)
  · intro j hj
    obtain ⟨hnone, hle, hepoch⟩ := h.judging j (hjudging j hj)
    exact ⟨hstate.trans hnone, hle.trans hcompactions,
      fun p c hm => hepoch p c (hsub.subset hm)⟩
  · exact hruns ▸ h.times
  · intro p now hin
    rw [hruns]
    exact h.inserting p now (hinserting p now hin ▸ hin)
  · exact hruns ▸ h.counted

theorem Sound.restart (h : Sound cfg s) :
    Sound cfg
      { start with compactions := s.compactions, userTurns := s.userTurns, runs := s.runs } := by
  have hsub : (s.runs.map CaptureRun.firing).Sublist s.firings := List.sublist_append_left _ _
  constructor
  · simpa [firings, waiting, unbooked, start] using h.upwards.sublist hsub
  · intro p c hm
    refine h.epoch p c (hsub.subset ?_)
    simpa [firings, waiting, unbooked, start] using hm
  · simp [start]
  · simp [waiting, unbooked, start]
  · simp [start]
  · exact h.times
  · simp [start]
  · exact h.counted

/-- The triggers without the queued one. -/
theorem firings_eq (s : Session) :
    s.firings = s.runs.map CaptureRun.firing ++ unbooked s.inFlight ++
      (s.queued.map Pending.firing).toList := by
  simp [firings, waiting]

theorem enqueue_firings (s : Session) (trigger : CaptureTrigger) (sig : Signals) (now : ℤ) :
    (s.enqueue trigger sig now).firings =
      s.runs.map CaptureRun.firing ++ unbooked s.inFlight ++ [(trigger, some sig.compactions)] := by
  simp [firings_eq, enqueue, Pending.firing]

/-- The newest trigger comes after all the others. -/
theorem Sound.enqueue_upwards (h : Sound cfg s) {trigger : CaptureTrigger} {sig : Signals}
    {now : ℤ} (hup : ∀ x ∈ s.firings, Upwards x (trigger, some sig.compactions)) :
    (s.enqueue trigger sig now).firings.Pairwise Upwards := by
  have hsub : (s.runs.map CaptureRun.firing ++ unbooked s.inFlight).Sublist s.firings := by
    rw [firings_eq]
    exact List.sublist_append_left _ _
  rw [enqueue_firings, List.pairwise_append]
  refine ⟨h.upwards.sublist hsub, by simp, ?_⟩
  intro x hx y hy
  rw [List.mem_singleton.mp hy]
  exact hup x (hsub.subset hx)

theorem mem_enqueue_firings {x : Firing} {trigger : CaptureTrigger} {sig : Signals} {now : ℤ}
    (h : x ∈ (s.enqueue trigger sig now).firings) :
    x ∈ s.firings ++ [(trigger, some sig.compactions)] := by
  rw [enqueue_firings] at h
  rw [firings_eq]
  simp only [List.mem_append] at h ⊢
  tauto

/-- A search hit says nothing of a band. -/
theorem Sound.enqueueSearch (h : Sound cfg s) (sig : Signals) (now : ℤ) :
    Sound cfg (s.enqueue .search sig now) := by
  have hsub : ∀ p c, (CaptureTrigger.ctx p, some c) ∈ (s.enqueue .search sig now).firings →
      (CaptureTrigger.ctx p, some c) ∈ s.firings := by
    intro p c hm
    simpa using mem_enqueue_firings hm
  constructor
  · refine h.enqueue_upwards ?_
    intro x hx p q c hxe hye
    simp at hye
  · exact fun p c hm => h.epoch p c (hsub p c hm)
  · intro st hst
    obtain ⟨hknown, hle⟩ := h.known st hst
    exact ⟨hknown.mono hsub, hle⟩
  · intro hnone p c hm
    refine h.unknown hnone p c ?_
    simp only [waiting, enqueue, Option.map_some, Option.toList_some, Pending.firing,
      List.mem_append, List.mem_singleton, Prod.mk.injEq, reduceCtorEq, false_and, or_false] at hm
    exact List.mem_append_left _ hm
  · intro j hj
    obtain ⟨hnone, hle, hepoch⟩ := h.judging j hj
    exact ⟨hnone, hle, fun p c hm => hepoch p c (hsub p c hm)⟩
  · exact h.times
  · exact h.inserting
  · exact h.counted

theorem Sound.judge (h : Sound cfg s) (hpct : Percents cfg) {sig : Signals}
    {st : SessionCaptureState} {now : ℤ} (hst : Remembers cfg s.firings st)
    (hseen : st.compactionsSeen ≤ sig.compactions) (hnow : sig.compactions ≤ s.compactions) :
    Sound cfg (s.judge cfg sig st now) := by
  obtain ⟨hsame, hnone, hsome⟩ := @Remembers.decide cfg s.firings st sig now hst hpct hseen
  rcases htrigger : (decideCapture sig (some st) true cfg now).1 with _ | trigger
  · simp only [Session.judge, htrigger]
    refine ⟨h.upwards, h.epoch, ?_, by simp, by simp, h.times, h.inserting, h.counted⟩
    intro st' hst'
    simp only [Option.mem_def, Option.some.injEq] at hst'
    rw [← hst']
    exact ⟨hnone htrigger, hsame.le.trans hnow⟩
  · obtain ⟨hup, hafter⟩ := hsome trigger htrigger
    have hsub : ∀ p c, (CaptureTrigger.ctx p, some c) ∈ (s.enqueue trigger sig now).firings →
        (CaptureTrigger.ctx p, some c) ∈ s.firings ++ [(trigger, some sig.compactions)] :=
      fun p c hm => mem_enqueue_firings hm
    simp only [Session.judge, htrigger]
    refine ⟨h.enqueue_upwards hup, ?_, ?_, ?_, ?_, h.times, h.inserting, h.counted⟩
    · intro p c hm
      exact (hafter.epoch p c (hsub p c hm)).trans (hsame.le.trans hnow)
    · intro st' hst'
      simp only [enqueue, Option.mem_def, Option.some.injEq] at hst'
      rw [← hst']
      exact ⟨hafter.mono hsub, hsame.le.trans hnow⟩
    · simp [enqueue]
    · simp [enqueue]

/-- An admission is after every row. -/
theorem Sound.admits (h : Sound cfg s) {now : ℤ} {underCap : Bool}
    (ha : s.admits now underCap = true) : ∀ r ∈ s.runs, r.startedAt < now := by
  intro r hr
  simp only [Session.admits, Bool.and_eq_true, Bool.not_eq_true'] at ha
  have hlast := ha.1.2
  cases hl : lastFor s.runs with
  | none =>
    rw [lastFor_eq_getLast h.times, List.getLast?_eq_none_iff] at hl
    simp [hl] at hr
  | some last =>
    obtain ⟨before, -, hle⟩ := le_lastFor h.times hl
    simp only [hl, Option.any_some, decide_eq_false_iff_not, not_lt] at hlast
    have := hle r hr
    simp only [CAPTURE_MIN_INTERVAL_MS] at hlast
    omega

/-- The row is written. -/
theorem Sound.book (h : Sound cfg s) {p : Pending} {now : ℤ}
    (hin : s.inFlight = some (p, .inserting now)) {next : Option (Pending × RunPc)}
    (hnext : next = none ∨ next = some (p, .running)) :
    Sound cfg { s.book p now with inFlight := next } := by
  have hbooked : unbooked next = [] := by
    rcases hnext with rfl | rfl <;> rfl
  have hfirings : ({ s.book p now with inFlight := next } : Session).firings = s.firings := by
    have hin' : unbooked s.inFlight = [p.firing] := by rw [hin]; rfl
    simp [firings_eq, Session.book, hbooked, hin', CaptureRun.firing, Pending.firing]
  have hwaiting : ∀ x ∈ ({ s.book p now with inFlight := next } : Session).waiting,
      x ∈ s.waiting := by
    intro x hx
    simp only [waiting, hbooked, Session.book, List.nil_append] at hx
    exact List.mem_append_right _ hx
  constructor
  · rw [hfirings]
    exact h.upwards
  · rw [hfirings]
    exact h.epoch
  · rw [hfirings]
    exact h.known
  · exact fun hnone p c hm => h.unknown hnone p c (hwaiting _ hm)
  · rw [hfirings]
    exact h.judging
  · simp only [Session.book]
    rw [List.pairwise_append]
    refine ⟨h.times, by simp, ?_⟩
    intro r hr r' hr'
    rw [List.mem_singleton.mp hr']
    exact h.inserting p now hin r hr
  · intro q t hq
    rcases hnext with rfl | rfl <;> simp at hq
  · intro r hr
    rcases List.mem_append.mp hr with hr | hr
    · exact h.counted r hr
    · exact ⟨p.compactions, by rw [List.mem_singleton.mp hr]⟩

/-- Waiting is over for what was on the way to its row. -/
theorem Sound.leave (h : Sound cfg s) : Sound cfg { s with inFlight := none } :=
  h.shrink (List.sublist_append_right _ _) rfl le_rfl rfl (fun _ hj => hj) (by simp)

theorem Sound.ingest {settings : CaptureSettings} {fill : ℚ} {now : ℤ}
    (h : Sound (policyFromSettings settings) s) (hpct : Percents (policyFromSettings settings))
    (hs : step settings s (.ingest fill now) = some s') :
    Sound (policyFromSettings settings) s' := by
  simp only [step] at hs
  split at hs
  · exact Option.some.inj hs ▸ h
  · split at hs
    · next st hst =>
      obtain ⟨hknown, hle⟩ := h.known st hst
      exact Option.some.inj hs ▸ h.judge hpct hknown hle le_rfl
    · next hst =>
      rw [← Option.some.inj hs]
      refine ⟨h.upwards, h.epoch, h.known, h.unknown, ?_, h.times, h.inserting, h.counted⟩
      intro j hj
      simp only [Option.mem_def, Option.some.injEq] at hj
      subst hj
      exact ⟨hst, le_rfl, h.epoch⟩

/-- The state is rebuilt from the last row, and the ingest is judged by it. -/
theorem Sound.ingestLast {settings : CaptureSettings}
    (h : Sound (policyFromSettings settings) s) (hpct : Percents (policyFromSettings settings))
    (hrecall : Recalls s .ingestLast) (hs : step settings s .ingestLast = some s') :
    Sound (policyFromSettings settings) s' := by
  simp only [step] at hs
  split at hs
  · next sig now hj =>
    obtain ⟨hnone, hle, hepoch⟩ := h.judging (sig, now) hj
    have hruns : ∀ p c, (CaptureTrigger.ctx p, some c) ∈ s.firings →
        (CaptureTrigger.ctx p, some c) ∈ s.runs.map CaptureRun.firing := by
      intro p c hm
      exact (List.mem_append.mp hm).resolve_right (h.unknown hnone p (some c))
    have hsub : (s.runs.map CaptureRun.firing).Sublist s.firings := List.sublist_append_left _ _
    obtain ⟨hseed, hseen⟩ := @remembers_seed (policyFromSettings settings) sig s.runs
      (h.upwards.sublist hsub) h.times (fun p c hm => hepoch p c (hsub.subset hm))
      (hrecall rfl (sig, now) hj)
    exact Option.some.inj hs ▸ h.judge hpct (hseed.mono hruns) hseen.le hle
  · cases hs

theorem step_sound {settings : CaptureSettings} {a : Action}
    (h : Sound (policyFromSettings settings) s) (hpct : Percents (policyFromSettings settings))
    (hrecall : Recalls s a) (hs : step settings s a = some s') :
    Sound (policyFromSettings settings) s' := by
  cases a with
  | grow compactions userTurns =>
    rw [← Option.some.inj hs]
    exact h.shrink (List.Sublist.refl _) rfl (Nat.le_add_right _ _) rfl (fun _ hj => hj)
      (fun _ _ _ => rfl)
  | ingest fill now => exact h.ingest hpct hs
  | ingestLast => exact h.ingestLast hpct hrecall hs
  | searchHit fill now =>
    simp only [step] at hs
    split at hs
    · exact Option.some.inj hs ▸ h
    · rw [← Option.some.inj hs]
      exact h.shrink (List.Sublist.refl _) rfl le_rfl rfl (fun _ hj => hj) (fun _ _ _ => rfl)
  | searchLast i =>
    simp only [step] at hs
    split at hs
    · next sig now _ =>
      have hgone : Sound (policyFromSettings settings)
          { s with searching := s.searching.eraseIdx i } :=
        h.shrink (List.Sublist.refl _) rfl le_rfl rfl (fun _ hj => hj) (fun _ _ _ => rfl)
      rw [← Option.some.inj hs]
      split
      · exact hgone.enqueueSearch sig now
      · exact hgone
    · cases hs
  | ingestFails =>
    rw [← Option.some.inj hs]
    exact h.shrink (List.Sublist.refl _) rfl le_rfl rfl (by simp) (fun _ _ _ => rfl)
  | searchFails i =>
    rw [← Option.some.inj hs]
    exact h.shrink (List.Sublist.refl _) rfl le_rfl rfl (fun _ hj => hj) (fun _ _ _ => rfl)
  | pump now =>
    simp only [step] at hs
    split at hs
    · next p hq hin =>
      rw [← Option.some.inj hs]
      refine h.shrink ?_ rfl le_rfl rfl (fun _ hj => hj) ?_
      · simp only [waiting, hq, hin]
        split <;> simp [unbooked]
      · intro q t hq'
        simp only at hq'
        split at hq' <;> simp at hq'
    · cases hs
  | skip =>
    simp only [step] at hs
    split at hs
    · exact Option.some.inj hs ▸ h.leave
    · cases hs
  | admission now underCap =>
    simp only [step] at hs
    split at hs
    · next p hin =>
      rw [← Option.some.inj hs]
      split
      · next ha =>
        have hwaiting : ({ s with
            lastStartedAt := some now, inFlight := some (p, .inserting now) } : Session).waiting =
              s.waiting := by simp [waiting, hin, unbooked]
        refine ⟨?_, ?_, ?_, ?_, ?_, h.times, ?_, h.counted⟩
        · simpa only [firings, hwaiting] using h.upwards
        · simpa only [firings, hwaiting] using h.epoch
        · simpa only [firings, hwaiting] using h.known
        · simpa only [hwaiting] using h.unknown
        · simpa only [firings, hwaiting] using h.judging
        · intro q t hq
          simp only [Option.some.injEq, Prod.mk.injEq, RunPc.inserting.injEq] at hq
          exact hq.2 ▸ h.admits ha
      · exact h.leave
    · cases hs
  | insert ans =>
    simp only [step] at hs
    split at hs
    · next p now hin =>
      cases ans with
      | ok => exact Option.some.inj hs ▸ h.book hin (Or.inr rfl)
      | failed => exact Option.some.inj hs ▸ h.leave
      | lost => exact Option.some.inj hs ▸ h.book hin (Or.inl rfl)
    · cases hs
  | finish =>
    simp only [step] at hs
    split at hs
    · exact Option.some.inj hs ▸ h.leave
    · cases hs
  | stop =>
    rw [← Option.some.inj hs]
    exact h.shrink (by simp [waiting]) rfl le_rfl rfl (fun _ hj => hj) (fun _ _ _ => rfl)
  | restart => exact Option.some.inj hs ▸ h.restart

end Step

/-- Where the state of the policy is always rebuilt from a band run of the epoch when there is one,
no band of an epoch is captured twice, over every mix of triggers and restarts. -/
theorem bands_fire_once (v : Option Patch) {actions : List Action} {s : Session}
    (hrun : Transition.run (step (normalizeCaptureSettings v)) start actions = some s)
    (hrecall : Transition.Along (step (normalizeCaptureSettings v)) Recalls start actions) :
    s.runs.Pairwise fun r r' => ¬ SameBand r r' := by
  have hpct := percents_settings v
  have hsound : Sound (policyFromSettings (normalizeCaptureSettings v)) s :=
    Transition.run_invariant_along (fun s a t h hok hs => step_sound h hpct hok hs)
      (start_sound _) hrun hrecall
  have hup : s.runs.Pairwise fun r r' => Upwards r.firing r'.firing :=
    List.pairwise_map.mp (hsound.upwards.sublist (List.sublist_append_left _ _))
  refine hup.imp_of_mem ?_
  rintro r r' hr - h ⟨⟨pct, htrigger⟩, hsame, hepoch⟩
  obtain ⟨c, hc⟩ := hsound.counted r hr
  refine lt_irrefl pct (h pct pct c ?_ ?_)
  · simp [CaptureRun.firing, htrigger, hc]
  · simp [CaptureRun.firing, ← hsame, ← hepoch, htrigger, hc]

/-- A trigger that waits is started, admitted, and its run ends. -/
def admitted (now : ℤ) : List Action := [.pump now, .admission now true, .insert .ok, .finish]

/-- A band, a restart and another look at the session. -/
def bandThenRestart : List Action :=
  ([.ingest (9 / 10) 0, .ingestLast] : List Action) ++ admitted 0 ++
    ([.restart, .ingest (9 / 10) 700000, .ingestLast] : List Action)

theorem bands_fire_once_restarted :
    ∃ s, Transition.run (step (normalizeCaptureSettings none)) start bandThenRestart = some s ∧
      s.runs.map CaptureRun.firing = [(.ctx 85, some 0)] ∧ s.queued = none ∧
      s.runs.Pairwise fun r r' => ¬ SameBand r r' := by
  have hrun : ∃ s, Transition.run (step (normalizeCaptureSettings none)) start bandThenRestart =
      some s ∧ s.runs.map CaptureRun.firing = [(.ctx 85, some 0)] ∧ s.queued = none := by
    decide +kernel
  obtain ⟨s, hs, hruns, hqueued⟩ := hrun
  exact ⟨s, hs, hruns, hqueued, bands_fire_once none hs (by decide +kernel)⟩

/-- The session is searched for after the band, and the app restarts. -/
def searchThenRestart : List Action :=
  ([.ingest (9 / 10) 0, .ingestLast] : List Action) ++ admitted 0 ++
    ([.grow 0 30, .searchHit (9 / 10) 700000, .searchLast 0] : List Action) ++ admitted 700000 ++
    ([.restart, .ingest (9 / 10) 1400000, .ingestLast] : List Action) ++ admitted 1400000

/-- The last row is the search's, and the band fires again in its epoch. -/
theorem band_fires_twice :
    ∃ s, Transition.run (step (normalizeCaptureSettings none)) start searchThenRestart = some s ∧
      s.runs.map CaptureRun.firing = [(.ctx 85, some 0), (.search, some 0), (.ctx 85, some 0)] ∧
      ¬ s.runs.Pairwise fun r r' => ¬ SameBand r r' := by
  have hrun : ∃ s, Transition.run (step (normalizeCaptureSettings none)) start searchThenRestart =
      some s ∧ s.runs = [⟨.ctx 85, 0, 0, some 0⟩, ⟨.search, 700000, 30, some 0⟩,
        ⟨.ctx 85, 1400000, 30, some 0⟩] := by decide +kernel
  obtain ⟨s, hs, hruns⟩ := hrun
  refine ⟨s, hs, by rw [hruns]; rfl, ?_⟩
  rw [hruns]
  simp [SameBand]

end ClaudeFleet.Capture
