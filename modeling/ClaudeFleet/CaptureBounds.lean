import ClaudeFleet.CaptureScheduler

/-! At most two forks run at once and at most one for a session, the runs of a session start at
least the interval apart, and no local day has more of them than the cap. The first two rest on the
set of sessions in flight, the others on the chain of admissions: one at a time is past its turn,
and only it writes to capture_runs. -/
namespace ClaudeFleet.CaptureScheduler
open Transition

variable {P : Type}

/-- The session and the start of each run. -/
def State.starts (s : State P) : List (String × ℤ) :=
  s.rows.map fun r => (r.sessionId, r.startedAt)

theorem laterOf_le (o : Option CaptureRun) (r : CaptureRun) :
    ∃ q, laterOf o r = some q ∧ r.startedAt ≤ q.startedAt ∧
      ∀ q', o = some q' → q'.startedAt ≤ q.startedAt := by
  cases o with
  | none => exact ⟨r, rfl, le_rfl, nofun⟩
  | some q =>
    simp only [laterOf]
    split_ifs with hlater
    · refine ⟨r, rfl, le_rfl, fun q' hq' => ?_⟩
      obtain rfl := Option.some.inj hq'
      omega
    · refine ⟨q, rfl, by omega, fun q' hq' => ?_⟩
      obtain rfl := Option.some.inj hq'
      exact le_rfl

theorem foldl_laterOf_le (rows : List CaptureRun) (o : Option CaptureRun) :
    (∀ q, o = some q → ∃ q', rows.foldl laterOf o = some q' ∧ q.startedAt ≤ q'.startedAt) ∧
    ∀ r ∈ rows, ∃ q', rows.foldl laterOf o = some q' ∧ r.startedAt ≤ q'.startedAt := by
  induction rows generalizing o with
  | nil => exact ⟨fun q hq => ⟨q, hq, le_rfl⟩, nofun⟩
  | cons r rows ih =>
    obtain ⟨hacc, hrest⟩ := ih (laterOf o r)
    obtain ⟨q, hq, hr, ho⟩ := laterOf_le o r
    obtain ⟨q', hq', hle⟩ := hacc q hq
    refine ⟨fun p hp => ⟨q', hq', (ho p hp).trans hle⟩, ?_⟩
    intro p hp
    rcases List.mem_cons.mp hp with rfl | hp
    · exact ⟨q', hq', hr.trans hle⟩
    · exact hrest p hp

theorem lastFor_le {rows : List CaptureRun} {sessionId : String} {r : CaptureRun} (hr : r ∈ rows)
    (hid : r.sessionId = sessionId) :
    ∃ q, lastFor rows sessionId = some q ∧ r.startedAt ≤ q.startedAt :=
  (foldl_laterOf_le _ none).2 r (List.mem_filter.mpr ⟨hr, decide_eq_true hid⟩)

variable (cap : ℕ) (startOfLocalDay : ℤ → ℤ)

/-- The runs of the session are at least the interval before `now`. -/
def Clear (starts : List (String × ℤ)) (sessionId : String) (now : ℤ) : Prop :=
  ∀ a ∈ starts, a.1 = sessionId → captureMinIntervalMs ≤ now - a.2

/-- The runs of one local day. -/
def onDay (starts : List (String × ℤ)) (day : ℤ) : ℕ :=
  (starts.filter fun a => startOfLocalDay a.2 = day).length

/-- What an admission knows of the runs. -/
def Knows (starts : List (String × ℤ)) (sessionId : String) : AdmitPc → Prop
  | .waiting | .last _ => True
  | .gotLast _ last => ∀ a ∈ starts, a.1 = sessionId → ∃ q, last = some q ∧ a.2 ≤ q.startedAt
  | .cap now | .count now => Clear starts sessionId now
  | .counted now n =>
    Clear starts sessionId now ∧ onDay startOfLocalDay starts (startOfLocalDay now) ≤ n
  | .inserting now =>
    Clear starts sessionId now ∧ onDay startOfLocalDay starts (startOfLocalDay now) < cap

structure Bounded (s : State P) : Prop where
  unborn : ∀ t, s.next ≤ t → s.jobs t = none
  live : ∀ t p pc, s.jobs t = some (.run p pc) → p.sessionId ∈ s.inFlight
  single : ∀ t t' p p' pc pc', s.jobs t = some (.run p pc) → s.jobs t' = some (.run p' pc') →
    p.sessionId = p'.sessionId → t = t'
  few : s.inFlight.card ≤ maxConcurrentCaptures
  chain : s.settled ≤ s.tickets
  turn : ∀ t p f v k pc, s.jobs t = some (.run p (.admitting f v k pc)) →
    s.settled ≤ k ∧ k < s.tickets ∧ (pc ≠ .waiting → k = s.settled)
  tickets : ∀ t t' p p' f f' v v' k pc pc', s.jobs t = some (.run p (.admitting f v k pc)) →
    s.jobs t' = some (.run p' (.admitting f' v' k pc')) → t = t'
  knows : ∀ t p f v k pc, s.jobs t = some (.run p (.admitting f v k pc)) →
    Knows cap startOfLocalDay s.starts p.sessionId pc
  spaced : s.starts.Pairwise fun a b => a.1 = b.1 → captureMinIntervalMs ≤ b.2 - a.2
  daily : ∀ day, onDay startOfLocalDay s.starts day ≤ cap

variable {cap startOfLocalDay}

theorem start_bounded (clock : ℤ) {rows : List CaptureRun} (forks : Finset String)
    (hspaced : (State.starts (P := P) (.start clock rows forks)).Pairwise
      fun a b => a.1 = b.1 → captureMinIntervalMs ≤ b.2 - a.2)
    (hdaily : ∀ day,
      onDay startOfLocalDay (State.starts (P := P) (.start clock rows forks)) day ≤ cap) :
    Bounded cap startOfLocalDay (P := P) (.start clock rows forks) where
  unborn _ _ := rfl
  live _ _ _ := nofun
  single _ _ _ _ _ _ := nofun
  few := Nat.zero_le _
  chain := le_rfl
  turn _ _ _ _ _ _ := nofun
  tickets _ _ _ _ _ _ _ _ _ _ _ := nofun
  knows _ _ _ _ _ _ := nofun
  spaced := hspaced
  daily := hdaily

/-- Nothing that the bounds speak of has changed. -/
theorem Bounded.congr {s s' : State P} (h : Bounded cap startOfLocalDay s)
    (hnext : s'.next = s.next) (hjobs : s'.jobs = s.jobs) (hin : s'.inFlight = s.inFlight)
    (htickets : s'.tickets = s.tickets) (hsettled : s'.settled = s.settled)
    (hstarts : s'.starts = s.starts) : Bounded cap startOfLocalDay s' := by
  refine ⟨?_, ?_, ?_, ?_, ?_, ?_, ?_, ?_, ?_, ?_⟩
  · rw [hnext, hjobs]
    exact h.unborn
  · rw [hjobs, hin]
    exact h.live
  · rw [hjobs]
    exact h.single
  · rw [hin]
    exact h.few
  · rw [htickets, hsettled]
    exact h.chain
  · rw [hjobs, htickets, hsettled]
    exact h.turn
  · rw [hjobs]
    exact h.tickets
  · rw [hjobs, hstarts]
    exact h.knows
  · rw [hstarts]
    exact h.spaced
  · rw [hstarts]
    exact h.daily

/-- A job that is not in the chain, or not past its turn, knows nothing. -/
theorem Bounded.alone {s : State P} (h : Bounded cap startOfLocalDay s) {t t' : ℕ}
    {p p' : Pending} {f f' : String} {v v' : Visibility} {k k' : ℕ} {pc pc' : AdmitPc}
    (ht : s.jobs t = some (.run p (.admitting f v k pc)))
    (ht' : s.jobs t' = some (.run p' (.admitting f' v' k' pc'))) (hne : t' ≠ t) (hk : k = s.settled) :
    s.settled + 1 ≤ k' ∧ pc' = .waiting := by
  obtain ⟨hle, -, hturn⟩ := h.turn t' p' f' v' k' pc' ht'
  have hk' : k' ≠ k := by
    rintro rfl
    exact hne (h.tickets t' t p' p f' f v' v k' pc' pc ht' ht)
  refine ⟨by omega, ?_⟩
  by_contra hpc
  exact hk' ((hturn hpc).trans hk.symm)

/-- One job goes on or ends. -/
theorem Bounded.set {s s' : State P} (h : Bounded cap startOfLocalDay s) {t : ℕ} {j : Job}
    {o : Option Job} (hj : s.jobs t = some j) (hjobs : s'.jobs = Function.update s.jobs t o)
    (hnext : s'.next = s.next) (hin : s'.inFlight = s.inFlight)
    (htickets : s.tickets ≤ s'.tickets) (hchain : s'.settled ≤ s'.tickets)
    (hrun : ∀ p pc, o = some (.run p pc) → ∃ pc₀, j = .run p pc₀)
    (hself : ∀ p f v k pc, o = some (.run p (.admitting f v k pc)) →
      s'.settled ≤ k ∧ k < s'.tickets ∧ (pc ≠ .waiting → k = s'.settled) ∧
      Knows cap startOfLocalDay s'.starts p.sessionId pc)
    (hothers : ∀ t', t' ≠ t → ∀ p f v k pc, s.jobs t' = some (.run p (.admitting f v k pc)) →
      s'.settled ≤ k ∧ (pc ≠ .waiting → k = s'.settled) ∧
      Knows cap startOfLocalDay s'.starts p.sessionId pc ∧
      ∀ p' f' v' pc', o ≠ some (.run p' (.admitting f' v' k pc')))
    (hspaced : s'.starts.Pairwise fun a b => a.1 = b.1 → captureMinIntervalMs ≤ b.2 - a.2)
    (hdaily : ∀ day, onDay startOfLocalDay s'.starts day ≤ cap) :
    Bounded cap startOfLocalDay s' := by
  have hat : s'.jobs t = o := by rw [hjobs, Function.update_self]
  have hbut : ∀ t', t' ≠ t → s'.jobs t' = s.jobs t' := fun t' ht' => by
    rw [hjobs, Function.update_of_ne ht']
  -- each run of the new state was a run of the same session in the old one
  have hold : ∀ t' p pc, s'.jobs t' = some (.run p pc) → ∃ pc₀, s.jobs t' = some (.run p pc₀) := by
    intro t' p pc hp
    by_cases heq : t' = t
    · subst heq
      rw [hat] at hp
      obtain ⟨pc₀, rfl⟩ := hrun p pc hp
      exact ⟨pc₀, hj⟩
    · exact ⟨pc, (hbut t' heq).symm.trans hp⟩
  refine ⟨?_, ?_, ?_, hin ▸ h.few, hchain, ?_, ?_, ?_, hspaced, hdaily⟩
  · intro t' ht'
    rw [hnext] at ht'
    have hne : t' ≠ t := by
      rintro rfl
      rw [h.unborn t' ht'] at hj
      cases hj
    rw [hbut t' hne]
    exact h.unborn t' ht'
  · intro t' p pc hp
    obtain ⟨pc₀, hp⟩ := hold t' p pc hp
    rw [hin]
    exact h.live t' p pc₀ hp
  · intro t₁ t₂ p p' pc pc' hp hp' hsame
    obtain ⟨_, hp⟩ := hold t₁ p pc hp
    obtain ⟨_, hp'⟩ := hold t₂ p' pc' hp'
    exact h.single t₁ t₂ p p' _ _ hp hp' hsame
  · intro t' p f v k pc hp
    by_cases heq : t' = t
    · subst heq
      rw [hat] at hp
      obtain ⟨hle, hlt, hturn, -⟩ := hself p f v k pc hp
      exact ⟨hle, hlt, hturn⟩
    · rw [hbut t' heq] at hp
      obtain ⟨hle, hturn, -⟩ := hothers t' heq p f v k pc hp
      exact ⟨hle, (h.turn t' p f v k pc hp).2.1.trans_le htickets, hturn⟩
  · intro t₁ t₂ p p' f f' v v' k pc pc' hp hp'
    by_cases h₁ : t₁ = t <;> by_cases h₂ : t₂ = t
    · rw [h₁, h₂]
    · subst h₁
      rw [hat] at hp
      rw [hbut t₂ h₂] at hp'
      exact absurd hp ((hothers t₂ h₂ p' f' v' k pc' hp').2.2.2 p f v pc)
    · subst h₂
      rw [hat] at hp'
      rw [hbut t₁ h₁] at hp
      exact absurd hp' ((hothers t₁ h₁ p f v k pc hp).2.2.2 p' f' v' pc')
    · rw [hbut t₁ h₁] at hp
      rw [hbut t₂ h₂] at hp'
      exact h.tickets t₁ t₂ p p' f f' v v' k pc pc' hp hp'
  · intro t' p f v k pc hp
    by_cases heq : t' = t
    · subst heq
      rw [hat] at hp
      exact (hself p f v k pc hp).2.2.2
    · rw [hbut t' heq] at hp
      exact (hothers t' heq p f v k pc hp).2.2.1

/-- A job outside the chain goes on outside it, or ends. -/
theorem Bounded.goes {s s' : State P} (h : Bounded cap startOfLocalDay s) {t : ℕ} {j : Job}
    {o : Option Job} (hj : s.jobs t = some j)
    (hrun : ∀ p pc, o = some (.run p pc) → ∃ pc₀, j = .run p pc₀)
    (hplain : ∀ p f v k pc, o ≠ some (.run p (.admitting f v k pc)))
    (hs' : s' = { s with jobs := Function.update s.jobs t o }) : Bounded cap startOfLocalDay s' := by
  subst hs'
  refine h.set hj rfl rfl rfl le_rfl h.chain hrun ?_ ?_ h.spaced h.daily
  · intro p f v k pc hp
    exact absurd hp (hplain p f v k pc)
  · intro t' _ p f v k pc hp
    obtain ⟨hle, -, hturn⟩ := h.turn t' p f v k pc hp
    exact ⟨hle, hturn, h.knows t' p f v k pc hp, fun p' f' v' pc' => hplain p' f' v' k pc'⟩

theorem Bounded.endJob {s : State P} (h : Bounded cap startOfLocalDay s) {t : ℕ} {j : Job}
    (hj : s.jobs t = some j) : Bounded cap startOfLocalDay (s.endJob t) :=
  h.goes hj (o := none) (fun _ _ => nofun) (fun _ _ _ _ _ => nofun) rfl

theorem Bounded.spawn {s : State P} (h : Bounded cap startOfLocalDay s) {j : Job}
    (hplain : ∀ p f v k pc, j ≠ .run p (.admitting f v k pc))
    (hlive : ∀ p pc, j = .run p pc → p.sessionId ∈ s.inFlight ∧
      ∀ t p' pc', s.jobs t = some (.run p' pc') → p'.sessionId ≠ p.sessionId) :
    Bounded cap startOfLocalDay (s.spawn j) := by
  have hat : (s.spawn j).jobs s.next = some j := Function.update_self ..
  have hbut : ∀ t, t ≠ s.next → (s.spawn j).jobs t = s.jobs t :=
    fun t ht => Function.update_of_ne ht ..
  -- a job in the chain was there before
  have hold : ∀ t p f v k pc, (s.spawn j).jobs t = some (.run p (.admitting f v k pc)) →
      s.jobs t = some (.run p (.admitting f v k pc)) := by
    intro t p f v k pc hp
    by_cases ht : t = s.next
    · subst ht
      rw [hat] at hp
      exact absurd (Option.some.inj hp) (hplain p f v k pc)
    · exact (hbut t ht).symm.trans hp
  refine ⟨?_, ?_, ?_, h.few, h.chain, ?_, ?_, ?_, h.spaced, h.daily⟩
  · intro t ht
    have ht : s.next + 1 ≤ t := ht
    rw [hbut t (by omega)]
    exact h.unborn t (by omega)
  · intro t p pc hp
    by_cases ht : t = s.next
    · subst ht
      rw [hat] at hp
      exact (hlive p pc (Option.some.inj hp)).1
    · exact h.live t p pc ((hbut t ht).symm.trans hp)
  · intro t t' p p' pc pc' hp hp' hsame
    by_cases ht : t = s.next <;> by_cases ht' : t' = s.next
    · rw [ht, ht']
    · subst ht
      rw [hat] at hp
      rw [hbut t' ht'] at hp'
      exact absurd hsame.symm ((hlive p pc (Option.some.inj hp)).2 t' p' pc' hp')
    · subst ht'
      rw [hat] at hp'
      rw [hbut t ht] at hp
      exact absurd hsame ((hlive p' pc' (Option.some.inj hp')).2 t p pc hp)
    · rw [hbut t ht] at hp
      rw [hbut t' ht'] at hp'
      exact h.single t t' p p' pc pc' hp hp' hsame
  · intro t p f v k pc hp
    exact h.turn t p f v k pc (hold t p f v k pc hp)
  · intro t t' p p' f f' v v' k pc pc' hp hp'
    exact h.tickets t t' p p' f f' v v' k pc pc' (hold t p f v k pc hp) (hold t' p' f' v' k pc' hp')
  · intro t p f v k pc hp
    exact h.knows t p f v k pc (hold t p f v k pc hp)

theorem Bounded.launch {s : State P} (h : Bounded cap startOfLocalDay s) {p : Pending}
    (hnew : p.sessionId ∉ s.inFlight) (hroom : s.inFlight.card < maxConcurrentCaptures) :
    Bounded cap startOfLocalDay (s.launch p) := by
  have hmarked : Bounded cap startOfLocalDay { s with
      inFlight := insert p.sessionId s.inFlight
      inFlightWorkspaces := Function.update s.inFlightWorkspaces p.workspaceId
        (s.inFlightWorkspaces p.workspaceId + 1) } := by
    refine ⟨h.unborn, ?_, h.single, ?_, h.chain, h.turn, h.tickets, h.knows, h.spaced, h.daily⟩
    · intro t q pc hq
      exact Finset.mem_insert_of_mem (h.live t q pc hq)
    · dsimp only
      rw [Finset.card_insert_of_notMem hnew]
      exact hroom
  refine hmarked.spawn (fun _ _ _ _ _ => nofun) fun q pc hq => ?_
  cases hq
  refine ⟨Finset.mem_insert_self .., fun t p' pc' hp' hsame => hnew ?_⟩
  rw [← hsame]
  exact h.live t p' pc' hp'

theorem Bounded.pump {s : State P} (h : Bounded cap startOfLocalDay s) :
    Bounded cap startOfLocalDay s.pump := by
  fun_induction State.pump s with
  | case1 s hroom hnone => exact h
  | case2 s hroom p hp s' hold ih => exact ih (h.congr rfl rfl rfl rfl rfl rfl)
  | case3 s hroom p hp s' hfresh ih =>
    have hnew : p.sessionId ∉ s.inFlight := by simpa using List.find?_some hp
    have hs' : Bounded cap startOfLocalDay s' := h.congr rfl rfl rfl rfl rfl rfl
    exact ih (hs'.launch hnew hroom.2)
  | case4 s hfull => exact h

theorem Bounded.enqueue {s : State P} (h : Bounded cap startOfLocalDay s) (p : Pending) :
    Bounded cap startOfLocalDay (s.enqueue p) := by
  refine Bounded.pump ?_
  exact h.congr rfl rfl rfl rfl rfl rfl

/-- No other run is of the session. -/
theorem Bounded.session_out {s : State P} (h : Bounded cap startOfLocalDay s) {t : ℕ} {p : Pending}
    {pc : RunPc} (hj : s.jobs t = some (.run p pc)) (t' : ℕ) (q : Pending) (pc' : RunPc)
    (hq : (s.endJob t).jobs t' = some (.run q pc')) : q.sessionId ≠ p.sessionId := by
  have hne : t' ≠ t := by
    rintro rfl
    have hgone : (s.endJob t').jobs t' = none := Function.update_self ..
    exact absurd (hgone.symm.trans hq) nofun
  have hq' : s.jobs t' = some (.run q pc') := (Function.update_of_ne hne ..).symm.trans hq
  exact fun hsame => hne (h.single t' t q p pc' pc hq' hj hsame)

/-- A session leaves the flight once its run is gone, and `pump` goes on. -/
theorem Bounded.leave {s : State P} (h : Bounded cap startOfLocalDay s) {p : Pending}
    (hout : ∀ t q pc, s.jobs t = some (.run q pc) → q.sessionId ≠ p.sessionId)
    (workspaces : String → ℕ) :
    Bounded cap startOfLocalDay
      { s with
        inFlight := s.inFlight.erase p.sessionId, inFlightWorkspaces := workspaces }.pump := by
  refine Bounded.pump ⟨h.unborn, ?_, h.single, ?_, h.chain, h.turn, h.tickets, h.knows, h.spaced,
    h.daily⟩
  · intro t q pc hq
    exact Finset.mem_erase.mpr ⟨hout t q pc hq, h.live t q pc hq⟩
  · exact (Finset.card_le_card (Finset.erase_subset ..)).trans h.few

theorem Bounded.endRun {s : State P} (h : Bounded cap startOfLocalDay s) {t : ℕ} {p : Pending}
    {pc : RunPc} (hj : s.jobs t = some (.run p pc)) :
    Bounded cap startOfLocalDay (s.endRun t p) :=
  (h.endJob hj).leave (h.session_out hj) _

/-- The admission at the head of the chain ends, with these runs booked. -/
theorem Bounded.settles {s s' : State P} (h : Bounded cap startOfLocalDay s) {t : ℕ} {p : Pending}
    {f : String} {v : Visibility} {k : ℕ} {pc : AdmitPc} {o : Option Job}
    (hj : s.jobs t = some (.run p (.admitting f v k pc))) (hk : k = s.settled)
    (ho : o = none ∨ ∃ id, o = some (.run p (.topics id)))
    (hjobs : s'.jobs = Function.update s.jobs t o) (hnext : s'.next = s.next)
    (hin : s'.inFlight = s.inFlight) (htickets : s'.tickets = s.tickets)
    (hsettled : s'.settled = s.settled + 1)
    (hspaced : s'.starts.Pairwise fun a b => a.1 = b.1 → captureMinIntervalMs ≤ b.2 - a.2)
    (hdaily : ∀ day, onDay startOfLocalDay s'.starts day ≤ cap) :
    Bounded cap startOfLocalDay s' := by
  have hplain : ∀ q f' v' k' pc', o ≠ some (.run q (.admitting f' v' k' pc')) := by
    intro q f' v' k' pc'
    rcases ho with rfl | ⟨id, rfl⟩ <;> nofun
  have hlt := (h.turn t p f v k pc hj).2.1
  refine h.set hj hjobs hnext hin htickets.ge (by omega) ?_ ?_ ?_ hspaced hdaily
  · intro q pc' hq
    rcases ho with rfl | ⟨id, rfl⟩
    · cases hq
    · cases hq
      exact ⟨_, rfl⟩
  · intro q f' v' k' pc' hq
    exact absurd hq (hplain q f' v' k' pc')
  · intro t' hne q f' v' k' pc' hq
    obtain ⟨hle, rfl⟩ := h.alone hj hq hne hk
    rw [hsettled]
    exact ⟨hle, fun hpc => absurd rfl hpc, trivial, fun q' f'' v'' pc'' => hplain q' f'' v'' k' pc''⟩

theorem Bounded.dropRun {s : State P} (h : Bounded cap startOfLocalDay s) {t : ℕ} {p : Pending}
    {f : String} {v : Visibility} {k : ℕ} {pc : AdmitPc}
    (hj : s.jobs t = some (.run p (.admitting f v k pc))) (hk : k = s.settled) :
    Bounded cap startOfLocalDay (s.dropRun t p) := by
  have hsettled : Bounded cap startOfLocalDay ({ s with settled := s.settled + 1 }.endJob t) :=
    h.settles hj hk (Or.inl rfl) rfl rfl rfl rfl rfl h.spaced h.daily
  exact hsettled.leave (h.session_out hj) _

/-- The admission at the head of the chain goes on. -/
theorem Bounded.admits {s : State P} (h : Bounded cap startOfLocalDay s) {t : ℕ} {p : Pending}
    {f : String} {v : Visibility} {k : ℕ} {pc : AdmitPc}
    (hj : s.jobs t = some (.run p (.admitting f v k pc))) (hk : k = s.settled) {pc' : AdmitPc}
    (hknows : Knows cap startOfLocalDay s.starts p.sessionId pc') :
    Bounded cap startOfLocalDay (s.setJob t (.run p (.admitting f v k pc'))) := by
  refine h.set hj rfl rfl rfl le_rfl h.chain ?_ ?_ ?_ h.spaced h.daily
  · intro q pc₁ hq
    cases hq
    exact ⟨_, rfl⟩
  · intro q f' v' k' pc₁ hq
    cases hq
    obtain ⟨hle, hlt, -⟩ := h.turn t p f v k pc hj
    exact ⟨hle, hlt, fun _ => hk, hknows⟩
  · intro t' hne q f' v' k' pc₁ hq
    obtain ⟨hle, -, hturn⟩ := h.turn t' q f' v' k' pc₁ hq
    refine ⟨hle, hturn, h.knows t' q f' v' k' pc₁ hq, ?_⟩
    rintro q' f'' v'' pc'' hsame
    cases hsame
    exact hne (h.tickets t' t q p f' f v' v k pc₁ pc hq hj)

theorem starts_book (s : State P) (p : Pending) (f : String) (v : Visibility) (now : ℤ)
    (id : String) : (s.book p f v now id).starts = s.starts ++ [(p.sessionId, now)] := by
  simp [State.book, State.starts]

/-- A run that is booked keeps the interval and the cap. -/
theorem Bounded.booked {s : State P} (h : Bounded cap startOfLocalDay s) {sessionId : String}
    {now : ℤ} (hknows : Knows cap startOfLocalDay s.starts sessionId (.inserting now)) :
    ((s.starts ++ [(sessionId, now)]).Pairwise fun a b =>
      a.1 = b.1 → captureMinIntervalMs ≤ b.2 - a.2) ∧
    ∀ day, onDay startOfLocalDay (s.starts ++ [(sessionId, now)]) day ≤ cap := by
  obtain ⟨hclear, hroom⟩ := hknows
  constructor
  · refine List.pairwise_append.mpr ⟨h.spaced, List.pairwise_singleton .., ?_⟩
    intro a ha b hb hsame
    obtain rfl := List.mem_singleton.mp hb
    exact hclear a ha hsame
  · intro day
    have hday := h.daily day
    simp only [onDay, List.filter_append, List.length_append] at hday ⊢
    by_cases hnow : startOfLocalDay now = day
    · subst hnow
      simp only [onDay] at hroom
      simpa using hroom
    · simpa [hnow] using hday

theorem onDay_le_countSince {s : State P} (hday : ∀ t, startOfLocalDay t ≤ t) (ts : ℤ) :
    onDay startOfLocalDay s.starts ts ≤ countSince s.rows ts := by
  unfold onDay countSince State.starts
  rw [List.filter_map, List.length_map]
  refine (List.monotone_filter_right s.rows fun r hr => ?_).length_le
  have hstart : startOfLocalDay r.startedAt = ts := by simpa using hr
  have := hday r.startedAt
  simpa using (by omega : ts ≤ r.startedAt)

theorem resumeAdmit_bounded {s s' : State P} (hday : ∀ t, startOfLocalDay t ≤ t)
    (h : Bounded cap startOfLocalDay s) {t : ℕ} {p : Pending} {f : String} {v : Visibility} {k : ℕ}
    {pc : AdmitPc} {a : Answer} (hj : s.jobs t = some (.run p (.admitting f v k pc)))
    (hs : s.resumeAdmit cap startOfLocalDay t p f v k pc a = some s') :
    Bounded cap startOfLocalDay s' := by
  have hturn := (h.turn t p f v k pc hj).2.2
  have hknows := h.knows t p f v k pc hj
  unfold State.resumeAdmit at hs
  split at hs
  case h_1 =>
    split_ifs at hs with hk <;> obtain rfl := Option.some.inj hs
    · exact h.dropRun hj hk.symm
    · exact h.admits hj hk.symm trivial
  case h_2 now =>
    obtain rfl := Option.some.inj hs
    refine h.admits hj (hturn nofun) ?_
    intro a ha hid
    obtain ⟨r, hr, rfl⟩ := List.mem_map.mp ha
    exact lastFor_le hr hid
  case h_3 now last =>
    split_ifs at hs with hrecent <;> obtain rfl := Option.some.inj hs
    · exact h.dropRun hj (hturn nofun)
    · refine h.admits hj (hturn nofun) ?_
      intro a ha hid
      obtain ⟨q, rfl, hle⟩ := hknows a ha hid
      have hold : ¬ now - q.startedAt < captureMinIntervalMs := by simpa using hrecent
      omega
  case h_4 =>
    obtain rfl := Option.some.inj hs
    exact h.admits hj (hturn nofun) hknows
  case h_5 now =>
    obtain rfl := Option.some.inj hs
    exact h.admits hj (hturn nofun) ⟨hknows, onDay_le_countSince hday _⟩
  case h_6 now n =>
    split_ifs at hs with hfull <;> obtain rfl := Option.some.inj hs
    · have hcounted : Bounded cap startOfLocalDay { s with dropped := s.dropped + 1 } :=
        h.congr rfl rfl rfl rfl rfl rfl
      exact hcounted.dropRun hj (hturn nofun)
    · have hroom : Knows cap startOfLocalDay s.starts p.sessionId (.inserting now) :=
        ⟨hknows.1, hknows.2.trans_lt (Nat.lt_of_not_le hfull)⟩
      exact (h.admits hj (hturn nofun) hroom).congr rfl rfl rfl rfl rfl rfl
  case h_7 now id =>
    obtain rfl := Option.some.inj hs
    obtain ⟨hspaced, hdaily⟩ := h.booked hknows
    rw [← starts_book s p f v now id] at hspaced hdaily
    exact h.settles hj (hturn nofun) (Or.inr ⟨id, rfl⟩) rfl rfl rfl rfl rfl hspaced hdaily
  case h_8 now id =>
    obtain rfl := Option.some.inj hs
    obtain ⟨hspaced, hdaily⟩ := h.booked hknows
    rw [← starts_book s p f v now id] at hspaced hdaily
    have hsettled : Bounded cap startOfLocalDay
        ({ s.book p f v now id with settled := s.settled + 1 }.endJob t) :=
      h.settles hj (hturn nofun) (Or.inl rfl) rfl rfl rfl rfl rfl hspaced hdaily
    exact hsettled.leave (h.session_out hj) _
  case h_9 | h_10 | h_11 | h_12 =>
    obtain rfl := Option.some.inj hs
    exact h.dropRun hj (hturn nofun)
  case h_13 => cases hs

theorem starts_finish (s : State P) (id : String) (status : RunStatus) :
    (s.finish id status).starts = s.starts := by
  simp only [State.finish, State.starts, List.map_map]
  refine List.map_congr_left fun r _ => ?_
  simp only [Function.comp_apply]
  split_ifs <;> rfl

theorem Bounded.finish {s : State P} (h : Bounded cap startOfLocalDay s) (id : String)
    (status : RunStatus) : Bounded cap startOfLocalDay (s.finish id status) :=
  h.congr rfl rfl rfl rfl rfl (starts_finish s id status)

/-- A run outside the chain goes on outside it. -/
theorem Bounded.setRun {s : State P} (h : Bounded cap startOfLocalDay s) {t : ℕ} {p : Pending}
    {pc pc' : RunPc} (hj : s.jobs t = some (.run p pc))
    (hplain : ∀ f v k apc, pc' ≠ .admitting f v k apc) :
    Bounded cap startOfLocalDay (s.setJob t (.run p pc')) := by
  refine h.goes hj ?_ ?_ rfl
  · intro q pc₁ hq
    cases hq
    exact ⟨pc, rfl⟩
  · rintro q f v k apc hq
    cases hq
    exact hplain f v k apc rfl

/-- A run joins the chain at its end. -/
theorem Bounded.joins {s : State P} (h : Bounded cap startOfLocalDay s) {t : ℕ} {p : Pending}
    {pc : RunPc} (hj : s.jobs t = some (.run p pc)) (f : String) (v : Visibility) :
    Bounded cap startOfLocalDay ({ s with tickets := s.tickets + 1 }.setJob t
      (.run p (.admitting f v s.tickets .waiting))) := by
  refine h.set hj rfl rfl rfl (Nat.le_succ _) (Nat.le_succ_of_le h.chain) ?_ ?_ ?_ h.spaced
    h.daily
  · intro q pc₁ hq
    cases hq
    exact ⟨pc, rfl⟩
  · intro q f' v' k' pc₁ hq
    cases hq
    exact ⟨h.chain, Nat.lt_succ_self _, fun hpc => absurd rfl hpc, trivial⟩
  · intro t' _ q f' v' k' pc₁ hq
    obtain ⟨hle, hlt, hturn⟩ := h.turn t' q f' v' k' pc₁ hq
    refine ⟨hle, hturn, h.knows t' q f' v' k' pc₁ hq, ?_⟩
    rintro q' f'' v'' pc'' hsame
    cases hsame
    exact absurd hlt (lt_irrefl _)

theorem resumeRun_bounded {s s' : State P} (hday : ∀ t, startOfLocalDay t ≤ t)
    (h : Bounded cap startOfLocalDay s) {t : ℕ} {p : Pending} {pc : RunPc} {a : Answer}
    (hj : s.jobs t = some (.run p pc))
    (hs : s.resumeRun cap startOfLocalDay t p pc a = some s') : Bounded cap startOfLocalDay s' := by
  unfold State.resumeRun at hs
  split at hs
  case h_1 =>
    split_ifs at hs <;> obtain rfl := Option.some.inj hs
    · exact h.setRun hj fun _ _ _ _ => nofun
    · exact h.endRun hj
  case h_2 =>
    obtain rfl := Option.some.inj hs
    split
    · split_ifs
      · exact h.setRun hj fun _ _ _ _ => nofun
      · exact h.endRun hj
    · exact h.endRun hj
  case h_3 =>
    obtain rfl := Option.some.inj hs
    split
    · exact h.joins hj _ _
    · exact h.endRun hj
  case h_4 | h_5 | h_6 =>
    obtain rfl := Option.some.inj hs
    exact h.endRun hj
  case h_7 => exact resumeAdmit_bounded hday h hj hs
  case h_8 | h_9 | h_10 | h_11 | h_14 =>
    obtain rfl := Option.some.inj hs
    exact h.setRun hj fun _ _ _ _ => nofun
  case h_12 | h_15 | h_16 =>
    obtain rfl := Option.some.inj hs
    exact (h.finish _ _).endRun hj
  case h_13 =>
    obtain rfl := Option.some.inj hs
    exact (h.finish _ _).setRun hj fun _ _ _ _ => nofun
  case h_17 =>
    obtain rfl := Option.some.inj hs
    exact h.endRun hj
  case h_18 => cases hs

theorem Bounded.setOther {s : State P} (h : Bounded cap startOfLocalDay s) {t : ℕ} {j j' : Job}
    (hj : s.jobs t = some j) (hj' : ∀ p pc, j' ≠ .run p pc) :
    Bounded cap startOfLocalDay (s.setJob t j') :=
  h.goes hj (fun p pc hp => absurd (Option.some.inj hp) (hj' p pc))
    (fun p _ _ _ _ hp => absurd (Option.some.inj hp) (hj' p _)) rfl

/-- `pump` leaves the jobs there are. -/
theorem pump_jobs {s : State P} {t : ℕ} (ht : t < s.next) : s.pump.jobs t = s.jobs t := by
  fun_induction State.pump s with
  | case1 => rfl
  | case2 s hroom p hp s' hold ih => exact ih ht
  | case3 s hroom p hp s' hfresh ih =>
    rw [ih (Nat.lt_succ_of_lt ht)]
    exact Function.update_of_ne ht.ne ..
  | case4 => rfl

theorem Bounded.enqueue_jobs {s : State P} (h : Bounded cap startOfLocalDay s) {t : ℕ} {j : Job}
    (hj : s.jobs t = some j) (p : Pending) : (s.enqueue p).jobs t = some j := by
  have ht : t < s.next := by
    by_contra hle
    rw [h.unborn t (Nat.le_of_not_lt hle)] at hj
    cases hj
  exact Eq.trans (pump_jobs (s := { s with queue := enter s.queue p }) ht) hj

theorem Bounded.endIngest {s : State P} (h : Bounded cap startOfLocalDay s) {t : ℕ} {j : Job}
    (hj : s.jobs t = some j) (sessionId : String) :
    Bounded cap startOfLocalDay (s.endIngest t sessionId) :=
  (h.endJob hj).congr rfl rfl rfl rfl rfl rfl

variable {policy : Policy P}

theorem Bounded.judgeIngest {s : State P} (h : Bounded cap startOfLocalDay s) {t : ℕ} {j : Job}
    (hj : s.jobs t = some j) (workspaceId sessionId : String) (settings : CaptureSettings)
    (sig : CaptureSignals) (now : ℤ) (state : P) :
    Bounded cap startOfLocalDay
      (s.judgeIngest policy t workspaceId sessionId settings sig now state) := by
  unfold State.judgeIngest
  dsimp only
  have hjudged : Bounded cap startOfLocalDay { s with
      policy := Function.update s.policy sessionId (some (policy.decide sig state settings now).2) } :=
    h.congr rfl rfl rfl rfl rfl rfl
  split
  · exact hjudged.endIngest hj sessionId
  · exact (hjudged.enqueue _).endIngest (hjudged.enqueue_jobs hj _) sessionId

theorem resumeIngest_bounded {s s' : State P} (h : Bounded cap startOfLocalDay s) {t : ℕ}
    {workspaceId sessionId : String} {pc : IngestPc} {a : Answer}
    (hj : s.jobs t = some (.ingest workspaceId sessionId pc))
    (hs : s.resumeIngest policy t workspaceId sessionId pc a = some s') :
    Bounded cap startOfLocalDay s' := by
  have hgoes : ∀ pc', Bounded cap startOfLocalDay
      (s.setJob t (.ingest workspaceId sessionId pc')) := fun _ => h.setOther hj fun _ _ => nofun
  have hends := h.endIngest hj sessionId
  unfold State.resumeIngest at hs
  split at hs
  case h_1 =>
    obtain rfl := Option.some.inj hs
    exact hends
  case h_2 b =>
    split at hs
    · split_ifs at hs <;> obtain rfl := Option.some.inj hs
      · exact hends
      · exact hgoes _
    · split_ifs at hs <;> obtain rfl := Option.some.inj hs
      · exact hgoes _
      · exact hends
    · cases hs
  case h_3 =>
    split at hs
    · split_ifs at hs <;> obtain rfl := Option.some.inj hs
      · exact hgoes _
      · exact hends
    · obtain rfl := Option.some.inj hs
      exact hends
    · cases hs
  case h_4 =>
    split at hs
    · split_ifs at hs <;> obtain rfl := Option.some.inj hs
      · exact hends
      · split
        · exact h.judgeIngest hj ..
        · exact hgoes _
    · obtain rfl := Option.some.inj hs
      exact hends
    · cases hs
  case h_5 =>
    split at hs
    · obtain rfl := Option.some.inj hs
      exact h.judgeIngest hj ..
    · cases hs
  case h_6 => cases hs

theorem Bounded.searchLoop {s : State P} (h : Bounded cap startOfLocalDay s) {t : ℕ} {j : Job}
    (hj : s.jobs t = some j) (e : SearchHitEvent) (caller : CaptureSettings) (rest : List String) :
    Bounded cap startOfLocalDay (s.searchLoop t e caller rest) := by
  induction rest with
  | nil => exact h.endJob hj
  | cons sessionId rest ih =>
    simp only [State.searchLoop]
    split_ifs
    · exact ih
    · exact h.setOther hj fun _ _ => nofun

theorem Bounded.judgeOwn {s : State P} (h : Bounded cap startOfLocalDay s) {t : ℕ} {j : Job}
    (hj : s.jobs t = some j) (e : SearchHitEvent) (caller : CaptureSettings) (sessionId : String)
    (rest : List String) (sig : CaptureSignals) (own : Option CaptureSettings) :
    Bounded cap startOfLocalDay (s.judgeOwn t e caller sessionId rest sig own) := by
  unfold State.judgeOwn
  split
  · split_ifs
    · exact h.setOther hj fun _ _ => nofun
    · exact h.searchLoop hj e caller rest
  · exact h.searchLoop hj e caller rest

theorem resumeSearch_bounded {s s' : State P} (h : Bounded cap startOfLocalDay s) {t : ℕ}
    {e : SearchHitEvent} {pc : SearchPc} {a : Answer} (hj : s.jobs t = some (.search e pc))
    (hs : s.resumeSearch t e pc a = some s') : Bounded cap startOfLocalDay s' := by
  have hgoes : ∀ pc', Bounded cap startOfLocalDay (s.setJob t (.search e pc')) :=
    fun _ => h.setOther hj fun _ _ => nofun
  have hloop := h.searchLoop hj e
  unfold State.resumeSearch at hs
  split at hs
  case h_1 =>
    obtain rfl := Option.some.inj hs
    exact h.endJob hj
  case h_2 b =>
    split at hs
    · split_ifs at hs <;> obtain rfl := Option.some.inj hs
      · exact hgoes _
      · exact h.endJob hj
    · split_ifs at hs <;> obtain rfl := Option.some.inj hs
      · exact hloop _ _
      · exact hgoes _
    · cases hs
  case h_3 =>
    split at hs
    · split at hs
      · split_ifs at hs <;> obtain rfl := Option.some.inj hs
        · exact hloop _ _
        · exact h.endJob hj
      · obtain rfl := Option.some.inj hs
        exact h.endJob hj
    · obtain rfl := Option.some.inj hs
      exact h.judgeOwn hj ..
    · cases hs
  case h_4 =>
    split at hs
    · split_ifs at hs <;> obtain rfl := Option.some.inj hs
      · exact h.judgeOwn hj ..
      · exact hgoes _
      · exact hloop _ _
    · obtain rfl := Option.some.inj hs
      exact hloop _ _
    · cases hs
  case h_5 =>
    split at hs
    · obtain rfl := Option.some.inj hs
      split
      · exact hloop _ _
      · exact (h.enqueue _).searchLoop (h.enqueue_jobs hj _) ..
    · cases hs
  case h_6 => cases hs

theorem step_bounded {s s' : State P} (hday : ∀ t, startOfLocalDay t ≤ t)
    (h : Bounded cap startOfLocalDay s) {a : Action}
    (hs : step policy cap startOfLocalDay s a = some s') : Bounded cap startOfLocalDay s' := by
  cases a with
  | onIngest workspaceId sessionId =>
    simp only [step] at hs
    split_ifs at hs <;> obtain rfl := Option.some.inj hs
    · exact h
    · have hmarked : Bounded cap startOfLocalDay
          { s with checking := insert sessionId s.checking } := h.congr rfl rfl rfl rfl rfl rfl
      exact hmarked.spawn (fun _ _ _ _ _ => nofun) fun _ _ => nofun
  | onSearchHit e =>
    simp only [step] at hs
    split_ifs at hs <;> obtain rfl := Option.some.inj hs
    · exact h
    · exact h.spawn (fun _ _ _ _ _ => nofun) fun _ _ => nofun
  | resume t a =>
    simp only [step] at hs
    split at hs
    · next hj => exact resumeIngest_bounded h hj hs
    · next hj => exact resumeSearch_bounded h hj hs
    · next hj => exact resumeRun_bounded hday h hj hs
    · cases hs
  | tick ms | stop | resumeAll =>
    obtain rfl := Option.some.inj hs
    exact h.congr rfl rfl rfl rfl rfl rfl
  | restart seeded =>
    obtain rfl := Option.some.inj hs
    exact start_bounded s.clock _ h.spaced h.daily
  | failRunning =>
    obtain rfl := Option.some.inj hs
    refine h.congr rfl rfl rfl rfl rfl ?_
    simp only [State.starts, List.map_map]
    refine List.map_congr_left fun r _ => ?_
    simp only [Function.comp_apply]
    split_ifs <;> rfl

/-- The session of the fork that the job runs. -/
def Job.fork : Job → Option String
  | .run p (.executing _) => some p.sessionId
  | _ => none

theorem Job.fork_eq_some {j : Job} {sessionId : String} (h : j.fork = some sessionId) :
    ∃ p id, j = .run p (.executing id) ∧ p.sessionId = sessionId := by
  unfold Job.fork at h
  split at h
  · next p id => exact ⟨p, id, rfl, Option.some.inj h⟩
  · cases h

/-- In every state that a fresh install can reach: at most two forks run, and one for a session;
the runs of a session start at least the interval apart; and no local day has more than the cap. -/
theorem captures_bounded (policy : Policy P) (cap : ℕ) (startOfLocalDay : ℤ → ℤ)
    (hday : ∀ t, startOfLocalDay t ≤ t) (clock : ℤ) (as : List Action) (s : State P)
    (hrun : run (step policy cap startOfLocalDay) (.start clock [] ∅) as = some s) :
    (∀ ts : Finset ℕ, (∀ t ∈ ts, ((s.jobs t).bind Job.fork).isSome = true) →
      ts.card ≤ maxConcurrentCaptures) ∧
    (∀ t t' sessionId, (s.jobs t).bind Job.fork = some sessionId →
      (s.jobs t').bind Job.fork = some sessionId → t = t') ∧
    (s.rows.Pairwise fun r r' => r.sessionId = r'.sessionId →
      captureMinIntervalMs ≤ r'.startedAt - r.startedAt) ∧
    ∀ day, (s.rows.filter fun r => startOfLocalDay r.startedAt = day).length ≤ cap := by
  have h : Bounded cap startOfLocalDay s :=
    run_invariant (fun _ _ _ h hs => step_bounded hday h hs)
      (start_bounded clock ∅ List.Pairwise.nil fun _ => Nat.zero_le _) hrun
  have hfork : ∀ t sessionId, (s.jobs t).bind Job.fork = some sessionId →
      ∃ p id, s.jobs t = some (.run p (.executing id)) ∧ p.sessionId = sessionId := by
    intro t sessionId ht
    obtain ⟨j, hj, hfork⟩ := Option.bind_eq_some_iff.mp ht
    obtain ⟨p, id, rfl, hp⟩ := Job.fork_eq_some hfork
    exact ⟨p, id, hj, hp⟩
  have hsingle : ∀ t t' sessionId, (s.jobs t).bind Job.fork = some sessionId →
      (s.jobs t').bind Job.fork = some sessionId → t = t' := by
    intro t t' sessionId ht ht'
    obtain ⟨p, id, hj, hp⟩ := hfork t sessionId ht
    obtain ⟨p', id', hj', hp'⟩ := hfork t' sessionId ht'
    exact h.single t t' p p' _ _ hj hj' (hp.trans hp'.symm)
  refine ⟨?_, hsingle, ?_, ?_⟩
  · intro ts hts
    -- the forks go one to one to the sessions in flight
    have hcard : ts.card ≤ s.inFlight.card := by
      refine Finset.card_le_card_of_injOn (fun t => ((s.jobs t).bind Job.fork).getD "") ?_ ?_
      · intro t ht
        obtain ⟨sessionId, hid⟩ := Option.isSome_iff_exists.mp (hts t ht)
        obtain ⟨p, id, hj, hp⟩ := hfork t sessionId hid
        simp only [hid, Option.getD_some, ← hp]
        exact h.live t p _ hj
      · intro t ht t' ht' heq
        obtain ⟨sessionId, hid⟩ := Option.isSome_iff_exists.mp (hts t ht)
        obtain ⟨sessionId', hid'⟩ := Option.isSome_iff_exists.mp (hts t' ht')
        simp only [hid, hid', Option.getD_some] at heq
        exact hsingle t t' sessionId hid (heq ▸ hid')
    exact hcard.trans h.few
  · exact List.pairwise_map.mp h.spaced
  · intro day
    have hdaily := h.daily day
    unfold onDay State.starts at hdaily
    rw [List.filter_map, List.length_map] at hdaily
    exact hdaily

/-- A policy under which no ingest triggers a capture. -/
def neverPolicy : Policy Unit := ⟨fun _ _ _ => (), fun _ _ _ _ => (none, ())⟩

def utcDay (t : ℤ) : ℤ := t - t % 86400000

theorem utcDay_le (t : ℤ) : utcDay t ≤ t := by
  unfold utcDay
  omega

/-- One search that hits two sessions. -/
def twoHits : List Action :=
  let found : List Action := [.resume 0 (.flag false),
    .resume 0 (.signals (some { workspaceId := "w", userTurns := 40 })), .resume 0 (.last none)]
  ([.onSearchHit ⟨"w", ["w"], .searchTranscripts, "q", ["a", "b"]⟩, .resume 0 (.flag true),
    .resume 0 (.settings (some {}))] : List Action) ++ found ++ found

/-- A run that is admitted and forks. -/
def admittedRun (t : ℕ) (id : String) : List Action :=
  ([.resume t (.flag true), .resume t (.settings (some {})),
    .resume t (.target (some id))] : List Action) ++
    List.replicate 6 (Action.resume t .done) ++
    ([.resume t (.inserted id), .resume t .done] : List Action)

def bothForked : List Action := twoHits ++ admittedRun 1 "x" ++ admittedRun 2 "y"

theorem captures_bounded_bothForked :
    ((run (step neverPolicy 2 utcDay) (.start 1000 [] ∅) bothForked).any fun s =>
      ((s.jobs 1).bind Job.fork == some "a") && ((s.jobs 2).bind Job.fork == some "b") &&
        s.rows.length == 2) = true ∧
    ∀ s, run (step neverPolicy 2 utcDay) (.start 1000 [] ∅) bothForked = some s →
      (∀ ts : Finset ℕ, (∀ t ∈ ts, ((s.jobs t).bind Job.fork).isSome = true) →
        ts.card ≤ maxConcurrentCaptures) ∧
      ∀ day, (s.rows.filter fun r => utcDay r.startedAt = day).length ≤ 2 :=
  ⟨by decide +kernel, fun s hrun =>
    have h := captures_bounded neverPolicy 2 utcDay utcDay_le 1000 bothForked s hrun
    ⟨h.1, h.2.2.2⟩⟩

end ClaudeFleet.CaptureScheduler
