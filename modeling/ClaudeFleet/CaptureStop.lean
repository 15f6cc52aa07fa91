import Mathlib.Tactic
import ClaudeFleet.CaptureScheduler
import ClaudeFleet.CaptureBounds

/-! What `stop` of the capture scheduler stops. The pump starts nothing more, but a run that has
left the queue looks at the flag no more and goes on to its fork. -/
namespace ClaudeFleet.CaptureScheduler
open Transition

variable {P : Type} {policy : Policy P} {cap : ℕ} {startOfLocalDay : ℤ → ℤ}

/-- The run has forked. -/
def RunPc.begun : RunPc → Bool
  | .executing _ => true
  | .finishing _ _ => true
  | .refinishing _ => true
  | _ => false

/-- The step in which a run calls `exec`: its lookup of topics has answered or failed. -/
def beginsExec (s : State P) : Action → Bool
  | .resume t a =>
    match s.jobs t, a with
    | some (.run _ (.topics _)), .done => true
    | some (.run _ (.topics _)), .failed => true
    | _, _ => false
  | _ => false

/-- When the scheduler is stopped, every run that has left the queue has forked. -/
def QuietStop (s : State P) : Action → Prop
  | .stop => ∀ t p pc, s.jobs t = some (.run p pc) → pc.begun = true
  | _ => True

def Halted (s : State P) : Prop :=
  s.stopped = true → ∀ t p pc, s.jobs t = some (.run p pc) → pc.begun = true

/-- The flag stays; and while the scheduler is stopped, its runs are the ones there were, and none
is back before its fork. -/
structure Carries (s s' : State P) : Prop where
  stopped : s'.stopped = s.stopped
  runs : s.stopped = true → ∀ t p pc', s'.jobs t = some (.run p pc') →
    ∃ pc, s.jobs t = some (.run p pc) ∧ (pc.begun = true → pc'.begun = true)

theorem Carries.of_jobs {s s' : State P} (hstopped : s'.stopped = s.stopped)
    (hjobs : s'.jobs = s.jobs) : Carries s s' :=
  ⟨hstopped, fun _ _ _ pc' h => ⟨pc', hjobs ▸ h, id⟩⟩

theorem Carries.trans {s s' s'' : State P} (h : Carries s s') (h' : Carries s' s'') :
    Carries s s'' := by
  refine ⟨h'.stopped.trans h.stopped, ?_⟩
  intro hs t p pc'' hj
  obtain ⟨pc', hj', hbegun'⟩ := h'.runs (h.stopped.trans hs) t p pc'' hj
  obtain ⟨pc, hj, hbegun⟩ := h.runs hs t p pc' hj'
  exact ⟨pc, hj, fun hb => hbegun' (hbegun hb)⟩

/-- A job goes on or ends; if it is a run, it goes on as one that has got further. -/
theorem Carries.update {s : State P} {t : ℕ} {o : Option Job}
    (ho : ∀ p pc', o = some (.run p pc') →
      ∃ pc, s.jobs t = some (.run p pc) ∧ (pc.begun = true → pc'.begun = true)) :
    Carries s { s with jobs := Function.update s.jobs t o } := by
  refine ⟨rfl, ?_⟩
  intro _ t' p pc' hj
  simp only [Function.update_apply] at hj
  split_ifs at hj with ht
  · subst ht
    exact ho p pc' hj
  · exact ⟨pc', hj, id⟩

theorem Carries.endJob (s : State P) (t : ℕ) : Carries s (s.endJob t) := by
  refine Carries.update ?_
  intro p pc' h
  cases h

theorem Carries.setIngest (s : State P) (t : ℕ) (workspaceId sessionId : String) (pc : IngestPc) :
    Carries s (s.setJob t (.ingest workspaceId sessionId pc)) := by
  refine Carries.update ?_
  intro p pc' h
  cases Option.some.inj h

theorem Carries.setSearch (s : State P) (t : ℕ) (e : SearchHitEvent) (pc : SearchPc) :
    Carries s (s.setJob t (.search e pc)) := by
  refine Carries.update ?_
  intro p pc' h
  cases Option.some.inj h

theorem Carries.setRun {s : State P} {t : ℕ} {p : Pending} {pc pc' : RunPc}
    (hj : s.jobs t = some (.run p pc)) (hbegun : pc.begun = true → pc'.begun = true) :
    Carries s (s.setJob t (.run p pc')) := by
  refine Carries.update ?_
  intro q pc'' h
  obtain ⟨rfl, rfl⟩ := Job.run.inj (Option.some.inj h)
  exact ⟨pc, hj, hbegun⟩

theorem pump_of_stopped {s : State P} (h : s.stopped = true) : s.pump = s := by
  rw [State.pump, if_neg]
  simp [h]

theorem pump_stopped (s : State P) : s.pump.stopped = s.stopped := by
  fun_induction State.pump s with
  | case1 s hfree hnone => rfl
  | case2 s hfree p hp s' hold ih => exact ih
  | case3 s hfree p hp s' hnew ih => exact ih
  | case4 s hfull => rfl

theorem Carries.pump (s : State P) : Carries s s.pump := by
  refine ⟨pump_stopped s, ?_⟩
  intro h t p pc' hj
  rw [pump_of_stopped h] at hj
  exact ⟨pc', hj, id⟩

theorem Carries.endRun (s : State P) (t : ℕ) (p : Pending) : Carries s (s.endRun t p) := by
  unfold State.endRun
  refine Carries.trans ?_ (Carries.pump _)
  exact (Carries.endJob s t).trans (Carries.of_jobs rfl rfl)

theorem Carries.dropRun (s : State P) (t : ℕ) (p : Pending) : Carries s (s.dropRun t p) := by
  unfold State.dropRun
  refine Carries.trans ?_ (Carries.endRun _ t p)
  exact Carries.of_jobs rfl rfl

theorem Carries.enqueue (s : State P) (p : Pending) : Carries s (s.enqueue p) := by
  unfold State.enqueue
  refine Carries.trans ?_ (Carries.pump _)
  exact Carries.of_jobs rfl rfl

theorem Carries.endIngest (s : State P) (t : ℕ) (sessionId : String) :
    Carries s (s.endIngest t sessionId) :=
  (Carries.endJob s t).trans (Carries.of_jobs rfl rfl)

theorem Carries.judgeIngest (s : State P) (t : ℕ) (workspaceId sessionId : String)
    (settings : CaptureSettings) (sig : CaptureSignals) (now : ℤ) (state : P) :
    Carries s (s.judgeIngest policy t workspaceId sessionId settings sig now state) := by
  unfold State.judgeIngest
  dsimp only
  split
  · refine Carries.trans ?_ (Carries.endIngest _ t sessionId)
    exact Carries.of_jobs rfl rfl
  · refine Carries.trans (Carries.trans ?_ (Carries.enqueue _ _)) (Carries.endIngest _ t sessionId)
    exact Carries.of_jobs rfl rfl

theorem Carries.searchLoop (s : State P) (t : ℕ) (e : SearchHitEvent) (caller : CaptureSettings)
    (rest : List String) : Carries s (s.searchLoop t e caller rest) := by
  induction rest with
  | nil => exact Carries.endJob s t
  | cons sessionId rest ih =>
    simp only [State.searchLoop]
    split_ifs
    · exact ih
    · exact Carries.setSearch ..

theorem Carries.judgeOwn (s : State P) (t : ℕ) (e : SearchHitEvent) (caller : CaptureSettings)
    (sessionId : String) (rest : List String) (sig : CaptureSignals)
    (own : Option CaptureSettings) :
    Carries s (s.judgeOwn t e caller sessionId rest sig own) := by
  unfold State.judgeOwn
  split
  · split_ifs
    · exact Carries.setSearch ..
    · exact Carries.searchLoop s t e caller rest
  · exact Carries.searchLoop s t e caller rest

theorem resumeIngest_carries {s s' : State P} {t : ℕ}
    {workspaceId sessionId : String} {pc : IngestPc} {a : Answer}
    (hs : s.resumeIngest policy t workspaceId sessionId pc a = some s') : Carries s s' := by
  have hends := Carries.endIngest s t sessionId
  have hgoes : ∀ pc', Carries s (s.setJob t (.ingest workspaceId sessionId pc')) :=
    fun _ => Carries.setIngest ..
  unfold State.resumeIngest at hs
  split at hs
  case h_1 =>
    obtain rfl := Option.some.inj hs
    exact hends
  case h_2 b =>
    split at hs
    · split_ifs at hs <;> obtain rfl := Option.some.inj hs
      · exact hends
      · exact hgoes _
    · split_ifs at hs <;> obtain rfl := Option.some.inj hs
      · exact hgoes _
      · exact hends
    · cases hs
  case h_3 =>
    split at hs
    · split_ifs at hs <;> obtain rfl := Option.some.inj hs
      · exact hgoes _
      · exact hends
    · obtain rfl := Option.some.inj hs
      exact hends
    · cases hs
  case h_4 =>
    split at hs
    · split_ifs at hs <;> obtain rfl := Option.some.inj hs
      · exact hends
      · split
        · exact Carries.judgeIngest ..
        · exact hgoes _
    · obtain rfl := Option.some.inj hs
      exact hends
    · cases hs
  case h_5 =>
    split at hs
    · obtain rfl := Option.some.inj hs
      exact Carries.judgeIngest ..
    · cases hs
  case h_6 => cases hs

theorem resumeSearch_carries {s s' : State P} {t : ℕ} {e : SearchHitEvent}
    {pc : SearchPc} {a : Answer} (hs : s.resumeSearch t e pc a = some s') : Carries s s' := by
  have hends := Carries.endJob s t
  have hgoes : ∀ pc', Carries s (s.setJob t (.search e pc')) := fun _ => Carries.setSearch ..
  have hloop := Carries.searchLoop s t e
  unfold State.resumeSearch at hs
  split at hs
  case h_1 =>
    obtain rfl := Option.some.inj hs
    exact hends
  case h_2 b =>
    split at hs
    · split_ifs at hs <;> obtain rfl := Option.some.inj hs
      · exact hgoes _
      · exact hends
    · split_ifs at hs <;> obtain rfl := Option.some.inj hs
      · exact hloop _ _
      · exact hgoes _
    · cases hs
  case h_3 =>
    split at hs
    · split at hs
      · split_ifs at hs <;> obtain rfl := Option.some.inj hs
        · exact hloop _ _
        · exact hends
      · obtain rfl := Option.some.inj hs
        exact hends
    · obtain rfl := Option.some.inj hs
      exact Carries.judgeOwn ..
    · cases hs
  case h_4 =>
    split at hs
    · split_ifs at hs <;> obtain rfl := Option.some.inj hs
      · exact Carries.judgeOwn ..
      · exact hgoes _
      · exact hloop _ _
    · obtain rfl := Option.some.inj hs
      exact hloop _ _
    · cases hs
  case h_5 =>
    split at hs
    · obtain rfl := Option.some.inj hs
      split
      · exact hloop _ _
      · exact (Carries.enqueue s _).trans (Carries.searchLoop ..)
    · cases hs
  case h_6 => cases hs

theorem resumeAdmit_carries {s s' : State P} {t : ℕ} {p : Pending}
    {fork : String} {visibility : Visibility} {ticket : ℕ} {pc : AdmitPc} {a : Answer}
    (hj : s.jobs t = some (.run p (.admitting fork visibility ticket pc)))
    (hs : s.resumeAdmit cap startOfLocalDay t p fork visibility ticket pc a = some s') :
    Carries s s' := by
  have hgoes : ∀ {r : State P} pc', r.stopped = s.stopped → r.jobs = s.jobs →
      Carries s (r.setJob t (.run p pc')) := by
    intro r pc' hstopped hjobs
    refine (Carries.of_jobs hstopped hjobs : Carries s r).trans ?_
    exact Carries.setRun (hjobs ▸ hj) (by simp [RunPc.begun])
  have hdrops : ∀ {r : State P}, r.stopped = s.stopped → r.jobs = s.jobs →
      Carries s (r.dropRun t p) := by
    intro r hstopped hjobs
    exact (Carries.of_jobs hstopped hjobs : Carries s r).trans
      (Carries.dropRun r t p)
  unfold State.resumeAdmit at hs
  dsimp only at hs
  split at hs
  · split_ifs at hs <;> obtain rfl := Option.some.inj hs
    · exact hdrops rfl rfl
    · exact hgoes _ rfl rfl
  · obtain rfl := Option.some.inj hs
    exact hgoes _ rfl rfl
  · split_ifs at hs <;> obtain rfl := Option.some.inj hs
    · exact hdrops rfl rfl
    · exact hgoes _ rfl rfl
  · obtain rfl := Option.some.inj hs
    exact hgoes _ rfl rfl
  · obtain rfl := Option.some.inj hs
    exact hgoes _ rfl rfl
  · split_ifs at hs <;> obtain rfl := Option.some.inj hs
    · exact hdrops rfl rfl
    · exact hgoes _ rfl rfl
  · obtain rfl := Option.some.inj hs
    exact hgoes _ rfl rfl
  · obtain rfl := Option.some.inj hs
    exact hdrops rfl rfl
  · obtain rfl := Option.some.inj hs
    exact hdrops rfl rfl
  · obtain rfl := Option.some.inj hs
    exact hdrops rfl rfl
  · obtain rfl := Option.some.inj hs
    exact hdrops rfl rfl
  · obtain rfl := Option.some.inj hs
    exact hdrops rfl rfl
  · cases hs

theorem resumeRun_carries {s s' : State P} {t : ℕ} {p : Pending}
    {pc : RunPc} {a : Answer} (hj : s.jobs t = some (.run p pc))
    (hs : s.resumeRun cap startOfLocalDay t p pc a = some s') : Carries s s' := by
  have hends := Carries.endRun s t p
  have hgoes : ∀ pc', (pc.begun = true → pc'.begun = true) →
      Carries s (s.setJob t (.run p pc')) := fun _ hb => Carries.setRun hj hb
  have hfinish : ∀ id status, Carries s (s.finish id status) := fun _ _ => Carries.of_jobs rfl rfl
  unfold State.resumeRun at hs
  split at hs
  · split_ifs at hs <;> obtain rfl := Option.some.inj hs
    · exact hgoes _ (by simp [RunPc.begun])
    · exact hends
  · obtain rfl := Option.some.inj hs
    split
    · split_ifs
      · exact hgoes _ (by simp [RunPc.begun])
      · exact hends
    · exact hends
  · obtain rfl := Option.some.inj hs
    split
    · exact (Carries.of_jobs rfl rfl : Carries s { s with tickets := s.tickets + 1 }).trans
        (Carries.setRun hj (by simp [RunPc.begun]))
    · exact hends
  · obtain rfl := Option.some.inj hs
    exact hends
  · obtain rfl := Option.some.inj hs
    exact hends
  · obtain rfl := Option.some.inj hs
    exact hends
  · exact resumeAdmit_carries hj hs
  · obtain rfl := Option.some.inj hs
    exact hgoes _ (by simp [RunPc.begun])
  · obtain rfl := Option.some.inj hs
    exact hgoes _ (by simp [RunPc.begun])
  · obtain rfl := Option.some.inj hs
    exact hgoes _ fun _ => rfl
  · obtain rfl := Option.some.inj hs
    exact hgoes _ fun _ => rfl
  · obtain rfl := Option.some.inj hs
    exact (hfinish _ _).trans (Carries.endRun _ t p)
  · obtain rfl := Option.some.inj hs
    exact (hfinish _ _).trans (Carries.setRun hj fun _ => rfl)
  · obtain rfl := Option.some.inj hs
    exact hgoes _ fun _ => rfl
  · obtain rfl := Option.some.inj hs
    exact (hfinish _ _).trans (Carries.endRun _ t p)
  · obtain rfl := Option.some.inj hs
    exact (hfinish _ _).trans (Carries.endRun _ t p)
  · obtain rfl := Option.some.inj hs
    exact hends
  · cases hs

theorem resume_carries {s s' : State P} {t : ℕ} {a : Answer}
    (hs : step policy cap startOfLocalDay s (.resume t a) = some s') : Carries s s' := by
  simp only [step] at hs
  split at hs
  · exact resumeIngest_carries hs
  · exact resumeSearch_carries hs
  · next hj => exact resumeRun_carries hj hs
  · cases hs

theorem Halted.carries {s s' : State P} (h : Halted s) (hc : Carries s s') : Halted s' := by
  intro hstopped t p pc' hj
  have hs : s.stopped = true := hc.stopped ▸ hstopped
  obtain ⟨pc, hj, hbegun⟩ := hc.runs hs t p pc' hj
  exact hbegun (h hs t p pc hj)

theorem halted_step {s s' : State P} (h : Halted s) {a : Action} (hok : QuietStop s a)
    (hs : step policy cap startOfLocalDay s a = some s') : Halted s' := by
  cases a with
  | onIngest workspaceId sessionId =>
    simp only [step] at hs
    split_ifs at hs with hskip <;> obtain rfl := Option.some.inj hs
    · exact h
    · have hfree : s.stopped = false := by simpa using fun hst => hskip (Or.inl hst)
      exact h.carries ⟨rfl, fun hst => absurd (hfree.symm.trans hst) (by simp)⟩
  | onSearchHit e =>
    simp only [step] at hs
    split_ifs at hs with hskip <;> obtain rfl := Option.some.inj hs
    · exact h
    · have hfree : s.stopped = false := by simpa using fun hst => hskip (Or.inl hst)
      exact h.carries ⟨rfl, fun hst => absurd (hfree.symm.trans hst) (by simp)⟩
  | resume t a => exact h.carries (resume_carries hs)
  | tick ms =>
    obtain rfl := Option.some.inj hs
    exact h
  | stop =>
    obtain rfl := Option.some.inj hs
    exact fun _ => hok
  | resumeAll =>
    obtain rfl := Option.some.inj hs
    exact fun hstopped => by cases hstopped
  | restart seeded =>
    obtain rfl := Option.some.inj hs
    exact fun hstopped => by cases hstopped
  | failRunning =>
    obtain rfl := Option.some.inj hs
    exact h

theorem topics_of_beginsExec {s : State P} {a : Action} (h : beginsExec s a = true) :
    ∃ t p id, s.jobs t = some (.run p (.topics id)) := by
  unfold beginsExec at h
  split at h
  · split at h
    · next hj => exact ⟨_, _, _, hj⟩
    · next hj => exact ⟨_, _, _, hj⟩
    · cases h
  · cases h

/-- In every run in which each stop finds no run between the queue and its fork, no fork begins
while the scheduler is stopped. -/
theorem stop_stops (policy : Policy P) (cap : ℕ) (startOfLocalDay : ℤ → ℤ) (clock : ℤ)
    (rows : List CaptureRun) (forks : Finset String) (as : List Action)
    (hok : Along (step policy cap startOfLocalDay) QuietStop (.start clock rows forks) as) :
    Along (step policy cap startOfLocalDay)
      (fun s a => beginsExec s a = true → s.stopped = false) (.start clock rows forks) as := by
  refine along_of_invariant (I := Halted) (fun s a s' h hok hs => halted_step h hok hs) ?_ ?_ hok
  · intro s a h _ hbegins
    obtain ⟨t, p, id, hj⟩ := topics_of_beginsExec hbegins
    cases hstopped : s.stopped with
    | false => rfl
    | true => exact absurd (h hstopped t p _ hj) (by simp [RunPc.begun])
  · intro hstopped
    cases hstopped

/-- One search hit that is admitted up to the lookup of topics, and the lookup's answer. -/
def hitToTopics : List Action :=
  ([.onSearchHit ⟨"w", ["w"], .searchTranscripts, "q", ["a"]⟩, .resume 0 (.flag true),
    .resume 0 (.settings (some {})), .resume 0 (.flag false),
    .resume 0 (.signals (some { workspaceId := "w", userTurns := 40 })), .resume 0 (.last none),
    .resume 1 (.flag true), .resume 1 (.settings (some {})),
    .resume 1 (.target (some "f"))] : List Action) ++
  List.replicate 6 (Action.resume 1 .done) ++ ([.resume 1 (.inserted "r")] : List Action)

theorem along_quietStop (s : State P) (as : List Action) (h : Action.stop ∉ as) :
    Along (step policy cap startOfLocalDay) QuietStop s as := by
  induction as generalizing s with
  | nil => trivial
  | cons a as ih =>
    have hrest : Action.stop ∉ as := fun hmem => h (List.mem_cons_of_mem a hmem)
    refine ⟨?_, ?_⟩
    · cases a with
      | stop => exact absurd List.mem_cons_self h
      | onIngest workspaceId sessionId => trivial
      | onSearchHit e => trivial
      | resume t a => trivial
      | tick ms => trivial
      | resumeAll => trivial
      | restart seeded => trivial
      | failRunning => trivial
    · cases step policy cap startOfLocalDay s a with
      | none => trivial
      | some s' => exact ih s' hrest

theorem stop_stops_resumed :
    ((run (step neverPolicy 2 utcDay) (.start 1000 [] ∅)
      ([.stop, .resumeAll] ++ hitToTopics ++ [.resume 1 .done])).any fun s =>
        (s.jobs 1).bind Job.fork == some "a") = true ∧
    Along (step neverPolicy 2 utcDay) (fun s a => beginsExec s a = true → s.stopped = false)
      (.start 1000 [] ∅) ([.stop, .resumeAll] ++ hitToTopics ++ [.resume 1 .done]) := by
  refine ⟨by decide +kernel, stop_stops _ _ _ _ _ _ _ ⟨?_, ?_⟩⟩
  · intro t p pc hj
    cases hj
  · exact along_quietStop _ _ (by simp [hitToTopics])

/-- A stop while the run looks up its topics: it forks all the same. -/
theorem fork_after_stop :
    ¬ Along (step neverPolicy 2 utcDay) (fun s a => beginsExec s a = true → s.stopped = false)
      (.start 1000 [] ∅) (hitToTopics ++ [.stop, .resume 1 .done]) := by
  decide +kernel

end ClaudeFleet.CaptureScheduler
