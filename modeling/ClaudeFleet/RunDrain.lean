import Mathlib.Tactic
import ClaudeFleet.RunGates

/-! What is left of the runs when nothing is claimed and nothing waits. -/
namespace ClaudeFleet.RunQueue
open Automations Transition State

/-- The promise of call `t` is in the queue, or a run that ended waits for it. -/
def Waited (s : State) (id : String) (t : ℕ) : Prop :=
  s.queued.get? id = some t ∨ ∃ p, (s.calls p).awaits = some t ∧ (s.calls p).holds = some id

/-- Someone will set the status of this row. -/
def Kept (s : State) (r : ℕ) (run : Run) : Prop :=
  (∃ p, (s.calls p).live = some (r, run.status)) ∨
    run.status = .queued ∧ ∃ t, s.calls t = .settled (some r) ∧ Waited s run.automationId t

structure Wired (s : State) : Prop where
  filed : Filed s
  claimed : ∀ id t, s.queued.get? id = some t → id ∈ s.claimed
  enqueuing : ∀ t id, (s.calls t).enqueues = some id → Waited s id t
  rows : ∀ r run, s.runs[r]? = some run → run.status ≠ .ended → Kept s r run

/-- A rejected store call strands nothing: no row of the run was written or none is left to write,
and no other run waits in the queue; and an automation is not removed when its queued run is due. -/
def clean (s : State) : Action → Bool
  | .go p =>
    match s.calls p with
    | .promoting a t => s.calls t != .settled none || (s.queued.get? a.id).isNone
    | .rereading a _ => (s.rows.get a.id).isSome
    | _ => true
  | .fail p landed =>
    match s.calls p with
    | .inserting a _ _ => !landed && (s.queued.get? a.id).isNone
    | .enqueuing _ _ _ => !landed
    | .settling a _ => (s.queued.get? a.id).isNone
    | .ending _ _ => false
    | .rereading _ _ => false
    | .marking _ _ => false
    | .fetching _ _ => false
    | _ => true
  | _ => true

section Wired

variable {deps : Deps} {s s' t : State} {p : ℕ} {pc : Pc} {act : Action}

theorem Waited.frame {id : String} {w : ℕ} (h : Waited s id w)
    (hcalls : s'.calls = Function.update s.calls p pc)
    (hqueued : s.queued.get? id = some w → s'.queued.get? id = some w)
    (hold : (s.calls p).awaits = none) : Waited s' id w := by
  rcases h with h | ⟨q, hq, hid⟩
  · exact .inl (hqueued h)
  · have hqp : q ≠ p := by
      rintro rfl
      rw [hold] at hq
      cases hq
    have hcall : s'.calls q = s.calls q := by rw [hcalls, Function.update_of_ne hqp]
    exact .inr ⟨q, hcall.symm ▸ hq, hcall.symm ▸ hid⟩

/-- A call goes on: who waits for a promise still does, unless that promise is settled and the call
takes its row in hand. -/
theorem Wired.move (h : Wired s) (hfiled : Filed s')
    (hcalls : s'.calls = Function.update s.calls p pc)
    (hclaimed : ∀ id t, s'.queued.get? id = some t → id ∈ s'.claimed)
    (hold : ∀ r, s.calls p ≠ .settled r)
    (hwaited : ∀ id t, t ≠ p → Waited s id t → Waited s' id t ∨ s.calls t = .settled none ∨
      ∃ q, s.calls t = .settled (some q) ∧ pc.live = some (q, .queued))
    (henqueuing : ∀ id, pc.enqueues = some id → Waited s' id p)
    (hrows : ∀ r run, s'.runs[r]? = some run → run.status ≠ .ended →
      (s.runs[r]? = some run ∧ (s.calls p).live ≠ some (r, run.status)) ∨ Kept s' r run) :
    Wired s' := by
  have hother : ∀ q, q ≠ p → s'.calls q = s.calls q := fun q hq => by
    rw [hcalls, Function.update_of_ne hq]
  have hself : s'.calls p = pc := by rw [hcalls, Function.update_self]
  refine ⟨hfiled, hclaimed, fun t id ht => ?_, fun r run hrun hstatus => ?_⟩
  · by_cases htp : t = p
    · rw [htp, hself] at ht
      exact htp ▸ henqueuing id ht
    · rw [hother t htp] at ht
      rcases hwaited id t htp (h.enqueuing t id ht) with hw | hnone | ⟨q, hq, -⟩
      · exact hw
      · rw [hnone] at ht
        cases ht
      · rw [hq] at ht
        cases ht
  · rcases hrows r run hrun hstatus with ⟨hrun', hlive⟩ | hkept
    · rcases h.rows r run hrun' hstatus with ⟨q, hq⟩ | ⟨hqueued, t, ht, hw⟩
      · have hqp : q ≠ p := by
          rintro rfl
          exact hlive hq
        exact .inl ⟨q, (hother q hqp).symm ▸ hq⟩
      · have htp : t ≠ p := by
          rintro rfl
          exact hold _ ht
        rcases hwaited _ t htp hw with hw' | hnone | ⟨q, hq, hpc⟩
        · exact .inr ⟨hqueued, t, (hother t htp).trans ht, hw'⟩
        · cases hnone.symm.trans ht
        · cases hq.symm.trans ht
          exact .inl ⟨p, by rw [hself, hpc, hqueued]⟩
    · exact hkept

/-- The queue and what the call waits for stay as they are. -/
theorem Wired.pass (h : Wired s) (hfiled : Filed s')
    (hcalls : s'.calls = Function.update s.calls p pc) (hqueued : s'.queued = s.queued)
    (hclaimed : ∀ id t, s.queued.get? id = some t → id ∈ s.claimed → id ∈ s'.claimed)
    (hold : (s.calls p).Apart) (hawaits : (s.calls p).awaits = none) (hnew : pc.enqueues = none)
    (hrows : ∀ r run, s'.runs[r]? = some run → run.status ≠ .ended →
      (s.runs[r]? = some run ∧ (s.calls p).live ≠ some (r, run.status)) ∨
        pc.live = some (r, run.status)) : Wired s' := by
  refine h.move hfiled hcalls (fun id t ht => ?_) hold.2 (fun id t _ hw => .inl ?_)
    (fun id hid => ?_) fun r run hrun hstatus => ?_
  · rw [hqueued] at ht
    exact hclaimed id t ht (h.claimed id t ht)
  · exact hw.frame hcalls (fun ht => hqueued ▸ ht) hawaits
  · rw [hnew] at hid
    cases hid
  · refine (hrows r run hrun hstatus).imp_right fun hlive => .inl ⟨p, ?_⟩
    rw [hcalls, Function.update_self, hlive]

/-- The rows stay as they are too, and what the call has in hand. -/
theorem Wired.keep (h : Wired s) (hfiled : Filed s')
    (hcalls : s'.calls = Function.update s.calls p pc) (hqueued : s'.queued = s.queued)
    (hclaimed : ∀ id t, s.queued.get? id = some t → id ∈ s.claimed → id ∈ s'.claimed)
    (hold : (s.calls p).Apart) (hawaits : (s.calls p).awaits = none) (hnew : pc.enqueues = none)
    (hruns : s'.runs = s.runs) (hlive : pc.live = (s.calls p).live) : Wired s' := by
  refine h.pass hfiled hcalls hqueued hclaimed hold hawaits hnew fun r run hrun _ => ?_
  by_cases hp : (s.calls p).live = some (r, run.status)
  · exact .inr (hlive.trans hp)
  · exact .inl ⟨hruns ▸ hrun, hp⟩

/-- A row is added that has ended, or that the call has in hand. -/
theorem Wired.insert (h : Wired s) (hfiled : Filed s')
    (hcalls : s'.calls = Function.update s.calls p pc) (hqueued : s'.queued = s.queued)
    (hclaimed : s'.claimed = s.claimed) (hold : (s.calls p).Apart)
    (hawaits : (s.calls p).awaits = none) (hidle : (s.calls p).live = none)
    (hnew : pc.enqueues = none) {run : Run} (hruns : s'.runs = (s.insertRun run).runs)
    (hlive : run.status ≠ .ended → pc.live = some (s.runs.length, run.status)) : Wired s' := by
  refine h.pass hfiled hcalls hqueued (fun _ _ _ hid => hclaimed ▸ hid) hold hawaits hnew
    fun r run' hrun hstatus => ?_
  rw [hruns] at hrun
  rcases getElem?_insertRun hrun with hrun | ⟨rfl, rfl⟩
  · exact .inl ⟨hrun, by rw [hidle]; simp⟩
  · exact .inr (hlive hstatus)

/-- The status of the row in hand is set. -/
theorem Wired.setRunStatus (h : Wired s) (hfiled : Filed s')
    (hcalls : s'.calls = Function.update s.calls p pc) (hqueued : s'.queued = s.queued)
    (hclaimed : s'.claimed = s.claimed) (hold : (s.calls p).Apart)
    (hawaits : (s.calls p).awaits = none) (hnew : pc.enqueues = none) {r : ℕ} {status old : Status}
    (hin : (s.calls p).live = some (r, old)) (hruns : s'.runs = (s.setRunStatus r status).runs)
    (hlive : status ≠ .ended → pc.live = some (r, status)) : Wired s' := by
  refine h.pass hfiled hcalls hqueued (fun _ _ _ hid => hclaimed ▸ hid) hold hawaits hnew
    fun i run hrun hstatus => ?_
  rw [hruns, getElem?_setRunStatus] at hrun
  obtain ⟨run', hrun', rfl⟩ := Option.map_eq_some_iff.mp hrun
  by_cases hi : r = i
  · subst hi
    rw [if_pos rfl] at hstatus ⊢
    exact .inr (hlive hstatus)
  · rw [if_neg hi]
    refine .inl ⟨hrun', fun hp => hi ?_⟩
    rw [hin] at hp
    exact congrArg Prod.fst (Option.some.inj hp)

/-- What a request finds of the automation that it queues for. -/
theorem free_of_queue {a : AutomationRecord} {req : RunRequest}
    (h : beginRun a req s.now (s.standing a.id) = .queue) :
    a.id ∈ s.claimed ∧ s.queued.get? a.id = none := by
  unfold beginRun at h
  split_ifs at h with hrate hclaimed hqueue
  exact ⟨by simpa [State.standing] using hclaimed, by simpa [State.standing] using hqueue.2⟩

theorem Wired.admitted (h : Wired s) {id : String} {req : RunRequest} {row : Option AutomationRecord}
    (hp : s.calls p = .looked id req row) : Wired (admitted deps s p id req row) := by
  have hold : (s.calls p).Apart := hp.symm ▸ ⟨rfl, by simp⟩
  have hawaits : (s.calls p).awaits = none := by rw [hp]; rfl
  have hlive : none = (s.calls p).live := by rw [hp]; rfl
  have hfiled : Filed (RunQueue.admitted deps s p id req row) := h.filed.admitted hold
  unfold RunQueue.admitted at hfiled ⊢
  cases hgates : startGates deps id req row with
  | error e =>
    rw [hgates] at hfiled
    exact h.keep hfiled rfl rfl (fun _ _ _ hid => hid) hold hawaits rfl rfl hlive
  | ok v =>
    obtain ⟨a, args⟩ := v
    rw [hgates] at hfiled
    dsimp only at hfiled ⊢
    cases hbegin : beginRun a req s.now (s.standing a.id) with
    | rateSkipped =>
      rw [hbegin] at hfiled
      exact h.keep hfiled rfl rfl (fun _ _ _ hid => hid) hold hawaits rfl rfl hlive
    | busySkipped =>
      rw [hbegin] at hfiled
      exact h.keep hfiled rfl rfl (fun _ _ _ hid => hid) hold hawaits rfl rfl hlive
    | run =>
      rw [hbegin] at hfiled
      exact h.keep hfiled rfl rfl (fun _ _ _ hid => Finset.mem_insert_of_mem hid) hold hawaits rfl
        rfl hlive
    | queue =>
      rw [hbegin] at hfiled
      obtain ⟨hbusy, hfree⟩ := free_of_queue hbegin
      refine h.move hfiled rfl (fun id' t ht => ?_) hold.2 (fun id' t _ hw => .inl ?_)
        (fun id' hid => ?_) fun r run hrun _ => .inl ⟨hrun, by rw [← hlive]; simp⟩
      · by_cases hid : id' = a.id
        · exact hid ▸ hbusy
        · exact h.claimed id' t ((JsMap.get?_set_of_ne _ _ hid).symm.trans ht)
      · refine hw.frame rfl (fun ht => ?_) hawaits
        have hid : id' ≠ a.id := by
          rintro rfl
          rw [hfree] at ht
          cases ht
        exact (JsMap.get?_set_of_ne _ _ hid).trans ht
      · cases hid
        exact .inl (JsMap.get?_set_self ..)

theorem Wired.go (h : Wired s) (hclean : clean s (.go p) = true) (hgo : go deps s p = some t) :
    Wired t := by
  have hfiled := h.filed.go hgo
  unfold RunQueue.go at hgo
  dsimp only [clean] at hclean
  generalize hp : s.calls p = pc at hgo hclean
  have apart : pc.Apart → (s.calls p).Apart := fun h => hp.symm ▸ h
  have awaits : pc.awaits = none → (s.calls p).awaits = none := fun h => hp.symm ▸ h
  have same : ∀ id w, s.queued.get? id = some w → id ∈ s.claimed → id ∈ s.claimed :=
    fun _ _ _ hid => hid
  cases pc with
  | idle => cases hgo
  | settled r => cases hgo
  | finished => cases hgo
  | asked id req =>
    obtain rfl := Option.some.inj hgo
    exact h.keep hfiled rfl rfl same (apart ⟨rfl, by simp⟩) (awaits rfl) rfl rfl (by rw [hp]; rfl)
  | looked id req row =>
    obtain rfl := Option.some.inj hgo
    exact h.admitted hp
  | inserting a req args =>
    obtain rfl := Option.some.inj hgo
    exact h.insert hfiled rfl rfl rfl (apart ⟨rfl, by simp⟩) (awaits rfl) (by rw [hp]; rfl) rfl rfl
      fun _ => rfl
  | enqueuing a req args =>
    obtain rfl := Option.some.inj hgo
    have hw : Waited s a.id p := h.enqueuing p a.id (by rw [hp]; rfl)
    have hframe : ∀ id w, Waited s id w →
        Waited ((s.insertRun (newRun a req args .queued)).goto p (.settled (some s.runs.length)))
          id w := fun id w hw => hw.frame rfl (fun ht => ht) (awaits rfl)
    refine h.move hfiled rfl h.claimed (by simp [hp]) (fun id w _ hw => .inl (hframe id w hw))
      (by simp [Pc.enqueues]) fun r run hrun _ => ?_
    rcases getElem?_insertRun hrun with hrun | ⟨rfl, rfl⟩
    · exact .inl ⟨hrun, by simp [hp, Pc.live]⟩
    · exact .inr (.inr ⟨rfl, p, Function.update_self .., hframe _ _ hw⟩)
  | recording a req args =>
    obtain rfl := Option.some.inj hgo
    exact h.insert hfiled rfl rfl rfl (apart ⟨rfl, by simp⟩) (awaits rfl) (by rw [hp]; rfl) rfl rfl
      fun hne => absurd rfl hne
  | executing a r =>
    obtain rfl := Option.some.inj hgo
    exact h.keep hfiled rfl rfl same (apart ⟨rfl, by simp⟩) (awaits rfl) rfl rfl (by rw [hp]; rfl)
  | ending a r =>
    obtain rfl := Option.some.inj hgo
    exact h.setRunStatus hfiled rfl rfl rfl (apart ⟨rfl, by simp⟩) (awaits rfl) rfl
      (by rw [hp]; rfl) rfl fun hne => absurd rfl hne
  | settling a r =>
    obtain rfl := Option.some.inj hgo
    unfold handOn at hfiled ⊢
    cases hq : s.queued.get? a.id with
    | none =>
      rw [hq] at hfiled
      refine h.keep hfiled rfl rfl (fun id w hw hid => Finset.mem_erase.mpr ⟨?_, hid⟩)
        (apart ⟨rfl, by simp⟩) (awaits rfl) rfl rfl (by rw [hp]; rfl)
      rintro rfl
      cases hq.symm.trans hw
    | some w =>
      rw [hq] at hfiled
      refine h.move hfiled rfl (fun id x hx => h.claimed id x (JsMap.get?_of_delete hx))
        (by simp [hp]) (fun id x _ hx => .inl ?_) (by simp [Pc.enqueues])
        fun r' run hrun _ => .inl ⟨hrun, by simp [hp, Pc.live]⟩
      by_cases hid : id = a.id ∧ s.queued.get? id = some x
      · obtain ⟨rfl, hx'⟩ := hid
        obtain rfl := Option.some.inj (hq.symm.trans hx')
        have hcall : (s.goto p (.promoting a w)).calls p = .promoting a w := Function.update_self ..
        exact .inr ⟨p, congrArg Pc.awaits hcall, congrArg Pc.holds hcall⟩
      · refine hx.frame rfl (fun hx' => ?_) (awaits rfl)
        have hne : id ≠ a.id := fun h => hid ⟨h, hx'⟩
        exact (JsMap.get?_delete_of_ne _ hne).trans hx'
  | promoting a w =>
    dsimp only at hgo
    -- Whoever else is waited for is waited for by another call, or in the queue.
    have hframe : ∀ (u : State) pc id x, u.calls = Function.update s.calls p pc →
        u.queued = s.queued → Waited s id x → Waited u id x ∨ x = w := by
      intro u pc id x hcalls hqueued hx
      rcases hx with hx | ⟨q, hq, hid⟩
      · exact .inl (.inl (hqueued ▸ hx))
      · by_cases hqp : q = p
        · rw [hqp, hp] at hq
          exact .inr (Option.some.inj hq).symm
        · have hcall : u.calls q = s.calls q := by rw [hcalls, Function.update_of_ne hqp]
          exact .inl (.inr ⟨q, hcall.symm ▸ hq, hcall.symm ▸ hid⟩)
    split at hgo
    · next q hq =>
      obtain rfl := Option.some.inj hgo
      refine h.move hfiled rfl h.claimed (by simp [hp]) (fun id x _ hx => ?_)
        (by simp [Pc.enqueues]) fun r run hrun _ => .inl ⟨hrun, by simp [hp, Pc.live]⟩
      rcases hframe (s.goto p (.rereading a q)) _ id x rfl rfl hx with hx | rfl
      · exact .inl hx
      · exact .inr (.inr ⟨q, hq, rfl⟩)
    · next hnone =>
      obtain rfl := Option.some.inj hgo
      refine h.move hfiled rfl (fun id x hx => Finset.mem_erase.mpr ⟨?_, h.claimed id x hx⟩)
        (by simp [hp]) (fun id x _ hx => ?_) (by simp [Pc.enqueues])
        fun r run hrun _ => .inl ⟨hrun, by simp [hp, Pc.live]⟩
      · rintro rfl
        have hwaiting : s.queued.get? a.id = some x := hx
        simp [hnone, hwaiting] at hclean
      · rcases hframe ((s.goto p .finished).release a.id) _ id x rfl rfl hx with hx | rfl
        · exact .inl hx
        · exact .inr (.inl hnone)
    · cases hgo
  | rereading a q =>
    dsimp only at hgo
    split at hgo
    · next hnone =>
      simp [hnone] at hclean
    · obtain rfl := Option.some.inj hgo
      exact h.keep hfiled rfl rfl same (apart ⟨rfl, by simp⟩) (awaits rfl) rfl rfl (by rw [hp]; rfl)
  | marking a q =>
    obtain rfl := Option.some.inj hgo
    exact h.setRunStatus hfiled rfl rfl rfl (apart ⟨rfl, by simp⟩) (awaits rfl) rfl
      (by rw [hp]; rfl) rfl fun _ => rfl
  | fetching a q =>
    obtain ⟨run, -, rfl⟩ := Option.map_eq_some_iff.mp hgo
    exact h.keep hfiled rfl rfl same (apart ⟨rfl, by simp⟩) (awaits rfl) rfl rfl (by rw [hp]; rfl)

theorem Wired.fail (h : Wired s) {landed : Bool} (hclean : clean s (.fail p landed) = true)
    (hfail : fail s p landed = some t) : Wired t := by
  have hfiled := h.filed.fail hfail
  unfold RunQueue.fail at hfail
  dsimp only [clean] at hclean
  generalize hp : s.calls p = pc at hfail hclean
  have apart : pc.Apart → (s.calls p).Apart := fun h => hp.symm ▸ h
  have awaits : pc.awaits = none → (s.calls p).awaits = none := fun h => hp.symm ▸ h
  have released : ∀ a : AutomationRecord, s.queued.get? a.id = none →
      ∀ id w, s.queued.get? id = some w → id ∈ s.claimed → id ∈ s.claimed.erase a.id := by
    intro a ha id w hw hid
    refine Finset.mem_erase.mpr ⟨?_, hid⟩
    rintro rfl
    cases ha.symm.trans hw
  cases pc with
  | asked id req =>
    obtain rfl := Option.some.inj hfail
    exact h.keep hfiled rfl rfl (fun _ _ _ hid => hid) (apart ⟨rfl, by simp⟩) (awaits rfl) rfl rfl
      (by rw [hp]; rfl)
  | inserting a req args =>
    obtain ⟨rfl, hfree⟩ : landed = false ∧ s.queued.get? a.id = none := by simpa using hclean
    obtain rfl := Option.some.inj hfail
    exact h.keep hfiled rfl rfl (released a hfree) (apart ⟨rfl, by simp⟩) (awaits rfl) rfl rfl
      (by rw [hp]; rfl)
  | enqueuing a req args =>
    obtain rfl : landed = false := by simpa using hclean
    obtain rfl := Option.some.inj hfail
    simp only [Bool.false_eq_true, if_false] at hfiled ⊢
    split at hfiled
    · next hown =>
      rw [if_pos hown]
      refine h.move hfiled rfl
        (fun id x hx => h.claimed id x (JsMap.get?_of_delete hx)) (by simp [hp])
        (fun id x hxp hx => .inl ?_) (by simp [Pc.enqueues])
        fun r run hrun _ => .inl ⟨hrun, by simp [hp, Pc.live]⟩
      refine hx.frame rfl (fun hx' => ?_) (awaits rfl)
      have hne : id ≠ a.id := by
        rintro rfl
        exact hxp (Option.some.inj (hx'.symm.trans hown))
      exact (JsMap.get?_delete_of_ne _ hne).trans hx'
    · next hown =>
      rw [if_neg hown]
      exact h.move hfiled rfl h.claimed (by simp [hp])
        (fun id x _ hx => .inl (hx.frame rfl (fun hx' => hx') (awaits rfl))) (by simp [Pc.enqueues])
        fun r run hrun _ => .inl ⟨hrun, by simp [hp, Pc.live]⟩
  | recording a req args =>
    obtain rfl := Option.some.inj hfail
    cases landed
    · exact h.keep hfiled rfl rfl (fun _ _ _ hid => hid) (apart ⟨rfl, by simp⟩) (awaits rfl) rfl rfl
        (by rw [hp]; rfl)
    · exact h.insert hfiled rfl rfl rfl (apart ⟨rfl, by simp⟩) (awaits rfl) (by rw [hp]; rfl) rfl
        rfl fun hne => absurd rfl hne
  | settling a r =>
    obtain rfl := Option.some.inj hfail
    exact h.keep hfiled rfl rfl (released a (by simpa using hclean)) (apart ⟨rfl, by simp⟩)
      (awaits rfl) rfl rfl (by rw [hp]; rfl)
  | ending a r => cases hclean
  | rereading a q => cases hclean
  | marking a q => cases hclean
  | fetching a q => cases hclean
  | _ => cases hfail

theorem Wired.step (h : Wired s) (hclean : clean s act = true) (hs : step deps s act = some t) :
    Wired t := by
  cases act with
  | ask p id req =>
    have hfiled := h.filed.step hs
    simp only [RunQueue.step] at hs
    split_ifs at hs with hidle
    obtain rfl := Option.some.inj hs
    exact h.keep hfiled rfl rfl (fun _ _ _ hid => hid) (hidle.symm ▸ ⟨rfl, by simp⟩)
      (by rw [hidle]; rfl) rfl rfl (by rw [hidle]; rfl)
  | go p => exact h.go hclean hs
  | fail p landed => exact h.fail hclean hs
  | write rows =>
    have hfiled := h.filed.step hs
    obtain rfl := Option.some.inj hs
    exact ⟨hfiled, h.claimed, h.enqueuing, h.rows⟩
  | wait ms =>
    have hfiled := h.filed.step hs
    obtain rfl := Option.some.inj hs
    exact ⟨hfiled, h.claimed, h.enqueuing, h.rows⟩

theorem wired_start : Wired {} where
  filed := filed_start
  claimed id t ht := by cases ht
  enqueuing t id ht := by cases ht
  rows r run hr := by simp at hr

end Wired

end ClaudeFleet.RunQueue
