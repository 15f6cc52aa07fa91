import Mathlib.Tactic
import ClaudeFleet.Numbered
import ClaudeFleet.RunQueue

/-! Which runs begin: the rows and promises that calls work on are those of their automations, and
what executes passed the gates of a request. -/
namespace ClaudeFleet.RunQueue
open Automations Transition State

/-! What a run has passed before it begins. -/

/-- The automation, as `start` read it, took the request with these arguments; `R` holds of the rows
that have stood in the store. -/
structure Passed (deps : Deps) (R : AutomationRecord → Prop) (a : AutomationRecord)
    (req : RunRequest) (args : Args) : Prop where
  stood : R a
  args : validateArgs deps.toNumber a.definition.params req.args req.coerce = .ok args
  accepted : refusals deps a = []
  enabled : a.enabled = true ∨ req.kind = .manual

def Pc.Passes (deps : Deps) (R : AutomationRecord → Prop) : Pc → Prop
  | .looked _ _ row => ∀ a ∈ row, R a
  | .inserting a req args => Passed deps R a req args
  | .enqueuing a req args => Passed deps R a req args
  | .recording a req args => Passed deps R a req args
  | _ => True

/-- The run was asked for and taken, at the version its row names. -/
def Run.Asked (deps : Deps) (R : AutomationRecord → Prop) (run : Run) : Prop :=
  ∃ a : AutomationRecord, a.id = run.automationId ∧ a.version = run.version ∧
    Passed deps R a run.request run.args

/-- The run a call has in hand, with the status its row has. -/
def Pc.live : Pc → Option (ℕ × Status)
  | .executing _ r => some (r, .running)
  | .ending _ r => some (r, .running)
  | .rereading _ q => some (q, .queued)
  | .marking _ q => some (q, .queued)
  | .fetching _ q => some (q, .running)
  | _ => none

def Pc.awaits : Pc → Option ℕ
  | .promoting _ t => some t
  | _ => none

def Pc.enqueues : Pc → Option String
  | .enqueuing a _ _ => some a.id
  | _ => none

/-- The promise of call `t` is one of a run queued for the automation. -/
def Ticket (s : State) (id : String) (t : ℕ) : Prop :=
  (s.calls t).enqueues = some id ∨ s.calls t = .settled none ∨
    ∃ r run, s.calls t = .settled (some r) ∧ s.runs[r]? = some run ∧ run.automationId = id

/-- The promises and the rows that calls work on are those of their automations. -/
structure Filed (s : State) : Prop where
  queued : ∀ id t, s.queued.get? id = some t → Ticket s id t
  awaited : ∀ p id t, (s.calls p).awaits = some t → (s.calls p).holds = some id → Ticket s id t
  carried : ∀ p r status, (s.calls p).live = some (r, status) →
    ∃ run, s.runs[r]? = some run ∧ (s.calls p).holds = some run.automationId

section Filed

variable {deps : Deps} {s s' t : State} {p : ℕ} {pc : Pc} {act : Action}

/-- The rows of the first list are in the second, for the same automations. -/
def Grows (runs runs' : List Run) : Prop :=
  ∀ (r : ℕ) (run : Run), runs[r]? = some run → ∃ run' : Run, runs'[r]? = some run' ∧
    run'.automationId = run.automationId

theorem Grows.rfl {runs : List Run} : Grows runs runs := fun _ run hrun => ⟨run, hrun, Eq.refl _⟩

theorem grows_insertRun (s : State) (run : Run) : Grows s.runs (s.insertRun run).runs :=
  fun _ old hold => ⟨old, getElem?_append_of_some hold _, rfl⟩

theorem getElem?_insertRun {r : ℕ} {run run' : Run} (h : (s.insertRun run).runs[r]? = some run') :
    s.runs[r]? = some run' ∨ r = s.runs.length ∧ run' = run := by
  rcases getElem?_concat_cases h with h | ⟨hr, rfl⟩
  · exact .inl h
  · exact .inr ⟨hr, rfl⟩

theorem getElem?_setRunStatus (s : State) (r i : ℕ) (status : Status) :
    (s.setRunStatus r status).runs[i]? =
      (s.runs[i]?).map fun run => if r = i then { run with status := status } else run := by
  rw [State.setRunStatus, List.getElem?_modify]
  split <;> simp

theorem grows_setRunStatus (s : State) (r : ℕ) (status : Status) :
    Grows s.runs (s.setRunStatus r status).runs := by
  intro i run hrun
  refine ⟨if r = i then { run with status := status } else run, ?_, ?_⟩
  · rw [getElem?_setRunStatus, hrun, Option.map_some]
  · split <;> rfl

/-- The call is no promise of a queued run. -/
def Pc.Apart (pc : Pc) : Prop := pc.enqueues = none ∧ ∀ r, pc ≠ .settled r

theorem Pc.Apart.not_ticket {id : String} (h : (s.calls p).Apart) : ¬ Ticket s id p := by
  rintro (ht | ht | ⟨r, run, ht, -⟩)
  · rw [h.1] at ht
    cases ht
  · exact h.2 _ ht
  · exact h.2 _ ht

theorem Filed.move (h : Filed s) (hcalls : s'.calls = Function.update s.calls p pc)
    (hqueued : ∀ id t, s'.queued.get? id = some t →
      s.queued.get? id = some t ∨ t = p ∧ pc.enqueues = some id)
    (hruns : Grows s.runs s'.runs) (hself : ∀ id, Ticket s id p → Ticket s' id p)
    (hawaits : ∀ id t, pc.awaits = some t → pc.holds = some id → Ticket s id t)
    (hlive : ∀ r status, pc.live = some (r, status) →
      ∃ run, s'.runs[r]? = some run ∧ pc.holds = some run.automationId) : Filed s' := by
  have hother : ∀ q, q ≠ p → s'.calls q = s.calls q := fun q hq => by
    rw [hcalls, Function.update_of_ne hq]
  have hpc : s'.calls p = pc := by rw [hcalls, Function.update_self]
  have hticket : ∀ id t, Ticket s id t → Ticket s' id t := by
    intro id t ht
    by_cases htp : t = p
    · exact htp ▸ hself id (htp ▸ ht)
    · unfold Ticket
      rw [hother t htp]
      rcases ht with ht | ht | ⟨r, run, hr, hrun, hid⟩
      · exact .inl ht
      · exact .inr (.inl ht)
      · obtain ⟨run', hrun', hid'⟩ := hruns r run hrun
        exact .inr (.inr ⟨r, run', hr, hrun', hid'.trans hid⟩)
  constructor
  · intro id t ht
    rcases hqueued id t ht with ht | ⟨rfl, hid⟩
    · exact hticket id t (h.queued id t ht)
    · exact .inl (hpc ▸ hid)
  · intro q id t hq hid
    by_cases hqp : q = p
    · rw [hqp, hpc] at hq hid
      exact hticket id t (hawaits id t hq hid)
    · rw [hother q hqp] at hq hid
      exact hticket id t (h.awaited q id t hq hid)
  · intro q r status hq
    by_cases hqp : q = p
    · rw [hqp, hpc] at hq ⊢
      exact hlive r status hq
    · rw [hother q hqp] at hq ⊢
      obtain ⟨run, hrun, hid⟩ := h.carried q r status hq
      obtain ⟨run', hrun', hid'⟩ := hruns r run hrun
      exact ⟨run', hrun', hid.trans (congrArg some hid'.symm)⟩

/-- A call that is no promise of a queued run goes on, and puts nothing in the queue. -/
theorem Filed.pass (h : Filed s) (hcalls : s'.calls = Function.update s.calls p pc)
    (hqueued : ∀ id t, s'.queued.get? id = some t → s.queued.get? id = some t)
    (hruns : Grows s.runs s'.runs) (hold : (s.calls p).Apart)
    (hawaits : ∀ id t, pc.awaits = some t → pc.holds = some id → Ticket s id t)
    (hlive : ∀ r status, pc.live = some (r, status) →
      ∃ run, s'.runs[r]? = some run ∧ pc.holds = some run.automationId) : Filed s' :=
  h.move hcalls (fun id t ht => .inl (hqueued id t ht)) hruns
    (fun _ ht => absurd ht hold.not_ticket) hawaits hlive

/-- It goes on with the row it has in hand, or with none. -/
theorem Filed.keep (h : Filed s) (hcalls : s'.calls = Function.update s.calls p pc)
    (hqueued : ∀ id t, s'.queued.get? id = some t → s.queued.get? id = some t)
    (hruns : Grows s.runs s'.runs) (hold : (s.calls p).Apart) (hawaits : pc.awaits = none)
    (hlive : ∀ r status, pc.live = some (r, status) →
      (s.calls p).live.map Prod.fst = some r ∧ pc.holds = (s.calls p).holds) : Filed s' := by
  refine h.pass hcalls hqueued hruns hold (fun id t ht => ?_) fun r status hr => ?_
  · rw [hawaits] at ht
    cases ht
  · obtain ⟨hold', hholds⟩ := hlive r status hr
    obtain ⟨⟨r', status'⟩, hlive', rfl⟩ := Option.map_eq_some_iff.mp hold'
    obtain ⟨run, hrun, hid⟩ := h.carried p r' status' hlive'
    obtain ⟨run', hrun', hid'⟩ := hruns r' run hrun
    exact ⟨run', hrun', by rw [hholds, hid, hid']⟩

theorem Filed.admitted (h : Filed s) {id : String} {req : RunRequest} {row : Option AutomationRecord}
    (hp : (s.calls p).Apart) : Filed (admitted deps s p id req row) := by
  unfold RunQueue.admitted
  cases startGates deps id req row with
  | error e => exact h.keep rfl (fun _ _ ht => ht) .rfl hp rfl (by simp [Pc.live])
  | ok v =>
    obtain ⟨a, args⟩ := v
    dsimp only
    cases beginRun a req s.now (s.standing a.id) with
    | rateSkipped => exact h.keep rfl (fun _ _ ht => ht) .rfl hp rfl (by simp [Pc.live])
    | busySkipped => exact h.keep rfl (fun _ _ ht => ht) .rfl hp rfl (by simp [Pc.live])
    | run => exact h.keep rfl (fun _ _ ht => ht) .rfl hp rfl (by simp [Pc.live])
    | queue =>
      refine h.move (p := p) rfl (fun id' t ht => ?_) .rfl (fun _ ht => absurd ht hp.not_ticket)
        (by simp [Pc.awaits]) (by simp [Pc.live])
      by_cases hid : id' = a.id
      · subst hid
        rw [JsMap.get?_set_self] at ht
        exact .inr ⟨(Option.some.inj ht).symm, rfl⟩
      · rw [JsMap.get?_set_of_ne _ _ hid] at ht
        exact .inl ht

theorem Filed.go (h : Filed s) (hgo : go deps s p = some t) : Filed t := by
  unfold RunQueue.go at hgo
  generalize hp : s.calls p = pc at hgo
  have apart : pc.Apart → (s.calls p).Apart := fun h => hp.symm ▸ h
  cases pc with
  | idle => cases hgo
  | settled r => cases hgo
  | finished => cases hgo
  | asked id req =>
    obtain rfl := Option.some.inj hgo
    exact h.keep rfl (fun _ _ ht => ht) .rfl (apart ⟨rfl, by simp⟩) rfl (by simp [Pc.live])
  | looked id req row =>
    obtain rfl := Option.some.inj hgo
    exact h.admitted (apart ⟨rfl, by simp⟩)
  | inserting a req args =>
    obtain rfl := Option.some.inj hgo
    refine h.pass rfl (fun _ _ ht => ht) (grows_insertRun s _) (apart ⟨rfl, by simp⟩)
      (by simp [Pc.awaits]) fun r status hr => ?_
    cases hr
    exact ⟨newRun a req args .running, by simp [State.begin, State.goto, State.insertRun], rfl⟩
  | enqueuing a req args =>
    obtain rfl := Option.some.inj hgo
    refine h.move (p := p) rfl (fun _ _ ht => .inl ht) (grows_insertRun s _) (fun id ht => ?_)
      (by simp [Pc.awaits]) (by simp [Pc.live])
    refine .inr (.inr ⟨_, newRun a req args .queued, Function.update_self .., ?_, ?_⟩)
    · simp [State.goto, State.insertRun]
    · rcases ht with ht | ht | ⟨r, run, ht, -⟩
      · rw [hp] at ht
        exact Option.some.inj ht
      · cases hp.symm.trans ht
      · cases hp.symm.trans ht
  | recording a req args =>
    obtain rfl := Option.some.inj hgo
    exact h.keep rfl (fun _ _ ht => ht) (grows_insertRun s _) (apart ⟨rfl, by simp⟩) rfl
      (by simp [Pc.live])
  | executing a r =>
    obtain rfl := Option.some.inj hgo
    exact h.keep rfl (fun _ _ ht => ht) .rfl (apart ⟨rfl, by simp⟩) rfl
      (by simp [hp, Pc.live, Pc.holds])
  | ending a r =>
    obtain rfl := Option.some.inj hgo
    exact h.keep rfl (fun _ _ ht => ht) (grows_setRunStatus s r .ended) (apart ⟨rfl, by simp⟩) rfl
      (by simp [Pc.live])
  | settling a r =>
    obtain rfl := Option.some.inj hgo
    unfold handOn
    split
    · exact h.keep rfl (fun _ _ ht => ht) .rfl (apart ⟨rfl, by simp⟩) rfl (by simp [Pc.live])
    · next w hw =>
      refine h.pass rfl (fun _ _ ht => JsMap.get?_of_delete ht) .rfl (apart ⟨rfl, by simp⟩)
        (fun id t ht hid => ?_) (by simp [Pc.live])
      cases ht
      cases hid
      exact h.queued a.id w hw
  | promoting a w =>
    dsimp only at hgo
    split at hgo
    · next q hq =>
      obtain rfl := Option.some.inj hgo
      refine h.pass rfl (fun _ _ ht => ht) .rfl (apart ⟨rfl, by simp⟩) (by simp [Pc.awaits])
        fun r status hr => ?_
      cases hr
      have hticket : Ticket s a.id w := h.awaited p a.id w (by rw [hp]; rfl) (by rw [hp]; rfl)
      rcases hticket with ht | ht | ⟨r, run, ht, hrun, hid⟩
      · rw [hq] at ht
        cases ht
      · cases hq.symm.trans ht
      · cases hq.symm.trans ht
        exact ⟨run, hrun, congrArg some hid.symm⟩
    · obtain rfl := Option.some.inj hgo
      exact h.keep rfl (fun _ _ ht => ht) .rfl (apart ⟨rfl, by simp⟩) rfl (by simp [Pc.live])
    · cases hgo
  | rereading a q =>
    dsimp only at hgo
    split at hgo
    · obtain rfl := Option.some.inj hgo
      exact h.keep rfl (fun _ _ ht => ht) .rfl (apart ⟨rfl, by simp⟩) rfl (by simp [Pc.live])
    · next cur hcur =>
      obtain rfl := Option.some.inj hgo
      have hid : cur.id = a.id := (Table.get_eq_some.mp hcur).2
      exact h.keep rfl (fun _ _ ht => ht) .rfl (apart ⟨rfl, by simp⟩) rfl
        (by simp [hp, Pc.live, Pc.holds, hid])
  | marking a q =>
    obtain rfl := Option.some.inj hgo
    exact h.keep rfl (fun _ _ ht => ht) (grows_setRunStatus s q .running) (apart ⟨rfl, by simp⟩) rfl
      (by simp [hp, Pc.live, Pc.holds])
  | fetching a q =>
    obtain ⟨run, -, rfl⟩ := Option.map_eq_some_iff.mp hgo
    exact h.keep rfl (fun _ _ ht => ht) .rfl (apart ⟨rfl, by simp⟩) rfl
      (by simp [hp, Pc.live, Pc.holds])

theorem Filed.fail (h : Filed s) {landed : Bool} (hfail : fail s p landed = some t) : Filed t := by
  unfold RunQueue.fail at hfail
  generalize hp : s.calls p = pc at hfail
  have apart : pc.Apart → (s.calls p).Apart := fun h => hp.symm ▸ h
  cases pc with
  | asked id req =>
    obtain rfl := Option.some.inj hfail
    exact h.keep rfl (fun _ _ ht => ht) .rfl (apart ⟨rfl, by simp⟩) rfl (by simp [Pc.live])
  | inserting a req args =>
    obtain rfl := Option.some.inj hfail
    cases landed
    · exact h.keep rfl (fun _ _ ht => ht) .rfl (apart ⟨rfl, by simp⟩) rfl (by simp [Pc.live])
    · exact h.keep rfl (fun _ _ ht => ht) (grows_insertRun s _) (apart ⟨rfl, by simp⟩) rfl
        (by simp [Pc.live])
  | enqueuing a req args =>
    obtain rfl := Option.some.inj hfail
    have hself : ∀ u : State, u.calls = Function.update s.calls p (.settled none) →
        ∀ id, Ticket s id p → Ticket u id p := fun u hu id _ => by
      exact .inr (.inl (by rw [hu, Function.update_self]))
    cases landed <;> split
    · exact h.move rfl (fun _ _ ht => .inl (JsMap.get?_of_delete ht)) .rfl (hself _ rfl)
        (by simp [Pc.awaits]) (by simp [Pc.live])
    · exact h.move rfl (fun _ _ ht => .inl ht) .rfl (hself _ rfl)
        (by simp [Pc.awaits]) (by simp [Pc.live])
    · exact h.move rfl (fun _ _ ht => .inl (JsMap.get?_of_delete ht)) (grows_insertRun s _)
        (hself _ rfl) (by simp [Pc.awaits]) (by simp [Pc.live])
    · exact h.move rfl (fun _ _ ht => .inl ht) (grows_insertRun s _) (hself _ rfl)
        (by simp [Pc.awaits]) (by simp [Pc.live])
  | recording a req args =>
    obtain rfl := Option.some.inj hfail
    cases landed
    · exact h.keep rfl (fun _ _ ht => ht) .rfl (apart ⟨rfl, by simp⟩) rfl (by simp [Pc.live])
    · exact h.keep rfl (fun _ _ ht => ht) (grows_insertRun s _) (apart ⟨rfl, by simp⟩) rfl
        (by simp [Pc.live])
  | ending a r =>
    obtain rfl := Option.some.inj hfail
    cases landed
    · exact h.keep rfl (fun _ _ ht => ht) .rfl (apart ⟨rfl, by simp⟩) rfl (by simp [Pc.live])
    · exact h.keep rfl (fun _ _ ht => ht) (grows_setRunStatus s r .ended) (apart ⟨rfl, by simp⟩) rfl
        (by simp [Pc.live])
  | settling a r =>
    obtain rfl := Option.some.inj hfail
    exact h.keep rfl (fun _ _ ht => ht) .rfl (apart ⟨rfl, by simp⟩) rfl (by simp [Pc.live])
  | rereading a q =>
    obtain rfl := Option.some.inj hfail
    exact h.keep rfl (fun _ _ ht => ht) .rfl (apart ⟨rfl, by simp⟩) rfl (by simp [Pc.live])
  | marking a q =>
    obtain rfl := Option.some.inj hfail
    cases landed
    · exact h.keep rfl (fun _ _ ht => ht) .rfl (apart ⟨rfl, by simp⟩) rfl (by simp [Pc.live])
    · exact h.keep rfl (fun _ _ ht => ht) (grows_setRunStatus s q .running) (apart ⟨rfl, by simp⟩)
        rfl (by simp [Pc.live])
  | fetching a q =>
    obtain rfl := Option.some.inj hfail
    exact h.keep rfl (fun _ _ ht => ht) .rfl (apart ⟨rfl, by simp⟩) rfl (by simp [Pc.live])
  | _ => cases hfail

theorem Filed.step (h : Filed s) (hs : step deps s act = some t) : Filed t := by
  cases act with
  | ask p id req =>
    simp only [RunQueue.step] at hs
    split_ifs at hs with hidle
    obtain rfl := Option.some.inj hs
    exact h.keep (p := p) rfl (fun _ _ ht => ht) .rfl (hidle.symm ▸ ⟨rfl, by simp⟩) rfl
      (by simp [Pc.live])
  | go p => exact h.go hs
  | fail p landed => exact h.fail hs
  | write rows =>
    obtain rfl := Option.some.inj hs
    exact ⟨h.queued, h.awaited, h.carried⟩
  | wait ms =>
    obtain rfl := Option.some.inj hs
    exact ⟨h.queued, h.awaited, h.carried⟩

end Filed

structure Gated (deps : Deps) (R : AutomationRecord → Prop) (s : State) : Prop where
  calls : ∀ p, (s.calls p).Passes deps R
  runs : ∀ run ∈ s.runs, run.Asked deps R
  begun : ∀ b ∈ s.begun,
    ∃ a, a.id = b.automation.id ∧ Passed deps R a b.request b.args ∧ (a = b.automation ∨ b.promoted)
  last : ∀ x ∈ s.claims, ∃ t, s.lastStart x.1 = some t ∧ x.2.2 ≤ t ∧ t ≤ s.now
  rate : s.claims.Pairwise fun x y => x.1 = y.1 → y.2.1.userManual = false →
    x.2.2 + RATE_MS ≤ y.2.2

section Gated

variable {deps : Deps} {R : AutomationRecord → Prop} {s t : State} {p : ℕ} {pc : Pc} {act : Action}

theorem Passed.mono {R' : AutomationRecord → Prop} (hR : ∀ a, R a → R' a) {a : AutomationRecord}
    {req : RunRequest} {args : Args} (h : Passed deps R a req args) : Passed deps R' a req args :=
  ⟨hR a h.stood, h.args, h.accepted, h.enabled⟩

theorem Gated.update (h : Gated deps R s) (hpc : pc.Passes deps R) (q : ℕ) :
    (Function.update s.calls p pc q).Passes deps R := by
  by_cases hq : q = p
  · rw [hq, Function.update_self]
    exact hpc
  · rw [Function.update_of_ne hq]
    exact h.calls q

theorem Gated.goto (h : Gated deps R s) (pc : Pc) (hpc : pc.Passes deps R) :
    Gated deps R (s.goto p pc) :=
  ⟨h.update hpc, h.runs, h.begun, h.last, h.rate⟩

theorem Gated.insertRun (h : Gated deps R s) {run : Run} (hrun : run.Asked deps R) :
    Gated deps R (s.insertRun run) := by
  refine ⟨h.calls, fun r hr => ?_, h.begun, h.last, h.rate⟩
  rcases List.mem_append.mp hr with hr | hr
  · exact h.runs r hr
  · exact List.mem_singleton.mp hr ▸ hrun

theorem Gated.setRunStatus (h : Gated deps R s) (r : ℕ) (status : Status) :
    Gated deps R (s.setRunStatus r status) := by
  refine ⟨h.calls, fun run hrun => ?_, h.begun, h.last, h.rate⟩
  obtain ⟨i, hi⟩ := List.getElem?_of_mem hrun
  rw [getElem?_setRunStatus] at hi
  obtain ⟨old, hold, rfl⟩ := Option.map_eq_some_iff.mp hi
  have hasked := h.runs old (List.mem_of_getElem? hold)
  split
  · exact hasked
  · exact hasked

theorem Gated.release (h : Gated deps R s) (id : String) : Gated deps R (s.release id) :=
  ⟨h.calls, h.runs, h.begun, h.last, h.rate⟩

theorem Gated.queue (h : Gated deps R s) (queued : JsMap String ℕ) :
    Gated deps R { s with queued := queued } :=
  ⟨h.calls, h.runs, h.begun, h.last, h.rate⟩

theorem Gated.begin (h : Gated deps R s) {a b : AutomationRecord} {r : ℕ} {run : Run}
    {promoted : Bool} (hid : b.id = a.id) (hb : Passed deps R b run.request run.args)
    (hsame : b = a ∨ promoted = true) : Gated deps R (s.begin p a r run promoted) := by
  refine ⟨h.update trivial, h.runs, fun x hx => ?_, h.last, h.rate⟩
  rcases List.mem_append.mp hx with hx | hx
  · exact h.begun x hx
  · obtain rfl := List.mem_singleton.mp hx
    exact ⟨b, hid, hb, hsame⟩

theorem asked_newRun {a : AutomationRecord} {req : RunRequest} {args : Args}
    (h : Passed deps R a req args) (status : Status) : (newRun a req args status).Asked deps R :=
  ⟨a, rfl, rfl, h⟩

/-- Only the user starts a run less than a minute after the last start. -/
theorem rate_of_run {a : AutomationRecord} {req : RunRequest}
    (h : beginRun a req s.now (s.standing a.id) = .run) {last : ℤ}
    (hlast : s.lastStart a.id = some last) (huser : req.userManual = false) :
    last + RATE_MS ≤ s.now := by
  have hfree := free_of_run h
  unfold beginRun at h
  split_ifs at h with hrate hclaimed hqueue
  have hlate : ¬ s.now - last < RATE_MS := by
    simpa [huser, hfree, State.standing, hlast] using hrate
  omega

theorem Gated.admitted (h : Gated deps R s) {id : String} {req : RunRequest}
    {row : Option AutomationRecord} (hrow : ∀ a ∈ row, R a) :
    Gated deps R (RunQueue.admitted deps s p id req row) := by
  unfold RunQueue.admitted
  cases hgates : startGates deps id req row with
  | error e => exact h.goto (.settled none) trivial
  | ok v =>
    obtain ⟨a, args⟩ := v
    obtain ⟨rfl, hargs, haccepted, henabled⟩ := startGates_row hgates
    have hpassed : Passed deps R a req args := ⟨hrow a rfl, hargs, haccepted, henabled⟩
    dsimp only
    cases hbegin : beginRun a req s.now (s.standing a.id) with
    | rateSkipped => exact h.goto (.recording a req args) hpassed
    | busySkipped => exact h.goto (.recording a req args) hpassed
    | queue => exact (h.goto (p := p) (.enqueuing a req args) hpassed).queue _
    | run =>
      dsimp only
      refine ⟨h.update hpassed, h.runs, h.begun, fun x hx => ?_, ?_⟩
      · rcases List.mem_append.mp hx with hx | hx
        · obtain ⟨t, ht, hle, hnow⟩ := h.last x hx
          by_cases hid : x.1 = a.id
          · exact ⟨s.now, hid ▸ Function.update_self .., hle.trans hnow, le_rfl⟩
          · exact ⟨t, (Function.update_of_ne hid ..).trans ht, hle, hnow⟩
        · obtain rfl := List.mem_singleton.mp hx
          exact ⟨s.now, Function.update_self .., le_rfl, le_rfl⟩
      · refine List.pairwise_append.mpr ⟨h.rate, List.pairwise_singleton .., ?_⟩
        intro x hx y hy hid huser
        obtain rfl := List.mem_singleton.mp hy
        obtain ⟨last, hlast, hle, -⟩ := h.last x hx
        rw [hid] at hlast
        have := rate_of_run hbegin hlast huser
        dsimp only
        omega

theorem Gated.go (h : Gated deps R s) (hf : Filed s) (hrows : ∀ id a, s.rows.get id = some a → R a)
    (hgo : go deps s p = some t) : Gated deps R t := by
  unfold RunQueue.go at hgo
  have hpasses := h.calls p
  generalize hp : s.calls p = pc at hgo hpasses
  cases pc with
  | idle => cases hgo
  | settled r => cases hgo
  | finished => cases hgo
  | asked id req =>
    obtain rfl := Option.some.inj hgo
    exact h.goto (.looked id req (s.rows.get id)) (hrows id)
  | looked id req row =>
    obtain rfl := Option.some.inj hgo
    exact h.admitted hpasses
  | inserting a req args =>
    obtain rfl := Option.some.inj hgo
    exact (h.insertRun (asked_newRun hpasses .running)).begin rfl hpasses (.inl rfl)
  | enqueuing a req args =>
    obtain rfl := Option.some.inj hgo
    exact (h.insertRun (asked_newRun hpasses .queued)).goto (.settled (some s.runs.length)) trivial
  | recording a req args =>
    obtain rfl := Option.some.inj hgo
    exact (h.insertRun (asked_newRun hpasses .ended)).goto (.settled (some s.runs.length)) trivial
  | executing a r =>
    obtain rfl := Option.some.inj hgo
    exact h.goto (.ending a r) trivial
  | ending a r =>
    obtain rfl := Option.some.inj hgo
    exact (h.setRunStatus r .ended).goto (.settling a r) trivial
  | settling a r =>
    obtain rfl := Option.some.inj hgo
    unfold handOn
    split
    · exact (h.goto .finished trivial).release _
    · next w hw => exact (h.goto (.promoting a w) trivial).queue _
  | promoting a w =>
    dsimp only at hgo
    split at hgo
    · next q hq =>
      obtain rfl := Option.some.inj hgo
      exact h.goto (.rereading a q) trivial
    · obtain rfl := Option.some.inj hgo
      exact (h.goto .finished trivial).release _
    · cases hgo
  | rereading a q =>
    dsimp only at hgo
    split at hgo
    · obtain rfl := Option.some.inj hgo
      exact (h.goto .finished trivial).release _
    · next cur hcur =>
      obtain rfl := Option.some.inj hgo
      exact h.goto (.marking cur q) trivial
  | marking a q =>
    obtain rfl := Option.some.inj hgo
    exact (h.setRunStatus q .running).goto (.fetching a q) trivial
  | fetching a q =>
    obtain ⟨run, hrun, rfl⟩ := Option.map_eq_some_iff.mp hgo
    obtain ⟨run', hrun', hid⟩ := hf.carried p q .running (by rw [hp]; rfl)
    obtain rfl := Option.some.inj (hrun.symm.trans hrun')
    obtain ⟨b, hb, -, hpassed⟩ := h.runs run (List.mem_of_getElem? hrun)
    rw [hp] at hid
    exact h.begin (hb.trans (Option.some.inj hid).symm) hpassed (.inr rfl)

theorem Gated.fail (h : Gated deps R s) {landed : Bool} (hfail : fail s p landed = some t) :
    Gated deps R t := by
  unfold RunQueue.fail at hfail
  have hpasses := h.calls p
  generalize s.calls p = pc at hfail hpasses
  cases pc with
  | asked id req =>
    obtain rfl := Option.some.inj hfail
    exact h.goto (.settled none) trivial
  | inserting a req args =>
    obtain rfl := Option.some.inj hfail
    cases landed
    · exact (h.goto (.settled none) trivial).release _
    · exact ((h.insertRun (asked_newRun hpasses .running)).goto (.settled none) trivial).release _
  | enqueuing a req args =>
    obtain rfl := Option.some.inj hfail
    have hinsert : Gated deps R
        ((s.insertRun (newRun a req args .queued)).goto p (.settled none)) :=
      (h.insertRun (asked_newRun hpasses .queued)).goto (.settled none) trivial
    have hgoto : Gated deps R (s.goto p (.settled none)) := h.goto (.settled none) trivial
    cases landed <;> split
    · exact hgoto.queue _
    · exact hgoto
    · exact hinsert.queue _
    · exact hinsert
  | recording a req args =>
    obtain rfl := Option.some.inj hfail
    cases landed
    · exact h.goto (.settled none) trivial
    · exact (h.insertRun (asked_newRun hpasses .ended)).goto (.settled none) trivial
  | ending a r =>
    obtain rfl := Option.some.inj hfail
    cases landed
    · exact (h.goto .finished trivial).release _
    · exact ((h.setRunStatus r .ended).goto .finished trivial).release _
  | settling a r =>
    obtain rfl := Option.some.inj hfail
    exact (h.goto .finished trivial).release _
  | rereading a q =>
    obtain rfl := Option.some.inj hfail
    exact (h.goto .finished trivial).release _
  | marking a q =>
    obtain rfl := Option.some.inj hfail
    cases landed
    · exact (h.goto .finished trivial).release _
    · exact ((h.setRunStatus q .running).goto .finished trivial).release _
  | fetching a q =>
    obtain rfl := Option.some.inj hfail
    exact (h.goto .finished trivial).release _
  | _ => cases hfail

theorem Gated.step (h : Gated deps R s) (hf : Filed s)
    (hrows : ∀ id a, s.rows.get id = some a → R a) (hs : step deps s act = some t) :
    Gated deps R t := by
  cases act with
  | ask p id req =>
    simp only [RunQueue.step] at hs
    split_ifs at hs with hidle
    obtain rfl := Option.some.inj hs
    exact h.goto (.asked id req) trivial
  | go p => exact h.go hf hrows hs
  | fail p landed => exact h.fail hs
  | write rows =>
    obtain rfl := Option.some.inj hs
    exact ⟨h.calls, h.runs, h.begun, h.last, h.rate⟩
  | wait ms =>
    obtain rfl := Option.some.inj hs
    refine ⟨h.calls, h.runs, h.begun, fun x hx => ?_, h.rate⟩
    obtain ⟨t, ht, hle, hnow⟩ := h.last x hx
    exact ⟨t, ht, hle, hnow.trans (by dsimp only; omega)⟩

theorem Run.Asked.mono {R' : AutomationRecord → Prop} (hR : ∀ a, R a → R' a) {run : Run}
    (h : run.Asked deps R) : run.Asked deps R' := by
  obtain ⟨a, hid, hversion, ha⟩ := h
  exact ⟨a, hid, hversion, ha.mono hR⟩

theorem Gated.mono {R' : AutomationRecord → Prop} (hR : ∀ a, R a → R' a) (h : Gated deps R s) :
    Gated deps R' s := by
  refine ⟨fun p => ?_, fun run hrun => (h.runs run hrun).mono hR, fun b hb => ?_, h.last, h.rate⟩
  · have hp := h.calls p
    generalize s.calls p = pc at hp
    cases pc with
    | looked id req row => exact fun a ha => hR a (hp a ha)
    | inserting a req args => exact Passed.mono hR hp
    | enqueuing a req args => exact Passed.mono hR hp
    | recording a req args => exact Passed.mono hR hp
    | _ => trivial
  · obtain ⟨a, hid, ha, hsame⟩ := h.begun b hb
    exact ⟨a, hid, ha.mono hR, hsame⟩

end Gated

/-- The row stood in the store at some point of the run. -/
def Stood (deps : Deps) (as : List Action) (a : AutomationRecord) : Prop :=
  ∃ before after u, as = before ++ after ∧ run (step deps) {} before = some u ∧
    u.rows.get a.id = some a

theorem filed_start : Filed {} where
  queued id t ht := by cases ht
  awaited p id t ht := by cases ht
  carried p r status hr := by cases hr

theorem gated_start (deps : Deps) (R : AutomationRecord → Prop) : Gated deps R {} where
  calls p := trivial
  runs run hrun := by cases hrun
  begun b hb := by cases hb
  last x hx := by cases hx
  rate := .nil

/-- Every run that executes, or did, has the arguments of a request that passed the gates of `start`
for a row its automation had then: for the row it executes, unless the run waited in the queue. A
claim that the user did not ask for is a minute or more after the one before it of the same
automation. -/
theorem begun_passed {deps : Deps} {as : List Action} {s : State}
    (hr : run (step deps) {} as = some s) :
    (∀ b ∈ s.begun, ∃ a, a.id = b.automation.id ∧
      Passed deps (Stood deps as) a b.request b.args ∧ (a = b.automation ∨ b.promoted = true)) ∧
    s.claims.Pairwise fun x y => x.1 = y.1 → y.2.1.userManual = false →
      x.2.2 + RATE_MS ≤ y.2.2 := by
  have hboth : Filed s ∧ Gated deps (Stood deps as) s := by
    refine run_invariant_history (I := fun as s => Filed s ∧ Gated deps (Stood deps as) s)
      ⟨filed_start, gated_start deps _⟩ (fun as s act t hrun h hs => ?_) hr
    have hmono : ∀ a, Stood deps as a → Stood deps (as ++ [act]) a := by
      rintro a ⟨before, after, u, rfl, hu, ha⟩
      exact ⟨before, after ++ [act], u, List.append_assoc .., hu, ha⟩
    refine ⟨h.1.step hs, (h.2.mono hmono).step h.1 (fun id a ha => ?_) hs⟩
    obtain rfl : a.id = id := (Table.get_eq_some.mp ha).2
    exact ⟨as, [act], s, rfl, hrun, ha⟩
  exact ⟨hboth.2.begun, hboth.2.rate⟩

theorem begun_passed_twoRuns :
    ∃ s, run (step permissive) {} twoRuns = some s ∧
      s.begun.map Beginning.promoted = [false, true] ∧
      ∀ b ∈ s.begun, ∃ a, a.id = b.automation.id ∧
        Passed permissive (Stood permissive twoRuns) a b.request b.args ∧
        (a = b.automation ∨ b.promoted = true) := by
  have hrun : (run (step permissive) {} twoRuns).any
      (fun s => s.begun.map Beginning.promoted == [false, true]) = true := by decide +kernel
  obtain ⟨s, hs, hbegun⟩ := (Option.any_eq_true _ _).mp hrun
  exact ⟨s, hs, eq_of_beq hbegun, (begun_passed hs).1⟩

end ClaudeFleet.RunQueue
