import ClaudeFleet.Notify

/-! Notifications of sessions that wait on a question. A workspace that begins to wait gets a timer,
the timer starts a request, and the end of the wait clears what the requests have stored. Every
store call is one step. -/
namespace ClaudeFleet.Notify.InputWait
open Transition

/-- Where the user is looking. -/
structure Viewing where
  focused : Bool
  workspaceId : Option String
  inboxOpen : Bool

/-- An episode of waiting, with its number. -/
structure Wait where
  since : ℤ
  episode : ℕ

structure Pending where
  workspaceId : String
  episode : ℕ
  request : Request

structure Clear where
  workspaceId : String
  now : ℤ

structure State where
  store : Store := {}
  waiting : String → Option Wait := fun _ => none
  /-- A timer is known by the episode that set it. -/
  waitTimers : String → Option ℕ := fun _ => none
  requests : List Pending := []
  clears : List Clear := []
  /-- The waiting set that was reported last. -/
  reported : String → List String := fun _ => []
  episodes : ℕ := 0
  /-- The ids of the rows stored, with the episodes they come from. -/
  produced : List (ℕ × ℕ) := []

def inputKey (workspaceId : String) : String := "input-wait:" ++ workspaceId

section Service
variable (name : String → String) (windowAt : Downtime → ℤ → Option ℤ)

def inputWaitInput (workspaceId : String) : Input where
  req :=
    { kind := .inputWait
      priority := .high
      source := ⟨.workspace, some workspaceId⟩
      dedupeKey := some (inputKey workspaceId)
      tags := [] }
  title := name workspaceId ++ " needs your input"
  body := some "A session is waiting on a question."

inductive Action
  | configure (settings : Settings)
  | inputWait (workspaceId : String) (waitingIds : List String) (now : ℤ)
  /-- The timer of a workspace fires. -/
  | fire (workspaceId : String) (view : Viewing) (now : ℤ)
  | read (n : ℕ) (part : Part)
  /-- A request stores its row. -/
  | insert (n : ℕ)
  /-- A store call of a request fails. -/
  | fails (n : ℕ)
  | clear (n : ℕ)
  | clearFails (n : ℕ)

def onInputWait (s : State) (workspaceId : String) (waitingIds : List String) (now : ℤ) : State :=
  let s := { s with reported := Function.update s.reported workspaceId waitingIds }
  if waitingIds = [] then
    { s with
      waiting := Function.update s.waiting workspaceId none
      waitTimers := Function.update s.waitTimers workspaceId none
      clears := s.clears ++ [⟨workspaceId, now⟩] }
  else if (s.waiting workspaceId).isSome then s
  else
    { s with
      waiting := Function.update s.waiting workspaceId (some ⟨now, s.episodes⟩)
      waitTimers := Function.update s.waitTimers workspaceId (some s.episodes)
      episodes := s.episodes + 1 }

def onTimer (s : State) (workspaceId : String) (episode : ℕ) (view : Viewing) (now : ℤ) : State :=
  let s := { s with waitTimers := Function.update s.waitTimers workspaceId none }
  if (s.waiting workspaceId).isNone then s
  else if view.focused && !view.inboxOpen && view.workspaceId == some workspaceId then s
  else
    { s with
      requests := s.requests ++
        [⟨workspaceId, episode, { input := inputWaitInput name workspaceId, now := now }⟩] }

def step (s : State) : Action → Option State
  | .configure settings => some { s with store := { s.store with settings := settings } }
  | .inputWait workspaceId waitingIds now => some (onInputWait s workspaceId waitingIds now)
  | .fire workspaceId view now =>
    (s.waitTimers workspaceId).map fun e => onTimer name s workspaceId e view now
  | .read n part =>
    (s.requests[n]?).map fun p =>
      { s with
        requests := s.requests.set n { p with request := p.request.read s.store.settings part } }
  | .insert n =>
    (s.requests[n]?).bind fun p =>
      p.request.settings.map fun settings =>
        { s with
          store := s.store.insert p.request.input p.request.now
            (resolve windowAt p.request.input.req settings p.request.now)
          requests := s.requests.eraseIdx n
          produced := (s.store.nextId, p.episode) :: s.produced }
  | .fails n => (s.requests[n]?).map fun _ => { s with requests := s.requests.eraseIdx n }
  | .clear n =>
    (s.clears[n]?).map fun c =>
      { s with
        store := s.store.clearByKey (inputKey c.workspaceId) c.now
        clears := s.clears.eraseIdx n }
  | .clearFails n => (s.clears[n]?).map fun _ => { s with clears := s.clears.eraseIdx n }

end Service

/-- The notification of the workspace stands, and nothing has cleared it. -/
def Uncleared (r : Row) (workspaceId : String) : Prop :=
  r.kind = .inputWait ∧ r.dedupeKey = some (inputKey workspaceId) ∧ r.clearedAt = none

instance (r : Row) (workspaceId : String) : Decidable (Uncleared r workspaceId) :=
  inferInstanceAs (Decidable (_ ∧ _ ∧ _))

/-- Every call has finished. -/
def State.idle (s : State) : Prop := s.requests = [] ∧ s.clears = []

/-- A notification that is still open belongs to a workspace that waits. -/
def Answered (s : State) : Prop :=
  ∀ r ∈ s.store.notifications, ∀ workspaceId, Uncleared r workspaceId → s.reported workspaceId ≠ []

/-- Every notification comes from an episode, and no two come from one. -/
def OnePerEpisode (s : State) : Prop :=
  (s.produced.map Prod.snd).Nodup ∧
    ∀ r ∈ s.store.notifications, r.kind = .inputWait → r.id ∈ s.produced.map Prod.fst

/-- The workspace waits, or a clear of its notifications has yet to run. -/
def Expected (waiting : String → Option Wait) (clears : List Clear) (workspaceId : String) : Prop :=
  (waiting workspaceId).isSome = true ∨ ∃ c ∈ clears, c.workspaceId = workspaceId

instance (waiting : String → Option Wait) (clears : List Clear) (workspaceId : String) :
    Decidable (Expected waiting clears workspaceId) :=
  inferInstanceAs (Decidable (_ ∨ _))

/-- A row is stored while its workspace waits or before the clear has run, and a clear that fails
had nothing to clear or is not the last. -/
def Timely (s : State) : Action → Prop
  | .insert n => ∀ p ∈ s.requests[n]?, Expected s.waiting s.clears p.workspaceId
  | .clearFails n => ∀ c ∈ s.clears[n]?,
      Expected s.waiting (s.clears.eraseIdx n) c.workspaceId ∨
        ∀ r ∈ s.store.notifications, ¬Uncleared r c.workspaceId
  | _ => True

instance (s : State) (a : Action) : Decidable (Timely s a) :=
  match a with
  | .insert _ => inferInstanceAs (Decidable (∀ p ∈ _, Expected _ _ _))
  | .clearFails _ => inferInstanceAs (Decidable (∀ c ∈ _, _ ∨ _))
  | .configure _ | .inputWait .. | .fire .. | .read .. | .fails _ | .clear _ => isTrue trivial

theorem inputKey_inj {a b : String} (h : inputKey a = inputKey b) : a = b := by
  have h' := congrArg String.toList h
  simp only [inputKey, String.toList_append, List.append_cancel_left_eq] at h'
  exact String.toList_inj.mp h'

/-! What the steps keep, whatever their order. -/

section Invariants
variable {name : String → String} {windowAt : Downtime → ℤ → Option ℤ}

theorem read_input (r : Request) (settings : Settings) (part : Part) :
    (r.read settings part).input = r.input := by
  cases part <;> rfl

/-- A request asks for the notification of its workspace, and what was reported last is what is
waiting. -/
structure Wired (name : String → String) (s : State) : Prop where
  inputs : ∀ p ∈ s.requests, p.request.input = inputWaitInput name p.workspaceId
  reported : ∀ ws, (s.waiting ws).isSome = true ↔ s.reported ws ≠ []

theorem Wired.step {s t : State} {a : Action} (h : Wired name s)
    (hs : step name windowAt s a = some t) : Wired name t := by
  cases a with
  | configure settings =>
    obtain rfl := Option.some.inj hs
    exact ⟨h.inputs, h.reported⟩
  | inputWait ws ids now =>
    obtain rfl := Option.some.inj hs
    simp only [onInputWait]
    split_ifs with hnil hwait
    · refine ⟨h.inputs, fun w => ?_⟩
      by_cases hw : w = ws
      · subst hw
        simp [hnil]
      · simpa [Function.update_of_ne hw] using h.reported w
    · refine ⟨h.inputs, fun w => ?_⟩
      by_cases hw : w = ws
      · subst hw
        simpa [hwait] using hnil
      · simpa [Function.update_of_ne hw] using h.reported w
    · refine ⟨h.inputs, fun w => ?_⟩
      by_cases hw : w = ws
      · subst hw
        simpa using hnil
      · simpa [Function.update_of_ne hw] using h.reported w
  | fire ws view now =>
    obtain ⟨e, -, rfl⟩ := Option.map_eq_some_iff.mp hs
    simp only [onTimer]
    split_ifs
    · exact ⟨h.inputs, h.reported⟩
    · exact ⟨h.inputs, h.reported⟩
    · refine ⟨fun p hp => ?_, h.reported⟩
      rcases List.mem_append.mp hp with hp | hp
      · exact h.inputs p hp
      · rw [List.mem_singleton.mp hp]
  | read n part =>
    obtain ⟨p, hp, rfl⟩ := Option.map_eq_some_iff.mp hs
    refine ⟨fun q hq => ?_, h.reported⟩
    rcases List.mem_or_eq_of_mem_set hq with hq | rfl
    · exact h.inputs q hq
    · exact (read_input _ _ _).trans (h.inputs p (List.mem_of_getElem? hp))
  | insert n =>
    obtain ⟨p, -, hp⟩ := Option.bind_eq_some_iff.mp hs
    obtain ⟨settings, -, rfl⟩ := Option.map_eq_some_iff.mp hp
    exact ⟨fun q hq => h.inputs q (List.mem_of_mem_eraseIdx hq), h.reported⟩
  | fails n =>
    obtain ⟨p, -, rfl⟩ := Option.map_eq_some_iff.mp hs
    exact ⟨fun q hq => h.inputs q (List.mem_of_mem_eraseIdx hq), h.reported⟩
  | clear n =>
    obtain ⟨c, -, rfl⟩ := Option.map_eq_some_iff.mp hs
    exact ⟨h.inputs, h.reported⟩
  | clearFails n =>
    obtain ⟨c, -, rfl⟩ := Option.map_eq_some_iff.mp hs
    exact ⟨h.inputs, h.reported⟩

/-- The episodes of the rows stored and of the requests under way. -/
def State.used (s : State) : List ℕ := s.produced.map Prod.snd ++ s.requests.map Pending.episode

/-- An episode has its timer, or its request, or its row, and only one of them. -/
structure Counted (s : State) : Prop where
  nodup : s.used.Nodup
  bound : ∀ e ∈ s.used, e < s.episodes
  timer : ∀ ws e, s.waitTimers ws = some e → e < s.episodes ∧ e ∉ s.used
  timerInj : ∀ ws ws' e, s.waitTimers ws = some e → s.waitTimers ws' = some e → ws = ws'
  rows : ∀ r ∈ s.store.notifications, r.kind = .inputWait → r.id ∈ s.produced.map Prod.fst

/-- Fewer episodes under way. -/
theorem Counted.sublist {s t : State} (h : Counted s) (hused : t.used.Sublist s.used)
    (hepisodes : t.episodes = s.episodes) (htimers : t.waitTimers = s.waitTimers)
    (hrows : ∀ r ∈ t.store.notifications, r.kind = .inputWait →
      r.id ∈ t.produced.map Prod.fst) : Counted t where
  nodup := h.nodup.sublist hused
  bound := fun e he => hepisodes ▸ h.bound e (hused.subset he)
  timer := fun ws e he => by
    rw [htimers] at he
    obtain ⟨hlt, hnot⟩ := h.timer ws e he
    exact ⟨hepisodes ▸ hlt, fun hmem => hnot (hused.subset hmem)⟩
  timerInj := by
    rw [htimers]
    exact h.timerInj
  rows := hrows

theorem map_set_episode {l : List Pending} {n : ℕ} {p : Pending} (hp : l[n]? = some p)
    (r : Request) :
    (l.set n { p with request := r }).map Pending.episode = l.map Pending.episode := by
  obtain ⟨hlt, rfl⟩ := List.getElem?_eq_some_iff.mp hp
  rw [List.map_set]
  have hlt' : n < (l.map Pending.episode).length := by simpa using hlt
  have hself : (l[n]).episode = (l.map Pending.episode)[n] := by simp
  rw [hself, List.set_getElem_self]

theorem perm_eraseIdx {l : List Pending} {n : ℕ} {p : Pending} (hp : l[n]? = some p) :
    (l.map Pending.episode).Perm (p.episode :: (l.eraseIdx n).map Pending.episode) := by
  obtain ⟨hlt, rfl⟩ := List.getElem?_eq_some_iff.mp hp
  have hperm := (List.getElem_cons_eraseIdx_perm hlt).symm.map Pending.episode
  simpa using hperm

/-- What a timer gives up goes to the request it starts. -/
theorem Counted.fire {s : State} {ws : String} {e : ℕ} (h : Counted s)
    (he : s.waitTimers ws = some e) (req : Request) :
    Counted { s with
      waitTimers := Function.update s.waitTimers ws none
      requests := s.requests ++ [⟨ws, e, req⟩] } := by
  obtain ⟨hlt, hnot⟩ := h.timer ws e he
  have hused : State.used { s with
      waitTimers := Function.update s.waitTimers ws none
      requests := s.requests ++ [⟨ws, e, req⟩] } = s.used ++ [e] := by
    simp [State.used]
  have hother : ∀ w d, Function.update s.waitTimers ws none w = some d →
      w ≠ ws ∧ s.waitTimers w = some d := by
    intro w d hd
    by_cases hw : w = ws
    · subst hw
      simp at hd
    · exact ⟨hw, by rwa [Function.update_of_ne hw] at hd⟩
  refine ⟨?_, ?_, ?_, ?_, h.rows⟩
  · rw [hused, List.nodup_append]
    refine ⟨h.nodup, List.nodup_singleton e, fun d hd d' hd' => ?_⟩
    rw [List.mem_singleton.mp hd']
    exact fun heq => hnot (heq ▸ hd)
  · intro d hd
    rw [hused, List.mem_append, List.mem_singleton] at hd
    rcases hd with hd | rfl
    · exact h.bound d hd
    · exact hlt
  · intro w d hd
    obtain ⟨hw, hd⟩ := hother w d hd
    obtain ⟨hdlt, hdnot⟩ := h.timer w d hd
    refine ⟨hdlt, ?_⟩
    rw [hused, List.mem_append, List.mem_singleton, not_or]
    exact ⟨hdnot, fun heq => hw (h.timerInj w ws e (heq ▸ hd) he)⟩
  · intro w w' d hd hd'
    exact h.timerInj w w' d (hother w d hd).2 (hother w' d hd').2

/-- A timer that is cleared, or that found nothing to ask for. -/
theorem Counted.dropTimer {s : State} (h : Counted s) (ws : String) (s' : State)
    (hused : s'.used = s.used) (hepisodes : s'.episodes = s.episodes)
    (htimers : s'.waitTimers = Function.update s.waitTimers ws none)
    (hrows : s'.store = s.store ∧ s'.produced = s.produced) : Counted s' := by
  have hother : ∀ w d, s'.waitTimers w = some d → s.waitTimers w = some d := by
    intro w d hd
    rw [htimers] at hd
    by_cases hw : w = ws
    · subst hw
      simp at hd
    · rwa [Function.update_of_ne hw] at hd
  refine ⟨hused ▸ h.nodup, ?_, ?_, ?_, ?_⟩
  · rw [hused, hepisodes]
    exact h.bound
  · intro w d hd
    rw [hused, hepisodes]
    exact h.timer w d (hother w d hd)
  · intro w w' d hd hd'
    exact h.timerInj w w' d (hother w d hd) (hother w' d hd')
  · rw [hrows.1, hrows.2]
    exact h.rows

/-- A new episode gets a number that nothing has yet. -/
theorem Counted.begin {s : State} (h : Counted s) (ws : String) (now : ℤ)
    (reported : String → List String) :
    Counted { s with
      reported := reported
      waiting := Function.update s.waiting ws (some ⟨now, s.episodes⟩)
      waitTimers := Function.update s.waitTimers ws (some s.episodes)
      episodes := s.episodes + 1 } := by
  have hcases : ∀ w d, Function.update s.waitTimers ws (some s.episodes) w = some d →
      w = ws ∧ d = s.episodes ∨ w ≠ ws ∧ s.waitTimers w = some d := by
    intro w d hd
    by_cases hw : w = ws
    · subst hw
      rw [Function.update_self, Option.some.injEq] at hd
      exact Or.inl ⟨rfl, hd.symm⟩
    · exact Or.inr ⟨hw, by rwa [Function.update_of_ne hw] at hd⟩
  refine ⟨h.nodup, fun e he => (h.bound e he).trans (Nat.lt_succ_self _), ?_, ?_, h.rows⟩
  · intro w d hd
    rcases hcases w d hd with ⟨-, rfl⟩ | ⟨-, hd⟩
    · exact ⟨Nat.lt_succ_self _, fun hmem => (h.bound _ hmem).false⟩
    · obtain ⟨hlt, hnot⟩ := h.timer w d hd
      exact ⟨hlt.trans (Nat.lt_succ_self _), hnot⟩
  · intro w w' d hd hd'
    rcases hcases w d hd with ⟨rfl, rfl⟩ | ⟨-, hold⟩
    · rcases hcases w' _ hd' with ⟨rfl, -⟩ | ⟨-, hold'⟩
      · rfl
      · exact absurd (h.timer w' _ hold').1 (lt_irrefl _)
    · rcases hcases w' d hd' with ⟨rfl, rfl⟩ | ⟨-, hold'⟩
      · exact absurd (h.timer w _ hold).1 (lt_irrefl _)
      · exact h.timerInj w w' d hold hold'

theorem Counted.step {s t : State} {a : Action} (h : Counted s)
    (hs : step name windowAt s a = some t) : Counted t := by
  cases a with
  | configure settings =>
    obtain rfl := Option.some.inj hs
    exact h.sublist (List.Sublist.refl _) rfl rfl h.rows
  | inputWait ws ids now =>
    obtain rfl := Option.some.inj hs
    simp only [onInputWait]
    split_ifs
    · exact h.dropTimer ws _ rfl rfl rfl ⟨rfl, rfl⟩
    · exact h.sublist (List.Sublist.refl _) rfl rfl h.rows
    · exact h.begin ws now _
  | fire ws view now =>
    obtain ⟨e, he, rfl⟩ := Option.map_eq_some_iff.mp hs
    simp only [onTimer]
    split_ifs
    · exact h.dropTimer ws _ rfl rfl rfl ⟨rfl, rfl⟩
    · exact h.dropTimer ws _ rfl rfl rfl ⟨rfl, rfl⟩
    · exact h.fire he _
  | read n part =>
    obtain ⟨p, hp, rfl⟩ := Option.map_eq_some_iff.mp hs
    refine h.sublist ?_ rfl rfl h.rows
    simp only [State.used, map_set_episode hp]
    exact List.Sublist.refl _
  | insert n =>
    obtain ⟨p, hp, hset⟩ := Option.bind_eq_some_iff.mp hs
    obtain ⟨settings, -, rfl⟩ := Option.map_eq_some_iff.mp hset
    -- the episode moves from the requests to the rows
    have hperm : s.used.Perm (State.used { s with
        store := s.store.insert p.request.input p.request.now
          (resolve windowAt p.request.input.req settings p.request.now)
        requests := s.requests.eraseIdx n
        produced := (s.store.nextId, p.episode) :: s.produced }) := by
      simp only [State.used, List.map_cons, List.cons_append]
      exact ((perm_eraseIdx hp).append_left _).trans List.perm_middle
    refine ⟨hperm.nodup_iff.mp h.nodup, fun e he => h.bound e (hperm.mem_iff.mpr he), ?_,
      h.timerInj, ?_⟩
    · intro w d hd
      obtain ⟨hlt, hnot⟩ := h.timer w d hd
      exact ⟨hlt, fun hmem => hnot (hperm.mem_iff.mpr hmem)⟩
    · intro r hr hkind
      simp only [List.map_cons, List.mem_cons]
      rcases List.mem_append.mp hr with hr | hr
      · exact Or.inr (h.rows r hr hkind)
      · rw [List.mem_singleton.mp hr]
        exact Or.inl rfl
  | fails n =>
    obtain ⟨p, -, rfl⟩ := Option.map_eq_some_iff.mp hs
    exact h.sublist (((List.eraseIdx_sublist _ _).map _).append_left _) rfl rfl h.rows
  | clear n =>
    obtain ⟨c, -, rfl⟩ := Option.map_eq_some_iff.mp hs
    refine h.sublist (List.Sublist.refl _) rfl rfl fun r hr hkind => ?_
    obtain ⟨r', hr', rfl⟩ := List.mem_map.mp hr
    have hsame : (if r'.dedupeKey = some (inputKey c.workspaceId) ∧ r'.clearedAt = none then
        { r' with clearedAt := some c.now } else r').kind = r'.kind ∧
        (if r'.dedupeKey = some (inputKey c.workspaceId) ∧ r'.clearedAt = none then
        { r' with clearedAt := some c.now } else r').id = r'.id := by
      split_ifs <;> exact ⟨rfl, rfl⟩
    rw [hsame.2]
    exact h.rows r' hr' (hsame.1 ▸ hkind)
  | clearFails n =>
    obtain ⟨c, -, rfl⟩ := Option.map_eq_some_iff.mp hs
    exact h.sublist (List.Sublist.refl _) rfl rfl h.rows

/-! What they keep in good time. -/

/-- An open notification is of a workspace that waits, or is about to be cleared. -/
def Covered (s : State) : Prop :=
  ∀ r ∈ s.store.notifications, ∀ ws, Uncleared r ws → Expected s.waiting s.clears ws

/-- What is still expected after a change of what waits and of the clears. -/
theorem Covered.mono {s t : State} (h : Covered s)
    (hstore : t.store.notifications = s.store.notifications)
    (hexp : ∀ ws, Expected s.waiting s.clears ws → Expected t.waiting t.clears ws) :
    Covered t := by
  intro r hr ws hopen
  rw [hstore] at hr
  exact hexp ws (h r hr ws hopen)

theorem Expected.eraseIdx {waiting : String → Option Wait} {clears : List Clear} {n : ℕ} {c : Clear}
    (hc : clears[n]? = some c) {ws : String} (hne : ws ≠ c.workspaceId)
    (h : Expected waiting clears ws) : Expected waiting (clears.eraseIdx n) ws := by
  rcases h with h | ⟨d, hd, rfl⟩
  · exact Or.inl h
  · obtain ⟨hlt, rfl⟩ := List.getElem?_eq_some_iff.mp hc
    have hmem := (List.getElem_cons_eraseIdx_perm hlt).mem_iff.mpr hd
    rcases List.mem_cons.mp hmem with rfl | hmem
    · exact absurd rfl hne
    · exact Or.inr ⟨d, hmem, rfl⟩

theorem Covered.step {s t : State} {a : Action} (hw : Wired name s) (h : Covered s)
    (hok : Timely s a) (hs : step name windowAt s a = some t) : Covered t := by
  cases a with
  | configure settings =>
    obtain rfl := Option.some.inj hs
    exact h
  | inputWait ws ids now =>
    obtain rfl := Option.some.inj hs
    simp only [onInputWait]
    split_ifs with hnil hwait
    · -- the wait is over, and its clear has been issued
      refine h.mono rfl fun w hexp => ?_
      by_cases hww : w = ws
      · exact Or.inr ⟨⟨ws, now⟩, by simp, hww.symm⟩
      · rcases hexp with hexp | ⟨c, hc, rfl⟩
        · exact Or.inl (by simpa [Function.update_of_ne hww] using hexp)
        · exact Or.inr ⟨c, by simp [hc], rfl⟩
    · exact h.mono rfl fun w hexp => hexp
    · refine h.mono rfl fun w hexp => ?_
      by_cases hww : w = ws
      · subst hww
        exact Or.inl (by simp)
      · rcases hexp with hexp | hexp
        · exact Or.inl (by simpa [Function.update_of_ne hww] using hexp)
        · exact Or.inr hexp
  | fire ws view now =>
    obtain ⟨e, -, rfl⟩ := Option.map_eq_some_iff.mp hs
    simp only [onTimer]
    split_ifs <;> exact h
  | read n part =>
    obtain ⟨p, -, rfl⟩ := Option.map_eq_some_iff.mp hs
    exact h
  | insert n =>
    obtain ⟨p, hp, hset⟩ := Option.bind_eq_some_iff.mp hs
    obtain ⟨settings, -, rfl⟩ := Option.map_eq_some_iff.mp hset
    intro r hr ws hopen
    rcases List.mem_append.mp hr with hr | hr
    · exact h r hr ws hopen
    · obtain rfl := List.mem_singleton.mp hr
      have hkey : p.request.input.req.dedupeKey = some (inputKey ws) := hopen.2.1
      rw [hw.inputs p (List.mem_of_getElem? hp)] at hkey
      obtain rfl := inputKey_inj (Option.some.inj hkey)
      exact hok p hp
  | fails n =>
    obtain ⟨p, -, rfl⟩ := Option.map_eq_some_iff.mp hs
    exact h
  | clear n =>
    obtain ⟨c, hc, rfl⟩ := Option.map_eq_some_iff.mp hs
    intro r hr ws hopen
    obtain ⟨r', hr', rfl⟩ := List.mem_map.mp hr
    split_ifs at hopen with hcleared
    · exact absurd hopen.2.2 (by simp)
    · refine Expected.eraseIdx hc ?_ (h r' hr' ws hopen)
      rintro rfl
      exact hcleared ⟨hopen.2.1, hopen.2.2⟩
  | clearFails n =>
    obtain ⟨c, hc, rfl⟩ := Option.map_eq_some_iff.mp hs
    intro r hr ws hopen
    by_cases hws : ws = c.workspaceId
    · subst hws
      rcases hok c hc with hexp | hnone
      · exact hexp
      · exact absurd hopen (hnone r hr)
    · exact Expected.eraseIdx hc hws (h r hr ws hopen)

theorem wired_start : Wired name {} := ⟨by simp, by simp⟩

theorem counted_start : Counted {} :=
  ⟨by simp [State.used], by simp [State.used], by simp, by simp, by simp⟩

theorem covered_start : Covered {} := by
  intro r hr
  simp at hr

/-- In a run whose steps are all in good time, what is open once all calls have finished is of a
workspace that waits. In every run an episode has one notification at most. -/
theorem inputWait_settles {actions : List Action} {s : State}
    (hrun : run (step name windowAt) {} actions = some s)
    (htimely : Along (step name windowAt) Timely {} actions) :
    (s.idle → Answered s) ∧ OnePerEpisode s := by
  have hinv : Wired name s ∧ Covered s :=
    run_invariant_along (I := fun s => Wired name s ∧ Covered s)
      (fun _ _ _ h hok hs => ⟨h.1.step hs, h.2.step h.1 hok hs⟩)
      ⟨wired_start, covered_start⟩ hrun htimely
  have hcount : Counted s := run_invariant (fun _ _ _ h hs => h.step hs) counted_start hrun
  refine ⟨fun hidle r hr ws hopen => ?_, ?_, hcount.rows⟩
  · rcases hinv.2 r hr ws hopen with hwait | ⟨c, hc, -⟩
    · exact (hinv.1.reported ws).mp hwait
    · rw [hidle.2] at hc
      cases hc
  · exact (List.nodup_append.mp hcount.nodup).1

end Invariants

/-- A question is asked, and twenty seconds later the request of its timer has read the settings. -/
def asked : List Action :=
  [.inputWait "w" ["q"] 0, .fire "w" ⟨false, none, false⟩ 20000, .read 0 .rules,
    .read 0 .defaultLevel, .read 0 .pause, .read 0 .downtimes]

/-- It is answered after its notification was stored. -/
def answeredAfter : List Action := asked ++ [.insert 0, .inputWait "w" [] 21000, .clear 0]

theorem inputWait_settles_answeredAfter :
    ∃ s, run (step id fun _ _ => none) {} answeredAfter = some s ∧
      (s.idle → Answered s) ∧ OnePerEpisode s := by
  obtain ⟨s, hs⟩ : ∃ s, run (step id fun _ _ => none) {} answeredAfter = some s := ⟨_, rfl⟩
  have htimely : Along (step id fun _ _ => none) Timely {} answeredAfter := by decide +kernel
  exact ⟨s, hs, inputWait_settles hs htimely⟩

/-- The answer comes between the reads and the insert: the clear finds nothing, and the row that is
stored after it stays. -/
theorem answered_notification_stays :
    ∃ s, run (step id fun _ _ => none) {}
        (asked ++ [.inputWait "w" [] 21000, .clear 0, .insert 0]) = some s ∧
      s.idle ∧ ¬Answered s := by
  refine ⟨_, rfl, ⟨rfl, rfl⟩, fun h => ?_⟩
  exact h _ List.mem_cons_self "w" ⟨rfl, rfl, rfl⟩ rfl

end ClaudeFleet.Notify.InputWait
