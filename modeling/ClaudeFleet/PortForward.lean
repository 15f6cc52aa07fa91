import ClaudeFleet.Numbered
import ClaudeFleet.PortMonitor

/-! The host servers that forward ports of the workspaces: a call opens one for its port unless one
is recorded, the stop of a workspace closes those recorded for it. -/
namespace ClaudeFleet.PortForward
open Js Transition

structure Server where
  workspaceId : Text
  port : ℕ
  hostPort : ℕ
  listening : Bool

inductive Stage
  | resolving
  | binding
  deriving DecidableEq

/-- A call of `openPort` that has found no forward. -/
structure Call where
  workspaceId : Text
  port : ℕ
  stage : Stage

/-- The answer to a call, with the host ports of the servers that were listening for its port. -/
structure Answer where
  hostPort : ℕ
  living : List ℕ

structure State where
  manager : PortMonitor.State := {}
  /-- All servers that ever listened, by their numbers. -/
  servers : List Server := []
  forwards : JsMap Text (JsMap ℕ ℕ) := .empty
  calls : List Call := []
  answers : List Answer := []
  /-- `openPort` was called for the workspace since its forwards were closed. -/
  wanted : Text → Bool := fun _ => false

namespace State

/-- The server recorded for a port. -/
def forward (s : State) (workspaceId : Text) (port : ℕ) : Option ℕ :=
  (s.forwards.get? workspaceId).bind fun byPort => byPort.get? port

/-- The host ports of the servers that listen for a port. -/
def living (s : State) (workspaceId : Text) (port : ℕ) : List ℕ :=
  (s.servers.filter fun sv => sv.listening && sv.workspaceId = workspaceId && sv.port = port).map
    (·.hostPort)

def answer (s : State) (workspaceId : Text) (port hostPort : ℕ) : State :=
  { s with answers := s.answers ++ [⟨hostPort, s.living workspaceId port⟩] }

/-- A call up to its first await. -/
def openPort (s : State) (workspaceId : Text) (port : ℕ) : State :=
  let s := { s with wanted := Function.update s.wanted workspaceId true }
  match (s.forward workspaceId port).bind fun i => s.servers[i]? with
  | some existing => s.answer workspaceId port existing.hostPort
  | none => { s with calls := s.calls ++ [⟨workspaceId, port, .resolving⟩] }

/-- The server of a call listens and is recorded. -/
def register (s : State) (c : Call) (hostPort : ℕ) : State :=
  let byPort := (s.forwards.get? c.workspaceId).getD .empty
  let s : State := { s with
    servers := s.servers ++ [⟨c.workspaceId, c.port, hostPort, true⟩]
    forwards := s.forwards.set c.workspaceId (byPort.set c.port s.servers.length) }
  s.answer c.workspaceId c.port hostPort

def close (servers : List Server) (i : ℕ) : List Server :=
  servers.modify i fun sv => { sv with listening := false }

def closeForWorkspace (s : State) (workspaceId : Text) : State :=
  let s := { s with wanted := Function.update s.wanted workspaceId false }
  match s.forwards.get? workspaceId with
  | none => s
  | some byPort =>
    { s with
      servers := (byPort.rows.map Prod.snd).foldl close s.servers
      forwards := s.forwards.delete workspaceId }

/-- The forwards that close when the monitors start and stop as they do. -/
def closing (s : State) : PortMonitor.Action → State
  | .reconcile running =>
    ((s.manager.startMissing running).stopping running).foldl closeForWorkspace s
  | .dispose =>
    { (s.forwards.rows.map Prod.fst).foldl closeForWorkspace s with wanted := fun _ => false }
  | _ => s

end State

section Service
variable (excludePorts : Text → List ℕ)

inductive Action
  | monitor (a : PortMonitor.Action)
  | openPort (workspaceId : Text) (port : ℕ)
  | closeForWorkspace (workspaceId : Text)
  /-- The endpoint of a call is resolved. -/
  | resolved (n : ℕ)
  | listening (n : ℕ) (hostPort : ℕ)
  /-- What a call waits for fails. -/
  | fail (n : ℕ)

def step (s : State) : Action → Option State
  | .monitor a =>
    (PortMonitor.step excludePorts s.manager a).map fun manager => { s.closing a with manager }
  | .openPort workspaceId port => some (s.openPort workspaceId port)
  | .closeForWorkspace workspaceId => some (s.closeForWorkspace workspaceId)
  | .resolved n =>
    (s.calls[n]?).bind fun c =>
      if c.stage = .resolving then
        some { s with calls := s.calls.set n { c with stage := .binding } }
      else none
  | .listening n hostPort =>
    (s.calls[n]?).bind fun c =>
      if c.stage = .binding then
        some (State.register { s with calls := s.calls.eraseIdx n } c hostPort)
      else none
  | .fail n => (s.calls[n]?).map fun _ => { s with calls := s.calls.eraseIdx n }

end Service

/-- A server begins to listen only if no other was recorded for its port meanwhile, and
its workspace was not closed since `openPort` was last called for it. -/
def Orderly (s : State) : Action → Prop
  | .listening n _ => ∀ c ∈ s.calls[n]?,
      s.forward c.workspaceId c.port = none ∧ s.wanted c.workspaceId = true
  | _ => True

instance (s : State) (a : Action) : Decidable (Orderly s a) :=
  match a with
  | .listening .. => inferInstanceAs (Decidable (∀ c ∈ _, _ ∧ _))
  | .monitor _ | .openPort .. | .closeForWorkspace _ | .resolved _ | .fail _ => isTrue trivial

/-- What is promised of the servers. -/
structure Accounted (s : State) : Prop where
  recorded : ∀ (i : ℕ) (sv : Server), s.servers[i]? = some sv → sv.listening = true →
    s.forward sv.workspaceId sv.port = some i
  unique : ∀ (i j : ℕ) (sv sv' : Server), s.servers[i]? = some sv → s.servers[j]? = some sv' →
    sv.listening = true → sv'.listening = true → sv.workspaceId = sv'.workspaceId →
    sv.port = sv'.port → i = j
  answered : ∀ a ∈ s.answers, a.living = [a.hostPort]
  wanted : ∀ sv ∈ s.servers, sv.listening = true → s.wanted sv.workspaceId = true

section Invariants
variable {excludePorts : Text → List ℕ} {s : State} {i : ℕ}

structure Sound (s : State) : Prop where
  recorded : ∀ (i : ℕ) (sv : Server), s.servers[i]? = some sv → sv.listening = true →
    s.forward sv.workspaceId sv.port = some i
  listening : ∀ ws port i, s.forward ws port = some i → ∃ sv, s.servers[i]? = some sv ∧
    sv.workspaceId = ws ∧ sv.port = port ∧ sv.listening = true
  answered : ∀ a ∈ s.answers, a.living = [a.hostPort]
  wanted : ∀ sv ∈ s.servers, sv.listening = true → s.wanted sv.workspaceId = true

/-- The server recorded for a port is the one that listens for it. -/
theorem Sound.living (h : Sound s) {ws : Text} {port : ℕ} {sv : Server}
    (hi : s.forward ws port = some i) (hsv : s.servers[i]? = some sv) :
    s.living ws port = [sv.hostPort] := by
  obtain ⟨sv', hsv', hws, hport, hlisten⟩ := h.listening ws port i hi
  cases hsv.symm.trans hsv'
  rw [State.living, filter_eq_singleton hsv (by simp [hws, hport, hlisten])]
  · rfl
  · intro k other hk hother
    simp only [Bool.and_eq_true, decide_eq_true_eq] at hother
    obtain ⟨⟨hl, hws'⟩, hport'⟩ := hother
    have hrec := h.recorded k other hk hl
    rw [hws', hport', hi] at hrec
    exact (Option.some.inj hrec).symm

theorem Sound.answer (h : Sound s) {ws : Text} {port : ℕ} {sv : Server}
    (hi : s.forward ws port = some i) (hsv : s.servers[i]? = some sv) :
    Sound (s.answer ws port sv.hostPort) where
  recorded := h.recorded
  listening := h.listening
  answered := fun a ha => by
    rcases List.mem_append.mp ha with ha | ha
    · exact h.answered a ha
    · rw [List.mem_singleton.mp ha]
      exact h.living hi hsv
  wanted := h.wanted

theorem Sound.want (h : Sound s) (ws : Text) :
    Sound { s with wanted := Function.update s.wanted ws true } where
  recorded := h.recorded
  listening := h.listening
  answered := h.answered
  wanted := fun sv hsv hl => by
    by_cases hws : sv.workspaceId = ws
    · rw [hws]
      exact Function.update_self _ _ _
    · exact (Function.update_of_ne hws _ _).trans (h.wanted sv hsv hl)

theorem Sound.openPort (h : Sound s) (ws : Text) (port : ℕ) : Sound (s.openPort ws port) := by
  have hwant := h.want ws
  unfold State.openPort
  cases hi : s.forward ws port with
  | none =>
    have hnone : ({ s with wanted := Function.update s.wanted ws true } : State).forward ws port =
        none := hi
    simp only [hnone, Option.bind_none]
    exact ⟨hwant.recorded, hwant.listening, hwant.answered, hwant.wanted⟩
  | some i =>
    obtain ⟨sv, hsv, -, -, -⟩ := h.listening ws port i hi
    have hsome : ({ s with wanted := Function.update s.wanted ws true } : State).forward ws port =
        some i := hi
    simp only [hsome, Option.bind_some, hsv]
    exact hwant.answer hsome hsv

theorem forward_register (s : State) (c : Call) (ws : Text) (port : ℕ) :
    ((s.forwards.set c.workspaceId (((s.forwards.get? c.workspaceId).getD .empty).set c.port
      s.servers.length)).get? ws).bind (fun byPort => byPort.get? port) =
      if ws = c.workspaceId ∧ port = c.port then some s.servers.length else s.forward ws port := by
  rw [JsMap.get?_set]
  by_cases hws : ws = c.workspaceId
  · rw [if_pos hws, Option.bind_some, JsMap.get?_set]
    by_cases hport : port = c.port
    · rw [if_pos hport, if_pos ⟨hws, hport⟩]
    · rw [if_neg hport, if_neg fun hboth => hport hboth.2, State.forward, hws]
      cases s.forwards.get? c.workspaceId <;> rfl
  · rw [if_neg hws, if_neg fun hboth => hws hboth.1, State.forward]

theorem Sound.register (h : Sound s) {c : Call} (hostPort : ℕ)
    (hnone : s.forward c.workspaceId c.port = none) (hwanted : s.wanted c.workspaceId = true) :
    Sound (s.register c hostPort) := by
  unfold State.register
  have hforward := forward_register s c
  suffices hregistered : Sound { s with
      servers := s.servers ++ [⟨c.workspaceId, c.port, hostPort, true⟩]
      forwards := s.forwards.set c.workspaceId
        (((s.forwards.get? c.workspaceId).getD .empty).set c.port s.servers.length) } from
    hregistered.answer ((hforward _ _).trans (if_pos ⟨rfl, rfl⟩)) List.getElem?_concat_length
  refine ⟨fun i sv hsv hl => ?_, fun ws port i hi => ?_, h.answered, fun sv hsv hl => ?_⟩
  · refine (hforward _ _).trans ?_
    rcases getElem?_concat_cases hsv with hold | ⟨rfl, rfl⟩
    · have hrec := h.recorded i sv hold hl
      rw [if_neg, hrec]
      rintro ⟨hws, hport⟩
      rw [hws, hport, hnone] at hrec
      cases hrec
    · exact if_pos ⟨rfl, rfl⟩
  · have hi' := (hforward ws port).symm.trans hi
    split_ifs at hi' with hsame
    · cases hi'
      exact ⟨_, List.getElem?_concat_length, hsame.1.symm, hsame.2.symm, rfl⟩
    · obtain ⟨sv, hsv, hrest⟩ := h.listening ws port i hi'
      exact ⟨sv, getElem?_append_of_some hsv _, hrest⟩
  · rcases List.mem_append.mp hsv with hsv | hsv
    · exact h.wanted sv hsv hl
    · rw [List.mem_singleton.mp hsv]
      exact hwanted

theorem getElem?_closeAll (servers : List Server) (is : List ℕ) (j : ℕ) :
    (is.foldl State.close servers)[j]? = (servers[j]?).map fun sv =>
      if j ∈ is then { sv with listening := false } else sv := by
  induction is generalizing servers with
  | nil => simp
  | cons i is ih =>
    rw [List.foldl_cons, ih, State.close, List.getElem?_modify, Option.map_eq_map, Option.map_map]
    congr 1
    funext sv
    by_cases hi : i = j
    · by_cases his : j ∈ is <;> simp [hi, his]
    · have hji : j ≠ i := fun hsame => hi hsame.symm
      by_cases his : j ∈ is <;> simp [hi, hji, his]

theorem forward_delete (s : State) (ws ws' : Text) (port : ℕ) :
    (((s.forwards.delete ws).get? ws').bind fun byPort => byPort.get? port) =
      if ws' = ws then none else s.forward ws' port := by
  rw [JsMap.get?_delete]
  split_ifs <;> rfl

theorem closeForWorkspace_wanted (s : State) (ws : Text) :
    (s.closeForWorkspace ws).wanted = Function.update s.wanted ws false := by
  unfold State.closeForWorkspace
  dsimp only
  split <;> rfl

theorem closeForWorkspace_forward (s : State) (ws ws' : Text) (port : ℕ) :
    (s.closeForWorkspace ws).forward ws' port = if ws' = ws then none else s.forward ws' port := by
  unfold State.closeForWorkspace
  dsimp only
  split
  · next hby =>
    split_ifs with hws
    · subst hws
      simp [State.forward, hby]
    · rfl
  · exact forward_delete s ws ws' port

/-- The servers of the workspace that listened do so no longer, and no others change. -/
theorem Sound.servers_of_close (h : Sound s) (ws : Text) {sv : Server} :
    (s.closeForWorkspace ws).servers[i]? = some sv ∧ sv.listening = true ↔
      s.servers[i]? = some sv ∧ sv.listening = true ∧ sv.workspaceId ≠ ws := by
  have hforward : s.servers[i]? = some sv → sv.listening = true → sv.workspaceId = ws →
      ∃ byPort, s.forwards.get? ws = some byPort ∧ byPort.get? sv.port = some i := by
    intro hsv hl hws
    have hrec := h.recorded i sv hsv hl
    rw [hws] at hrec
    exact Option.bind_eq_some_iff.mp hrec
  unfold State.closeForWorkspace
  dsimp only
  split
  · next hby =>
    refine ⟨fun ⟨hsv, hl⟩ => ⟨hsv, hl, fun hws => ?_⟩, fun ⟨hsv, hl, _⟩ => ⟨hsv, hl⟩⟩
    obtain ⟨byPort, hby', -⟩ := hforward hsv hl hws
    cases hby.symm.trans hby'
  · next byPort hby =>
    rw [getElem?_closeAll]
    have hclosed : i ∈ byPort.rows.map Prod.snd → ∀ sv, s.servers[i]? = some sv →
        sv.workspaceId = ws := by
      intro hi sv hsv
      obtain ⟨e, he, rfl⟩ := List.mem_map.mp hi
      have hrec : s.forward ws e.1 = some e.2 := by
        rw [State.forward, hby]
        exact JsMap.get?_eq_some.mpr he
      obtain ⟨sv', hsv', hws, -⟩ := h.listening ws e.1 e.2 hrec
      cases hsv.symm.trans hsv'
      exact hws
    constructor
    · rintro ⟨hsv, hl⟩
      obtain ⟨old, hold, hnew⟩ := Option.map_eq_some_iff.mp hsv
      split_ifs at hnew with hi
      · cases hnew
        cases hl
      · cases hnew
        refine ⟨hold, hl, fun hws => hi ?_⟩
        obtain ⟨byPort', hby', hport⟩ := hforward hold hl hws
        cases hby.symm.trans hby'
        exact List.mem_map.mpr ⟨(sv.port, i), JsMap.get?_eq_some.mp hport, rfl⟩
    · rintro ⟨hsv, hl, hws⟩
      refine ⟨?_, hl⟩
      rw [hsv, Option.map_some, if_neg fun hi => hws (hclosed hi sv hsv)]

theorem closeForWorkspace_answers (s : State) (ws : Text) :
    (s.closeForWorkspace ws).answers = s.answers := by
  unfold State.closeForWorkspace
  dsimp only
  split <;> rfl

theorem Sound.closeForWorkspace (h : Sound s) (ws : Text) : Sound (s.closeForWorkspace ws) where
  recorded := fun i sv hsv hl => by
    obtain ⟨hold, -, hws⟩ := (h.servers_of_close ws).mp ⟨hsv, hl⟩
    rw [closeForWorkspace_forward, if_neg hws]
    exact h.recorded i sv hold hl
  listening := fun ws' port i hi => by
    rw [closeForWorkspace_forward] at hi
    split_ifs at hi with hws
    obtain ⟨sv, hsv, hsame, hport, hl⟩ := h.listening ws' port i hi
    obtain ⟨hnew, -⟩ := (h.servers_of_close ws).mpr ⟨hsv, hl, hsame ▸ hws⟩
    exact ⟨sv, hnew, hsame, hport, hl⟩
  answered := by
    rw [closeForWorkspace_answers]
    exact h.answered
  wanted := fun sv hsv hl => by
    obtain ⟨i, hi⟩ := List.mem_iff_getElem?.mp hsv
    obtain ⟨hold, -, hws⟩ := (h.servers_of_close ws).mp ⟨hi, hl⟩
    rw [closeForWorkspace_wanted, Function.update_of_ne hws]
    exact h.wanted sv (List.mem_of_getElem? hold) hl

theorem Sound.closeAll (h : Sound s) (ids : List Text) :
    Sound (ids.foldl State.closeForWorkspace s) := by
  induction ids generalizing s with
  | nil => exact h
  | cons id ids ih => exact ih (h.closeForWorkspace id)

theorem closeAll_forward (ids : List Text) (s : State) (ws : Text) (port : ℕ) :
    (ids.foldl State.closeForWorkspace s).forward ws port =
      if ws ∈ ids then none else s.forward ws port := by
  induction ids generalizing s with
  | nil => simp
  | cons id ids ih =>
    rw [List.foldl_cons, ih, closeForWorkspace_forward]
    by_cases hid : ws = id <;> by_cases hids : ws ∈ ids <;> simp [hid, hids]

theorem Sound.closing (h : Sound s) (a : PortMonitor.Action) : Sound (s.closing a) := by
  cases a with
  | reconcile running => exact h.closeAll _
  | dispose =>
    have hclosed := h.closeAll (s.forwards.rows.map Prod.fst)
    refine ⟨hclosed.recorded, hclosed.listening, hclosed.answered, fun sv hsv hl => ?_⟩
    -- the keys are those of all forwards, so no server listens any more
    obtain ⟨i, hi⟩ := List.mem_iff_getElem?.mp hsv
    have hrec := hclosed.recorded i sv hi hl
    rw [closeAll_forward] at hrec
    split_ifs at hrec with hkey
    obtain ⟨byPort, hby, -⟩ := Option.bind_eq_some_iff.mp hrec
    exact absurd (List.mem_map.mpr ⟨_, JsMap.get?_eq_some.mp hby, rfl⟩) hkey
  | tick workspaceId => exact h
  | proceed i => exact h
  | list i details now => exact h
  | probe i ok now => exact h
  | fail i => exact h

theorem Sound.step (h : Sound s) {t : State} {a : Action} (ho : Orderly s a)
    (hs : step excludePorts s a = some t) : Sound t := by
  cases a with
  | monitor a =>
    obtain ⟨manager, -, rfl⟩ := Option.map_eq_some_iff.mp hs
    have hclosing := h.closing a
    exact ⟨hclosing.recorded, hclosing.listening, hclosing.answered, hclosing.wanted⟩
  | openPort ws port =>
    cases hs
    exact h.openPort ws port
  | closeForWorkspace ws =>
    cases hs
    exact h.closeForWorkspace ws
  | resolved n =>
    obtain ⟨c, -, hs⟩ := Option.bind_eq_some_iff.mp hs
    obtain ⟨-, hs⟩ := Option.ite_none_right_eq_some.mp hs
    cases hs
    exact ⟨h.recorded, h.listening, h.answered, h.wanted⟩
  | listening n hostPort =>
    obtain ⟨c, hc, hs⟩ := Option.bind_eq_some_iff.mp hs
    obtain ⟨-, hs⟩ := Option.ite_none_right_eq_some.mp hs
    cases hs
    obtain ⟨hnone, hwanted⟩ := ho c hc
    have hcalls : Sound { s with calls := s.calls.eraseIdx n } :=
      ⟨h.recorded, h.listening, h.answered, h.wanted⟩
    exact hcalls.register hostPort hnone hwanted
  | fail n =>
    obtain ⟨c, -, rfl⟩ := Option.map_eq_some_iff.mp hs
    exact ⟨h.recorded, h.listening, h.answered, h.wanted⟩

theorem Sound.initial : Sound {} where
  recorded := fun i sv hsv => by simp at hsv
  listening := fun ws port i hi => by simp [State.forward] at hi
  answered := fun a ha => absurd ha List.not_mem_nil
  wanted := fun sv hsv => absurd hsv List.not_mem_nil

theorem Sound.accounted (h : Sound s) : Accounted s where
  recorded := h.recorded
  unique := fun i j sv sv' hi hj hl hl' hws hport => by
    have hrec := h.recorded i sv hi hl
    rw [hws, hport, h.recorded j sv' hj hl'] at hrec
    exact (Option.some.inj hrec).symm
  answered := h.answered
  wanted := h.wanted

end Invariants

/-- In an orderly run each server that listens is the one recorded for its port, every answer gave
its host port, and none listens for a workspace that was closed and not opened again. -/
theorem forwards_accounted {excludePorts : Text → List ℕ} {s : State} {as : List Action}
    (hr : run (step excludePorts) {} as = some s)
    (ho : Along (step excludePorts) Orderly {} as) : Accounted s :=
  (run_invariant_along (fun _ _ _ h ho hs => Sound.step h ho hs) Sound.initial hr ho).accounted

/-- A forward that is opened twice, closed with its workspace, and opened again. -/
def reopened : List Action :=
  [.monitor (.reconcile [js "w"]), .openPort (js "w") 3000, .resolved 0, .listening 0 40000,
    .openPort (js "w") 3000, .monitor (.reconcile []), .openPort (js "w") 3000, .resolved 0,
    .listening 0 40001]

theorem reopened_accounted : ∃ s, run (step fun _ => []) {} reopened = some s ∧
    s.servers.map (fun sv => sv.listening) = [false, true] ∧
    s.answers.map (fun a => a.hostPort) = [40000, 40000, 40001] ∧ Accounted s := by
  have hsome : (run (step fun _ => []) {} reopened).any (fun s =>
      decide (s.servers.map (fun sv => sv.listening) = [false, true] ∧
        s.answers.map (fun a => a.hostPort) = [40000, 40000, 40001])) = true := by
    decide +kernel
  obtain ⟨s, hr, hs⟩ := (Option.any_eq_true _ _).mp hsome
  obtain ⟨hservers, hanswers⟩ := of_decide_eq_true hs
  exact ⟨s, hr, hservers, hanswers, forwards_accounted hr (by decide +kernel)⟩

/-- A server listens that is not the one recorded for its port. -/
def unrecorded (s : State) : Bool :=
  (s.servers[0]?).any fun sv => sv.listening && decide (s.forward sv.workspaceId sv.port ≠ some 0)

/-- A server listens for a workspace that was closed and not opened again. -/
def unwanted (s : State) : Bool :=
  s.servers.any fun sv => sv.listening && !s.wanted sv.workspaceId

theorem not_accounted_of_unrecorded {s : State} (h : unrecorded s = true) : ¬Accounted s := by
  intro hacc
  obtain ⟨sv, hsv, hbad⟩ := (Option.any_eq_true _ _).mp h
  obtain ⟨hl, hne⟩ := Bool.and_eq_true_iff.mp hbad
  exact of_decide_eq_true hne (hacc.recorded 0 sv hsv hl)

theorem not_accounted_of_unwanted {s : State} (h : unwanted s = true) : ¬Accounted s := by
  intro hacc
  obtain ⟨sv, hsv, hbad⟩ := List.any_eq_true.mp h
  obtain ⟨hl, hnot⟩ := Bool.and_eq_true_iff.mp hbad
  rw [hacc.wanted sv hsv hl] at hnot
  cases hnot

/-- Two calls at once leave a server that nothing records; a workspace that is closed while a call
is under way gets its server all the same, also when everything is disposed of. -/
theorem forwards_leak :
    (∃ s, run (step fun _ => []) {} [.openPort (js "w") 3000, .openPort (js "w") 3000,
        .resolved 0, .resolved 1, .listening 0 40000, .listening 0 40001] = some s ∧
      unrecorded s = true ∧ ¬Accounted s) ∧
    (∃ s, run (step fun _ => []) {} [.openPort (js "w") 3000, .resolved 0,
        .closeForWorkspace (js "w"), .listening 0 40000] = some s ∧
      unwanted s = true ∧ ¬Accounted s) ∧
    ∃ s, run (step fun _ => []) {} [.openPort (js "w") 3000, .resolved 0,
        .monitor .dispose, .listening 0 40000] = some s ∧
      unwanted s = true ∧ ¬Accounted s := by
  refine ⟨?_, ?_, ?_⟩
  · have hsome : (run (step fun _ => []) {} [.openPort (js "w") 3000, .openPort (js "w") 3000,
        .resolved 0, .resolved 1, .listening 0 40000, .listening 0 40001]).any unrecorded =
          true := by decide +kernel
    obtain ⟨s, hr, hs⟩ := (Option.any_eq_true _ _).mp hsome
    exact ⟨s, hr, hs, not_accounted_of_unrecorded hs⟩
  · have hsome : (run (step fun _ => []) {} [.openPort (js "w") 3000, .resolved 0,
        .closeForWorkspace (js "w"), .listening 0 40000]).any unwanted = true := by
      decide +kernel
    obtain ⟨s, hr, hs⟩ := (Option.any_eq_true _ _).mp hsome
    exact ⟨s, hr, hs, not_accounted_of_unwanted hs⟩
  · have hsome : (run (step fun _ => []) {} [.openPort (js "w") 3000, .resolved 0,
        .monitor .dispose, .listening 0 40000]).any unwanted = true := by
      decide +kernel
    obtain ⟨s, hr, hs⟩ := (Option.any_eq_true _ _).mp hsome
    exact ⟨s, hr, hs, not_accounted_of_unwanted hs⟩

end ClaudeFleet.PortForward
