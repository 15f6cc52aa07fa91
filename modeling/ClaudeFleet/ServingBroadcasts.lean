import ClaudeFleet.Numbered
import ClaudeFleet.PortMonitor

/-! What was broadcast last and what a workspace serves: they agree in the runs in which no probe
outlives its monitor or fails after its poll has changed the map, and no monitor stops with an
emptied map that is yet to be broadcast. -/
namespace ClaudeFleet.PortMonitor
open Js Transition

/-- A poll has changed the map and not yet broadcast it. -/
def Monitor.unsettled (m : Monitor) : Bool :=
  match m.poll with
  | some (.probing q) => q.changed
  | _ => false

def Monitor.emptied (m : Monitor) : Bool := m.unsettled && m.serving.size == 0

/-- A probe succeeds only while its monitor runs, fails to be made only before its poll has changed
the map, and no monitor stops with a map that its poll has emptied. -/
def Orderly (s : State) : Action → Prop
  | .reconcile running =>
    ∀ e ∈ s.monitors.rows, e.1 ∉ running → ∀ m ∈ s.all[e.2]?, m.emptied = false
  | .dispose => ∀ e ∈ s.monitors.rows, ∀ m ∈ s.all[e.2]?, m.emptied = false
  | .probe i ok _ => ok = true → ∀ m ∈ s.all[i]?, s.isCurrent i m = true
  | .fail i => ∀ m ∈ s.all[i]?, m.unsettled = true → s.isCurrent i m = false
  | _ => True

/-- What a workspace serves now. -/
def State.serving (s : State) (workspaceId : Text) : List ServingPort :=
  ((s.monitors.get? workspaceId).bind fun i => s.all[i]?).elim [] servingSorted

/-- No monitor of the workspace, running or stopped, is polling. -/
def Idle (s : State) (workspaceId : Text) : Prop :=
  ∀ m ∈ s.all, m.workspaceId = workspaceId → m.poll = none

/-- What is promised of the snapshots and of the detections. -/
structure Faithful (s : State) : Prop where
  agree : ∀ workspaceId, Idle s workspaceId → s.broadcast workspaceId = s.serving workspaceId
  snapshot : ∀ workspaceId ports, (workspaceId, ports) ∈ s.snapshot → Idle s workspaceId →
    s.broadcast workspaceId = ports
  confirmed : ∀ m ∈ s.all, ∀ port, m.serving.has port = true → port ∈ m.listed ∧ port ∈ m.passed
  detectedOnce : (s.detected.map fun d => (d.monitor, d.port, d.appearance)).Nodup
  detectedRunning : ∀ d ∈ s.detected, d.current = true

section Invariants
variable {excludePorts : Text → List ℕ} {s : State} {m m' : Monitor} {i : ℕ} {now : ℤ}

/-- What holds of a monitor by itself. -/
structure Monitor.Ok (excludePorts : Text → List ℕ) (m : Monitor) : Prop where
  confirmed : ∀ port, m.serving.has port = true → port ∈ m.listed ∧ port ∈ m.passed
  nodup : ∀ q, m.poll = some (.probing q) → (q.port :: q.rest).Nodup
  queued : ∀ q, m.poll = some (.probing q) → ∀ port ∈ q.port :: q.rest,
    port ∈ m.listed ∧ q.next.has port = true ∧ port ∉ excludePorts m.workspaceId

/-- The monitor will not take the port for a new one. -/
def Monitor.Tracks (m : Monitor) (port : ℕ) : Prop :=
  match m.poll with
  | some (.probing q) =>
    q.next.has port = true ∧ port ∉ q.port :: q.rest ∧
      (q.changed = false → m.seen.has port = true)
  | _ => m.seen.has port = true

structure Base (excludePorts : Text → List ℕ) (all : List Monitor) (monitors : JsMap Text ℕ)
    (broadcast : Text → List ServingPort) (detected : List Detection) : Prop where
  owner : ∀ ws i, monitors.get? ws = some i → ∃ m, all[i]? = some m ∧ m.workspaceId = ws
  ok : ∀ (i : ℕ) (m : Monitor), all[i]? = some m → m.Ok excludePorts
  agree : ∀ ws i m, monitors.get? ws = some i → all[i]? = some m → m.unsettled = false →
    broadcast ws = servingSorted m
  cleared : ∀ ws, monitors.get? ws = none → broadcast ws = []
  known : ∀ d ∈ detected, d.current = true ∧ ∃ m, all[d.monitor]? = some m ∧
    d.appearance ≤ m.appearances d.port ∧ d.port ∉ excludePorts m.workspaceId
  once : (detected.map fun d => (d.monitor, d.port, d.appearance)).Nodup

/-- The ports that the monitor reported in their present appearance are not new to it. -/
def TrackedAt (all : List Monitor) (monitors : JsMap Text ℕ) (detected : List Detection) (i : ℕ) :
    Prop :=
  ∀ ws m, monitors.get? ws = some i → all[i]? = some m → ∀ d ∈ detected, d.monitor = i →
    d.appearance = m.appearances d.port → d.port ∈ m.listed → m.Tracks d.port

structure Sound (excludePorts : Text → List ℕ) (s : State) : Prop where
  base : Base excludePorts s.all s.monitors s.broadcast s.detected
  tracked : ∀ i, TrackedAt s.all s.monitors s.detected i

theorem Base.set {all : List Monitor} {monitors : JsMap Text ℕ}
    {broadcast b : Text → List ServingPort} {detected : List Detection}
    (h : Base excludePorts all monitors broadcast detected) (hm : all[i]? = some m)
    (hws : m'.workspaceId = m.workspaceId) (hok : m'.Ok excludePorts)
    (happ : ∀ p, m.appearances p ≤ m'.appearances p)
    (hb : ∀ ws, b ws = broadcast ws ∨ ws = m.workspaceId ∧ monitors.get? ws = some i)
    (hagree : monitors.get? m.workspaceId = some i → m'.unsettled = false →
      b m.workspaceId = servingSorted m') :
    Base excludePorts (all.set i m') monitors b detected where
  owner := fun ws j hj => by
    obtain ⟨n, hn, hnws⟩ := h.owner ws j hj
    by_cases hi : i = j
    · subst hi
      cases hm.symm.trans hn
      exact ⟨m', getElem?_set_of_some hm m', hws.trans hnws⟩
    · exact ⟨n, by rwa [List.getElem?_set_ne hi], hnws⟩
  ok := fun j n hn => by
    rcases getElem?_set_cases hn with ⟨-, rfl⟩ | ⟨-, hold⟩
    · exact hok
    · exact h.ok j n hold
  agree := fun ws j n hj hn hsettled => by
    obtain ⟨o, ho, how⟩ := h.owner ws j hj
    rcases getElem?_set_cases hn with ⟨rfl, rfl⟩ | ⟨hne, hold⟩
    · cases hm.symm.trans ho
      rw [← how] at hj ⊢
      exact hagree hj hsettled
    · rcases hb ws with hsame | ⟨-, hcur⟩
      · rw [hsame]
        exact h.agree ws j n hj hold hsettled
      · exact absurd (Option.some.inj (hcur.symm.trans hj)) hne
  cleared := fun ws hnone => by
    rcases hb ws with hsame | ⟨-, hcur⟩
    · rw [hsame]
      exact h.cleared ws hnone
    · rw [hnone] at hcur
      cases hcur
  known := fun d hd => by
    obtain ⟨hcur, n, hn, hle, hnot⟩ := h.known d hd
    refine ⟨hcur, ?_⟩
    by_cases hi : i = d.monitor
    · rw [← hi] at hn ⊢
      cases hm.symm.trans hn
      exact ⟨m', getElem?_set_of_some hm m', hle.trans (happ _), hws ▸ hnot⟩
    · exact ⟨n, by rwa [List.getElem?_set_ne hi], hle, hnot⟩
  once := h.once

theorem TrackedAt.set_of_ne {all : List Monitor} {monitors : JsMap Text ℕ}
    {detected : List Detection} {j : ℕ} (h : TrackedAt all monitors detected j) (hne : i ≠ j) :
    TrackedAt (all.set i m') monitors detected j := by
  intro ws n hj hn
  rw [List.getElem?_set_ne hne] at hn
  exact h ws n hj hn

theorem trackedAt_set {all : List Monitor} {monitors : JsMap Text ℕ} {detected : List Detection}
    (howner : ∀ ws, monitors.get? ws = some i → ws = m'.workspaceId)
    (hm : all[i]? = some m)
    (htrack : monitors.get? m'.workspaceId = some i → ∀ d ∈ detected, d.monitor = i →
      d.appearance = m'.appearances d.port → d.port ∈ m'.listed → m'.Tracks d.port) :
    TrackedAt (all.set i m') monitors detected i := by
  intro ws n hi hn
  cases (getElem?_set_of_some hm m').symm.trans hn
  exact htrack (howner ws hi ▸ hi)

/-- One monitor changes, as far as the others can see. -/
theorem Sound.put (h : Sound excludePorts s) (hm : s.all[i]? = some m)
    (hws : m'.workspaceId = m.workspaceId) (hok : m'.Ok excludePorts)
    (happ : ∀ p, m.appearances p ≤ m'.appearances p)
    (hagree : s.monitors.get? m.workspaceId = some i → m'.unsettled = false →
      s.broadcast m.workspaceId = servingSorted m')
    (htrack : s.monitors.get? m.workspaceId = some i → ∀ d ∈ s.detected, d.monitor = i →
      d.appearance = m'.appearances d.port → d.port ∈ m'.listed → m'.Tracks d.port) :
    Sound excludePorts (s.put i m') where
  base := h.base.set hm hws hok happ (fun _ => .inl rfl) hagree
  tracked := fun j => by
    by_cases hi : i = j
    · subst hi
      refine trackedAt_set (fun ws hcur => ?_) hm (hws ▸ htrack)
      obtain ⟨n, hn, rfl⟩ := h.base.owner ws i hcur
      cases hm.symm.trans hn
      exact hws.symm
    · exact (h.tracked j).set_of_ne hi

theorem isCurrent_iff :
    s.isCurrent i m = true ↔ s.monitors.get? m.workspaceId = some i := beq_iff_eq

theorem Base.owner_of {all : List Monitor} {monitors : JsMap Text ℕ}
    {broadcast : Text → List ServingPort} {detected : List Detection}
    (h : Base excludePorts all monitors broadcast detected) (hm : all[i]? = some m) {ws : Text}
    (hi : monitors.get? ws = some i) : ws = m.workspaceId := by
  obtain ⟨n, hn, rfl⟩ := h.owner ws i hi
  cases hm.symm.trans hn
  rfl

/-- A poll goes on to its next probe, or ends: what it has found out by then is `m'`. -/
theorem Sound.resume {byPort : JsMap ℕ PortDetail} {next : PortSet} {changed : Bool}
    {queue : List ℕ} (h : Base excludePorts s.all s.monitors s.broadcast s.detected)
    (hothers : ∀ j, i ≠ j → TrackedAt s.all s.monitors s.detected j) (hm : s.all[i]? = some m)
    (hws : m'.workspaceId = m.workspaceId) (happ : ∀ p, m.appearances p ≤ m'.appearances p)
    (hconfirmed : ∀ port, m'.serving.has port = true → port ∈ m'.listed ∧ port ∈ m'.passed)
    (hnodup : queue.Nodup) (hqueued : ∀ port ∈ queue,
      port ∈ m'.listed ∧ next.has port = true ∧ port ∉ excludePorts m.workspaceId)
    (hagree : s.monitors.get? m.workspaceId = some i → changed = false →
      s.broadcast m.workspaceId = servingSorted m')
    (htrack : s.monitors.get? m.workspaceId = some i → ∀ d ∈ s.detected, d.monitor = i →
      d.appearance = m'.appearances d.port → d.port ∈ m'.listed →
        next.has d.port = true ∧ d.port ∉ queue ∧ (changed = false → m'.seen.has d.port = true)) :
    Sound excludePorts (s.resume i m' byPort next changed queue) := by
  have hcase : ∀ n : Monitor, n.workspaceId = m.workspaceId →
      (s.monitors.get? m.workspaceId = some i → ∀ d ∈ s.detected, d.monitor = i →
        d.appearance = n.appearances d.port → d.port ∈ n.listed → n.Tracks d.port) →
      ∀ j, TrackedAt (s.all.set i n) s.monitors s.detected j := by
    intro n hn htrack j
    by_cases hi : i = j
    · subst hi
      exact trackedAt_set (fun ws hcur => (h.owner_of hm hcur).trans hn.symm) hm (hn ▸ htrack)
    · exact (hothers j hi).set_of_ne hi
  cases queue with
  | cons port rest =>
    refine ⟨h.set hm hws ⟨hconfirmed, ?_, ?_⟩ happ (fun _ => .inl rfl) hagree, hcase _ hws htrack⟩
    · rintro q hq
      cases hq
      exact hnodup
    · rintro q hq
      cases hq
      rw [hws]
      exact hqueued
  | nil =>
    rw [State.resume]
    have hfirst : s.monitors.get? m.workspaceId = some i → ∀ d ∈ s.detected, d.monitor = i →
        d.appearance = m'.appearances d.port → d.port ∈ m'.listed → next.has d.port = true :=
      fun hi d hd hdi happ hlisted => (htrack hi d hd hdi happ hlisted).1
    split_ifs with hcur hchanged
    · rw [isCurrent_iff, hws] at hcur
      refine ⟨h.set hm hws ⟨hconfirmed, nofun, nofun⟩ happ (fun ws => ?_) (fun _ _ => ?_),
        hcase _ hws hfirst⟩
      · by_cases hsame : ws = m.workspaceId
        · exact .inr ⟨hsame, hsame ▸ hcur⟩
        · exact .inl (Function.update_of_ne (hws ▸ hsame) _ _)
      · rw [← hws]
        exact Function.update_self _ _ _
    · exact ⟨h.set hm hws ⟨hconfirmed, nofun, nofun⟩ happ (fun _ => .inl rfl)
        fun hi _ => hagree hi (by simpa using hchanged), hcase _ hws hfirst⟩
    · rw [isCurrent_iff, hws] at hcur
      exact ⟨h.set hm hws ⟨hconfirmed, nofun, nofun⟩ happ (fun _ => .inl rfl)
        fun hi _ => absurd hi hcur, hcase _ hws fun hi => absurd hi hcur⟩

theorem relist_unchanged {serving : JsMap ℕ ServingPort} {byPort : JsMap ℕ PortDetail}
    (h : (relist serving byPort now).2 = false) : (relist serving byPort now).1 = serving := by
  simp only [relist, Bool.or_eq_false_iff, List.any_eq_false, Bool.not_eq_true] at h
  obtain ⟨hkept, hsame⟩ := h
  have hall : serving.keepKeys byPort.has = serving :=
    JsMap.keepKeys_eq_self fun e he => by simpa using hkept e he
  rw [hall] at hsame
  simp only [relist, hall]
  refine JsMap.mapValues_eq_self fun e he => ?_
  have hdiffers := hsame e he
  cases hd : byPort.get? e.1 with
  | none => rfl
  | some d =>
    rw [hd] at hdiffers
    simp only [Option.any_some, PortDetail.differs, Bool.or_eq_false_iff, decide_eq_false_iff_not,
      not_not] at hdiffers
    simp [PortDetail.refresh, hdiffers.1, hdiffers.2]

theorem has_relist {serving : JsMap ℕ ServingPort} {byPort : JsMap ℕ PortDetail} (port : ℕ) :
    (relist serving byPort now).1.has port = (byPort.has port && serving.has port) := by
  rw [relist, JsMap.has_mapValues, JsMap.has_keepKeys]

theorem has_byPort {details : List PortDetail} {port : ℕ} :
    (JsMap.ofEntries (details.map fun d => (d.port, d))).has port = true ↔
      port ∈ details.map (·.port) := by
  rw [JsMap.has_ofEntries, List.map_map]
  rfl

theorem PortSet.mem_toList {s : PortSet} {port : ℕ} : port ∈ s.toList ↔ s.has port = true := by
  rw [PortSet.toList, JsMap.has_iff]
  constructor
  · intro h
    obtain ⟨e, he, rfl⟩ := List.mem_map.mp h
    exact ⟨e.2, JsMap.get?_eq_some.mpr he⟩
  · rintro ⟨v, hv⟩
    exact List.mem_map.mpr ⟨(port, v), JsMap.get?_eq_some.mp hv, rfl⟩

theorem PortSet.has_ofList {ports : List ℕ} {port : ℕ} :
    (PortSet.ofList ports).has port = true ↔ port ∈ ports := by
  rw [PortSet.ofList, JsMap.has_ofEntries, List.map_map]
  simp

theorem diffPorts_spec (prev : PortSet) (current exclude : List ℕ) :
    (diffPorts prev current exclude).1.Nodup ∧
    (∀ port, port ∈ (diffPorts prev current exclude).1 ↔
      (diffPorts prev current exclude).2.has port = true ∧ prev.has port = false) ∧
    ∀ port, (diffPorts prev current exclude).2.has port = true ↔
      port ∈ current ∧ port ∉ exclude := by
  refine ⟨(Table.nodup _).sublist List.filter_sublist, fun port => ?_, fun port => ?_⟩
  · simp [diffPorts, PortSet.mem_toList]
  · simp [diffPorts, PortSet.has_ofList]

theorem unsettled_of_list (h : m.poll = some .listing) : m.unsettled = false := by
  simp [Monitor.unsettled, h]

theorem Sound.onList (h : Sound excludePorts s) (hm : s.all[i]? = some m)
    (hpoll : m.poll = some .listing) (details : List PortDetail) :
    Sound excludePorts (onList excludePorts s i m details now) := by
  unfold PortMonitor.onList
  obtain ⟨hnodup, hnewly, hnext⟩ :=
    diffPorts_spec m.seen (details.map (·.port)) (excludePorts m.workspaceId)
  generalize diffPorts m.seen (details.map (·.port)) (excludePorts m.workspaceId) = diff at *
  obtain ⟨newly, next⟩ := diff
  have hok := h.base.ok i m hm
  have hmono : ∀ port, m.appearances port ≤ if port ∈ details.map (·.port) ∧ port ∉ m.listed
      then m.appearances port + 1 else m.appearances port := by
    intro port
    split_ifs <;> omega
  dsimp only
  refine Sound.resume h.base (fun j _ => h.tracked j) hm rfl hmono ?_ hnodup ?_ ?_ ?_
  · intro port hserving
    rw [Monitor.list, has_relist, Bool.and_eq_true, has_byPort] at hserving
    exact ⟨hserving.1, List.mem_filter.mpr
      ⟨(hok.confirmed port hserving.2).2, decide_eq_true hserving.1⟩⟩
  · intro port hport
    have hin := ((hnewly port).mp hport).1
    obtain ⟨hlisted, hnot⟩ := (hnext port).mp hin
    exact ⟨hlisted, hin, hnot⟩
  · intro hcur hsame
    rw [h.base.agree _ i m hcur hm (unsettled_of_list hpoll), servingSorted, servingSorted,
      Monitor.list, relist_unchanged hsame]
  · intro hcur d hd hdi happ hlisted
    have hin : d.port ∈ details.map (·.port) := hlisted
    obtain ⟨-, n, hn, hle, hnot⟩ := h.base.known d hd
    rw [hdi, hm] at hn
    cases hn
    -- a port that has just appeared was not reported in this appearance
    have hbefore : d.port ∈ m.listed := by
      by_contra hnew
      have hmore : d.appearance = m.appearances d.port + 1 := happ.trans (if_pos ⟨hin, hnew⟩)
      omega
    have hold : d.appearance = m.appearances d.port :=
      happ.trans (if_neg fun hnew => hnew.2 hbefore)
    have htracks := h.tracked i _ m hcur hm d hd hdi hold hbefore
    rw [Monitor.Tracks, hpoll] at htracks
    refine ⟨(hnext d.port).mpr ⟨hin, hnot⟩, fun hport => ?_, fun _ => htracks⟩
    exact Bool.false_ne_true (((hnewly d.port).mp hport).2.symm.trans htracks)

theorem Sound.onProbe (h : Sound excludePorts s) (hm : s.all[i]? = some m) {q : Probing}
    (hpoll : m.poll = some (.probing q)) {ok : Bool}
    (hcurrent : ok = true → s.isCurrent i m = true) :
    Sound excludePorts (onProbe s i m q ok now) := by
  have hok := h.base.ok i m hm
  have hnodup := hok.nodup q hpoll
  have hqueued := hok.queued q hpoll
  obtain ⟨hhead, hrest⟩ := List.nodup_cons.mp hnodup
  have htracks : s.monitors.get? m.workspaceId = some i → ∀ d ∈ s.detected, d.monitor = i →
      d.appearance = m.appearances d.port → d.port ∈ m.listed →
        q.next.has d.port = true ∧ d.port ∉ q.port :: q.rest ∧
          (q.changed = false → m.seen.has d.port = true) := by
    intro hi d hd hdi happ hlisted
    have htrack := h.tracked i _ m hi hm d hd hdi happ hlisted
    rwa [Monitor.Tracks, hpoll] at htrack
  obtain ⟨hlisted, hin, hnot⟩ := hqueued q.port List.mem_cons_self
  unfold PortMonitor.onProbe
  cases ok with
  | false =>
    rw [if_neg Bool.false_ne_true]
    have hkeeps : ∀ port, port ≠ q.port → q.next.has port = true → JsMap.has
        (if (m.probeFails.get? q.port).getD 0 + 1 < maxProbeAttempts
          then q.next.delete q.port else q.next) port = true := by
      intro port hne hport
      split_ifs
      · rw [JsMap.has_delete, hport]
        simpa using hne
      · exact hport
    dsimp only
    refine Sound.resume h.base (fun j _ => h.tracked j) hm rfl (fun _ => le_rfl) hok.confirmed
      hrest ?_ ?_ ?_
    · intro port hport
      obtain ⟨hl, hn, hx⟩ := hqueued port (List.mem_cons_of_mem _ hport)
      exact ⟨hl, hkeeps port (fun hsame => hhead (hsame ▸ hport)) hn, hx⟩
    · intro hi hchanged
      exact h.base.agree _ i m hi hm (by simpa [Monitor.unsettled, hpoll] using hchanged)
    · intro hi d hd hdi happ hl
      obtain ⟨hn, hfar, hseen⟩ := htracks hi d hd hdi happ hl
      have hne : d.port ≠ q.port := List.ne_of_not_mem_cons hfar
      exact ⟨hkeeps _ hne hn, List.not_mem_of_not_mem_cons hfar, hseen⟩
  | true =>
    rw [if_pos rfl]
    have hcur := hcurrent rfl
    have hi := isCurrent_iff.mp hcur
    dsimp only
    set d' : Detection := ⟨m.workspaceId, q.port, i, m.appearances q.port, true⟩ with hd'
    have hevent : Base excludePorts s.all s.monitors s.broadcast (s.detected ++ [d']) :=
      { h.base with
        known := fun d hd => by
          rcases List.mem_append.mp hd with hd | hd
          · exact h.base.known d hd
          · rw [List.mem_singleton.mp hd]
            exact ⟨rfl, m, hm, le_rfl, hnot⟩
        once := by
          rw [List.map_append, List.map_singleton]
          refine List.nodup_append.mpr ⟨h.base.once, List.nodup_singleton _, ?_⟩
          intro k hk k' hk' hsame
          obtain ⟨d, hd, rfl⟩ := List.mem_map.mp hk
          rw [List.mem_singleton.mp hk', Prod.mk.injEq, Prod.mk.injEq] at hsame
          obtain ⟨hdi, hport, happ⟩ := hsame
          have hold := htracks hi d hd hdi (happ.trans (by rw [hport])) (hport ▸ hlisted)
          exact hold.2.1 (hport ▸ List.mem_cons_self) }
    have hsame : s.isCurrent i { m with
        probeFails := m.probeFails.delete q.port
        serving := m.serving.set q.port ⟨q.port, (q.byPort.get? q.port).bind (·.pid),
          (q.byPort.get? q.port).bind (·.cmdline), (q.byPort.get? q.port).bind (·.session), now⟩
        passed := q.port :: m.passed } = true := hcur
    rw [hsame]
    refine Sound.resume (s := { s with detected := s.detected ++ [d'] }) hevent
      (fun j hj ws n hjc hn d hd hdj => ?_) hm rfl (fun _ => le_rfl) ?_ hrest ?_
      (fun _ h => Bool.noConfusion h) ?_
    · rcases List.mem_append.mp hd with hd | hd
      · exact h.tracked j ws n hjc hn d hd hdj
      · rw [List.mem_singleton.mp hd] at hdj
        exact absurd hdj hj
    · intro port hport
      rw [JsMap.has_set, Bool.or_eq_true, decide_eq_true_eq] at hport
      rcases hport with rfl | hport
      · exact ⟨hlisted, List.mem_cons_self⟩
      · obtain ⟨hl, hp⟩ := hok.confirmed port hport
        exact ⟨hl, List.mem_cons_of_mem _ hp⟩
    · exact fun port hport => hqueued port (List.mem_cons_of_mem _ hport)
    · intro _ d hd hdi happ hl
      rcases List.mem_append.mp hd with hd | hd
      · obtain ⟨hn, hfar, -⟩ := htracks hi d hd hdi happ hl
        exact ⟨hn, fun hmem => hfar (List.mem_cons_of_mem _ hmem), by simp⟩
      · rw [List.mem_singleton.mp hd]
        exact ⟨hin, hhead, by simp⟩

/-- A poll begins, or waits for its next await before the listing, or ends without a change. -/
theorem Sound.poll (h : Sound excludePorts s) (hm : s.all[i]? = some m) {poll : Option Stage}
    (hpoll : ∀ q, poll ≠ some (.probing q))
    (hbefore : m.unsettled = true → s.isCurrent i m = false) :
    Sound excludePorts (s.put i { m with poll }) := by
  have hok := h.base.ok i m hm
  have hsettled : s.monitors.get? m.workspaceId = some i → m.unsettled = false := by
    intro hi
    rw [← Bool.not_eq_true]
    intro hun
    exact Bool.false_ne_true ((hbefore hun).symm.trans (isCurrent_iff.mpr hi))
  refine h.put hm rfl ⟨hok.confirmed, fun q hq => absurd hq (hpoll q),
    fun q hq => absurd hq (hpoll q)⟩ (fun _ => le_rfl) ?_ ?_
  · intro hi _
    exact h.base.agree _ i m hi hm (hsettled hi)
  · intro hi d hd hdi happ hlisted
    have hseen : m.seen.has d.port = true := by
      have htrack := h.tracked i _ m hi hm d hd hdi happ hlisted
      have hun := hsettled hi
      unfold Monitor.Tracks at htrack
      unfold Monitor.unsettled at hun
      split at htrack
      · next q hq => exact htrack.2.2 (by simpa [hq] using hun)
      · exact htrack
    unfold Monitor.Tracks
    split
    · next q hq => exact absurd hq (hpoll q)
    · exact hseen

theorem servingSorted_of_empty (h : m.serving.size = 0) : servingSorted m = [] := by
  have hrows : m.serving.rows = [] := List.length_eq_zero_iff.mp h
  simp [servingSorted, hrows]

theorem Sound.startMonitor (h : Sound excludePorts s) {workspaceId : Text}
    (hnone : s.monitors.get? workspaceId = none) :
    Sound excludePorts (s.startMonitor workspaceId) where
  base :=
    { owner := fun ws j hj => by
        have hj' : (s.monitors.set workspaceId s.all.length).get? ws = some j := hj
        rw [JsMap.get?_set] at hj'
        split_ifs at hj' with hws
        · cases hj'
          exact ⟨{ workspaceId }, List.getElem?_concat_length, hws.symm⟩
        · obtain ⟨n, hn, hnws⟩ := h.base.owner ws j hj'
          exact ⟨n, getElem?_append_of_some hn _, hnws⟩
      ok := fun j n hn => by
        rcases getElem?_concat_cases hn with hold | ⟨-, rfl⟩
        · exact h.base.ok j n hold
        · exact ⟨nofun, nofun, nofun⟩
      agree := fun ws j n hj hn hsettled => by
        have hj' : (s.monitors.set workspaceId s.all.length).get? ws = some j := hj
        rw [JsMap.get?_set] at hj'
        split_ifs at hj' with hws
        · cases hj'
          cases List.getElem?_concat_length.symm.trans hn
          rw [hws, servingSorted_of_empty rfl]
          exact h.base.cleared workspaceId hnone
        · obtain ⟨o, ho, -⟩ := h.base.owner ws j hj'
          cases (getElem?_append_of_some ho [{ workspaceId }]).symm.trans hn
          exact h.base.agree ws j n hj' ho hsettled
      cleared := fun ws hws => by
        have hws' : (s.monitors.set workspaceId s.all.length).get? ws = none := hws
        rw [JsMap.get?_set] at hws'
        split_ifs at hws'
        exact h.base.cleared ws hws'
      known := fun d hd => by
        obtain ⟨hcur, n, hn, hrest⟩ := h.base.known d hd
        exact ⟨hcur, n, getElem?_append_of_some hn _, hrest⟩
      once := h.base.once }
  tracked := fun j ws n hj hn d hd hdj => by
    obtain ⟨-, o, ho, -⟩ := h.base.known d hd
    have hj' : (s.monitors.set workspaceId s.all.length).get? ws = some j := hj
    rw [JsMap.get?_set] at hj'
    split_ifs at hj' with hws
    · have hlt := (List.getElem?_eq_some_iff.mp ho).1
      cases hj'
      omega
    · rw [hdj] at ho
      cases (getElem?_append_of_some ho [{ workspaceId }]).symm.trans hn
      exact h.tracked j ws n hj' ho d hd hdj

theorem Sound.stopMonitor (h : Sound excludePorts s) {workspaceId : Text}
    (hstop : ∀ i m, s.monitors.get? workspaceId = some i → s.all[i]? = some m →
      m.emptied = false) :
    Sound excludePorts (s.stopMonitor workspaceId) := by
  unfold State.stopMonitor
  cases hi : s.monitors.get? workspaceId with
  | none => exact h
  | some i =>
    obtain ⟨m, hm, hws⟩ := h.base.owner workspaceId i hi
    simp only [Option.bind_some, hm]
    have hclear : ∀ ws, (s.monitors.delete workspaceId).get? ws = none →
        (if 0 < m.serving.size then Function.update s.broadcast workspaceId []
          else s.broadcast) ws = [] := by
      intro ws hnone
      rw [JsMap.get?_delete] at hnone
      by_cases hsame : ws = workspaceId
      · subst hsame
        split_ifs with hsize
        · exact Function.update_self _ _ _
        · have hzero : m.serving.size = 0 := by omega
          have hsettled : m.unsettled = false := by
            simpa [Monitor.emptied, hzero] using hstop i m hi hm
          rw [h.base.agree ws i m hi hm hsettled, servingSorted_of_empty hzero]
      · rw [if_neg hsame] at hnone
        split_ifs
        · rw [Function.update_of_ne hsame]
          exact h.base.cleared ws hnone
        · exact h.base.cleared ws hnone
    have hold : ∀ ws j, (s.monitors.delete workspaceId).get? ws = some j →
        ws ≠ workspaceId ∧ s.monitors.get? ws = some j := by
      intro ws j hj
      rw [JsMap.get?_delete] at hj
      split_ifs at hj with hne
      exact ⟨hne, hj⟩
    refine ⟨⟨fun ws j hj => h.base.owner ws j (hold ws j hj).2, h.base.ok,
      fun ws j n hj hn hsettled => ?_, hclear, h.base.known, h.base.once⟩,
      fun j ws n hj => h.tracked j ws n (hold ws j hj).2⟩
    obtain ⟨hne, hj'⟩ := hold ws j hj
    have hagree := h.base.agree ws j n hj' hn hsettled
    dsimp only
    split_ifs
    · rw [Function.update_of_ne hne]
      exact hagree
    · exact hagree

theorem stopMonitor_all (s : State) (workspaceId : Text) :
    (s.stopMonitor workspaceId).all = s.all := by
  unfold State.stopMonitor
  split <;> rfl

theorem get?_of_stopMonitor {workspaceId ws : Text}
    (h : (s.stopMonitor workspaceId).monitors.get? ws = some i) :
    s.monitors.get? ws = some i := by
  unfold State.stopMonitor at h
  split at h
  · exact h
  · exact JsMap.get?_of_delete h

theorem Sound.stopMonitors (h : Sound excludePorts s) {ids : List Text}
    (hstop : ∀ ws ∈ ids, ∀ i m, s.monitors.get? ws = some i → s.all[i]? = some m →
      m.emptied = false) :
    Sound excludePorts (ids.foldl State.stopMonitor s) := by
  induction ids generalizing s with
  | nil => exact h
  | cons ws ids ih =>
    obtain ⟨hfirst, hrest⟩ := List.forall_mem_cons.mp hstop
    refine ih (h.stopMonitor hfirst) fun ws' hws' i m hi hm => ?_
    rw [stopMonitor_all] at hm
    exact hrest ws' hws' i m (get?_of_stopMonitor hi) hm

/-- The monitors of the workspaces that are not to be running are those there were. -/
theorem Sound.startMissing (h : Sound excludePorts s) (running : List Text) :
    Sound excludePorts (s.startMissing running) ∧
      ∀ ws, ws ∉ running → ∀ i m, (s.startMissing running).monitors.get? ws = some i →
        (s.startMissing running).all[i]? = some m →
          s.monitors.get? ws = some i ∧ s.all[i]? = some m := by
  unfold State.startMissing
  induction running generalizing s with
  | nil => exact ⟨h, fun ws _ i m hi hm => ⟨hi, hm⟩⟩
  | cons id running ih =>
    rw [List.foldl_cons]
    split_ifs with hhas
    · obtain ⟨hsound, hold⟩ := ih h
      exact ⟨hsound, fun ws hws => hold ws (List.not_mem_of_not_mem_cons hws)⟩
    · have hnone : s.monitors.get? id = none := by
        simpa [JsMap.has] using hhas
      obtain ⟨hsound, hold⟩ := ih (h.startMonitor hnone)
      refine ⟨hsound, fun ws hws i m hi hm => ?_⟩
      obtain ⟨hi', hm'⟩ := hold ws (List.not_mem_of_not_mem_cons hws) i m hi hm
      have hget : s.monitors.get? ws = some i := by
        have hset : (s.monitors.set id s.all.length).get? ws = some i := hi'
        rwa [JsMap.get?_set_of_ne _ _ (List.ne_of_not_mem_cons hws)] at hset
      obtain ⟨n, hn, -⟩ := h.base.owner ws i hget
      cases (getElem?_append_of_some hn _).symm.trans hm'
      exact ⟨hget, hn⟩

theorem Sound.step (h : Sound excludePorts s) {t : State} {a : Action} (ho : Orderly s a)
    (hs : step excludePorts s a = some t) : Sound excludePorts t := by
  cases a with
  | reconcile running =>
    cases hs
    obtain ⟨hstarted, hold⟩ := h.startMissing running
    refine hstarted.stopMonitors fun ws hws i m hi hm => ?_
    have hnot : ws ∉ running := by simpa using (List.mem_filter.mp hws).2
    obtain ⟨hi', hm'⟩ := hold ws hnot i m hi hm
    exact ho (ws, i) (JsMap.get?_eq_some.mp hi') hnot m hm'
  | dispose =>
    cases hs
    refine h.stopMonitors fun ws _ i m hi hm => ?_
    exact ho (ws, i) (JsMap.get?_eq_some.mp hi) m hm
  | tick workspaceId =>
    obtain ⟨i, hi, hs⟩ := Option.bind_eq_some_iff.mp hs
    obtain ⟨m, hm, rfl⟩ := Option.map_eq_some_iff.mp hs
    split_ifs with hpoll
    · exact h
    · have hnone : m.poll = none := by simpa using hpoll
      exact h.poll hm nofun fun hun => by simp [Monitor.unsettled, hnone] at hun
  | proceed i =>
    obtain ⟨m, hm, hs⟩ := Option.bind_eq_some_iff.mp hs
    split at hs
    · next hpoll =>
      cases hs
      exact h.poll hm nofun fun hun => by simp [Monitor.unsettled, hpoll] at hun
    · next hpoll =>
      cases hs
      exact h.poll hm nofun fun hun => by simp [Monitor.unsettled, hpoll] at hun
    · cases hs
  | list i details now =>
    obtain ⟨m, hm, hs⟩ := Option.bind_eq_some_iff.mp hs
    split at hs
    · next hpoll =>
      cases hs
      exact h.onList hm hpoll details
    · cases hs
  | probe i ok now =>
    obtain ⟨m, hm, hs⟩ := Option.bind_eq_some_iff.mp hs
    split at hs
    · next q hpoll =>
      cases hs
      exact h.onProbe hm hpoll fun hok => ho hok m hm
    · cases hs
  | fail i =>
    obtain ⟨m, hm, hs⟩ := Option.bind_eq_some_iff.mp hs
    split at hs
    · cases hs
      exact h.poll hm nofun (ho m hm)
    · cases hs

theorem Sound.initial : Sound excludePorts {} where
  base :=
    { owner := fun ws i hi => by simp at hi
      ok := fun i m hm => by simp at hm
      agree := fun ws i m hi => by simp at hi
      cleared := fun ws _ => rfl
      known := fun d hd => absurd hd List.not_mem_nil
      once := List.nodup_nil }
  tracked := fun i ws m hi => by simp at hi

theorem serving_of_monitor {ws : Text} (hi : s.monitors.get? ws = some i)
    (hm : s.all[i]? = some m) : s.serving ws = servingSorted m := by
  simp [State.serving, hi, hm]

theorem Sound.faithful (h : Sound excludePorts s) : Faithful s := by
  have hagree : ∀ ws, Idle s ws → s.broadcast ws = s.serving ws := by
    intro ws hidle
    cases hi : s.monitors.get? ws with
    | none =>
      rw [h.base.cleared ws hi]
      simp [State.serving, hi]
    | some i =>
      obtain ⟨m, hm, hws⟩ := h.base.owner ws i hi
      have hpoll := hidle m (List.mem_of_getElem? hm) hws
      rw [serving_of_monitor hi hm]
      exact h.base.agree ws i m hi hm (by simp [Monitor.unsettled, hpoll])
  refine ⟨hagree, fun ws ports hports hidle => ?_, fun m hm => ?_, h.base.once,
    fun d hd => (h.base.known d hd).1⟩
  · obtain ⟨e, he, hrow⟩ := List.mem_filterMap.mp hports
    obtain ⟨m, hm, hsome⟩ := Option.bind_eq_some_iff.mp hrow
    obtain ⟨-, hpair⟩ := Option.ite_none_right_eq_some.mp hsome
    cases hpair
    rw [hagree e.1 hidle]
    exact serving_of_monitor (JsMap.get?_eq_some.mpr he) hm
  · obtain ⟨i, hi⟩ := List.mem_iff_getElem?.mp hm
    exact (h.base.ok i m hi).confirmed

end Invariants

instance (s : State) (a : Action) : Decidable (Orderly s a) :=
  match a with
  | .reconcile _ => inferInstanceAs (Decidable (∀ e ∈ _, _ → ∀ m ∈ _, _))
  | .dispose => inferInstanceAs (Decidable (∀ e ∈ _, ∀ m ∈ _, _))
  | .probe .. => inferInstanceAs (Decidable (_ → ∀ m ∈ _, _))
  | .fail _ => inferInstanceAs (Decidable (∀ m ∈ _, _ → _))
  | .tick _ | .proceed _ | .list .. => isTrue trivial

/-- In an orderly run the broadcasts agree with what is served while no poll is under way, all that
is served was listed last and probed since it appeared, and every appearance is reported once at
most and while its monitor runs. -/
theorem broadcasts_faithful {excludePorts : Text → List ℕ} {s : State} {as : List Action}
    (hr : run (step excludePorts) {} as = some s)
    (ho : Along (step excludePorts) Orderly {} as) : Faithful s := by
  have hsound : Sound excludePorts s :=
    run_invariant_along (I := Sound excludePorts) (fun s a t h ho hs => h.step ho hs) .initial hr ho
  exact hsound.faithful

def webPort (port : ℕ) : PortDetail := ⟨port, some 9, none, none⟩

def polling : List Action := [.tick (js "w"), .proceed 0, .proceed 0]

/-- A server comes up and is reported. -/
def served : List Action :=
  ([.reconcile [js "w"]] : List Action) ++ polling ++
    ([.list 0 [webPort 3000] 1, .probe 0 true 2] : List Action)

/-- Another takes its place while the first probe of it is refused, and the workspace stops. -/
def replaced : List Action :=
  served ++ polling ++ ([.list 0 [webPort 4000] 3, .probe 0 false 4] : List Action) ++ polling ++
    ([.list 0 [webPort 4000] 5, .probe 0 true 6, .reconcile []] : List Action)

theorem replaced_faithful : ∃ s, run (step fun _ => []) {} replaced = some s ∧
    s.detected.map (fun d => d.port) = [3000, 4000] ∧ Faithful s := by
  have hsome : (run (step fun _ => []) {} replaced).any (fun s =>
      decide (s.detected.map (fun d => d.port) = [3000, 4000])) = true := by
    decide +kernel
  obtain ⟨s, hr, hports⟩ := (Option.any_eq_true _ _).mp hsome
  exact ⟨s, hr, of_decide_eq_true hports, broadcasts_faithful hr (by decide +kernel)⟩

def idleAll (s : State) : Bool := s.all.all fun m => m.poll.isNone

theorem idle_of_idleAll {s : State} (h : idleAll s = true) (workspaceId : Text) :
    Idle s workspaceId :=
  fun m hm _ => Option.isNone_iff_eq_none.mp (List.all_eq_true.mp h m hm)

def disagrees (s : State) : Bool :=
  idleAll s && decide (s.broadcast (js "w") ≠ s.serving (js "w"))

/-- A probe that fails to be made leaves the map behind the broadcast, or has a port reported twice;
a stop leaves a broadcast behind that nothing clears, and a port is reported after it. -/
theorem broadcasts_diverge :
    (∃ s, run (step fun _ => []) {} (served ++ polling ++ [.list 0 [webPort 4000] 3, .fail 0]) =
        some s ∧ Idle s (js "w") ∧ s.broadcast (js "w") ≠ s.serving (js "w")) ∧
    (∃ s, run (step fun _ => []) {} ([.reconcile [js "w"]] ++ polling ++
          [.list 0 [webPort 3000, webPort 4000] 1, .probe 0 true 2, .fail 0] ++ polling ++
          [.list 0 [webPort 3000, webPort 4000] 3, .probe 0 true 4]) = some s ∧
        ¬(s.detected.map fun d => (d.monitor, d.port, d.appearance)).Nodup) ∧
    ∃ s, run (step fun _ => []) {} (served ++ polling ++
          [.list 0 [webPort 4000] 3, .reconcile [], .probe 0 true 4]) = some s ∧
        Idle s (js "w") ∧ s.broadcast (js "w") ≠ s.serving (js "w") ∧
        ∃ d ∈ s.detected, d.current = false := by
  refine ⟨?_, ?_, ?_⟩
  · have hsome : (run (step fun _ => []) {} (served ++ polling ++
        [.list 0 [webPort 4000] 3, .fail 0])).any disagrees = true := by decide +kernel
    obtain ⟨s, hr, hs⟩ := (Option.any_eq_true _ _).mp hsome
    obtain ⟨hidle, hne⟩ := Bool.and_eq_true_iff.mp hs
    exact ⟨s, hr, idle_of_idleAll hidle _, of_decide_eq_true hne⟩
  · have hsome : (run (step fun _ => []) {} ([.reconcile [js "w"]] ++ polling ++
        [.list 0 [webPort 3000, webPort 4000] 1, .probe 0 true 2, .fail 0] ++ polling ++
        [.list 0 [webPort 3000, webPort 4000] 3, .probe 0 true 4])).any (fun s =>
          decide ¬(s.detected.map fun d => (d.monitor, d.port, d.appearance)).Nodup) = true := by
      decide +kernel
    obtain ⟨s, hr, hs⟩ := (Option.any_eq_true _ _).mp hsome
    exact ⟨s, hr, of_decide_eq_true hs⟩
  · have hsome : (run (step fun _ => []) {} (served ++ polling ++
        [.list 0 [webPort 4000] 3, .reconcile [], .probe 0 true 4])).any (fun s =>
          disagrees s && s.detected.any fun d => !d.current) = true := by decide +kernel
    obtain ⟨s, hr, hs⟩ := (Option.any_eq_true _ _).mp hsome
    obtain ⟨hs, hlate⟩ := Bool.and_eq_true_iff.mp hs
    obtain ⟨hidle, hne⟩ := Bool.and_eq_true_iff.mp hs
    obtain ⟨d, hd, hcur⟩ := List.any_eq_true.mp hlate
    exact ⟨s, hr, idle_of_idleAll hidle _, of_decide_eq_true hne, d, hd, by simpa using hcur⟩

end ClaudeFleet.PortMonitor
