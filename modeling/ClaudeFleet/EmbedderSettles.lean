import ClaudeFleet.EmbedderClient

/-! Every call of `embed` is settled once, from its own reply or by an error, and waits for
something that will happen. -/
namespace ClaudeFleet.EmbedderClient
open State

/-- The requests that a sidecar was sent and has not answered. -/
def State.outstanding (s : State) (c : ℕ) : List Send :=
  s.sends.filter fun x => x.child = c ∧ x.id ∉ s.answered

/-- How often a request was sent. -/
def State.tries (s : State) (no : ℕ) : ℕ := (s.sends.map Send.no).count no

/-- The calls that are settled, then those that wait. -/
def State.accounted (s : State) : List ℕ := s.settled.map Settled.no ++ s.waiting.map Pending.no

/-- A call was resolved without texts, or by a reply to an id of its own, with a vector for each
text. -/
def Earned (s : State) (r : Settled) (vectors : List Vector) : Prop :=
  ∃ texts, s.submitted[r.no]? = some texts ∧ vectors.length = texts.length ∧
    (texts = [] ∨ ∃ (c : ℕ) (m : Message) (id : ℕ), r.reply = some (c, m) ∧ m.id = some (id : ℤ) ∧
      (⟨r.no, c, id⟩ : Send) ∈ s.sends)

structure Ledger (s : State) : Prop where
  accounted : s.accounted.Perm (List.range s.submitted.length)
  order : (s.waiting.map Pending.no).Pairwise (· < ·)
  texts : ∀ p ∈ s.waiting, s.submitted[p.no]? = some p.texts
  sent : ∀ x ∈ s.sends, x.no < s.submitted.length ∧ x.id < s.nextId ∧ x.child < s.spawned
  sends : (s.sends.map Send.no).Pairwise (· ≤ ·)
  before : ∀ x ∈ s.sends, ∀ p ∈ s.waiting, x.no ≤ p.no
  tries : ∀ n, s.tries n ≤ 2
  queued : ∀ p ∈ s.queue, s.tries p.no = p.attempts ∧ p.attempts ≤ 1
  flying : ∀ p id, s.inflight = some (p, id) → s.tries p.no = p.attempts + 1 ∧ p.attempts ≤ 1 ∧
    id ∉ s.answered ∧ ∃ c, s.child = some c ∧ (⟨p.no, c, id⟩ : Send) ∈ s.sends
  ids : (s.sends.map Send.id).Nodup
  answered : ∀ id ∈ s.answered, id < s.nextId
  outstanding : ∀ c, (s.outstanding c).length ≤ 1
  current : ∀ c, s.child = some c → ∀ x ∈ s.outstanding c, ∃ p, s.inflight = some (p, x.id)
  resolved : ∀ r ∈ s.settled, ∀ vectors, r.outcome = .resolved vectors → Earned s r vectors

/-- Something is waited for wherever a request waits: a sidecar that must get ready, one that must
answer, one that was killed, or a restart. -/
def Waits (s : State) : Prop :=
  match s.phase with
  | .idle => s.child = none ∧ s.waiting = [] ∧ s.timer = none
  | .starting => s.inflight = none ∧
    ∃ c, s.child = some c ∧ (s.timer = some (.ready c) ∨ s.timer = none ∧ c ∈ s.killed)
  | .ready => ∃ c, s.child = some c ∧
    (s.inflight ≠ none ∧ s.timer = some (.request c) ∨
      s.timer = none ∧ (c ∈ s.killed ∨ s.waiting = []))
  | .backoff => s.child = none ∧ s.inflight = none ∧ ∃ ms, s.timer = some (.backoff ms)
  | .dead => s.child = none ∧ s.waiting = [] ∧ s.timer = none

structure Sound (s : State) : Prop where
  ledger : Ledger s
  waits : Waits s
  alive : ∀ c, s.child = some c → c < s.spawned ∧ c ∉ s.gone
  gone : ∀ c ∈ s.gone, c < s.spawned

theorem start_sound : Sound State.start := by
  refine ⟨?_, ?_, ?_, ?_⟩
  · constructor <;>
      simp [State.start, State.waiting, State.accounted, State.tries, State.outstanding]
  · simp [Waits, State.start, State.waiting]
  · simp [State.start]
  · simp [State.start]

/-- What the ledger reads of a state. -/
def State.core (s : State) : State :=
  { s with
    phase := .idle
    failures := []
    timer := none
    lastFatal := ""
    killed := ∅
    gone := ∅
    decoders := fun _ => []
    arrived := [] }

section Ledger
variable {s s' : State}

theorem Ledger.congr (h : Ledger s) (hcore : s'.core = s.core) : Ledger s' := by
  have hc : Ledger s.core := ⟨h.accounted, h.order, h.texts, h.sent, h.sends, h.before, h.tries,
    h.queued, h.flying, h.ids, h.answered, h.outstanding, h.current, h.resolved⟩
  rw [← hcore] at hc
  exact ⟨hc.accounted, hc.order, hc.texts, hc.sent, hc.sends, hc.before, hc.tries,
    hc.queued, hc.flying, hc.ids, hc.answered, hc.outstanding, hc.current, hc.resolved⟩

theorem waiting_eq {p : Pending} {id : ℕ} (h : s.inflight = some (p, id)) :
    s.waiting = p :: s.queue := by
  simp [State.waiting, h]

theorem waiting_of_none (h : s.inflight = none) : s.waiting = s.queue := by
  simp [State.waiting, h]

theorem Ledger.lt (h : Ledger s) {p : Pending} (hp : p ∈ s.waiting) :
    p.no < s.submitted.length := by
  have hmem : p.no ∈ s.accounted := List.mem_append_right _ (List.mem_map_of_mem hp)
  simpa using h.accounted.mem_iff.mp hmem

/-- Everything that waits is rejected. -/
theorem Ledger.stop (h : Ledger s) (reason : String) : Ledger (s.stop reason) := by
  have hwaiting : (s.stop reason).waiting = [] := rfl
  have hsettled : (s.stop reason).settled.map Settled.no = s.accounted := by
    simp [State.stop, State.accounted, Function.comp_def]
  constructor
  · rw [State.accounted, hwaiting, hsettled, List.map_nil, List.append_nil]
    exact h.accounted
  · simp [hwaiting]
  · simp [hwaiting]
  · exact h.sent
  · exact h.sends
  · simp [hwaiting]
  · exact h.tries
  · simp [State.stop]
  · simp [State.stop]
  · exact h.ids
  · exact h.answered
  · exact h.outstanding
  · simp [State.stop]
  · intro r hr vectors hv
    rcases List.mem_append.mp hr with hr | hr
    · exact h.resolved r hr vectors hv
    · obtain ⟨p, -, rfl⟩ := List.mem_map.mp hr
      simp at hv

/-- The first request of the queue is sent to the sidecar, which has none. -/
theorem Ledger.send (h : Ledger s) {p : Pending} {queue : List Pending} {c : ℕ}
    (hin : s.inflight = none) (hq : s.queue = p :: queue) (hc : s.child = some c)
    (hspawned : c < s.spawned) :
    Ledger { s with
      queue := queue
      inflight := some (p, s.nextId)
      nextId := s.nextId + 1
      timer := some (.request c)
      sends := s.sends ++ [⟨p.no, c, s.nextId⟩] } := by
  have hwaiting : s.waiting = p :: queue := (waiting_of_none hin).trans hq
  have hp : p ∈ s.waiting := hwaiting ▸ List.mem_cons_self
  have hfresh : s.nextId ∉ s.sends.map Send.id := by
    intro hmem
    obtain ⟨x, hx, hid⟩ := List.mem_map.mp hmem
    have := (h.sent x hx).2.1
    omega
  have hunanswered : s.nextId ∉ s.answered := fun hmem => (h.answered _ hmem).false
  have hnone : s.outstanding c = [] := by
    rw [List.eq_nil_iff_forall_not_mem]
    intro x hx
    obtain ⟨q, hq⟩ := h.current c hc x hx
    simp [hin] at hq
  have hqueued := h.queued p (by simp [hq])
  constructor
  · simpa [State.accounted, State.waiting, hin, hq] using h.accounted
  · simpa [State.waiting, hin, hq] using h.order
  · simpa [State.waiting, hin, hq] using h.texts
  · intro x hx
    rcases List.mem_append.mp hx with hx | hx
    · obtain ⟨h₁, h₂, h₃⟩ := h.sent x hx
      exact ⟨h₁, Nat.lt_succ_of_lt h₂, h₃⟩
    · rw [List.mem_singleton.mp hx]
      exact ⟨h.lt hp, Nat.lt_succ_self _, hspawned⟩
  · simp only [List.map_append, List.map_cons, List.map_nil, List.pairwise_append]
    refine ⟨h.sends, by simp, ?_⟩
    intro n hn m hm
    obtain ⟨x, hx, rfl⟩ := List.mem_map.mp hn
    rw [List.mem_singleton.mp hm]
    exact h.before x hx p hp
  · intro x hx q hq'
    have hq' : q ∈ s.waiting := by
      rw [hwaiting]
      simpa [State.waiting] using hq'
    rcases List.mem_append.mp hx with hx | hx
    · exact h.before x hx q hq'
    · rw [List.mem_singleton.mp hx]
      have horder := h.order
      rw [hwaiting, List.map_cons, List.pairwise_cons] at horder
      rw [hwaiting] at hq'
      rcases List.mem_cons.mp hq' with rfl | hq'
      · exact le_rfl
      · exact (horder.1 q.no (List.mem_map_of_mem hq')).le
  · intro n
    have htwo := h.tries n
    have hone := hqueued
    simp only [State.tries, List.map_append, List.count_append, List.map_cons, List.map_nil,
      List.count_singleton] at htwo hone ⊢
    split
    · next hn =>
      rw [beq_iff_eq] at hn
      subst hn
      omega
    · omega
  · intro q hq'
    have hne : q.no ≠ p.no := by
      have horder := h.order
      rw [hwaiting, List.map_cons, List.pairwise_cons] at horder
      exact (horder.1 q.no (List.mem_map_of_mem hq')).ne'
    have := h.queued q (by rw [hq]; exact List.mem_cons_of_mem _ hq')
    simpa [State.tries, List.count_append, List.count_singleton, hne.symm] using this
  · intro q id hq'
    simp only [Option.some.injEq, Prod.mk.injEq] at hq'
    obtain ⟨rfl, rfl⟩ := hq'
    refine ⟨?_, hqueued.2, hunanswered, c, hc, by simp⟩
    have := hqueued.1
    simp only [State.tries, List.map_append, List.count_append, List.map_cons, List.map_nil,
      List.count_singleton, beq_self_eq_true, if_true] at this ⊢
    omega
  · simp only [List.map_append, List.map_cons, List.map_nil]
    exact List.nodup_append.mpr ⟨h.ids, by simp, by
      intro a ha b hb hab
      rw [List.mem_singleton.mp hb] at hab
      exact hfresh (hab ▸ ha)⟩
  · exact fun id hid => Nat.lt_succ_of_lt (h.answered id hid)
  · intro c'
    simp only [State.outstanding, List.filter_append, List.length_append]
    by_cases hcc : c = c'
    · subst hcc
      simp only [State.outstanding] at hnone
      rw [hnone]
      simp [hunanswered]
    · simpa [State.outstanding, hcc] using h.outstanding c'
  · intro c' hc' x hx
    have hc' : c = c' := Option.some.inj (hc.symm.trans hc')
    subst hc'
    simp only [State.outstanding, List.filter_append, List.mem_append] at hx hnone
    rcases hx with hx | hx
    · rw [hnone] at hx
      cases hx
    · simp [List.mem_singleton.mp (List.mem_of_mem_filter hx)]
  · intro r hr vectors hv
    obtain ⟨texts, hsub, hlen, hearned⟩ := h.resolved r hr vectors hv
    refine ⟨texts, hsub, hlen, hearned.imp_right ?_⟩
    rintro ⟨c', m, id, hreply, hid, hsent⟩
    exact ⟨c', m, id, hreply, hid, List.mem_append_left _ hsent⟩

/-- The sidecar is gone, with or without a request. -/
theorem Ledger.orphan (h : Ledger s) (hin : s.inflight = none) :
    Ledger { s with child := none, timer := none } := by
  refine ⟨h.accounted, h.order, h.texts, h.sent, h.sends, h.before, h.tries, h.queued, ?_, h.ids,
    h.answered, h.outstanding, by simp, h.resolved⟩
  intro p id hp
  simp [hin] at hp

/-- The request in flight is settled. -/
theorem Ledger.settle (h : Ledger s) {p : Pending} {id : ℕ} (hin : s.inflight = some (p, id))
    {child : Option ℕ} {answered : List ℕ} {o : Outcome} {reply : Option (ℕ × Message)}
    (hanswered : ∀ i ∈ answered, i = id ∨ i ∈ s.answered)
    (hkept : ∀ i ∈ s.answered, i ∈ answered)
    (hchild : child = none ∨ child = s.child ∧ id ∈ answered)
    (ho : ∀ vectors, o = .resolved vectors → Earned s ⟨p.no, o, reply⟩ vectors) :
    Ledger ({ s with child := child, timer := none, inflight := none, answered := answered }.settle
      p.no o reply) := by
  have hwaiting := waiting_eq hin
  obtain ⟨-, -, -, c, hc, hsent⟩ := h.flying p id hin
  have hout : ∀ c', ∀ x ∈ s.sends.filter (fun x => x.child = c' ∧ x.id ∉ answered),
      x ∈ s.outstanding c' := by
    intro c' x hx
    simp only [List.mem_filter, decide_eq_true_eq] at hx
    simp only [State.outstanding, List.mem_filter, decide_eq_true_eq]
    exact ⟨hx.1, hx.2.1, fun hmem => hx.2.2 (hkept _ hmem)⟩
  constructor
  · have hsame : ({ s with
        child := child, timer := none, inflight := none, answered := answered }.settle p.no o
          reply).accounted = s.accounted := by
      simp [State.accounted, State.settle, State.waiting, hin]
    rw [hsame]
    exact h.accounted
  · have := h.order
    rw [hwaiting, List.map_cons, List.pairwise_cons] at this
    exact this.2
  · intro q hq
    exact h.texts q (hwaiting ▸ List.mem_cons_of_mem _ hq)
  · exact h.sent
  · exact h.sends
  · intro x hx q hq
    exact h.before x hx q (hwaiting ▸ List.mem_cons_of_mem _ hq)
  · exact h.tries
  · exact h.queued
  · simp [State.settle]
  · exact h.ids
  · intro i hi
    rcases hanswered i hi with rfl | hi
    · exact (h.sent _ hsent).2.1
    · exact h.answered i hi
  · intro c'
    refine le_trans ?_ (h.outstanding c')
    refine (List.Sublist.length_le ?_)
    simp only [State.outstanding, State.settle]
    refine List.monotone_filter_right _ ?_
    intro x hx
    have hx := of_decide_eq_true hx
    exact decide_eq_true ⟨hx.1, fun hmem => hx.2 (hkept _ hmem)⟩
  · intro c' hc' x hx
    rcases hchild with hnone | ⟨hsame, hid⟩
    · simp [State.settle, hnone] at hc'
    · simp only [State.settle] at hc'
      obtain ⟨q, hq⟩ := h.current c' (hsame ▸ hc') x (hout c' x hx)
      simp only [hin, Option.some.injEq, Prod.mk.injEq] at hq
      have hx := of_decide_eq_true (List.mem_filter.mp hx).2
      exact absurd (hq.2 ▸ hid) hx.2
  · intro r hr vectors hv
    rcases List.mem_append.mp hr with hr | hr
    · exact h.resolved r hr vectors hv
    · obtain rfl := List.mem_singleton.mp hr
      exact ho vectors hv

/-- A request whose sidecar is gone is tried again, unless it was before. -/
theorem Ledger.retry (h : Ledger s) (why : String) :
    Ledger ({ s with child := none, timer := none }.retry why) := by
  rcases hin : s.inflight with _ | ⟨p, id⟩
  · simpa only [State.retry, hin] using h.orphan hin
  · have hwaiting := waiting_eq hin
    obtain ⟨htries, hattempts, -⟩ := h.flying p id hin
    simp only [State.retry]
    split
    · exact @Ledger.settle s h p id hin none s.answered (.rejected (.failedTwice why)) none
        (fun i hi => Or.inr hi) (fun i hi => hi) (Or.inl rfl) (by simp)
    · next hlt =>
      constructor
      · simpa [State.accounted, State.waiting, hin] using h.accounted
      · simpa [State.waiting, hin] using h.order
      · intro q hq
        simp only [State.waiting, Option.map_none, Option.toList_none, List.nil_append] at hq
        rcases List.mem_cons.mp hq with rfl | hq
        · exact h.texts p (hwaiting ▸ List.mem_cons_self)
        · exact h.texts q (hwaiting ▸ List.mem_cons_of_mem _ hq)
      · exact h.sent
      · exact h.sends
      · intro x hx q hq
        simp only [State.waiting, Option.map_none, Option.toList_none, List.nil_append] at hq
        rcases List.mem_cons.mp hq with rfl | hq
        · exact h.before x hx p (hwaiting ▸ List.mem_cons_self)
        · exact h.before x hx q (hwaiting ▸ List.mem_cons_of_mem _ hq)
      · exact h.tries
      · intro q hq
        rcases List.mem_cons.mp hq with rfl | hq
        · exact ⟨htries, by dsimp only at hlt ⊢; omega⟩
        · exact h.queued q hq
      · simp
      · exact h.ids
      · exact h.answered
      · exact h.outstanding
      · simp
      · exact h.resolved

theorem retry_inflight (s : State) (why : String) : (s.retry why).inflight = none := by
  unfold State.retry
  split
  · assumption
  · dsimp only
    split <;> rfl

theorem Earned.submit {r : Settled} {vectors : List Vector} (h : Earned s r vectors)
    (hlt : r.no < s.submitted.length) (texts : List String) :
    Earned { s with submitted := s.submitted ++ [texts] } r vectors := by
  obtain ⟨texts', hsub, hlen, hearned⟩ := h
  exact ⟨texts', by rw [List.getElem?_append_left hlt, hsub], hlen, hearned⟩

theorem Ledger.settled_lt (h : Ledger s) {r : Settled} (hr : r ∈ s.settled) :
    r.no < s.submitted.length := by
  have hmem : r.no ∈ s.accounted := List.mem_append_left _ (List.mem_map_of_mem hr)
  simpa using h.accounted.mem_iff.mp hmem

/-- A call that is settled at once. -/
theorem Ledger.submitSettled (h : Ledger s) (texts : List String) {o : Outcome}
    (ho : ∀ vectors, o = .resolved vectors → vectors = [] ∧ texts = []) :
    Ledger ({ s with submitted := s.submitted ++ [texts] }.settle s.submitted.length o none) := by
  constructor
  · have hacc : ({ s with submitted := s.submitted ++ [texts] }.settle s.submitted.length o
        none).accounted.Perm (s.accounted ++ [s.submitted.length]) := by
      have hwaiting : ({ s with submitted := s.submitted ++ [texts] }.settle s.submitted.length o
          none).waiting = s.waiting := rfl
      simp only [State.accounted, hwaiting, State.settle, List.map_append, List.map_cons,
        List.map_nil, List.append_assoc]
      exact List.Perm.append_left _ List.perm_append_comm
    refine hacc.trans ?_
    simp only [State.settle, List.length_append, List.length_singleton, List.range_succ]
    exact h.accounted.append_right _
  · exact h.order
  · intro p hp
    exact (List.getElem?_append_left (h.lt hp)).trans (h.texts p hp)
  · intro x hx
    obtain ⟨h₁, h₂⟩ := h.sent x hx
    exact ⟨by simp only [State.settle, List.length_append]; omega, h₂⟩
  · exact h.sends
  · exact h.before
  · exact h.tries
  · exact h.queued
  · exact h.flying
  · exact h.ids
  · exact h.answered
  · exact h.outstanding
  · exact h.current
  · intro r hr vectors hv
    rcases List.mem_append.mp hr with hr | hr
    · exact (h.resolved r hr vectors hv).submit (h.settled_lt hr) texts
    · obtain rfl := List.mem_singleton.mp hr
      obtain ⟨rfl, rfl⟩ := ho vectors hv
      exact ⟨[], by simp [State.settle], rfl, Or.inl rfl⟩

/-- A call that waits behind the others. -/
theorem Ledger.submit (h : Ledger s) (texts : List String) :
    Ledger { s with
      submitted := s.submitted ++ [texts]
      queue := s.queue ++ [⟨s.submitted.length, texts, 0⟩] } := by
  have hwaiting : ({ s with
      submitted := s.submitted ++ [texts]
      queue := s.queue ++ [⟨s.submitted.length, texts, 0⟩] } : State).waiting =
        s.waiting ++ [⟨s.submitted.length, texts, 0⟩] := by
    simp [State.waiting]
  have hmem : ∀ p, p ∈ s.waiting ++ [(⟨s.submitted.length, texts, 0⟩ : Pending)] →
      p ∈ s.waiting ∨ p = ⟨s.submitted.length, texts, 0⟩ := by
    intro p hp
    simpa using hp
  constructor
  · simp only [State.accounted, hwaiting, List.map_append, List.map_cons, List.map_nil,
      List.length_append, List.length_singleton, List.range_succ]
    rw [← List.append_assoc]
    exact h.accounted.append_right _
  · rw [hwaiting, List.map_append, List.pairwise_append]
    refine ⟨h.order, by simp, ?_⟩
    intro n hn m hm
    obtain ⟨p, hp, rfl⟩ := List.mem_map.mp hn
    obtain rfl : m = s.submitted.length := by simpa using hm
    exact h.lt hp
  · intro p hp
    rcases hmem p (hwaiting ▸ hp) with hp | rfl
    · exact (List.getElem?_append_left (h.lt hp)).trans (h.texts p hp)
    · simp
  · intro x hx
    obtain ⟨h₁, h₂⟩ := h.sent x hx
    exact ⟨by simp only [List.length_append]; omega, h₂⟩
  · exact h.sends
  · intro x hx p hp
    rcases hmem p (hwaiting ▸ hp) with hp | rfl
    · exact h.before x hx p hp
    · exact (h.sent x hx).1.le
  · exact h.tries
  · intro p hp
    rcases List.mem_append.mp hp with hp | hp
    · exact h.queued p hp
    · rw [List.mem_singleton.mp hp]
      refine ⟨?_, Nat.zero_le 1⟩
      -- it was never sent
      refine List.count_eq_zero.mpr ?_
      intro hsent
      obtain ⟨x, hx, hno⟩ := List.mem_map.mp hsent
      have := (h.sent x hx).1
      simp only at hno
      omega
  · exact h.flying
  · exact h.ids
  · exact h.answered
  · exact h.outstanding
  · exact h.current
  · intro r hr vectors hv
    obtain ⟨texts', hsub, hrest⟩ := h.resolved r hr vectors hv
    exact ⟨texts', (List.getElem?_append_left (h.settled_lt hr)).trans hsub, hrest⟩

/-- A new sidecar has no requests. -/
theorem Ledger.spawn (h : Ledger s) (hin : s.inflight = none) :
    Ledger { s with
      child := some s.spawned
      spawned := s.spawned + 1
      timer := some (.ready s.spawned) } := by
  refine ⟨h.accounted, h.order, h.texts, ?_, h.sends, h.before, h.tries, h.queued, ?_, h.ids,
    h.answered, h.outstanding, ?_, h.resolved⟩
  · intro x hx
    obtain ⟨h₁, h₂, h₃⟩ := h.sent x hx
    exact ⟨h₁, h₂, Nat.lt_succ_of_lt h₃⟩
  · intro p id hp
    simp [hin] at hp
  · intro c hc x hx
    have hx := List.mem_filter.mp hx
    have hlt := (h.sent x hx.1).2.2
    have hchild := (of_decide_eq_true hx.2).1
    have hc := Option.some.inj hc
    omega

end Ledger

theorem decodeVectors_length {bytes : Bytes} {n dim : ℕ} {vectors : List Vector}
    (h : decodeVectors bytes n dim = some vectors) : vectors.length = n := by
  unfold decodeVectors at h
  split at h
  · cases h
  · rw [← Option.some.inj h]
    simp

/-- One vector for each text. -/
theorem outcome_length {texts : List String} {m : Message} {vectors : List Vector}
    (h : outcome texts m = .resolved vectors) : vectors.length = texts.length := by
  unfold outcome at h
  split at h
  · cases h
  · split at h
    · split at h
      · next v hv =>
        obtain ⟨dim, -, hdim⟩ := Option.bind_eq_some_iff.mp hv
        simp only [Outcome.resolved.injEq] at h
        rw [← h]
        exact decodeVectors_length hdim
      · cases h
    · cases h

/-! What is waited for. -/

section Waits
variable {s s' : State}

/-- A sidecar that is ready and has no request is given the next one. -/
theorem Sound.pump (h : Ledger s) {c : ℕ} (hphase : s.phase = .ready) (hc : s.child = some c)
    (hin : s.inflight = none) (htimer : s.timer = none) (halive : c < s.spawned ∧ c ∉ s.gone)
    (hgone : ∀ c ∈ s.gone, c < s.spawned) : Sound s.pump := by
  rcases hq : s.queue with _ | ⟨p, queue⟩
  · have hsame : s.pump = s := by simp [State.pump, hphase, hin, hq]
    rw [hsame]
    refine ⟨h, ?_, ?_, hgone⟩
    · simp only [Waits, hphase]
      exact ⟨c, hc, Or.inr ⟨htimer, Or.inr ((waiting_of_none hin).trans hq)⟩⟩
    · intro c' hc'
      exact Option.some.inj (hc.symm.trans hc') ▸ halive
  · by_cases hkilled : c ∈ s.killed
    · have hsame : s.pump = s := by simp [State.pump, hphase, hin, hq, hc, hkilled]
      rw [hsame]
      refine ⟨h, ?_, ?_, hgone⟩
      · simp only [Waits, hphase]
        exact ⟨c, hc, Or.inr ⟨htimer, Or.inl hkilled⟩⟩
      · intro c' hc'
        exact Option.some.inj (hc.symm.trans hc') ▸ halive
    · have hsend : s.pump = { s with
          queue := queue
          inflight := some (p, s.nextId)
          nextId := s.nextId + 1
          timer := some (.request c)
          sends := s.sends ++ [⟨p.no, c, s.nextId⟩] } := by
        simp [State.pump, hphase, hin, hq, hc, hkilled]
      rw [hsend]
      refine ⟨h.send hin hq hc halive.1, ?_, ?_, hgone⟩
      · simp only [Waits, hphase]
        exact ⟨c, hc, Or.inl ⟨by simp, rfl⟩⟩
      · intro c' hc'
        exact Option.some.inj (hc.symm.trans hc') ▸ halive

theorem Sound.stop (h : Ledger s) (hgone : ∀ c ∈ s.gone, c < s.spawned) (reason : String) :
    Sound (s.stop reason) :=
  ⟨h.stop reason, ⟨rfl, rfl, rfl⟩, by simp [State.stop], hgone⟩

theorem Sound.kill (h : Sound s) (c : ℕ) (why : String) : Sound (s.kill c why) := by
  refine ⟨h.ledger.congr rfl, ?_, h.alive, h.gone⟩
  have hw := h.waits
  unfold Waits at hw ⊢
  simp only [State.kill]
  split at hw
  · exact hw
  · obtain ⟨hin, c', hc, htimer | ⟨htimer, hk⟩⟩ := hw
    · exact ⟨hin, c', hc, Or.inl htimer⟩
    · exact ⟨hin, c', hc, Or.inr ⟨htimer, Finset.mem_insert_of_mem hk⟩⟩
  · obtain ⟨c', hc, htimer | ⟨htimer, hk | hnone⟩⟩ := hw
    · exact ⟨c', hc, Or.inl htimer⟩
    · exact ⟨c', hc, Or.inr ⟨htimer, Or.inl (Finset.mem_insert_of_mem hk)⟩⟩
    · exact ⟨c', hc, Or.inr ⟨htimer, Or.inr hnone⟩⟩
  · exact hw
  · exact hw

theorem retry_frame (s : State) (why : String) :
    (s.retry why).child = s.child ∧ (s.retry why).timer = s.timer ∧
      (s.retry why).gone = s.gone ∧ (s.retry why).spawned = s.spawned := by
  unfold State.retry
  split
  · exact ⟨rfl, rfl, rfl, rfl⟩
  · dsimp only
    split <;> exact ⟨rfl, rfl, rfl, rfl⟩

/-- The sidecar that is listened to is gone. -/
theorem Sound.childGone (h : Ledger s) (hgone : ∀ c ∈ s.gone, c < s.spawned)
    (hphase : s.phase ≠ .dead) (why : String) (now : ℤ) :
    Sound (s.onChildGone s.child why now) := by
  have hledger := h.retry why
  have hin := retry_inflight { s with child := none, timer := none } why
  obtain ⟨hchild, htimer, hgone', hspawned⟩ :=
    retry_frame { s with child := none, timer := none } why
  have hbound : ∀ c ∈ ({ s with child := none, timer := none }.retry why).gone,
      c < ({ s with child := none, timer := none }.retry why).spawned := by
    rw [hgone', hspawned]
    exact hgone
  unfold State.onChildGone
  rw [if_neg (by simp [hphase])]
  dsimp only
  split
  · apply Sound.stop
    · exact hledger.congr rfl
    · exact hbound
  · split
    · next hempty =>
      refine ⟨hledger.congr rfl, ?_, ?_, hbound⟩
      · exact ⟨hchild, (waiting_of_none hin).trans hempty, htimer⟩
      · intro c hc
        cases hchild.symm.trans hc
    · refine ⟨hledger.congr rfl, ?_, ?_, hbound⟩
      · exact ⟨hchild, hin, _, rfl⟩
      · intro c hc
        cases hchild.symm.trans hc

/-- A sidecar is spawned, or is gone at once. -/
theorem Sound.launch (h : Ledger s) (hgone : ∀ c ∈ s.gone, c < s.spawned) (hchild : s.child = none)
    (hin : s.inflight = none) (thrown : Option String) (now : ℤ) :
    Sound (s.launch thrown now) := by
  cases thrown with
  | some e =>
    have hs : Ledger { s with phase := .starting, lastFatal := "" } := h.congr rfl
    have := Sound.childGone hs hgone (by simp) ("spawn failed: " ++ e) now
    simpa only [State.launch, hchild] using this
  | none =>
    refine ⟨(h.spawn hin).congr rfl, ?_, ?_, ?_⟩
    · exact ⟨hin, s.spawned, rfl, Or.inl rfl⟩
    · intro c hc
      obtain rfl := Option.some.inj hc
      refine ⟨Nat.lt_succ_self _, ?_⟩
      intro hmem
      exact (hgone _ hmem).false
    · intro c hc
      exact Nat.lt_succ_of_lt (hgone c hc)

theorem pump_of_inflight {x : Pending × ℕ} (h : s.inflight = some x) : s.pump = s := by
  unfold State.pump
  split
  · next hin _ _ => simp [h] at hin
  · rfl

theorem pump_of_phase (h : s.phase ≠ .ready) : s.pump = s := by
  unfold State.pump
  split
  · next hphase _ _ _ => exact absurd hphase h
  · rfl

/-- A request joins the queue while a sidecar is on its way or there. -/
theorem Sound.join {t : State} (h : Sound s) (hl : Ledger t) (hidle : s.phase ≠ .idle)
    (hdead : s.phase ≠ .dead) (hphase : t.phase = s.phase) (hchild : t.child = s.child)
    (hin : t.inflight = s.inflight) (htimer : t.timer = s.timer) (hkilled : t.killed = s.killed)
    (halive : ∀ c, t.child = some c → c < t.spawned ∧ c ∉ t.gone)
    (hgone : ∀ c ∈ t.gone, c < t.spawned) : Sound t.pump := by
  have hw := h.waits
  simp only [Waits, ← hphase, ← hchild, ← hin, ← htimer, ← hkilled] at hw
  split at hw
  · next hp => exact absurd (hphase.symm.trans hp) hidle
  · next hp =>
    rw [pump_of_phase (by simp [hp])]
    refine ⟨hl, ?_, halive, hgone⟩
    simp only [Waits, hp]
    exact hw
  · next hp =>
    obtain ⟨c, hc, hrest⟩ := hw
    rcases hx : t.inflight with _ | x
    · have hnone : t.timer = none := by
        rcases hrest with ⟨hne, -⟩ | ⟨hnone, -⟩
        · exact absurd hx hne
        · exact hnone
      exact Sound.pump hl hp hc hx hnone (halive c hc) hgone
    · rw [pump_of_inflight hx]
      refine ⟨hl, ?_, halive, hgone⟩
      simp only [Waits, hp]
      refine ⟨c, hc, hrest.imp_right (And.imp_right (Or.imp_right ?_))⟩
      intro hnone
      simp [State.waiting, ← hin, hx] at hnone
  · next hp =>
    rw [pump_of_phase (by simp [hp])]
    refine ⟨hl, ?_, halive, hgone⟩
    simp only [Waits, hp]
    exact hw
  · next hp => exact absurd (hphase.symm.trans hp) hdead

theorem Sound.embed (h : Sound s) (texts : List String) (thrown : Option String) (now : ℤ) :
    Sound (s.embed texts thrown now) := by
  simp only [State.embed]
  split
  · next hempty =>
    exact ⟨h.ledger.submitSettled texts (by simp [hempty]), h.waits, h.alive, h.gone⟩
  · split
    · exact ⟨h.ledger.submitSettled texts (by simp), h.waits, h.alive, h.gone⟩
    · next hdead =>
      have hl := h.ledger.submit texts
      split
      · next hidle =>
        have hw := h.waits
        simp only [Waits, hidle] at hw
        have hin : s.inflight = none := by
          have := hw.2.1
          simp only [State.waiting, List.append_eq_nil_iff] at this
          simpa using this.1
        exact Sound.launch hl h.gone hw.1 hin thrown now
      · next hidle => exact h.join hl hidle hdead rfl rfl rfl rfl rfl h.alive h.gone

/-- A reply with the id of the request in flight settles it. -/
theorem Sound.reply (h : Sound s) {c id : ℕ} {p : Pending} {m : Message} (hc : s.child = some c)
    (hin : s.inflight = some (p, id)) (hid : m.id = some (id : ℤ)) :
    Sound ({ s with timer := none, inflight := none, answered := s.answered ++ [id] }.settle p.no
      (outcome p.texts m) (some (c, m))).pump := by
  have hphase : s.phase = .ready := by
    have hw := h.waits
    simp only [Waits] at hw
    split at hw
    · simp [hw.1] at hc
    · simp [hw.1] at hin
    · assumption
    · simp [hw.1] at hc
    · simp [hw.1] at hc
  obtain ⟨-, -, -, c', hc', hsent⟩ := h.ledger.flying p id hin
  have hcc : c = c' := Option.some.inj (hc.symm.trans hc')
  have hearned : ∀ vectors, outcome p.texts m = .resolved vectors →
      Earned s ⟨p.no, outcome p.texts m, some (c, m)⟩ vectors := by
    intro vectors hv
    refine ⟨p.texts, h.ledger.texts p (by simp [waiting_eq hin]), ?_,
      Or.inr ⟨c, m, id, rfl, hid, hcc ▸ hsent⟩⟩
    exact outcome_length hv
  have hl := @Ledger.settle s h.ledger p id hin s.child (s.answered ++ [id]) (outcome p.texts m)
    (some (c, m)) (by simp [or_comm]) (by simp_all) (Or.inr ⟨rfl, by simp⟩) hearned
  exact Sound.pump hl hphase hc rfl rfl (h.alive c hc) h.gone

theorem Sound.onMessage (h : Sound s) (c : ℕ) (m : Message)
    (hready : (Value.message m).isReady = true → s.child = some c → c ∉ s.killed →
      s.inflight = none) : Sound (s.onMessage c m) := by
  unfold State.onMessage
  split
  · exact h
  · next hheard =>
    obtain ⟨hc, hkilled⟩ := not_or.mp hheard
    rw [not_not] at hc
    split
    · next htype =>
      split
      · have hk := h.kill c ("fleet-embedder speaks protocol " ++
          (m.protocol.map toString).getD "none" ++ ", host expects " ++ toString EMBEDDER_PROTOCOL)
        exact Sound.stop hk.ledger hk.gone _
      · next hprotocol =>
        have hin := hready (by simpa [Value.isReady, htype] using hprotocol) hc hkilled
        have hl : Ledger { s with timer := none, phase := .ready } := h.ledger.congr rfl
        exact Sound.pump hl rfl hc hin rfl (h.alive c hc) h.gone
    · exact ⟨h.ledger.congr rfl, h.waits, h.alive, h.gone⟩
    · split
      · exact h.kill c _
      · next p id hin =>
        split
        · exact h.kill c _
        · next hid => exact h.reply hc hin (by simpa using hid)

theorem Sound.fire (h : Sound s) {t : Timer} (ht : s.timer = some t) (thrown : Option String)
    (now : ℤ) : Sound (s.fire t thrown now) := by
  have hw := h.waits
  have hl : Ledger { s with timer := none } := h.ledger.congr rfl
  simp only [Waits, ht] at hw
  split at hw
  · simp at hw
  · next hp =>
    obtain ⟨hin, c, hc, htimer | ⟨htimer, -⟩⟩ := hw
    · obtain rfl := Option.some.inj htimer
      refine ⟨hl.congr rfl, ?_, h.alive, h.gone⟩
      simp only [Waits, State.fire, State.kill, hp]
      exact ⟨hin, c, hc, Or.inr ⟨trivial, Finset.mem_insert_self _ _⟩⟩
    · simp at htimer
  · next hp =>
    obtain ⟨c, hc, ⟨-, htimer⟩ | ⟨htimer, -⟩⟩ := hw
    · obtain rfl := Option.some.inj htimer
      refine ⟨hl.congr rfl, ?_, h.alive, h.gone⟩
      simp only [Waits, State.fire, State.kill, hp]
      exact ⟨c, hc, Or.inr ⟨trivial, Or.inl (Finset.mem_insert_self _ _)⟩⟩
    · simp at htimer
  · obtain ⟨hchild, hin, ms, htimer⟩ := hw
    obtain rfl := Option.some.inj htimer
    exact Sound.launch hl h.gone hchild hin thrown now
  · simp at hw

theorem Sound.receive (h : Sound s) (parse : Bytes → Option Value) (c : ℕ) (chunk : Bytes) :
    Sound (s.receive parse c chunk) := by
  have hs : ∀ left, Sound { s with decoders := Function.update s.decoders c left } :=
    fun left => ⟨h.ledger.congr rfl, h.waits, h.alive, h.gone⟩
  simp only [State.receive]
  split
  · exact (hs _).kill c _
  · exact ⟨(hs (decode parse (s.decoders c ++ chunk)).2).ledger.congr rfl, h.waits, h.alive,
      h.gone⟩

theorem Sound.onGone (h : Sound s) {c : ℕ} (hc : c < s.spawned) (why : String) (now : ℤ) :
    Sound (s.onGone c why now) := by
  unfold State.onGone
  split
  · exact h
  · have hl : Ledger { s with gone := insert c s.gone } := h.ledger.congr rfl
    have hgone : ∀ c' ∈ insert c s.gone, c' < s.spawned := by
      intro c' hc'
      rcases Finset.mem_insert.mp hc' with rfl | hc'
      · exact hc
      · exact h.gone c' hc'
    by_cases hcur : s.child = some c
    · have hphase : s.phase ≠ .dead := by
        intro hdead
        have hw := h.waits
        simp only [Waits, hdead] at hw
        simp [hw.1] at hcur
      have := Sound.childGone hl hgone hphase why now
      simpa only [hcur] using this
    · -- the sidecar is not listened to any more
      unfold State.onChildGone
      rw [if_pos (Or.inl (Ne.symm hcur))]
      refine ⟨hl, h.waits, ?_, hgone⟩
      intro c' hc'
      obtain ⟨hlt, hnot⟩ := h.alive c' hc'
      refine ⟨hlt, ?_⟩
      intro hmem
      rcases Finset.mem_insert.mp hmem with rfl | hmem
      · exact hcur hc'
      · exact hnot hmem

end Waits

theorem step_sound {parse : Bytes → Option Value} {s s' : State} {a : Action} (h : Sound s)
    (hok : ReadyInTime s a) (hs : step parse s a = some s') : Sound s' := by
  unfold step at hs
  split at hs
  · next c m rest harrived =>
    have hrest : Sound { s with arrived := rest } :=
      ⟨h.ledger.congr rfl, h.waits, h.alive, h.gone⟩
    rw [← Option.some.inj hs]
    refine hrest.onMessage c m ?_
    intro hready hc hkilled
    exact hok rfl (c, .message m) (by simp [harrived]) hready hc hkilled
  · exact Option.some.inj hs ▸ ⟨h.ledger.congr rfl, h.waits, h.alive, h.gone⟩
  · next texts thrown now _ => exact Option.some.inj hs ▸ h.embed texts thrown now
  · next c chunk _ =>
    split at hs
    · exact Option.some.inj hs ▸ h.receive parse c chunk
    · cases hs
  · split at hs
    · next hc => exact Option.some.inj hs ▸ h.onGone hc _ _
    · cases hs
  · split at hs
    · next hc => exact Option.some.inj hs ▸ h.onGone hc _ _
    · cases hs
  · obtain ⟨t, ht, rfl⟩ := Option.map_eq_some_iff.mp hs
    exact h.fire ht _ _
  · exact Option.some.inj hs ▸ Sound.stop h.ledger h.gone _
  · cases hs

end ClaudeFleet.EmbedderClient
