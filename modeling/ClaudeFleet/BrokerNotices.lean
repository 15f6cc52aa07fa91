import ClaudeFleet.BrokerStep

/-! ENDED notices. A waiter knows its attachment by channel and id only: as long as the pair is
not attached again while the waiter runs, an ENDED goes to the attachment it was made for, once. -/
namespace ClaudeFleet.BrokerServer
open Transition

/-- The attachment an ENDED was written for. -/
def Frame.noticed : Frame → Option ℕ
  | .ended _ k _ => some k
  | _ => none

def Broker.noticed (b : Broker) (c : ℕ) : List ℕ := (b.conns c).log.filterMap Frame.noticed

/-- The attachment a goroutine is in the middle of, and whether it has ended. -/
def Pc.pending : Pc → Option (ℕ × Entry × Bool)
  | .acking ch e _ _ ended | .replaying ch e _ _ ended => some (ch, e, ended)
  | .ending ch e => some (ch, e, true)
  | _ => none

structure Notices (b : Broker) : Prop where
  waiting : ∀ k w, b.waiters k = some w → k < b.nextSerial ∧ ∀ c, k ∉ b.noticed c
  own : ∀ k w e, b.waiters k = some w → b.entry w.conn w.channel = some e → e.id = w.id →
    e.serial = k ∧ e.session = w.session
  checked : ∀ k w, b.waiters k = some w → w.checked = true →
    ∃ e, b.entry w.conn w.channel = some e ∧ e.serial = k ∧ (b.sessions e.session).dead = true
  pending : ∀ c ch e ended, (b.conns c).pc.pending = some (ch, e, ended) →
    b.entry c ch = some e ∧ e.serial < b.nextSerial ∧ b.waiters e.serial = none ∧
      (ended = true → (b.sessions e.session).dead = true) ∧ ∀ d, e.serial ∉ b.noticed d
  distinct : ∀ c c' p p', (b.conns c).pc.pending = some p → (b.conns c').pc.pending = some p' →
    p.2.1.serial = p'.2.1.serial → c = c'
  attaching : ∀ c ch id n, (b.conns c).pc = .attaching ch id n → b.entry c ch = none
  replies : ∀ c f, (b.conns c).pc = .reply f → f.Plain
  born : ∀ n, (b.sessions n).dead = true → n < b.nextSession
  notices : ∀ c ch k current, Frame.ended ch k current ∈ (b.conns c).log →
    k < b.nextSerial ∧ ∃ e, current = some (e, true) ∧ e.serial = k
  once : ∀ c, (b.noticed c).Nodup

theorem newManager_notices (ringBufBytes : ℤ) : Notices (newManager ringBufBytes) := by
  constructor <;> simp [newManager, Broker.noticed, Pc.pending]

/-- From `b` to `g` nothing happens to an attachment or a notice. -/
structure SameNotices (b g : Broker) : Prop where
  entry : ∀ c ch, g.entry c ch = b.entry c ch
  waiters : g.waiters = b.waiters
  nextSerial : g.nextSerial = b.nextSerial
  dead : ∀ n, (b.sessions n).dead = true → (g.sessions n).dead = true
  born : ∀ n, (g.sessions n).dead = true → (b.sessions n).dead = true ∨ n < g.nextSession
  nextSession : b.nextSession ≤ g.nextSession
  ended : ∀ c ch k current, Frame.ended ch k current ∈ (g.conns c).log →
    Frame.ended ch k current ∈ (b.conns c).log
  noticed : ∀ c, g.noticed c = b.noticed c
  pending : ∀ c p, (g.conns c).pc.pending = some p → (b.conns c).pc.pending = some p
  attaching : ∀ c ch id n, (g.conns c).pc = .attaching ch id n →
    (b.conns c).pc = .attaching ch id n ∨ b.entry c ch = none
  replies : ∀ c f, (g.conns c).pc = .reply f → (b.conns c).pc = .reply f ∨ f.Plain

theorem Notices.same {b g : Broker} (h : Notices b) (hs : SameNotices b g) : Notices g where
  waiting k w hw := by
    rw [hs.waiters] at hw
    simp only [hs.nextSerial, hs.noticed]
    exact h.waiting k w hw
  own k w e hw he := by
    rw [hs.waiters] at hw
    rw [hs.entry] at he
    exact h.own k w e hw he
  checked k w hw hch := by
    rw [hs.waiters] at hw
    obtain ⟨e, he, hk, hd⟩ := h.checked k w hw hch
    exact ⟨e, by rwa [hs.entry], hk, hs.dead _ hd⟩
  pending c ch e ended hp := by
    obtain ⟨he, hk, hw, hd, hn⟩ := h.pending c ch e ended (hs.pending c _ hp)
    simp only [hs.entry, hs.nextSerial, hs.waiters, hs.noticed]
    exact ⟨he, hk, hw, fun hend => hs.dead _ (hd hend), hn⟩
  distinct c c' p p' hp hp' := h.distinct c c' p p' (hs.pending c p hp) (hs.pending c' p' hp')
  attaching c ch id n hpc := by
    rw [hs.entry]
    exact (hs.attaching c ch id n hpc).elim (h.attaching c ch id n) fun he => he
  replies c f hpc := (hs.replies c f hpc).elim (h.replies c f) id
  born n hd := (hs.born n hd).elim (fun hd => (h.born n hd).trans_le hs.nextSession) id
  notices c ch k current hf := by
    rw [hs.nextSerial]
    exact h.notices c ch k current (hs.ended c ch k current hf)
  once c := by
    rw [hs.noticed]
    exact h.once c

/-- Points of a goroutine that concern no attachment. -/
def Pc.Light : Pc → Prop
  | .attaching _ _ _ => False
  | .reply f => f.Plain
  | pc => pc.pending = none

theorem Pc.Light.pending {pc : Pc} (h : pc.Light) : pc.pending = none := by
  cases pc <;> first | rfl | exact h

/-- The notices of a connection's log. -/
theorem say_noticed {x : Conn} {f : Frame} (hf : f.noticed = none) :
    (x.say f).log.filterMap Frame.noticed = x.log.filterMap Frame.noticed := by
  rw [Conn.say_log]
  split_ifs
  · rfl
  · rw [List.filterMap_append, List.filterMap_cons, hf]
    simp

theorem mem_say_ended {x : Conn} {f : Frame} (hf : f.noticed = none) {ch k : ℕ}
    {current : Option (Entry × Bool)} (h : Frame.ended ch k current ∈ (x.say f).log) :
    Frame.ended ch k current ∈ x.log := by
  rw [Conn.say_log] at h
  split_ifs at h
  · exact h
  · rcases List.mem_append.mp h with h | h
    · exact h
    · rw [List.mem_singleton] at h
      subst h
      cases hf

theorem joins_noticed (x : Conn) (ch : ℕ) (e : Entry) (pos : ℕ) :
    (x.joins ch e pos).log.filterMap Frame.noticed = x.log.filterMap Frame.noticed := by
  unfold Conn.joins
  exact say_noticed rfl

theorem mem_joins_ended {x : Conn} {ch pos ch' k : ℕ} {e : Entry}
    {current : Option (Entry × Bool)} (h : Frame.ended ch' k current ∈ (x.joins ch e pos).log) :
    Frame.ended ch' k current ∈ x.log := by
  have hx := mem_say_ended (x := { x with attached := (ch, e) :: x.attached }) rfl h
  exact hx

/-- Only one connection's goroutine moves, and it writes no notice. -/
structure Conn.Quietly (x y : Conn) : Prop where
  attached : y.attached = x.attached
  noticed : y.log.filterMap Frame.noticed = x.log.filterMap Frame.noticed
  ended : ∀ ch k current, Frame.ended ch k current ∈ y.log → Frame.ended ch k current ∈ x.log
  pending : ∀ p, y.pc.pending = some p → x.pc.pending = some p
  attaching : ∀ ch id n, y.pc = .attaching ch id n →
    x.pc = .attaching ch id n ∨ x.attached.lookup ch = none
  replies : ∀ f, y.pc = .reply f → x.pc = .reply f ∨ f.Plain

theorem Conn.Quietly.say {x : Conn} {f : Frame} (hf : f.noticed = none) : x.Quietly (x.say f) where
  attached := Conn.say_attached x f
  noticed := say_noticed hf
  ended _ _ _ := mem_say_ended hf
  pending p hp := by rwa [Conn.say_pc] at hp
  attaching ch id n hpc := .inl (by rwa [Conn.say_pc] at hpc)
  replies f' hpc := .inl (by rwa [Conn.say_pc] at hpc)

theorem Conn.Quietly.trans {x y z : Conn} (h : x.Quietly y) (h' : y.Quietly z) : x.Quietly z where
  attached := h'.attached.trans h.attached
  noticed := h'.noticed.trans h.noticed
  ended ch k current hf := h.ended ch k current (h'.ended ch k current hf)
  pending p hp := h.pending p (h'.pending p hp)
  attaching ch id n hpc := by
    rcases h'.attaching ch id n hpc with hpc | he
    · exact h.attaching ch id n hpc
    · exact .inr (h.attached ▸ he)
  replies f hpc := (h'.replies f hpc).elim (h.replies f) .inr

theorem Conn.Quietly.goto {x : Conn} {pc : Pc} (hpc : pc.Light) : x.Quietly { x with pc := pc } where
  attached := rfl
  noticed := rfl
  ended _ _ _ hf := hf
  pending p hp := by
    rw [hpc.pending] at hp
    cases hp
  attaching ch id n heq := by
    simp only at heq
    rw [heq] at hpc
    exact hpc.elim
  replies f heq := by
    simp only at heq
    rw [heq] at hpc
    exact .inr hpc

theorem SameNotices.conn {b g : Broker} {c : ℕ} {y : Conn}
    (hg : g.conns = (b.setConn c y).conns) (hy : (b.conns c).Quietly y)
    (hw : g.waiters = b.waiters) (hk : g.nextSerial = b.nextSerial)
    (hd : ∀ n, (g.sessions n).dead = (b.sessions n).dead) (hn : b.nextSession ≤ g.nextSession) :
    SameNotices b g := by
  have hconns : ∀ d, (b.conns d).Quietly (g.conns d) := by
    intro d
    rw [hg, Broker.setConn_conns]
    split_ifs with hdc
    · rw [hdc]
      exact hy
    · exact ⟨rfl, rfl, fun _ _ _ h => h, fun _ h => h, fun _ _ _ h => .inl h, fun _ h => .inl h⟩
  exact
    { entry := fun d ch => by rw [Broker.entry, Broker.entry, (hconns d).attached]
      waiters := hw
      nextSerial := hk
      dead := fun n h => by rwa [hd]
      born := fun n h => .inl (by rwa [hd] at h)
      nextSession := hn
      ended := fun d => (hconns d).ended
      noticed := fun d => (hconns d).noticed
      pending := fun d => (hconns d).pending
      attaching := fun d => (hconns d).attaching
      replies := fun d => (hconns d).replies }

theorem SameNotices.sessions {b g : Broker} (hg : g.conns = b.conns)
    (hw : g.waiters = b.waiters) (hk : g.nextSerial = b.nextSerial)
    (hd : ∀ n, (b.sessions n).dead = true → (g.sessions n).dead = true)
    (hb : ∀ n, (g.sessions n).dead = true → (b.sessions n).dead = true ∨ n < g.nextSession)
    (hn : b.nextSession ≤ g.nextSession) : SameNotices b g where
  entry c ch := by rw [Broker.entry, Broker.entry, hg]
  waiters := hw
  nextSerial := hk
  dead := hd
  born := hb
  nextSession := hn
  ended c ch k current hf := by rwa [hg] at hf
  noticed c := by rw [Broker.noticed, Broker.noticed, hg]
  pending c p hp := by rwa [hg] at hp
  attaching c ch id n hpc := .inl (by rwa [hg] at hpc)
  replies c f hpc := .inl (by rwa [hg] at hpc)

theorem lookup_without (x : Conn) (ch ch' : ℕ) :
    (x.without ch).attached.lookup ch' = if ch' = ch then none else x.attached.lookup ch' := by
  unfold Conn.without
  induction x.attached with
  | nil => simp
  | cons p table ih =>
    by_cases hp : p.1 = ch
    · rw [List.filter_cons_of_neg (by simpa using hp), ih, List.lookup_cons]
      by_cases hch : ch' = ch
      · rw [if_pos hch, if_pos hch]
      · have hne : (ch' == p.1) = false := by rw [hp]; exact beq_eq_false_iff_ne.mpr hch
        rw [if_neg hch, if_neg hch, hne]
    · rw [List.filter_cons_of_pos (by simpa using hp), List.lookup_cons, ih, List.lookup_cons]
      by_cases hch : ch' = p.1
      · subst hch
        simp [hp]
      · rw [beq_eq_false_iff_ne.mpr hch]

/-- When a waiter is past its check, its channel keeps the entry it saw; when a pair of channel and
id is attached, no waiter runs for an earlier attachment of the pair. -/
def Unwatched (b : Broker) : Action → Prop
  | .request c (.detach ch) => ∀ e ∈ b.entry c ch, b.manager e.id = none →
      ∀ k < b.nextSerial, ∀ w ∈ b.waiters k, w.conn = c → w.channel = ch → w.checked = false
  | .resume c =>
    match (b.conns c).pc with
    | .attaching ch id n => ((b.sessions n).dead = true ∨ (b.sessions n).attached = none) →
        ∀ k < b.nextSerial, ∀ w ∈ b.waiters k, ¬(w.conn = c ∧ w.channel = ch ∧ w.id = id)
    | .detaching ch _ | .closing ch _ => ∀ k < b.nextSerial, ∀ w ∈ b.waiters k, w.conn = c →
        w.channel = ch → w.checked = false
    | _ => True
  | _ => True

instance (b : Broker) (a : Action) : Decidable (Unwatched b a) := by
  unfold Unwatched
  split
  · infer_instance
  · split <;> infer_instance
  · infer_instance

/-- An entry is dropped while no waiter is between its check and its write. -/
theorem Notices.drop {b g : Broker} {c ch : ℕ} {pc : Pc} (h : Notices b)
    (hg : g.conns = (b.setConn c { (b.conns c).without ch with pc := pc }).conns)
    (hpc : pc.Light) (hw : g.waiters = b.waiters) (hk : g.nextSerial = b.nextSerial)
    (hd : ∀ n, (g.sessions n).dead = (b.sessions n).dead) (hn : g.nextSession = b.nextSession)
    (hch : ∀ k < b.nextSerial, ∀ w ∈ b.waiters k, w.conn = c → w.channel = ch →
      w.checked = false) : Notices g := by
  have hentry : ∀ d ch', g.entry d ch' = if d = c ∧ ch' = ch then none else b.entry d ch' := by
    intro d ch'
    rw [Broker.entry, hg, Broker.setConn_conns]
    by_cases hdc : d = c
    · subst hdc
      rw [if_pos rfl]
      simp only [true_and]
      exact lookup_without _ _ _
    · rw [if_neg hdc, if_neg fun hand => hdc hand.1, Broker.entry]
  have hsome : ∀ d ch' e, g.entry d ch' = some e → b.entry d ch' = some e := by
    intro d ch' e he
    rw [hentry] at he
    split_ifs at he
    exact he
  have hlog : ∀ d, (g.conns d).log = (b.conns d).log := by
    intro d
    rw [hg, Broker.setConn_conns]
    split_ifs with hdc
    · rw [hdc]
      rfl
    · rfl
  have hnoticed : ∀ d, g.noticed d = b.noticed d := fun d => by
    rw [Broker.noticed, hlog, Broker.noticed]
  have hpcs : ∀ d, d ≠ c ∧ (g.conns d).pc = (b.conns d).pc ∨ (g.conns d).pc.Light := by
    intro d
    rw [hg, Broker.setConn_conns]
    split_ifs with hdc
    · exact .inr hpc
    · exact .inl ⟨hdc, rfl⟩
  have hpending : ∀ d p, (g.conns d).pc.pending = some p →
      d ≠ c ∧ (b.conns d).pc.pending = some p := by
    intro d p hp
    rcases hpcs d with ⟨hdc, heq⟩ | hlight
    · exact ⟨hdc, heq ▸ hp⟩
    · rw [hlight.pending] at hp
      cases hp
  refine ⟨?_, ?_, ?_, ?_, ?_, ?_, ?_, ?_, ?_, ?_⟩
  · intro k w hwk
    rw [hw] at hwk
    simp only [hk, hnoticed]
    exact h.waiting k w hwk
  · intro k w e hwk he
    rw [hw] at hwk
    exact h.own k w e hwk (hsome _ _ _ he)
  · intro k w hwk hchecked
    rw [hw] at hwk
    have hne : ¬(w.conn = c ∧ w.channel = ch) := by
      rintro ⟨hc, hc'⟩
      have := hch k (h.waiting k w hwk).1 w hwk hc hc'
      rw [hchecked] at this
      cases this
    simp only [hentry, hd, if_neg hne]
    exact h.checked k w hwk hchecked
  · intro d ch' e ended hp
    obtain ⟨hdc, hp⟩ := hpending d _ hp
    have hne : ¬(d = c ∧ ch' = ch) := fun hand => hdc hand.1
    simp only [hentry, if_neg hne, hk, hw, hd, hnoticed]
    exact h.pending d ch' e ended hp
  · intro d d' p p' hp hp'
    exact h.distinct d d' p p' (hpending d p hp).2 (hpending d' p' hp').2
  · intro d ch' id n hatt
    rcases hpcs d with ⟨hdc, heq⟩ | hlight
    · rw [hentry, if_neg fun hand => hdc hand.1]
      exact h.attaching d ch' id n (heq ▸ hatt)
    · rw [hatt] at hlight
      exact hlight.elim
  · intro d f hrep
    rcases hpcs d with ⟨-, heq⟩ | hlight
    · exact h.replies d f (heq ▸ hrep)
    · rwa [hrep] at hlight
  · intro n hdead
    rw [hd] at hdead
    rw [hn]
    exact h.born n hdead
  · intro d ch' k current hf
    rw [hlog] at hf
    rw [hk]
    exact h.notices d ch' k current hf
  · intro d
    rw [hnoticed]
    exact h.once d

theorem Notices.noticed_lt {b : Broker} (h : Notices b) {c k : ℕ} (hk : k ∈ b.noticed c) :
    k < b.nextSerial := by
  obtain ⟨f, hf, hk⟩ := List.mem_filterMap.mp hk
  cases f with
  | ended ch j current =>
    cases hk
    exact (h.notices c ch k current hf).1
  | _ => cases hk

/-- A channel without an entry gets one, and no waiter runs for the same channel and id. -/
theorem Notices.attach {b g : Broker} {c ch pos pos' : ℕ} {e : Entry} {history : List UInt8}
    {ended : Bool} (h : Notices b)
    (hg : g.conns = (b.setConn c { (b.conns c).joins ch e pos with
      pc := .acking ch e pos' history ended }).conns)
    (he : b.entry c ch = none) (hs : e.serial = b.nextSerial) (hw : g.waiters = b.waiters)
    (hk : g.nextSerial = b.nextSerial + 1)
    (hd : ∀ n, (g.sessions n).dead = (b.sessions n).dead) (hn : g.nextSession = b.nextSession)
    (hend : ended = true → (b.sessions e.session).dead = true)
    (hfree : ∀ k < b.nextSerial, ∀ w ∈ b.waiters k,
      ¬(w.conn = c ∧ w.channel = ch ∧ w.id = e.id)) : Notices g := by
  have hentry : ∀ d ch', g.entry d ch' = if d = c ∧ ch' = ch then some e else b.entry d ch' := by
    intro d ch'
    rw [Broker.entry, hg, Broker.setConn_conns]
    by_cases hdc : d = c
    · subst hdc
      rw [if_pos rfl]
      simp only [Conn.joins, Conn.say_attached, List.lookup_cons, true_and]
      by_cases hch : ch' = ch
      · simp [hch]
      · rw [beq_eq_false_iff_ne.mpr hch, if_neg hch, Broker.entry]
    · rw [if_neg hdc, if_neg fun hand => hdc hand.1, Broker.entry]
  have hsay : ∀ d, (b.conns d).log.filterMap Frame.noticed = (g.conns d).log.filterMap Frame.noticed ∧
      ∀ ch' k current, Frame.ended ch' k current ∈ (g.conns d).log →
        Frame.ended ch' k current ∈ (b.conns d).log := by
    intro d
    rw [hg, Broker.setConn_conns]
    split_ifs with hdc
    · subst hdc
      exact ⟨(joins_noticed _ ch e pos).symm, fun _ _ _ hf => mem_joins_ended hf⟩
    · exact ⟨rfl, fun _ _ _ hf => hf⟩
  have hnoticed : ∀ d, g.noticed d = b.noticed d := fun d => (hsay d).1.symm
  have hpcs : ∀ d, d ≠ c → (g.conns d).pc = (b.conns d).pc := by
    intro d hdc
    rw [hg, Broker.setConn_conns, if_neg hdc]
  have hpc : (g.conns c).pc = .acking ch e pos' history ended := by
    rw [hg, Broker.setConn_conns, if_pos rfl]
  have hfresh : ∀ d p, d ≠ c → (g.conns d).pc.pending = some p → p.2.1.serial < b.nextSerial := by
    intro d p hdc hp
    rw [hpcs d hdc] at hp
    exact (h.pending d p.1 p.2.1 p.2.2 hp).2.1
  refine ⟨?_, ?_, ?_, ?_, ?_, ?_, ?_, ?_, ?_, ?_⟩
  · intro k w hwk
    rw [hw] at hwk
    obtain ⟨hlt, hnot⟩ := h.waiting k w hwk
    simp only [hk, hnoticed]
    exact ⟨by omega, hnot⟩
  · intro k w e' hwk he' hid
    rw [hw] at hwk
    rw [hentry] at he'
    split_ifs at he' with hand
    · cases he'
      exact absurd ⟨hand.1, hand.2, hid.symm⟩ (hfree k (h.waiting k w hwk).1 w hwk)
    · exact h.own k w e' hwk he' hid
  · intro k w hwk hchecked
    rw [hw] at hwk
    obtain ⟨e', he', hser, hdead⟩ := h.checked k w hwk hchecked
    refine ⟨e', ?_, hser, by rwa [hd]⟩
    rw [hentry, if_neg]
    · exact he'
    · rintro ⟨hc, hc'⟩
      rw [hc, hc', he] at he'
      cases he'
  · intro d ch' e' ended' hp
    simp only [hk, hw, hd, hnoticed]
    by_cases hdc : d = c
    · subst hdc
      rw [hpc] at hp
      cases hp
      refine ⟨by rw [hentry, if_pos ⟨rfl, rfl⟩], by omega, ?_, hend, ?_⟩
      · cases hwk : b.waiters e.serial with
        | none => rfl
        | some w =>
          have := (h.waiting _ w hwk).1
          omega
      · intro d hmem
        have := h.noticed_lt hmem
        omega
    · rw [hpcs d hdc] at hp
      obtain ⟨he', hlt, hrest⟩ := h.pending d ch' e' ended' hp
      refine ⟨?_, by omega, hrest⟩
      rw [hentry, if_neg fun hand => hdc hand.1]
      exact he'
  · intro d d' p p' hp hp' hser
    by_cases hdc : d = c
    · by_cases hdc' : d' = c
      · rw [hdc, hdc']
      · subst hdc
        rw [hpc] at hp
        cases hp
        have := hfresh d' p' hdc' hp'
        simp only at hser
        omega
    · by_cases hdc' : d' = c
      · subst hdc'
        rw [hpc] at hp'
        cases hp'
        have := hfresh d p hdc hp
        simp only at hser
        omega
      · rw [hpcs d hdc] at hp
        rw [hpcs d' hdc'] at hp'
        exact h.distinct d d' p p' hp hp' hser
  · intro d ch' id n hatt
    by_cases hdc : d = c
    · subst hdc
      rw [hpc] at hatt
      cases hatt
    · rw [hpcs d hdc] at hatt
      rw [hentry, if_neg fun hand => hdc hand.1]
      exact h.attaching d ch' id n hatt
  · intro d f hrep
    by_cases hdc : d = c
    · subst hdc
      rw [hpc] at hrep
      cases hrep
    · rw [hpcs d hdc] at hrep
      exact h.replies d f hrep
  · intro n hdead
    rw [hd] at hdead
    rw [hn]
    exact h.born n hdead
  · intro d ch' k current hf
    obtain ⟨hlt, hcur⟩ := h.notices d ch' k current ((hsay d).2 ch' k current hf)
    exact ⟨by omega, hcur⟩
  · intro d
    rw [hnoticed]
    exact h.once d

/-- A notice that was not given yet is written for the attachment that is current. -/
theorem Notices.notice {b g : Broker} {c ch k : ℕ} {e : Entry} (h : Notices b) (pc : Pc)
    (hg : g.conns = (b.setConn c
      { (b.conns c).say (.ended ch k (b.current c ch)) with pc := pc }).conns)
    (hpc : pc = (b.conns c).pc ∨ pc.Light) (hcur : b.current c ch = some (e, true))
    (he : e.serial = k) (hlt : k < b.nextSerial) (hnew : ∀ d, k ∉ b.noticed d)
    (hw : ∀ j w, g.waiters j = some w → b.waiters j = some w ∧ j ≠ k)
    (hp : ∀ d p, (g.conns d).pc.pending = some p → p.2.1.serial ≠ k)
    (hwp : ∀ j, b.waiters j = none → g.waiters j = none) (hk : g.nextSerial = b.nextSerial)
    (hd : g.sessions = b.sessions) (hn : g.nextSession = b.nextSession) : Notices g := by
  have hentry : ∀ d ch', g.entry d ch' = b.entry d ch' := by
    intro d ch'
    rw [Broker.entry, hg, Broker.setConn_conns]
    split_ifs with hdc
    · subst hdc
      simp [Broker.entry]
    · rfl
  have hlog : ∀ d, (g.conns d).log = (b.conns d).log ∨
      d = c ∧ (g.conns d).log = (b.conns d).log ++ [.ended ch k (some (e, true))] := by
    intro d
    rw [hg, Broker.setConn_conns]
    split_ifs with hdc
    · subst hdc
      simp only [Conn.say_log, hcur]
      split_ifs
      · exact .inl rfl
      · exact .inr ⟨trivial, rfl⟩
    · exact .inl rfl
  have hnoticed : ∀ d, g.noticed d = b.noticed d ∨ d = c ∧ g.noticed d = b.noticed d ++ [k] := by
    intro d
    rcases hlog d with heq | ⟨hdc, heq⟩
    · exact .inl (by rw [Broker.noticed, heq, Broker.noticed])
    · refine .inr ⟨hdc, ?_⟩
      rw [Broker.noticed, heq, List.filterMap_append, Broker.noticed]
      rfl
  have hnot : ∀ j d, j ≠ k → j ∉ b.noticed d → j ∉ g.noticed d := by
    intro j d hj hmem
    rcases hnoticed d with heq | ⟨-, heq⟩
    · rwa [heq]
    · rw [heq, List.mem_append, List.mem_singleton]
      rintro (hin | rfl)
      · exact hmem hin
      · exact hj rfl
  have hpcs : ∀ d, (g.conns d).pc = (b.conns d).pc ∨ (g.conns d).pc.Light := by
    intro d
    rw [hg, Broker.setConn_conns]
    split_ifs with hdc
    · subst hdc
      exact hpc
    · exact .inl rfl
  have hpending : ∀ d p, (g.conns d).pc.pending = some p → (b.conns d).pc.pending = some p := by
    intro d p hp
    rcases hpcs d with heq | hlight
    · rwa [heq] at hp
    · rw [hlight.pending] at hp
      cases hp
  refine ⟨?_, ?_, ?_, ?_, ?_, ?_, ?_, ?_, ?_, ?_⟩
  · intro j w hwj
    obtain ⟨hwj, hj⟩ := hw j w hwj
    obtain ⟨hjlt, hjnot⟩ := h.waiting j w hwj
    exact ⟨by rwa [hk], fun d => hnot j d hj (hjnot d)⟩
  · intro j w e' hwj he'
    rw [hentry] at he'
    exact h.own j w e' (hw j w hwj).1 he'
  · intro j w hwj hchecked
    simp only [hentry, hd]
    exact h.checked j w (hw j w hwj).1 hchecked
  · intro d ch' e' ended hpd
    obtain ⟨he', hjlt, hwj, hdead, hjnot⟩ := h.pending d ch' e' ended (hpending d _ hpd)
    simp only [hentry, hk, hd]
    exact ⟨he', hjlt, hwp _ hwj, hdead, fun d' => hnot _ d' (hp d _ hpd) (hjnot d')⟩
  · intro d d' p p' hpd hpd'
    exact h.distinct d d' p p' (hpending d p hpd) (hpending d' p' hpd')
  · intro d ch' id n hatt
    rw [hentry]
    rcases hpcs d with heq | hlight
    · exact h.attaching d ch' id n (heq ▸ hatt)
    · rw [hatt] at hlight
      exact hlight.elim
  · intro d f hrep
    rcases hpcs d with heq | hlight
    · exact h.replies d f (heq ▸ hrep)
    · rwa [hrep] at hlight
  · intro n hdead
    rw [hd] at hdead
    rw [hn]
    exact h.born n hdead
  · intro d ch' j current hf
    rw [hk]
    rcases hlog d with heq | ⟨-, heq⟩
    · exact h.notices d ch' j current (heq ▸ hf)
    · rw [heq, List.mem_append, List.mem_singleton] at hf
      rcases hf with hf | hf
      · exact h.notices d ch' j current hf
      · cases hf
        exact ⟨hlt, e, rfl, he⟩
  · intro d
    rcases hnoticed d with heq | ⟨-, heq⟩
    · rw [heq]
      exact h.once d
    · rw [heq]
      exact (h.once d).append (List.nodup_singleton k) (by simpa using hnew d)

/-- A waiter starts for the attachment a goroutine has just answered. -/
theorem Notices.spawn {b : Broker} {c ch : ℕ} {e : Entry} (h : Notices b)
    (hp : (b.conns c).pc.pending = some (ch, e, false)) :
    Notices (b.attachDone c ch e false) := by
  obtain ⟨he, hlt, hnone, -, hnew⟩ := h.pending c ch e false hp
  have hpcs : ∀ d, d ≠ c ∧ ((b.attachDone c ch e false).conns d).pc = (b.conns d).pc ∨
      d = c ∧ ((b.attachDone c ch e false).conns d).pc = .idle := by
    intro d
    rw [Broker.attachDone, if_neg Bool.false_ne_true, Broker.setPc, Broker.setConn_conns]
    split_ifs with hdc
    · exact .inr ⟨hdc, rfl⟩
    · exact .inl ⟨hdc, rfl⟩
  have hpending : ∀ d p, ((b.attachDone c ch e false).conns d).pc.pending = some p →
      d ≠ c ∧ (b.conns d).pc.pending = some p := by
    intro d p hpd
    rcases hpcs d with ⟨hdc, heq⟩ | ⟨-, heq⟩
    · exact ⟨hdc, heq ▸ hpd⟩
    · rw [heq] at hpd
      cases hpd
  have hentry : ∀ d ch', (b.attachDone c ch e false).entry d ch' = b.entry d ch' := by
    intro d ch'
    rw [Broker.attachDone, if_neg Bool.false_ne_true, Broker.setPc, Broker.entry,
      Broker.setConn_conns, Broker.entry]
    split_ifs with hdc
    · rw [hdc]
    · rfl
  have hlog : ∀ d, ((b.attachDone c ch e false).conns d).log = (b.conns d).log := by
    intro d
    rw [Broker.attachDone, if_neg Bool.false_ne_true, Broker.setPc, Broker.setConn_conns]
    split_ifs with hdc
    · rw [hdc]
    · rfl
  have hnoticed : ∀ d, (b.attachDone c ch e false).noticed d = b.noticed d := fun d => by
    rw [Broker.noticed, hlog, Broker.noticed]
  have hw : ∀ k w, (b.attachDone c ch e false).waiters k = some w →
      k = e.serial ∧ w = { conn := c, channel := ch, id := e.id, session := e.session } ∨
        k ≠ e.serial ∧ b.waiters k = some w := by
    intro k w hwk
    have hwk' : Function.update b.waiters e.serial _ k = some w := hwk
    rw [Function.update_apply] at hwk'
    split_ifs at hwk' with hk
    · exact .inl ⟨hk, (Option.some.inj hwk').symm⟩
    · exact .inr ⟨hk, hwk'⟩
  refine ⟨?_, ?_, ?_, ?_, ?_, ?_, ?_, h.born, ?_, ?_⟩
  · intro k w hwk
    simp only [hnoticed]
    rcases hw k w hwk with ⟨rfl, -⟩ | ⟨-, hwk⟩
    · exact ⟨hlt, hnew⟩
    · exact h.waiting k w hwk
  · intro k w e' hwk he' hid
    rw [hentry] at he'
    rcases hw k w hwk with ⟨rfl, rfl⟩ | ⟨-, hwk⟩
    · cases he.symm.trans he'
      exact ⟨rfl, rfl⟩
    · exact h.own k w e' hwk he' hid
  · intro k w hwk hchecked
    simp only [hentry]
    rcases hw k w hwk with ⟨-, rfl⟩ | ⟨-, hwk⟩
    · cases hchecked
    · exact h.checked k w hwk hchecked
  · intro d ch' e' ended hpd
    obtain ⟨hdc, hpd⟩ := hpending d _ hpd
    obtain ⟨he', hlt', hnone', hdead, hnew'⟩ := h.pending d ch' e' ended hpd
    have hne : e'.serial ≠ e.serial := fun heq => hdc (h.distinct d c _ _ hpd hp heq)
    simp only [hentry, hnoticed]
    refine ⟨he', hlt', ?_, hdead, hnew'⟩
    exact (Function.update_of_ne hne _ _).trans hnone'
  · intro d d' p p' hpd hpd'
    exact h.distinct d d' p p' (hpending d p hpd).2 (hpending d' p' hpd').2
  · intro d ch' id n hatt
    rw [hentry]
    rcases hpcs d with ⟨-, heq⟩ | ⟨-, heq⟩
    · exact h.attaching d ch' id n (heq ▸ hatt)
    · rw [heq] at hatt
      cases hatt
  · intro d f hrep
    rcases hpcs d with ⟨-, heq⟩ | ⟨-, heq⟩
    · exact h.replies d f (heq ▸ hrep)
    · rw [heq] at hrep
      cases hrep
  · intro d ch' k current hf
    rw [hlog] at hf
    exact h.notices d ch' k current hf
  · intro d
    rw [hnoticed]
    exact h.once d

/-- A waiter that saw its own entry may be marked, and any waiter may stop. -/
theorem Notices.wakes {b : Broker} (h : Notices b) {waiters : ℕ → Option Waiter}
    (hw : ∀ k w, waiters k = some w → ∃ v, b.waiters k = some v ∧ w.conn = v.conn ∧
      w.channel = v.channel ∧ w.id = v.id ∧ w.session = v.session ∧
      (w.checked = true → v.checked = true ∨
        (b.sessions v.session).dead = true ∧ (b.entry v.conn v.channel).map Entry.id = some v.id))
    (hn : ∀ k, b.waiters k = none → waiters k = none) : Notices { b with waiters := waiters } := by
  refine ⟨?_, ?_, ?_, ?_, h.distinct, h.attaching, h.replies, h.born, h.notices, h.once⟩
  · intro k w hwk
    obtain ⟨v, hv, -⟩ := hw k w hwk
    exact h.waiting k v hv
  · intro k w e hwk he hid
    obtain ⟨v, hv, hconn, hchannel, hvid, hsession, -⟩ := hw k w hwk
    rw [hsession]
    refine h.own k v e hv ?_ (by rw [hid, hvid])
    rw [← hconn, ← hchannel]
    exact he
  · intro k w hwk hchecked
    obtain ⟨v, hv, hconn, hchannel, -, -, hcases⟩ := hw k w hwk
    rw [hconn, hchannel]
    rcases hcases hchecked with hold | ⟨hdead, hid⟩
    · exact h.checked k v hv hold
    · obtain ⟨e, he, hid⟩ := Option.map_eq_some_iff.mp hid
      obtain ⟨hser, hses⟩ := h.own k v e hv he hid
      exact ⟨e, he, hser, by rw [hses]; exact hdead⟩
  · intro c ch e ended hp
    obtain ⟨he, hlt, hnone, hrest⟩ := h.pending c ch e ended hp
    exact ⟨he, hlt, hn _ hnone, hrest⟩

theorem Frame.Plain.noticed {f : Frame} (h : f.Plain) : f.noticed = none := by
  cases f <;> first | rfl | exact h.elim

theorem setSession_dead {b : Broker} {n : ℕ} {s : Session}
    (hs : s.dead = (b.sessions n).dead) (m : ℕ) :
    ((b.setSession n s).sessions m).dead = (b.sessions m).dead := by
  rw [Broker.setSession_sessions]
  split_ifs with hm
  · rw [hm, hs]
  · rfl

/-- What leaves every attachment alone on the session's side. -/
structure SameDead (b g : Broker) : Prop where
  conns : g.conns = b.conns
  waiters : g.waiters = b.waiters
  nextSerial : g.nextSerial = b.nextSerial
  nextSession : g.nextSession = b.nextSession
  dead : ∀ n, (g.sessions n).dead = (b.sessions n).dead

theorem setSession_sameDead {b : Broker} {n : ℕ} {s : Session}
    (hs : s.dead = (b.sessions n).dead) : SameDead b (b.setSession n s) :=
  ⟨rfl, rfl, rfl, rfl, setSession_dead hs⟩

theorem detachSession_sameDead (b : Broker) (c n : ℕ) : SameDead b (b.detachSession c n) := by
  rcases detachSession_cases b c n with heq | heq <;> rw [heq]
  · exact ⟨rfl, rfl, rfl, rfl, fun _ => rfl⟩
  · exact setSession_sameDead (by rfl)

theorem kill_sameDead (b : Broker) (n : Option ℕ) : SameDead b (b.kill n) := by
  cases n with
  | none => exact ⟨rfl, rfl, rfl, rfl, fun _ => rfl⟩
  | some n => exact setSession_sameDead (by rfl)

theorem receive_sameDead (b : Broker) (c ch n : ℕ) (event : Event) :
    SameDead b (b.receive c ch n event) := by
  unfold Broker.receive
  split_ifs
  · exact ⟨rfl, rfl, rfl, rfl, fun _ => rfl⟩
  · exact setSession_sameDead (by rfl)

theorem SameDead.setConn {b g : Broker} (h : SameDead b g) (c : ℕ) (y : Conn) :
    (g.setConn c y).conns = (b.setConn c y).conns := by
  simp [Broker.setConn, h.conns]

/-- A session changes in what no notice depends on, and one goroutine moves quietly. -/
theorem SameDead.notices {b g : Broker} {c : ℕ} {y : Conn} (hd : SameDead b g) (h : Notices b)
    (hy : (b.conns c).Quietly y) : Notices (g.setConn c y) :=
  h.same (.conn (hd.setConn c y) hy hd.waiters hd.nextSerial hd.dead hd.nextSession.ge)

theorem SameDead.refl (b : Broker) : SameDead b b := ⟨rfl, rfl, rfl, rfl, fun _ => rfl⟩

theorem Notices.goto {b : Broker} {c : ℕ} {pc : Pc} (h : Notices b) (hpc : pc.Light) :
    Notices (b.setConn c { b.conns c with pc := pc }) :=
  (SameDead.refl b).notices h (.goto hpc)

theorem Notices.setSession {b : Broker} {n : ℕ} {s : Session} (h : Notices b)
    (hs : s.dead = (b.sessions n).dead) : Notices (b.setSession n s) :=
  h.same (.sessions rfl rfl rfl (fun m hm => by rwa [setSession_dead hs])
    (fun m hm => .inl (by rwa [setSession_dead hs] at hm)) le_rfl)

theorem attachDone_notices {b : Broker} {c ch : ℕ} {e : Entry} {ended : Bool} (h : Notices b)
    (hp : (b.conns c).pc.pending = some (ch, e, ended)) : Notices (b.attachDone c ch e ended) := by
  cases ended with
  | false => exact h.spawn hp
  | true =>
    rw [Broker.attachDone, if_pos rfl]
    refine (SameDead.refl b).notices h ⟨rfl, rfl, fun _ _ _ hf => hf, ?_, ?_, ?_⟩
    · intro p hp'
      exact hp.trans hp'
    · intro ch' id n heq
      cases heq
    · intro f heq
      cases heq

theorem Notices.create {b : Broker} {c : ℕ} {id : String} {f : Frame} (h : Notices b)
    (hf : f.Plain) :
    Notices ({ b.setSession b.nextSession (b.fresh id) with
      manager := Function.update b.manager id (some b.nextSession)
      nextSession := b.nextSession + 1 }.setConn c { b.conns c with pc := .reply f }) := by
  refine h.same (.conn rfl (.goto hf) rfl rfl ?_ (Nat.le_succ _))
  intro n
  apply setSession_dead
  cases hd : (b.sessions b.nextSession).dead with
  | false => rfl
  | true => exact absurd (h.born _ hd) (lt_irrefl _)

/-- A waiter past its check writes; its entry is still there. -/
theorem Notices.notify {b : Broker} {k : ℕ} {w : Waiter} (h : Notices b)
    (hw : b.waiters k = some w) (hch : w.checked = true) :
    Notices ({ b with waiters := Function.update b.waiters k none }.setConn w.conn
      ((b.conns w.conn).say (.ended w.channel k (b.current w.conn w.channel)))) := by
  obtain ⟨e, he, hser, hdead⟩ := h.checked k w hw hch
  obtain ⟨hlt, hnew⟩ := h.waiting k w hw
  have hcur : b.current w.conn w.channel = some (e, true) := by
    rw [Broker.current, he, Option.map_some, hdead]
  refine h.notice (b.conns w.conn).pc ?_ (.inl rfl) hcur hser hlt hnew ?_ ?_ ?_ rfl rfl rfl
  · unfold Conn.say Broker.setConn
    split_ifs <;> rfl
  · intro j v hv
    have hv' : Function.update b.waiters k none j = some v := hv
    rw [Function.update_apply] at hv'
    split_ifs at hv' with hj
    exact ⟨hv', hj⟩
  · intro d p hp heq
    rw [Broker.setConn_conns] at hp
    have hp' : (b.conns d).pc.pending = some p := by
      split_ifs at hp with hd
      · rwa [Conn.say_pc, ← hd] at hp
      · exact hp
    have hnone := (h.pending d p.1 p.2.1 p.2.2 hp').2.2.1
    rw [heq, hw] at hnone
    cases hnone
  · intro j hj
    show Function.update b.waiters k none j = none
    rw [Function.update_apply]
    split_ifs
    · rfl
    · exact hj

theorem Notices.ending {b : Broker} {c ch : ℕ} {e : Entry} (h : Notices b)
    (hpc : (b.conns c).pc = .ending ch e) :
    Notices (b.setConn c
      { (b.conns c).say (.ended ch e.serial (b.current c ch)) with pc := .idle }) := by
  have hp : (b.conns c).pc.pending = some (ch, e, true) := by
    rw [hpc]
    rfl
  obtain ⟨he, hlt, hnone, hdead, hnew⟩ := h.pending c ch e true hp
  have hcur : b.current c ch = some (e, true) := by
    rw [Broker.current, he, Option.map_some, hdead rfl]
  refine h.notice _ rfl (.inr rfl) hcur rfl hlt hnew ?_ ?_ (fun _ hj => hj) rfl rfl rfl
  · intro j w hw
    refine ⟨hw, ?_⟩
    rintro rfl
    have hw' : b.waiters e.serial = some w := hw
    rw [hnone] at hw'
    cases hw'
  · intro d p hpd heq
    rw [Broker.setConn_conns] at hpd
    split_ifs at hpd with hdc
    · cases hpd
    · exact hdc (h.distinct d c p _ hpd hp heq)

theorem step_notices {b g : Broker} {a : Action} (h : Notices b) (hu : Unwatched b a)
    (hs : step b a = some g) : Notices g := by
  cases step_sound hs with
  | accept => exact h.same (.sessions rfl rfl rfl (fun _ hd => hd) (fun _ hd => .inl hd) le_rfl)
  | refuse hc hpc hf => exact h.goto hf
  | create hc hpc hm => exact h.create trivial
  | @attachLookup c id ch n hc hpc hm he =>
    refine (SameDead.refl b).notices h ⟨rfl, rfl, fun _ _ _ hf => hf, ?_, ?_, ?_⟩
    · intro p hp
      cases hp
    · intro ch' id' n' heq
      cases heq
      exact .inr he
    · intro f heq
      cases heq
  | @detachLost c ch e hc hpc he hm =>
    exact h.drop rfl (by trivial) rfl rfl (fun _ => rfl) rfl (hu e he hm)
  | detachLookup hc hpc he hm => exact h.goto rfl
  | close hc hpc he =>
    exact h.same (.conn rfl (.goto rfl) rfl rfl (fun _ => rfl) le_rfl)
  | ignore => exact h
  | feed hc hpc he hm => exact h.goto rfl
  | @reply c f hpc =>
    have hf := h.replies c f hpc
    exact (SameDead.refl b).notices h ((Conn.Quietly.say hf.noticed).trans (.goto rfl))
  | @attachEnded c ch id n hpc hd =>
    have hfree := hu
    simp only [Unwatched, hpc] at hfree
    exact h.attach rfl (h.attaching c ch id n hpc) rfl rfl rfl (fun _ => rfl) rfl (fun _ => hd)
      (hfree (.inl hd))
  | attachRefused hpc hd hw => exact h.goto trivial
  | @attachLive c ch id n hpc hd hw =>
    have hfree := hu
    simp only [Unwatched, hpc] at hfree
    exact h.attach rfl (h.attaching c ch id n hpc) rfl rfl rfl (setSession_dead (by rfl)) rfl nofun
      (hfree (.inr hw))
  | attachFails hpc hb => exact h.goto rfl
  | @ackHistory c ch e pos history ended hpc hb hh =>
    refine (SameDead.refl b).notices h ((Conn.Quietly.say (f := .attached ch none) rfl).trans
      ⟨rfl, rfl, fun _ _ _ hf => hf, ?_, ?_, ?_⟩)
    · intro p hp
      rw [Conn.say_pc, hpc]
      exact hp
    · intro ch' id n heq
      cases heq
    · intro f heq
      cases heq
  | @ack c ch e pos ended hpc hb =>
    have h' : Notices (b.setConn c ((b.conns c).say (.attached ch none))) :=
      (SameDead.refl b).notices h (.say rfl)
    exact attachDone_notices h' (by simp [hpc, Pc.pending])
  | @replay c ch e pos history ended hpc hb =>
    have h' : Notices (b.setConn c ((b.conns c).say (.history ch e.session pos history))) :=
      (SameDead.refl b).notices h (.say rfl)
    exact attachDone_notices h' (by simp [hpc, Pc.pending])
  | ending hpc => exact h.ending hpc
  | @detached c ch n hpc =>
    have hd := detachSession_sameDead b c n
    have hfree := hu
    simp only [Unwatched, hpc] at hfree
    exact h.drop (hd.setConn c _) (by trivial) hd.waiters hd.nextSerial hd.dead hd.nextSession
      hfree
  | @closed c ch n hpc =>
    have hd := kill_sameDead b n
    have hfree := hu
    simp only [Unwatched, hpc] at hfree
    exact h.drop (hd.setConn c _) (by trivial) hd.waiters hd.nextSerial hd.dead hd.nextSession
      hfree
  | @receive c ch n event hpc => exact (receive_sameDead b c ch n event).notices h (.goto rfl)
  | gone hpc =>
    refine (SameDead.refl b).notices h ⟨rfl, rfl, fun _ _ _ hf => hf, ?_, ?_, ?_⟩
    · intro p hp
      cases hp
    · intro ch' id n heq
      cases heq
    · intro f heq
      cases heq
  | @leave a c ids pc hids hpc =>
    refine h.goto ?_
    rcases hids with rfl | ⟨n, rfl⟩ <;> rfl
  | @leaveOne c n ids hpc => exact (detachSession_sameDead b c n).notices h (.goto rfl)
  | lose hc =>
    exact (SameDead.refl b).notices h
      ⟨rfl, rfl, fun _ _ _ hf => hf, fun _ hp => hp, fun _ _ _ heq => .inl heq,
        fun _ heq => .inl heq⟩
  | read hn hk hp hlen => exact h.setSession (by rfl)
  | lookupNone hp hw => exact h.setSession (by rfl)
  | lookup hp hw => exact h.setSession (by rfl)
  | send hp => exact (setSession_sameDead (by rfl)).notices h (.say rfl)
  | @exit n hn =>
    refine h.same (.sessions rfl rfl rfl ?_ ?_ le_rfl)
    · intro m hm
      rw [Broker.setSession_sessions]
      split_ifs
      · rfl
      · exact hm
    · intro m hm
      rw [Broker.setSession_sessions] at hm
      split_ifs at hm with heq
      · exact .inr (heq ▸ hn)
      · exact .inl hm
  | @wake k w hw hd hid =>
    refine h.wakes ?_ ?_
    · intro j v hv
      rw [Function.update_apply] at hv
      split_ifs at hv with hj
      · cases hv
        exact ⟨w, hj ▸ hw, rfl, rfl, rfl, rfl, fun _ => .inr ⟨hd, hid⟩⟩
      · exact ⟨v, hv, rfl, rfl, rfl, rfl, .inl⟩
    · intro j hj
      rw [Function.update_of_ne]
      · exact hj
      · rintro rfl
        rw [hw] at hj
        cases hj
  | @wakeStale k =>
    refine h.wakes ?_ ?_
    · intro j v hv
      rw [Function.update_apply] at hv
      split_ifs at hv
      exact ⟨v, hv, rfl, rfl, rfl, rfl, .inl⟩
    · intro j hj
      rw [Function.update_apply]
      split_ifs
      · rfl
      · exact hj
  | notify hw hch => exact h.notify hw hch

/-- ENDED notices: in every run in which a pair of channel and id is attached again only when no
waiter of an earlier attachment of it runs, and an entry is not dropped between a waiter's check
and its write, an ENDED is written only while an attachment is current on the channel whose
session has exited, and for each attachment at most once. -/
theorem ended_once (ringBufBytes : ℤ) (as : List Action) (b : Broker)
    (hrun : run step (newManager ringBufBytes) as = some b)
    (hok : Along step Unwatched (newManager ringBufBytes) as) (c : ℕ) :
    (∀ ch k current, Frame.ended ch k current ∈ (b.conns c).log →
      ∃ e, current = some (e, true) ∧ e.serial = k) ∧
    ((b.conns c).log.filterMap Frame.noticed).Nodup := by
  have h : Notices b :=
    run_invariant_along (fun _ _ _ h hu hs => step_notices h hu hs)
      (newManager_notices ringBufBytes) hrun hok
  exact ⟨fun ch k current hf => (h.notices c ch k current hf).2, h.once c⟩

/-- A session ends while attached; then it is detached and attached again. -/
def reattachedDead : List Action :=
  [.accept, .request 0 (.create "s" none), .resume 0, .request 0 (.attach "s" 1), .resume 0,
    .resume 0, .exit 0, .wake 0, .notify 0, .request 0 (.detach 1), .resume 0, .resume 0,
    .request 0 (.attach "s" 1), .resume 0, .resume 0, .resume 0]

theorem ended_once_reattached :
    (run step (newManager 4) reattachedDead).map
        (fun b => (b.conns 0).log.filterMap Frame.noticed) = some [0, 1] ∧
    ∀ b, run step (newManager 4) reattachedDead = some b → ∀ c,
      (∀ ch k current, Frame.ended ch k current ∈ (b.conns c).log →
        ∃ e, current = some (e, true) ∧ e.serial = k) ∧
      ((b.conns c).log.filterMap Frame.noticed).Nodup :=
  ⟨by decide +kernel, fun b hrun c =>
    ended_once 4 reattachedDead b hrun (by decide +kernel) c⟩

/-- Channel 1 is closed, the id created again and attached on channel 1; only then does the first
session's process end. -/
def staleWaiter : List Action :=
  [.accept, .request 0 (.create "s" none), .resume 0, .request 0 (.attach "s" 1), .resume 0,
    .resume 0, .request 0 (.close 1), .resume 0, .resume 0, .request 0 (.create "s" none),
    .resume 0, .request 0 (.attach "s" 1), .resume 0, .resume 0, .exit 0, .wake 0, .notify 0]

theorem stale_waiter_ends_live_session :
    ¬∀ ringBufBytes as b, run step (newManager ringBufBytes) as = some b → ∀ c,
      (∀ ch k current, Frame.ended ch k current ∈ (b.conns c).log →
        ∃ e, current = some (e, true) ∧ e.serial = k) ∧
      ((b.conns c).log.filterMap Frame.noticed).Nodup := by
  intro h
  have hended : (run step (newManager 4) staleWaiter).map
      (fun b => decide (Frame.ended 1 0 (some (⟨"s", 1, 1⟩, false)) ∈ (b.conns 0).log)) =
        some true := by decide +kernel
  obtain ⟨b, hrun, hb⟩ := Option.map_eq_some_iff.mp hended
  obtain ⟨e, he, -⟩ := (h 4 staleWaiter b hrun 0).1 1 0 _ (of_decide_eq_true hb)
  cases he

end ClaudeFleet.BrokerServer
