import ClaudeFleet.BrokerStep

/-! Input on a channel reaches the session that was attached on it. A table entry holds an id
only, and the id is resolved when it is used: the entry must not outlive its incarnation's place
in the manager until the id is taken again. -/
namespace ClaudeFleet.BrokerServer
open Transition

/-- A connection's entries, and the session an ATTACH in progress has looked up, are those the
manager would give now, if it gives any. -/
structure Conn.Resolves (manager : String → Option ℕ) (x : Conn) : Prop where
  entries : ∀ p ∈ x.attached, ∀ m, manager p.2.id = some m → m = p.2.session
  attaching : ∀ ch id n, x.pc = .attaching ch id n → ∀ m, manager id = some m → m = n
  feeding : ∀ ch n event, x.pc = .feeding ch n event →
    (x.attached.lookup ch).map Entry.session = some n

variable {manager manager' : String → Option ℕ} {x : Conn}

theorem Conn.Resolves.mono (h : x.Resolves manager)
    (hm : ∀ id m, manager' id = some m → manager id = some m) : x.Resolves manager' where
  entries p hp m hmgr := h.entries p hp m (hm _ _ hmgr)
  attaching ch id n hpc m hmgr := h.attaching ch id n hpc m (hm _ _ hmgr)
  feeding := h.feeding

theorem Conn.Resolves.say (h : x.Resolves manager) (f : Frame) :
    (x.say f).Resolves manager where
  entries := by simpa using h.entries
  attaching := by simpa using h.attaching
  feeding := by simpa using h.feeding

/-- Points of a goroutine that hold no session it will attach or feed. -/
def Pc.Inert : Pc → Prop
  | .attaching _ _ _ | .feeding _ _ _ => False
  | _ => True

theorem Conn.Resolves.inert (h : x.Resolves manager) {pc : Pc} (hpc : pc.Inert)
    {table : List (ℕ × Entry)} (ht : ∀ p ∈ table, p ∈ x.attached) {broken : Bool}
    {log : List Frame} : Conn.Resolves manager ⟨table, pc, broken, log⟩ where
  entries p hp := h.entries p (ht p hp)
  attaching ch id n heq := by
    simp only at heq
    rw [heq] at hpc
    exact hpc.elim
  feeding ch n event heq := by
    simp only at heq
    rw [heq] at hpc
    exact hpc.elim

/-- `Session.Attach` went to the session that was looked up. -/
theorem Conn.Resolves.joins (h : x.Resolves manager) {ch n k pos : ℕ} {id : String}
    (hpc : x.pc = .attaching ch id n) {pos' : ℕ} {history : List UInt8} {ended : Bool} :
    Conn.Resolves manager { x.joins ch ⟨id, n, k⟩ pos with
      pc := .acking ch ⟨id, n, k⟩ pos' history ended } where
  entries p hp m hm := by
    simp only [Conn.joins, Conn.say_attached, List.mem_cons] at hp
    rcases hp with rfl | hp
    · exact h.attaching ch id n hpc m hm
    · exact h.entries p hp m hm
  attaching ch' id' n' heq := by cases heq
  feeding ch' n' event heq := by cases heq

theorem lookup_mem {table : List (ℕ × Entry)} {ch : ℕ} {e : Entry}
    (h : table.lookup ch = some e) : (ch, e) ∈ table := by
  induction table with
  | nil => cases h
  | cons p table ih =>
    rw [List.lookup_cons] at h
    by_cases hp : ch = p.1
    · subst hp
      simp only [beq_self_eq_true] at h
      cases h
      exact List.mem_cons_self
    · simp only [beq_eq_false_iff_ne.mpr hp] at h
      exact List.mem_cons_of_mem _ (ih h)

structure Isolated (b : Broker) : Prop where
  conns : ∀ c, (b.conns c).Resolves b.manager
  inputs : ∀ n, ∀ r ∈ (b.sessions n).inputs, r.bound = some n
  unborn : ∀ c, b.nextConn ≤ c → (b.conns c).attached = [] ∧ (b.conns c).pc = .idle

theorem newManager_isolated (ringBufBytes : ℤ) : Isolated (newManager ringBufBytes) where
  conns c := ⟨by simp [newManager], by simp [newManager], by simp [newManager]⟩
  inputs n r hr := by simp [newManager] at hr
  unborn c _ := ⟨rfl, rfl⟩

/-- The id an ATTACH has looked up but not attached yet. -/
def Pc.attachingId : Pc → Option String
  | .attaching _ id _ => some id
  | _ => none

/-- A CREATE that is granted comes when no connection still has the id in its table, and none has
an ATTACH for an earlier session of it in progress. -/
def FreshId (b : Broker) : Action → Prop
  | .request _ (.create id none) => b.manager id = none → ∀ c < b.nextConn,
      (∀ p ∈ (b.conns c).attached, p.2.id ≠ id) ∧ (b.conns c).pc.attachingId ≠ some id
  | _ => True

instance (b : Broker) (a : Action) : Decidable (FreshId b a) := by
  unfold FreshId
  split <;> infer_instance

section

variable {b g : Broker} {c : ℕ} {y : Conn}

/-- One connection changes, and nothing is received. -/
theorem Isolated.conn (h : Isolated b) (hg : g.conns = (b.setConn c y).conns)
    (hy : y.Resolves b.manager) (hu : b.nextConn ≤ c → y.attached = [] ∧ y.pc = .idle)
    (hm : ∀ id m, g.manager id = some m → b.manager id = some m)
    (hin : ∀ n, (g.sessions n).inputs = (b.sessions n).inputs) (hn : g.nextConn = b.nextConn) :
    Isolated g where
  conns d := by
    rw [hg, Broker.setConn_conns]
    split_ifs
    · exact hy.mono hm
    · exact (h.conns d).mono hm
  inputs n := by
    rw [hin]
    exact h.inputs n
  unborn d hd := by
    rw [hn] at hd
    rw [hg, Broker.setConn_conns]
    split_ifs with heq
    · subst heq
      exact hu hd
    · exact h.unborn d hd

theorem Isolated.lt_of_pc (h : Isolated b) (hpc : (b.conns c).pc ≠ .idle) : c < b.nextConn := by
  by_contra hc
  exact hpc (h.unborn c (not_lt.mp hc)).2

end

theorem Isolated.inert {b g : Broker} {c : ℕ} (h : Isolated b) (hc : c < b.nextConn)
    {table : List (ℕ × Entry)} {pc : Pc} {broken : Bool} {log : List Frame}
    (hg : g.conns = (b.setConn c ⟨table, pc, broken, log⟩).conns) (hpc : pc.Inert)
    (ht : ∀ p ∈ table, p ∈ (b.conns c).attached)
    (hm : ∀ id m, g.manager id = some m → b.manager id = some m)
    (hin : ∀ n, (g.sessions n).inputs = (b.sessions n).inputs) (hn : g.nextConn = b.nextConn) :
    Isolated g :=
  h.conn hg ((h.conns c).inert hpc ht) (fun hle => absurd hc (not_lt.mpr hle)) hm hin hn

/-- Only a frame is written. -/
theorem Isolated.say {b g : Broker} {c : ℕ} {f : Frame} (h : Isolated b)
    (hg : g.conns = (b.setConn c ((b.conns c).say f)).conns) (hm : g.manager = b.manager)
    (hin : ∀ n, (g.sessions n).inputs = (b.sessions n).inputs) (hn : g.nextConn = b.nextConn) :
    Isolated g := by
  refine h.conn hg ((h.conns c).say f) ?_ (fun id m h => by rwa [hm] at h) hin hn
  intro hle
  rw [Conn.say_attached, Conn.say_pc]
  exact h.unborn c hle

/-- Only sessions change, and what they received stays. -/
theorem Isolated.sessions {b g : Broker} (h : Isolated b) (hg : g.conns = b.conns)
    (hm : g.manager = b.manager) (hn : g.nextConn = b.nextConn)
    (hin : ∀ n, ∀ r ∈ (g.sessions n).inputs, r ∈ (b.sessions n).inputs ∨ r.bound = some n) :
    Isolated g where
  conns c := by
    rw [hg, hm]
    exact h.conns c
  inputs n r hr := (hin n r hr).elim (h.inputs n r) id
  unborn c hc := by
    rw [hg]
    exact h.unborn c (hn ▸ hc)

theorem setSession_inputs {b : Broker} {n : ℕ} {s : Session}
    (hs : s.inputs = (b.sessions n).inputs) (m : ℕ) :
    ((b.setSession n s).sessions m).inputs = (b.sessions m).inputs := by
  rw [Broker.setSession_sessions]
  split_ifs with hm
  · rw [hm, hs]
  · rfl

theorem Isolated.setSession {b : Broker} {n : ℕ} {s : Session} (h : Isolated b)
    (hs : s.inputs = (b.sessions n).inputs) : Isolated (b.setSession n s) :=
  h.sessions rfl rfl rfl fun m r hr => .inl (by rwa [setSession_inputs hs] at hr)

theorem attachDone_isolated {b : Broker} {c ch : ℕ} {e : Entry} {ended : Bool} (h : Isolated b)
    (hc : c < b.nextConn) : Isolated (b.attachDone c ch e ended) := by
  unfold Broker.attachDone
  split_ifs
  · exact h.inert hc rfl (by trivial) (fun p hp => hp) (fun _ _ hm => hm) (fun _ => rfl) rfl
  · exact h.inert hc rfl (by trivial) (fun p hp => hp) (fun _ _ hm => hm) (fun _ => rfl) rfl

theorem detachSession_inputs (b : Broker) (c n m : ℕ) :
    ((b.detachSession c n).sessions m).inputs = (b.sessions m).inputs := by
  unfold Broker.detachSession
  split
  · split_ifs
    · exact setSession_inputs (by rfl) m
    · rfl
  · rfl

theorem detachSession_manager (b : Broker) (c n : ℕ) :
    (b.detachSession c n).manager = b.manager := by
  unfold Broker.detachSession
  split
  · split_ifs <;> rfl
  · rfl

theorem detachSession_nextConn (b : Broker) (c n : ℕ) :
    (b.detachSession c n).nextConn = b.nextConn := by
  unfold Broker.detachSession
  split
  · split_ifs <;> rfl
  · rfl

theorem detachSession_isolated {b : Broker} (h : Isolated b) (c n : ℕ) :
    Isolated (b.detachSession c n) :=
  h.sessions (detachSession_conns b c n) (detachSession_manager b c n)
    (detachSession_nextConn b c n) fun m r hr => .inl (by rwa [detachSession_inputs] at hr)

theorem kill_isolated {b : Broker} (h : Isolated b) (n : Option ℕ) : Isolated (b.kill n) := by
  cases n with
  | none => exact h
  | some n => exact h.setSession (by rfl)

/-- The input goes to the session the channel is attached to. -/
theorem receive_isolated {b : Broker} {c ch n : ℕ} {event : Event} (h : Isolated b)
    (hpc : (b.conns c).pc = .feeding ch n event) : Isolated (b.receive c ch n event) := by
  unfold Broker.receive
  split_ifs
  · exact h
  · refine h.sessions rfl rfl rfl fun m r hr => ?_
    rw [Broker.setSession_sessions] at hr
    split_ifs at hr with hm
    · simp only [List.mem_append, List.mem_singleton] at hr
      rcases hr with hr | rfl
      · exact .inl (hm ▸ hr)
      · exact .inr (by rw [hm]; exact (h.conns c).feeding ch n event hpc)
    · exact .inl hr

theorem update_none {manager : String → Option ℕ} {id : String} :
    ∀ i m, Function.update manager id none i = some m → manager i = some m := by
  intro i m h
  rw [Function.update_apply] at h
  split_ifs at h
  exact h

theorem Isolated.create {b : Broker} {c : ℕ} {id : String} (h : Isolated b) (hc : c < b.nextConn)
    (hm : b.manager id = none) (hf : FreshId b (.request c (.create id none))) (f : Frame) :
    Isolated ({ b.setSession b.nextSession (b.fresh id) with
      manager := Function.update b.manager id (some b.nextSession)
      nextSession := b.nextSession + 1 }.setConn c { b.conns c with pc := .reply f }) := by
  have hold : ∀ d, (b.conns d).Resolves (Function.update b.manager id (some b.nextSession)) := by
    intro d
    have hfree : (∀ p ∈ (b.conns d).attached, p.2.id ≠ id) ∧
        (b.conns d).pc.attachingId ≠ some id := by
      by_cases hd : d < b.nextConn
      · exact hf hm d hd
      · obtain ⟨ht, hpc⟩ := h.unborn d (not_lt.mp hd)
        simp [ht, hpc, Pc.attachingId]
    refine ⟨?_, ?_, (h.conns d).feeding⟩
    · intro p hp m hmgr
      rw [Function.update_of_ne (hfree.1 p hp)] at hmgr
      exact (h.conns d).entries p hp m hmgr
    · intro ch i n hpc m hmgr
      have hne : i ≠ id := by
        rintro rfl
        exact hfree.2 (by rw [hpc]; rfl)
      rw [Function.update_of_ne hne] at hmgr
      exact (h.conns d).attaching ch i n hpc m hmgr
  refine ⟨?_, ?_, ?_⟩
  · intro d
    rw [Broker.setConn_conns]
    split_ifs
    · exact (hold c).inert (by trivial) fun p hp => hp
    · exact hold d
  · intro n r hr
    simp only [Broker.setConn_sessions, Broker.setSession_sessions] at hr
    split_ifs at hr with hn
    · simp [Broker.fresh] at hr
    · exact h.inputs n r hr
  · intro d hd
    have hd' : b.nextConn ≤ d := hd
    rw [Broker.setConn_conns, if_neg (by omega)]
    exact h.unborn d hd'

theorem step_isolated {b g : Broker} {a : Action} (h : Isolated b) (hf : FreshId b a)
    (hs : step b a = some g) : Isolated g := by
  cases step_sound hs with
  | accept => exact ⟨h.conns, h.inputs, fun c hc => h.unborn c (by simp only at hc; omega)⟩
  | refuse hc hpc hplain =>
    exact h.inert hc rfl (by trivial) (fun p hp => hp) (fun _ _ hm => hm) (fun _ => rfl) rfl
  | create hc hpc hm => exact h.create hc hm hf _
  | @attachLookup c id ch n hc hpc hm he =>
    refine h.conn rfl ⟨(h.conns c).entries, ?_, ?_⟩ (fun hle => absurd hc (not_lt.mpr hle))
      (fun _ _ hm => hm) (fun _ => rfl) rfl
    · intro ch' id' n' heq m hm'
      cases heq
      exact Option.some.inj (hm'.symm.trans hm)
    · intro ch' n' event heq
      cases heq
  | detachLost hc hpc he hm =>
    exact h.inert hc rfl (by trivial) (fun p hp => List.mem_of_mem_filter hp) (fun _ _ hm => hm)
      (fun _ => rfl) rfl
  | detachLookup hc hpc he hm =>
    exact h.inert hc rfl (by trivial) (fun p hp => hp) (fun _ _ hm => hm) (fun _ => rfl) rfl
  | close hc hpc he =>
    exact h.inert hc rfl (by trivial) (fun p hp => hp) update_none (fun _ => rfl) rfl
  | ignore => exact h
  | @feed c ch event e n hc hpc he hm =>
    refine h.conn rfl ⟨(h.conns c).entries, ?_, ?_⟩ (fun hle => absurd hc (not_lt.mpr hle))
      (fun _ _ hm => hm) (fun _ => rfl) rfl
    · intro ch' id' n' heq
      cases heq
    · intro ch' n' event' heq
      cases heq
      have he' : (b.conns c).attached.lookup ch = some e := he
      rw [he', Option.map_some, Option.some.injEq]
      exact ((h.conns c).entries _ (lookup_mem he') n hm).symm
  | @reply c f hpc =>
    have hc := h.lt_of_pc (c := c) (by rw [hpc]; exact nofun)
    exact h.inert hc rfl (by trivial) (fun p hp => by simpa using hp) (fun _ _ hm => hm)
      (fun _ => rfl) rfl
  | @attachEnded c ch id n hpc hd =>
    have hc := h.lt_of_pc (c := c) (by rw [hpc]; exact nofun)
    exact h.conn rfl ((h.conns c).joins hpc) (fun hle => absurd hc (not_lt.mpr hle))
      (fun _ _ hm => hm) (fun _ => rfl) rfl
  | @attachRefused c ch id n w hpc hd hw =>
    have hc := h.lt_of_pc (c := c) (by rw [hpc]; exact nofun)
    exact h.inert hc rfl (by trivial) (fun p hp => hp) (fun _ _ hm => hm) (fun _ => rfl) rfl
  | @attachLive c ch id n hpc hd hw =>
    have hc := h.lt_of_pc (c := c) (by rw [hpc]; exact nofun)
    exact h.conn rfl ((h.conns c).joins hpc) (fun hle => absurd hc (not_lt.mpr hle))
      (fun _ _ hm => hm) (setSession_inputs (by rfl)) rfl
  | @attachFails c ch e pos history ended hpc hb =>
    have hc := h.lt_of_pc (c := c) (by rcases hpc with hpc | hpc <;> rw [hpc] <;> exact nofun)
    exact h.inert hc rfl (by trivial) (fun p hp => hp) (fun _ _ hm => hm) (fun _ => rfl) rfl
  | @ackHistory c ch e pos history ended hpc hb hh =>
    have hc := h.lt_of_pc (c := c) (by rw [hpc]; exact nofun)
    exact h.inert hc rfl (by trivial) (fun p hp => by simpa using hp) (fun _ _ hm => hm)
      (fun _ => rfl) rfl
  | @ack c ch e pos ended hpc hb =>
    have hc := h.lt_of_pc (c := c) (by rw [hpc]; exact nofun)
    exact attachDone_isolated (h.say rfl rfl (fun _ => rfl) rfl) hc
  | @replay c ch e pos history ended hpc hb =>
    have hc := h.lt_of_pc (c := c) (by rw [hpc]; exact nofun)
    exact attachDone_isolated (h.say rfl rfl (fun _ => rfl) rfl) hc
  | @ending c ch e hpc =>
    have hc := h.lt_of_pc (c := c) (by rw [hpc]; exact nofun)
    exact h.inert hc rfl (by trivial) (fun p hp => by simpa using hp) (fun _ _ hm => hm)
      (fun _ => rfl) rfl
  | @detached c ch n hpc =>
    have hc := h.lt_of_pc (c := c) (by rw [hpc]; exact nofun)
    have h' := detachSession_isolated h c n
    refine h'.inert (by rwa [detachSession_nextConn]) rfl (by trivial) ?_ (fun _ _ hm => hm)
      (fun _ => rfl) rfl
    intro p hp
    rw [detachSession_conns]
    exact List.mem_of_mem_filter hp
  | @closed c ch n hpc =>
    have hc := h.lt_of_pc (c := c) (by rw [hpc]; exact nofun)
    have h' := kill_isolated h n
    refine h'.inert (by cases n <;> exact hc) rfl (by trivial) ?_ (fun _ _ hm => hm)
      (fun _ => rfl) rfl
    intro p hp
    rw [kill_conns]
    exact List.mem_of_mem_filter hp
  | @receive c ch n event hpc =>
    have hc := h.lt_of_pc (c := c) (by rw [hpc]; exact nofun)
    have h' := receive_isolated h hpc
    refine h'.inert ?_ rfl (by trivial) ?_ (fun _ _ hm => hm) (fun _ => rfl) rfl
    · unfold Broker.receive
      split_ifs <;> exact hc
    · intro p hp
      rwa [receive_conns]
  | @gone c hpc =>
    have hc := h.lt_of_pc (c := c) (by rw [hpc]; exact nofun)
    exact h.inert hc rfl (by trivial) (fun p hp => hp) (fun _ _ hm => hm) (fun _ => rfl) rfl
  | @leave a c ids pc' hids hpc =>
    have hc : c < b.nextConn := by
      rcases hpc with hpc | ⟨id, hpc⟩
      · exact hpc.2
      · exact h.lt_of_pc (by rw [hpc]; exact nofun)
    refine h.inert hc rfl ?_ (fun p hp => hp) (fun _ _ hm => hm) (fun _ => rfl) rfl
    rcases hids with rfl | ⟨n, rfl⟩ <;> trivial
  | @leaveOne c n ids hpc =>
    have hc := h.lt_of_pc (c := c) (by rw [hpc]; exact nofun)
    have h' := detachSession_isolated h c n
    refine h'.inert (by rwa [detachSession_nextConn]) rfl (by trivial) ?_ (fun _ _ hm => hm)
      (fun _ => rfl) rfl
    intro p hp
    rwa [detachSession_conns]
  | @lose c hc =>
    refine h.conn rfl ?_ (fun hle => absurd hc (not_lt.mpr hle)) (fun _ _ hm => hm) (fun _ => rfl)
      rfl
    exact ⟨(h.conns c).entries, (h.conns c).attaching, (h.conns c).feeding⟩
  | read hn hk hp hlen => exact h.setSession (by rfl)
  | lookupNone hp hw => exact h.setSession (by rfl)
  | lookup hp hw => exact h.setSession (by rfl)
  | send hp => exact h.say rfl rfl (setSession_inputs (by rfl)) rfl
  | exit hn => exact h.setSession (by rfl)
  | wake hw hd hid => exact h.sessions rfl rfl rfl fun m r hr => .inl hr
  | wakeStale => exact h.sessions rfl rfl rfl fun m r hr => .inl hr
  | notify hw hch => exact h.say rfl rfl (fun _ => rfl) rfl

/-- Channel isolation: in every run in which no CREATE takes an id that some connection still has
in its table, INPUT and RESIZE reach only the incarnation that the connection itself attached on
the channel and has neither detached nor closed. -/
theorem input_reaches_attached (ringBufBytes : ℤ) (as : List Action) (b : Broker)
    (hrun : run step (newManager ringBufBytes) as = some b)
    (hok : Along step FreshId (newManager ringBufBytes) as) (n : ℕ) (r : Received)
    (hr : r ∈ (b.sessions n).inputs) : r.bound = some n := by
  have h : Isolated b :=
    run_invariant_along (fun _ _ _ h hf hs => step_isolated h hf hs)
      (newManager_isolated ringBufBytes) hrun hok
  exact h.inputs n r hr

/-- A session is attached, closed and created again under its id; the second one is attached and
fed on the same channel. -/
def recreated : List Action :=
  [.accept, .request 0 (.create "s" none), .resume 0, .request 0 (.attach "s" 1), .resume 0,
    .resume 0, .request 0 (.feed 1 (.input [97])), .resume 0, .request 0 (.close 1), .resume 0,
    .resume 0, .request 0 (.create "s" none), .resume 0, .request 0 (.attach "s" 1), .resume 0,
    .resume 0, .request 0 (.feed 1 (.input [98])), .resume 0]

theorem input_reaches_attached_recreated :
    (run step (newManager 4) recreated).map
        (fun b => ((b.sessions 0).inputs, (b.sessions 1).inputs)) =
      some ([⟨0, 1, .input [97], some 0⟩], [⟨0, 1, .input [98], some 1⟩]) ∧
    ∀ b, run step (newManager 4) recreated = some b →
      ∀ n, ∀ r ∈ (b.sessions n).inputs, r.bound = some n :=
  ⟨by decide +kernel, fun b hrun n r hr =>
    input_reaches_attached 4 recreated b hrun (by decide +kernel) n r hr⟩

/-- The first connection keeps channel 1 when its session exits; the second attaches the dead
session, closes it and creates the id again. -/
def staleEntry : List Action :=
  [.accept, .accept, .request 0 (.create "s" none), .resume 0, .request 0 (.attach "s" 1),
    .resume 0, .resume 0, .exit 0, .request 1 (.attach "s" 5), .resume 1, .resume 1, .resume 1,
    .request 1 (.close 5), .resume 1, .resume 1, .request 1 (.create "s" none), .resume 1,
    .request 0 (.feed 1 (.input [120])), .resume 0]

theorem stale_entry_feeds_new_session :
    ¬∀ ringBufBytes as b, run step (newManager ringBufBytes) as = some b →
      ∀ n, ∀ r ∈ (b.sessions n).inputs, r.bound = some n := by
  intro h
  have hinputs : (run step (newManager 4) staleEntry).map (fun b => (b.sessions 1).inputs) =
      some [⟨0, 1, .input [120], some 0⟩] := by decide +kernel
  obtain ⟨b, hrun, hb⟩ := Option.map_eq_some_iff.mp hinputs
  have hbound := h 4 staleEntry b hrun 1 ⟨0, 1, .input [120], some 0⟩ (by rw [hb]; simp)
  exact absurd hbound (by decide)

end ClaudeFleet.BrokerServer
