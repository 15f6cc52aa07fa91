import ClaudeFleet.AttachHub

/-! What each operation of the hub writes, and what a step of it can do. -/
namespace ClaudeFleet.AttachHub

/-- The taps a waiting handler will go on with. -/
def Pc.taps : Pc → List ℕ
  | .joining t _ _ | .attaching t _ _ | .closing t _ _ | .closed t _ => [t]
  | _ => []

def Viewer.taps (x : Viewer) : List ℕ := x.channels.map Prod.snd ++ x.pc.taps

/-- A handler at this point holds no place in a tap and waits for no open attempt. -/
def Pc.Quiet : Pc → Prop
  | .joining _ _ _ | .attaching _ _ .ok => False
  | _ => True

/-- Frames that start no channel and carry no output. -/
def Frame.Quiet : Frame → Prop
  | .joined _ _ _ | .attached _ _ _ | .history _ _ | .output _ _ => False
  | _ => True

/-- The owner map, its clock, the broker and the pruning passes. -/
structure Ledger where
  owners : String → Option String
  ownerSeq : String → Option ℕ
  seq : ℕ
  broker : Broker
  prunes : ℕ → Option Prune

def Hub.ledger (h : Hub) : Ledger := ⟨h.owners, h.ownerSeq, h.seq, h.broker, h.prunes⟩

@[simp] theorem Viewer.send_key (x : Viewer) (fs : List Frame) : (x.send fs).key = x.key := by
  unfold Viewer.send
  split_ifs <;> rfl

@[simp] theorem Viewer.send_channels (x : Viewer) (fs : List Frame) :
    (x.send fs).channels = x.channels := by
  unfold Viewer.send
  split_ifs <;> rfl

@[simp] theorem Viewer.send_closed (x : Viewer) (fs : List Frame) :
    (x.send fs).closed = x.closed := by
  unfold Viewer.send
  split_ifs <;> rfl

@[simp] theorem Viewer.send_pc (x : Viewer) (fs : List Frame) : (x.send fs).pc = x.pc := by
  unfold Viewer.send
  split_ifs <;> rfl

theorem attached_viewer {h : Hub} {v t ch : ℕ} (hc : (h.viewers v).closed = false) :
    h.attachResume v t ch .ok = h.setViewer v
      { h.viewers v with
        channels := (h.viewers v).channels ++ [(ch, t)]
        log := (h.viewers v).log ++ welcome (h.taps t) t ch
        pc := .idle } := by
  rw [Hub.attachResume, if_neg (by simp [hc])]
  simp [Hub.finish, Hub.setViewer, Viewer.send, hc]

section Drop

variable (h : Hub) (t v : ℕ)

@[simp] theorem dropUpstream_taps :
    (h.dropUpstream t).taps = Function.update h.taps t { h.taps t with upstream := none } := by
  simp only [Hub.dropUpstream]
  split <;> rfl

@[simp] theorem dropUpstream_viewers : (h.dropUpstream t).viewers = h.viewers := by
  simp only [Hub.dropUpstream]
  split <;> rfl

theorem dropUpstream_conns (c : ℕ) :
    (h.dropUpstream t).conns c =
      if (h.taps t).upstream = some c ∧ (h.conns c).status = .up then
        { h.conns c with status := .detaching }
      else h.conns c := by
  simp only [Hub.dropUpstream]
  split
  · next d hd =>
    simp only [Hub.detachConn, Hub.setConn, Hub.retire, Hub.setTap, hd, Option.some.injEq]
    by_cases hc : c = d
    · subst hc
      by_cases hup : (h.conns c).status = .up <;> simp [hup]
    · simp [hc, Ne.symm hc]
  · next hd => simp [hd, Hub.retire, Hub.setTap]

@[simp] theorem dropUpstream_nextTap : (h.dropUpstream t).nextTap = h.nextTap := by
  simp only [Hub.dropUpstream]
  split <;> rfl

@[simp] theorem dropUpstream_ledger : (h.dropUpstream t).ledger = h.ledger := by
  simp only [Hub.dropUpstream]
  split <;> rfl

theorem leave_taps :
    (h.leave t v).taps = Function.update h.taps t
      { (h.taps t).withoutViewer v with
        upstream := if (h.taps t).lastViewer v then none else (h.taps t).upstream } := by
  simp only [Hub.leave]
  split_ifs with hl
  · simp [Hub.setTap]
  · rfl

@[simp] theorem leave_viewers : (h.leave t v).viewers = h.viewers := by
  simp only [Hub.leave]
  split_ifs
  · simp [Hub.setTap]
  · rfl

theorem leave_conns (c : ℕ) :
    (h.leave t v).conns c =
      if (h.taps t).lastViewer v ∧ (h.taps t).upstream = some c ∧ (h.conns c).status = .up then
        { h.conns c with status := .detaching }
      else h.conns c := by
  simp only [Hub.leave]
  split_ifs with hl hs hs
  · simp [dropUpstream_conns, Hub.setTap, Tap.withoutViewer, hs.2.1, hs.2.2]
  · have : ¬((h.taps t).upstream = some c ∧ (h.conns c).status = .up) := fun hx => hs ⟨hl, hx⟩
    simp [dropUpstream_conns, Hub.setTap, Tap.withoutViewer, this]
  · exact absurd hs.1 hl
  · rfl

@[simp] theorem leave_nextTap : (h.leave t v).nextTap = h.nextTap := by
  simp only [Hub.leave]
  split_ifs
  · simp [Hub.setTap]
  · rfl

@[simp] theorem leave_ledger : (h.leave t v).ledger = h.ledger := by
  simp only [Hub.leave]
  split_ifs
  · exact dropUpstream_ledger _ t
  · rfl

end Drop

/-- What the handlers, callbacks and the broker can do in a state. -/
inductive Step (h : Hub) : Action → Hub → Prop
  | reply {a v frames} (hpc : (h.viewers v).pc.Quiet) (hq : ∀ f ∈ frames, Frame.Quiet f)
      (hn : ∀ id n, (h.viewers v).pc ≠ .creating id (some (some n))) : Step h a (h.finish v frames)
  | wait {v id ch t c} (hr : h.ready v) (hch : h.hasChannel v ch = false)
      (hid : h.readsSession v id = false) (hl : h.live id = some t)
      (hu : (h.taps t).upstream = none) (ho : (h.taps t).opening = some c) :
      Step h (.attach v id ch) (h.setPc v (.joining t ch c))
  | reopen {v id ch t} (hr : h.ready v) (hl : h.live id = some t)
      (ho : (h.taps t).opening = none) :
      Step h (.attach v id ch) ((h.openTap t).setPc v (.joining t ch h.nextConn))
  | openNew {v id ch} (hr : h.ready v) (hok : validSessionId id = true ∧ isChannel ch = true)
      (hch : h.hasChannel v ch = false) (hid : h.readsSession v id = false)
      (hl : h.live id = none) :
      Step h (.attach v id ch)
        (((h.tap id).1.openTap h.nextTap).setPc v (.joining h.nextTap ch h.nextConn))
  | registerNow {v id ch t} (hr : h.ready v) (hch : h.hasChannel v ch = false)
      (hid : h.readsSession v id = false) (hl : h.live id = some t)
      (hu : (h.taps t).upstream ≠ none ∨ (h.taps t).ended = true) :
      Step h (.attach v id ch) (h.register v t ch)
  | joinOk {v t ch c} (hpc : (h.viewers v).pc = .joining t ch c)
      (hr : (h.conns c).result = some .ok) : Step h (.joinResume v) (h.register v t ch)
  | joinRefused {v t ch c error} (hpc : (h.viewers v).pc = .joining t ch c)
      (hr : (h.conns c).result = some (.refused error)) :
      Step h (.joinResume v) (h.joinResume v t ch (.refused error))
  | attachedClosed {v t ch} (hpc : (h.viewers v).pc = .attaching t ch .ok)
      (hc : (h.viewers v).closed = true) :
      Step h (.attachResume v) ((h.leave t v).setPc v (.leaving (h.leaveConn t v)))
  | attached {v t ch} (hpc : (h.viewers v).pc = .attaching t ch .ok)
      (hc : (h.viewers v).closed = false) :
      Step h (.attachResume v) (h.attachResume v t ch .ok)
  | detach {v ch t} (hr : h.ready v) (hl : (h.viewers v).channels.lookup ch = some t) :
      Step h (.detach v ch)
        (((h.dropChannel v ch).leave t v).setPc v (.detaching ch (h.leaveConn t v)))
  | closeAsk {v ch t c} (hr : h.ready v) (hl : h.ownedTap v ch = some t)
      (hu : (h.taps t).upstream = some c) :
      Step h (.close v ch) ((h.dropChannel v ch).setPc v (.closing t ch c))
  | closeEnd {v ch t} (hr : h.ready v) (hl : h.ownedTap v ch = some t)
      (hu : (h.taps t).upstream = none) :
      Step h (.close v ch) (((h.dropChannel v ch).endTap t .closed).setPc v (.closed t ch))
  | closeReply {v t ch c} (hpc : (h.viewers v).pc = .closing t ch c) :
      Step h (.closeReply v true) ((h.endTap t .closed).setPc v (.closed t ch))
  | closeResume {v t ch} (hpc : (h.viewers v).pc = .closed t ch) :
      Step h (.closeResume v) ((h.dropOwner (h.taps t).id).finish v [.closed ch])
  | create {v id argsOk} (hr : h.ready v) :
      Step h (.create v id argsOk) (h.setPc v (.creating id none))
  | created {v id n} (hpc : (h.viewers v).pc = .creating id (some (some n))) :
      Step h (.createReply v) (h.created v id n)
  | createFail {v id answer} (hpc : (h.viewers v).pc = .creating id answer) :
      Step h (.createFail v) (h.finish v [.createRefused none "broker request failed"])
  | dispose {v} (hc : (h.viewers v).closed = false) : Step h (.dispose v) (h.dispose v)
  | accept {c} : Step h (.accept c) (h.setConn c { h.conns c with accepted := true })
  | openOk {c} (hc : c < h.nextConn) (hr : (h.conns c).result = none) :
      Step h (.openOk c)
        ((h.setConn c { h.conns c with result := some .ok }).setTap (h.conns c).tap
          { h.taps (h.conns c).tap with upstream := some c })
  | openFail {c error} (hc : c < h.nextConn) (hr : (h.conns c).result = none) :
      Step h (.openFail c error)
        (h.setConn c { h.conns c with result := some (.refused error), status := .closed })
  | deliver {a c body frame} (hc : c < h.nextConn) (hs : (h.conns c).status ≠ .closed)
      (hf : frame = (fun ch => Frame.history ch body) ∨ frame = fun ch => Frame.output ch body) :
      Step h a (h.fanOut (h.conns c).tap body frame)
  | ended {c} (hc : c < h.nextConn) (hs : (h.conns c).status ≠ .closed) :
      Step h (.ended c) (h.endTap (h.conns c).tap .exit)
  | gone {c} (hc : c < h.nextConn) (hs : (h.conns c).status = .up) :
      Step h (.gone c)
        ((h.setConn c { h.conns c with status := .closed }).endTap (h.conns c).tap .brokerGone)
  | detached {c} (hs : (h.conns c).status = .detaching) :
      Step h (.detached c) (h.setConn c { h.conns c with status := .closed })
  | shutdown : Step h .shutdown h.shutdown
  | brokerCreate {v id} (hpc : (h.viewers v).pc = .creating id none) :
      Step h (.brokerCreate v)
        ({ h with broker := (h.broker.create id (some (h.viewers v).key)).1 }.setPc v
          (.creating id (some (h.broker.create id (some (h.viewers v).key)).2)))
  | brokerSpawn {id} :
      Step h (.brokerSpawn id) { h with broker := (h.broker.create id none).1 }
  | brokerExit {id} :
      Step h (.brokerExit id)
        { h with
          broker := { h.broker with
            sessions := Function.update h.broker.sessions id
              ((h.broker.sessions id).map fun i => { i with alive := false }) } }
  | brokerClose {id} :
      Step h (.brokerClose id)
        { h with
          broker := { h.broker with sessions := Function.update h.broker.sessions id none } }
  | pruneMark {k} :
      Step h (.pruneMark k) { h with prunes := Function.update h.prunes k (some ⟨h.seq, none⟩) }
  | pruneList {k mark} (hp : h.prunes k = some ⟨mark, none⟩) :
      Step h (.pruneList k)
        { h with prunes := Function.update h.prunes k (some ⟨mark, some h.broker.alive⟩) }
  | pruneApply {k mark live} (hp : h.prunes k = some ⟨mark, some live⟩) :
      Step h (.pruneApply k)
        { h.pruneOwners live mark with prunes := Function.update h.prunes k none }

theorem attach_step {h : Hub} {v : ℕ} (hr : h.ready v) (id : String) (ch : ℕ) :
    Step h (.attach v id ch) (h.attach v id ch) := by
  have hidle : (h.viewers v).pc.Quiet := by rw [hr.1]; trivial
  have hrefuse (e : String) : Step h (.attach v id ch) (h.finish v [.attachRefused ch e]) :=
    .reply hidle (by simp [Frame.Quiet]) (by simp [hr.1])
  unfold Hub.attach
  split_ifs with hbad hch hid
  · exact hrefuse _
  · exact hrefuse _
  · exact hrefuse _
  · rw [Bool.not_eq_true] at hch hid
    cases hl : h.live id with
    | none =>
      have hjoin : (h.tap id).1.join v (h.tap id).2 ch =
          ((h.tap id).1.openTap h.nextTap).setPc v (.joining h.nextTap ch h.nextConn) := by
        simp [Hub.tap, hl, Hub.join, Hub.setTap]
      rw [hjoin]
      exact .openNew hr (by simpa using hbad) hch hid hl
    | some t =>
      have htap : h.tap id = (h, t) := by simp [Hub.tap, hl]
      rw [htap]
      simp only [Hub.join]
      split_ifs with hu
      · split
        · next c ho => exact .wait hr hch hid hl hu.1 ho
        · next ho => exact .reopen hr hl ho
      · refine .registerNow hr hch hid hl ?_
        by_cases hup : (h.taps t).upstream = none
        · exact Or.inr (by simpa [hup] using hu)
        · exact Or.inl hup

theorem ownedTap_eq_some {h : Hub} {v ch t : ℕ} :
    h.ownedTap v ch = some t ↔
      (h.viewers v).channels.lookup ch = some t ∧
        h.owners (h.taps t).id = some (h.viewers v).key := by
  simp [Hub.ownedTap, Option.filter_eq_some_iff]

theorem close_step {h : Hub} {v : ℕ} (hr : h.ready v) (ch : ℕ) :
    Step h (.close v ch) (h.close v ch) := by
  have hidle : (h.viewers v).pc.Quiet := by rw [hr.1]; trivial
  unfold Hub.close
  split
  · exact .reply hidle (by simp [Frame.Quiet]) (by simp [hr.1])
  · next t hl =>
    split_ifs with hown
    · exact .reply hidle (by simp [Frame.Quiet]) (by simp [hr.1])
    · have howned := ownedTap_eq_some.mpr ⟨hl, not_not.mp hown⟩
      dsimp only
      split
      · next c hu => exact .closeAsk hr howned hu
      · next hu => exact .closeEnd hr howned hu

theorem step_sound {h g : Hub} {a : Action} (hs : step h a = some g) : Step h a g := by
  cases a with
  | attach v id ch =>
    simp only [step, Option.ite_none_right_eq_some, Option.some.injEq] at hs
    obtain ⟨hr, rfl⟩ := hs
    exact attach_step hr id ch
  | joinResume v =>
    simp only [step] at hs
    split at hs
    · next t ch c hpc =>
      obtain ⟨r, hr, rfl⟩ := Option.map_eq_some_iff.mp hs
      cases r with
      | ok => exact .joinOk hpc hr
      | refused error => exact .joinRefused hpc hr
    · cases hs
  | attachResume v =>
    simp only [step] at hs
    split at hs
    · next t ch r hpc =>
      simp only [Option.some.injEq] at hs
      subst hs
      cases r with
      | refused error =>
        exact .reply (by rw [hpc]; trivial) (by simp [Frame.Quiet]) (by simp [hpc])
      | ok =>
        by_cases hc : (h.viewers v).closed = true
        · simp only [Hub.attachResume, hc, if_true]
          exact .attachedClosed hpc hc
        · exact .attached hpc (by simpa using hc)
    · cases hs
  | leaveResume v =>
    simp only [step] at hs
    split at hs
    · next c hpc =>
      simp only [Option.ite_none_right_eq_some, Option.some.injEq] at hs
      rw [← hs.2]
      exact .reply (by rw [hpc]; trivial) (by simp) (by simp [hpc])
    · cases hs
  | detach v ch =>
    simp only [step, Option.ite_none_right_eq_some, Option.some.injEq] at hs
    obtain ⟨hr, rfl⟩ := hs
    unfold Hub.detach
    split
    · exact .reply (by rw [hr.1]; trivial) (by simp [Frame.Quiet]) (by simp [hr.1])
    · next t hl => exact .detach hr hl
  | detachResume v =>
    simp only [step] at hs
    split at hs
    · next ch c hpc =>
      simp only [Option.ite_none_right_eq_some, Option.some.injEq] at hs
      rw [← hs.2]
      exact .reply (by rw [hpc]; trivial) (by simp [Frame.Quiet]) (by simp [hpc])
    · cases hs
  | close v ch =>
    simp only [step, Option.ite_none_right_eq_some, Option.some.injEq] at hs
    obtain ⟨hr, rfl⟩ := hs
    exact close_step hr ch
  | closeReply v ok =>
    simp only [step] at hs
    split at hs
    · next t ch c hpc =>
      split_ifs at hs with hok
      · obtain rfl := Option.some.inj hs
        subst hok
        exact .closeReply hpc
      · obtain rfl := Option.some.inj hs
        exact .reply (by rw [hpc]; trivial) (by simp [Frame.Quiet]) (by simp [hpc])
    · cases hs
  | closeResume v =>
    simp only [step] at hs
    split at hs
    · next t ch hpc =>
      obtain rfl := Option.some.inj hs
      exact .closeResume hpc
    · cases hs
  | create v id argsOk =>
    simp only [step, Option.ite_none_right_eq_some, Option.some.injEq] at hs
    obtain ⟨hr, rfl⟩ := hs
    have hidle : (h.viewers v).pc.Quiet := by rw [hr.1]; trivial
    unfold Hub.create
    split_ifs
    · exact .reply hidle (by simp [Frame.Quiet]) (by simp [hr.1])
    · exact .reply hidle (by simp [Frame.Quiet]) (by simp [hr.1])
    · exact .create hr
  | createReply v =>
    simp only [step] at hs
    split at hs
    · next id n hpc =>
      obtain rfl := Option.some.inj hs
      exact .created hpc
    · next id hpc =>
      obtain rfl := Option.some.inj hs
      exact .reply (by rw [hpc]; trivial) (by simp [Frame.Quiet]) (by simp [hpc])
    · cases hs
  | createFail v =>
    simp only [step] at hs
    split at hs
    · next id answer hpc =>
      obtain rfl := Option.some.inj hs
      exact .createFail hpc
    · cases hs
  | dispose v =>
    simp only [step, Option.ite_none_left_eq_some, Option.some.injEq] at hs
    rw [← hs.2]
    exact .dispose (by simpa using hs.1)
  | accept c =>
    simp only [step, Option.ite_none_right_eq_some, Option.some.injEq] at hs
    rw [← hs.2]
    exact .accept
  | openOk c =>
    simp only [step, Option.ite_none_right_eq_some, Option.some.injEq] at hs
    rw [← hs.2]
    exact .openOk hs.1.1 hs.1.2.2
  | openFail c error =>
    simp only [step, Option.ite_none_right_eq_some, Option.some.injEq] at hs
    rw [← hs.2]
    exact .openFail hs.1.1 hs.1.2.2
  | history c body =>
    simp only [step, Option.ite_none_right_eq_some, Option.some.injEq] at hs
    rw [← hs.2]
    exact .deliver hs.1.1 hs.1.2 (Or.inl rfl)
  | output c body =>
    simp only [step, Option.ite_none_right_eq_some, Option.some.injEq] at hs
    rw [← hs.2]
    exact .deliver hs.1.1 hs.1.2 (Or.inr rfl)
  | ended c =>
    simp only [step, Option.ite_none_right_eq_some, Option.some.injEq] at hs
    rw [← hs.2]
    exact .ended hs.1.1 hs.1.2
  | gone c =>
    simp only [step, Option.ite_none_right_eq_some, Option.some.injEq] at hs
    rw [← hs.2]
    exact .gone hs.1.1 hs.1.2
  | detached c =>
    simp only [step, Option.ite_none_right_eq_some, Option.some.injEq] at hs
    rw [← hs.2]
    exact .detached hs.1
  | shutdown =>
    obtain rfl := Option.some.inj hs
    exact .shutdown
  | brokerCreate v =>
    simp only [step] at hs
    split at hs
    · next id hpc =>
      obtain rfl := Option.some.inj hs
      exact .brokerCreate hpc
    · cases hs
  | brokerSpawn id =>
    obtain rfl := Option.some.inj hs
    exact .brokerSpawn
  | brokerExit id =>
    obtain rfl := Option.some.inj hs
    exact .brokerExit
  | brokerClose id =>
    obtain rfl := Option.some.inj hs
    exact .brokerClose
  | pruneMark k =>
    obtain rfl := Option.some.inj hs
    exact .pruneMark
  | pruneList k =>
    simp only [step] at hs
    split at hs
    · next mark hp =>
      obtain rfl := Option.some.inj hs
      exact .pruneList hp
    · cases hs
  | pruneApply k =>
    simp only [step] at hs
    split at hs
    · next mark live hp =>
      obtain rfl := Option.some.inj hs
      exact .pruneApply hp
    · cases hs

end ClaudeFleet.AttachHub
