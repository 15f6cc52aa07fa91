import ClaudeFleet.BrokerServer

/-! What each operation of the broker writes. -/
namespace ClaudeFleet.BrokerServer
namespace Broker

variable (b : Broker) (c x : ℕ)

@[simp] theorem setSession_sessions (n : ℕ) (s : Session) (m : ℕ) :
    (b.setSession n s).sessions m = if m = n then s else b.sessions m := by
  simp [setSession, Function.update_apply]

@[simp] theorem setSession_conns (n : ℕ) (s : Session) : (b.setSession n s).conns = b.conns := rfl
@[simp] theorem setSession_manager (n : ℕ) (s : Session) :
    (b.setSession n s).manager = b.manager := rfl
@[simp] theorem setSession_waiters (n : ℕ) (s : Session) :
    (b.setSession n s).waiters = b.waiters := rfl
@[simp] theorem setSession_nextSession (n : ℕ) (s : Session) :
    (b.setSession n s).nextSession = b.nextSession := rfl
@[simp] theorem setSession_nextSerial (n : ℕ) (s : Session) :
    (b.setSession n s).nextSerial = b.nextSerial := rfl
@[simp] theorem setSession_nextConn (n : ℕ) (s : Session) :
    (b.setSession n s).nextConn = b.nextConn := rfl

@[simp] theorem setConn_conns (y : Conn) :
    (b.setConn c y).conns x = if x = c then y else b.conns x := by
  simp [setConn, Function.update_apply]

@[simp] theorem setConn_sessions (y : Conn) : (b.setConn c y).sessions = b.sessions := rfl
@[simp] theorem setConn_waiters (y : Conn) : (b.setConn c y).waiters = b.waiters := rfl
@[simp] theorem setConn_nextSession (y : Conn) :
    (b.setConn c y).nextSession = b.nextSession := rfl
@[simp] theorem setConn_nextSerial (y : Conn) : (b.setConn c y).nextSerial = b.nextSerial := rfl
@[simp] theorem setConn_nextConn (y : Conn) : (b.setConn c y).nextConn = b.nextConn := rfl

@[simp] theorem setConn_setConn (y z : Conn) : (b.setConn c y).setConn c z = b.setConn c z := by
  simp [setConn]

@[simp] theorem setConn_setPc (y : Conn) (pc : Pc) :
    (b.setConn c y).setPc c pc = b.setConn c { y with pc := pc } := by
  simp [setPc]

end Broker

namespace Conn

variable (x : Conn) (f : Frame)

@[simp] theorem say_attached : (x.say f).attached = x.attached := by
  unfold say
  split_ifs <;> rfl

@[simp] theorem say_pc : (x.say f).pc = x.pc := by
  unfold say
  split_ifs <;> rfl

@[simp] theorem say_broken : (x.say f).broken = x.broken := by
  unfold say
  split_ifs <;> rfl

theorem say_log : (x.say f).log = if x.broken then x.log else x.log ++ [f] := by
  unfold say
  split_ifs <;> rfl

end Conn

/-- Replies that carry no bytes and no notice. -/
def Frame.Plain : Frame → Prop
  | .created _ _ | .attached _ _ | .detached _ _ | .closed _ _ => True
  | _ => False

/-- The session a granted CREATE starts. -/
def Broker.fresh (b : Broker) (id : String) : Session :=
  { id := id, ring := RingBuffer.newRingBuffer b.ringBufBytes }

/-- What a step of the broker can do. -/
inductive Step (b : Broker) : Action → Broker → Prop
  | accept : Step b .accept { b with nextConn := b.nextConn + 1 }
  | refuse {c r f} (hc : c < b.nextConn) (hpc : (b.conns c).pc = .idle) (hf : f.Plain) :
      Step b (.request c r) (b.setConn c { b.conns c with pc := .reply f })
  | create {c id} (hc : c < b.nextConn) (hpc : (b.conns c).pc = .idle)
      (hm : b.manager id = none) :
      Step b (.request c (.create id none))
        ({ b.setSession b.nextSession (b.fresh id) with
            manager := Function.update b.manager id (some b.nextSession)
            nextSession := b.nextSession + 1 }.setConn c
          { b.conns c with pc := .reply (.created id none) })
  | attachLookup {c id ch n} (hc : c < b.nextConn) (hpc : (b.conns c).pc = .idle)
      (hm : b.manager id = some n) (he : b.entry c ch = none) :
      Step b (.request c (.attach id ch))
        (b.setConn c { b.conns c with pc := .attaching ch id n })
  | detachLost {c ch e} (hc : c < b.nextConn) (hpc : (b.conns c).pc = .idle)
      (he : b.entry c ch = some e) (hm : b.manager e.id = none) :
      Step b (.request c (.detach ch))
        (b.setConn c { (b.conns c).without ch with pc := .reply (.detached ch none) })
  | detachLookup {c ch e n} (hc : c < b.nextConn) (hpc : (b.conns c).pc = .idle)
      (he : b.entry c ch = some e) (hm : b.manager e.id = some n) :
      Step b (.request c (.detach ch)) (b.setConn c { b.conns c with pc := .detaching ch n })
  | close {c ch e} (hc : c < b.nextConn) (hpc : (b.conns c).pc = .idle)
      (he : b.entry c ch = some e) :
      Step b (.request c (.close ch))
        ({ b with manager := Function.update b.manager e.id none }.setConn c
          { b.conns c with pc := .closing ch (b.manager e.id) })
  | ignore {c ch event} : Step b (.request c (.feed ch event)) b
  | feed {c ch event e n} (hc : c < b.nextConn) (hpc : (b.conns c).pc = .idle)
      (he : b.entry c ch = some e) (hm : b.manager e.id = some n) :
      Step b (.request c (.feed ch event))
        (b.setConn c { b.conns c with pc := .feeding ch n event })
  | reply {c f} (hpc : (b.conns c).pc = .reply f) :
      Step b (.resume c) (b.setConn c { (b.conns c).say f with pc := .idle })
  | attachEnded {c ch id n} (hpc : (b.conns c).pc = .attaching ch id n)
      (hd : (b.sessions n).dead = true) :
      Step b (.resume c)
        ({ b with nextSerial := b.nextSerial + 1 }.setConn c
          { (b.conns c).joins ch ⟨id, n, b.nextSerial⟩ (b.sessions n).stream.length with
            pc := .acking ch ⟨id, n, b.nextSerial⟩ (b.sessions n).historyPos
              (b.sessions n).history true })
  | attachRefused {c ch id n w} (hpc : (b.conns c).pc = .attaching ch id n)
      (hd : (b.sessions n).dead = false) (hw : (b.sessions n).attached = some w) :
      Step b (.resume c)
        (b.setConn c { b.conns c with
          pc := .reply (.attached ch (some "session: already attached")) })
  | attachLive {c ch id n} (hpc : (b.conns c).pc = .attaching ch id n)
      (hd : (b.sessions n).dead = false) (hw : (b.sessions n).attached = none) :
      Step b (.resume c)
        ({ b.setSession n { b.sessions n with attached := some ⟨c, ch, b.nextSerial⟩ } with
            nextSerial := b.nextSerial + 1 }.setConn c
          { (b.conns c).joins ch ⟨id, n, b.nextSerial⟩ (b.sessions n).stream.length with
            pc := .acking ch ⟨id, n, b.nextSerial⟩ (b.sessions n).historyPos
              (b.sessions n).history false })
  | attachFails {c ch e pos history ended} (hpc : (b.conns c).pc = .acking ch e pos history ended ∨
      (b.conns c).pc = .replaying ch e pos history ended) (hb : (b.conns c).broken = true) :
      Step b (.resume c) (b.setConn c { b.conns c with pc := .idle })
  | ackHistory {c ch e pos history ended} (hpc : (b.conns c).pc = .acking ch e pos history ended)
      (hb : (b.conns c).broken = false) (hh : history ≠ []) :
      Step b (.resume c)
        (b.setConn c { (b.conns c).say (.attached ch none) with
          pc := .replaying ch e pos history ended })
  | ack {c ch e pos ended} (hpc : (b.conns c).pc = .acking ch e pos [] ended)
      (hb : (b.conns c).broken = false) :
      Step b (.resume c)
        ((b.setConn c ((b.conns c).say (.attached ch none))).attachDone c ch e ended)
  | replay {c ch e pos history ended} (hpc : (b.conns c).pc = .replaying ch e pos history ended)
      (hb : (b.conns c).broken = false) :
      Step b (.resume c)
        ((b.setConn c ((b.conns c).say (.history ch e.session pos history))).attachDone c ch e
          ended)
  | ending {c ch e} (hpc : (b.conns c).pc = .ending ch e) :
      Step b (.resume c)
        (b.setConn c { (b.conns c).say (.ended ch e.serial (b.current c ch)) with pc := .idle })
  | detached {c ch n} (hpc : (b.conns c).pc = .detaching ch n) :
      Step b (.resume c)
        ((b.detachSession c n).setConn c
          { (b.conns c).without ch with pc := .reply (.detached ch none) })
  | closed {c ch n} (hpc : (b.conns c).pc = .closing ch n) :
      Step b (.resume c)
        ((b.kill n).setConn c { (b.conns c).without ch with pc := .reply (.closed ch none) })
  | receive {c ch n event} (hpc : (b.conns c).pc = .feeding ch n event) :
      Step b (.resume c) ((b.receive c ch n event).setConn c { b.conns c with pc := .idle })
  | gone {c} (hpc : (b.conns c).pc = .leaving []) :
      Step b (.resume c) (b.setConn c { b.conns c with pc := .gone, broken := true })
  | leave {a c ids pc'} (hids : pc' = .leaving ids ∨ ∃ n, pc' = .leavingOne n ids)
      (hpc : (b.conns c).pc = .idle ∧ c < b.nextConn ∨ ∃ id, (b.conns c).pc = .leaving (id :: ids)) :
      Step b a (b.setConn c { b.conns c with pc := pc' })
  | leaveOne {c n ids} (hpc : (b.conns c).pc = .leavingOne n ids) :
      Step b (.resume c)
        ((b.detachSession c n).setConn c { b.conns c with pc := .leaving ids })
  | lose {c} (hc : c < b.nextConn) :
      Step b (.lose c) (b.setConn c { b.conns c with broken := true })
  | read {n chunk} (hn : n < b.nextSession) (hk : (b.sessions n).killed = false)
      (hp : (b.sessions n).pump = .idle) (hlen : 0 < chunk.length) :
      Step b (.read n chunk)
        (b.setSession n { b.sessions n with
          ring := RingBuffer.write (b.sessions n).ring chunk
          stream := (b.sessions n).stream ++ chunk
          pump := .written chunk })
  | lookupNone {n chunk} (hp : (b.sessions n).pump = .written chunk)
      (hw : (b.sessions n).attached = none) :
      Step b (.lookup n) (b.setSession n { b.sessions n with pump := .idle })
  | lookup {n chunk w} (hp : (b.sessions n).pump = .written chunk)
      (hw : (b.sessions n).attached = some w) :
      Step b (.lookup n) (b.setSession n { b.sessions n with pump := .sending w chunk })
  | send {n w chunk} (hp : (b.sessions n).pump = .sending w chunk) :
      Step b (.send n)
        ((b.setSession n { b.sessions n with pump := .idle }).setConn w.conn
          ((b.conns w.conn).say (.output w.channel n
            ((b.sessions n).stream.length - chunk.length) chunk)))
  | exit {n} (hn : n < b.nextSession) :
      Step b (.exit n) (b.setSession n { b.sessions n with dead := true })
  | wake {k w} (hw : b.waiters k = some w) (hd : (b.sessions w.session).dead = true)
      (hid : (b.entry w.conn w.channel).map Entry.id = some w.id) :
      Step b (.wake k)
        { b with waiters := Function.update b.waiters k (some { w with checked := true }) }
  | wakeStale {k} : Step b (.wake k) { b with waiters := Function.update b.waiters k none }
  | notify {k w} (hw : b.waiters k = some w) (hch : w.checked = true) :
      Step b (.notify k)
        ({ b with waiters := Function.update b.waiters k none }.setConn w.conn
          ((b.conns w.conn).say (.ended w.channel k (b.current w.conn w.channel))))

theorem create_step {b : Broker} {c : ℕ} (hc : c < b.nextConn) (hpc : (b.conns c).pc = .idle)
    (id : String) (failure : Option String) :
    Step b (.request c (.create id failure)) (b.create c id failure) := by
  unfold Broker.create
  split_ifs with hid hm hf
  · exact .refuse hc hpc trivial
  · exact .refuse hc hpc trivial
  · exact .refuse hc hpc trivial
  · obtain rfl : failure = none := by simpa using hf
    exact .create hc hpc (by simpa using hm)

theorem request_step {b : Broker} {c : ℕ} (hc : c < b.nextConn) (hpc : (b.conns c).pc = .idle)
    (r : Request) : Step b (.request c r) (b.dispatch c r) := by
  cases r with
  | create id failure => exact create_step hc hpc id failure
  | attach id ch =>
    simp only [Broker.dispatch, Broker.attach]
    split
    · exact .refuse hc hpc trivial
    · next n hm =>
      split
      · exact .refuse hc hpc trivial
      · next he => exact .attachLookup hc hpc hm he
  | detach ch =>
    simp only [Broker.dispatch, Broker.detach]
    split
    · exact .refuse hc hpc trivial
    · next e he =>
      split
      · next hm =>
        rw [Broker.dropEntry, Broker.setConn_setPc]
        exact .detachLost hc hpc he hm
      · next n hm => exact .detachLookup hc hpc he hm
  | close ch =>
    simp only [Broker.dispatch, Broker.close]
    split
    · exact .refuse hc hpc trivial
    · next e he => exact .close hc hpc he
  | feed ch event =>
    simp only [Broker.dispatch, Broker.feed]
    split
    · exact .ignore
    · next e he =>
      split
      · exact .ignore
      · next n hm => exact .feed hc hpc he hm

theorem attachSession_step {b : Broker} {c ch n : ℕ} {id : String}
    (hpc : (b.conns c).pc = .attaching ch id n) :
    Step b (.resume c) (b.attachSession c ch id n) := by
  unfold Broker.attachSession
  simp only
  split_ifs with hd hw
  · exact .attachEnded hpc hd
  · obtain ⟨w, hw⟩ := Option.isSome_iff_exists.mp hw
    exact .attachRefused hpc (by simpa using hd) hw
  · exact .attachLive hpc (by simpa using hd) (by simpa using hw)

theorem detachSession_cases (b : Broker) (c n : ℕ) :
    b.detachSession c n = b ∨
      b.detachSession c n = b.setSession n { b.sessions n with attached := none } := by
  unfold Broker.detachSession
  split
  · split_ifs
    · exact .inr rfl
    · exact .inl rfl
  · exact .inl rfl

theorem detachSession_conns (b : Broker) (c n : ℕ) : (b.detachSession c n).conns = b.conns := by
  rcases detachSession_cases b c n with heq | heq <;> rw [heq]
  rfl

theorem kill_conns (b : Broker) (n : Option ℕ) : (b.kill n).conns = b.conns := by
  cases n <;> rfl

theorem receive_conns (b : Broker) (c ch n : ℕ) (event : Event) :
    (b.receive c ch n event).conns = b.conns := by
  unfold Broker.receive
  split_ifs <;> rfl

theorem resume_step {b g : Broker} {c : ℕ} (hs : b.resume c = some g) : Step b (.resume c) g := by
  unfold Broker.resume at hs
  split at hs
  · cases hs
  · cases hs
  · next f hpc =>
    obtain rfl := Option.some.inj hs
    rw [Broker.write, Broker.setConn_setPc]
    exact .reply hpc
  · next ch id n hpc =>
    obtain rfl := Option.some.inj hs
    exact attachSession_step hpc
  · next ch e pos history ended hpc =>
    split_ifs at hs with hb hh
    · obtain rfl := Option.some.inj hs
      exact .attachFails (.inl hpc) hb
    · obtain rfl := Option.some.inj hs
      rw [Broker.write, Broker.setConn_setPc]
      exact .ackHistory hpc (by simpa using hb) (List.ne_nil_of_length_pos hh)
    · obtain rfl := Option.some.inj hs
      obtain rfl : history = [] := by simpa using hh
      exact .ack hpc (by simpa using hb)
  · next ch e pos history ended hpc =>
    split_ifs at hs with hb
    · obtain rfl := Option.some.inj hs
      exact .attachFails (.inr hpc) hb
    · obtain rfl := Option.some.inj hs
      exact .replay hpc (by simpa using hb)
  · next ch e hpc =>
    obtain rfl := Option.some.inj hs
    rw [Broker.write, Broker.setConn_setPc]
    exact .ending hpc
  · next ch n hpc =>
    obtain rfl := Option.some.inj hs
    rw [Broker.dropEntry, Broker.setConn_setPc, detachSession_conns]
    exact .detached hpc
  · next ch n hpc =>
    obtain rfl := Option.some.inj hs
    rw [Broker.dropEntry, Broker.setConn_setPc, kill_conns]
    exact .closed hpc
  · next ch n event hpc =>
    obtain rfl := Option.some.inj hs
    rw [Broker.setPc, receive_conns]
    exact .receive hpc
  · next hpc =>
    obtain rfl := Option.some.inj hs
    exact .gone hpc
  · next id ids hpc =>
    split at hs
    · obtain rfl := Option.some.inj hs
      exact .leave (.inl rfl) (.inr ⟨id, hpc⟩)
    · next n _ =>
      obtain rfl := Option.some.inj hs
      exact .leave (.inr ⟨n, rfl⟩) (.inr ⟨id, hpc⟩)
  · next n ids hpc =>
    obtain rfl := Option.some.inj hs
    rw [Broker.setPc, detachSession_conns]
    exact .leaveOne hpc

theorem step_sound {b g : Broker} {a : Action} (hs : step b a = some g) : Step b a g := by
  cases a with
  | accept =>
    obtain rfl := Option.some.inj hs
    exact .accept
  | request c r =>
    simp only [step, Option.ite_none_right_eq_some, Option.some.injEq] at hs
    obtain ⟨⟨hc, hpc⟩, rfl⟩ := hs
    exact request_step hc hpc r
  | resume c => exact resume_step hs
  | disconnect c ids =>
    simp only [step, Option.ite_none_right_eq_some, Option.some.injEq] at hs
    obtain ⟨⟨hc, hpc, -⟩, rfl⟩ := hs
    exact .leave (.inl rfl) (.inl ⟨hpc, hc⟩)
  | lose c =>
    simp only [step, Option.ite_none_right_eq_some, Option.some.injEq] at hs
    obtain ⟨hc, rfl⟩ := hs
    exact .lose hc
  | read n chunk =>
    simp only [step, Option.ite_none_right_eq_some, Option.some.injEq] at hs
    obtain ⟨⟨hn, hk, hp, hlen, -⟩, rfl⟩ := hs
    exact .read hn hk hp hlen
  | lookup n =>
    simp only [step] at hs
    split at hs
    · next chunk hp =>
      split at hs
      · next hw =>
        obtain rfl := Option.some.inj hs
        exact .lookupNone hp hw
      · next w hw =>
        obtain rfl := Option.some.inj hs
        exact .lookup hp hw
    · cases hs
  | send n =>
    simp only [step] at hs
    split at hs
    · next w chunk hp =>
      obtain rfl := Option.some.inj hs
      exact .send hp
    · cases hs
  | exit n =>
    simp only [step, Option.ite_none_right_eq_some, Option.some.injEq] at hs
    obtain ⟨⟨hn, -⟩, rfl⟩ := hs
    exact .exit hn
  | wake k =>
    simp only [step] at hs
    split at hs
    · next w hw =>
      split_ifs at hs with hd hid
      · obtain rfl := Option.some.inj hs
        exact .wake hw hd.2 hid
      · obtain rfl := Option.some.inj hs
        exact .wakeStale
    · cases hs
  | notify k =>
    simp only [step] at hs
    split at hs
    · next w hw =>
      split_ifs at hs with hch
      obtain rfl := Option.some.inj hs
      exact .notify hw hch
    · cases hs

/-- What a goroutine has to reply carries no bytes and no notice. -/
def Replies (b : Broker) : Prop := ∀ c f, (b.conns c).pc = .reply f → f.Plain

theorem Replies.conn {b g : Broker} {c : ℕ} {y : Conn} (h : Replies b)
    (hg : g.conns = (b.setConn c y).conns) (hy : ∀ f, y.pc = .reply f → f.Plain) : Replies g := by
  intro d f hpc
  rw [hg, Broker.setConn_conns] at hpc
  split_ifs at hpc
  · exact hy f hpc
  · exact h d f hpc

theorem Replies.same {b g : Broker} (h : Replies b) (hg : g.conns = b.conns) : Replies g := by
  intro d f hpc
  rw [hg] at hpc
  exact h d f hpc

theorem Replies.attachDone {b : Broker} (h : Replies b) (c ch : ℕ) (e : Entry) (ended : Bool) :
    Replies (b.attachDone c ch e ended) := by
  unfold Broker.attachDone
  split_ifs
  · exact h.conn rfl nofun
  · exact h.conn rfl nofun

end ClaudeFleet.BrokerServer
