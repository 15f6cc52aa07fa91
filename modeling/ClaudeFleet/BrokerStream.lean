import ClaudeFleet.BrokerStep

/-! What an attached channel receives of the PTY stream. HISTORY is taken under the session's
mutex but written after it, and the pump writes to the ring, looks the writer up and sends in
three critical sections: the pieces line up as long as no attach falls between the first two and
no OUTPUT overtakes the HISTORY. -/
namespace ClaudeFleet.BrokerServer
open Transition RingBuffer ReplayBuffer

/-- The body of a HISTORY or OUTPUT frame and the place of the stream it was taken from. -/
structure Piece where
  session : ℕ
  pos : ℕ
  body : List UInt8
  deriving DecidableEq

/-- What a channel received since an attachment was made on it. -/
structure Segment where
  session : ℕ
  serial : ℕ
  joined : ℕ
  pieces : List Piece := []
  deriving DecidableEq

/-- One more piece for the newest attachment. -/
def extend (q : Piece) : List Segment → List Segment
  | [] => []
  | s :: rest => { s with pieces := s.pieces ++ [q] } :: rest

def Frame.onto (ch : ℕ) (segs : List Segment) : Frame → List Segment
  | .joined ch' n k p => if ch' = ch then { session := n, serial := k, joined := p } :: segs else segs
  | .history ch' n p body | .output ch' n p body =>
    if ch' = ch then extend ⟨n, p, body⟩ segs else segs
  | _ => segs

/-- The attachments of a channel, newest first, with what it received under each. -/
def Conn.segments (x : Conn) (ch : ℕ) : List Segment := x.log.foldl (Frame.onto ch) []

/-- The pieces follow one another in the stream of session `n`, from `a` to `e`. -/
def Chained (n : ℕ) : ℕ → List Piece → ℕ → Prop
  | a, [], e => a = e
  | a, q :: qs, e => q.session = n ∧ q.pos = a ∧ Chained n (a + q.body.length) qs e

/-- The pieces are the bytes `a` to `e` of the stream, each once and in order. -/
structure Delivers (stream : List UInt8) (n a e : ℕ) (qs : List Piece) : Prop where
  chained : Chained n a qs e
  bytes : stream.take e = stream.take a ++ (qs.map Piece.body).flatten
  bound : e ≤ stream.length

/-- The HISTORY a goroutine has still to write. -/
def Pc.replay : Pc → Option (ℕ × Entry × ℕ × List UInt8)
  | .acking ch e pos history _ => if history = [] then none else some (ch, e, pos, history)
  | .replaying ch e pos history _ => some (ch, e, pos, history)
  | _ => none

/-- A HISTORY is due on the channel. -/
def Pc.Owes (pc : Pc) (ch : ℕ) : Prop := ∃ r ∈ pc.replay, r.1 = ch

instance (pc : Pc) (ch : ℕ) : Decidable (pc.Owes ch) := by
  unfold Pc.Owes
  infer_instance

/-- The session can still send to the writer: it holds the writer already, or will look it up. -/
def Session.MayWrite (s : Session) (w : Writer) : Prop :=
  match s.pump with
  | .idle => s.attached = some w ∧ s.killed = false
  | .written _ => s.attached = some w
  | .sending v _ => v = w ∨ s.attached = some w ∧ s.killed = false

instance (s : Session) (w : Writer) : Decidable (s.MayWrite w) := by
  unfold Session.MayWrite
  split <;> infer_instance

def Pump.isWritten : Pump → Bool
  | .written _ => true
  | _ => false

/-- An attach is made on a channel nobody still sends to, and not between a session's `ring.Write`
and its look at the writer; an OUTPUT is not sent before the HISTORY due on its channel. Nothing
is asked of a lost connection, or of an attach whose session has nothing to replay. -/
def InOrder (b : Broker) : Action → Prop
  | .resume c =>
    match (b.conns c).pc with
    | .attaching ch _ n =>
      (b.conns c).broken = false →
        ((b.sessions n).dead = true ∨ (b.sessions n).attached = none) →
        (∀ m < b.nextSession, ∀ k < b.nextSerial, ¬(b.sessions m).MayWrite ⟨c, ch, k⟩) ∧
          ((b.sessions n).dead = false → (b.sessions n).history ≠ [] →
            (b.sessions n).pump.isWritten = false)
    | _ => True
  | .send n =>
    match (b.sessions n).pump with
    | .sending w _ => (b.conns w.conn).broken = false → ¬(b.conns w.conn).pc.Owes w.channel
    | _ => True
  | _ => True

instance (b : Broker) : (a : Action) → Decidable (InOrder b a)
  | .resume c =>
    match h : (b.conns c).pc with
    | .attaching ch _ n =>
      decidable_of_iff ((b.conns c).broken = false →
        ((b.sessions n).dead = true ∨ (b.sessions n).attached = none) →
        (∀ m < b.nextSession, ∀ k < b.nextSerial, ¬(b.sessions m).MayWrite ⟨c, ch, k⟩) ∧
          ((b.sessions n).dead = false → (b.sessions n).history ≠ [] →
            (b.sessions n).pump.isWritten = false)) (by simp only [InOrder, h])
    | .idle | .reply _ | .acking _ _ _ _ _ | .replaying _ _ _ _ _ | .ending _ _ | .detaching _ _
    | .closing _ _ | .feeding _ _ _ | .leaving _ | .leavingOne _ _ | .gone =>
      isTrue (by simp only [InOrder, h])
  | .send n =>
    match h : (b.sessions n).pump with
    | .sending w _ =>
      decidable_of_iff ((b.conns w.conn).broken = false → ¬(b.conns w.conn).pc.Owes w.channel)
        (by simp only [InOrder, h])
    | .idle | .written _ => isTrue (by simp only [InOrder, h])
  | .accept | .request _ _ | .disconnect _ _ | .lose _ | .read _ _ | .lookup _ | .exit _ | .wake _
  | .notify _ => instDecidableTrue

theorem Chained.append {n : ℕ} {qs rs : List Piece} {a m e : ℕ} (h : Chained n a qs m)
    (h' : Chained n m rs e) : Chained n a (qs ++ rs) e := by
  induction qs generalizing a with
  | nil =>
    obtain rfl : a = m := h
    exact h'
  | cons q qs ih => exact ⟨h.1, h.2.1, ih h.2.2⟩

theorem Chained.left {n : ℕ} {qs rs : List Piece} {a e : ℕ} (h : Chained n a (qs ++ rs) e) :
    Chained n a qs (a + (qs.map Piece.body).flatten.length) := by
  induction qs generalizing a with
  | nil => exact (Nat.add_zero a).symm
  | cons q qs ih =>
    refine ⟨h.1, h.2.1, ?_⟩
    have hrest := ih h.2.2
    rw [List.map_cons, List.flatten_cons, List.length_append, ← Nat.add_assoc]
    exact hrest

theorem Chained.end_eq {n : ℕ} {qs : List Piece} {a e : ℕ} (h : Chained n a qs e) :
    e = a + (qs.map Piece.body).flatten.length := by
  induction qs generalizing a with
  | nil => exact h.symm
  | cons q qs ih =>
    rw [ih h.2.2, List.map_cons, List.flatten_cons, List.length_append, Nat.add_assoc]

theorem Delivers.nil {stream : List UInt8} {n a : ℕ} (ha : a ≤ stream.length) :
    Delivers stream n a a [] := ⟨rfl, by simp, ha⟩

theorem Delivers.grow {stream : List UInt8} {n a e : ℕ} {qs : List Piece}
    (h : Delivers stream n a e qs) (more : List UInt8) : Delivers (stream ++ more) n a e qs where
  chained := h.chained
  bytes := by
    have hle : a ≤ e := h.chained.end_eq ▸ Nat.le_add_right a _
    rw [List.take_append_of_le_length h.bound, List.take_append_of_le_length (hle.trans h.bound)]
    exact h.bytes
  bound := h.bound.trans (by simp)

/-- Dropping the last pieces. -/
theorem Delivers.left {stream : List UInt8} {n a e : ℕ} {qs rs : List Piece}
    (h : Delivers stream n a e (qs ++ rs)) : ∃ e', Delivers stream n a e' qs := by
  have hend := h.chained.end_eq
  have hlen : e = a + (qs.map Piece.body).flatten.length +
      (rs.map Piece.body).flatten.length := by
    rw [hend, List.map_append, List.flatten_append, List.length_append, Nat.add_assoc]
  have hbound := h.bound
  refine ⟨a + (qs.map Piece.body).flatten.length, h.chained.left, ?_, by omega⟩
  have htake := congrArg (List.take (a + (qs.map Piece.body).flatten.length)) h.bytes
  rw [List.take_take, min_eq_left (by omega), List.map_append, List.flatten_append,
    ← List.append_assoc, List.take_left'] at htake
  · exact htake
  · rw [List.length_append, List.length_take, min_eq_left (by omega)]

/-- One more piece, taken from the end of the stream. -/
theorem Delivers.snoc {stream chunk : List UInt8} {n a e : ℕ} {qs : List Piece}
    (h : Delivers stream n a e qs) (hchunk : chunk <:+ stream)
    (hend : e + chunk.length = stream.length) :
    Delivers stream n a stream.length
      (qs ++ [⟨n, stream.length - chunk.length, chunk⟩]) := by
  have he : stream.length - chunk.length = e := by omega
  obtain ⟨front, rfl⟩ := hchunk
  have hfront : front.length = e := by
    rw [List.length_append] at hend
    omega
  refine ⟨h.chained.append ⟨rfl, he, hend⟩, ?_, le_rfl⟩
  have hbytes := h.bytes
  rw [List.take_left' hfront] at hbytes
  rw [List.take_length, List.map_append, List.flatten_append, ← List.append_assoc, ← hbytes]
  simp

theorem Conn.segments_say (x : Conn) (f : Frame) (ch : ℕ) :
    (x.say f).segments ch = if x.broken then x.segments ch else f.onto ch (x.segments ch) := by
  rw [Conn.segments, Conn.say_log]
  split_ifs
  · rfl
  · rw [List.foldl_append]
    rfl

/-- Frames that carry no bytes of a stream. -/
def Frame.Blank (f : Frame) : Prop := ∀ ch segs, f.onto ch segs = segs

theorem Frame.Plain.blank {f : Frame} (h : f.Plain) : f.Blank := by
  intro ch segs
  cases f <;> first | rfl | cases h

/-- The HISTORY due to the attachment of a segment. -/
def Pc.due (pc : Pc) (ch : ℕ) (s : Segment) : List Piece :=
  match pc.replay with
  | none => []
  | some (ch', e, pos, history) =>
    if ch' = ch ∧ e.serial = s.serial then [⟨s.session, pos, history⟩] else []

theorem Pc.due_of_not_owes {pc : Pc} {ch : ℕ} (h : ¬pc.Owes ch) (s : Segment) :
    pc.due ch s = [] := by
  unfold Pc.due
  split
  · rfl
  · next ch' e pos history hpc =>
    exact if_neg fun hch => h ⟨_, hpc, hch.1⟩

/-- Bytes in the ring that are still on their way to the writer. -/
def Session.inFlight (x : Session) (w : Writer) : ℕ :=
  match x.pump with
  | .idle => 0
  | .written chunk => chunk.length
  | .sending v chunk => if v = w then chunk.length else 0

/-- A segment delivers the stream from before the attach on, and up to what is in flight. -/
def Segment.Good (s : Segment) (x : Session) (y : Conn) (c ch : ℕ) : Prop :=
  ∃ a e, a ≤ s.joined ∧ Delivers x.stream s.session a e (s.pieces ++ y.pc.due ch s) ∧
    (y.broken = false →
      (x.attached = some ⟨c, ch, s.serial⟩ →
        e + x.inFlight ⟨c, ch, s.serial⟩ = x.stream.length) ∧
      ∀ chunk, x.pump = .sending ⟨c, ch, s.serial⟩ chunk → e + chunk.length = x.stream.length)

/-- The newest attachment of a channel is the one that is written to. -/
structure Newest (b : Broker) (c ch : ℕ) (s : Segment) : Prop where
  writers : ∀ m k, (b.sessions m).MayWrite ⟨c, ch, k⟩ → m = s.session ∧ k = s.serial
  replay : ∀ r, (b.conns c).pc.replay = some r → r.1 = ch →
    r.2.1.session = s.session ∧ r.2.1.serial = s.serial

structure Streams (b : Broker) : Prop where
  rings : ∀ n, ∃ cap, Holds cap (b.sessions n).stream (b.sessions n).ring
  unborn : ∀ n, b.nextSession ≤ n → (b.sessions n).attached = none ∧ (b.sessions n).pump = .idle
  manager : ∀ id n, b.manager id = some n → n < b.nextSession
  attaching : ∀ c ch id n, (b.conns c).pc = .attaching ch id n → n < b.nextSession
  written : ∀ n chunk, (b.sessions n).pump = .written chunk → chunk <:+ (b.sessions n).stream
  sending : ∀ n w chunk, (b.sessions n).pump = .sending w chunk →
    chunk <:+ (b.sessions n).stream ∧ w.serial < b.nextSerial
  attached : ∀ n w, (b.sessions n).attached = some w → w.serial < b.nextSerial
  sorted : ∀ c ch, ((b.conns c).segments ch).Pairwise fun s t => t.serial < s.serial
  bounds : ∀ c ch, ∀ s ∈ (b.conns c).segments ch,
    s.serial < b.nextSerial ∧ s.session < b.nextSession
  newest : ∀ c ch s, (b.conns c).broken = false → ((b.conns c).segments ch).head? = some s →
    Newest b c ch s
  good : ∀ c ch, ∀ s ∈ (b.conns c).segments ch, s.Good (b.sessions s.session) (b.conns c) c ch

theorem newRingBuffer_holds_nil (cap : ℤ) : ∃ c, Holds c [] (newRingBuffer cap) := by
  refine ⟨_, rfl, ?_, ?_⟩
  · rw [List.rtake_nil, ← List.length_eq_zero_iff, snapshot_length]
    rfl
  · intro h
    simp at h

/-- A connection on which nothing of a stream is written. -/
structure Conn.Still (x y : Conn) : Prop where
  segments : ∀ ch, y.segments ch = x.segments ch
  broken : x.broken = true → y.broken = true
  replay : y.pc.replay = x.pc.replay ∨ y.pc.replay = none ∧ y.broken = true

/-- A session that may lose its writer, but whose stream and pump stay as they are. -/
structure Session.Still (x y : Session) : Prop where
  stream : y.stream = x.stream
  ring : y.ring = x.ring
  pump : y.pump = x.pump
  attached : y.attached = x.attached ∨ y.attached = none
  killed : x.killed = true → y.killed = true

theorem Conn.Still.refl (x : Conn) : x.Still x := ⟨fun _ => rfl, id, .inl rfl⟩

theorem Session.Still.refl (x : Session) : x.Still x := ⟨rfl, rfl, rfl, .inl rfl, fun h => h⟩

theorem Session.Still.attached_eq {x y : Session} (h : x.Still y) {w : Writer}
    (hw : y.attached = some w) : x.attached = some w := by
  rcases h.attached with heq | hnone
  · rw [← heq]
    exact hw
  · rw [hnone] at hw
    cases hw

theorem Session.Still.mayWrite {x y : Session} (h : x.Still y) {w : Writer}
    (hw : y.MayWrite w) : x.MayWrite w := by
  have hkilled : y.killed = false → x.killed = false := fun hy => by
    by_contra hx
    rw [h.killed (by simpa using hx)] at hy
    cases hy
  unfold Session.MayWrite at hw ⊢
  rw [h.pump] at hw
  split at hw
  · exact ⟨h.attached_eq hw.1, hkilled hw.2⟩
  · exact h.attached_eq hw
  · exact hw.imp (fun hv => hv) fun hw => ⟨h.attached_eq hw.1, hkilled hw.2⟩

theorem Conn.Still.due {x y : Conn} (h : x.Still y) (ch : ℕ) (s : Segment) :
    y.pc.due ch s = x.pc.due ch s ∨ y.pc.due ch s = [] ∧ y.broken = true := by
  rcases h.replay with heq | ⟨hnone, hy⟩
  · left
    unfold Pc.due
    rw [heq]
  · right
    unfold Pc.due
    rw [hnone]
    exact ⟨rfl, hy⟩

theorem Segment.Good.still {s : Segment} {x x' : Session} {y y' : Conn} {c ch : ℕ}
    (h : s.Good x y c ch) (hx : x.Still x') (hy : y.Still y') : s.Good x' y' c ch := by
  obtain ⟨a, e, ha, hdel, hlive⟩ := h
  rcases hy.due ch s with hdue | ⟨hdue, hbroken⟩
  · refine ⟨a, e, ha, ?_, ?_⟩
    · rw [hdue, hx.stream]
      exact hdel
    · intro hy'
      have hyb : y.broken = false := by
        by_contra hb
        rw [hy.broken (by simpa using hb)] at hy'
        cases hy'
      unfold Session.inFlight
      rw [hx.stream, hx.pump]
      exact ⟨fun hw => (hlive hyb).1 (hx.attached_eq hw), (hlive hyb).2⟩
  · obtain ⟨e', hleft⟩ := hdel.left
    refine ⟨a, e', ha, ?_, ?_⟩
    · rw [hdue, List.append_nil, hx.stream]
      exact hleft
    · intro hy'
      rw [hbroken] at hy'
      cases hy'

structure SameStreams (b g : Broker) : Prop where
  conns : ∀ c, (b.conns c).Still (g.conns c)
  sessions : ∀ n, (b.sessions n).Still (g.sessions n)
  nextSession : g.nextSession = b.nextSession
  nextSerial : g.nextSerial = b.nextSerial
  manager : ∀ id n, g.manager id = some n → b.manager id = some n
  attaching : ∀ c ch id n, (g.conns c).pc = .attaching ch id n →
    (b.conns c).pc = .attaching ch id n ∨ n < b.nextSession

theorem Streams.same {b g : Broker} (h : Streams b) (hs : SameStreams b g) : Streams g where
  rings n := by
    rw [(hs.sessions n).stream, (hs.sessions n).ring]
    exact h.rings n
  unborn n hn := by
    obtain ⟨hw, hp⟩ := h.unborn n (hs.nextSession ▸ hn)
    refine ⟨?_, (hs.sessions n).pump.trans hp⟩
    rcases (hs.sessions n).attached with heq | hnone
    · exact heq.trans hw
    · exact hnone
  manager id n hm := hs.nextSession ▸ h.manager id n (hs.manager id n hm)
  attaching c ch id n hpc := by
    rw [hs.nextSession]
    exact (hs.attaching c ch id n hpc).elim (h.attaching c ch id n) fun hn => hn
  written n chunk hp := by
    rw [(hs.sessions n).pump] at hp
    rw [(hs.sessions n).stream]
    exact h.written n chunk hp
  sending n w chunk hp := by
    rw [(hs.sessions n).pump] at hp
    rw [(hs.sessions n).stream, hs.nextSerial]
    exact h.sending n w chunk hp
  attached n w hw := hs.nextSerial ▸ h.attached n w ((hs.sessions n).attached_eq hw)
  sorted c ch := by
    rw [(hs.conns c).segments]
    exact h.sorted c ch
  bounds c ch s hmem := by
    rw [(hs.conns c).segments] at hmem
    rw [hs.nextSerial, hs.nextSession]
    exact h.bounds c ch s hmem
  newest c ch s hb hhead := by
    rw [(hs.conns c).segments] at hhead
    have hbb : (b.conns c).broken = false := by
      by_contra hne
      rw [(hs.conns c).broken (by simpa using hne)] at hb
      cases hb
    have hnew := h.newest c ch s hbb hhead
    refine ⟨fun m k hw => hnew.writers m k ((hs.sessions m).mayWrite hw), ?_⟩
    intro r hr
    rcases (hs.conns c).replay with heq | ⟨hnone, -⟩
    · rw [heq] at hr
      exact hnew.replay r hr
    · rw [hnone] at hr
      cases hr
  good c ch s hmem := by
    rw [(hs.conns c).segments] at hmem
    exact (h.good c ch s hmem).still (hs.sessions _) (hs.conns c)

/-- Points of a goroutine from which no HISTORY is due. -/
def Pc.Settled : Pc → Prop
  | .attaching _ _ _ | .acking _ _ _ _ _ | .replaying _ _ _ _ _ => False
  | _ => True

theorem Pc.Settled.replay {pc : Pc} (h : pc.Settled) : pc.replay = none := by
  cases pc <;> first | rfl | exact h.elim

theorem Conn.Still.goto {x : Conn} {pc : Pc} (hx : x.pc.replay = none) (hpc : pc.replay = none) :
    x.Still { x with pc := pc } where
  segments _ := rfl
  broken hb := hb
  replay := .inl (hpc.trans hx.symm)

theorem Conn.Still.say {x : Conn} {f : Frame} (hf : f.Blank) : x.Still (x.say f) where
  segments ch := by
    rw [Conn.segments_say, hf]
    split_ifs <;> rfl
  broken hx := by
    rw [Conn.say_broken]
    exact hx
  replay := .inl (by rw [Conn.say_pc])

theorem SameStreams.conn {b g : Broker} {c : ℕ} {y : Conn}
    (hg : g.conns = (b.setConn c y).conns) (hy : (b.conns c).Still y)
    (hatt : ∀ ch id n, y.pc = .attaching ch id n →
      (b.conns c).pc = .attaching ch id n ∨ n < b.nextSession)
    (hsess : ∀ n, (b.sessions n).Still (g.sessions n)) (hn : g.nextSession = b.nextSession)
    (hk : g.nextSerial = b.nextSerial)
    (hm : ∀ id n, g.manager id = some n → b.manager id = some n) : SameStreams b g where
  conns d := by
    rw [hg, Broker.setConn_conns]
    split_ifs with hd
    · exact hd ▸ hy
    · exact Conn.Still.refl _
  sessions := hsess
  nextSession := hn
  nextSerial := hk
  manager := hm
  attaching d ch id n hpc := by
    rw [hg, Broker.setConn_conns] at hpc
    split_ifs at hpc with hd
    · exact hd ▸ hatt ch id n hpc
    · exact .inl hpc

/-- One goroutine moves on. -/
theorem Streams.goto {b : Broker} {c : ℕ} {y : Conn} (h : Streams b) (hy : (b.conns c).Still y)
    (hpc : y.pc.Settled) : Streams (b.setConn c y) := by
  refine h.same (.conn rfl hy ?_ (fun n => Session.Still.refl _) rfl rfl fun _ _ hm => hm)
  intro ch id n heq
  rw [heq] at hpc
  exact hpc.elim

/-- As before, while a session loses its writer, is killed or takes an input. -/
theorem Streams.touch {b g : Broker} {c : ℕ} {y : Conn} (h : Streams b)
    (hy : (b.conns c).Still y) (hpc : y.pc.Settled) (hg : g.conns = b.conns)
    (hsess : ∀ n, (b.sessions n).Still (g.sessions n)) (hn : g.nextSession = b.nextSession)
    (hk : g.nextSerial = b.nextSerial) (hm : g.manager = b.manager) :
    Streams (g.setConn c y) := by
  refine h.same (.conn ?_ hy ?_ hsess hn hk fun id n hid => hm ▸ hid)
  · funext d
    rw [Broker.setConn_conns, Broker.setConn_conns, hg]
  · intro ch id n heq
    rw [heq] at hpc
    exact hpc.elim

theorem Session.Still.detach (x : Session) : x.Still { x with attached := none } :=
  ⟨rfl, rfl, rfl, .inr rfl, fun h => h⟩

/-- What a session's own step has to keep. -/
structure Session.Moves (b : Broker) (n : ℕ) (x : Session) : Prop where
  rings : ∃ cap, Holds cap x.stream x.ring
  written : ∀ chunk, x.pump = .written chunk → chunk <:+ x.stream
  sending : ∀ w chunk, x.pump = .sending w chunk → chunk <:+ x.stream ∧ w.serial < b.nextSerial
  attached : ∀ w, x.attached = some w → w.serial < b.nextSerial
  mayWrite : ∀ w, x.MayWrite w → (b.sessions n).MayWrite w
  good : ∀ c ch (s : Segment), s.session = n → s.session < b.nextSession →
    s.Good (b.sessions n) (b.conns c) c ch → s.Good x (b.conns c) c ch

theorem Streams.moves {b g : Broker} {n : ℕ} {x : Session} (h : Streams b)
    (hx : Session.Moves b n x) (hsess : g.sessions = (b.setSession n x).sessions)
    (hconns : g.conns = b.conns) (hserial : g.nextSerial = b.nextSerial)
    (hle : b.nextSession ≤ g.nextSession) (hn : n < g.nextSession)
    (hm : ∀ id m, g.manager id = some m → b.manager id = some m ∨ m = n) : Streams g := by
  have hat : ∀ m, g.sessions m = if m = n then x else b.sessions m := fun m => by
    rw [hsess, Broker.setSession_sessions]
  constructor
  · intro m
    rw [hat]
    split_ifs
    · exact hx.rings
    · exact h.rings m
  · intro m hle'
    rw [hat, if_neg (by omega)]
    exact h.unborn m (hle.trans hle')
  · intro id m hid
    rcases hm id m hid with hid | rfl
    · exact (h.manager id m hid).trans_le hle
    · exact hn
  · intro c ch id m hpc
    rw [hconns] at hpc
    exact (h.attaching c ch id m hpc).trans_le hle
  · intro m chunk
    rw [hat]
    split_ifs
    · exact hx.written chunk
    · exact h.written m chunk
  · intro m w chunk
    rw [hat, hserial]
    split_ifs
    · exact hx.sending w chunk
    · exact h.sending m w chunk
  · intro m w
    rw [hat, hserial]
    split_ifs
    · exact hx.attached w
    · exact h.attached m w
  · rw [hconns]
    exact h.sorted
  · intro c ch s hmem
    rw [hconns] at hmem
    obtain ⟨hk, hs⟩ := h.bounds c ch s hmem
    exact ⟨hserial ▸ hk, hs.trans_le hle⟩
  · intro c ch s hb hhead
    rw [hconns] at hb hhead
    have hnew := h.newest c ch s hb hhead
    refine ⟨fun m k hw => hnew.writers m k ?_, ?_⟩
    · rw [hat] at hw
      split_ifs at hw with hmn
      · rw [hmn]
        exact hx.mayWrite _ hw
      · exact hw
    · rw [hconns]
      exact hnew.replay
  · intro c ch s hmem
    rw [hconns] at hmem ⊢
    have hgood := h.good c ch s hmem
    rw [hat]
    split_ifs with hsn
    · exact hx.good c ch s hsn (h.bounds c ch s hmem).2 (hsn ▸ hgood)
    · exact hgood

theorem Streams.born {b : Broker} (h : Streams b) (id : String) :
    Streams { b.setSession b.nextSession (b.fresh id) with
      manager := Function.update b.manager id (some b.nextSession)
      nextSession := b.nextSession + 1 } := by
  refine h.moves (n := b.nextSession) (x := b.fresh id) ?_ rfl rfl rfl (Nat.le_succ _)
    (Nat.lt_succ_self _) ?_
  · refine ⟨newRingBuffer_holds_nil _, nofun, nofun, nofun, ?_, ?_⟩
    · intro w hw
      cases hw.1
    · intro c ch s hs hlt
      omega
  · intro id' m hid
    simp only [Function.update_apply] at hid
    split_ifs at hid
    · exact .inr (Option.some.inj hid).symm
    · exact .inl hid

theorem Streams.read {b : Broker} {n : ℕ} {chunk : List UInt8} (h : Streams b)
    (hn : n < b.nextSession) (hk : (b.sessions n).killed = false)
    (hp : (b.sessions n).pump = .idle) :
    Streams (b.setSession n { b.sessions n with
      ring := RingBuffer.write (b.sessions n).ring chunk
      stream := (b.sessions n).stream ++ chunk
      pump := .written chunk }) := by
  refine h.moves (n := n) ?_ rfl rfl rfl le_rfl hn fun _ _ hm => .inl hm
  constructor
  · obtain ⟨cap, hholds⟩ := h.rings n
    exact ⟨cap, (hholds.write chunk).1⟩
  · intro chunk' heq
    cases heq
    exact List.suffix_append _ _
  · nofun
  · exact h.attached n
  · intro w hw
    simp only [Session.MayWrite, hp]
    exact ⟨hw, hk⟩
  · intro c ch s hs _ hgood
    obtain ⟨a, e, ha, hdel, hlive⟩ := hgood
    refine ⟨a, e, ha, hdel.grow chunk, fun hb => ⟨fun hw => ?_, nofun⟩⟩
    have hend := (hlive hb).1 hw
    simp only [Session.inFlight, hp] at hend
    simp only [Session.inFlight, List.length_append]
    omega

theorem Streams.lookupNone {b : Broker} {n : ℕ} (h : Streams b)
    (hn : n < b.nextSession) (hw : (b.sessions n).attached = none) :
    Streams (b.setSession n { b.sessions n with pump := .idle }) := by
  refine h.moves (n := n) ?_ rfl rfl rfl le_rfl hn fun _ _ hm => .inl hm
  refine ⟨h.rings n, nofun, nofun, h.attached n, ?_, ?_⟩
  · intro w hmay
    have hatt : (b.sessions n).attached = some w := hmay.1
    rw [hw] at hatt
    cases hatt
  · intro c ch s hs _ hgood
    obtain ⟨a, e, ha, hdel, hlive⟩ := hgood
    refine ⟨a, e, ha, hdel, fun hb => ⟨fun hatt => ?_, nofun⟩⟩
    have hatt' : (b.sessions n).attached = some _ := hatt
    rw [hw] at hatt'
    cases hatt'

theorem Streams.lookup {b : Broker} {n : ℕ} {chunk : List UInt8} {w : Writer} (h : Streams b)
    (hn : n < b.nextSession) (hp : (b.sessions n).pump = .written chunk)
    (hw : (b.sessions n).attached = some w) :
    Streams (b.setSession n { b.sessions n with pump := .sending w chunk }) := by
  refine h.moves (n := n) ?_ rfl rfl rfl le_rfl hn fun _ _ hm => .inl hm
  refine ⟨h.rings n, nofun, ?_, h.attached n, ?_, ?_⟩
  · intro w' chunk' heq
    cases heq
    exact ⟨h.written n chunk hp, h.attached n w hw⟩
  · intro w' hmay
    simp only [Session.MayWrite, hp]
    rcases hmay with rfl | ⟨hatt, -⟩
    · exact hw
    · exact hatt
  · intro c ch s hs _ hgood
    obtain ⟨a, e, ha, hdel, hlive⟩ := hgood
    refine ⟨a, e, ha, hdel, fun hb => ?_⟩
    have hend : ∀ v, v = w → v = ⟨c, ch, s.serial⟩ →
        e + chunk.length = (b.sessions n).stream.length := by
      rintro v rfl rfl
      have hfl := (hlive hb).1 hw
      simpa only [Session.inFlight, hp] using hfl
    refine ⟨fun hatt => ?_, fun chunk' heq => ?_⟩
    · have hv : w = ⟨c, ch, s.serial⟩ := by
        have hatt' : (b.sessions n).attached = some _ := hatt
        rw [hw] at hatt'
        exact Option.some.inj hatt'
      simp only [Session.inFlight, if_pos hv]
      exact hend w rfl hv
    · cases heq
      exact hend _ rfl rfl

theorem extend_pairwise {q : Piece} {segs : List Segment}
    (h : segs.Pairwise fun s t => t.serial < s.serial) :
    (extend q segs).Pairwise fun s t => t.serial < s.serial := by
  cases segs with
  | nil => exact h
  | cons t rest =>
    obtain ⟨hhead, htail⟩ := List.pairwise_cons.mp h
    exact List.pairwise_cons.mpr ⟨hhead, htail⟩

theorem mem_extend {q : Piece} {segs : List Segment} {s : Segment} (h : s ∈ extend q segs) :
    (∃ t rest, segs = t :: rest ∧ s = { t with pieces := t.pieces ++ [q] }) ∨
      ∃ t rest, segs = t :: rest ∧ s ∈ rest := by
  cases segs with
  | nil => cases h
  | cons t rest =>
    rcases List.mem_cons.mp h with rfl | h
    · exact .inl ⟨t, rest, rfl, rfl⟩
    · exact .inr ⟨t, rest, rfl, h⟩

/-- Channel `ch` of connection `c` got one more piece. -/
structure Extends (b g : Broker) (c ch : ℕ) (q : Piece) : Prop where
  live : (b.conns c).broken = false
  others : ∀ d, d ≠ c → g.conns d = b.conns d
  segments : ∀ ch', (g.conns c).segments ch' =
    if ch' = ch then extend q ((b.conns c).segments ch') else (b.conns c).segments ch'
  broken : (g.conns c).broken = (b.conns c).broken
  replay : ∀ r, (g.conns c).pc.replay = some r → (b.conns c).pc.replay = some r
  attaching : ∀ ch' id n, (g.conns c).pc = .attaching ch' id n →
    (b.conns c).pc = .attaching ch' id n
  nextSession : g.nextSession = b.nextSession
  nextSerial : g.nextSerial = b.nextSerial
  manager : g.manager = b.manager
  stream : ∀ n, (g.sessions n).stream = (b.sessions n).stream
  ring : ∀ n, (g.sessions n).ring = (b.sessions n).ring
  attached : ∀ n, (g.sessions n).attached = (b.sessions n).attached
  pump : ∀ n, (g.sessions n).pump = (b.sessions n).pump ∨ (g.sessions n).pump = .idle
  mayWrite : ∀ n w, (g.sessions n).MayWrite w → (b.sessions n).MayWrite w

theorem Streams.extend {b g : Broker} {c ch : ℕ} {q : Piece} (h : Streams b)
    (hg : Extends b g c ch q)
    (hgood : ∀ d ch' s, s ∈ (b.conns d).segments ch' →
      (d = c → ch' = ch → s ∈ ((b.conns c).segments ch).tail) →
      s.Good (b.sessions s.session) (b.conns d) d ch' →
      s.Good (g.sessions s.session) (g.conns d) d ch')
    (hnew : ∀ s, ((b.conns c).segments ch).head? = some s → Newest b c ch s →
      s.Good (b.sessions s.session) (b.conns c) c ch →
      { s with pieces := s.pieces ++ [q] }.Good (g.sessions s.session) (g.conns c) c ch) :
    Streams g := by
  constructor
  · intro n
    rw [hg.stream, hg.ring]
    exact h.rings n
  · intro n hn
    obtain ⟨hw, hp⟩ := h.unborn n (hg.nextSession ▸ hn)
    refine ⟨(hg.attached n).trans hw, ?_⟩
    exact (hg.pump n).elim (fun heq => heq.trans hp) fun heq => heq
  · intro id n hm
    rw [hg.manager] at hm
    exact hg.nextSession ▸ h.manager id n hm
  · intro d ch' id n hpc
    rw [hg.nextSession]
    by_cases hd : d = c
    · subst hd
      exact h.attaching d ch' id n (hg.attaching ch' id n hpc)
    · rw [hg.others d hd] at hpc
      exact h.attaching d ch' id n hpc
  · intro n chunk hp
    rw [hg.stream]
    rcases hg.pump n with heq | heq
    · exact h.written n chunk (heq ▸ hp)
    · rw [heq] at hp
      cases hp
  · intro n w chunk hp
    rw [hg.stream, hg.nextSerial]
    rcases hg.pump n with heq | heq
    · exact h.sending n w chunk (heq ▸ hp)
    · rw [heq] at hp
      cases hp
  · intro n w hw
    rw [hg.attached] at hw
    exact hg.nextSerial ▸ h.attached n w hw
  · intro d ch'
    by_cases hd : d = c
    · subst hd
      rw [hg.segments]
      split_ifs
      · exact extend_pairwise (h.sorted d ch')
      · exact h.sorted d ch'
    · rw [hg.others d hd]
      exact h.sorted d ch'
  · intro d ch' s hmem
    rw [hg.nextSerial, hg.nextSession]
    by_cases hd : d = c
    · subst hd
      rw [hg.segments] at hmem
      split_ifs at hmem with hch
      · rcases mem_extend hmem with ⟨t, rest, heq, rfl⟩ | ⟨t, rest, heq, hrest⟩
        · exact h.bounds d ch' t (heq ▸ List.mem_cons_self)
        · exact h.bounds d ch' s (heq ▸ List.mem_cons_of_mem t hrest)
      · exact h.bounds d ch' s hmem
    · rw [hg.others d hd] at hmem
      exact h.bounds d ch' s hmem
  · intro d ch' s hb hhead
    by_cases hd : d = c
    · subst hd
      have hold : ∃ t, ((b.conns d).segments ch').head? = some t ∧ t.session = s.session ∧
          t.serial = s.serial := by
        rw [hg.segments] at hhead
        split_ifs at hhead
        · cases hsegs : (b.conns d).segments ch' with
          | nil =>
            rw [hsegs] at hhead
            cases hhead
          | cons t rest =>
            rw [hsegs] at hhead
            cases hhead
            exact ⟨t, rfl, rfl, rfl⟩
        · exact ⟨s, hhead, rfl, rfl⟩
      obtain ⟨t, ht, hsession, hserial⟩ := hold
      have hnewest := h.newest d ch' t hg.live ht
      constructor
      · intro m k hw
        rw [← hsession, ← hserial]
        exact hnewest.writers m k (hg.mayWrite m _ hw)
      · intro r hr
        rw [← hsession, ← hserial]
        exact hnewest.replay r (hg.replay r hr)
    · rw [hg.others d hd] at hb hhead
      have hnewest := h.newest d ch' s hb hhead
      refine ⟨fun m k hw => hnewest.writers m k (hg.mayWrite m _ hw), ?_⟩
      rw [hg.others d hd]
      exact hnewest.replay
  · intro d ch' s hmem
    by_cases hd : d = c
    · subst hd
      rw [hg.segments] at hmem
      split_ifs at hmem with hch
      · subst hch
        rcases mem_extend hmem with ⟨t, rest, heq, rfl⟩ | ⟨t, rest, heq, hrest⟩
        · have hhead : ((b.conns d).segments ch').head? = some t := by rw [heq]; rfl
          have hmem' : t ∈ (b.conns d).segments ch' := heq ▸ List.mem_cons_self
          exact hnew t hhead (h.newest d ch' t hg.live hhead) (h.good d ch' t hmem')
        · have hmem' : s ∈ (b.conns d).segments ch' := heq ▸ List.mem_cons_of_mem t hrest
          refine hgood d ch' s hmem' (fun _ _ => ?_) (h.good d ch' s hmem')
          rw [heq]
          exact hrest
      · exact hgood d ch' s hmem (fun _ heq => absurd heq hch) (h.good d ch' s hmem)
    · have hmem' := hmem
      rw [hg.others d hd] at hmem'
      exact hgood d ch' s hmem' (fun heq => absurd heq hd) (h.good d ch' s hmem')

theorem Conn.segments_written {x : Conn} {f : Frame} {ch n pos : ℕ} {body : List UInt8}
    (hf : f = .history ch n pos body ∨ f = .output ch n pos body) (hb : x.broken = false)
    (ch' : ℕ) : (x.say f).segments ch' =
      if ch' = ch then extend ⟨n, pos, body⟩ (x.segments ch') else x.segments ch' := by
  rw [Conn.segments_say, hb, if_neg Bool.false_ne_true]
  rcases hf with rfl | rfl <;> simp only [Frame.onto, eq_comm]

theorem Streams.tail_lt {b : Broker} (h : Streams b) {c ch : ℕ} {s : Segment}
    (hs : s ∈ ((b.conns c).segments ch).tail) :
    ∃ t, ((b.conns c).segments ch).head? = some t ∧ s.serial < t.serial := by
  have hsorted := h.sorted c ch
  cases hsegs : (b.conns c).segments ch with
  | nil =>
    rw [hsegs] at hs
    cases hs
  | cons t rest =>
    rw [hsegs] at hs hsorted
    exact ⟨t, rfl, (List.pairwise_cons.mp hsorted).1 s hs⟩

theorem Pc.due_eq_nil {pc : Pc} (h : pc.replay = none) (ch : ℕ) (s : Segment) :
    pc.due ch s = [] := by
  unfold Pc.due
  rw [h]

/-- HISTORY is written: what was due to the newest attachment is delivered. -/
theorem Streams.replay {b g : Broker} {c ch pos : ℕ} {e : Entry} {history : List UInt8}
    (h : Streams b) (pc : Pc) (hb : (b.conns c).broken = false)
    (hdue : (b.conns c).pc.replay = some (ch, e, pos, history))
    (hconns : g.conns = (b.setConn c { (b.conns c).say (.history ch e.session pos history) with
      pc := pc }).conns)
    (hpc : pc.Settled) (hsess : g.sessions = b.sessions) (hn : g.nextSession = b.nextSession)
    (hk : g.nextSerial = b.nextSerial) (hm : g.manager = b.manager) : Streams g := by
  have hat : g.conns c = { (b.conns c).say (.history ch e.session pos history) with pc := pc } := by
    rw [hconns, Broker.setConn_conns, if_pos rfl]
  have hg : Extends b g c ch ⟨e.session, pos, history⟩ := by
    refine ⟨hb, ?_, ?_, ?_, ?_, ?_, hn, hk, hm, ?_, ?_, ?_, ?_, ?_⟩
    · intro d hd
      rw [hconns, Broker.setConn_conns, if_neg hd]
    · intro ch'
      rw [hat]
      exact Conn.segments_written (.inl rfl) hb ch'
    · rw [hat]
      exact Conn.say_broken _ _
    · intro r hr
      rw [hat, hpc.replay] at hr
      cases hr
    · intro ch' id n heq
      rw [hat] at heq
      subst heq
      exact hpc.elim
    all_goals
      intro n
      rw [hsess]
    · exact .inl rfl
    · exact fun w hw => hw
  have hempty : ∀ ch' s, (g.conns c).pc.due ch' s = [] := by
    intro ch' s
    rw [hat]
    exact Pc.due_eq_nil hpc.replay ch' s
  refine h.extend hg ?_ ?_
  · intro d ch' s hmem htail hgood
    rw [hsess]
    by_cases hd : d = c
    · subst hd
      have hnone : (b.conns d).pc.due ch' s = [] := by
        simp only [Pc.due, hdue]
        rw [if_neg]
        rintro ⟨rfl, hserial⟩
        obtain ⟨t, ht, hlt⟩ := h.tail_lt (htail rfl rfl)
        have heq : e.serial = t.serial := ((h.newest d ch t hb ht).replay _ hdue rfl).2
        omega
      obtain ⟨a, e', ha, hdel, hlive⟩ := hgood
      rw [hnone] at hdel
      exact ⟨a, e', ha, by rwa [hempty], fun _ => hlive hb⟩
    · rw [hg.others d hd]
      exact hgood
  · intro s hhead hnewest hgood
    obtain ⟨hsession, hserial⟩ := hnewest.replay _ hdue rfl
    obtain ⟨a, e', ha, hdel, hlive⟩ := hgood
    refine ⟨a, e', ha, ?_, fun _ => ?_⟩
    · have hone : (b.conns c).pc.due ch s = [⟨e.session, pos, history⟩] := by
        have heq : e.serial = s.serial := hserial
        have hsame : e.session = s.session := hsession
        simp [Pc.due, hdue, heq, hsame]
      rw [hone] at hdel
      rw [hempty, List.append_nil, hsess]
      exact hdel
    · rw [hsess]
      exact hlive hb

/-- A chunk that was on its way to another attachment, or to a lost connection. -/
theorem Segment.Good.sent {s : Segment} {x : Session} {y : Conn} {c ch : ℕ} {w : Writer}
    {chunk : List UInt8} (h : s.Good x y c ch) (hp : x.pump = .sending w chunk)
    (hw : w = ⟨c, ch, s.serial⟩ → y.broken = true) :
    s.Good { x with pump := .idle } y c ch := by
  obtain ⟨a, e, ha, hdel, hlive⟩ := h
  refine ⟨a, e, ha, hdel, fun hb => ⟨fun hatt => ?_, nofun⟩⟩
  have hend := (hlive hb).1 hatt
  simp only [Session.inFlight, hp] at hend ⊢
  split_ifs at hend with heq
  · rw [hw heq] at hb
    cases hb
  · exact hend

theorem idle_mayWrite {x : Session} {w v : Writer} {chunk : List UInt8}
    (hp : x.pump = .sending w chunk) (h : { x with pump := .idle }.MayWrite v) : x.MayWrite v := by
  simp only [Session.MayWrite, hp]
  exact .inr h

theorem Streams.sessions_lt {b : Broker} (h : Streams b) {n : ℕ}
    (hp : (b.sessions n).pump ≠ .idle) : n < b.nextSession := by
  by_contra hn
  exact hp (h.unborn n (not_lt.mp hn)).2

theorem Streams.send {b : Broker} {n : ℕ} {w : Writer} {chunk : List UInt8} (h : Streams b)
    (hp : (b.sessions n).pump = .sending w chunk)
    (hok : (b.conns w.conn).broken = false → ¬(b.conns w.conn).pc.Owes w.channel) :
    Streams ((b.setSession n { b.sessions n with pump := .idle }).setConn w.conn
      ((b.conns w.conn).say (.output w.channel n
        ((b.sessions n).stream.length - chunk.length) chunk))) := by
  have hn : n < b.nextSession := h.sessions_lt (by rw [hp]; nofun)
  cases hb : (b.conns w.conn).broken with
  | true =>
    have hsame : (b.conns w.conn).say (.output w.channel n
        ((b.sessions n).stream.length - chunk.length) chunk) = b.conns w.conn := by
      rw [Conn.say, if_pos hb]
    rw [hsame]
    refine h.moves (n := n) (x := { b.sessions n with pump := .idle }) ?_ rfl ?_ rfl le_rfl hn
      fun _ _ hm => .inl hm
    · refine ⟨h.rings n, nofun, nofun, h.attached n, fun v => idle_mayWrite hp, ?_⟩
      intro c ch s hs _ hgood
      refine hgood.sent hp ?_
      rintro rfl
      exact hb
    · funext d
      rw [Broker.setConn_conns]
      split_ifs with hd
      · rw [hd]
      · rfl
  | false =>
    set g := (b.setSession n { b.sessions n with pump := .idle }).setConn w.conn
      ((b.conns w.conn).say (.output w.channel n
        ((b.sessions n).stream.length - chunk.length) chunk)) with hgdef
    have hsess : ∀ m, g.sessions m =
        if m = n then { b.sessions n with pump := .idle } else b.sessions m := by
      intro m
      rw [hgdef, Broker.setConn_sessions, Broker.setSession_sessions]
    have hat : g.conns w.conn = (b.conns w.conn).say (.output w.channel n
        ((b.sessions n).stream.length - chunk.length) chunk) := by
      rw [hgdef, Broker.setConn_conns, if_pos rfl]
    have hg : Extends b g w.conn w.channel
        ⟨n, (b.sessions n).stream.length - chunk.length, chunk⟩ := by
      refine ⟨hb, ?_, ?_, ?_, ?_, ?_, rfl, rfl, rfl, ?_, ?_, ?_, ?_, ?_⟩
      · intro d hd
        rw [hgdef, Broker.setConn_conns, if_neg hd]
        rfl
      · intro ch'
        rw [hat]
        exact Conn.segments_written (.inr rfl) hb ch'
      · rw [hat]
        exact Conn.say_broken _ _
      · rw [hat, Conn.say_pc]
        exact fun _ hr => hr
      · rw [hat, Conn.say_pc]
        exact fun _ _ _ hr => hr
      all_goals
        intro m
        rw [hsess]
        split_ifs with hm
      · rw [hm]
      · rfl
      · rw [hm]
      · rfl
      · rw [hm]
      · rfl
      · exact .inr rfl
      · exact .inl rfl
      · rw [hm]
        exact fun v => idle_mayWrite hp
      · exact fun v hv => hv
    have hdue : ∀ s, (b.conns w.conn).pc.due w.channel s = [] :=
      Pc.due_of_not_owes (hok hb)
    have hmay : (b.sessions n).MayWrite ⟨w.conn, w.channel, w.serial⟩ := by
      simp only [Session.MayWrite, hp]
      exact .inl trivial
    have hkeep : ∀ d (y : Conn), y.pc = (b.conns d).pc → y.broken = (b.conns d).broken →
        ∀ ch' (s : Segment), s.Good (b.sessions s.session) (b.conns d) d ch' →
          (s.session = n → w ≠ ⟨d, ch', s.serial⟩) → s.Good (g.sessions s.session) y d ch' := by
      intro d y hpc hbr ch' s hgood hne
      have hgood' : s.Good (b.sessions s.session) y d ch' := by
        unfold Segment.Good at hgood ⊢
        rw [hpc, hbr]
        exact hgood
      rw [hsess]
      split_ifs with hs
      · exact (hs ▸ hgood').sent hp fun heq => absurd heq (hne hs)
      · exact hgood'
    refine h.extend hg ?_ ?_
    · intro d ch' s hmem htail hgood
      by_cases hd : d = w.conn
      · subst hd
        refine hkeep w.conn _ (by rw [hat, Conn.say_pc]) (by rw [hat, Conn.say_broken]) ch' s hgood ?_
        intro hs heq
        have hch : ch' = w.channel := by rw [heq]
        have hserial : w.serial = s.serial := by rw [heq]
        obtain ⟨t, ht, hlt⟩ := h.tail_lt (htail rfl hch)
        have := ((h.newest w.conn w.channel t hb ht).writers n w.serial hmay).2
        omega
      · rw [hg.others d hd]
        refine hkeep d _ rfl rfl ch' s hgood ?_
        rintro - rfl
        exact hd rfl
    · intro s hhead hnewest hgood
      obtain ⟨hsession, hserial⟩ := hnewest.writers n w.serial hmay
      obtain ⟨a, e, ha, hdel, hlive⟩ := hgood
      have hsending : (b.sessions s.session).pump =
          .sending ⟨w.conn, w.channel, s.serial⟩ chunk := by
        rw [← hsession, hp, ← hserial]
      have hend := (hlive hb).2 chunk hsending
      rw [hdue, List.append_nil] at hdel
      have hchunk := (h.sending s.session _ chunk hsending).1
      have hnext := hdel.snoc hchunk hend
      refine ⟨a, (b.sessions s.session).stream.length, ha, ?_, fun _ => ?_⟩
      · have hnone : (g.conns w.conn).pc.due w.channel
            { s with pieces := s.pieces ++
              [⟨n, (b.sessions n).stream.length - chunk.length, chunk⟩] } = [] := by
          rw [hat, Conn.say_pc]
          exact hdue _
        rw [hnone, List.append_nil, hg.stream, hsession]
        exact hnext
      · have hidle : (g.sessions s.session).pump = .idle := by
          rw [hsess, if_pos hsession.symm]
        rw [hg.stream]
        refine ⟨fun _ => ?_, fun chunk' heq => ?_⟩
        · simp only [Session.inFlight, hidle, Nat.add_zero]
        · rw [hidle] at heq
          cases heq

theorem trimToSafeStart_suffix (bytes : List UInt8) : trimToSafeStart bytes <:+ bytes := by
  unfold trimToSafeStart
  split
  · exact List.dropWhile_suffix _
  · exact List.drop_suffix _ _
  · exact List.drop_suffix _ _
  · split_ifs <;> exact List.drop_suffix _ _

theorem Streams.history_suffix {b : Broker} (h : Streams b) (n : ℕ) :
    (b.sessions n).history <:+ (b.sessions n).stream := by
  obtain ⟨cap, hholds⟩ := h.rings n
  have hsnap : (b.sessions n).ring.snapshot <:+ (b.sessions n).stream := by
    rw [hholds.contents]
    exact List.drop_suffix _ _
  unfold Session.history replaySnapshot
  split_ifs
  · exact (trimToSafeStart_suffix _).trans hsnap
  · exact hsnap

/-- The session an attach leaves behind: with the new writer, or as it was if it has exited. -/
def Session.Joined (x x' : Session) (w : Writer) : Prop :=
  x' = x ∨ x' = { x with attached := some w }

theorem Session.Joined.stream {x x' : Session} {w : Writer} (h : x.Joined x' w) :
    x'.stream = x.stream ∧ x'.ring = x.ring ∧ x'.pump = x.pump ∧ x'.killed = x.killed := by
  rcases h with rfl | rfl <;> exact ⟨rfl, rfl, rfl, rfl⟩

theorem Session.Joined.attached {x x' : Session} {w v : Writer} (h : x.Joined x' w)
    (hv : x'.attached = some v) : v = w ∨ x.attached = some v := by
  rcases h with rfl | rfl
  · exact .inr hv
  · exact .inl (Option.some.inj hv).symm

theorem Session.Joined.mayWrite {x x' : Session} {w v : Writer} (h : x.Joined x' w)
    (hv : x'.MayWrite v) : v = w ∨ x.MayWrite v := by
  rcases h with rfl | rfl
  · exact .inr hv
  · unfold Session.MayWrite at hv ⊢
    simp only at hv
    split at hv
    · exact .inl (Option.some.inj hv.1).symm
    · exact .inl (Option.some.inj hv).symm
    · rcases hv with rfl | ⟨hatt, -⟩
      · exact .inr (.inl rfl)
      · exact .inl (Option.some.inj hatt).symm

/-- An older attachment does not notice the new one. -/
theorem Segment.Good.older {s : Segment} {x x' : Session} {y y' : Conn} {w : Writer} {c ch : ℕ}
    (h : s.Good x y c ch) (hx : x.Joined x' w) (hs : s.serial ≠ w.serial)
    (hdue : y'.pc.due ch s = y.pc.due ch s) (hb : y'.broken = y.broken) :
    s.Good x' y' c ch := by
  obtain ⟨a, e, ha, hdel, hlive⟩ := h
  obtain ⟨hstream, -, hpump, -⟩ := hx.stream
  unfold Segment.Good Session.inFlight
  rw [hdue, hstream, hpump, hb]
  refine ⟨a, e, ha, hdel, fun hy => ⟨fun hatt => (hlive hy).1 ?_, (hlive hy).2⟩⟩
  rcases hx.attached hatt with heq | hold
  · rw [← heq] at hs
    exact absurd rfl hs
  · exact hold

/-- The segment an attach begins. -/
theorem Segment.Good.start {b : Broker} {n c ch : ℕ} {e : Entry} {x : Session} {y : Conn}
    {ended : Bool} (h : Streams b) (hx : (b.sessions n).Joined x ⟨c, ch, b.nextSerial⟩)
    (hk : e.serial = b.nextSerial)
    (hpc : y.pc = .acking ch e (b.sessions n).historyPos (b.sessions n).history ended)
    (hwritten : x.attached = some ⟨c, ch, b.nextSerial⟩ → (b.sessions n).history ≠ [] →
      (b.sessions n).pump.isWritten = false) :
    Segment.Good ⟨n, b.nextSerial, (b.sessions n).stream.length, []⟩ x y c ch := by
  have hsuffix := h.history_suffix n
  have hle := hsuffix.length_le
  obtain ⟨hstream, -, hpump, -⟩ := hx.stream
  have hnot : ∀ chunk, (b.sessions n).pump ≠ .sending ⟨c, ch, b.nextSerial⟩ chunk := by
    intro chunk hp
    exact absurd (h.sending n _ chunk hp).2 (lt_irrefl _)
  have hfl : x.inFlight ⟨c, ch, b.nextSerial⟩ ≤ (b.sessions n).stream.length ∧
      ((b.sessions n).pump.isWritten = false → x.inFlight ⟨c, ch, b.nextSerial⟩ = 0) := by
    unfold Session.inFlight
    rw [hpump]
    cases hp : (b.sessions n).pump with
    | idle => exact ⟨Nat.zero_le _, fun _ => rfl⟩
    | written chunk => exact ⟨(h.written n chunk hp).length_le, nofun⟩
    | sending w chunk =>
      have hw : w ≠ ⟨c, ch, b.nextSerial⟩ := fun heq => hnot chunk (heq ▸ hp)
      simp only [if_neg hw]
      exact ⟨Nat.zero_le _, fun _ => trivial⟩
  by_cases hempty : (b.sessions n).history = []
  · have hdue : y.pc.due ch ⟨n, b.nextSerial, (b.sessions n).stream.length, []⟩ = [] := by
      simp [Pc.due, hpc, Pc.replay, hempty]
    have hfrom : x.stream.length - x.inFlight ⟨c, ch, b.nextSerial⟩ ≤ x.stream.length :=
      Nat.sub_le _ _
    refine ⟨x.stream.length - x.inFlight ⟨c, ch, b.nextSerial⟩,
      x.stream.length - x.inFlight ⟨c, ch, b.nextSerial⟩, ?_, ?_, fun _ => ⟨?_, ?_⟩⟩
    · exact hfrom.trans (by rw [hstream])
    · rw [hdue]
      exact Delivers.nil hfrom
    · intro hatt
      exact Nat.sub_add_cancel (hstream ▸ hfl.1)
    · intro chunk hp
      rw [hpump] at hp
      exact absurd hp (hnot chunk)
  · have hdue : y.pc.due ch ⟨n, b.nextSerial, (b.sessions n).stream.length, []⟩ =
        [⟨n, (b.sessions n).historyPos, (b.sessions n).history⟩] := by
      simp [Pc.due, hpc, Pc.replay, hempty, hk]
    have hpos : (b.sessions n).historyPos + (b.sessions n).history.length =
        (b.sessions n).stream.length := by
      unfold Session.historyPos
      omega
    refine ⟨(b.sessions n).historyPos, (b.sessions n).stream.length, ?_, ?_, fun _ => ⟨?_, ?_⟩⟩
    · exact hpos ▸ Nat.le_add_right _ _
    · rw [hdue, hstream]
      exact (Delivers.nil (hpos ▸ Nat.le_add_right _ _)).snoc hsuffix hpos
    · intro hatt
      have hzero := hfl.2 (hwritten hatt hempty)
      simp only [hzero, hstream, Nat.add_zero]
    · intro chunk hp
      rw [hpump] at hp
      exact absurd hp (hnot chunk)

theorem Conn.segments_joins {x : Conn} (hb : x.broken = false) (ch : ℕ) (e : Entry) (pos ch' : ℕ) :
    (x.joins ch e pos).segments ch' =
      if ch' = ch then ⟨e.session, e.serial, pos, []⟩ :: x.segments ch' else x.segments ch' := by
  rw [Conn.joins, Conn.segments_say, hb, if_neg Bool.false_ne_true]
  simp only [Frame.onto, eq_comm]
  rfl

theorem Conn.segments_joins_broken {x : Conn} (hb : x.broken = true) (ch : ℕ) (e : Entry)
    (pos ch' : ℕ) : (x.joins ch e pos).segments ch' = x.segments ch' := by
  rw [Conn.joins, Conn.segments_say, hb, if_pos rfl]
  rfl

/-- A segment after an attach is an old one, or the one just begun. -/
theorem mem_segments_joins {x : Conn} {ch pos ch' : ℕ} {e : Entry} {s : Segment}
    (h : s ∈ (x.joins ch e pos).segments ch') :
    s ∈ x.segments ch' ∨
      x.broken = false ∧ ch' = ch ∧ s = ⟨e.session, e.serial, pos, []⟩ := by
  cases hb : x.broken with
  | true =>
    rw [Conn.segments_joins_broken hb] at h
    exact .inl h
  | false =>
    rw [Conn.segments_joins hb] at h
    split_ifs at h with hch
    · rcases List.mem_cons.mp h with rfl | h
      · exact .inr ⟨rfl, hch, rfl⟩
      · exact .inl h
    · exact .inl h

theorem Conn.joins_broken (x : Conn) (ch : ℕ) (e : Entry) (pos : ℕ) :
    (x.joins ch e pos).broken = x.broken := by
  rw [Conn.joins, Conn.say_broken]

theorem Streams.attach {b g : Broker} {c ch n : ℕ} {e : Entry} {x : Session} {y : Conn}
    {ended : Bool} (h : Streams b) (hn : n < b.nextSession) (he : e.session = n)
    (hk : e.serial = b.nextSerial) (hpc : (b.conns c).pc.replay = none)
    (hx : (b.sessions n).Joined x ⟨c, ch, b.nextSerial⟩)
    (hy : y = { (b.conns c).joins ch e (b.sessions n).stream.length with
      pc := .acking ch e (b.sessions n).historyPos (b.sessions n).history ended })
    (hfree : (b.conns c).broken = false → ∀ m k, ¬(b.sessions m).MayWrite ⟨c, ch, k⟩)
    (hwritten : (b.conns c).broken = false → x.attached = some ⟨c, ch, b.nextSerial⟩ →
      (b.sessions n).history ≠ [] → (b.sessions n).pump.isWritten = false)
    (hconns : g.conns = (b.setConn c y).conns)
    (hsess : g.sessions = (b.setSession n x).sessions) (hn' : g.nextSession = b.nextSession)
    (hk' : g.nextSerial = b.nextSerial + 1) (hm : g.manager = b.manager) : Streams g := by
  have hat : ∀ m, (b.sessions m).Joined (g.sessions m) ⟨c, ch, b.nextSerial⟩ := by
    intro m
    rw [hsess, Broker.setSession_sessions]
    split_ifs with hmn
    · exact hmn ▸ hx
    · exact .inl rfl
  have hother : ∀ m, m ≠ n → g.sessions m = b.sessions m := by
    intro m hmn
    rw [hsess, Broker.setSession_sessions, if_neg hmn]
  have hself : g.conns c = y := by rw [hconns, Broker.setConn_conns, if_pos rfl]
  have hothers : ∀ d, d ≠ c → g.conns d = b.conns d := by
    intro d hd
    rw [hconns, Broker.setConn_conns, if_neg hd]
  have hsegs : ∀ ch', y.segments ch' =
      ((b.conns c).joins ch e (b.sessions n).stream.length).segments ch' := by
    rw [hy]
    exact fun _ => rfl
  have hbroken : y.broken = (b.conns c).broken := by
    rw [hy]
    exact Conn.joins_broken _ _ _ _
  have hreplay : ∀ r, y.pc.replay = some r → r.1 = ch ∧ r.2.1 = e := by
    intro r hr
    rw [hy] at hr
    simp only [Pc.replay] at hr
    split_ifs at hr
    cases hr
    exact ⟨rfl, rfl⟩
  -- the goroutine was not in the middle of another attach
  have hdue : ∀ ch' (s : Segment), s.serial ≠ b.nextSerial →
      y.pc.due ch' s = (b.conns c).pc.due ch' s := by
    intro ch' s hs
    rw [Pc.due_eq_nil hpc]
    unfold Pc.due
    split
    · rfl
    · next ch₀ e₀ pos history hr =>
      obtain ⟨-, heq⟩ := hreplay _ hr
      rw [if_neg]
      rintro ⟨-, hserial⟩
      rw [show e₀ = e from heq, hk] at hserial
      exact hs hserial.symm
  constructor
  · intro m
    obtain ⟨hstream, hring, -, -⟩ := (hat m).stream
    rw [hstream, hring]
    exact h.rings m
  · intro m hle
    rw [hother m (by omega)]
    exact h.unborn m (hn' ▸ hle)
  · intro id m hid
    rw [hm] at hid
    exact hn' ▸ h.manager id m hid
  · intro d ch' id m heq
    rw [hn']
    by_cases hd : d = c
    · subst hd
      rw [hself, hy] at heq
      cases heq
    · rw [hothers d hd] at heq
      exact h.attaching d ch' id m heq
  · intro m chunk hp
    obtain ⟨hstream, -, hpump, -⟩ := (hat m).stream
    rw [hpump] at hp
    rw [hstream]
    exact h.written m chunk hp
  · intro m w chunk hp
    obtain ⟨hstream, -, hpump, -⟩ := (hat m).stream
    rw [hpump] at hp
    obtain ⟨hsuffix, hlt⟩ := h.sending m w chunk hp
    rw [hstream, hk']
    exact ⟨hsuffix, Nat.lt_succ_of_lt hlt⟩
  · intro m w hw
    rw [hk']
    rcases (hat m).attached hw with rfl | hold
    · exact Nat.lt_succ_self _
    · exact Nat.lt_succ_of_lt (h.attached m w hold)
  · intro d ch'
    by_cases hd : d = c
    · subst hd
      rw [hself, hsegs]
      cases hb : (b.conns d).broken with
      | true =>
        rw [Conn.segments_joins_broken hb]
        exact h.sorted d ch'
      | false =>
        rw [Conn.segments_joins hb]
        split_ifs
        · refine List.pairwise_cons.mpr ⟨fun s hs => ?_, h.sorted d ch'⟩
          rw [hk]
          exact (h.bounds d ch' s hs).1
        · exact h.sorted d ch'
    · rw [hothers d hd]
      exact h.sorted d ch'
  · intro d ch' s hmem
    rw [hk', hn']
    have hold : s ∈ (b.conns d).segments ch' →
        s.serial < b.nextSerial + 1 ∧ s.session < b.nextSession := fun hs =>
      ⟨Nat.lt_succ_of_lt (h.bounds d ch' s hs).1, (h.bounds d ch' s hs).2⟩
    by_cases hd : d = c
    · subst hd
      rw [hself, hsegs] at hmem
      rcases mem_segments_joins hmem with hs | ⟨-, -, rfl⟩
      · exact hold hs
      · exact ⟨hk ▸ Nat.lt_succ_self _, he ▸ hn⟩
    · rw [hothers d hd] at hmem
      exact hold hmem
  · intro d ch' s hb hhead
    -- only the new attachment can have gained a writer
    have hgain : ∀ m k, (g.sessions m).MayWrite ⟨d, ch', k⟩ → (d = c → ch' ≠ ch) →
        (b.sessions m).MayWrite ⟨d, ch', k⟩ := by
      intro m k hw hne
      rcases (hat m).mayWrite hw with heq | hold
      · cases heq
        exact absurd rfl (hne rfl)
      · exact hold
    by_cases hd : d = c
    · subst hd
      rw [hself, hbroken] at hb
      rw [hself, hsegs, Conn.segments_joins hb] at hhead
      split_ifs at hhead with hch
      · subst hch
        obtain rfl := Option.some.inj hhead
        constructor
        · intro m k hw
          by_cases hmn : m = n
          · subst hmn
            rcases (hat m).mayWrite hw with heq | hold
            · cases heq
              exact ⟨he.symm, hk.symm⟩
            · exact absurd hold (hfree hb m k)
          · rw [hother m hmn] at hw
            exact absurd hw (hfree hb m k)
        · intro r hr _
          rw [hself] at hr
          obtain ⟨-, heq⟩ := hreplay r hr
          rw [heq]
          exact ⟨rfl, rfl⟩
      · have hnewest := h.newest d ch' s hb hhead
        refine ⟨fun m k hw => hnewest.writers m k (hgain m k hw fun _ => hch), ?_⟩
        intro r hr hr'
        rw [hself] at hr
        exact absurd (hr'.symm.trans (hreplay r hr).1) hch
    · rw [hothers d hd] at hb hhead
      have hnewest := h.newest d ch' s hb hhead
      refine ⟨fun m k hw => hnewest.writers m k (hgain m k hw fun heq => absurd heq hd), ?_⟩
      rw [hothers d hd]
      exact hnewest.replay
  · intro d ch' s hmem
    have hold : s ∈ (b.conns d).segments ch' → s.serial ≠ b.nextSerial := fun hs =>
      (h.bounds d ch' s hs).1.ne
    by_cases hd : d = c
    · subst hd
      rw [hself] at hmem ⊢
      rw [hsegs] at hmem
      rcases mem_segments_joins hmem with hs | ⟨hb, rfl, rfl⟩
      · exact (h.good d ch' s hs).older (hat _) (hold hs) (hdue ch' s (hold hs)) hbroken
      · have hstart := Segment.Good.start (y := y) h hx hk (by rw [hy]) (hwritten hb)
        rw [he, hk]
        have hgn : g.sessions n = x := by rw [hsess, Broker.setSession_sessions, if_pos rfl]
        exact hgn ▸ hstart
    · rw [hothers d hd] at hmem ⊢
      exact (h.good d ch' s hmem).older (hat _) (hold hmem) rfl rfl

theorem Streams.mayWrite_lt {b : Broker} (h : Streams b) {m : ℕ} {w : Writer}
    (hw : (b.sessions m).MayWrite w) : m < b.nextSession ∧ w.serial < b.nextSerial := by
  constructor
  · by_contra hm
    obtain ⟨hnone, hidle⟩ := h.unborn m (not_lt.mp hm)
    simp only [Session.MayWrite, hidle, hnone] at hw
    cases hw.1
  · unfold Session.MayWrite at hw
    split at hw
    · exact h.attached m w hw.1
    · exact h.attached m w hw
    · next v chunk hp =>
      rcases hw with rfl | hw
      · exact (h.sending m v chunk hp).2
      · exact h.attached m w hw.1

/-- The condition on an attach, without its bounds. -/
theorem InOrder.attach {b : Broker} {c ch n : ℕ} {id : String} (h : Streams b)
    (hok : InOrder b (.resume c)) (hpc : (b.conns c).pc = .attaching ch id n)
    (hor : (b.sessions n).dead = true ∨ (b.sessions n).attached = none)
    (hb : (b.conns c).broken = false) :
    (∀ m k, ¬(b.sessions m).MayWrite ⟨c, ch, k⟩) ∧
      ((b.sessions n).dead = false → (b.sessions n).history ≠ [] →
        (b.sessions n).pump.isWritten = false) := by
  simp only [InOrder, hpc] at hok
  obtain ⟨hfree, hwritten⟩ := hok hb hor
  refine ⟨fun m k hw => ?_, hwritten⟩
  obtain ⟨hm, hk⟩ := h.mayWrite_lt hw
  exact hfree m hm k hk hw

end ClaudeFleet.BrokerServer
