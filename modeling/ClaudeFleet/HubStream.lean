import ClaudeFleet.HubMembership

/-! What a viewer is sent on a channel is a contiguous piece of its tap's stream. -/
namespace ClaudeFleet.AttachHub

open Transition ReplayBuffer

/-- What a viewer was sent on a channel since it entered a tap: `lead` before ATTACHED, and
`bytes` between ATTACHED and the ENDED or the answer to DETACH after it. The positions are
lengths of the tap's stream. -/
structure Segment where
  tap : ℕ
  joined : ℕ
  lead : List UInt8 := []
  attached : Option ℕ := none
  bytes : List UInt8 := []
  finished : Bool := false
  deriving DecidableEq

def Segment.feed (s : Segment) (body : List UInt8) : Segment :=
  if s.attached = none then { s with lead := s.lead ++ body }
  else if s.finished then s
  else { s with bytes := s.bytes ++ body }

@[simp] theorem Segment.feed_tap (s : Segment) (body : List UInt8) : (s.feed body).tap = s.tap := by
  unfold Segment.feed
  split_ifs <;> rfl

def Segment.stop (s : Segment) : Segment := { s with finished := s.attached.isSome }

/-- ATTACHED belongs to the segment that waits for it; else it starts one. -/
def markAttached (t p : ℕ) : List Segment → List Segment
  | s :: segs =>
    if s.tap = t ∧ s.attached = none then { s with attached := some p } :: segs
    else { tap := t, joined := p, attached := some p } :: s :: segs
  | [] => [{ tap := t, joined := p, attached := some p }]

/-- The segments of a channel, the newest first, after one more frame. -/
def record (ch : ℕ) (segs : List Segment) : Frame → List Segment
  | .joined k t p => if k = ch then { tap := t, joined := p } :: segs else segs
  | .attached k t p => if k = ch then markAttached t p segs else segs
  | .history k body | .output k body => if k = ch then segs.modifyHead (·.feed body) else segs
  | .ended k _ | .detached k => if k = ch then segs.modifyHead Segment.stop else segs
  | _ => segs

def segments (ch : ℕ) (log : List Frame) : List Segment := log.foldl (record ch) []

theorem segments_append (ch : ℕ) (log frames : List Frame) :
    segments ch (log ++ frames) = frames.foldl (record ch) (segments ch log) := by
  simp [segments]

theorem record_quiet {f : Frame} (hf : f.Quiet) (ch : ℕ) (segs : List Segment) :
    record ch segs f = segs ∨ record ch segs f = segs.modifyHead Segment.stop := by
  cases f with
  | ended k reason =>
    by_cases hk : k = ch <;> simp [record, hk]
  | detached k =>
    by_cases hk : k = ch <;> simp [record, hk]
  | _ => first | exact Or.inl rfl | exact hf.elim

/-- A segment is contiguous in the stream: the lead starts where the viewer joined and reaches
to the ATTACHED, and the bytes after it start no later than there. -/
structure Segment.Within (s : Segment) (stream : List UInt8) : Prop where
  lead : ∃ pre post, stream = pre ++ s.lead ++ post ∧ pre.length = s.joined
  bytes : ∀ p, s.attached = some p → p = s.joined + s.lead.length ∧
    ∃ pre post, stream = pre ++ s.bytes ++ post ∧ pre.length ≤ p

theorem Segment.Within.append {s : Segment} {stream : List UInt8} (hs : s.Within stream)
    (body : List UInt8) : s.Within (stream ++ body) where
  lead := by
    obtain ⟨pre, post, heq, hlen⟩ := hs.lead
    exact ⟨pre, post ++ body, by rw [heq]; simp, hlen⟩
  bytes p hp := by
    obtain ⟨hpos, pre, post, heq, hlen⟩ := hs.bytes p hp
    exact ⟨hpos, pre, post ++ body, by rw [heq]; simp, hlen⟩

theorem Segment.Within.stop {s : Segment} {stream : List UInt8} (hs : s.Within stream) :
    s.stop.Within stream :=
  ⟨hs.lead, hs.bytes⟩

/-- The newest segment of a channel while the viewer waits for its ATTACHED. -/
structure Segment.Leading (s : Segment) (stream : List UInt8) : Prop where
  attached : s.attached = none
  bytes : s.bytes = []
  finished : s.finished = false
  lead : ∃ pre, stream = pre ++ s.lead ∧ pre.length = s.joined

/-- The newest segment of a channel in use. -/
structure Segment.Running (s : Segment) (stream : List UInt8) : Prop where
  attached : s.attached ≠ none
  bytes : s.finished = false → ∃ pre, stream = pre ++ s.bytes ∧ ∀ p, s.attached = some p →
    pre.length ≤ p

theorem Segment.Leading.stop {s : Segment} {stream : List UInt8} (hs : s.Leading stream) :
    s.stop.Leading stream :=
  ⟨hs.attached, hs.bytes, by simp [Segment.stop, hs.attached], hs.lead⟩

theorem Segment.Running.stop {s : Segment} {stream : List UInt8} (hs : s.Running stream) :
    s.stop.Running stream := by
  refine ⟨hs.attached, fun hfin => absurd hs.attached ?_⟩
  simpa [Segment.stop] using hfin

theorem Segment.Leading.within {s : Segment} {stream : List UInt8} (hs : s.Leading stream) :
    s.Within stream := by
  obtain ⟨pre, heq, hlen⟩ := hs.lead
  refine ⟨⟨pre, [], by simpa using heq, hlen⟩, fun p hp => ?_⟩
  rw [hs.attached] at hp
  cases hp

theorem Segment.Leading.feed {s : Segment} {stream : List UInt8} (hs : s.Leading stream)
    (body : List UInt8) : (s.feed body).Leading (stream ++ body) := by
  have hfeed : s.feed body = { s with lead := s.lead ++ body } := by
    simp [Segment.feed, hs.attached]
  obtain ⟨pre, heq, hlen⟩ := hs.lead
  rw [hfeed]
  exact ⟨hs.attached, hs.bytes, hs.finished, pre, by rw [heq]; simp, hlen⟩

theorem Segment.Running.feed {s : Segment} {stream : List UInt8} (hs : s.Running stream)
    (body : List UInt8) : (s.feed body).Running (stream ++ body) := by
  unfold Segment.feed
  rw [if_neg hs.attached]
  split_ifs with hfin
  · exact ⟨hs.attached, fun hx => by rw [hfin] at hx; cases hx⟩
  · obtain ⟨pre, heq, hlen⟩ := hs.bytes (by simpa using hfin)
    exact ⟨hs.attached, fun _ => ⟨pre, by rw [heq]; simp, hlen⟩⟩

/-- Feeding a running segment keeps it contiguous. -/
theorem Segment.Running.within_feed {s : Segment} {stream : List UInt8} (hr : s.Running stream)
    (hs : s.Within stream) (body : List UInt8) : (s.feed body).Within (stream ++ body) := by
  unfold Segment.feed
  rw [if_neg hr.attached]
  split_ifs with hfin
  · exact hs.append body
  · obtain ⟨pre, heq, hlen⟩ := hr.bytes (by simpa using hfin)
    refine ⟨(hs.append body).lead, fun p hp => ⟨(hs.bytes p hp).1, pre, [], ?_, hlen p hp⟩⟩
    rw [heq]
    simp

theorem foldl_quiet {fs : List Frame} (hfs : ∀ f ∈ fs, Frame.Quiet f) (ch : ℕ)
    (segs : List Segment) :
    fs.foldl (record ch) segs = segs ∨
      fs.foldl (record ch) segs = segs.modifyHead Segment.stop := by
  induction fs generalizing segs with
  | nil => exact Or.inl rfl
  | cons f fs ih =>
    have htail : ∀ f ∈ fs, Frame.Quiet f := fun x hx => hfs x (List.mem_cons_of_mem _ hx)
    rw [List.foldl_cons]
    rcases record_quiet (hfs f List.mem_cons_self) ch segs with hf | hf
    · rw [hf]
      exact ih htail segs
    · rw [hf]
      right
      rcases ih htail (segs.modifyHead Segment.stop) with ht | ht
      · exact ht
      · rw [ht]
        cases segs <;> rfl

theorem foldl_quiet_mem {fs : List Frame} (hfs : ∀ f ∈ fs, Frame.Quiet f) {ch : ℕ}
    {segs : List Segment} {s : Segment} (hs : s ∈ fs.foldl (record ch) segs) :
    ∃ s' ∈ segs, s = s' ∨ s = s'.stop := by
  rcases foldl_quiet hfs ch segs with heq | heq <;> rw [heq] at hs
  · exact ⟨s, hs, Or.inl rfl⟩
  · cases segs with
    | nil => cases hs
    | cons x segs =>
      rcases List.mem_cons.mp hs with rfl | hs
      · exact ⟨x, List.mem_cons_self, Or.inr rfl⟩
      · exact ⟨s, List.mem_cons_of_mem _ hs, Or.inl rfl⟩

theorem foldl_quiet_cons {fs : List Frame} (hfs : ∀ f ∈ fs, Frame.Quiet f) (ch : ℕ) (s : Segment)
    (segs : List Segment) :
    fs.foldl (record ch) (s :: segs) = s :: segs ∨
      fs.foldl (record ch) (s :: segs) = s.stop :: segs :=
  foldl_quiet hfs ch (s :: segs)

structure Streamed (h : Hub) : Prop where
  replay : ∀ t, (h.taps t).replay.chunks.flatten <:+ (h.taps t).stream
  past : ∀ v ch, ∀ s ∈ segments ch (h.viewers v).log,
    s.tap < h.nextTap ∧ s.Within (h.taps s.tap).stream
  leading : ∀ v t ch, (h.viewers v).closed = false → (h.viewers v).pc = .attaching t ch .ok →
    ∃ s segs, segments ch (h.viewers v).log = s :: segs ∧ s.tap = t ∧
      s.Leading (h.taps t).stream
  running : ∀ v t ch, (h.viewers v).closed = false → (ch, t) ∈ (h.viewers v).channels →
    ∃ s segs, segments ch (h.viewers v).log = s :: segs ∧ s.tap = t ∧
      s.Running (h.taps t).stream

theorem initial_streamed (key : ℕ → String) : Streamed (Hub.initial key) where
  replay t := List.nil_suffix
  past v ch s hs := by simp [Hub.initial, segments] at hs
  leading v t ch hc hpc := by simp [Hub.initial] at hpc
  running v t ch hc hch := by simp [Hub.initial] at hch

/-- From `h` to `g` no output arrives and no channel gets one. -/
structure Quietly (h g : Hub) : Prop where
  nextTap : h.nextTap ≤ g.nextTap
  stream : ∀ t < h.nextTap, (g.taps t).stream = (h.taps t).stream
  replay : ∀ t, (h.taps t).replay.chunks.flatten <:+ (h.taps t).stream →
    (g.taps t).replay.chunks.flatten <:+ (g.taps t).stream
  log : ∀ v, ∃ fs, (∀ f ∈ fs, Frame.Quiet f) ∧ (g.viewers v).log = (h.viewers v).log ++ fs
  closed : ∀ v, (g.viewers v).closed = false → (h.viewers v).closed = false
  channels : ∀ v, (g.viewers v).channels ⊆ (h.viewers v).channels
  pc : ∀ v t ch, (g.viewers v).pc = .attaching t ch .ok → (h.viewers v).pc = .attaching t ch .ok

theorem Streamed.quietly {h g : Hub} (hw : Wired h) (hst : Streamed h) (hg : Quietly h g) :
    Streamed g where
  replay t := hg.replay t (hst.replay t)
  past v ch s hs := by
    obtain ⟨fs, hfs, hlog⟩ := hg.log v
    rw [hlog, segments_append] at hs
    obtain ⟨s', hs', heq⟩ := foldl_quiet_mem hfs hs
    obtain ⟨hlt, hin⟩ := hst.past v ch s' hs'
    have hnt := hg.nextTap
    rcases heq with rfl | rfl
    · rw [hg.stream _ hlt]
      exact ⟨by omega, hin⟩
    · change s'.tap < g.nextTap ∧ s'.stop.Within (g.taps s'.tap).stream
      rw [hg.stream _ hlt]
      exact ⟨by omega, hin.stop⟩
  leading v t ch hc hpc := by
    obtain ⟨fs, hfs, hlog⟩ := hg.log v
    have hpc' := hg.pc v t ch hpc
    obtain ⟨s, segs, hseg, htap, hlead⟩ := hst.leading v t ch (hg.closed v hc) hpc'
    have ht : t < h.nextTap := hw.refs v t (List.mem_append_right _ (by simp [hpc', Pc.taps]))
    rw [hlog, segments_append, hseg, hg.stream t ht]
    rcases foldl_quiet_cons hfs ch s segs with heq | heq
    · exact ⟨s, segs, heq, htap, hlead⟩
    · exact ⟨s.stop, segs, heq, htap, hlead.stop⟩
  running v t ch hc hch := by
    obtain ⟨fs, hfs, hlog⟩ := hg.log v
    have hch' := hg.channels v hch
    obtain ⟨s, segs, hseg, htap, hrun⟩ := hst.running v t ch (hg.closed v hc) hch'
    have ht : t < h.nextTap := hw.refs v t (List.mem_append_left _ (List.mem_map_of_mem hch'))
    rw [hlog, segments_append, hseg, hg.stream t ht]
    rcases foldl_quiet_cons hfs ch s segs with heq | heq
    · exact ⟨s, segs, heq, htap, hrun⟩
    · exact ⟨s.stop, segs, heq, htap, hrun.stop⟩

theorem Quietly.trans {h g k : Hub} (hg : Quietly h g) (gk : Quietly g k) : Quietly h k where
  nextTap := hg.nextTap.trans gk.nextTap
  stream t ht := (gk.stream t (ht.trans_le hg.nextTap)).trans (hg.stream t ht)
  replay t ht := gk.replay t (hg.replay t ht)
  log v := by
    obtain ⟨fs, hfs, hlog⟩ := hg.log v
    obtain ⟨fs', hfs', hlog'⟩ := gk.log v
    refine ⟨fs ++ fs', fun f hf => ?_, by rw [hlog', hlog, List.append_assoc]⟩
    rcases List.mem_append.mp hf with hf | hf
    · exact hfs f hf
    · exact hfs' f hf
  closed v hc := hg.closed v (gk.closed v hc)
  channels v := List.Subset.trans (gk.channels v) (hg.channels v)
  pc v t ch hpc := hg.pc v t ch (gk.pc v t ch hpc)

/-- The viewers do not change, nor do the taps' streams and buffers. -/
theorem Quietly.of_taps {h g : Hub} (hv : g.viewers = h.viewers) (hnt : g.nextTap = h.nextTap)
    (hout : ∀ t, (g.taps t).stream = (h.taps t).stream ∧ (g.taps t).replay = (h.taps t).replay) :
    Quietly h g where
  nextTap := hnt.ge
  stream t _ := (hout t).1
  replay t ht := by
    rw [(hout t).1, (hout t).2]
    exact ht
  log v := ⟨[], by simp, by simp [hv]⟩
  closed v hc := by rwa [hv] at hc
  channels v := by
    rw [hv]
    exact List.Subset.refl _
  pc v t ch hpc := by rwa [hv] at hpc

theorem setViewer_quietly {h : Hub} {v : ℕ} {x : Viewer}
    (hlog : ∃ fs, (∀ f ∈ fs, Frame.Quiet f) ∧ x.log = (h.viewers v).log ++ fs)
    (hclosed : x.closed = false → (h.viewers v).closed = false)
    (hchannels : x.channels ⊆ (h.viewers v).channels)
    (hpc : ∀ t ch, x.pc = .attaching t ch .ok → (h.viewers v).pc = .attaching t ch .ok) :
    Quietly h (h.setViewer v x) := by
  have hx (w : ℕ) : (h.setViewer v x).viewers w = if w = v then x else h.viewers w := by
    simp [Hub.setViewer, Function.update_apply]
  refine ⟨le_refl _, fun _ _ => rfl, fun _ ht => ht, ?_, ?_, ?_, ?_⟩
  · intro w
    rw [hx]
    split_ifs with hw
    · rw [hw]
      exact hlog
    · exact ⟨[], by simp, by simp⟩
  · intro w hc
    rw [hx] at hc
    split_ifs at hc with hw
    · rw [hw]
      exact hclosed hc
    · exact hc
  · intro w
    rw [hx]
    split_ifs with hw
    · rw [hw]
      exact hchannels
    · exact List.Subset.refl _
  · intro w t ch hp
    rw [hx] at hp
    split_ifs at hp with hw
    · rw [hw]
      exact hpc t ch hp
    · exact hp

theorem send_log (x : Viewer) (fs : List Frame) :
    (x.send fs).log = if x.closed = true then x.log else x.log ++ fs := by
  unfold Viewer.send
  split_ifs <;> rfl

theorem send_log_quiet {fs : List Frame} (hfs : ∀ f ∈ fs, Frame.Quiet f) (x : Viewer) :
    ∃ fs', (∀ f ∈ fs', Frame.Quiet f) ∧ (x.send fs).log = x.log ++ fs' := by
  rw [send_log]
  split_ifs
  · exact ⟨[], by simp, by simp⟩
  · exact ⟨fs, hfs, rfl⟩

theorem finish_quietly {fs : List Frame} (hfs : ∀ f ∈ fs, Frame.Quiet f) (h : Hub) (v : ℕ) :
    Quietly h (h.finish v fs) := by
  apply setViewer_quietly
  · exact send_log_quiet hfs (h.viewers v)
  · simp
  · simp
  · simp

theorem setPc_quietly (h : Hub) (v : ℕ) {p : Pc} (hp : ∀ t ch, p ≠ .attaching t ch .ok) :
    Quietly h (h.setPc v p) := by
  apply setViewer_quietly
  · exact ⟨[], by simp, by simp⟩
  · exact id
  · exact List.Subset.refl _
  · intro t ch hx
    exact absurd hx (hp t ch)

theorem broadcast_quietly (h : Hub) (t : ℕ) {frame : ℕ → Frame} (hf : ∀ ch, (frame ch).Quiet) :
    Quietly h (h.broadcast t frame) where
  nextTap := le_refl _
  stream _ _ := rfl
  replay _ ht := ht
  log v := by
    apply send_log_quiet
    intro f hx
    obtain ⟨m, -, rfl⟩ := List.mem_map.mp hx
    exact hf m.2
  closed v hc := by simpa [Hub.broadcast] using hc
  channels v := by simp [Hub.broadcast]
  pc v u ch hpc := by simpa [Hub.broadcast] using hpc

theorem setTap_quietly {h : Hub} {t : ℕ} {x : Tap} (hs : x.stream = (h.taps t).stream)
    (hr : x.replay = (h.taps t).replay) : Quietly h (h.setTap t x) := by
  refine Quietly.of_taps rfl rfl fun u => ?_
  by_cases hu : u = t
  · subst hu
    simp [Hub.setTap, hs, hr]
  · simp [Hub.setTap, hu]

theorem endTap_quietly (h : Hub) (t : ℕ) (reason : EndReason) :
    Quietly h (h.endTap t reason) := by
  have hend : Quietly h (h.setTap t { h.taps t with ended := true, upstream := none }) :=
    setTap_quietly rfl rfl
  simp only [Hub.endTap]
  split_ifs
  · exact Quietly.of_taps rfl rfl fun _ => ⟨rfl, rfl⟩
  · refine (hend.trans ?_).trans (broadcast_quietly _ t fun _ => trivial)
    exact Quietly.of_taps rfl rfl fun _ => ⟨rfl, rfl⟩
  · refine (hend.trans ?_).trans (broadcast_quietly _ t fun _ => trivial)
    exact Quietly.of_taps rfl rfl fun _ => ⟨rfl, rfl⟩

theorem dropUpstream_quietly (h : Hub) (t : ℕ) : Quietly h (h.dropUpstream t) := by
  refine Quietly.of_taps (dropUpstream_viewers h t) (dropUpstream_nextTap h t) fun u => ?_
  by_cases hu : u = t
  · subst hu
    simp
  · simp [hu]

theorem leave_quietly (h : Hub) (t v : ℕ) : Quietly h (h.leave t v) := by
  refine Quietly.of_taps (leave_viewers h t v) (leave_nextTap h t v) fun u => ?_
  rw [leave_taps]
  by_cases hu : u = t
  · subst hu
    simp [Tap.withoutViewer]
  · simp [hu]

theorem foldl_quietly {α : Type} (f : Hub → α → Hub) (hf : ∀ h x, Quietly h (f h x)) (xs : List α)
    (h : Hub) : Quietly h (xs.foldl f h) := by
  induction xs generalizing h with
  | nil => exact Quietly.of_taps rfl rfl fun _ => ⟨rfl, rfl⟩
  | cons x xs ih => exact (hf h x).trans (ih _)

theorem dispose_quietly (h : Hub) (v : ℕ) : Quietly h (h.dispose v) := by
  have hset : Quietly h (h.setViewer v { h.viewers v with closed := true, channels := [] }) := by
    apply setViewer_quietly
    · exact ⟨[], by simp, by simp⟩
    · simp
    · simp
    · exact fun _ _ => id
  exact hset.trans (foldl_quietly _ (fun g p => leave_quietly g (Prod.snd p) v) _ _)

theorem shutdown_quietly (h : Hub) : Quietly h h.shutdown := by
  refine foldl_quietly _ (fun g t => ?_) _ h
  split_ifs
  · exact dropUpstream_quietly g t
  · exact Quietly.of_taps rfl rfl fun _ => ⟨rfl, rfl⟩

theorem dropChannel_quietly (h : Hub) (v ch : ℕ) : Quietly h (h.dropChannel v ch) := by
  apply setViewer_quietly
  · exact ⟨[], by simp, by simp [Viewer.withoutChannel]⟩
  · exact id
  · exact List.filter_subset_self _
  · exact fun _ _ => id

theorem joinRefused_quietly (h : Hub) (v t ch : ℕ) (error : String) :
    Quietly h (h.joinResume v t ch (.refused error)) := by
  have hpc := setPc_quietly h v (p := .attaching t ch (.refused error)) (by simp)
  refine hpc.trans (Quietly.of_taps (joinRefused_viewer h v t ch error)
    (joinRefused_conns h v t ch error).2.2 fun u => ?_)
  rw [joinRefused_taps]
  split_ifs with hu
  · rw [hu]
    exact ⟨rfl, rfl⟩
  · exact ⟨rfl, rfl⟩

theorem openNew_quietly {h : Hub} {v ch : ℕ} {s : String} (hl : h.live s = none) :
    Quietly h (((h.tap s).1.openTap h.nextTap).setPc v (.joining h.nextTap ch h.nextConn)) := by
  have hpc := setPc_quietly h v (p := .joining h.nextTap ch h.nextConn) (by simp)
  refine ⟨?_, ?_, ?_, ?_, ?_, ?_, ?_⟩
  · rw [openNew_nextTap hl]
    omega
  · intro t ht
    rw [openNew_taps hl, if_neg (by omega)]
  · intro t ht
    rw [openNew_taps hl]
    split_ifs
    · exact List.nil_suffix
    · exact ht
  · rw [openNew_viewers hl]
    exact hpc.log
  · rw [openNew_viewers hl]
    exact hpc.closed
  · rw [openNew_viewers hl]
    exact hpc.channels
  · rw [openNew_viewers hl]
    exact hpc.pc

section Deliver

variable {h : Hub} {t : ℕ} {body : List UInt8} {frame : ℕ → Frame}

theorem filter_key {l : List (ℕ × ℕ)} (hl : (l.map Prod.fst).Nodup) {w k : ℕ} (hk : (w, k) ∈ l) :
    (l.filter fun m => m.1 = w) = [(w, k)] := by
  induction l with
  | nil => cases hk
  | cons m l ih =>
    rw [List.map_cons, List.nodup_cons] at hl
    by_cases hm : m.1 = w
    · have hrest : (l.filter fun m => m.1 = w) = [] := by
        rw [List.filter_eq_nil_iff]
        intro x hx hxw
        refine hl.1 (List.mem_map.mpr ⟨x, hx, ?_⟩)
        rw [hm]
        simpa using hxw
      have hmk : m = (w, k) := by
        rcases List.mem_cons.mp hk with hk | hk
        · exact hk.symm
        · exact absurd (List.mem_map.mpr ⟨_, hk, hm.symm⟩) hl.1
      rw [List.filter_cons_of_pos (by simpa using hm), hrest, hmk]
    · have hkl : (w, k) ∈ l := by
        rcases List.mem_cons.mp hk with rfl | hk
        · exact absurd rfl hm
        · exact hk
      rw [List.filter_cons_of_neg (by simpa using hm)]
      exact ih hl.2 hkl

theorem fanOut_stream (h : Hub) (t : ℕ) (body : List UInt8) (frame : ℕ → Frame) (u : ℕ) :
    ((h.fanOut t body frame).taps u).stream =
      if u = t then (h.taps t).stream ++ body else (h.taps u).stream := by
  by_cases hu : u = t <;> simp [Hub.fanOut, Hub.broadcast, Hub.setTap, hu]

theorem fanOut_viewer (h : Hub) (t : ℕ) (body : List UInt8) (frame : ℕ → Frame) (w : ℕ) :
    (h.fanOut t body frame).viewers w = (h.viewers w).send
      (((h.taps t).viewers.filter fun m => m.1 = w).map fun m => frame m.2) := by
  simp [Hub.fanOut, Hub.broadcast, Hub.setTap]

theorem record_deliver
    (hf : frame = (fun ch => Frame.history ch body) ∨ frame = fun ch => Frame.output ch body)
    (ch k : ℕ) (segs : List Segment) :
    record ch segs (frame k) = if k = ch then segs.modifyHead (·.feed body) else segs := by
  rcases hf with rfl | rfl <;> rfl

/-- A body from the tap goes to the newest segment of the channels that read it. -/
theorem fanOut_segments (hm : Members h)
    (hf : frame = (fun ch => Frame.history ch body) ∨ frame = fun ch => Frame.output ch body)
    (w ch : ℕ) :
    segments ch ((h.fanOut t body frame).viewers w).log =
      if (h.viewers w).closed = false ∧ (ch, t) ∈ (h.viewers w).claims then
        (segments ch (h.viewers w).log).modifyHead (·.feed body)
      else segments ch (h.viewers w).log := by
  rw [fanOut_viewer, send_log]
  by_cases hc : (h.viewers w).closed = true
  · simp [hc]
  · rw [if_neg hc, segments_append]
    have hopen : (h.viewers w).closed = false := by simpa using hc
    by_cases hin : ∃ k, (w, k) ∈ (h.taps t).viewers
    · obtain ⟨k, hk⟩ := hin
      rw [filter_key (hm.keys t) hk]
      simp only [List.map_cons, List.map_nil, List.foldl_cons, List.foldl_nil, record_deliver hf]
      by_cases hkc : k = ch
      · subst hkc
        rw [if_pos rfl, if_pos ⟨hopen, (hm.mem t w k).mp hk⟩]
      · rw [if_neg hkc, if_neg]
        rintro ⟨-, hcl⟩
        have := hm.session_unique (v := w) (p := (k, t)) (q := (ch, t))
          (Viewer.claims_subset_reserved _ ((hm.mem t w k).mp hk))
          (Viewer.claims_subset_reserved _ hcl) rfl
        exact hkc (congrArg Prod.fst this)
    · have hnil : ((h.taps t).viewers.filter fun m => m.1 = w) = [] := by
        rw [List.filter_eq_nil_iff]
        rintro ⟨x, k⟩ hx hxw
        simp only [decide_eq_true_eq] at hxw
        exact hin ⟨k, hxw ▸ hx⟩
      rw [hnil, if_neg]
      · rfl
      · rintro ⟨-, hcl⟩
        exact hin ⟨ch, (hm.mem t w ch).mpr hcl⟩

theorem Viewer.mem_claims {x : Viewer} {ch t : ℕ} :
    (ch, t) ∈ x.claims ↔ (ch, t) ∈ x.channels ∨ x.pc = .attaching t ch .ok := by
  unfold Viewer.claims
  rw [List.mem_append]
  split
  · next u k hpc =>
    simp only [List.mem_singleton, Prod.mk.injEq, hpc, Pc.attaching.injEq, and_true]
    tauto
  · next hpc =>
    simp only [List.not_mem_nil, or_false, iff_self_or]
    exact fun hx => absurd hx (hpc t ch)

/-- A claimed channel is fed exactly by the tap it reads. -/
theorem fanOut_claimed (hm : Members h)
    (hf : frame = (fun ch => Frame.history ch body) ∨ frame = fun ch => Frame.output ch body)
    {w u ch : ℕ} (hc : (h.viewers w).closed = false) (hcl : (ch, u) ∈ (h.viewers w).claims) :
    segments ch ((h.fanOut t body frame).viewers w).log =
      if u = t then (segments ch (h.viewers w).log).modifyHead (·.feed body)
      else segments ch (h.viewers w).log := by
  rw [fanOut_segments hm hf]
  by_cases hu : u = t
  · rw [if_pos hu, if_pos ⟨hc, hu ▸ hcl⟩]
  · rw [if_neg hu, if_neg]
    rintro ⟨-, hcl'⟩
    have := hm.channel_unique (Viewer.claims_subset_reserved _ hcl)
      (Viewer.claims_subset_reserved _ hcl') rfl
    exact hu (congrArg Prod.snd this)

theorem Segment.Within.deliver {s : Segment} (hs : s.Within (h.taps s.tap).stream) :
    s.Within ((h.fanOut t body frame).taps s.tap).stream := by
  rw [fanOut_stream]
  split_ifs with hst
  · rw [hst] at hs
    exact hs.append body
  · exact hs

theorem Streamed.deliver (hm : Members h) (hst : Streamed h)
    (hf : frame = (fun ch => Frame.history ch body) ∨ frame = fun ch => Frame.output ch body) :
    Streamed (h.fanOut t body frame) where
  replay u := by
    rw [fanOut_stream]
    by_cases hu : u = t
    · subst hu
      simp only [if_true, Hub.fanOut, Hub.broadcast, Hub.setTap, Function.update_self]
      refine (append_suffix _ _ _).trans ?_
      obtain ⟨pre, hpre⟩ := hst.replay u
      exact ⟨pre, by rw [← hpre, List.append_assoc]⟩
    · simp only [hu, if_false, Hub.fanOut, Hub.broadcast, Hub.setTap, Function.update_of_ne hu]
      exact hst.replay u
  past w ch s hs := by
    rw [fanOut_segments hm hf] at hs
    split_ifs at hs with hcl
    · cases hseg : segments ch (h.viewers w).log with
      | nil =>
        rw [hseg] at hs
        cases hs
      | cons x segs =>
        rw [hseg, List.modifyHead_cons] at hs
        rcases List.mem_cons.mp hs with rfl | hs
        · obtain ⟨hlt, hwithin⟩ := hst.past w ch x (by rw [hseg]; exact List.mem_cons_self)
          rw [Segment.feed_tap]
          refine ⟨hlt, ?_⟩
          rcases Viewer.mem_claims.mp hcl.2 with hch | hpc
          · obtain ⟨y, ys, hy, hyt, hrun⟩ := hst.running w t ch hcl.1 hch
            obtain ⟨rfl, rfl⟩ := List.cons.inj (hseg.symm.trans hy)
            rw [fanOut_stream, if_pos hyt]
            rw [hyt] at hwithin
            exact hrun.within_feed hwithin body
          · obtain ⟨y, ys, hy, hyt, hlead⟩ := hst.leading w t ch hcl.1 hpc
            obtain ⟨rfl, rfl⟩ := List.cons.inj (hseg.symm.trans hy)
            rw [fanOut_stream, if_pos hyt]
            exact (hlead.feed body).within
        · obtain ⟨hlt, hwithin⟩ := hst.past w ch s (by rw [hseg]; exact List.mem_cons_of_mem _ hs)
          exact ⟨hlt, hwithin.deliver⟩
    · obtain ⟨hlt, hwithin⟩ := hst.past w ch s hs
      exact ⟨hlt, hwithin.deliver⟩
  leading w u ch hc hpc := by
    rw [fanOut_viewer, Viewer.send_closed] at hc
    rw [fanOut_viewer, Viewer.send_pc] at hpc
    obtain ⟨s, segs, hseg, htap, hlead⟩ := hst.leading w u ch hc hpc
    rw [fanOut_claimed hm hf hc (Viewer.mem_claims.mpr (Or.inr hpc)), fanOut_stream, hseg]
    split_ifs with hu
    · rw [hu] at hlead
      exact ⟨s.feed body, segs, rfl, by rwa [Segment.feed_tap], hlead.feed body⟩
    · exact ⟨s, segs, rfl, htap, hlead⟩
  running w u ch hc hch := by
    rw [fanOut_viewer, Viewer.send_closed] at hc
    rw [fanOut_viewer, Viewer.send_channels] at hch
    obtain ⟨s, segs, hseg, htap, hrun⟩ := hst.running w u ch hc hch
    rw [fanOut_claimed hm hf hc (Viewer.mem_claims.mpr (Or.inl hch)), fanOut_stream, hseg]
    split_ifs with hu
    · rw [hu] at hrun
      exact ⟨s.feed body, segs, rfl, by rwa [Segment.feed_tap], hrun.feed body⟩
    · exact ⟨s, segs, rfl, htap, hrun⟩

end Deliver

theorem register_stream (h : Hub) (v t ch u : ℕ) :
    ((h.register v t ch).taps u).stream = (h.taps u).stream ∧
      ((h.register v t ch).taps u).replay = (h.taps u).replay := by
  rw [register_taps]
  split_ifs with hu
  · rw [hu]
    unfold Tap.withViewer
    split_ifs <;> exact ⟨rfl, rfl⟩
  · exact ⟨rfl, rfl⟩

theorem register_log (h : Hub) (v t ch : ℕ) {w : ℕ} (k : ℕ) (hwk : w ≠ v ∨ k ≠ ch) :
    segments k ((h.register v t ch).viewers w).log = segments k (h.viewers w).log := by
  by_cases hw : w = v
  · subst hw
    have hk : ch ≠ k := fun hx => hwk.elim (fun hne => hne rfl) fun hne => hne hx.symm
    simp only [Hub.register, Hub.setViewer, Function.update_self, send_log]
    split_ifs
    · rfl
    · simp [segments_append, record, hk]
  · simp [Hub.register, Hub.setViewer, Hub.setTap, hw]

theorem register_self (h : Hub) {v : ℕ} (hc : (h.viewers v).closed = false) (t ch : ℕ) :
    segments ch ((h.register v t ch).viewers v).log =
      { tap := t, joined := (h.taps t).stream.length } :: segments ch (h.viewers v).log := by
  simp [Hub.register, Hub.setViewer, send_log, hc, segments_append, record]

theorem Segment.leading_new (t : ℕ) (stream : List UInt8) :
    ({ tap := t, joined := stream.length } : Segment).Leading stream :=
  ⟨rfl, rfl, rfl, stream, by simp, rfl⟩

theorem Streamed.register {h : Hub} (hst : Streamed h) {v t ch : ℕ} (ht : t < h.nextTap)
    (hnew : ∀ u, (ch, u) ∉ (h.viewers v).channels) : Streamed (h.register v t ch) where
  replay u := by
    rw [(register_stream h v t ch u).1, (register_stream h v t ch u).2]
    exact hst.replay u
  past w k s hs := by
    rw [(register_stream h v t ch s.tap).1]
    by_cases hself : w = v ∧ k = ch ∧ (h.viewers v).closed = false
    · obtain ⟨rfl, rfl, hc⟩ := hself
      rw [register_self h hc] at hs
      rcases List.mem_cons.mp hs with rfl | hs
      · exact ⟨ht, (Segment.leading_new t _).within⟩
      · exact hst.past w k s hs
    · have hsame : segments k ((h.register v t ch).viewers w).log =
          segments k (h.viewers w).log := by
        by_cases hwk : w = v ∧ k = ch
        · obtain ⟨rfl, rfl⟩ := hwk
          have hc : (h.viewers w).closed = true := by
            by_contra hc
            exact hself ⟨rfl, rfl, by simpa using hc⟩
          simp [Hub.register, Hub.setViewer, send_log, hc]
        · exact register_log h v t ch k (by tauto)
      rw [hsame] at hs
      exact hst.past w k s hs
  leading w u k hc hpc := by
    rw [(register_stream h v t ch u).1]
    rw [register_pc] at hpc
    by_cases hw : w = v
    · subst hw
      rw [if_pos rfl] at hpc
      cases hpc
      have hc' : (h.viewers w).closed = false := by
        simpa [Hub.register, Hub.setViewer] using hc
      exact ⟨_, _, register_self h hc' t ch, rfl, Segment.leading_new t _⟩
    · rw [if_neg hw] at hpc
      rw [register_log h v t ch k (Or.inl hw)]
      exact hst.leading w u k (by simpa [Hub.register, Hub.setViewer, Hub.setTap, hw] using hc) hpc
  running w u k hc hk := by
    rw [(register_stream h v t ch u).1]
    by_cases hw : w = v
    · subst hw
      have hk' : (k, u) ∈ (h.viewers w).channels := by
        simpa [Hub.register, Hub.setViewer] using hk
      have hkc : k ≠ ch := by
        rintro rfl
        exact hnew u hk'
      rw [register_log h w t ch k (Or.inr hkc)]
      exact hst.running w u k (by simpa [Hub.register, Hub.setViewer] using hc) hk'
    · rw [register_log h v t ch k (Or.inl hw)]
      simp only [Hub.register, Hub.setViewer, Hub.setTap, Function.update_of_ne hw] at hc hk
      exact hst.running w u k hc hk

/-- The segment that ATTACHED starts: first the replayed output. -/
def Segment.welcomed (s : Segment) (x : Tap) : Segment :=
  { s with attached := some x.stream.length, bytes := snapshot x.replay, finished := x.ended }

theorem foldl_welcome {s : Segment} {x : Tap} (hs : s.Leading x.stream) (ch : ℕ)
    (segs : List Segment) :
    (welcome x s.tap ch).foldl (record ch) (s :: segs) = s.welcomed x :: segs := by
  have hmark : record ch (s :: segs) (.attached ch s.tap x.stream.length) =
      { s with attached := some x.stream.length } :: segs := by
    simp [record, markAttached, hs.attached]
  have hfeed : (if snapshot x.replay = [] then [] else [Frame.history ch (snapshot x.replay)]).foldl
      (record ch) ({ s with attached := some x.stream.length } :: segs) =
      { s with attached := some x.stream.length, bytes := snapshot x.replay } :: segs := by
    split_ifs with hnil
    · rw [hnil, ← hs.bytes]
      rfl
    · simp [record, Segment.feed, hs.finished, hs.bytes]
  unfold welcome
  rw [List.foldl_cons, hmark, List.foldl_append, hfeed]
  unfold Segment.welcomed
  split_ifs with hend
  · simp [record, Segment.stop, hend]
  · simp [hend, hs.finished]

theorem foldl_welcome_other (x : Tap) (t : ℕ) {ch k : ℕ} (hk : ch ≠ k) (segs : List Segment) :
    (welcome x t ch).foldl (record k) segs = segs := by
  unfold welcome
  split_ifs <;> simp [record, hk]

theorem Segment.Leading.welcomed {s : Segment} {x : Tap} (hs : s.Leading x.stream)
    (hx : x.replay.chunks.flatten <:+ x.stream) :
    (s.welcomed x).Within x.stream ∧ (s.welcomed x).Running x.stream := by
  obtain ⟨pre, heq, hlen⟩ := hs.lead
  obtain ⟨old, hold⟩ := (snapshot_suffix x.replay).trans hx
  have hle : old.length ≤ x.stream.length := by
    rw [← hold, List.length_append]
    omega
  refine ⟨⟨⟨pre, [], by simpa [Segment.welcomed] using heq, hlen⟩, ?_⟩, ?_, ?_⟩
  · intro p hp
    obtain rfl : x.stream.length = p := by simpa [Segment.welcomed] using hp
    refine ⟨?_, old, [], by simpa [Segment.welcomed] using hold.symm, hle⟩
    have := congrArg List.length heq
    simp only [List.length_append] at this
    simp only [Segment.welcomed]
    omega
  · simp [Segment.welcomed]
  · intro _
    refine ⟨old, hold.symm, fun p hp => ?_⟩
    obtain rfl : x.stream.length = p := by simpa [Segment.welcomed] using hp
    exact hle

theorem Streamed.attached {h : Hub} (hm : Members h) (hst : Streamed h)
    {v t ch : ℕ} (hpc : (h.viewers v).pc = .attaching t ch .ok)
    (hc : (h.viewers v).closed = false) : Streamed (h.attachResume v t ch .ok) := by
  obtain ⟨s, segs, hseg, rfl, hlead⟩ := hst.leading v t ch hc hpc
  obtain ⟨hin, hrun⟩ := hlead.welcomed (hst.replay s.tap)
  have hlt : s.tap < h.nextTap :=
    (hst.past v ch s (by rw [hseg]; exact List.mem_cons_self)).1
  rw [attached_viewer hc]
  have hself : segments ch ((h.viewers v).log ++ welcome (h.taps s.tap) s.tap ch) =
      s.welcomed (h.taps s.tap) :: segs := by
    rw [segments_append, hseg, foldl_welcome hlead]
  have hother (k : ℕ) (hk : ch ≠ k) :
      segments k ((h.viewers v).log ++ welcome (h.taps s.tap) s.tap ch) =
        segments k (h.viewers v).log := by
    rw [segments_append, foldl_welcome_other _ _ hk]
  refine ⟨hst.replay, ?_, ?_, ?_⟩
  · intro w k x hx
    by_cases hwv : w = v
    · subst hwv
      simp only [Hub.setViewer, Function.update_self] at hx
      by_cases hk : ch = k
      · subst hk
        rw [hself] at hx
        rcases List.mem_cons.mp hx with rfl | hx
        · exact ⟨hlt, hin⟩
        · exact hst.past w ch x (by rw [hseg]; exact List.mem_cons_of_mem _ hx)
      · rw [hother k hk] at hx
        exact hst.past w k x hx
    · simp only [Hub.setViewer, Function.update_of_ne hwv] at hx
      exact hst.past w k x hx
  · intro w u k hcw hpw
    by_cases hwv : w = v
    · subst hwv
      simp [Hub.setViewer] at hpw
    · simp only [Hub.setViewer, Function.update_of_ne hwv] at hcw hpw ⊢
      exact hst.leading w u k hcw hpw
  · intro w u k hcw hk
    by_cases hwv : w = v
    · subst hwv
      simp only [Hub.setViewer, Function.update_self] at hcw hk ⊢
      rcases List.mem_append.mp hk with hk | hk
      · have hres := hm.channels w
        have hkc : ch ≠ k := by
          rintro rfl
          simp only [Viewer.reserved, hpc, List.map_append, List.map_cons, List.map_nil] at hres
          exact List.disjoint_of_nodup_append hres (List.mem_map_of_mem hk) (by simp)
        rw [hother k hkc]
        exact hst.running w u k hcw hk
      · simp only [List.mem_singleton, Prod.mk.injEq] at hk
        obtain ⟨rfl, rfl⟩ := hk
        exact ⟨_, _, hself, rfl, hrun⟩
    · simp only [Hub.setViewer, Function.update_of_ne hwv] at hcw hk ⊢
      exact hst.running w u k hcw hk

theorem step_streamed {h g : Hub} {a : Action} (hw : Wired h) (hm : Members h) (hst : Streamed h)
    (hok : NoOwnedClose h a) (hs : step h a = some g) : Streamed g := by
  have inert {b : Hub} (hv : b.viewers = h.viewers) (hnt : b.nextTap = h.nextTap)
      (htaps : b.taps = h.taps) : Quietly h b :=
    Quietly.of_taps hv hnt fun t => by rw [htaps]; exact ⟨rfl, rfl⟩
  cases step_sound hs with
  | reply _ hq => exact hst.quietly hw (finish_quietly hq h _)
  | wait => exact hst.quietly hw (setPc_quietly h _ (by simp))
  | reopen _ hl ho => exact absurd ho (hw.live _ _ hl).2.2.2
  | openNew _ _ _ _ hl => exact hst.quietly hw (openNew_quietly hl)
  | registerNow _ hch _ hl =>
    exact hst.register (hw.live _ _ hl).1 fun u hu => hasChannel_eq_false hch hu rfl
  | @joinOk v t ch c hpc =>
    obtain ⟨hc, htap⟩ := hw.joining _ _ _ _ hpc
    refine hst.register (htap ▸ (hw.conn _ hc).1) fun u hu => ?_
    have hres := hm.channels v
    simp only [Viewer.reserved, hpc, List.map_append, List.map_cons, List.map_nil] at hres
    exact List.disjoint_of_nodup_append hres (List.mem_map_of_mem hu) (by simp)
  | joinRefused => exact hst.quietly hw (joinRefused_quietly h _ _ _ _)
  | attachedClosed =>
    exact hst.quietly hw ((leave_quietly h _ _).trans (setPc_quietly _ _ (by simp)))
  | attached hpc hc => exact hst.attached hm hpc hc
  | detach =>
    exact hst.quietly hw (((dropChannel_quietly h _ _).trans (leave_quietly _ _ _)).trans
      (setPc_quietly _ _ (by simp)))
  | closeAsk _ hl => exact absurd hok (by simp [NoOwnedClose, hl])
  | closeEnd _ hl => exact absurd hok (by simp [NoOwnedClose, hl])
  | @closeReply v _ _ _ hpc => exact absurd (by rw [hpc]; trivial) (hm.noClosing v)
  | @closeResume v _ _ hpc => exact absurd (by rw [hpc]; trivial) (hm.noClosing v)
  | create => exact hst.quietly hw (setPc_quietly h _ (by simp))
  | @created v id n =>
    have hset : Quietly h { h.setOwner id (h.viewers v).key with
        broker := { h.broker with acked := Function.update h.broker.acked n true } } :=
      inert rfl rfl rfl
    exact hst.quietly hw (hset.trans (finish_quietly (by simp [Frame.Quiet]) _ v))
  | createFail => exact hst.quietly hw (finish_quietly (by simp [Frame.Quiet]) h _)
  | dispose => exact hst.quietly hw (dispose_quietly h _)
  | accept => exact hst.quietly hw (inert rfl rfl rfl)
  | @openOk c =>
    have hset : Quietly h (h.setConn c { h.conns c with result := some .ok }) := inert rfl rfl rfl
    exact hst.quietly hw (hset.trans (setTap_quietly rfl rfl))
  | openFail => exact hst.quietly hw (inert rfl rfl rfl)
  | deliver _ _ hf => exact hst.deliver hm hf
  | ended => exact hst.quietly hw (endTap_quietly h _ _)
  | @gone c =>
    have hset : Quietly h (h.setConn c { h.conns c with status := .closed }) := inert rfl rfl rfl
    exact hst.quietly hw (hset.trans (endTap_quietly _ _ _))
  | detached => exact hst.quietly hw (inert rfl rfl rfl)
  | shutdown => exact hst.quietly hw (shutdown_quietly h)
  | @brokerCreate v id =>
    have hset : Quietly h { h with broker := (h.broker.create id (some (h.viewers v).key)).1 } :=
      inert rfl rfl rfl
    exact hst.quietly hw (hset.trans (setPc_quietly _ v (by simp)))
  | brokerSpawn => exact hst.quietly hw (inert rfl rfl rfl)
  | brokerExit => exact hst.quietly hw (inert rfl rfl rfl)
  | brokerClose => exact hst.quietly hw (inert rfl rfl rfl)
  | pruneMark => exact hst.quietly hw (inert rfl rfl rfl)
  | pruneList => exact hst.quietly hw (inert rfl rfl rfl)
  | pruneApply => exact hst.quietly hw (inert rfl rfl rfl)

/-- Viewer stream contiguity: in every run of joins, leaves and upstream callbacks (no CLOSE of
the owner), what a viewer is sent on a channel from an ATTACHED to the ENDED or DETACH after it
is one contiguous piece of the tap's stream that starts no later than the ATTACHED. What arrives
between joining the tap and the ATTACHED is sent on the channel too, without a gap. -/
theorem stream_contiguous (key : ℕ → String) (as : List Action) (h : Hub)
    (hrun : run step (Hub.initial key) as = some h)
    (hok : Along step NoOwnedClose (Hub.initial key) as) (v ch : ℕ) (s : Segment)
    (hs : s ∈ segments ch (h.viewers v).log) :
    (∃ pre post, (h.taps s.tap).stream = pre ++ s.lead ++ post ∧ pre.length = s.joined) ∧
      ∀ p, s.attached = some p → p = s.joined + s.lead.length ∧
        ∃ pre post, (h.taps s.tap).stream = pre ++ s.bytes ++ post ∧ pre.length ≤ p := by
  obtain ⟨-, -, hst⟩ : Wired h ∧ Members h ∧ Streamed h := by
    refine run_invariant_along (I := fun h => Wired h ∧ Members h ∧ Streamed h) ?_
      ⟨initial_wired key, initial_members key, initial_streamed key⟩ hrun hok
    intro h a g hI hclose hs
    exact ⟨step_wired hI.1 hs, step_members hI.1 hI.2.1 hclose hs,
      step_streamed hI.1 hI.2.1 hI.2.2 hclose hs⟩
  obtain ⟨hlead, hbytes⟩ := (hst.past v ch s hs).2
  exact ⟨hlead, hbytes⟩

/-- A second viewer joins while output arrives; a body comes before its ATTACHED. -/
def lateJoiner : List Action :=
  [.attach 0 "s" 1, .accept 0, .history 0 [104], .openOk 0, .joinResume 0, .attachResume 0,
    .output 0 [105], .attach 1 "s" 7, .output 0 [106], .attachResume 1, .output 0 [107],
    .detach 1 7, .output 0 [108], .detachResume 1]

theorem stream_contiguous_late_joiner :
    (run step (Hub.initial fun _ => "a") lateJoiner).map
        (fun h => segments 7 (h.viewers 1).log) =
      some [⟨0, 2, [106], some 3, [104, 105, 106, 107], true⟩] ∧
    ∀ h, run step (Hub.initial fun _ => "a") lateJoiner = some h →
      ∀ s ∈ segments 7 (h.viewers 1).log,
        (∃ pre post, (h.taps s.tap).stream = pre ++ s.lead ++ post ∧ pre.length = s.joined) ∧
          ∀ p, s.attached = some p → p = s.joined + s.lead.length ∧
            ∃ pre post, (h.taps s.tap).stream = pre ++ s.bytes ++ post ∧ pre.length ≤ p :=
  ⟨by decide +kernel, fun h hrun s hs =>
    stream_contiguous _ _ h hrun (by decide +kernel) 1 7 s hs⟩

end ClaudeFleet.AttachHub
