import ClaudeFleet.HubUpstreams

/-! A viewer is in a tap's map exactly when the tap is in the viewer's, as long as no session
is closed through the hub: CLOSE drops the channel but leaves the viewer in the tap. -/
namespace ClaudeFleet.AttachHub

open Transition

/-- The channels a viewer has, and the one its ATTACH handler is about to add. -/
def Viewer.claims (x : Viewer) : List (ℕ × ℕ) :=
  x.channels ++
    match x.pc with
    | .attaching t ch .ok => [(ch, t)]
    | _ => []

/-- The channels a viewer has or may get. -/
def Viewer.reserved (x : Viewer) : List (ℕ × ℕ) :=
  x.channels ++
    match x.pc with
    | .joining t ch _ | .attaching t ch _ => [(ch, t)]
    | _ => []

def Pc.Closing : Pc → Prop
  | .closing _ _ _ | .closed _ _ => True
  | _ => False

structure Members (h : Hub) : Prop where
  mem : ∀ t v ch, (v, ch) ∈ (h.taps t).viewers ↔ (ch, t) ∈ (h.viewers v).claims
  keys : ∀ t, ((h.taps t).viewers.map Prod.fst).Nodup
  channels : ∀ v, ((h.viewers v).reserved.map Prod.fst).Nodup
  sessions : ∀ v, ((h.viewers v).reserved.map fun p => (h.taps p.2).id).Nodup
  closed : ∀ v, (h.viewers v).closed = true → (h.viewers v).channels = []
  noClosing : ∀ v, ¬(h.viewers v).pc.Closing

/-- From `h` to `g` no viewer enters or leaves a tap. -/
structure SameMembers (h g : Hub) : Prop where
  viewers : ∀ t, (g.taps t).viewers = (h.taps t).viewers
  id : ∀ t, (g.taps t).id = (h.taps t).id
  claims : ∀ v, (g.viewers v).claims = (h.viewers v).claims
  reserved : ∀ v, (g.viewers v).reserved.Sublist (h.viewers v).reserved
  closed : ∀ v, (g.viewers v).closed = true →
    (h.viewers v).closed = true ∧ (g.viewers v).channels = (h.viewers v).channels
  closing : ∀ v, (g.viewers v).pc.Closing → (h.viewers v).pc.Closing

theorem Members.same {h g : Hub} (hm : Members h) (hg : SameMembers h g) : Members g where
  mem t v ch := by
    rw [hg.viewers, hg.claims]
    exact hm.mem t v ch
  keys t := by
    rw [hg.viewers]
    exact hm.keys t
  channels v := (hm.channels v).sublist ((hg.reserved v).map _)
  sessions v := by
    simp only [hg.id]
    exact (hm.sessions v).sublist ((hg.reserved v).map _)
  closed v hc := by
    obtain ⟨hc', hch⟩ := hg.closed v hc
    exact hch.trans (hm.closed v hc')
  noClosing v hcl := hm.noClosing v (hg.closing v hcl)

theorem SameMembers.trans {h g k : Hub} (hg : SameMembers h g) (gk : SameMembers g k) :
    SameMembers h k where
  viewers t := (gk.viewers t).trans (hg.viewers t)
  id t := (gk.id t).trans (hg.id t)
  claims v := (gk.claims v).trans (hg.claims v)
  reserved v := (gk.reserved v).trans (hg.reserved v)
  closed v hc := by
    obtain ⟨hc', hch⟩ := gk.closed v hc
    obtain ⟨hc'', hch'⟩ := hg.closed v hc'
    exact ⟨hc'', hch.trans hch'⟩
  closing v hcl := hg.closing v (gk.closing v hcl)

/-- Only tap fields other than the viewers and the session id change. -/
theorem SameMembers.of_taps {h g : Hub} (hv : g.viewers = h.viewers)
    (htaps : ∀ t, (g.taps t).viewers = (h.taps t).viewers ∧ (g.taps t).id = (h.taps t).id) :
    SameMembers h g where
  viewers t := (htaps t).1
  id t := (htaps t).2
  claims v := by rw [hv]
  reserved v := by rw [hv]
  closed v hc := by
    rw [hv] at hc
    exact ⟨hc, by rw [hv]⟩
  closing v hcl := by rwa [hv] at hcl

/-- Only one viewer changes, and keeps its place in the taps. -/
theorem setViewer_same {h : Hub} {v : ℕ} {x : Viewer} (hclaims : x.claims = (h.viewers v).claims)
    (hres : x.reserved.Sublist (h.viewers v).reserved)
    (hclosed : x.closed = true →
      (h.viewers v).closed = true ∧ x.channels = (h.viewers v).channels)
    (hclosing : x.pc.Closing → (h.viewers v).pc.Closing) : SameMembers h (h.setViewer v x) := by
  have hx (w : ℕ) : (h.setViewer v x).viewers w = if w = v then x else h.viewers w := by
    simp [Hub.setViewer, Function.update_apply]
  refine ⟨fun _ => rfl, fun _ => rfl, ?_, ?_, ?_, ?_⟩
  · intro w
    rw [hx]
    split_ifs with hw
    · rw [hw]
      exact hclaims
    · rfl
  · intro w
    rw [hx]
    split_ifs with hw
    · rw [hw]
      exact hres
    · exact List.Sublist.refl _
  · intro w hc
    rw [hx] at hc ⊢
    split_ifs at hc ⊢ with hw
    · rw [hw]
      exact hclosed hc
    · exact ⟨hc, rfl⟩
  · intro w hc
    rw [hx] at hc
    split_ifs at hc with hw
    · rw [hw]
      exact hclosing hc
    · exact hc

theorem Pc.Quiet.claims {x : Viewer} (hx : x.pc.Quiet) : x.claims = x.channels := by
  unfold Viewer.claims
  split
  · next t ch hpc =>
    rw [hpc] at hx
    exact hx.elim
  · exact List.append_nil _

/-- A handler that holds no place in a tap goes on or answers. -/
theorem quiet_same {h : Hub} {v : ℕ} {x : Viewer} (hold : (h.viewers v).pc.Quiet)
    (hch : x.channels = (h.viewers v).channels) (hcl : x.closed = (h.viewers v).closed)
    (hp : x.pc = .idle ∨ ∃ id answer, x.pc = .creating id answer) :
    SameMembers h (h.setViewer v x) := by
  have hres : x.reserved = x.channels := by
    rcases hp with hp | ⟨id, answer, hp⟩ <;> simp [Viewer.reserved, hp]
  have hclaims : x.claims = x.channels := by
    rcases hp with hp | ⟨id, answer, hp⟩ <;> simp [Viewer.claims, hp]
  apply setViewer_same
  · rw [hclaims, hold.claims, hch]
  · rw [hres, hch]
    exact List.sublist_append_left _ _
  · intro hc
    exact ⟨hcl ▸ hc, hch⟩
  · rcases hp with hp | ⟨id, answer, hp⟩ <;> rw [hp] <;> exact False.elim

theorem finish_same {h : Hub} {v : ℕ} (hold : (h.viewers v).pc.Quiet) (frames : List Frame) :
    SameMembers h (h.finish v frames) :=
  quiet_same hold (by simp) (by simp) (Or.inl rfl)

theorem broadcast_same (h : Hub) (t : ℕ) (frame : ℕ → Frame) :
    SameMembers h (h.broadcast t frame) where
  viewers _ := rfl
  id _ := rfl
  claims v := by simp [Hub.broadcast, Viewer.claims]
  reserved v := by simp [Hub.broadcast, Viewer.reserved]
  closed v hc := ⟨by simpa [Hub.broadcast] using hc, by simp [Hub.broadcast]⟩
  closing v hcl := by simpa [Hub.broadcast] using hcl

theorem setTap_same {h : Hub} {t : ℕ} {x : Tap} (hv : x.viewers = (h.taps t).viewers)
    (hid : x.id = (h.taps t).id) : SameMembers h (h.setTap t x) := by
  refine SameMembers.of_taps rfl ?_
  intro u
  by_cases hu : u = t
  · subst hu
    simp [Hub.setTap, hv, hid]
  · simp [Hub.setTap, hu]

theorem endTap_same (h : Hub) (t : ℕ) (reason : EndReason) :
    SameMembers h (h.endTap t reason) := by
  have hend : SameMembers h (h.setTap t { h.taps t with ended := true, upstream := none }) :=
    setTap_same rfl rfl
  simp only [Hub.endTap]
  split_ifs
  · exact SameMembers.of_taps rfl fun _ => ⟨rfl, rfl⟩
  · refine (hend.trans ?_).trans (broadcast_same _ t _)
    exact SameMembers.of_taps rfl fun _ => ⟨rfl, rfl⟩
  · refine (hend.trans ?_).trans (broadcast_same _ t _)
    exact SameMembers.of_taps rfl fun _ => ⟨rfl, rfl⟩

theorem dropUpstream_same (h : Hub) (t : ℕ) : SameMembers h (h.dropUpstream t) := by
  apply SameMembers.of_taps (dropUpstream_viewers h t)
  intro u
  by_cases hu : u = t
  · subst hu
    simp
  · simp [hu]

theorem shutdown_same (h : Hub) : SameMembers h h.shutdown := by
  unfold Hub.shutdown
  generalize List.range h.nextTap = ts
  induction ts generalizing h with
  | nil => exact SameMembers.of_taps rfl fun _ => ⟨rfl, rfl⟩
  | cons t ts ih =>
    rw [List.foldl_cons]
    split_ifs
    · exact (dropUpstream_same h t).trans (ih _)
    · exact ih h

theorem initial_members (key : ℕ → String) : Members (Hub.initial key) where
  mem t v ch := by simp [Hub.initial, Viewer.claims]
  keys t := by simp [Hub.initial]
  channels v := by simp [Hub.initial, Viewer.reserved]
  sessions v := by simp [Hub.initial, Viewer.reserved]
  closed v hc := by simp [Hub.initial] at hc
  noClosing v := by simp [Hub.initial, Pc.Closing]

theorem Viewer.claims_subset_reserved (x : Viewer) : x.claims ⊆ x.reserved := by
  unfold Viewer.claims Viewer.reserved
  split <;> simp_all

theorem Viewer.mem_taps_of_reserved {x : Viewer} {p : ℕ × ℕ} (hp : p ∈ x.reserved) :
    p.2 ∈ x.taps := by
  unfold Viewer.reserved at hp
  rcases List.mem_append.mp hp with hp | hp
  · exact List.mem_append_left _ (List.mem_map_of_mem hp)
  · refine List.mem_append_right _ ?_
    split at hp <;> simp_all [Pc.taps]

/-- One channel of a viewer reads a session. -/
theorem Members.session_unique {h : Hub} (hm : Members h) {v : ℕ} {p q : ℕ × ℕ}
    (hp : p ∈ (h.viewers v).reserved) (hq : q ∈ (h.viewers v).reserved)
    (hid : (h.taps p.2).id = (h.taps q.2).id) : p = q :=
  List.inj_on_of_nodup_map (hm.sessions v) hp hq hid

theorem Members.channel_unique {h : Hub} (hm : Members h) {v : ℕ} {p q : ℕ × ℕ}
    (hp : p ∈ (h.viewers v).reserved) (hq : q ∈ (h.viewers v).reserved) (hch : p.1 = q.1) :
    p = q :=
  List.inj_on_of_nodup_map (hm.channels v) hp hq hch

theorem leave_mem (h : Hub) (t v u w k : ℕ) :
    (w, k) ∈ ((h.leave t v).taps u).viewers ↔
      (w, k) ∈ (h.taps u).viewers ∧ ¬(u = t ∧ w = v) := by
  rw [leave_taps]
  by_cases hu : u = t
  · subst hu
    simp [Tap.withoutViewer]
  · simp [hu]

theorem leave_keys {h : Hub} (hk : ∀ u, ((h.taps u).viewers.map Prod.fst).Nodup) (t v u : ℕ) :
    (((h.leave t v).taps u).viewers.map Prod.fst).Nodup := by
  rw [leave_taps]
  by_cases hu : u = t
  · subst hu
    simp only [Function.update_self, Tap.withoutViewer]
    exact (hk u).sublist (List.filter_sublist.map _)
  · rw [Function.update_of_ne hu]
    exact hk u

theorem leave_id (h : Hub) (t v u : ℕ) : ((h.leave t v).taps u).id = (h.taps u).id :=
  (leave_settles h t v).id u

theorem foldl_leave_mem (v : ℕ) (ps : List (ℕ × ℕ)) (h : Hub) (u w k : ℕ) :
    (w, k) ∈ ((ps.foldl (fun h p => h.leave p.2 v) h).taps u).viewers ↔
      (w, k) ∈ (h.taps u).viewers ∧ ¬(w = v ∧ u ∈ ps.map Prod.snd) := by
  induction ps generalizing h with
  | nil => simp
  | cons p ps ih =>
    rw [List.foldl_cons, ih, leave_mem]
    simp only [List.map_cons, List.mem_cons]
    tauto

theorem foldl_leave_keys {v : ℕ} (ps : List (ℕ × ℕ)) {h : Hub}
    (hk : ∀ u, ((h.taps u).viewers.map Prod.fst).Nodup) (u : ℕ) :
    (((ps.foldl (fun h p => h.leave p.2 v) h).taps u).viewers.map Prod.fst).Nodup := by
  induction ps generalizing h with
  | nil => exact hk u
  | cons p ps ih => exact ih (leave_keys hk p.2 v)

theorem foldl_leave_viewers (v : ℕ) (ps : List (ℕ × ℕ)) (h : Hub) :
    (ps.foldl (fun h p => h.leave p.2 v) h).viewers = h.viewers := by
  induction ps generalizing h with
  | nil => rfl
  | cons p ps ih => rw [List.foldl_cons, ih, leave_viewers]

/-- Viewer `v` becomes `x` while it leaves taps: what it still claims is what is left. -/
theorem Members.shrink {h g : Hub} (hm : Members h) {v : ℕ} {x : Viewer}
    (hv : g.viewers = Function.update h.viewers v x)
    (hid : ∀ t, (g.taps t).id = (h.taps t).id)
    (hother : ∀ t w k, w ≠ v → ((w, k) ∈ (g.taps t).viewers ↔ (w, k) ∈ (h.taps t).viewers))
    (hself : ∀ t k, (v, k) ∈ (g.taps t).viewers ↔ (k, t) ∈ x.claims)
    (hkeys : ∀ t, ((g.taps t).viewers.map Prod.fst).Nodup)
    (hres : x.reserved.Sublist (h.viewers v).reserved) (hclosed : x.closed = true → x.channels = [])
    (hpc : ¬x.pc.Closing) : Members g := by
  have hx (w : ℕ) : g.viewers w = if w = v then x else h.viewers w := by
    rw [hv, Function.update_apply]
  refine ⟨?_, hkeys, ?_, ?_, ?_, ?_⟩
  · intro t w k
    rw [hx]
    split_ifs with hw
    · rw [hw]
      exact hself t k
    · rw [hother t w k hw]
      exact hm.mem t w k
  · intro w
    rw [hx]
    split_ifs with hw
    · exact (hm.channels v).sublist (hres.map _)
    · exact hm.channels w
  · intro w
    rw [hx]
    simp only [hid]
    split_ifs with hw
    · exact (hm.sessions v).sublist (hres.map _)
    · exact hm.sessions w
  · intro w hc
    rw [hx] at hc ⊢
    split_ifs at hc ⊢ with hw
    · exact hclosed hc
    · exact hm.closed w hc
  · intro w
    rw [hx]
    split_ifs with hw
    · exact hpc
    · exact hm.noClosing w

theorem Members.attachedClosed {h : Hub} (hm : Members h) {v t ch : ℕ}
    (hpc : (h.viewers v).pc = .attaching t ch .ok) (hc : (h.viewers v).closed = true)
    (c : Option ℕ) : Members ((h.leave t v).setPc v (.leaving c)) := by
  have hnil := hm.closed v hc
  have hself (u k : ℕ) : (v, k) ∈ (h.taps u).viewers ↔ k = ch ∧ u = t := by
    rw [hm.mem]
    simp [Viewer.claims, hnil, hpc]
  refine hm.shrink (v := v) (x := { h.viewers v with pc := .leaving c }) ?_ (leave_id h t v) ?_ ?_
    (leave_keys hm.keys t v) ?_ (fun _ => hnil) False.elim
  · simp [Hub.setPc, Hub.setViewer]
  · intro u w k hw
    change (w, k) ∈ ((h.leave t v).taps u).viewers ↔ _
    simp [leave_mem, hw]
  · intro u k
    change (v, k) ∈ ((h.leave t v).taps u).viewers ↔ _
    rw [leave_mem, hself]
    simp only [Viewer.claims, hnil, List.nil_append, List.not_mem_nil, iff_false]
    tauto
  · simp [Viewer.reserved, hnil]

theorem Members.detach {h : Hub} (hm : Members h) {v ch t : ℕ} (hr : h.ready v)
    (hl : (h.viewers v).channels.lookup ch = some t) (c : Option ℕ) :
    Members (((h.dropChannel v ch).leave t v).setPc v (.detaching ch c)) := by
  have hres : (h.viewers v).reserved = (h.viewers v).channels := by
    simp [Viewer.reserved, hr.1]
  have hclaims : (h.viewers v).claims = (h.viewers v).channels := by
    simp [Viewer.claims, hr.1]
  have hin : (ch, t) ∈ (h.viewers v).channels := by
    obtain ⟨l, r, happ, -⟩ := List.lookup_eq_some_iff.mp hl
    simp [happ]
  refine hm.shrink (v := v)
    (x := { (h.viewers v).withoutChannel ch with pc := .detaching ch c }) ?_
    (leave_id (h.dropChannel v ch) t v) ?_ ?_ (leave_keys (h := h.dropChannel v ch) hm.keys t v) ?_ ?_
    False.elim
  · simp [Hub.setPc, Hub.setViewer, Hub.dropChannel]
  · intro u w k hw
    change (w, k) ∈ (((h.dropChannel v ch).leave t v).taps u).viewers ↔ _
    simp [leave_mem, hw, Hub.dropChannel, Hub.setViewer]
  · intro u k
    change (v, k) ∈ (((h.dropChannel v ch).leave t v).taps u).viewers ↔ _
    rw [leave_mem]
    change (v, k) ∈ (h.taps u).viewers ∧ _ ↔ _
    rw [hm.mem, hclaims]
    simp only [Viewer.claims, Viewer.withoutChannel, List.append_nil, List.mem_filter,
      decide_eq_true_eq]
    constructor
    · rintro ⟨hku, hne⟩
      refine ⟨hku, fun hk => hne ⟨?_, trivial⟩⟩
      have := hm.channel_unique (hres ▸ hku) (hres ▸ hin) hk
      exact congrArg Prod.snd this
    · rintro ⟨hku, hne⟩
      refine ⟨hku, fun hut => hne ?_⟩
      have := hm.session_unique (hres ▸ hku) (hres ▸ hin) (by simp [hut.1])
      exact congrArg Prod.fst this
  · rw [hres]
    simp [Viewer.reserved, Viewer.withoutChannel]
  · intro hc
    have hopen : (h.viewers v).closed = false := hr.2
    simp [Viewer.withoutChannel, hopen] at hc

theorem Members.dispose {h : Hub} (hm : Members h) (v : ℕ) : Members (h.dispose v) := by
  have hset : (h.setViewer v { h.viewers v with closed := true, channels := [] }).taps = h.taps := rfl
  refine hm.shrink (v := v) (x := { h.viewers v with closed := true, channels := [] }) ?_
    (dispose_settles h v).id ?_ ?_ (foldl_leave_keys _ hm.keys) ?_ (fun _ => rfl)
    (hm.noClosing v)
  · exact foldl_leave_viewers _ _ _
  · intro t w k hw
    simp only [Hub.dispose, foldl_leave_mem, hset]
    tauto
  · intro t k
    simp only [Hub.dispose, foldl_leave_mem, hset, hm.mem, true_and]
    simp only [Viewer.claims, List.mem_append, List.nil_append]
    constructor
    · rintro ⟨hkt | hkt, hnt⟩
      · exact absurd (List.mem_map_of_mem hkt) hnt
      · exact hkt
    · intro hkt
      refine ⟨Or.inr hkt, fun hmem => ?_⟩
      obtain ⟨p, hp, hpt⟩ := List.mem_map.mp hmem
      have hdup := hm.sessions v
      cases hpc : (h.viewers v).pc with
      | attaching u ch r =>
        cases r with
        | ok =>
          simp only [hpc, List.mem_singleton, Prod.mk.injEq] at hkt
          simp only [Viewer.reserved, hpc, List.map_append, List.map_cons, List.map_nil] at hdup
          have := List.disjoint_of_nodup_append hdup (List.mem_map_of_mem hp)
          simp [hpt, hkt.2] at this
        | refused error => simp [hpc] at hkt
      | _ => simp [hpc] at hkt
  · simp only [Viewer.reserved, List.nil_append]
    exact List.sublist_append_right _ _

section Grow

variable {h : Hub} {v t ch : ℕ} {s : String}

theorem hasChannel_eq_false (hch : h.hasChannel v ch = false) {p : ℕ × ℕ}
    (hp : p ∈ (h.viewers v).channels) : p.1 ≠ ch := by
  rintro rfl
  simp only [Hub.hasChannel, decide_eq_false_iff_not] at hch
  exact hch (List.mem_map_of_mem hp)

theorem readsSession_eq_false (hid : h.readsSession v s = false) {p : ℕ × ℕ}
    (hp : p ∈ (h.viewers v).channels) : (h.taps p.2).id ≠ s := by
  simp only [Hub.readsSession, List.any_eq_false, decide_eq_true_eq] at hid
  exact hid p hp

/-- After the checks of ATTACH the new channel clashes with none the viewer has. -/
theorem Members.reservable (hm : Members h) (idOf : ℕ → String) (hr : h.ready v)
    (hch : h.hasChannel v ch = false) (hid : h.readsSession v s = false) (ht : idOf t = s)
    (hsame : ∀ p ∈ (h.viewers v).channels, idOf p.2 = (h.taps p.2).id) :
    (((h.viewers v).channels ++ [(ch, t)]).map Prod.fst).Nodup ∧
      (((h.viewers v).channels ++ [(ch, t)]).map fun p => idOf p.2).Nodup := by
  have hres : (h.viewers v).reserved = (h.viewers v).channels := by
    simp [Viewer.reserved, hr.1]
  have hnc := hm.channels v
  have hns := hm.sessions v
  rw [hres] at hnc hns
  have hmap : (h.viewers v).channels.map (fun p => idOf p.2) =
      (h.viewers v).channels.map fun p => (h.taps p.2).id :=
    List.map_congr_left hsame
  simp only [List.map_append, List.map_cons, List.map_nil]
  refine ⟨hnc.append (List.nodup_singleton _) ?_, ?_⟩
  · simp only [List.disjoint_singleton]
    intro hmem
    obtain ⟨p, hp, hpc⟩ := List.mem_map.mp hmem
    exact hasChannel_eq_false hch hp hpc
  · rw [hmap]
    refine hns.append (List.nodup_singleton _) ?_
    simp only [List.disjoint_singleton, ht]
    intro hmem
    obtain ⟨p, hp, hps⟩ := List.mem_map.mp hmem
    exact readsSession_eq_false hid hp hps

/-- A viewer starts to wait for tap `t`, which may be new. -/
theorem Members.reserve {g : Hub} (hm : Members h) {c : ℕ} (hr : h.ready v)
    (hch : h.hasChannel v ch = false) (hid : h.readsSession v s = false)
    (hv : g.viewers = (h.setPc v (.joining t ch c)).viewers)
    (hmem : ∀ u, (g.taps u).viewers = (h.taps u).viewers) (ht : (g.taps t).id = s)
    (hsame : ∀ w, ∀ p ∈ (h.viewers w).reserved, (g.taps p.2).id = (h.taps p.2).id) :
    Members g := by
  have hx (w : ℕ) : g.viewers w =
      if w = v then { h.viewers v with pc := .joining t ch c } else h.viewers w := by
    rw [hv]
    simp [Hub.setPc, Hub.setViewer, Function.update_apply]
  have hclaims : (h.viewers v).claims = (h.viewers v).channels := by
    simp [Viewer.claims, hr.1]
  have hold : (h.viewers v).reserved = (h.viewers v).channels := by
    simp [Viewer.reserved, hr.1]
  obtain ⟨hnc, hns⟩ := hm.reservable (fun u => (g.taps u).id) hr hch hid ht
    fun p hp => hsame v p (hold ▸ hp)
  refine ⟨?_, fun u => by rw [hmem]; exact hm.keys u, ?_, ?_, ?_, ?_⟩
  · intro u w k
    rw [hmem, hm.mem, hx]
    split_ifs with hw
    · rw [hw, hclaims]
      simp [Viewer.claims]
    · rfl
  · intro w
    rw [hx]
    split_ifs with hw
    · simpa [Viewer.reserved] using hnc
    · exact hm.channels w
  · intro w
    rw [hx]
    split_ifs with hw
    · simpa [Viewer.reserved] using hns
    · rw [List.map_congr_left (hsame w)]
      exact hm.sessions w
  · intro w hc
    rw [hx] at hc ⊢
    split_ifs at hc ⊢ with hw
    · exact hm.closed v hc
    · exact hm.closed w hc
  · intro w
    rw [hx]
    split_ifs with hw
    · exact False.elim
    · exact hm.noClosing w

theorem withViewer_viewers {x : Tap} (hnew : v ∉ x.viewers.map Prod.fst) (ch : ℕ) :
    (x.withViewer v ch).viewers = x.viewers ++ [(v, ch)] := by
  simp only [Tap.withViewer, if_neg hnew]

/-- A viewer enters a tap that none of its channels reads. -/
theorem Members.register (hm : Members h) (hclaims : (h.viewers v).claims = (h.viewers v).channels)
    (hnc : (((h.viewers v).channels ++ [(ch, t)]).map Prod.fst).Nodup)
    (hns : (((h.viewers v).channels ++ [(ch, t)]).map fun p => (h.taps p.2).id).Nodup) :
    Members (h.register v t ch) := by
  have hnew : v ∉ (h.taps t).viewers.map Prod.fst := by
    intro hv
    obtain ⟨⟨w, k⟩, hwk, rfl⟩ := List.mem_map.mp hv
    rw [hm.mem, hclaims] at hwk
    rw [List.map_append] at hns
    have := List.disjoint_of_nodup_append hns (List.mem_map_of_mem hwk)
    simp at this
  have hviewers (u : ℕ) : ((h.register v t ch).taps u).viewers =
      if u = t then (h.taps t).viewers ++ [(v, ch)] else (h.taps u).viewers := by
    rw [register_taps]
    split_ifs
    · exact withViewer_viewers hnew ch
    · rfl
  have hid (u : ℕ) : ((h.register v t ch).taps u).id = (h.taps u).id := by
    rw [register_taps]
    split_ifs with hu
    · rw [hu, withViewer_id]
    · rfl
  have hother {w : ℕ} (hw : w ≠ v) : (h.register v t ch).viewers w = h.viewers w := by
    simp [Hub.register, Hub.setViewer, Hub.setTap, hw]
  have hself : ((h.register v t ch).viewers v).reserved = (h.viewers v).channels ++ [(ch, t)] ∧
      ((h.register v t ch).viewers v).claims = (h.viewers v).channels ++ [(ch, t)] := by
    simp [Hub.register, Hub.setViewer, Viewer.reserved, Viewer.claims]
  refine ⟨?_, ?_, ?_, ?_, ?_, ?_⟩
  · intro u w k
    rw [hviewers]
    have hold := hm.mem u w k
    by_cases hw : w = v
    · subst hw
      rw [hself.2, List.mem_append, ← hclaims, ← hold]
      split_ifs with hu
      · subst hu
        simp
      · simp [hu]
    · rw [hother hw, ← hold]
      split_ifs with hu
      · subst hu
        simp [hw]
      · rfl
  · intro u
    rw [hviewers]
    split_ifs with hu
    · rw [List.map_append]
      refine (hm.keys t).append (List.nodup_singleton _) ?_
      simpa using hnew
    · exact hm.keys u
  · intro w
    by_cases hw : w = v
    · rw [hw, hself.1]
      exact hnc
    · rw [hother hw]
      exact hm.channels w
  · intro w
    simp only [hid]
    by_cases hw : w = v
    · rw [hw, hself.1]
      exact hns
    · rw [hother hw]
      exact hm.sessions w
  · intro w hc
    by_cases hw : w = v
    · subst hw
      simp only [Hub.register, Hub.setViewer, Function.update_self, Viewer.send_closed,
        Viewer.send_channels] at hc ⊢
      exact hm.closed w hc
    · rw [hother hw] at hc ⊢
      exact hm.closed w hc
  · intro w
    by_cases hw : w = v
    · subst hw
      simp [register_pc, Pc.Closing]
    · rw [hother hw]
      exact hm.noClosing w

end Grow

/-- No CLOSE frame passes the owner check. -/
def NoOwnedClose (h : Hub) : Action → Prop
  | .close v ch => h.ownedTap v ch = none
  | _ => True

instance (h : Hub) (a : Action) : Decidable (NoOwnedClose h a) := by
  apply Action.casesOn (motive := fun a => Decidable (NoOwnedClose h a)) a
  all_goals
    intros
    unfold NoOwnedClose
    infer_instance

theorem attached_same {h : Hub} {v t ch : ℕ} (hpc : (h.viewers v).pc = .attaching t ch .ok)
    (hc : (h.viewers v).closed = false) : SameMembers h (h.attachResume v t ch .ok) := by
  rw [attached_viewer hc]
  apply setViewer_same
  · simp [Viewer.claims, hpc]
  · simp [Viewer.reserved, hpc]
  · simp [hc]
  · exact False.elim

theorem joinRefused_same {h : Hub} {v t ch c : ℕ} (hpc : (h.viewers v).pc = .joining t ch c)
    (error : String) : SameMembers h (h.joinResume v t ch (.refused error)) := by
  have hpcs : SameMembers h (h.setPc v (.attaching t ch (.refused error))) := by
    apply setViewer_same
    · simp [Viewer.claims, hpc]
    · simp [Viewer.reserved, hpc]
    · exact fun hc => ⟨hc, rfl⟩
    · exact False.elim
  refine hpcs.trans (SameMembers.of_taps (joinRefused_viewer h v t ch error) fun u => ?_)
  rw [joinRefused_taps]
  split_ifs with hu
  · rw [hu]
    exact ⟨rfl, rfl⟩
  · exact ⟨rfl, rfl⟩

/-- Every step but a CLOSE by the session's owner keeps the two maps in agreement. -/
theorem step_members {h g : Hub} {a : Action} (hw : Wired h) (hm : Members h)
    (hok : NoOwnedClose h a) (hs : step h a = some g) : Members g := by
  have inert {b : Hub} (hv : b.viewers = h.viewers) (htaps : b.taps = h.taps) : Members b :=
    hm.same (SameMembers.of_taps hv fun t => by rw [htaps]; exact ⟨rfl, rfl⟩)
  cases step_sound hs with
  | reply hpc => exact hm.same (finish_same hpc _)
  | wait hr hch hid hl =>
    exact hm.reserve hr hch hid rfl (fun _ => rfl) (hw.live _ _ hl).2.1 fun _ _ _ => rfl
  | reopen _ hl ho => exact absurd ho (hw.live _ _ hl).2.2.2
  | openNew hr _ hch hid hl =>
    refine hm.reserve hr hch hid (openNew_viewers hl) ?_ ?_ ?_
    · intro u
      rw [openNew_taps hl]
      split_ifs with hu
      · rw [hu, hw.fresh _ (le_refl _)]
      · rfl
    · rw [openNew_taps hl, if_pos rfl]
    · intro w p hp
      have hlt : p.2 < h.nextTap := hw.refs w p.2 (Viewer.mem_taps_of_reserved hp)
      rw [openNew_taps hl, if_neg (by omega)]
  | registerNow hr hch hid hl =>
    obtain ⟨hnc, hns⟩ := hm.reservable (fun u => (h.taps u).id) hr hch hid (hw.live _ _ hl).2.1
      fun _ _ => rfl
    exact hm.register (by simp [Viewer.claims, hr.1]) hnc hns
  | @joinOk v t ch c hpc =>
    have hres : (h.viewers v).reserved = (h.viewers v).channels ++ [(ch, t)] := by
      simp [Viewer.reserved, hpc]
    refine hm.register (by simp [Viewer.claims, hpc]) ?_ ?_
    · exact hres ▸ hm.channels v
    · exact hres ▸ hm.sessions v
  | joinRefused hpc => exact hm.same (joinRefused_same hpc _)
  | attachedClosed hpc hc => exact hm.attachedClosed hpc hc _
  | attached hpc hc => exact hm.same (attached_same hpc hc)
  | detach hr hl => exact hm.detach hr hl _
  | closeAsk _ hl => exact absurd hok (by simp [NoOwnedClose, hl])
  | closeEnd _ hl => exact absurd hok (by simp [NoOwnedClose, hl])
  | @closeReply v _ _ _ hpc => exact absurd (by rw [hpc]; trivial) (hm.noClosing v)
  | @closeResume v _ _ hpc => exact absurd (by rw [hpc]; trivial) (hm.noClosing v)
  | create hr =>
    exact hm.same (quiet_same (by rw [hr.1]; trivial) rfl rfl (Or.inr ⟨_, _, rfl⟩))
  | @created v id n hpc =>
    have hset : Members { h.setOwner id (h.viewers v).key with
        broker := { h.broker with acked := Function.update h.broker.acked n true } } :=
      inert rfl rfl
    refine hset.same (finish_same ?_ _)
    simp only [Hub.setOwner, hpc, Pc.Quiet]
  | createFail hpc => exact hm.same (finish_same (by rw [hpc]; trivial) _)
  | dispose => exact hm.dispose _
  | accept => exact inert rfl rfl
  | @openOk c =>
    have hres : Members (h.setConn c { h.conns c with result := some .ok }) := inert rfl rfl
    exact hres.same (setTap_same rfl rfl)
  | openFail => exact inert rfl rfl
  | @deliver _ c body frame =>
    have hset : SameMembers h (h.setTap (h.conns c).tap
        { h.taps (h.conns c).tap with
          replay := ReplayBuffer.append replayBytes (h.taps (h.conns c).tap).replay body
          stream := (h.taps (h.conns c).tap).stream ++ body }) :=
      setTap_same rfl rfl
    exact hm.same (hset.trans (broadcast_same _ _ frame))
  | ended => exact hm.same (endTap_same _ _ _)
  | @gone c =>
    have hset : Members (h.setConn c { h.conns c with status := .closed }) := inert rfl rfl
    exact hset.same (endTap_same _ _ _)
  | detached => exact inert rfl rfl
  | shutdown => exact hm.same (shutdown_same h)
  | @brokerCreate v id hpc =>
    have hset : Members { h with broker := (h.broker.create id (some (h.viewers v).key)).1 } :=
      inert rfl rfl
    refine hset.same (quiet_same ?_ rfl rfl (Or.inr ⟨_, _, rfl⟩))
    simp only [hpc, Pc.Quiet]
  | brokerSpawn => exact inert rfl rfl
  | brokerExit => exact inert rfl rfl
  | brokerClose => exact inert rfl rfl
  | pruneMark => exact inert rfl rfl
  | pruneList => exact inert rfl rfl
  | pruneApply => exact inert rfl rfl

/-- No frame handler is waiting. -/
def Hub.Quiescent (h : Hub) : Prop := ∀ v, (h.viewers v).pc = .idle

theorem lookup_eq_some_of_nodup {l : List (ℕ × ℕ)} (hl : (l.map Prod.fst).Nodup) (k x : ℕ) :
    l.lookup k = some x ↔ (k, x) ∈ l := by
  constructor
  · intro h
    obtain ⟨l₁, l₂, happ, -⟩ := List.lookup_eq_some_iff.mp h
    simp [happ]
  · intro h
    obtain ⟨l₁, l₂, happ⟩ := List.append_of_mem h
    refine List.lookup_eq_some_iff.mpr ⟨l₁, l₂, happ, fun p hp => ?_⟩
    rw [happ, List.map_append, List.map_cons] at hl
    have hne : k ≠ p.1 := by
      rintro rfl
      exact List.disjoint_of_nodup_append hl (List.mem_map_of_mem hp) List.mem_cons_self
    simpa using hne

/-- Attach hub membership: as long as no CLOSE passes the owner check, in every quiescent state a
viewer is in a tap's map exactly when it is open and has a channel to the tap, a disposed viewer
is in none, and a tap without viewers has let go of its connection. -/
theorem membership_agrees (key : ℕ → String) (as : List Action) (h : Hub)
    (hrun : run step (Hub.initial key) as = some h)
    (hok : Along step NoOwnedClose (Hub.initial key) as) (hq : h.Quiescent) :
    (∀ t v ch, (v, ch) ∈ (h.taps t).viewers ↔
      (h.viewers v).closed = false ∧ (h.viewers v).channels.lookup ch = some t) ∧
      (∀ t v, (h.viewers v).closed = true → v ∉ (h.taps t).viewers.map Prod.fst) ∧
        ∀ t, (h.taps t).viewers = [] → (h.taps t).upstream = none ∧
          ∀ c < h.nextConn, (h.conns c).tap = t → (h.taps t).ended = false →
            (h.conns c).status ≠ .up := by
  obtain ⟨hw, ha, hm⟩ : Wired h ∧ Attended h ∧ Members h := by
    refine run_invariant_along (I := fun h => Wired h ∧ Attended h ∧ Members h) ?_
      ⟨initial_wired key, initial_attended key, initial_members key⟩ hrun hok
    intro h a g hI hclose hs
    exact ⟨step_wired hI.1 hs, step_attended hI.1 hI.2.1 hs, step_members hI.1 hI.2.2 hclose hs⟩
  have hchannels (v : ℕ) : (h.viewers v).claims = (h.viewers v).channels := by
    simp [Viewer.claims, hq v]
  have hnodup (v : ℕ) : ((h.viewers v).channels.map Prod.fst).Nodup := by
    have := hm.channels v
    simpa [Viewer.reserved, hq v] using this
  have hmem (t v ch : ℕ) : (v, ch) ∈ (h.taps t).viewers ↔
      (h.viewers v).closed = false ∧ (h.viewers v).channels.lookup ch = some t := by
    rw [hm.mem, hchannels, lookup_eq_some_of_nodup (hnodup v)]
    refine ⟨fun hin => ⟨?_, hin⟩, And.right⟩
    by_contra hc
    rw [hm.closed v (by simpa using hc)] at hin
    cases hin
  refine ⟨hmem, ?_, ?_⟩
  · intro t v hc hv
    obtain ⟨⟨w, ch⟩, hin, rfl⟩ := List.mem_map.mp hv
    have := ((hmem t w ch).mp hin).1
    rw [hc] at this
    cases this
  · intro t hnil
    have hidle (v ch c : ℕ) : (h.viewers v).pc ≠ .joining t ch c := by
      rw [hq v]
      exact Pc.noConfusion
    have hnone : (h.taps t).upstream = none := by
      by_contra hu
      rcases ha.manned t hu with hne | ⟨v, ch, c, hpc⟩
      · exact hne hnil
      · exact hidle v ch c hpc
    refine ⟨hnone, fun c hc htap hend hup => ?_⟩
    have hres : (h.conns c).result ≠ none := by
      intro hres
      obtain ⟨v, ch, hpc⟩ := hw.pending c hc hres
      exact hidle v ch c (htap ▸ hpc)
    rcases ha.linked c hc hup hres with hend' | hu
    · rw [htap, hend] at hend'
      cases hend'
    · rw [htap, hnone] at hu
      cases hu

/-- Two viewers share a session; one detaches, the other's socket is lost. -/
def shareAndLeave : List Action :=
  [.attach 0 "s" 1, .attach 1 "s" 7, .accept 0, .openOk 0, .joinResume 0, .attachResume 0,
    .joinResume 1, .attachResume 1, .output 0 [104, 105], .detach 0 1, .detachResume 0, .dispose 1]

theorem membership_agrees_shared :
    (run step (Hub.initial fun _ => "a") shareAndLeave).isSome ∧
      ∀ h, run step (Hub.initial fun _ => "a") shareAndLeave = some h →
        (∀ t v ch, (v, ch) ∈ (h.taps t).viewers ↔
          (h.viewers v).closed = false ∧ (h.viewers v).channels.lookup ch = some t) ∧
          (∀ t v, (h.viewers v).closed = true → v ∉ (h.taps t).viewers.map Prod.fst) ∧
            ∀ t, (h.taps t).viewers = [] → (h.taps t).upstream = none ∧
              ∀ c < h.nextConn, (h.conns c).tap = t → (h.taps t).ended = false →
                (h.conns c).status ≠ .up := by
  refine ⟨by decide +kernel, fun h hrun =>
    membership_agrees _ _ h hrun (by decide +kernel) fun v => ?_⟩
  have hpc : (run step (Hub.initial fun _ => "a") shareAndLeave).map
      (fun h => (h.viewers v).pc) = some .idle := by
    match v with
    | 0 => rfl
    | 1 => rfl
    | v + 2 => rfl
  rw [hrun] at hpc
  exact Option.some.inj hpc

/-- The owner closes its session, the broker does not answer, and the socket is lost. -/
def closeThenLeave : List Action :=
  [.create 0 "s" true, .brokerCreate 0, .createReply 0, .attach 0 "s" 1, .accept 0, .openOk 0,
    .joinResume 0, .attachResume 0, .close 0 1, .closeReply 0 false, .dispose 0]

/-- The disposed viewer is still in the tap, which keeps the session's connection open. -/
theorem membership_leaks_after_close :
    ∃ h, run step (Hub.initial fun _ => "a") closeThenLeave = some h ∧ h.Quiescent ∧
      (0, 1) ∈ (h.taps 0).viewers ∧ (h.viewers 0).closed = true ∧ (h.viewers 0).channels = [] ∧
        (h.taps 0).upstream = some 0 ∧ (h.conns 0).status = .up := by
  have hany : (run step (Hub.initial fun _ => "a") closeThenLeave).any fun h =>
      (0, 1) ∈ (h.taps 0).viewers ∧ (h.viewers 0).closed = true ∧ (h.viewers 0).channels = [] ∧
        (h.taps 0).upstream = some 0 ∧ (h.conns 0).status = .up := by decide +kernel
  obtain ⟨h, hrun, hh⟩ := (Option.any_eq_true _ _).mp hany
  refine ⟨h, hrun, fun v => ?_, of_decide_eq_true hh⟩
  have hpc : (run step (Hub.initial fun _ => "a") closeThenLeave).map
      (fun h => (h.viewers v).pc) = some .idle := by
    match v with
    | 0 => rfl
    | v + 1 => rfl
  rw [hrun] at hpc
  exact Option.some.inj hpc

end ClaudeFleet.AttachHub
