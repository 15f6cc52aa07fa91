import ClaudeFleet.HubStep

/-! What the hub's operations leave as it is when nothing is opened or joined. -/
namespace ClaudeFleet.AttachHub

/-- From `h` to `g` nothing is opened or joined: taps and connections only lose what they had. -/
structure Settles (h g : Hub) : Prop where
  nextTap : g.nextTap = h.nextTap
  nextConn : g.nextConn = h.nextConn
  id : ∀ t, (g.taps t).id = (h.taps t).id
  opening : ∀ t, (g.taps t).opening = (h.taps t).opening
  members : ∀ t, (g.taps t).viewers ⊆ (h.taps t).viewers
  upstream : ∀ t c, (g.taps t).upstream = some c → (h.taps t).upstream = some c
  ended : ∀ t, (h.taps t).ended = true → (g.taps t).ended = true
  live : ∀ s t, g.live s = some t → h.live s = some t
  liveEnded : ∀ t, (g.taps t).ended = true →
    (h.taps t).ended = true ∨ ∀ s, (h.taps t).id = s → g.live s ≠ some t
  tap : ∀ c, (g.conns c).tap = (h.conns c).tap
  session : ∀ c, (g.conns c).session = (h.conns c).session
  result : ∀ c, (g.conns c).result = (h.conns c).result
  joining : ∀ v t ch c, (g.viewers v).pc = .joining t ch c ↔ (h.viewers v).pc = .joining t ch c
  refs : ∀ v, ∀ t ∈ (g.viewers v).taps, t ∈ (h.viewers v).taps ∨ t < h.nextTap

theorem Settles.refl (h : Hub) : Settles h h where
  nextTap := rfl
  nextConn := rfl
  id _ := rfl
  opening _ := rfl
  members _ := List.Subset.refl _
  upstream _ _ hu := hu
  ended _ he := he
  live _ _ hl := hl
  liveEnded _ he := Or.inl he
  tap _ := rfl
  session _ := rfl
  result _ := rfl
  joining _ _ _ _ := Iff.rfl
  refs _ _ ht := Or.inl ht

theorem Settles.trans {h g k : Hub} (hg : Settles h g) (gk : Settles g k) : Settles h k where
  nextTap := gk.nextTap.trans hg.nextTap
  nextConn := gk.nextConn.trans hg.nextConn
  id t := (gk.id t).trans (hg.id t)
  opening t := (gk.opening t).trans (hg.opening t)
  members t := List.Subset.trans (gk.members t) (hg.members t)
  upstream t c hu := hg.upstream t c (gk.upstream t c hu)
  ended t he := gk.ended t (hg.ended t he)
  live s t hl := hg.live s t (gk.live s t hl)
  liveEnded t he := by
    rcases gk.liveEnded t he with hend | hnl
    · rcases hg.liveEnded t hend with hend | hnl
      · exact Or.inl hend
      · exact Or.inr fun s hs hl => hnl s hs (gk.live s t hl)
    · exact Or.inr fun s hs => hnl s ((hg.id t).trans hs)
  tap c := (gk.tap c).trans (hg.tap c)
  session c := (gk.session c).trans (hg.session c)
  result c := (gk.result c).trans (hg.result c)
  joining v t ch c := (gk.joining v t ch c).trans (hg.joining v t ch c)
  refs v t ht := by
    rcases gk.refs v t ht with ht | ht
    · exact hg.refs v t ht
    · exact Or.inr (hg.nextTap ▸ ht)

/-- Changes of the logs, the owners, the broker, and of what a connection has seen so far. -/
theorem Settles.of_viewers {h g : Hub} (htaps : g.taps = h.taps) (hlive : g.live = h.live)
    (hconns : g.conns = h.conns) (hnt : g.nextTap = h.nextTap) (hnc : g.nextConn = h.nextConn)
    (hpc : ∀ v t ch c, (g.viewers v).pc = .joining t ch c ↔ (h.viewers v).pc = .joining t ch c)
    (hrefs : ∀ v, ∀ t ∈ (g.viewers v).taps, t ∈ (h.viewers v).taps ∨ t < h.nextTap) :
    Settles h g :=
  { Settles.refl h with
    nextTap := hnt
    nextConn := hnc
    id := fun t => by rw [htaps]
    opening := fun t => by rw [htaps]
    members := fun t => by rw [htaps]; exact List.Subset.refl _
    upstream := fun t c hu => by rwa [htaps] at hu
    ended := fun t he => by rwa [htaps]
    live := fun s t hl => by rwa [hlive] at hl
    liveEnded := fun t he => by rw [htaps] at he; exact Or.inl he
    tap := fun c => by rw [hconns]
    session := fun c => by rw [hconns]
    result := fun c => by rw [hconns]
    joining := hpc
    refs := hrefs }

theorem setViewer_settles {h : Hub} {v : ℕ} {x : Viewer}
    (hpc : ∀ t ch c, x.pc = .joining t ch c ↔ (h.viewers v).pc = .joining t ch c)
    (hrefs : ∀ t ∈ x.taps, t ∈ (h.viewers v).taps ∨ t < h.nextTap) :
    Settles h (h.setViewer v x) := by
  refine Settles.of_viewers rfl rfl rfl rfl rfl ?_ ?_
  · intro w t ch c
    by_cases hw : w = v
    · subst hw
      simpa [Hub.setViewer] using hpc t ch c
    · simp [Hub.setViewer, hw]
  · intro w t ht
    by_cases hw : w = v
    · subst hw
      exact hrefs t (by simpa [Hub.setViewer] using ht)
    · exact Or.inl (by simpa [Hub.setViewer, hw] using ht)

theorem Pc.Quiet.not_joining {p : Pc} (hp : p.Quiet) (t ch c : ℕ) : p ≠ .joining t ch c := by
  rintro rfl
  exact hp

theorem setPc_settles {h : Hub} {v : ℕ} {p : Pc} (hold : ∀ t ch c, (h.viewers v).pc ≠ .joining t ch c)
    (hnew : ∀ t ch c, p ≠ .joining t ch c) (hrefs : ∀ t ∈ p.taps, t < h.nextTap) :
    Settles h (h.setPc v p) := by
  apply setViewer_settles
  · intro t ch c
    exact ⟨fun hx => absurd hx (hnew t ch c), fun hx => absurd hx (hold t ch c)⟩
  · intro t ht
    simp only [Viewer.taps, List.mem_append] at ht
    rcases ht with ht | ht
    · exact Or.inl (List.mem_append_left _ ht)
    · exact Or.inr (hrefs t ht)

theorem finish_settles {h : Hub} {v : ℕ} (frames : List Frame)
    (hold : ∀ t ch c, (h.viewers v).pc ≠ .joining t ch c) : Settles h (h.finish v frames) := by
  apply setViewer_settles
  · intro t ch c
    exact ⟨fun hx => by simp at hx, fun hx => absurd hx (hold t ch c)⟩
  · intro t ht
    simp only [Viewer.taps, Viewer.send_channels, Pc.taps, List.append_nil] at ht
    exact Or.inl (List.mem_append_left _ ht)

theorem broadcast_settles (h : Hub) (t : ℕ) (frame : ℕ → Frame) :
    Settles h (h.broadcast t frame) := by
  refine Settles.of_viewers rfl rfl rfl rfl rfl ?_ ?_
  · intro w u ch c
    simp [Hub.broadcast]
  · intro w u hu
    exact Or.inl (by simpa [Hub.broadcast, Viewer.taps] using hu)

theorem dropOwner_settles (h : Hub) (id : String) : Settles h (h.dropOwner id) :=
  Settles.of_viewers rfl rfl rfl rfl rfl (fun _ _ _ _ => Iff.rfl) fun _ _ ht => Or.inl ht

/-- The tap's fields other than its output change by a retirement. -/
theorem retireTap_settles {h : Hub} {t : ℕ} {x : Tap} (hid : x.id = (h.taps t).id)
    (hopen : x.opening = (h.taps t).opening) (hmem : x.viewers ⊆ (h.taps t).viewers)
    (hup : ∀ c, x.upstream = some c → (h.taps t).upstream = some c)
    (hend : (h.taps t).ended = true → x.ended = true) :
    Settles h ((h.setTap t x).retire t) := by
  have hx (u : ℕ) : ((h.setTap t x).retire t).taps u = if u = t then x else h.taps u := by
    simp [Hub.retire, Hub.setTap, Function.update_apply]
  have hl (s : String) : ((h.setTap t x).retire t).live s =
      if h.live s = some t ∧ x.id = s then none else h.live s := by
    simp [Hub.retire, Hub.setTap]
  exact
    { Settles.refl h with
      id := fun u => by rw [hx]; split_ifs with hu <;> simp [hu, hid]
      opening := fun u => by rw [hx]; split_ifs with hu <;> simp [hu, hopen]
      members := fun u => by rw [hx]; split_ifs with hu <;> simp [hu, hmem]
      upstream := fun u c hc => by
        rw [hx] at hc
        split_ifs at hc with hu
        · exact hu ▸ hup c hc
        · exact hc
      ended := fun u he => by
        rw [hx]
        split_ifs with hu
        · exact hend (hu ▸ he)
        · exact he
      live := fun s u hs => by
        rw [hl] at hs
        split_ifs at hs
        exact hs
      liveEnded := fun u he => by
        rw [hx] at he
        split_ifs at he with hu
        · refine Or.inr fun s hs hlive => ?_
          rw [hl, hu] at hlive
          split_ifs at hlive with hr
          exact hr ⟨hlive, by rw [hid, ← hu, hs]⟩
        · exact Or.inl he }

theorem setTap_settles {h : Hub} {t : ℕ} {x : Tap} (hid : x.id = (h.taps t).id)
    (hopen : x.opening = (h.taps t).opening) (hmem : x.viewers ⊆ (h.taps t).viewers)
    (hup : x.upstream = (h.taps t).upstream) (hend : x.ended = (h.taps t).ended) :
    Settles h (h.setTap t x) := by
  have hx (u : ℕ) : (h.setTap t x).taps u = if u = t then x else h.taps u := by
    simp [Hub.setTap, Function.update_apply]
  exact
    { Settles.refl h with
      id := fun u => by rw [hx]; split_ifs with hu <;> simp [hu, hid]
      opening := fun u => by rw [hx]; split_ifs with hu <;> simp [hu, hopen]
      members := fun u => by rw [hx]; split_ifs with hu <;> simp [hu, hmem]
      upstream := fun u c hc => by rw [hx] at hc; split_ifs at hc with hu <;> simp_all
      ended := fun u he => by rw [hx]; split_ifs with hu <;> simp_all
      liveEnded := fun u he => by rw [hx] at he; split_ifs at he with hu <;> simp_all }

theorem setConn_settles {h : Hub} {c : ℕ} {x : Conn} (htap : x.tap = (h.conns c).tap)
    (hsession : x.session = (h.conns c).session) (hresult : x.result = (h.conns c).result) :
    Settles h (h.setConn c x) := by
  have hx (d : ℕ) : (h.setConn c x).conns d = if d = c then x else h.conns d := by
    simp [Hub.setConn, Function.update_apply]
  exact
    { Settles.refl h with
      tap := fun d => by rw [hx]; split_ifs with hd <;> simp [hd, htap]
      session := fun d => by rw [hx]; split_ifs with hd <;> simp [hd, hsession]
      result := fun d => by rw [hx]; split_ifs with hd <;> simp [hd, hresult] }

theorem endTap_settles (h : Hub) (t : ℕ) (reason : EndReason) : Settles h (h.endTap t reason) := by
  have hretire : Settles h
      ((h.setTap t { h.taps t with ended := true, upstream := none }).retire t) :=
    retireTap_settles rfl rfl (List.Subset.refl _) (by simp) (by simp)
  simp only [Hub.endTap]
  split_ifs
  · exact Settles.refl h
  · exact (hretire.trans (dropOwner_settles _ _)).trans (broadcast_settles _ _ _)
  · exact hretire.trans (broadcast_settles _ _ _)

theorem dropUpstream_settles (h : Hub) (t : ℕ) : Settles h (h.dropUpstream t) := by
  have hretire : Settles h ((h.setTap t { h.taps t with upstream := none }).retire t) :=
    retireTap_settles rfl rfl (List.Subset.refl _) (by simp) (by simp)
  simp only [Hub.dropUpstream]
  split
  · exact hretire.trans (setConn_settles rfl rfl rfl)
  · exact hretire

theorem leave_settles (h : Hub) (t v : ℕ) : Settles h (h.leave t v) := by
  have hset : Settles h (h.setTap t ((h.taps t).withoutViewer v)) :=
    setTap_settles rfl rfl (List.filter_subset_self _) rfl rfl
  simp only [Hub.leave]
  split_ifs
  · exact hset.trans (dropUpstream_settles _ _)
  · exact hset

theorem foldl_settles {α : Type} (f : Hub → α → Hub) (hf : ∀ h x, Settles h (f h x)) (xs : List α)
    (h : Hub) : Settles h (xs.foldl f h) := by
  induction xs generalizing h with
  | nil => exact Settles.refl h
  | cons x xs ih => exact (hf h x).trans (ih _)

theorem dropChannel_settles (h : Hub) (v ch : ℕ) : Settles h (h.dropChannel v ch) := by
  apply setViewer_settles
  · intro t c d
    exact Iff.rfl
  · intro t ht
    simp only [Viewer.taps, Viewer.withoutChannel, List.mem_append, List.mem_map] at ht ⊢
    rcases ht with ⟨p, hp, rfl⟩ | ht
    · exact Or.inl (Or.inl ⟨p, List.mem_of_mem_filter hp, rfl⟩)
    · exact Or.inl (Or.inr ht)

theorem closeViewer_settles (h : Hub) (v : ℕ) :
    Settles h (h.setViewer v { h.viewers v with closed := true, channels := [] }) := by
  apply setViewer_settles
  · intro t c d
    exact Iff.rfl
  · intro t ht
    exact Or.inl (List.mem_append_right _ (by simpa [Viewer.taps] using ht))

theorem dispose_settles (h : Hub) (v : ℕ) : Settles h (h.dispose v) :=
  (closeViewer_settles h v).trans (foldl_settles _ (fun g p => leave_settles g (Prod.snd p) v) _ _)

theorem created_settles {h : Hub} {v : ℕ} {id : String} {answer : Option (Option ℕ)}
    (hpc : (h.viewers v).pc = .creating id answer) (n : ℕ) : Settles h (h.created v id n) := by
  have hset : Settles h
      { h.setOwner id (h.viewers v).key with
        broker := { h.broker with acked := Function.update h.broker.acked n true } } :=
    Settles.of_viewers rfl rfl rfl rfl rfl (fun _ _ _ _ => Iff.rfl) fun _ _ ht => Or.inl ht
  refine hset.trans (finish_settles _ ?_)
  simp [Hub.setOwner, hpc]

theorem fanOut_settles (h : Hub) (t : ℕ) (body : List UInt8) (frame : ℕ → Frame) :
    Settles h (h.fanOut t body frame) := by
  have hset : Settles h (h.setTap t
      { h.taps t with
        replay := ReplayBuffer.append replayBytes (h.taps t).replay body
        stream := (h.taps t).stream ++ body }) :=
    setTap_settles rfl rfl (List.Subset.refl _) rfl rfl
  exact hset.trans (broadcast_settles _ t frame)

theorem setStatus_settles (h : Hub) (c : ℕ) (st : ConnStatus) :
    Settles h (h.setConn c { h.conns c with status := st }) :=
  setConn_settles rfl rfl rfl

theorem endTap_pc (h : Hub) (t : ℕ) (reason : EndReason) (v : ℕ) :
    ((h.endTap t reason).viewers v).pc = (h.viewers v).pc := by
  simp only [Hub.endTap]
  split_ifs <;> simp [Hub.broadcast, Hub.dropOwner, Hub.retire, Hub.setTap]

/-- Upstreams are given up only together with their connection, and by the last viewer. -/
structure Keeps (h g : Hub) : Prop extends Settles h g where
  view : ∀ t, (g.taps t).upstream ≠ none → (h.taps t).viewers ≠ [] → (g.taps t).viewers ≠ []
  status : ∀ c, (g.conns c).status ≠ .closed → (h.conns c).status ≠ .closed
  up : ∀ c, (g.conns c).status = .up → (h.conns c).status = .up
  kept : ∀ c, (g.conns c).status = .up → (h.taps (h.conns c).tap).upstream = some c →
    (g.taps (h.conns c).tap).upstream = some c

theorem Keeps.trans {h g k : Hub} (hg : Keeps h g) (gk : Keeps g k) : Keeps h k where
  toSettles := hg.toSettles.trans gk.toSettles
  view t hu hv := by
    obtain ⟨c, hc⟩ := Option.ne_none_iff_exists'.mp hu
    have hgu := gk.upstream t c hc
    exact gk.view t hu (hg.view t (by simp [hgu]) hv)
  status c hc := hg.status c (gk.status c hc)
  up c hc := hg.up c (gk.up c hc)
  kept c hc hu := by
    have := hg.kept c (gk.up c hc) hu
    rw [← hg.tap c] at this ⊢
    exact gk.kept c hc this

/-- The taps keep viewers and upstreams, and connections at most close. -/
theorem Keeps.of_settles {h g : Hub} (hs : Settles h g)
    (htaps : ∀ t, (g.taps t).viewers = (h.taps t).viewers ∧
      (g.taps t).upstream = (h.taps t).upstream)
    (hconns : ∀ c, (g.conns c).status = (h.conns c).status ∨ (g.conns c).status = .closed) :
    Keeps h g where
  toSettles := hs
  view t _ hv := by
    rw [(htaps t).1]
    exact hv
  status c hc := by
    rcases hconns c with heq | hcl
    · rwa [← heq]
    · exact absurd hcl hc
  up c hc := by
    rcases hconns c with heq | hcl
    · rwa [← heq]
    · rw [hcl] at hc
      cases hc
  kept c _ hu := (htaps _).2.trans hu

theorem Keeps.of_taps {h g : Hub} (hs : Settles h g) (htaps : g.taps = h.taps)
    (hconns : g.conns = h.conns) : Keeps h g :=
  Keeps.of_settles hs (fun t => by rw [htaps]; exact ⟨rfl, rfl⟩)
    fun c => Or.inl (by rw [hconns])

theorem setStatus_keeps (h : Hub) (c : ℕ) :
    Keeps h (h.setConn c { h.conns c with status := .closed }) := by
  refine Keeps.of_settles (setStatus_settles h c .closed) (fun _ => ⟨rfl, rfl⟩) fun d => ?_
  by_cases hd : d = c <;> simp [Hub.setConn, hd]

theorem dropUpstream_keeps (h : Hub) (t : ℕ) : Keeps h (h.dropUpstream t) where
  toSettles := dropUpstream_settles h t
  view u _ hv := by
    by_cases hu : u = t
    · subst hu
      simpa using hv
    · simpa [hu] using hv
  status c hc := by
    rw [dropUpstream_conns] at hc
    split_ifs at hc with hd
    · simp [hd.2]
    · exact hc
  up c hc := by
    rw [dropUpstream_conns] at hc
    split_ifs at hc with hd
    exact hc
  kept c hc hu := by
    rw [dropUpstream_conns] at hc
    split_ifs at hc with hd
    have ht : (h.conns c).tap ≠ t := by
      rintro rfl
      exact hd ⟨hu, hc⟩
    simpa [ht] using hu

theorem withoutViewer_ne_nil {x : Tap} {v : ℕ} (hl : x.lastViewer v = false)
    (hne : x.viewers ≠ []) : (x.withoutViewer v).viewers ≠ [] := by
  intro hnil
  have hall : ∀ m ∈ x.viewers, m.1 = v := by
    simpa [Tap.withoutViewer] using hnil
  obtain ⟨m, hm⟩ := List.exists_mem_of_ne_nil _ hne
  have hv : v ∈ x.viewers.map Prod.fst := List.mem_map.mpr ⟨m, hm, hall m hm⟩
  simp [Tap.lastViewer, hnil, hv] at hl

theorem leave_keeps (h : Hub) (t v : ℕ) : Keeps h (h.leave t v) where
  toSettles := leave_settles h t v
  view u hup hv := by
    rw [leave_taps] at hup ⊢
    by_cases hu : u = t
    · subst hu
      simp only [Function.update_self] at hup ⊢
      split_ifs at hup with hl
      · exact absurd rfl hup
      · exact withoutViewer_ne_nil (by simpa using hl) hv
    · simpa [hu] using hv
  status c hc := by
    rw [leave_conns] at hc
    split_ifs at hc with hd
    · simp [hd.2.2]
    · exact hc
  up c hc := by
    rw [leave_conns] at hc
    split_ifs at hc with hd
    exact hc
  kept c hc hu := by
    rw [leave_conns] at hc
    split_ifs at hc with hd
    rw [leave_taps]
    by_cases ht : (h.conns c).tap = t
    · subst ht
      have hl : (h.taps (h.conns c).tap).lastViewer v = false := by
        by_contra hl
        exact hd ⟨by simpa using hl, hu, hc⟩
      simp [hl, hu]
    · simpa [ht] using hu

theorem foldl_keeps {α : Type} (f : Hub → α → Hub) (hf : ∀ h x, Keeps h (f h x)) (xs : List α)
    (h : Hub) : Keeps h (xs.foldl f h) := by
  induction xs generalizing h with
  | nil => exact Keeps.of_taps (Settles.refl h) rfl rfl
  | cons x xs ih => exact (hf h x).trans (ih _)

theorem dispose_keeps (h : Hub) (v : ℕ) : Keeps h (h.dispose v) :=
  (Keeps.of_taps (closeViewer_settles h v) rfl rfl).trans
    (foldl_keeps _ (fun g p => leave_keeps g (Prod.snd p) v) _ _)

theorem shutdown_keeps (h : Hub) : Keeps h h.shutdown := by
  refine foldl_keeps _ (fun g t => ?_) _ h
  split_ifs
  · exact dropUpstream_keeps g t
  · exact Keeps.of_taps (Settles.refl g) rfl rfl

end ClaudeFleet.AttachHub
