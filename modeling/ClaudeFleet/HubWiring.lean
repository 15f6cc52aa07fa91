import ClaudeFleet.HubSettles

/-! How taps, connections and waiting viewers point at each other in every run of the hub. -/
namespace ClaudeFleet.AttachHub

structure Wired (h : Hub) : Prop where
  fresh : ∀ t, h.nextTap ≤ t → (h.taps t).viewers = []
  refs : ∀ v, ∀ t ∈ (h.viewers v).taps, t < h.nextTap
  live : ∀ s t, h.live s = some t →
    t < h.nextTap ∧ (h.taps t).id = s ∧ (h.taps t).ended = false ∧ (h.taps t).opening ≠ none
  conn : ∀ c < h.nextConn,
    (h.conns c).tap < h.nextTap ∧ (h.conns c).session = (h.taps (h.conns c).tap).id
  once : ∀ c < h.nextConn, ∀ d < h.nextConn, (h.conns c).tap = (h.conns d).tap → c = d
  joining : ∀ v t ch c, (h.viewers v).pc = .joining t ch c →
    c < h.nextConn ∧ (h.conns c).tap = t
  opening : ∀ t c, (h.taps t).opening = some c → c < h.nextConn ∧ (h.conns c).tap = t
  upstream : ∀ t c, (h.taps t).upstream = some c →
    c < h.nextConn ∧ (h.conns c).tap = t ∧ (h.conns c).result = some .ok
  pending : ∀ c < h.nextConn, (h.conns c).result = none →
    ∃ v ch, (h.viewers v).pc = .joining (h.conns c).tap ch c
  manned : ∀ t, (h.taps t).viewers ≠ [] → (h.taps t).ended = false →
    ∃ c < h.nextConn, (h.conns c).tap = t ∧ (h.conns c).result = some .ok

theorem Wired.settles {h g : Hub} (hw : Wired h) (hg : Settles h g) : Wired g where
  fresh t ht := by
    have hnil := hw.fresh t (hg.nextTap ▸ ht)
    exact List.subset_nil.mp (hnil ▸ hg.members t)
  refs v t ht := by
    rw [hg.nextTap]
    rcases hg.refs v t ht with ht | ht
    · exact hw.refs v t ht
    · exact ht
  live s t hl := by
    obtain ⟨hlt, hid, hend, hopen⟩ := hw.live s t (hg.live s t hl)
    refine ⟨hg.nextTap ▸ hlt, (hg.id t).trans hid, ?_, hg.opening t ▸ hopen⟩
    by_contra he
    rcases hg.liveEnded t (by simpa using he) with hend' | hnl
    · simp [hend] at hend'
    · exact hnl s hid hl
  conn c hc := by
    rw [hg.tap, hg.session, hg.id, hg.nextTap]
    exact hw.conn c (hg.nextConn ▸ hc)
  once c hc d hd htap := by
    rw [hg.tap, hg.tap] at htap
    exact hw.once c (hg.nextConn ▸ hc) d (hg.nextConn ▸ hd) htap
  joining v t ch c hpc := by
    rw [hg.tap, hg.nextConn]
    exact hw.joining v t ch c ((hg.joining v t ch c).mp hpc)
  opening t c ho := by
    rw [hg.tap, hg.nextConn]
    exact hw.opening t c (hg.opening t ▸ ho)
  upstream t c hu := by
    rw [hg.tap, hg.nextConn, hg.result]
    exact hw.upstream t c (hg.upstream t c hu)
  pending c hc hr := by
    rw [hg.result] at hr
    obtain ⟨v, ch, hpc⟩ := hw.pending c (hg.nextConn ▸ hc) hr
    refine ⟨v, ch, (hg.joining _ _ _ _).mpr ?_⟩
    rw [hg.tap]
    exact hpc
  manned t hne hend := by
    have hne' : (h.taps t).viewers ≠ [] := fun hnil =>
      hne (List.subset_nil.mp (hnil ▸ hg.members t))
    have hend' : (h.taps t).ended = false := by
      by_contra he
      have := hg.ended t (by simpa using he)
      simp [hend] at this
    obtain ⟨c, hc, htap, hr⟩ := hw.manned t hne' hend'
    exact ⟨c, hg.nextConn.symm ▸ hc, (hg.tap c).trans htap, (hg.result c).trans hr⟩

theorem initial_wired (key : ℕ → String) : Wired (Hub.initial key) where
  fresh _ _ := rfl
  refs v t ht := by simp [Hub.initial, Viewer.taps, Pc.taps] at ht
  live s t hl := by simp [Hub.initial] at hl
  conn c hc := by simp [Hub.initial] at hc
  once c hc := by simp [Hub.initial] at hc
  joining v t ch c hpc := by simp [Hub.initial] at hpc
  opening t c ho := by simp [Hub.initial] at ho
  upstream t c hu := by simp [Hub.initial] at hu
  pending c hc := by simp [Hub.initial] at hc
  manned t hne := by simp [Hub.initial] at hne

section Grow

variable {h : Hub} {v t ch : ℕ} {s : String}

theorem setPc_pc (h : Hub) (v w : ℕ) (p : Pc) :
    ((h.setPc v p).viewers w).pc = if w = v then p else (h.viewers w).pc := by
  by_cases hw : w = v <;> simp [Hub.setPc, Hub.setViewer, hw]

/-- A viewer starts to wait for the open attempt of a tap. -/
theorem Wired.wait (hw : Wired h) {c : ℕ} (hold : ∀ t ch c, (h.viewers v).pc ≠ .joining t ch c)
    (hc : c < h.nextConn) (htap : (h.conns c).tap = t) :
    Wired (h.setPc v (.joining t ch c)) :=
  { hw with
    refs := by
      intro w u hu
      by_cases hwv : w = v
      · subst hwv
        simp only [Hub.setPc, Hub.setViewer, Function.update_self, Viewer.taps, Pc.taps,
          List.mem_append, List.mem_singleton] at hu
        rcases hu with hu | rfl
        · exact hw.refs w u (List.mem_append_left _ hu)
        · exact htap ▸ (hw.conn c hc).1
      · exact hw.refs w u (by simpa [Hub.setPc, Hub.setViewer, hwv] using hu)
    joining := by
      intro w u k d hpc
      rw [setPc_pc] at hpc
      split_ifs at hpc with hwv
      · cases hpc
        exact ⟨hc, htap⟩
      · exact hw.joining w u k d hpc
    pending := by
      intro d hd hr
      obtain ⟨w, k, hpc⟩ := hw.pending d hd hr
      have hwv : w ≠ v := fun hx => hold _ _ _ (hx ▸ hpc)
      exact ⟨w, k, by rw [setPc_pc, if_neg hwv]; exact hpc⟩ }

theorem register_taps (h : Hub) (v t ch u : ℕ) :
    (h.register v t ch).taps u = if u = t then (h.taps t).withViewer v ch else h.taps u := by
  simp [Hub.register, Hub.setViewer, Hub.setTap, Function.update_apply]

theorem register_pc (h : Hub) (v t ch w : ℕ) :
    ((h.register v t ch).viewers w).pc = if w = v then .attaching t ch .ok else (h.viewers w).pc := by
  by_cases hw : w = v <;> simp [Hub.register, Hub.setViewer, Hub.setTap, hw]

@[simp] theorem withViewer_id (x : Tap) (v ch : ℕ) : (x.withViewer v ch).id = x.id := by
  unfold Tap.withViewer
  split_ifs <;> rfl

@[simp] theorem withViewer_upstream (x : Tap) (v ch : ℕ) :
    (x.withViewer v ch).upstream = x.upstream := by
  unfold Tap.withViewer
  split_ifs <;> rfl

@[simp] theorem withViewer_opening (x : Tap) (v ch : ℕ) :
    (x.withViewer v ch).opening = x.opening := by
  unfold Tap.withViewer
  split_ifs <;> rfl

@[simp] theorem withViewer_ended (x : Tap) (v ch : ℕ) : (x.withViewer v ch).ended = x.ended := by
  unfold Tap.withViewer
  split_ifs <;> rfl

theorem Wired.register (hw : Wired h) (ht : t < h.nextTap)
    (hv : ∀ u k c, (h.viewers v).pc = .joining u k c → (h.conns c).result ≠ none)
    (hman : (h.taps t).ended = false →
      ∃ c < h.nextConn, (h.conns c).tap = t ∧ (h.conns c).result = some .ok) :
    Wired (h.register v t ch) where
  fresh u hu := by
    have hut : u ≠ t := by
      rintro rfl
      exact absurd ht (not_lt.mpr hu)
    rw [register_taps, if_neg hut]
    exact hw.fresh u hu
  refs w u hu := by
    by_cases hwv : w = v
    · subst hwv
      simp only [Hub.register, Hub.setViewer, Function.update_self, Viewer.taps,
        Viewer.send_channels, Pc.taps, List.mem_append, List.mem_singleton] at hu
      rcases hu with hu | rfl
      · exact hw.refs w u (List.mem_append_left _ hu)
      · exact ht
    · exact hw.refs w u (by simpa [Hub.register, Hub.setTap, Hub.setViewer, hwv] using hu)
  live s u hl := by
    obtain ⟨hlt, hid, hend, hopen⟩ := hw.live s u hl
    rw [register_taps]
    split_ifs with hut
    · subst hut
      exact ⟨hlt, by simpa using hid, by simpa using hend, by simpa using hopen⟩
    · exact ⟨hlt, hid, hend, hopen⟩
  conn c hc := by
    obtain ⟨hlt, hs⟩ := hw.conn c hc
    refine ⟨hlt, ?_⟩
    rw [register_taps]
    split_ifs with hut
    · rw [withViewer_id, ← hut]
      exact hs
    · exact hs
  once := hw.once
  joining w u k c hpc := by
    rw [register_pc] at hpc
    split_ifs at hpc
    exact hw.joining w u k c hpc
  opening u c ho := by
    rw [register_taps] at ho
    split_ifs at ho with hut
    · exact hw.opening u c (by simpa [hut] using ho)
    · exact hw.opening u c ho
  upstream u c hu := by
    rw [register_taps] at hu
    split_ifs at hu with hut
    · exact hw.upstream u c (by simpa [hut] using hu)
    · exact hw.upstream u c hu
  pending c hc hr := by
    obtain ⟨w, k, hpc⟩ := hw.pending c hc hr
    have hwv : w ≠ v := by
      rintro rfl
      exact hv _ _ _ hpc hr
    exact ⟨w, k, by rw [register_pc, if_neg hwv]; exact hpc⟩
  manned u hne hend := by
    rw [register_taps] at hne hend
    split_ifs at hne hend with hut
    · obtain ⟨c, hc, htap, hr⟩ := hman (by simpa using hend)
      exact ⟨c, hc, htap.trans hut.symm, hr⟩
    · exact hw.manned u hne hend

/-- The hub after an ATTACH that finds no live tap: a new tap with a new connection. -/
theorem openNew_taps (hl : h.live s = none) (u : ℕ) :
    (((h.tap s).1.openTap h.nextTap).setPc v (.joining h.nextTap ch h.nextConn)).taps u =
      if u = h.nextTap then { id := s, opening := some h.nextConn } else h.taps u := by
  by_cases hu : u = h.nextTap <;>
    simp [Hub.tap, hl, Hub.openTap, Hub.setPc, Hub.setViewer, Hub.setTap, Hub.setConn, hu]

theorem openNew_conns (hl : h.live s = none) (c : ℕ) :
    (((h.tap s).1.openTap h.nextTap).setPc v (.joining h.nextTap ch h.nextConn)).conns c =
      if c = h.nextConn then { session := s, tap := h.nextTap } else h.conns c := by
  by_cases hc : c = h.nextConn <;>
    simp [Hub.tap, hl, Hub.openTap, Hub.setPc, Hub.setViewer, Hub.setTap, Hub.setConn, hc]

theorem openNew_viewers (hl : h.live s = none) :
    (((h.tap s).1.openTap h.nextTap).setPc v (.joining h.nextTap ch h.nextConn)).viewers =
      (h.setPc v (.joining h.nextTap ch h.nextConn)).viewers := by
  simp [Hub.tap, hl, Hub.openTap, Hub.setPc, Hub.setViewer, Hub.setTap, Hub.setConn]

theorem openNew_live (hl : h.live s = none) (r : String) :
    (((h.tap s).1.openTap h.nextTap).setPc v (.joining h.nextTap ch h.nextConn)).live r =
      if r = s then some h.nextTap else h.live r := by
  simp [Hub.tap, hl, Hub.openTap, Hub.setPc, Hub.setViewer, Hub.setTap, Hub.setConn,
    Function.update_apply]

theorem openNew_nextTap (hl : h.live s = none) :
    (((h.tap s).1.openTap h.nextTap).setPc v (.joining h.nextTap ch h.nextConn)).nextTap =
      h.nextTap + 1 := by
  simp [Hub.tap, hl, Hub.openTap, Hub.setPc, Hub.setViewer, Hub.setTap, Hub.setConn]

theorem openNew_nextConn (hl : h.live s = none) :
    (((h.tap s).1.openTap h.nextTap).setPc v (.joining h.nextTap ch h.nextConn)).nextConn =
      h.nextConn + 1 := by
  simp [Hub.tap, hl, Hub.openTap, Hub.setPc, Hub.setViewer, Hub.setTap, Hub.setConn]

theorem Wired.openNew (hw : Wired h) (hl : h.live s = none)
    (hold : ∀ t ch c, (h.viewers v).pc ≠ .joining t ch c) :
    Wired (((h.tap s).1.openTap h.nextTap).setPc v (.joining h.nextTap ch h.nextConn)) where
  fresh u hu := by
    rw [openNew_nextTap hl] at hu
    rw [openNew_taps hl, if_neg (by omega)]
    exact hw.fresh u (by omega)
  refs w u hu := by
    rw [openNew_viewers hl] at hu
    rw [openNew_nextTap hl]
    by_cases hwv : w = v
    · subst hwv
      simp only [Hub.setPc, Hub.setViewer, Function.update_self, Viewer.taps, Pc.taps,
        List.mem_append, List.mem_singleton] at hu
      rcases hu with hu | rfl
      · have := hw.refs w u (List.mem_append_left _ hu)
        omega
      · omega
    · have := hw.refs w u (by simpa [Hub.setPc, Hub.setViewer, hwv] using hu)
      omega
  live r u hr := by
    rw [openNew_live hl] at hr
    rw [openNew_nextTap hl, openNew_taps hl]
    split_ifs at hr with hrs
    · cases hr
      simp [hrs]
    · obtain ⟨hlt, hrest⟩ := hw.live r u hr
      rw [if_neg (by omega)]
      exact ⟨by omega, hrest⟩
  conn c hc := by
    rw [openNew_nextConn hl] at hc
    rw [openNew_nextTap hl, openNew_conns hl, openNew_taps hl]
    split_ifs with hcn hcn'
    · simp
    · simp at hcn'
    · have := (hw.conn c (by omega)).1
      omega
    · obtain ⟨hlt, hid⟩ := hw.conn c (by omega)
      exact ⟨by omega, hid⟩
  once c hc d hd htap := by
    rw [openNew_nextConn hl] at hc hd
    rw [openNew_conns hl, openNew_conns hl] at htap
    split_ifs at htap with hcn hdn hdn
    · omega
    · have := (hw.conn d (by omega)).1
      simp only at htap
      omega
    · have := (hw.conn c (by omega)).1
      simp only at htap
      omega
    · exact hw.once c (by omega) d (by omega) htap
  joining w u k c hpc := by
    rw [openNew_viewers hl, setPc_pc] at hpc
    rw [openNew_nextConn hl, openNew_conns hl]
    split_ifs at hpc with hwv
    · cases hpc
      simp
    · obtain ⟨hc, htap⟩ := hw.joining w u k c hpc
      rw [if_neg (by omega)]
      exact ⟨by omega, htap⟩
  opening u c ho := by
    rw [openNew_taps hl] at ho
    rw [openNew_nextConn hl, openNew_conns hl]
    split_ifs at ho with hu
    · cases ho
      simp [hu]
    · obtain ⟨hc, htap⟩ := hw.opening u c ho
      rw [if_neg (by omega)]
      exact ⟨by omega, htap⟩
  upstream u c hu := by
    rw [openNew_taps hl] at hu
    rw [openNew_nextConn hl, openNew_conns hl]
    split_ifs at hu
    obtain ⟨hc, hrest⟩ := hw.upstream u c hu
    rw [if_neg (by omega)]
    exact ⟨by omega, hrest⟩
  pending c hc hr := by
    rw [openNew_nextConn hl] at hc
    rw [openNew_conns hl] at hr ⊢
    rw [openNew_viewers hl]
    split_ifs at hr ⊢ with hcn
    · exact ⟨v, ch, by rw [setPc_pc, if_pos rfl, hcn]⟩
    · obtain ⟨w, k, hpc⟩ := hw.pending c (by omega) hr
      have hwv : w ≠ v := fun hx => hold _ _ _ (hx ▸ hpc)
      exact ⟨w, k, by rw [setPc_pc, if_neg hwv]; exact hpc⟩
  manned u hne hend := by
    rw [openNew_taps hl] at hne hend
    split_ifs at hne hend
    · simp at hne
    · obtain ⟨c, hc, htap, hr⟩ := hw.manned u hne hend
      refine ⟨c, by rw [openNew_nextConn hl]; omega, ?_, ?_⟩
      · rw [openNew_conns hl, if_neg (by omega)]
        exact htap
      · rw [openNew_conns hl, if_neg (by omega)]
        exact hr

theorem joinRefused_taps (h : Hub) (v t ch : ℕ) (error : String) (u : ℕ) :
    (h.joinResume v t ch (.refused error)).taps u =
      if u = t then { h.taps t with opening := none } else h.taps u := by
  simp only [Hub.joinResume, Hub.setPc, Hub.setViewer]
  split_ifs with hnil hu hu <;> simp [Hub.retire, Hub.setTap, hu]

theorem joinRefused_pc (h : Hub) (v t ch : ℕ) (error : String) (w : ℕ) :
    ((h.joinResume v t ch (.refused error)).viewers w).pc =
      if w = v then .attaching t ch (.refused error) else (h.viewers w).pc := by
  simp only [Hub.joinResume, setPc_pc]
  split_ifs <;> rfl

theorem joinRefused_viewer (h : Hub) (v t ch : ℕ) (error : String) :
    (h.joinResume v t ch (.refused error)).viewers =
      (h.setPc v (.attaching t ch (.refused error))).viewers := by
  simp only [Hub.joinResume]
  split_ifs <;> rfl

theorem joinRefused_conns (h : Hub) (v t ch : ℕ) (error : String) :
    (h.joinResume v t ch (.refused error)).conns = h.conns ∧
      (h.joinResume v t ch (.refused error)).nextConn = h.nextConn ∧
        (h.joinResume v t ch (.refused error)).nextTap = h.nextTap := by
  simp only [Hub.joinResume]
  split_ifs <;> exact ⟨rfl, rfl, rfl⟩

/-- Nobody is in a live tap whose open attempt failed, so the tap is retired. -/
theorem Wired.joinRefused_live (hw : Wired h) {c : ℕ} {error : String}
    (hpc : (h.viewers v).pc = .joining t ch c)
    (hr : (h.conns c).result = some (.refused error)) {u : ℕ}
    (hl : (h.joinResume v t ch (.refused error)).live s = some u) :
    h.live s = some u ∧ u ≠ t := by
  obtain ⟨hc, htap⟩ := hw.joining v t ch c hpc
  simp only [Hub.joinResume, Hub.setPc, Hub.setViewer] at hl
  split_ifs at hl with hnil
  · simp only [Hub.retire, Hub.setTap, Function.update_self] at hl
    split_ifs at hl with hlive
    refine ⟨hl, ?_⟩
    rintro rfl
    exact hlive ⟨hl, (hw.live s u hl).2.1⟩
  · have hl' : h.live s = some u := hl
    refine ⟨hl', ?_⟩
    rintro rfl
    obtain ⟨d, hd, hdt, hdr⟩ := hw.manned u hnil (hw.live s u hl').2.2.1
    have hdc := hw.once d hd c hc (hdt.trans htap.symm)
    rw [hdc, hr] at hdr
    cases hdr

theorem Wired.joinRefused (hw : Wired h) {c : ℕ} {error : String}
    (hpc : (h.viewers v).pc = .joining t ch c)
    (hr : (h.conns c).result = some (.refused error)) :
    Wired (h.joinResume v t ch (.refused error)) := by
  obtain ⟨hconns, hnc, hnt⟩ := joinRefused_conns h v t ch error
  obtain ⟨hc, htap⟩ := hw.joining v t ch c hpc
  have ht : t < h.nextTap := htap ▸ (hw.conn c hc).1
  refine ⟨?_, ?_, ?_, ?_, ?_, ?_, ?_, ?_, ?_, ?_⟩
  · intro u hu
    rw [joinRefused_taps]
    rw [hnt] at hu
    rw [if_neg (by omega)]
    exact hw.fresh u hu
  · intro w u hu
    rw [hnt]
    rw [joinRefused_viewer] at hu
    by_cases hwv : w = v
    · subst hwv
      simp only [Hub.setPc, Hub.setViewer, Function.update_self, Viewer.taps, Pc.taps,
        List.mem_append, List.mem_singleton] at hu
      rcases hu with hu | rfl
      · exact hw.refs w u (List.mem_append_left _ hu)
      · exact ht
    · exact hw.refs w u (by simpa [Hub.setPc, Hub.setViewer, hwv] using hu)
  · intro r u hl
    obtain ⟨hl, hut⟩ := hw.joinRefused_live hpc hr hl
    rw [hnt, joinRefused_taps, if_neg hut]
    exact hw.live r u hl
  · intro d hd
    obtain ⟨hlt, hid⟩ := hw.conn d (hnc ▸ hd)
    rw [hconns, hnt, joinRefused_taps]
    refine ⟨hlt, ?_⟩
    split_ifs with hdt
    · rw [← hdt]
      exact hid
    · exact hid
  · rw [hconns, hnc]
    exact hw.once
  · intro w u k d hj
    rw [joinRefused_pc] at hj
    rw [hconns, hnc]
    split_ifs at hj
    exact hw.joining w u k d hj
  · intro u d ho
    rw [joinRefused_taps] at ho
    rw [hconns, hnc]
    split_ifs at ho
    exact hw.opening u d ho
  · intro u d hu
    rw [joinRefused_taps] at hu
    rw [hconns, hnc]
    split_ifs at hu with hut
    · exact hw.upstream u d (hut ▸ hu)
    · exact hw.upstream u d hu
  · intro d hd hrd
    rw [hconns] at hrd ⊢
    obtain ⟨w, k, hj⟩ := hw.pending d (hnc ▸ hd) hrd
    have hwv : w ≠ v := by
      rintro rfl
      rw [hpc] at hj
      cases hj
      rw [hr] at hrd
      cases hrd
    exact ⟨w, k, by rw [joinRefused_pc, if_neg hwv]; exact hj⟩
  · intro u hne hend
    rw [joinRefused_taps] at hne hend
    rw [hconns, hnc]
    split_ifs at hne hend with hut
    · exact hw.manned u (hut ▸ hne) (hut ▸ hend)
    · exact hw.manned u hne hend

/-- The open attempt on connection `c` returns. -/
theorem setConn_result (h : Hub) (c d : ℕ) (r : JoinResult) (st : ConnStatus) :
    ((h.setConn c { h.conns c with result := some r, status := st }).conns d).tap =
        (h.conns d).tap ∧
      ((h.setConn c { h.conns c with result := some r, status := st }).conns d).session =
        (h.conns d).session ∧
      ((h.setConn c { h.conns c with result := some r, status := st }).conns d).result =
        if d = c then some r else (h.conns d).result := by
  by_cases hd : d = c <;> simp [Hub.setConn, hd]

theorem Wired.result (hw : Wired h) {c : ℕ} (hc : c < h.nextConn)
    (hr : (h.conns c).result = none) (r : JoinResult) (st : ConnStatus) :
    Wired (h.setConn c { h.conns c with result := some r, status := st }) :=
  { hw with
    conn := fun d hd => by
      obtain ⟨htap, hsession, -⟩ := setConn_result h c d r st
      rw [htap, hsession]
      exact hw.conn d hd
    once := fun d hd e he htap => by
      rw [(setConn_result h c d r st).1, (setConn_result h c e r st).1] at htap
      exact hw.once d hd e he htap
    joining := fun w u k d hj => by
      rw [(setConn_result h c d r st).1]
      exact hw.joining w u k d hj
    opening := fun u d ho => by
      rw [(setConn_result h c d r st).1]
      exact hw.opening u d ho
    upstream := fun u d hu => by
      obtain ⟨hd, htap, hok⟩ := hw.upstream u d hu
      have hdc : d ≠ c := by
        rintro rfl
        rw [hr] at hok
        cases hok
      obtain ⟨htap', -, hres⟩ := setConn_result h c d r st
      rw [if_neg hdc] at hres
      exact ⟨hd, htap'.trans htap, hres.trans hok⟩
    pending := fun d hd hrd => by
      rw [(setConn_result h c d r st).2.2] at hrd
      rw [(setConn_result h c d r st).1]
      split_ifs at hrd
      exact hw.pending d hd hrd
    manned := fun u hne hend => by
      obtain ⟨d, hd, htap, hok⟩ := hw.manned u hne hend
      have hdc : d ≠ c := by
        rintro rfl
        rw [hr] at hok
        cases hok
      obtain ⟨htap', -, hres⟩ := setConn_result h c d r st
      rw [if_neg hdc] at hres
      exact ⟨d, hd, htap'.trans htap, hres.trans hok⟩ }

theorem Wired.setUpstream (hw : Wired h) {c : ℕ} (hc : c < h.nextConn)
    (hr : (h.conns c).result = some .ok) (htap : (h.conns c).tap = t) :
    Wired (h.setTap t { h.taps t with upstream := some c }) := by
  have hx (u : ℕ) : (h.setTap t { h.taps t with upstream := some c }).taps u =
      if u = t then { h.taps t with upstream := some c } else h.taps u := by
    simp [Hub.setTap, Function.update_apply]
  exact
    { hw with
      fresh := fun u hu => by
        rw [hx]
        split_ifs with hut
        · exact hut ▸ hw.fresh u hu
        · exact hw.fresh u hu
      live := fun r u hl => by
        rw [hx]
        split_ifs with hut
        · exact hut ▸ hw.live r u hl
        · exact hw.live r u hl
      conn := fun d hd => by
        rw [hx]
        split_ifs with hut
        · exact hut ▸ hw.conn d hd
        · exact hw.conn d hd
      opening := fun u d ho => by
        rw [hx] at ho
        split_ifs at ho with hut
        · exact hw.opening u d (hut ▸ ho)
        · exact hw.opening u d ho
      upstream := fun u d hu => by
        rw [hx] at hu
        split_ifs at hu with hut
        · cases hu
          exact ⟨hc, htap.trans hut.symm, hr⟩
        · exact hw.upstream u d hu
      manned := fun u hne hend => by
        rw [hx] at hne hend
        split_ifs at hne hend with hut
        · exact hw.manned u (hut ▸ hne) (hut ▸ hend)
        · exact hw.manned u hne hend }

end Grow

theorem ready_not_joining {h : Hub} {v : ℕ} (hr : h.ready v) (t ch c : ℕ) :
    (h.viewers v).pc ≠ .joining t ch c := by
  rw [hr.1]
  exact Pc.noConfusion

theorem attached_settles {h : Hub} {v t ch : ℕ} (hw : Wired h)
    (hpc : (h.viewers v).pc = .attaching t ch .ok) (hc : (h.viewers v).closed = false) :
    Settles h (h.attachResume v t ch .ok) := by
  have ht : t < h.nextTap := hw.refs v t (by simp [Viewer.taps, hpc, Pc.taps])
  rw [attached_viewer hc]
  apply setViewer_settles
  · intro u k c
    simp [hpc]
  · intro u hu
    simp only [Viewer.taps, Pc.taps, List.append_nil, List.map_append, List.map_cons,
      List.map_nil, List.mem_append, List.mem_singleton] at hu
    rcases hu with hu | rfl
    · exact Or.inl (List.mem_append_left _ hu)
    · exact Or.inr ht

theorem lookup_mem_taps {x : Viewer} {ch t : ℕ} (hl : x.channels.lookup ch = some t) :
    t ∈ x.taps := by
  obtain ⟨l, r, happ, -⟩ := List.lookup_eq_some_iff.mp hl
  simp [Viewer.taps, happ]

/-- What a step does to taps and connections. -/
inductive Change (h : Hub) : Action → Hub → Prop
  | keeps {a g} (hk : Keeps h g) : Change h a g
  | wait {a v t ch c} (hv : ∀ t ch c, (h.viewers v).pc ≠ .joining t ch c) (hc : c < h.nextConn)
      (htap : (h.conns c).tap = t) : Change h a (h.setPc v (.joining t ch c))
  | openNew {v id ch} (hr : h.ready v) (hok : validSessionId id = true ∧ isChannel ch = true)
      (hch : h.hasChannel v ch = false) (hid : h.readsSession v id = false)
      (hl : h.live id = none) :
      Change h (.attach v id ch)
        (((h.tap id).1.openTap h.nextTap).setPc v (.joining h.nextTap ch h.nextConn))
  | register {a v t ch} (ht : t < h.nextTap)
      (hv : ∀ u k c, (h.viewers v).pc = .joining u k c → u = t ∧ (h.conns c).result ≠ none)
      (hman : (h.taps t).ended = false →
        ∃ c < h.nextConn, (h.conns c).tap = t ∧ (h.conns c).result = some .ok) :
      Change h a (h.register v t ch)
  | joinRefused {a v t ch c error} (hpc : (h.viewers v).pc = .joining t ch c)
      (hr : (h.conns c).result = some (.refused error)) :
      Change h a (h.joinResume v t ch (.refused error))
  | openOk {a c} (hc : c < h.nextConn) (hr : (h.conns c).result = none) :
      Change h a
        ((h.setConn c { h.conns c with result := some .ok }).setTap (h.conns c).tap
          { h.taps (h.conns c).tap with upstream := some c })
  | openFail {a c error} (hc : c < h.nextConn) (hr : (h.conns c).result = none) :
      Change h a
        (h.setConn c { h.conns c with result := some (.refused error), status := .closed })
  | ended {c} (hc : c < h.nextConn) : Change h (.ended c) (h.endTap (h.conns c).tap .exit)
  | gone {a c} (hc : c < h.nextConn) :
      Change h a
        ((h.setConn c { h.conns c with status := .closed }).endTap (h.conns c).tap .brokerGone)
  | closeEnd {a t g k} (hg : Keeps h g) (hu : (g.taps t).upstream = none)
      (hk : Keeps (g.endTap t .closed) k) : Change h a k
  | closeReply {v t ch c g} (hpc : (h.viewers v).pc = .closing t ch c)
      (hg : Keeps (h.endTap t .closed) g) : Change h (.closeReply v true) g

theorem setPc_keeps {h : Hub} {v : ℕ} {p : Pc}
    (hold : ∀ t ch c, (h.viewers v).pc ≠ .joining t ch c)
    (hnew : ∀ t ch c, p ≠ .joining t ch c) (hrefs : ∀ t ∈ p.taps, t < h.nextTap) :
    Keeps h (h.setPc v p) :=
  Keeps.of_taps (setPc_settles hold hnew hrefs) rfl rfl

theorem step_change {h g : Hub} {a : Action} (hw : Wired h) (hs : step h a = some g) :
    Change h a g := by
  have inert {b : Hub} (hpc : b.viewers = h.viewers) (htaps : b.taps = h.taps)
      (hlive : b.live = h.live) (hconns : b.conns = h.conns) (hnt : b.nextTap = h.nextTap)
      (hnc : b.nextConn = h.nextConn) : Change h a b := by
    have hset : Settles h b := Settles.of_viewers htaps hlive hconns hnt hnc
      (fun _ _ _ _ => by rw [hpc]) fun _ _ ht => Or.inl (by rwa [hpc] at ht)
    exact .keeps (Keeps.of_taps hset htaps hconns)
  have finish {v : ℕ} (frames : List Frame)
      (hold : ∀ t ch c, (h.viewers v).pc ≠ .joining t ch c) : Change h a (h.finish v frames) :=
    .keeps (Keeps.of_taps (finish_settles frames hold) rfl rfl)
  have dropChannel (v ch : ℕ) : Keeps h (h.dropChannel v ch) :=
    Keeps.of_taps (dropChannel_settles h v ch) rfl rfl
  cases step_sound hs with
  | reply hpc => exact finish _ hpc.not_joining
  | wait hr _ _ _ _ ho =>
    obtain ⟨hc, htap⟩ := hw.opening _ _ ho
    exact .wait (ready_not_joining hr) hc htap
  | reopen _ hl ho => exact absurd ho (hw.live _ _ hl).2.2.2
  | openNew hr hok hch hid hl => exact .openNew hr hok hch hid hl
  | registerNow hr _ _ hl hu =>
    refine .register (hw.live _ _ hl).1 (fun u k c hj => absurd hj (ready_not_joining hr u k c)) ?_
    intro hend
    rcases hu with hu | hu
    · obtain ⟨c, hc⟩ := Option.ne_none_iff_exists'.mp hu
      exact ⟨c, hw.upstream _ c hc⟩
    · rw [hend] at hu
      cases hu
  | joinOk hpc hr =>
    obtain ⟨hc, htap⟩ := hw.joining _ _ _ _ hpc
    refine .register (htap ▸ (hw.conn _ hc).1) ?_ fun _ => ⟨_, hc, htap, hr⟩
    intro u k d hj
    rw [hpc] at hj
    cases hj
    exact ⟨rfl, by rw [hr]; exact Option.some_ne_none _⟩
  | joinRefused hpc hr => exact .joinRefused hpc hr
  | attachedClosed hpc =>
    refine .keeps ((leave_keeps _ _ _).trans (setPc_keeps ?_ ?_ ?_))
    · simp [hpc]
    · simp
    · simp [Pc.taps]
  | attached hpc hc =>
    refine .keeps (Keeps.of_taps (attached_settles hw hpc hc) ?_ ?_)
    · rw [attached_viewer hc]
      rfl
    · rw [attached_viewer hc]
      rfl
  | detach hr hl =>
    refine .keeps (((dropChannel _ _).trans (leave_keeps _ _ _)).trans (setPc_keeps ?_ ?_ ?_))
    · simp [Hub.dropChannel, Hub.setViewer, Viewer.withoutChannel, hr.1]
    · simp
    · simp [Pc.taps]
  | @closeAsk v ch t _ hr hl _ =>
    have ht : t < h.nextTap := hw.refs v t (lookup_mem_taps (ownedTap_eq_some.mp hl).1)
    refine .keeps ((dropChannel v ch).trans (setPc_keeps ?_ ?_ ?_))
    · simp [Hub.dropChannel, Hub.setViewer, Viewer.withoutChannel, hr.1]
    · simp
    · simpa [Pc.taps, (dropChannel v ch).nextTap] using ht
  | @closeEnd v ch t hr hl hu =>
    have ht : t < h.nextTap := hw.refs v t (lookup_mem_taps (ownedTap_eq_some.mp hl).1)
    have hend := (dropChannel_settles h v ch).trans (endTap_settles _ t .closed)
    refine .closeEnd (dropChannel v ch) hu (setPc_keeps ?_ ?_ ?_)
    · simp [endTap_pc, Hub.dropChannel, Hub.setViewer, Viewer.withoutChannel, hr.1]
    · simp
    · simpa [Pc.taps, hend.nextTap] using ht
  | @closeReply v t _ _ hpc =>
    have ht : t < h.nextTap := hw.refs v t (List.mem_append_right _ (by rw [hpc]; simp [Pc.taps]))
    refine .closeReply hpc (setPc_keeps ?_ ?_ ?_)
    · simp [endTap_pc, hpc]
    · simp
    · simpa [Pc.taps, (endTap_settles h t .closed).nextTap] using ht
  | @closeResume v t ch hpc =>
    have hset := (dropOwner_settles h (h.taps t).id).trans
      (finish_settles [.closed ch] (v := v) (by simp [Hub.dropOwner, hpc]))
    exact .keeps (Keeps.of_taps hset rfl rfl)
  | create hr => exact .keeps (setPc_keeps (ready_not_joining hr) (by simp) (by simp [Pc.taps]))
  | created hpc => exact .keeps (Keeps.of_taps (created_settles hpc _) rfl rfl)
  | createFail hpc => exact finish _ (by simp [hpc])
  | dispose => exact .keeps (dispose_keeps h _)
  | @accept c =>
    refine .keeps (Keeps.of_settles (setConn_settles rfl rfl rfl) (fun _ => ⟨rfl, rfl⟩) fun d => ?_)
    by_cases hd : d = c <;> simp [Hub.setConn, hd]
  | openOk hc hr => exact .openOk hc hr
  | openFail hc hr => exact .openFail hc hr
  | @deliver _ c body frame =>
    refine .keeps (Keeps.of_settles (fanOut_settles h _ body frame) (fun t => ?_) fun _ => Or.inl rfl)
    by_cases ht : t = (h.conns c).tap <;> simp [Hub.fanOut, Hub.broadcast, Hub.setTap, ht]
  | ended hc => exact .ended hc
  | gone hc => exact .gone hc
  | detached => exact .keeps (setStatus_keeps h _)
  | shutdown => exact .keeps (shutdown_keeps h)
  | @brokerCreate v id hpc =>
    have hbroker : Settles h
        { h with broker := (h.broker.create id (some (h.viewers v).key)).1 } :=
      Settles.of_viewers rfl rfl rfl rfl rfl (fun _ _ _ _ => Iff.rfl) fun _ _ ht => Or.inl ht
    refine .keeps ((Keeps.of_taps hbroker rfl rfl).trans (setPc_keeps ?_ ?_ ?_))
    · simp [hpc]
    · simp
    · simp [Pc.taps]
  | brokerSpawn => exact inert rfl rfl rfl rfl rfl rfl
  | brokerExit => exact inert rfl rfl rfl rfl rfl rfl
  | brokerClose => exact inert rfl rfl rfl rfl rfl rfl
  | pruneMark => exact inert rfl rfl rfl rfl rfl rfl
  | pruneList => exact inert rfl rfl rfl rfl rfl rfl
  | pruneApply => exact inert rfl rfl rfl rfl rfl rfl

theorem step_wired {h g : Hub} {a : Action} (hw : Wired h) (hs : step h a = some g) :
    Wired g := by
  cases step_change hw hs with
  | keeps hk => exact hw.settles hk.toSettles
  | wait hv hc htap => exact hw.wait hv hc htap
  | openNew hr _ _ _ hl => exact hw.openNew hl (ready_not_joining hr)
  | register ht hv hman => exact hw.register ht (fun u k c hj => (hv u k c hj).2) hman
  | joinRefused hpc hr => exact hw.joinRefused hpc hr
  | @openOk _ c hc hr =>
    have hres := hw.result hc hr .ok (h.conns c).status
    exact hres.setUpstream hc (by simp [Hub.setConn]) (by simp [Hub.setConn])
  | openFail hc hr => exact hw.result hc hr _ _
  | ended => exact hw.settles (endTap_settles _ _ _)
  | gone => exact hw.settles ((setStatus_settles h _ .closed).trans (endTap_settles _ _ _))
  | closeEnd hg _ hk =>
    exact hw.settles ((hg.toSettles.trans (endTap_settles _ _ _)).trans hk.toSettles)
  | closeReply _ hg => exact hw.settles ((endTap_settles _ _ _).trans hg.toSettles)

end ClaudeFleet.AttachHub
