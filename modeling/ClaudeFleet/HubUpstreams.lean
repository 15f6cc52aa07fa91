import ClaudeFleet.HubWiring

/-! Which broker connections are open, and whose upstream they are. A tap is retired before its
connection is closed, and an ended tap forgets its connection: away from these two, a session has
at most one connection and an open one is the upstream of its tap. -/
namespace ClaudeFleet.AttachHub

open Transition

theorem endTap_taps (h : Hub) (t : ℕ) (reason : EndReason) (u : ℕ) :
    (h.endTap t reason).taps u =
      if u = t ∧ (h.taps t).ended = false then { h.taps t with ended := true, upstream := none }
      else h.taps u := by
  simp only [Hub.endTap]
  by_cases he : (h.taps t).ended = true
  · simp [he]
  · by_cases hu : u = t
    · subst hu
      split_ifs <;> simp_all [Hub.broadcast, Hub.dropOwner, Hub.retire, Hub.setTap]
    · split_ifs <;> simp_all [Hub.broadcast, Hub.dropOwner, Hub.retire, Hub.setTap]

@[simp] theorem endTap_conns (h : Hub) (t : ℕ) (reason : EndReason) :
    (h.endTap t reason).conns = h.conns := by
  simp only [Hub.endTap]
  split_ifs <;> rfl

@[simp] theorem endTap_nextConn (h : Hub) (t : ℕ) (reason : EndReason) :
    (h.endTap t reason).nextConn = h.nextConn := by
  simp only [Hub.endTap]
  split_ifs <;> rfl

/-- An upstream serves a viewer or one that is about to join, and an open connection is an
upstream until its tap ends. -/
structure Attended (h : Hub) : Prop where
  manned : ∀ t, (h.taps t).upstream ≠ none →
    (h.taps t).viewers ≠ [] ∨ ∃ v ch c, (h.viewers v).pc = .joining t ch c
  linked : ∀ c < h.nextConn, (h.conns c).status = .up → (h.conns c).result ≠ none →
    (h.taps (h.conns c).tap).ended = true ∨ (h.taps (h.conns c).tap).upstream = some c

theorem initial_attended (key : ℕ → String) : Attended (Hub.initial key) where
  manned t hu := by simp [Hub.initial] at hu
  linked c hc := by simp [Hub.initial] at hc

theorem Attended.keeps {h g : Hub} (ha : Attended h) (hk : Keeps h g) : Attended g where
  manned t hu := by
    obtain ⟨c, hc⟩ := Option.ne_none_iff_exists'.mp hu
    rcases ha.manned t (by simp [hk.upstream t c hc]) with hv | ⟨v, ch, d, hpc⟩
    · exact Or.inl (hk.view t hu hv)
    · exact Or.inr ⟨v, ch, d, (hk.joining v t ch d).mpr hpc⟩
  linked c hc hup hr := by
    rw [hk.result] at hr
    rw [hk.tap]
    rcases ha.linked c (hk.nextConn ▸ hc) (hk.up c hup) hr with hend | hu
    · exact Or.inl (hk.ended _ hend)
    · exact Or.inr (hk.kept c hup hu)

theorem Attended.endTap {h : Hub} (ha : Attended h) (t : ℕ) (reason : EndReason) :
    Attended (h.endTap t reason) where
  manned u hu := by
    rw [endTap_taps] at hu ⊢
    split_ifs at hu ⊢
    · exact absurd rfl hu
    · simp only [endTap_pc]
      exact ha.manned u hu
  linked c hc hup hr := by
    rw [endTap_conns] at hup hr ⊢
    rw [endTap_taps]
    split_ifs
    · exact Or.inl rfl
    · exact ha.linked c (endTap_nextConn h t reason ▸ hc) hup hr

theorem Attended.register {h : Hub} (ha : Attended h) {v t ch : ℕ}
    (hv : ∀ u k c, (h.viewers v).pc = .joining u k c → u = t) : Attended (h.register v t ch) where
  manned u hu := by
    rw [register_taps] at hu ⊢
    split_ifs at hu ⊢ with hut
    · left
      unfold Tap.withViewer
      split_ifs with hmem
      · simp only [ne_eq, List.map_eq_nil_iff]
        rintro hnil
        simp [hnil] at hmem
      · simp
    · rcases ha.manned u hu with hne | ⟨w, k, c, hpc⟩
      · exact Or.inl hne
      · have hw : w ≠ v := by
          rintro rfl
          exact hut (hv u k c hpc)
        exact Or.inr ⟨w, k, c, by rw [register_pc, if_neg hw]; exact hpc⟩
  linked c hc hup hr := by
    have hold := ha.linked c hc hup hr
    rw [register_taps]
    change (if (h.conns c).tap = t then _ else _ : Tap).ended = true ∨
      (if (h.conns c).tap = t then _ else _ : Tap).upstream = some c
    split_ifs with ht
    · simpa [ht] using hold
    · exact hold

theorem Attended.joinRefused {h : Hub} (ha : Attended h) (hw : Wired h) {v t ch c : ℕ}
    {error : String} (hpc : (h.viewers v).pc = .joining t ch c)
    (hr : (h.conns c).result = some (.refused error)) :
    Attended (h.joinResume v t ch (.refused error)) where
  manned u hu := by
    rw [joinRefused_taps] at hu ⊢
    split_ifs at hu ⊢ with hut
    · obtain ⟨d, hd⟩ := Option.ne_none_iff_exists'.mp hu
      obtain ⟨hdc, htap, hok⟩ := hw.upstream t d hd
      obtain ⟨hc, hct⟩ := hw.joining v t ch c hpc
      have := hw.once d hdc c hc (htap.trans hct.symm)
      rw [this, hr] at hok
      cases hok
    · rcases ha.manned u hu with hne | ⟨w, k, d, hj⟩
      · exact Or.inl hne
      · have hwv : w ≠ v := by
          rintro rfl
          rw [hpc] at hj
          cases hj
          exact hut rfl
        exact Or.inr ⟨w, k, d, by rw [joinRefused_pc, if_neg hwv]; exact hj⟩
  linked d hd hup hres := by
    obtain ⟨hconns, hnc, -⟩ := joinRefused_conns h v t ch error
    rw [hconns] at hup hres ⊢
    rw [joinRefused_taps]
    have hold := ha.linked d (hnc ▸ hd) hup hres
    split_ifs with ht
    · simpa [ht] using hold
    · exact hold

theorem Attended.openNew {h : Hub} (ha : Attended h) (hw : Wired h) {v ch : ℕ} {s : String}
    (hl : h.live s = none) (hv : ∀ t ch c, (h.viewers v).pc ≠ .joining t ch c) :
    Attended (((h.tap s).1.openTap h.nextTap).setPc v (.joining h.nextTap ch h.nextConn)) where
  manned u hu := by
    rw [openNew_taps hl] at hu ⊢
    split_ifs at hu ⊢
    · exact absurd rfl hu
    · rcases ha.manned u hu with hne | ⟨w, k, d, hj⟩
      · exact Or.inl hne
      · have hwv : w ≠ v := fun hx => hv _ _ _ (hx ▸ hj)
        refine Or.inr ⟨w, k, d, ?_⟩
        rw [openNew_viewers hl, setPc_pc, if_neg hwv]
        exact hj
  linked c hc hup hr := by
    rw [openNew_conns hl] at hup hr ⊢
    rw [openNew_taps hl]
    rw [openNew_nextConn hl] at hc
    split_ifs at hup hr ⊢ with hcn ht ht
    · exact absurd rfl hr
    · exact absurd rfl hr
    · have := (hw.conn c (by omega)).1
      omega
    · exact ha.linked c (by omega) hup hr

theorem Attended.openOk {h : Hub} (ha : Attended h) (hw : Wired h) {c : ℕ} (hc : c < h.nextConn)
    (hr : (h.conns c).result = none) :
    Attended ((h.setConn c { h.conns c with result := some .ok }).setTap (h.conns c).tap
      { h.taps (h.conns c).tap with upstream := some c }) where
  manned u hu := by
    by_cases hut : u = (h.conns c).tap
    · obtain ⟨v, ch, hpc⟩ := hw.pending c hc hr
      exact Or.inr ⟨v, ch, c, by rw [hut]; exact hpc⟩
    · simp only [Hub.setTap, Hub.setConn, Function.update_of_ne hut] at hu ⊢
      exact ha.manned u hu
  linked d hd hup hres := by
    by_cases hdc : d = c
    · subst hdc
      simp [Hub.setTap, Hub.setConn]
    · have hne : (h.conns d).tap ≠ (h.conns c).tap := fun ht => hdc (hw.once d hd c hc ht)
      simp only [Hub.setTap, Hub.setConn, Function.update_of_ne hdc, Function.update_of_ne hne]
        at hup hres ⊢
      exact ha.linked d hd hup hres

theorem Attended.openFail {h : Hub} (ha : Attended h) (c : ℕ) (error : String) :
    Attended (h.setConn c { h.conns c with result := some (.refused error), status := .closed }) where
  manned := ha.manned
  linked d hd hup hres := by
    by_cases hdc : d = c
    · subst hdc
      simp [Hub.setConn] at hup
    · simp only [Hub.setConn, Function.update_of_ne hdc] at hup hres ⊢
      exact ha.linked d hd hup hres

theorem step_attended {h g : Hub} {a : Action} (hw : Wired h) (ha : Attended h)
    (hs : step h a = some g) : Attended g := by
  cases step_change hw hs with
  | keeps hk => exact ha.keeps hk
  | @wait _ v t ch c hv =>
    refine ⟨fun u hu => ?_, ha.linked⟩
    rcases ha.manned u hu with hne | ⟨w, k, d, hj⟩
    · exact Or.inl hne
    · have hwv : w ≠ v := fun hx => hv _ _ _ (hx ▸ hj)
      exact Or.inr ⟨w, k, d, by rw [setPc_pc, if_neg hwv]; exact hj⟩
  | openNew hr _ _ _ hl => exact ha.openNew hw hl (ready_not_joining hr)
  | register _ hv => exact ha.register fun u k c hj => (hv u k c hj).1
  | joinRefused hpc hr => exact ha.joinRefused hw hpc hr
  | openOk hc hr => exact ha.openOk hw hc hr
  | openFail => exact ha.openFail _ _
  | ended => exact ha.endTap _ _
  | gone => exact (ha.keeps (setStatus_keeps h _)).endTap _ _
  | closeEnd hg _ hk => exact ((ha.keeps hg).endTap _ _).keeps hk
  | closeReply _ hg => exact (ha.endTap _ _).keeps hg

/-- A session has one connection that is not closed, and an open one is its tap's upstream. -/
structure Accounted (h : Hub) : Prop where
  single : ∀ c < h.nextConn, ∀ d < h.nextConn, (h.conns c).session = (h.conns d).session →
    (h.conns c).status ≠ .closed → (h.conns d).status ≠ .closed → c = d
  held : ∀ c < h.nextConn, (h.conns c).result = some .ok → (h.conns c).status = .up →
    (h.taps (h.conns c).tap).upstream = some c

theorem initial_accounted (key : ℕ → String) : Accounted (Hub.initial key) where
  single c hc := by simp [Hub.initial] at hc
  held c hc := by simp [Hub.initial] at hc

theorem Accounted.keeps {h g : Hub} (ha : Accounted h) (hk : Keeps h g) : Accounted g where
  single c hc d hd hsession hsc hsd := by
    rw [hk.session, hk.session] at hsession
    exact ha.single c (hk.nextConn ▸ hc) d (hk.nextConn ▸ hd) hsession (hk.status c hsc)
      (hk.status d hsd)
  held c hc hr hup := by
    rw [hk.result] at hr
    rw [hk.tap]
    exact hk.kept c hup (ha.held c (hk.nextConn ▸ hc) hr (hk.up c hup))

/-- Neither connections nor upstreams change. -/
theorem Accounted.of_links {h g : Hub} (ha : Accounted h) (hconns : g.conns = h.conns)
    (hnc : g.nextConn = h.nextConn)
    (hup : ∀ t, (g.taps t).upstream = (h.taps t).upstream) : Accounted g where
  single := by
    rw [hconns, hnc]
    exact ha.single
  held := by
    simp only [hconns, hnc, hup]
    exact ha.held

theorem Accounted.endTap {h : Hub} (ha : Accounted h) {t : ℕ} (reason : EndReason)
    (ht : (h.taps t).ended = true ∨ ∀ c < h.nextConn, (h.conns c).tap = t →
      (h.conns c).result = some .ok → (h.conns c).status ≠ .up) :
    Accounted (h.endTap t reason) where
  single := by
    simp only [endTap_conns, endTap_nextConn]
    exact ha.single
  held c hc hr hup := by
    rw [endTap_conns] at hr hup ⊢
    rw [endTap_nextConn] at hc
    rw [endTap_taps]
    split_ifs with hct
    · rcases ht with hend | hnone
      · rw [hct.2] at hend
        cases hend
      · exact absurd hup (hnone c hc hct.1 hr)
    · exact ha.held c hc hr hup

/-- A tap without an upstream has no open connection. -/
theorem Accounted.no_open {h : Hub} (ha : Accounted h) {t : ℕ}
    (ht : (h.taps t).ended = true ∨ (h.taps t).upstream = none) :
    (h.taps t).ended = true ∨ ∀ c < h.nextConn, (h.conns c).tap = t →
      (h.conns c).result = some .ok → (h.conns c).status ≠ .up := by
  refine ht.imp_right fun hnone c hc htap hr hup => ?_
  have := ha.held c hc hr hup
  rw [htap, hnone] at this
  cases this

/-- An ATTACH that makes a tap comes after the session's last connection has closed, and an
exit or a completed CLOSE finds a tap that has ended or has no upstream. -/
def Tidy (h : Hub) : Action → Prop
  | .attach v id ch => validSessionId id = true → isChannel ch = true → h.hasChannel v ch = false →
      h.readsSession v id = false → h.live id = none →
      ∀ c < h.nextConn, (h.conns c).session = id → (h.conns c).status = .closed
  | .ended c =>
    (h.taps (h.conns c).tap).ended = true ∨ (h.taps (h.conns c).tap).upstream = none
  | .closeReply v ok => ok = true →
      ∀ t ∈ (h.viewers v).pc.taps, (h.taps t).ended = true ∨ (h.taps t).upstream = none
  | _ => True

instance (h : Hub) (a : Action) : Decidable (Tidy h a) := by
  apply Action.casesOn (motive := fun a => Decidable (Tidy h a)) a
  all_goals
    intros
    unfold Tidy
    infer_instance

theorem Accounted.openNew {h : Hub} (ha : Accounted h) (hw : Wired h) {v ch : ℕ} {s : String}
    (hl : h.live s = none)
    (hclosed : ∀ c < h.nextConn, (h.conns c).session = s → (h.conns c).status = .closed) :
    Accounted (((h.tap s).1.openTap h.nextTap).setPc v (.joining h.nextTap ch h.nextConn)) where
  single c hc d hd hsession hsc hsd := by
    rw [openNew_nextConn hl] at hc hd
    rw [openNew_conns hl] at hsc
    rw [openNew_conns hl] at hsd
    rw [openNew_conns hl, openNew_conns hl] at hsession
    split_ifs at hsc hsd hsession with hcn hdn hdn
    · omega
    · exact absurd (hclosed d (by omega) hsession.symm) hsd
    · exact absurd (hclosed c (by omega) hsession) hsc
    · exact ha.single c (by omega) d (by omega) hsession hsc hsd
  held c hc hr hup := by
    rw [openNew_nextConn hl] at hc
    rw [openNew_conns hl] at hr hup ⊢
    split_ifs at hr hup ⊢ with hcn
    rw [openNew_taps hl, if_neg]
    · exact ha.held c (by omega) hr hup
    · have := (hw.conn c (by omega)).1
      omega

theorem step_accounted {h g : Hub} {a : Action} (hw : Wired h) (ha : Accounted h) (hok : Tidy h a)
    (hs : step h a = some g) : Accounted g := by
  cases step_change hw hs with
  | keeps hk => exact ha.keeps hk
  | wait => exact ha.of_links rfl rfl fun _ => rfl
  | openNew _ hgood hch hid hl => exact ha.openNew hw hl (hok hgood.1 hgood.2 hch hid hl)
  | @register _ v t ch =>
    refine ha.of_links rfl rfl fun u => ?_
    rw [register_taps]
    split_ifs with hut
    · rw [withViewer_upstream, hut]
    · rfl
  | @joinRefused _ v t ch _ error =>
    obtain ⟨hconns, hnc, -⟩ := joinRefused_conns h v t ch error
    refine ha.of_links hconns hnc fun u => ?_
    rw [joinRefused_taps]
    split_ifs with hut
    · rw [hut]
    · rfl
  | @openOk _ c hc hr =>
    have hst (d : ℕ) : ((h.setConn c { h.conns c with result := some .ok }).conns d).status =
        (h.conns d).status := by
      by_cases hdc : d = c <;> simp [Hub.setConn, hdc]
    have hse (d : ℕ) : ((h.setConn c { h.conns c with result := some .ok }).conns d).session =
        (h.conns d).session := by
      by_cases hdc : d = c <;> simp [Hub.setConn, hdc]
    refine ⟨?_, ?_⟩
    · intro d hd e he hsession hsd hse'
      exact ha.single d hd e he ((hse d).symm.trans (hsession.trans (hse e)))
        (fun hx => hsd ((hst d).trans hx)) fun hx => hse' ((hst e).trans hx)
    · intro d hd hres hup
      by_cases hdc : d = c
      · subst hdc
        simp [Hub.setTap, Hub.setConn]
      · have hne : (h.conns d).tap ≠ (h.conns c).tap := fun ht => hdc (hw.once d hd c hc ht)
        simp only [Hub.setTap, Hub.setConn, Function.update_of_ne hdc, Function.update_of_ne hne]
          at hup hres ⊢
        exact ha.held d hd hres hup
  | @openFail _ c error hc hr =>
    have hx (d : ℕ) (hdc : d ≠ c) : (h.setConn c
        { h.conns c with result := some (.refused error), status := .closed }).conns d =
        h.conns d := by
      simp [Hub.setConn, hdc]
    have hcl (d : ℕ) (hdc : d = c) : ((h.setConn c
        { h.conns c with result := some (.refused error), status := .closed }).conns d).status =
        .closed := by
      simp [Hub.setConn, hdc]
    refine ⟨?_, ?_⟩
    · intro d hd e he hsession hsd hse
      have hdc : d ≠ c := fun hdc => hsd (hcl d hdc)
      have hec : e ≠ c := fun hec => hse (hcl e hec)
      rw [hx d hdc] at hsession hsd
      rw [hx e hec] at hsession hse
      exact ha.single d hd e he hsession hsd hse
    · intro d hd hres hup
      have hdc : d ≠ c := by
        intro hdc
        rw [hcl d hdc] at hup
        cases hup
      rw [hx d hdc] at hres hup ⊢
      exact ha.held d hd hres hup
  | ended => exact ha.endTap _ (ha.no_open hok)
  | @gone _ c hc =>
    refine (ha.keeps (setStatus_keeps h c)).endTap _ (Or.inr fun d hd htap _ => ?_)
    have htap' : (h.conns d).tap = (h.conns c).tap :=
      ((setStatus_keeps h c).tap d).symm.trans htap
    have hdc := hw.once d hd c hc htap'
    simp [Hub.setConn, hdc]
  | closeEnd hg hu hk =>
    exact ((ha.keeps hg).endTap _ ((ha.keeps hg).no_open (Or.inr hu))).keeps hk
  | closeReply hpc hg =>
    refine (ha.endTap _ (ha.no_open (hok rfl _ ?_))).keeps hg
    rw [hpc]
    exact List.mem_singleton_self _

/-- Upstream accounting: in a run whose steps are tidy, a session never has two connections that
are open, being opened or being detached, and a connection the broker accepted is its tap's
upstream until it is detached or closed. -/
theorem upstreams_accounted (key : ℕ → String) (as : List Action) (h : Hub)
    (hrun : run step (Hub.initial key) as = some h)
    (hok : Along step Tidy (Hub.initial key) as) :
    (∀ c < h.nextConn, ∀ d < h.nextConn, (h.conns c).session = (h.conns d).session →
      (h.conns c).status ≠ .closed → (h.conns d).status ≠ .closed → c = d) ∧
      ∀ c < h.nextConn, (h.conns c).result = some .ok → (h.conns c).status = .up →
        (h.taps (h.conns c).tap).upstream = some c := by
  have hinv : Wired h ∧ Accounted h := by
    refine run_invariant_along (I := fun h => Wired h ∧ Accounted h) ?_
      ⟨initial_wired key, initial_accounted key⟩ hrun hok
    intro h a g hI htidy hs
    exact ⟨step_wired hI.1 hs, step_accounted hI.1 hI.2 htidy hs⟩
  exact ⟨hinv.2.single, hinv.2.held⟩

/-- A second viewer attaches after the first one's detach is over. -/
def reattach : List Action :=
  [.attach 0 "s" 1, .accept 0, .openOk 0, .joinResume 0, .attachResume 0, .detach 0 1, .detached 0,
    .detachResume 0, .attach 1 "s" 1, .accept 1, .openOk 1]

theorem upstreams_accounted_reattach :
    (run step (Hub.initial fun _ => "a") reattach).isSome ∧
      ∀ h, run step (Hub.initial fun _ => "a") reattach = some h →
        (∀ c < h.nextConn, ∀ d < h.nextConn, (h.conns c).session = (h.conns d).session →
          (h.conns c).status ≠ .closed → (h.conns d).status ≠ .closed → c = d) ∧
          ∀ c < h.nextConn, (h.conns c).result = some .ok → (h.conns c).status = .up →
            (h.taps (h.conns c).tap).upstream = some c :=
  ⟨by decide +kernel, fun h hrun => upstreams_accounted _ _ h hrun (by decide +kernel)⟩

/-- The second viewer attaches while the first connection is still being detached. -/
def overlap : List Action :=
  [.attach 0 "s" 1, .accept 0, .openOk 0, .joinResume 0, .attachResume 0, .detach 0 1,
    .attach 1 "s" 1]

/-- The session exits while its viewer is attached. -/
def exitOpen : List Action :=
  [.attach 0 "s" 1, .accept 0, .openOk 0, .joinResume 0, .attachResume 0, .ended 0]

/-- Two connections of one session at once, and an open connection that no tap has. -/
theorem upstreams_overlap_and_leak :
    (∃ h, run step (Hub.initial fun _ => "a") overlap = some h ∧ 1 < h.nextConn ∧
      (h.conns 0).session = (h.conns 1).session ∧ (h.conns 0).status = .detaching ∧
      (h.conns 1).status = .up) ∧
    ∃ h, run step (Hub.initial fun _ => "a") exitOpen = some h ∧ 0 < h.nextConn ∧
      (h.conns 0).result = some .ok ∧ (h.conns 0).status = .up ∧
      ∀ t, (h.taps t).upstream ≠ some 0 := by
  refine ⟨?_, ?_⟩
  · have hany : (run step (Hub.initial fun _ => "a") overlap).any fun h =>
        1 < h.nextConn ∧ (h.conns 0).session = (h.conns 1).session ∧
          (h.conns 0).status = .detaching ∧ (h.conns 1).status = .up := by decide +kernel
    obtain ⟨h, hrun, hh⟩ := (Option.any_eq_true _ _).mp hany
    exact ⟨h, hrun, of_decide_eq_true hh⟩
  · have hany : (run step (Hub.initial fun _ => "a") exitOpen).any fun h =>
        0 < h.nextConn ∧ (h.conns 0).result = some .ok ∧ (h.conns 0).status = .up ∧
          (h.conns 0).tap = 0 ∧ (h.taps 0).upstream = none := by decide +kernel
    obtain ⟨h, hrun, hh⟩ := (Option.any_eq_true _ _).mp hany
    obtain ⟨hlt, hok, hup, htap, hnone⟩ := of_decide_eq_true hh
    refine ⟨h, hrun, hlt, hok, hup, fun t ht => ?_⟩
    have hw : Wired h := run_invariant (fun _ _ _ hI hs => step_wired hI hs) (initial_wired _) hrun
    rw [← (hw.upstream t 0 ht).2.1, htap, hnone] at ht
    cases ht

end ClaudeFleet.AttachHub
