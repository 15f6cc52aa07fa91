import ClaudeFleet.PeerStatusWatcher

/-! The snapshot is what the files on record say, and what was emitted last says the same. -/
namespace ClaudeFleet.PeerStatusWatcher
open Js Transition

/-! Which status is newer. -/

theorem isNewer_trans {a b c : PeerStatus} (hab : isNewer a b = true) (hbc : isNewer b c = true) :
    isNewer a c = true := by
  unfold isNewer at *
  cases ha : a.statusUpdatedAt <;> cases hb : b.statusUpdatedAt <;>
    cases hc : c.statusUpdatedAt <;> simp only [ha, hb, hc, decide_eq_true_eq] at hab hbc ⊢ <;>
    first | exact hbc.trans hab | contradiction

theorem isNewer_of_not {a b : PeerStatus} (h : isNewer a b = false) : isNewer b a = true := by
  unfold isNewer at *
  cases ha : a.statusUpdatedAt <;> cases hb : b.statusUpdatedAt <;>
    simp only [ha, hb, decide_eq_true_eq, decide_eq_false_iff_not, not_le] at h ⊢ <;>
    first | exact h.le | contradiction

theorem isNewer_bare {a b : PeerStatus} (ha : a.statusUpdatedAt = none)
    (hb : b.statusUpdatedAt = none) : isNewer a b = true := by
  simp [isNewer, ha, hb]

/-! The reduction. -/

/-- None of the statuses of its session is newer, as far as the reduction goes. -/
def Reduced (entries : List PeerStatus) (s : PeerStatus) : Prop :=
  ∃ before after, entries = before ++ s :: after ∧
    (∀ r ∈ before, r.sessionId = s.sessionId → isNewer s r = true) ∧
    ∀ r ∈ after, r.sessionId = s.sessionId → isNewer r s = false

theorem get?_reduceStep (out : JsMap Text PeerStatus) (e : PeerStatus) (k : Text) :
    (reduceStep out e).get? k =
      if k = e.sessionId then
        some (((out.get? k).filter fun prev => !isNewer e prev).getD e)
      else out.get? k := by
  unfold reduceStep
  split
  · next hnone =>
    rw [JsMap.get?_set]
    split_ifs with hk
    · simp [hk, hnone]
    · rfl
  · next prev hprev =>
    split_ifs with hnew hk hk
    · simp [hk, hprev, hnew, Option.filter]
    · rw [JsMap.get?_set, if_neg hk]
    · simp [hk, hprev, hnew, Option.filter]
    · rfl

theorem reducePeerStatuses_snoc (entries : List PeerStatus) (e : PeerStatus) :
    reducePeerStatuses (entries ++ [e]) = reduceStep (reducePeerStatuses entries) e := by
  unfold reducePeerStatuses
  rw [List.foldl_append]
  rfl

theorem Reduced.snoc_newer {entries : List PeerStatus} {e prev : PeerStatus}
    (h : Reduced entries prev) (hsid : prev.sessionId = e.sessionId)
    (hnew : isNewer e prev = true) : Reduced (entries ++ [e]) e := by
  obtain ⟨before, after, rfl, hbefore, hafter⟩ := h
  refine ⟨before ++ prev :: after, [], rfl, fun r hr hrsid => ?_, by simp⟩
  rcases List.mem_append.mp hr with hr | hr
  · exact isNewer_trans hnew (hbefore r hr (hrsid.trans hsid.symm))
  · rcases List.mem_cons.mp hr with rfl | hr
    · exact hnew
    · exact isNewer_trans hnew (isNewer_of_not (hafter r hr (hrsid.trans hsid.symm)))

theorem Reduced.snoc {entries : List PeerStatus} {e s : PeerStatus} (h : Reduced entries s)
    (hold : e.sessionId = s.sessionId → isNewer e s = false) : Reduced (entries ++ [e]) s := by
  obtain ⟨before, after, rfl, hbefore, hafter⟩ := h
  refine ⟨before, after ++ [e], by simp, hbefore, fun r hr => ?_⟩
  rcases List.mem_append.mp hr with hr | hr
  · exact hafter r hr
  · exact List.mem_singleton.mp hr ▸ hold

/-- The reduction keeps one status for each session there is, and none is newer. -/
theorem reduce_spec (entries : List PeerStatus) :
    (∀ k s, (reducePeerStatuses entries).get? k = some s →
      s.sessionId = k ∧ Reduced entries s) ∧
    ∀ r ∈ entries, ((reducePeerStatuses entries).get? r.sessionId).isSome = true := by
  induction entries using List.reverseRecOn with
  | nil =>
    constructor
    · intro k s h
      cases h
    · exact fun r hr => absurd hr List.not_mem_nil
  | append_singleton entries e ih =>
    obtain ⟨hkept, hall⟩ := ih
    rw [reducePeerStatuses_snoc]
    constructor
    · intro k s hs
      rw [get?_reduceStep] at hs
      split_ifs at hs with hk
      · cases hget : (reducePeerStatuses entries).get? k with
        | none =>
          obtain rfl : e = s := by simpa [hget] using hs
          refine ⟨hk.symm, entries, [], rfl, fun r hr hrsid => ?_, by simp⟩
          have := hall r hr
          rw [hrsid, ← hk, hget] at this
          cases this
        | some prev =>
          obtain ⟨hsid, hprev⟩ := hkept k prev hget
          cases hnew : isNewer e prev with
          | true =>
            obtain rfl : e = s := by simpa [hget, hnew, Option.filter] using hs
            exact ⟨hk.symm, hprev.snoc_newer (hsid.trans hk) hnew⟩
          | false =>
            obtain rfl : prev = s := by simpa [hget, hnew, Option.filter] using hs
            exact ⟨hsid, hprev.snoc fun _ => hnew⟩
      · obtain ⟨hsid, hs⟩ := hkept k s hs
        exact ⟨hsid, hs.snoc fun heq => absurd (hsid.symm.trans heq.symm) hk⟩
    · intro r hr
      rw [get?_reduceStep]
      split_ifs with hk
      · rfl
      · rcases List.mem_append.mp hr with hr | hr
        · exact hall r hr
        · exact absurd (List.mem_singleton.mp hr ▸ rfl) hk

theorem mem_values {m : JsMap Text PeerStatus} {s : PeerStatus} :
    s ∈ values m ↔ ∃ k, m.get? k = some s := by
  unfold values
  rw [List.mem_map]
  constructor
  · rintro ⟨⟨k, s'⟩, hmem, rfl⟩
    exact ⟨k, JsMap.get?_eq_some.mpr hmem⟩
  · rintro ⟨k, hget⟩
    exact ⟨(k, s), JsMap.get?_eq_some.mp hget, rfl⟩

theorem reduced_of_mem_snapshot {w : Watcher} {s : PeerStatus} (h : s ∈ snapshot w) :
    Reduced (values w.byPath) s := by
  obtain ⟨k, hk⟩ := mem_values.mp h
  exact ((reduce_spec _).1 k s hk).2

/-- A snapshot has each session once. -/
theorem nodup_snapshot (w : Watcher) : ((snapshot w).map PeerStatus.sessionId).Nodup := by
  have hkeys : (snapshot w).map PeerStatus.sessionId =
      (reducePeerStatuses (values w.byPath)).rows.map fun e => e.1 := by
    unfold snapshot values
    rw [List.map_map]
    refine List.map_congr_left fun e he => ?_
    exact ((reduce_spec _).1 e.1 e.2 (JsMap.get?_eq_some.mpr he)).1
  exact hkeys ▸ (reducePeerStatuses (values w.byPath)).nodup

theorem exists_mem_snapshot {w : Watcher} {r : PeerStatus} (h : r ∈ values w.byPath) :
    ∃ s ∈ snapshot w, s.sessionId = r.sessionId := by
  obtain ⟨s, hs⟩ := Option.isSome_iff_exists.mp ((reduce_spec _).2 r h)
  exact ⟨s, mem_values.mpr ⟨_, hs⟩, ((reduce_spec _).1 _ s hs).1⟩

/-! The record. -/

/-- The status of a session, without a stamp. -/
def bare (sessionId : Text) (e : Text × PeerStatus) : Bool :=
  decide (e.2.sessionId = sessionId ∧ e.2.statusUpdatedAt = none)

/-- The watcher has what is on record, and of each session those without a stamp in the order in
which they were read. -/
structure Tracks (byPath record : JsMap Text PeerStatus) : Prop where
  get : ∀ path, byPath.get? path = record.get? path
  order : ∀ sessionId,
    byPath.rows.filter (bare sessionId) = record.rows.filter (bare sessionId)

theorem filter_delete (m : JsMap Text PeerStatus) (path : Text)
    (p : Text × PeerStatus → Bool) :
    (m.delete path).rows.filter p = (m.rows.filter p).filter fun e => !decide (e.1 = path) := by
  show (m.rows.filter fun e => !decide (e.1 = path)).filter p = _
  rw [List.filter_filter, List.filter_filter]
  exact List.filter_congr fun e _ => Bool.and_comm _ _

theorem Tracks.delete {byPath record : JsMap Text PeerStatus} (h : Tracks byPath record)
    (path : Text) : Tracks (byPath.delete path) (record.delete path) where
  get k := by rw [JsMap.get?_delete, JsMap.get?_delete, h.get]
  order sessionId := by rw [filter_delete, filter_delete, h.order]

theorem Tracks.set {byPath record : JsMap Text PeerStatus} (h : Tracks byPath record)
    (path : Text) (s : PeerStatus)
    (hlast : s.statusUpdatedAt = none → ∀ e ∈ byPath.following path,
      e.2.sessionId = s.sessionId → e.2.statusUpdatedAt ≠ none) :
    Tracks (byPath.set path s) ((record.delete path).set path s) where
  get k := by
    rw [JsMap.get?_set, JsMap.get?_set, JsMap.get?_delete, h.get]
    split_ifs <;> rfl
  order sessionId := by
    have hkind : bare sessionId (path, s) = true →
        ∀ e ∈ byPath.following path, bare sessionId e = false := by
      intro hs e he
      obtain ⟨rfl, hbare⟩ := of_decide_eq_true hs
      exact decide_eq_false fun hboth => hlast hbare e he hboth.1 hboth.2
    rw [JsMap.filter_rows_set _ _ _ hkind,
      JsMap.rows_set_of_none (JsMap.get?_delete_self record path), List.filter_append,
      (h.delete path).order]

theorem mem_rows_iff {byPath record : JsMap Text PeerStatus} (h : Tracks byPath record)
    (e : Text × PeerStatus) : e ∈ byPath.rows ↔ e ∈ record.rows := by
  obtain ⟨k, s⟩ := e
  rw [← JsMap.get?_eq_some, ← JsMap.get?_eq_some, h.get]

/-- An entry stands in a map once. -/
theorem notMem_of_split {m : JsMap Text PeerStatus} {before after : List (Text × PeerStatus)}
    {e : Text × PeerStatus} (h : m.rows = before ++ e :: after) : e ∉ before ++ after := by
  have hnodup : m.rows.Nodup := m.nodup.of_map
  rw [h, List.nodup_middle, List.nodup_cons] at hnodup
  exact hnodup.1

/-- Against one that is no older, only the later of two without a stamp prevails. -/
theorem bare_of_beats {readLater : Prop} {r s : PeerStatus} (hnew : isNewer s r = true)
    (h : Beats readLater r s) :
    readLater ∧ r.statusUpdatedAt = none ∧ s.statusUpdatedAt = none := by
  unfold isNewer at hnew
  unfold Beats at h
  cases hs : s.statusUpdatedAt <;> cases hr : r.statusUpdatedAt <;>
    simp only [hs, hr, decide_eq_true_eq] at hnew h
  · exact ⟨h, rfl, rfl⟩
  · exact absurd hnew (by decide)
  · exact absurd h (not_lt.mpr hnew)

/-- The last of its kind in one list stands last in every other with the same of that kind. -/
theorem filter_after_eq_nil {α : Type*} {p : α → Bool} {before after before' after' : List α}
    {e : α} (h : (before ++ e :: after).filter p = (before' ++ e :: after').filter p)
    (he : p e = true) (hlast : after.filter p = []) (hnot : e ∉ after') :
    after'.filter p = [] := by
  simp only [List.filter_append, List.filter_cons, he, if_true, hlast] at h
  rcases snoc_eq_append_cons h with ⟨hnil, -, -⟩ | ⟨rest, hrest, -⟩
  · exact hnil
  · have hmem : e ∈ after'.filter p := hrest ▸ List.mem_append_right _ List.mem_cons_self
    exact absurd (List.mem_of_mem_filter hmem) hnot

/-- The status of a session that the reduction keeps is one that none on record beats. -/
theorem Tracks.chosen {byPath record : JsMap Text PeerStatus} (h : Tracks byPath record)
    {s : PeerStatus} (hs : Reduced (values byPath) s) : Chosen (values record) s := by
  obtain ⟨before, after, hvalues, hbefore, hafter⟩ := hs
  obtain ⟨rb, rest, hrows, rfl, hrest⟩ := List.map_eq_append_iff.mp hvalues
  obtain ⟨e, ra, rfl, rfl, rfl⟩ := List.map_eq_cons_iff.mp hrest
  have hmem : e ∈ record.rows := (mem_rows_iff h e).mp (by simp [hrows])
  obtain ⟨rb', ra', hrows'⟩ := List.append_of_mem hmem
  have hnot := notMem_of_split hrows'
  have hsplit : ∀ q ∈ rb' ++ ra', q ∈ rb ∨ q ∈ ra := by
    intro q hq
    have hqrows : q ∈ byPath.rows := (mem_rows_iff h q).mpr (by
      rw [hrows']
      rcases List.mem_append.mp hq with hq | hq
      · exact List.mem_append_left _ hq
      · exact List.mem_append_right _ (List.mem_cons_of_mem _ hq))
    rw [hrows] at hqrows
    rcases List.mem_append.mp hqrows with hq' | hq'
    · exact Or.inl hq'
    · rcases List.mem_cons.mp hq' with rfl | hq'
      · exact absurd hq hnot
      · exact Or.inr hq'
  have hnewer : ∀ q ∈ rb' ++ ra', q.2.sessionId = e.2.sessionId → isNewer e.2 q.2 = true := by
    intro q hq hsid
    rcases hsplit q hq with hq | hq
    · exact hbefore q.2 (List.mem_map_of_mem hq) hsid
    · exact isNewer_of_not (hafter q.2 (List.mem_map_of_mem hq) hsid)
  refine ⟨rb'.map Prod.snd, ra'.map Prod.snd, by simp [values, hrows'], ?_, ?_⟩
  · intro r hr hsid hbeats
    obtain ⟨q, hq, rfl⟩ := List.mem_map.mp hr
    exact (bare_of_beats (hnewer q (List.mem_append_left _ hq) hsid) hbeats).1
  · intro r hr hsid hbeats
    obtain ⟨q, hq, rfl⟩ := List.mem_map.mp hr
    obtain ⟨-, hqbare, hebare⟩ :=
      bare_of_beats (hnewer q (List.mem_append_right _ hq) hsid) hbeats
    -- among those without a stamp, the one kept is the last in the map, and so on record
    have hlast : ra.filter (bare e.2.sessionId) = [] := by
      refine List.filter_eq_nil_iff.mpr fun t ht hbare => ?_
      obtain ⟨htsid, htbare⟩ := of_decide_eq_true hbare
      have := hafter t.2 (List.mem_map_of_mem ht) htsid
      rw [isNewer_bare htbare hebare] at this
      cases this
    have horder := h.order e.2.sessionId
    rw [hrows, hrows'] at horder
    have hnil := filter_after_eq_nil horder (decide_eq_true ⟨rfl, hebare⟩) hlast
      fun hmem => hnot (List.mem_append_right _ hmem)
    exact List.filter_eq_nil_iff.mp hnil q hq (decide_eq_true ⟨hsid, hqbare⟩)

/-! The key of a snapshot. -/

theorem PeerStatusKind.text_colon (kind : PeerStatusKind) : 58 ∉ kind.text ∧ 124 ∉ kind.text := by
  cases kind <;> decide +kernel

theorem PeerStatusKind.text_injective : Function.Injective PeerStatusKind.text := by
  intro a b h
  cases a <;> cases b <;> first | rfl | exact absurd h (by decide +kernel)

/-- What statuses show whose parts can be told apart. -/
def SeparableShown : Set Shown := {s | ∃ status, Separable status ∧ shown status = s}

theorem item_injOn : Set.InjOn item SeparableShown := by
  rintro _ ⟨s, hs, rfl⟩ _ ⟨t, ht, rfl⟩ h
  obtain ⟨hid, hrest⟩ := SelfDelimiting.cut_at_mark hs.1.1 ht.1.1 h
  obtain ⟨hkind, hwaits⟩ := SelfDelimiting.cut_at_mark s.status.text_colon.1
    t.status.text_colon.1 hrest
  have hwaiting : s.waitingFor = t.waitingFor := by
    have hsw := s.waits
    have htw := t.waits
    change s.waitingFor.getD [] = t.waitingFor.getD [] at hwaits
    cases hsf : s.waitingFor <;> cases htf : t.waitingFor <;> simp_all
  exact Prod.ext hid (Prod.ext (PeerStatusKind.text_injective hkind) hwaiting)

theorem bar_notMem_item {s : PeerStatus} (h : Separable s) : 124 ∉ item (shown s) := by
  have hkind := s.status.text_colon.2
  have hid := h.1.2
  have hwaits := h.2
  simp only [item, shown, List.mem_append, List.mem_cons, not_or]
  exact ⟨hid, by decide, hkind, by decide, hwaits⟩

theorem item_ne_nil (s : Shown) : item s ≠ [] := by
  simp [item]

/-- Snapshots of one key show the same. -/
theorem shown_perm_of_key {as bs : List PeerStatus} (ha : ∀ s ∈ as, Separable s)
    (hb : ∀ s ∈ bs, Separable s) (h : snapshotKey as = snapshotKey bs) :
    (as.map shown).Perm (bs.map shown) := by
  have hperm : ∀ l : List PeerStatus,
      (sortTexts (l.map fun s => item (shown s))).Perm ((l.map shown).map item) := by
    intro l
    rw [List.map_map]
    exact sortTexts_perm _
  have hsep : ∀ l : List PeerStatus, (∀ s ∈ l, Separable s) →
      ∀ t ∈ sortTexts (l.map fun s => item (shown s)), 124 ∉ t := by
    intro l hl t ht
    obtain ⟨s, hs, rfl⟩ := List.mem_map.mp ((sortTexts_perm _).mem_iff.mp ht)
    exact bar_notMem_item (hl s hs)
  have hfilled : ∀ l : List PeerStatus,
      ∀ t ∈ sortTexts (l.map fun s => item (shown s)), t ≠ [] := by
    intro l t ht
    obtain ⟨s, -, rfl⟩ := List.mem_map.mp ((sortTexts_perm _).mem_iff.mp ht)
    exact item_ne_nil _
  have hsame : sortTexts (as.map fun s => item (shown s)) =
      sortTexts (bs.map fun s => item (shown s)) := by
    by_cases hanil : sortTexts (as.map fun s => item (shown s)) = []
    · by_contra hne
      refine join_ne_nil 124 (fun hbnil => hne (hanil.trans hbnil.symm)) (hfilled bs) ?_
      exact h.symm.trans (by rw [snapshotKey, hanil]; rfl)
    · by_cases hbnil : sortTexts (bs.map fun s => item (shown s)) = []
      · refine absurd (h.trans ?_) (join_ne_nil 124 hanil (hfilled as))
        rw [snapshotKey, hbnil]
        rfl
      · exact join_inj (hsep as ha) (hsep bs hb) hanil hbnil h
  have hmap : ((as.map shown).map item).Perm ((bs.map shown).map item) :=
    (hperm as).symm.trans (hsame ▸ hperm bs)
  refine perm_of_map_perm item_injOn ?_ ?_ hmap
  · intro s hs
    obtain ⟨status, hstatus, rfl⟩ := List.mem_map.mp hs
    exact ⟨status, ha status hstatus, rfl⟩
  · intro s hs
    obtain ⟨status, hstatus, rfl⟩ := List.mem_map.mp hs
    exact ⟨status, hb status hstatus, rfl⟩

/-! One step. -/

/-- What was emitted last is what the snapshot shows, and its key can be read. -/
structure Emits (w : Watcher) : Prop where
  lastKey : w.lastKey = snapshotKey w.emitted
  current : snapshotKey (snapshot w) = w.lastKey
  stored : ∀ s ∈ values w.byPath, Separable s
  emitted : ∀ s ∈ w.emitted, Separable s

theorem separable_snapshot {w : Watcher} (h : ∀ s ∈ values w.byPath, Separable s) :
    ∀ s ∈ snapshot w, Separable s := by
  intro s hs
  obtain ⟨before, after, hvalues, -, -⟩ := reduced_of_mem_snapshot hs
  exact h s (hvalues ▸ List.mem_append_right _ List.mem_cons_self)

theorem emits_emitIfChanged {w : Watcher} (hkey : w.lastKey = snapshotKey w.emitted)
    (hstored : ∀ s ∈ values w.byPath, Separable s) (hemitted : ∀ s ∈ w.emitted, Separable s) :
    Emits (emitIfChanged w) := by
  unfold emitIfChanged
  dsimp only
  split_ifs with hsame
  · exact ⟨hkey, hsame, hstored, hemitted⟩
  · exact ⟨rfl, rfl, hstored, separable_snapshot hstored⟩

theorem byPath_emitIfChanged (w : Watcher) : (emitIfChanged w).byPath = w.byPath := by
  unfold emitIfChanged
  dsimp only
  split_ifs <;> rfl

theorem set_self {m : JsMap Text PeerStatus} {path : Text} {s : PeerStatus}
    (h : m.get? path = some s) : m.set path s = m := by
  obtain ⟨before, after, hrows, hne⟩ := JsMap.rows_split h
  exact Table.ext ((JsMap.rows_of_split s hrows hne).1.trans hrows.symm)

theorem eq_of_shown {s t : PeerStatus} (h : shown s = shown t)
    (hstamp : s.statusUpdatedAt = t.statusUpdatedAt) : s = t := by
  cases s
  cases t
  simp_all [shown]

/-- A status that differs by more than its stamp, if at all, is the one its path has then. -/
theorem ingest_eq {parseJson : Text → Option Value} {w : Watcher} {path raw : Text}
    (hok : Orderly parseJson w (.ingest path raw)) :
    (ingest parseJson w path raw).1 =
      match parsePeerStatus parseJson raw with
      | none => w
      | some parsed => { w with byPath := w.byPath.set path parsed } := by
  unfold ingest
  cases hparsed : parsePeerStatus parseJson raw with
  | none => rfl
  | some parsed =>
    dsimp only
    split
    · next prev hprev =>
      split_ifs with hshown
      · have hsame := eq_of_shown hshown ((hok parsed hparsed).2.1 prev hprev hshown)
        rw [← hsame, set_self hprev]
      · rfl
    · rfl

theorem mem_values_set {m : JsMap Text PeerStatus} {path : Text} {s t : PeerStatus}
    (h : t ∈ values (m.set path s)) : t = s ∨ t ∈ values m := by
  obtain ⟨k, hk⟩ := mem_values.mp h
  rw [JsMap.get?_set] at hk
  split_ifs at hk
  · exact Or.inl (Option.some.inj hk).symm
  · exact Or.inr (mem_values.mpr ⟨k, hk⟩)

theorem onRecord_snoc (parseJson : Text → Option Value) (as : List Action) (a : Action) :
    onRecord parseJson (as ++ [a]) =
      match a with
      | .ingest path raw =>
        match parsePeerStatus parseJson raw with
        | none => onRecord parseJson as
        | some parsed => ((onRecord parseJson as).delete path).set path parsed
      | .drop path => (onRecord parseJson as).delete path := by
  unfold onRecord
  rw [List.foldl_append]
  rfl

theorem step_tracks {parseJson : Text → Option Value} {as : List Action} {w w' : Watcher}
    {a : Action} (h : Tracks w.byPath (onRecord parseJson as) ∧ Emits w)
    (hok : Orderly parseJson w a) (hs : step parseJson w a = some w') :
    Tracks w'.byPath (onRecord parseJson (as ++ [a])) ∧ Emits w' := by
  obtain ⟨htracks, hemits⟩ := h
  cases a with
  | ingest path raw =>
    obtain rfl := Option.some.inj hs
    rw [byPath_emitIfChanged, onRecord_snoc, ingest_eq hok]
    dsimp only
    cases hparsed : parsePeerStatus parseJson raw with
    | none =>
      exact ⟨htracks, emits_emitIfChanged hemits.lastKey hemits.stored hemits.emitted⟩
    | some parsed =>
      obtain ⟨hsep, -, hlast⟩ := hok parsed hparsed
      refine ⟨htracks.set path parsed hlast,
        emits_emitIfChanged hemits.lastKey (fun s hs => ?_) hemits.emitted⟩
      rcases mem_values_set hs with rfl | hold
      · exact hsep
      · exact hemits.stored s hold
  | drop path =>
    obtain rfl := Option.some.inj hs
    rw [byPath_emitIfChanged, onRecord_snoc]
    refine ⟨htracks.delete path,
      emits_emitIfChanged hemits.lastKey (fun s hs => ?_) hemits.emitted⟩
    obtain ⟨k, hk⟩ := mem_values.mp hs
    exact hemits.stored s (mem_values.mpr ⟨k, JsMap.get?_of_delete hk⟩)

theorem snapshotKey_nil : snapshotKey [] = [] := by
  decide +kernel

theorem emits_init : Emits {} where
  lastKey := snapshotKey_nil.symm
  current := snapshotKey_nil
  stored _ h := absurd h List.not_mem_nil
  emitted _ h := absurd h List.not_mem_nil

/-- After any files have been read and removed, while what is read is orderly: the snapshot has for
each session one of the statuses on record, which none of them beats, and what was emitted last
shows the same. -/
theorem snapshot_current (parseJson : Text → Option Value) (as : List Action) (w : Watcher)
    (hr : run (step parseJson) {} as = some w)
    (hok : Along (step parseJson) (Orderly parseJson) {} as) :
    (∀ s ∈ snapshot w, Chosen (values (onRecord parseJson as)) s) ∧
    (∀ r ∈ values (onRecord parseJson as), ∃ s ∈ snapshot w, s.sessionId = r.sessionId) ∧
    ((snapshot w).map PeerStatus.sessionId).Nodup ∧
    (w.emitted.map shown).Perm ((snapshot w).map shown) := by
  have hinit : Tracks ({} : Watcher).byPath (onRecord parseJson []) ∧ Emits {} :=
    ⟨⟨fun _ => rfl, fun _ => rfl⟩, emits_init⟩
  obtain ⟨htracks, hemits⟩ : Tracks w.byPath (onRecord parseJson as) ∧ Emits w :=
    run_invariant_history_along
      (I := fun as w => Tracks w.byPath (onRecord parseJson as) ∧ Emits w) hinit
      (fun _ _ _ _ _ h hp hs => step_tracks h hp hs) hr hok
  refine ⟨fun s hs => htracks.chosen (reduced_of_mem_snapshot hs), ?_, nodup_snapshot w, ?_⟩
  · intro r hr
    obtain ⟨k, hk⟩ := mem_values.mp hr
    exact exists_mem_snapshot (mem_values.mpr ⟨k, (htracks.get k).trans hk⟩)
  · exact shown_perm_of_key hemits.emitted (separable_snapshot hemits.stored)
      (hemits.lastKey.symm.trans hemits.current.symm)

instance (parseJson : Text → Option Value) (w : Watcher) (a : Action) :
    Decidable (Orderly parseJson w a) := by
  unfold Orderly
  split <;> infer_instance

/-- The texts of status files, with the values they stand for. -/
def files : List (Text × Value) :=
  let status (kind : String) (more : List (Text × Value)) : Value :=
    .obj ([(js "sessionId", .str (js "a")), (js "status", .str (js kind))] ++ more)
  let stamp (q : ℚ) : Text × Value := (js "statusUpdatedAt", .num (.finite q))
  [(js "\x7b\"sessionId\":\"a\",\"status\":\"idle\"\x7d", status "idle" []),
    (js "\x7b\"sessionId\":\"a\",\"status\":\"busy\"\x7d", status "busy" []),
    (js "\x7b\"sessionId\":\"a\",\"status\":\"idle\",\"statusUpdatedAt\":1\x7d",
      status "idle" [stamp 1]),
    (js "\x7b\"sessionId\":\"a\",\"status\":\"busy\",\"statusUpdatedAt\":2\x7d",
      status "busy" [stamp 2]),
    (js "\x7b\"sessionId\":\"a\",\"status\":\"idle\",\"statusUpdatedAt\":3\x7d",
      status "idle" [stamp 3]),
    (js "\x7b\"sessionId\":\"a\",\"status\":\"waiting\",\"waitingFor\":\"x|b:idle:\"\x7d",
      status "waiting" [(js "waitingFor", .str (js "x|b:idle:"))]),
    (js "\x7b\"sessionId\":\"a\",\"status\":\"waiting\",\"waitingFor\":\"x\"\x7d",
      status "waiting" [(js "waitingFor", .str (js "x"))]),
    (js "\x7b\"sessionId\":\"b\",\"status\":\"idle\"\x7d",
      .obj [(js "sessionId", .str (js "b")), (js "status", .str (js "idle"))])]

def readFile (raw : Text) : Option Value := files.lookup raw

/-- One of those texts is read at a path. -/
def reads (path : String) (file : ℕ) : Action :=
  .ingest (js path) ((files[file]?.map Prod.fst).getD [])

/-- A session is resumed in a new process, and the file of the old one goes. -/
def resumed : List Action := [reads "/s/1.json" 2, reads "/s/2.json" 3, .drop (js "/s/1.json")]

theorem resumed_current : ∃ w, run (step readFile) {} resumed = some w ∧
    (w.emitted.map shown).Perm ((snapshot w).map shown) := by
  have hsome : (run (step readFile) {} resumed).isSome = true := by decide +kernel
  obtain ⟨w, hw⟩ := Option.isSome_iff_exists.mp hsome
  exact ⟨w, hw, (snapshot_current readFile resumed w hw (by decide +kernel)).2.2.2⟩

/-- Who is beaten by another status of its session is not the one chosen. -/
theorem Chosen.not_beats {entries : List PeerStatus} {s : PeerStatus} (h : Chosen entries s)
    {r : PeerStatus} (hr : r ∈ entries) (hsid : r.sessionId = s.sessionId) : ¬Beats False r s := by
  obtain ⟨before, after, rfl, hbefore, hafter⟩ := h
  rcases List.mem_append.mp hr with hr | hr
  · exact hbefore r hr hsid
  · rcases List.mem_cons.mp hr with rfl | hr
    · intro hbeats
      unfold Beats at hbeats
      cases hstamp : r.statusUpdatedAt <;> simp [hstamp] at hbeats
    · intro hbeats
      refine hafter r hr hsid ?_
      unfold Beats at hbeats ⊢
      cases hrs : r.statusUpdatedAt <;> cases hss : s.statusUpdatedAt <;>
        simp_all

/-- The file of the old process is stamped anew with the status it had. -/
def restamped : List Action := [reads "/s/1.json" 2, reads "/s/2.json" 3, reads "/s/1.json" 4]

/-- A text that a session waits for reads like the status of another session, to which the file
then changes. -/
def confused : List Action := [reads "/s/1.json" 6, reads "/s/2.json" 5, reads "/s/2.json" 7]

/-- A status of the snapshot is beaten by one on record. -/
def outdated (parseJson : Text → Option Value) (as : List Action) (w : Watcher) : Bool :=
  (snapshot w).any fun s => (values (onRecord parseJson as)).any fun r =>
    decide (r.sessionId = s.sessionId) &&
      match r.statusUpdatedAt, s.statusUpdatedAt with
      | some tr, some ts => decide (ts < tr)
      | some _, none => true
      | none, _ => false

theorem not_chosen_of_outdated {parseJson : Text → Option Value} {as : List Action} {w : Watcher}
    (h : outdated parseJson as w = true) :
    ∃ s ∈ snapshot w, ¬Chosen (values (onRecord parseJson as)) s := by
  obtain ⟨s, hs, hany⟩ := List.any_eq_true.mp h
  obtain ⟨r, hr, hboth⟩ := List.any_eq_true.mp hany
  rw [Bool.and_eq_true, decide_eq_true_eq] at hboth
  refine ⟨s, hs, fun hchosen => hchosen.not_beats hr hboth.1 ?_⟩
  have hlater := hboth.2
  unfold Beats
  cases hrs : r.statusUpdatedAt <;> cases hss : s.statusUpdatedAt <;> simp_all

theorem restamped_outdated :
    (∃ w, run (step readFile) {} restamped = some w ∧
      ∃ s ∈ snapshot w, ¬Chosen (values (onRecord readFile restamped)) s) ∧
    ∃ w, run (step readFile) {} confused = some w ∧
      ¬(w.emitted.map shown).Perm ((snapshot w).map shown) := by
  constructor
  · have hsome : (run (step readFile) {} restamped).any (outdated readFile restamped) = true := by
      decide +kernel
    obtain ⟨w, hw, hout⟩ := (Option.any_eq_true _ _).mp hsome
    exact ⟨w, hw, not_chosen_of_outdated hout⟩
  · have hsome : (run (step readFile) {} confused).any (fun w =>
        decide (¬(w.emitted.map shown).Perm ((snapshot w).map shown))) = true := by
      decide +kernel
    obtain ⟨w, hw, hperm⟩ := (Option.any_eq_true _ _).mp hsome
    exact ⟨w, hw, of_decide_eq_true hperm⟩

end ClaudeFleet.PeerStatusWatcher
