import ClaudeFleet.Inbox
import ClaudeFleet.Normal
import ClaudeFleet.Placeholders

/-! The log of a todo told again gives the todo: its status, priority, title and sightings. -/
namespace ClaudeFleet.Inbox
open Js Definition Transition InboxStore

/-- The fields of a todo that its log accounts for. -/
structure View where
  status : TodoStatus
  priority : TodoPriority
  title : Text
  seenCount : ℕ
  deriving DecidableEq

def TodoRow.view (r : TodoRow) : View := ⟨r.status, r.priority, r.title, r.seenCount⟩

def View.apply (v : View) : TodoEventKind → View
  | .seen priority _ =>
    { v with priority := maxPriority v.priority priority, seenCount := v.seenCount + 1 }
  | .reopened priority _ _ =>
    { v with
      status := .opened, priority := maxPriority v.priority priority
      seenCount := v.seenCount + 1 }
  | .status _ after => { v with status := after }
  | .priority _ after => { v with priority := after }
  | .title _ after => { v with title := after }
  | .created _ _ | .tagAdd _ | .tagRemove _ | .bodyAppend _ => v

/-- The log of a todo, folded from the event that created it. -/
def replay : List TodoEventKind → Option View
  | .created title priority :: kinds => some (kinds.foldl View.apply ⟨.opened, priority, title, 1⟩)
  | _ => none

def InboxStore.history (s : InboxStore) (id : Text) : List TodoEventKind :=
  (s.events.filter fun e => e.todoId = id).map TodoEvent.kind

/-- A title that an update writes fits into what is stored of it. -/
def Fits (s : InboxStore) : Action → Prop
  | .post _ _ _ _ => True
  | .update _ id patch _ => ∀ cur, s.todos.get id = some cur → ∀ raw, patch.title = some raw →
      trim raw ≠ cur.title → (trim raw).length ≤ 200

theorem replay_append {kinds : List TodoEventKind} {v : View} (h : replay kinds = some v)
    (more : List TodoEventKind) : replay (kinds ++ more) = some (more.foldl View.apply v) := by
  match kinds, h with
  | .created title priority :: kinds, h =>
    obtain rfl := Option.some.inj h
    simp [replay, List.foldl_append]

structure Sound (s : InboxStore) : Prop where
  closed : ∀ r ∈ s.todos.rows, r.closedAt = none ↔ r.status = .opened
  tags : ∀ id, Tags (s.tagsFor id)
  known : ∀ e ∈ s.events, e.todoId ∈ s.todos.rows.map TodoRow.id
  replayed : ∀ r ∈ s.todos.rows, replay (s.history r.id) = some r.view

/-- The store is sound and holds a todo. -/
def Holds (s : InboxStore) (id : Text) : Prop := Sound s ∧ id ∈ s.todos.rows.map TodoRow.id

variable {L : Language} {s s' : InboxStore} {id : Text} {ts now : ℤ} {actor source : TodoSource}

theorem history_write {kinds : List TodoEventKind}
    (hevents : s'.events = s.events ++ kinds.map fun k => ⟨id, ts, k, actor⟩) (x : Text) :
    s'.history x = s.history x ++ if x = id then kinds else [] := by
  unfold InboxStore.history
  rw [hevents, List.filter_append, List.map_append]
  congr 1
  split_ifs with hx
  · rw [List.filter_eq_self.mpr (by simp [hx]), List.map_map]
    simp [Function.comp_def]
  · rw [List.filter_eq_nil_iff.mpr (by simp [Ne.symm hx])]
    rfl

/-- A todo may change as its log grows: what the new events say of it is what happens to it. -/
theorem Holds.write (h : Holds s id) (kinds : List TodoEventKind) (f : TodoRow → TodoRow)
    (hrows : s'.todos.rows = s.todos.rows.map fun r => if r.id = id then f r else r)
    (htags : s'.tags = s.tags)
    (hevents : s'.events = s.events ++ kinds.map fun k => ⟨id, ts, k, actor⟩)
    (hf : ∀ r, (f r).id = r.id)
    (hclosed : ∀ r ∈ s.todos.rows, r.id = id →
      ((f r).closedAt = none ↔ (f r).status = .opened))
    (hview : ∀ r ∈ s.todos.rows, r.id = id → (f r).view = kinds.foldl View.apply r.view) :
    Holds s' id := by
  have hids : s'.todos.rows.map TodoRow.id = s.todos.rows.map TodoRow.id := by
    rw [hrows, List.map_map]
    apply List.map_congr_left
    intro r _
    simp only [Function.comp_apply]
    split_ifs
    · exact hf r
    · rfl
  have hsound := h.1
  refine ⟨⟨?_, ?_, ?_, ?_⟩, hids ▸ h.2⟩
  · intro x hx
    obtain ⟨r, hr, rfl⟩ := List.mem_map.mp (hrows ▸ hx)
    split_ifs with hrid
    · exact hclosed r hr hrid
    · exact hsound.closed r hr
  · intro x
    unfold tagsFor
    rw [htags]
    exact hsound.tags x
  · intro e he
    rw [hids]
    rw [hevents] at he
    rcases List.mem_append.mp he with he | he
    · exact hsound.known e he
    · obtain ⟨k, -, rfl⟩ := List.mem_map.mp he
      exact h.2
  · intro x hx
    obtain ⟨r, hr, rfl⟩ := List.mem_map.mp (hrows ▸ hx)
    have hold := hsound.replayed r hr
    rw [history_write hevents]
    by_cases hrid : r.id = id
    · rw [if_pos hrid, hf, if_pos hrid, replay_append hold, hview r hr hrid]
    · rw [if_neg hrid, if_neg hrid, List.append_nil, hold]

theorem set_rows (f : TodoRow → TodoRow) (hid : ∀ r, (f r).id = r.id)
    (hkey : ∀ r, (f r).dedupe = r.dedupe) :
    (s.set id f hid hkey).todos.rows = s.todos.rows.map fun r => if r.id = id then f r else r := by
  simp [InboxStore.set, Todos.update, Table.updateWhere]

theorem Holds.set {f : TodoRow → TodoRow} {hid : ∀ r, (f r).id = r.id}
    {hkey : ∀ r, (f r).dedupe = r.dedupe} (h : Holds s id)
    (hclosed : ∀ r ∈ s.todos.rows, r.id = id →
      ((f r).closedAt = none ↔ (f r).status = .opened))
    (hview : ∀ r ∈ s.todos.rows, r.id = id → (f r).view = r.view) :
    Holds (s.set id f hid hkey) id := by
  have hnone : s.events = s.events ++ [].map fun k => ⟨id, 0, k, ⟨.user, none⟩⟩ := by simp
  exact h.write [] f (set_rows f hid hkey) rfl hnone hid hclosed hview

theorem Holds.set_event {f : TodoRow → TodoRow} {hid : ∀ r, (f r).id = r.id}
    {hkey : ∀ r, (f r).dedupe = r.dedupe} {kind : TodoEventKind} (h : Holds s id)
    (hclosed : ∀ r ∈ s.todos.rows, r.id = id →
      ((f r).closedAt = none ↔ (f r).status = .opened))
    (hview : ∀ r ∈ s.todos.rows, r.id = id → (f r).view = r.view.apply kind) :
    Holds ((s.set id f hid hkey).event id ts actor kind) id :=
  h.write [kind] f (set_rows f hid hkey) rfl rfl hid hclosed hview

/-- An event that says nothing of the fields accounted for. -/
theorem Holds.event {kind : TodoEventKind} (h : Holds s id) (hkind : ∀ v : View, v.apply kind = v) :
    Holds (s.event id ts actor kind) id := by
  have hrows : s.todos.rows = s.todos.rows.map fun r => if r.id = id then r else r := by simp
  exact h.write [kind] (fun r => r) hrows rfl rfl (fun _ => rfl) (fun r hr _ => h.1.closed r hr)
    fun r _ _ => (hkind r.view).symm

theorem Holds.tagEvent {kind : List Text → TodoEventKind} {tags : List Text} (h : Holds s id)
    (hkind : ∀ v : View, v.apply (kind tags) = v) :
    Holds (s.tagEvent id ts actor kind tags) id := by
  unfold InboxStore.tagEvent
  split_ifs
  · exact h
  · exact h.event hkind

/-! Tags. -/

theorem Holds.retag (h : Holds s id) (htodos : s'.todos = s.todos) (hevents : s'.events = s.events)
    (htags : ∀ x, Tags (s'.tagsFor x)) : Holds s' id := by
  obtain ⟨⟨hclosed, -, hknown, hreplayed⟩, hin⟩ := h
  refine ⟨⟨?_, htags, ?_, ?_⟩, ?_⟩
  · rwa [htodos]
  · rwa [htodos, hevents]
  · unfold InboxStore.history at hreplayed ⊢
    rwa [htodos, hevents]
  · rwa [htodos]

theorem tags_sublist {tags kept : List Text} (h : Tags tags) (hsub : kept.Sublist tags) :
    Tags kept where
  tag t ht := h.tag t (hsub.subset ht)
  nodup := h.nodup.sublist hsub
  length := hsub.length_le.trans h.length

theorem tagsFor_insertIgnore {t : Text} (hnew : t ∉ s.tagsFor id) (x : Text) :
    tagsFor { s with tags := s.tags.insertIgnore (id, t) } x =
      s.tagsFor x ++ if x = id then [t] else [] := by
  have hrow : (id, t) ∉ s.tags.rows := by
    intro hmem
    exact hnew (List.mem_map.mpr ⟨(id, t), List.mem_filter.mpr ⟨hmem, by simp⟩, rfl⟩)
  have hrows : (s.tags.insertIgnore (id, t)).rows = s.tags.rows ++ [(id, t)] := by
    unfold Table.insertIgnore
    rw [dif_neg (by simpa using hrow)]
  unfold tagsFor
  rw [hrows, List.filter_append, List.map_append]
  congr 1
  split_ifs with hx
  · simp [hx]
  · simp [Ne.symm hx]

/-- What the loop over the tags to add keeps: the tags added stand behind those there were. -/
structure Adding (s : InboxStore) (id : Text) (acc : InboxStore × List Text) : Prop where
  todos : acc.1.todos = s.todos
  events : acc.1.events = s.events
  own : acc.1.tagsFor id = s.tagsFor id ++ acc.2
  tags : ∀ x, Tags (acc.1.tagsFor x)

theorem Adding.addTag {acc : InboxStore × List Text} {t : Text} (h : Adding s id acc)
    (ht : IsTag t) : Adding s id (InboxStore.addTag id (s.tagsFor id) acc t) := by
  obtain ⟨s', added⟩ := acc
  have hown : s'.tagsFor id = s.tagsFor id ++ added := h.own
  simp only [InboxStore.addTag]
  split_ifs with hfull hin
  · exact h
  · exact h
  have hnew : t ∉ s'.tagsFor id := by
    rw [hown, List.mem_append]
    exact hin
  have htags := h.tags id
  refine ⟨h.todos, h.events, ?_, ?_⟩
  · show tagsFor { s' with tags := s'.tags.insertIgnore (id, t) } id = _
    rw [tagsFor_insertIgnore hnew, if_pos rfl, hown, List.append_assoc]
  · intro x
    show Tags (tagsFor { s' with tags := s'.tags.insertIgnore (id, t) } x)
    rw [tagsFor_insertIgnore hnew]
    split_ifs with hx
    · subst hx
      refine ⟨?_, ?_, ?_⟩
      · intro u hu
        rcases List.mem_append.mp hu with hu | hu
        · exact htags.tag u hu
        · exact List.mem_singleton.mp hu ▸ ht
      · exact List.nodup_append'.mpr ⟨htags.nodup, List.nodup_singleton t, by simpa using hnew⟩
      · rw [hown]
        simp only [List.length_append, List.length_singleton]
        omega
    · rw [List.append_nil]
      exact h.tags x

theorem adding_addTags {tags : List Text} (hs : ∀ x, Tags (s.tagsFor x))
    (htags : ∀ t ∈ tags, IsTag t) : Adding s id (s.addTags id tags) := by
  have hall : ∀ (rest : List Text) (acc : InboxStore × List Text), (∀ t ∈ rest, IsTag t) →
      Adding s id acc → Adding s id (rest.foldl (addTag id (s.tagsFor id)) acc) := by
    intro rest
    induction rest with
    | nil => exact fun _ _ hacc => hacc
    | cons t rest ih =>
      intro acc hrest hacc
      exact ih _ (fun u hu => hrest u (by simp [hu])) (hacc.addTag (hrest t (by simp)))
  exact hall tags (s, []) htags ⟨rfl, rfl, by simp, hs⟩

theorem Holds.addTags {tags : List Text} (h : Holds s id) (htags : ∀ t ∈ tags, IsTag t) :
    Holds (s.addTags id tags).1 id := by
  have hdone : Adding s id (s.addTags id tags) := adding_addTags h.1.tags htags
  exact h.retag hdone.todos hdone.events hdone.tags

theorem Holds.removeTag {removed : List Text} {t : Text} (h : Holds s id) :
    Holds (InboxStore.removeTag id (s, removed) t).1 id := by
  refine h.retag rfl rfl fun x => tags_sublist (h.1.tags x) ?_
  exact (List.filter_sublist.filter _).map _

theorem Holds.removeTags {tags : List Text} (h : Holds s id) :
    Holds (s.removeTags id tags).1 id := by
  have hall : ∀ (rest : List Text) (acc : InboxStore × List Text), Holds acc.1 id →
      Holds (rest.foldl (InboxStore.removeTag id) acc).1 id := by
    intro rest
    induction rest with
    | nil => exact fun _ hacc => hacc
    | cons t rest ih => exact fun acc hacc => ih _ hacc.removeTag
  exact hall tags (s, []) h

/-! The parts of an update. -/

variable {cur : TodoRow} {patch : UpdateTodoPatch} {input : PostTodoInput}

theorem Holds.updateStatus (h : Holds s cur.id) (actor : TodoSource) (patch : UpdateTodoPatch)
    (now : ℤ) : Holds (s.updateStatus cur actor patch now) cur.id := by
  unfold InboxStore.updateStatus
  split
  · exact h
  split
  · exact h
  next status _ hsame =>
  apply h.set_event
  · intro r _ _
    by_cases hopen : status = .opened
    · simp [hopen]
    · simp [hopen]
  · exact fun r _ _ => rfl

theorem Holds.updatePriority (h : Holds s cur.id) (actor : TodoSource) (patch : UpdateTodoPatch)
    (now : ℤ) : Holds (s.updatePriority cur actor patch now) cur.id := by
  unfold InboxStore.updatePriority
  split
  · exact h
  split_ifs
  · exact h
  exact h.set_event (fun r hr _ => h.1.closed r hr) fun r _ _ => rfl

theorem Holds.updateTitle (h : Holds s cur.id) (actor : TodoSource) (now : ℤ)
    (hfit : ∀ raw, patch.title = some raw → trim raw ≠ cur.title → (trim raw).length ≤ 200) :
    Holds (s.updateTitle cur actor patch now) cur.id := by
  unfold InboxStore.updateTitle
  split
  · exact h
  · exact h
  next title _ htitle =>
  split_ifs with hsame
  · exact h
  obtain ⟨raw, hraw, rfl⟩ := Option.map_eq_some_iff.mp htitle
  apply h.set_event
  · exact fun r hr _ => h.1.closed r hr
  · intro r _ _
    simp only [TodoRow.view, View.apply, List.take_of_length_le (hfit raw hraw hsame)]

theorem Holds.updateBody (h : Holds s cur.id) (actor : TodoSource) (patch : UpdateTodoPatch)
    (now : ℤ) : Holds (s.updateBody cur actor patch now) cur.id := by
  unfold InboxStore.updateBody
  split
  · exact h
  split_ifs
  · exact h
  exact h.set_event (fun r hr _ => h.1.closed r hr) fun r _ _ => rfl

theorem Holds.updateTags (h : Holds s cur.id) (L : Language) (actor : TodoSource)
    (patch : UpdateTodoPatch) (now : ℤ) :
    Holds (s.updateTags L cur actor patch now).1 cur.id := by
  let added := s.addTags cur.id (normalizeTags L patch.tagsAdd)
  have hadded : Holds added.1 cur.id := h.addTags (normalizeTags_tags patch.tagsAdd).tag
  have htold : Holds (added.1.tagEvent cur.id now actor .tagAdd added.2) cur.id :=
    hadded.tagEvent fun _ => rfl
  exact htold.removeTags.tagEvent fun _ => rfl

theorem Sound.update (h : Sound s) (hfit : Fits s (.update actor id patch now))
    (hs : s.update L actor id patch now = some s') : Sound s' := by
  obtain ⟨cur, hcur, rfl⟩ := Option.map_eq_some_iff.mp hs
  obtain ⟨hmem, rfl⟩ := Table.get_eq_some.mp hcur
  have hstart : Holds s cur.id := ⟨h, List.mem_map_of_mem hmem⟩
  have hranked := (hstart.updateStatus actor patch now).updatePriority actor patch now
  have htitled := hranked.updateTitle actor now (hfit cur hcur)
  have hbody := (htitled.updateTags L actor patch now).updateBody actor patch now
  dsimp only
  split
  · apply And.left
    apply hbody.set
    · exact fun r hr _ => hbody.1.closed r hr
    · exact fun r _ _ => rfl
  · exact hbody.1

/-! Posts. -/

theorem Todos.insert_rows {T T' : Todos} {r : TodoRow} (h : T.insert r = some T') :
    T'.rows = T.rows ++ [r] ∧ r.id ∉ T.rows.map TodoRow.id := by
  unfold Todos.insert at h
  split_ifs at h with hnew
  obtain rfl := Option.some.inj h
  exact ⟨rfl, hnew.1⟩

theorem Sound.history_eq_nil (h : Sound s) (hid : id ∉ s.todos.rows.map TodoRow.id) :
    s.history id = [] := by
  unfold InboxStore.history
  rw [List.map_eq_nil_iff, List.filter_eq_nil_iff]
  intro e he heq
  rw [decide_eq_true_eq] at heq
  exact hid (heq ▸ h.known e he)

theorem Sound.create (h : Sound s) (hs : s.create L source input id now = some s') : Sound s' := by
  obtain ⟨todos, htodos, rfl⟩ := Option.map_eq_some_iff.mp hs
  obtain ⟨hrows, hid⟩ := Todos.insert_rows htodos
  have hadded : Adding { s with todos } id
      ({ s with todos }.addTags id (normalizeTags L input.tags)) :=
    adding_addTags h.tags (normalizeTags_tags input.tags).tag
  generalize { s with todos }.addTags id (normalizeTags L input.tags) = acc at hadded
  obtain ⟨s₁, added⟩ := acc
  obtain ⟨hsame, hevents, -, htags⟩ := hadded
  dsimp only at hsame hevents htags
  have hlog : (s₁.event id now source (.created input.title (input.priority.getD .normal))).events =
      s.events ++ [TodoEventKind.created input.title (input.priority.getD .normal)].map
        fun k => ⟨id, now, k, source⟩ := by
    simp [InboxStore.event, hevents]
  have hhistory := history_write (s := s) hlog
  refine ⟨?_, htags, ?_, ?_⟩
  · intro r hr
    rw [InboxStore.event, hsame, hrows] at hr
    rcases List.mem_append.mp hr with hr | hr
    · exact h.closed r hr
    · rw [List.mem_singleton.mp hr]
      simp
  · intro e he
    rw [hlog] at he
    show e.todoId ∈ s₁.todos.rows.map TodoRow.id
    rw [hsame, hrows, List.map_append, List.mem_append]
    rcases List.mem_append.mp he with he | he
    · exact Or.inl (h.known e he)
    · right
      rw [List.mem_singleton.mp he]
      simp
  · intro r hr
    rw [InboxStore.event, hsame, hrows] at hr
    rw [hhistory]
    rcases List.mem_append.mp hr with hr | hr
    · have hne : r.id ≠ id := fun heq => hid (List.mem_map.mpr ⟨r, hr, heq⟩)
      rw [if_neg hne, List.append_nil]
      exact h.replayed r hr
    · obtain rfl := List.mem_singleton.mp hr
      rw [if_pos rfl, h.history_eq_nil hid]
      rfl

theorem Sound.again (h : Sound s) (hcur : cur ∈ s.todos.rows) :
    Sound (s.again L cur source input now) := by
  have hown : ∀ r ∈ s.todos.rows, r.id = cur.id → r = cur := fun r hr hrid =>
    List.inj_on_of_nodup_map s.todos.nodup hr hcur hrid
  have hstart : Holds s cur.id := ⟨h, List.mem_map_of_mem hcur⟩
  -- the event could as well be written before the tags, which it says nothing of
  have hwritten : Holds ((s.set cur.id (seenAgain cur input now)).event cur.id now source
      (seenKind cur input)) cur.id := by
    apply hstart.set_event
    · intro r hr hrid
      obtain rfl := hown r hr hrid
      by_cases hopen : r.status = .opened
      · simp [seenAgain, hopen, (h.closed r hr).mpr hopen]
      · simp [seenAgain, hopen]
    · intro r hr hrid
      obtain rfl := hown r hr hrid
      by_cases hopen : r.status = .opened
      · simp [seenAgain, seenKind, hopen, TodoRow.view, View.apply]
      · simp [seenAgain, seenKind, hopen, TodoRow.view, View.apply]
  have hadded : Adding (s.set cur.id (seenAgain cur input now)) cur.id
      ((s.set cur.id (seenAgain cur input now)).addTags cur.id (normalizeTags L input.tags)) :=
    adding_addTags hwritten.1.tags (normalizeTags_tags input.tags).tag
  have hevents : (s.again L cur source input now).events =
      ((s.set cur.id (seenAgain cur input now)).event cur.id now source
        (seenKind cur input)).events := by
    simp only [InboxStore.again, InboxStore.event, hadded.events]
  have hdone : Holds (s.again L cur source input now) cur.id :=
    hwritten.retag hadded.todos hevents hadded.tags
  exact hdone.1

theorem Sound.post {stored : InboxStore × Text × PostAction} (h : Sound s)
    (hs : s.post L source input id now = some stored) : Sound stored.1 := by
  unfold InboxStore.post at hs
  split at hs
  · obtain ⟨s₁, hcreated, rfl⟩ := Option.map_eq_some_iff.mp hs
    exact h.create hcreated
  next cur hcur =>
  obtain rfl := Option.some.inj hs
  refine h.again ?_
  unfold existing at hcur
  split at hcur
  · cases hcur
  · cases hcur
  · exact List.mem_of_find?_eq_some hcur

theorem step_sound {a : Action} (h : Sound s) (hok : Fits s a) (hs : step L s a = some s') :
    Sound s' := by
  cases a with
  | post source input id now =>
    obtain rfl := Option.some.inj hs
    cases hpost : s.post L source input id now with
    | none => exact h
    | some stored => exact h.post hpost
  | update actor id patch now =>
    obtain rfl := Option.some.inj hs
    cases hupdate : s.update L actor id patch now with
    | none => exact h
    | some s₁ => exact h.update hok hupdate

instance (s : InboxStore) (a : Action) : Decidable (Fits s a) :=
  match a with
  | .post _ _ _ _ => isTrue trivial
  | .update _ id patch _ =>
    decidable_of_iff (∀ cur ∈ s.todos.get id, ∀ raw ∈ patch.title,
      trim raw ≠ cur.title → (trim raw).length ≤ 200) Iff.rfl

def user : TodoSource := ⟨.user, none⟩

end ClaudeFleet.Inbox
