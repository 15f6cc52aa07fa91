import ClaudeFleet.Ingest

/-! What stays in the store once a line has been ingested, whatever is ingested later. -/
namespace ClaudeFleet.StateDb

open IngestParse

/-- Columns that are set once and kept. -/
structure SessionRow.Le (s t : SessionRow) : Prop where
  startedAt : s.startedAt.isSome → t.startedAt.isSome
  cwd : s.cwd.isSome → t.cwd.isSome
  firstUserMessage : s.firstUserMessage.isSome → t.firstUserMessage.isSome

theorem SessionRow.Le.refl (s : SessionRow) : s.Le s :=
  ⟨fun h => h, fun h => h, fun h => h⟩

theorem SessionRow.Le.trans {s t u : SessionRow} (h : s.Le t) (h' : t.Le u) : s.Le u :=
  ⟨h'.startedAt ∘ h.startedAt, h'.cwd ∘ h.cwd, h'.firstUserMessage ∘ h.firstUserMessage⟩

/-- Later contents keep the earlier event keys, session rows and tags. -/
structure Grows (a b : Db) : Prop where
  events : a.events.rows.map EventRow.key ⊆ b.events.rows.map EventRow.key
  sessions : ∀ id s, a.sessions.get id = some s → ∃ t, b.sessions.get id = some t ∧ s.Le t
  tags : a.sessionTags.rows.map TagRow.key ⊆ b.sessionTags.rows.map TagRow.key

theorem Grows.trans {a b c : Db} (h : Grows a b) (h' : Grows b c) : Grows a c where
  events := List.Subset.trans h.events h'.events
  sessions id s hs := by
    obtain ⟨t, ht, hst⟩ := h.sessions id s hs
    obtain ⟨u, hu, htu⟩ := h'.sessions id t ht
    exact ⟨u, hu, hst.trans htu⟩
  tags := List.Subset.trans h.tags h'.tags

theorem Grows.of_eq {a b : Db} (he : b.events = a.events) (hs : b.sessions = a.sessions)
    (ht : b.sessionTags = a.sessionTags) : Grows a b where
  events := by rw [he]; exact List.Subset.refl _
  sessions id s h := ⟨s, by rw [hs]; exact h, .refl s⟩
  tags := by rw [ht]; exact List.Subset.refl _

theorem Grows.refl (a : Db) : Grows a a := .of_eq rfl rfl rfl

theorem Grows.updateSessions {db : Db} {p : SessionRow → Bool} {f : SessionRow → SessionRow}
    (hf : ∀ r, (f r).id = r.id) (hle : ∀ r ∈ db.sessions.rows, p r = true → r.Le (f r)) :
    Grows db { db with sessions := db.sessions.updateWhere p f hf } where
  events := List.Subset.refl _
  tags := List.Subset.refl _
  sessions id s h := by
    rw [Table.get_updateWhere, h]
    refine ⟨_, rfl, ?_⟩
    dsimp only
    split_ifs with hp
    · exact hle s (Table.get_eq_some.mp h).1 hp
    · exact .refl s

variable (rt : Runtime) (workspaceId sessionId : String) (now : ℤ)

theorem touchSession_grows (db : Db) (tss : List (Option ℤ)) :
    Grows db (touchSession db workspaceId sessionId tss) := by
  unfold touchSession
  dsimp only
  split
  · exact .refl db
  · next next hnext =>
    split_ifs with hn he
    · refine ⟨List.Subset.refl _, fun id s hs => ⟨s, ?_, .refl s⟩, List.Subset.refl _⟩
      rw [Table.get_insertIgnore, hs]
      simp
    · exact .refl db
    · refine .updateSessions (by intro _; rfl) fun r hr hp =>
        ⟨fun hstart => ?_, fun h => h, fun h => h⟩
      have hget := Table.get_eq_some.mpr ⟨hr, rfl⟩
      simp only [decide_eq_true_eq] at hp
      rw [hp] at hget
      rw [hget] at hnext
      exact foldSessionTouch_startedAt hnext (.inl ⟨_, rfl, hstart⟩)

theorem insertEvent_grows (db : Db) (rawLine : String) (e : EventColumns) :
    Grows db (insertEvent db workspaceId sessionId rawLine e).1 := by
  have hsub := Table.keys_subset_insertIgnore db.events (eventRow db workspaceId sessionId rawLine e)
  unfold insertEvent
  dsimp only
  split_ifs
  · exact ⟨hsub, fun _ s hs => ⟨s, hs, .refl s⟩, List.Subset.refl _⟩
  · exact ⟨hsub, fun _ s hs => ⟨s, hs, .refl s⟩, List.Subset.refl _⟩

/-- Inserting tags one by one keeps the old ones and has all the new ones. -/
theorem insertTags_keys (tags : List String) (T : Table TagRow.key) :
    T.rows.map TagRow.key ⊆ (tags.foldl
        (fun tags tag => tags.insertIgnore ⟨workspaceId, sessionId, tag⟩) T).rows.map TagRow.key ∧
      ∀ tag ∈ tags, (sessionId, tag) ∈ (tags.foldl
        (fun tags tag => tags.insertIgnore ⟨workspaceId, sessionId, tag⟩) T).rows.map TagRow.key := by
  induction tags generalizing T with
  | nil => exact ⟨List.Subset.refl _, by simp⟩
  | cons tag tags ih =>
    obtain ⟨hold, hnew⟩ := ih (T.insertIgnore ⟨workspaceId, sessionId, tag⟩)
    refine ⟨List.Subset.trans (Table.keys_subset_insertIgnore T _) hold, fun t ht => ?_⟩
    rcases List.mem_cons.mp ht with rfl | ht
    · exact hold (Table.key_mem_insertIgnore T (⟨workspaceId, sessionId, t⟩ : TagRow))
    · exact hnew t ht

theorem applyMetadata_grows (db : Db) (p : ParsedLine) :
    Grows db (applyMetadata rt db workspaceId sessionId p now) := by
  unfold applyMetadata
  split
  · exact .refl db
  · exact .updateSessions (by intro _; rfl) fun r _ _ => ⟨fun h => h, fun _ => rfl, fun h => h⟩
  · exact .updateSessions (by intro _; rfl) fun r _ _ => ⟨fun h => h, fun h => h, fun h => h⟩
  · refine .updateSessions (by intro _; rfl) fun r _ _ => ⟨fun h => h, fun h => h, fun h => ?_⟩
    simp
  · exact ⟨List.Subset.refl _, fun _ s hs => ⟨s, hs, .refl s⟩, (insertTags_keys ..).1⟩

theorem insertAnchor_grows (db : Db) (p : ParsedLine) :
    Grows db (insertAnchor rt db workspaceId sessionId p now) := by
  unfold insertAnchor
  dsimp only
  split <;> exact .of_eq rfl rfl rfl

theorem ingestOne_grows (db : Db) (rawLine : String) (p : ParsedLine) :
    Grows db (ingestOne rt db workspaceId sessionId rawLine p now).1 := by
  have hmeta := (insertEvent_grows workspaceId sessionId db rawLine p.event).trans
    (applyMetadata_grows rt workspaceId sessionId now _ p)
  unfold ingestOne
  dsimp only
  split_ifs
  · exact hmeta.trans (insertAnchor_grows rt workspaceId sessionId now _ p)
  · exact hmeta

theorem ingestLines_grows (lines : List (String × Option ParsedLine)) (c : Chunk) :
    Grows c.st.db (lines.foldl (ingestLine rt workspaceId sessionId now) c).st.db :=
  ingestLines_induct (P := Grows c.st.db)
    (fun db raw p h => h.trans (ingestOne_grows rt workspaceId sessionId now db raw p))
    (fun _ h => h.trans (.of_eq rfl rfl rfl)) lines c (.refl _)

theorem chunkBody_grows (st : State) (lines : List (String × Option ParsedLine)) :
    Grows st.db (chunkBody rt st workspaceId sessionId lines now).st.db :=
  chunkBody_induct (P := Grows st.db)
    (fun db tss h => h.trans (touchSession_grows workspaceId sessionId db tss))
    (fun db raw p h => h.trans (ingestOne_grows rt workspaceId sessionId now db raw p))
    (fun _ h => h.trans (.of_eq rfl rfl rfl)) (.refl _) lines

/-- The column a line's metadata fills once is filled. -/
def SessionRow.Has (s : SessionRow) : Metadata → Prop
  | .cwd _ => s.cwd.isSome
  | .firstUserMessage _ => s.firstUserMessage.isSome
  | _ => True

theorem SessionRow.Has.mono {s t : SessionRow} {m : Metadata} (h : s.Has m) (hst : s.Le t) :
    t.Has m := by
  cases m with
  | cwd v => exact hst.cwd h
  | firstUserMessage v => exact hst.firstUserMessage h
  | nothing | aiTitle v | summary v => trivial

/-- What an ingested line leaves behind for good. -/
structure Known (rt : Runtime) (db : Db) (sessionId : String) (p : ParsedLine) : Prop where
  event : (sessionId, p.event.dedupKey) ∈ db.events.rows.map EventRow.key
  session : ∃ s, db.sessions.get sessionId = some s ∧ (p.ts.isSome → s.startedAt.isSome) ∧
    s.Has (metadataOf rt p)
  tags : ∀ text, metadataOf rt p = .summary text → ∀ tag ∈ lineTags rt p,
    (sessionId, tag) ∈ db.sessionTags.rows.map TagRow.key

variable {rt sessionId}

theorem Known.mono {a b : Db} {p : ParsedLine} (h : Known rt a sessionId p) (hab : Grows a b) :
    Known rt b sessionId p where
  event := hab.events h.event
  session := by
    obtain ⟨s, hs, hstart, hhas⟩ := h.session
    obtain ⟨t, ht, hle⟩ := hab.sessions _ s hs
    exact ⟨t, ht, fun hp => hle.startedAt (hstart hp), hhas.mono hle⟩
  tags text hm tag htag := hab.tags (h.tags text hm tag htag)

variable (rt sessionId)

theorem applyMetadata_has {db : Db} {s : SessionRow} (p : ParsedLine)
    (hs : db.sessions.get sessionId = some s) :
    ∃ t, (applyMetadata rt db workspaceId sessionId p now).sessions.get sessionId = some t ∧
      s.Le t ∧ t.Has (metadataOf rt p) := by
  obtain ⟨t, ht, hle⟩ := (applyMetadata_grows rt workspaceId sessionId now db p).sessions _ s hs
  refine ⟨t, ht, hle, ?_⟩
  have hid := (Table.get_eq_some.mp hs).2
  unfold applyMetadata at ht
  split at ht
  · next hm => simp [hm, SessionRow.Has]
  · next v hm =>
    rw [Table.get_updateWhere, hs] at ht
    rw [hm, ← Option.some.inj ht]
    cases hc : s.cwd with
    | none => simp [SessionRow.Has, hid, hc]
    | some c => simp [SessionRow.Has, hc]
  · next hm => simp [hm, SessionRow.Has]
  · next hm =>
    rw [Table.get_updateWhere, hs] at ht
    rw [hm, ← Option.some.inj ht]
    simp [SessionRow.Has, hid]
  · next hm => simp [hm, SessionRow.Has]

theorem applyMetadata_tags (db : Db) (p : ParsedLine) {text : String}
    (hm : metadataOf rt p = .summary text) (tag : String) (htag : tag ∈ lineTags rt p) :
    (sessionId, tag) ∈ (applyMetadata rt db workspaceId sessionId p now).sessionTags.rows.map
      TagRow.key := by
  simp only [applyMetadata, hm]
  exact (insertTags_keys workspaceId sessionId _ _).2 tag htag

/-- Ingesting a line on a started session makes it known. -/
theorem ingestOne_known {db : Db} (rawLine : String) (p : ParsedLine) {s : SessionRow}
    (hs : db.sessions.get sessionId = some s) (hstart : p.ts.isSome → s.startedAt.isSome) :
    Known rt (ingestOne rt db workspaceId sessionId rawLine p now).1 sessionId p := by
  have hins : (insertEvent db workspaceId sessionId rawLine p.event).1.sessions = db.sessions ∧
      (sessionId, p.event.dedupKey) ∈
        (insertEvent db workspaceId sessionId rawLine p.event).1.events.rows.map EventRow.key := by
    have hkey := Table.key_mem_insertIgnore db.events
      (eventRow db workspaceId sessionId rawLine p.event)
    unfold insertEvent
    dsimp only
    split_ifs
    · exact ⟨rfl, hkey⟩
    · exact ⟨rfl, hkey⟩
  obtain ⟨hsess, hevent⟩ := hins
  have hmeta : Known rt (applyMetadata rt (insertEvent db workspaceId sessionId rawLine p.event).1
      workspaceId sessionId p now) sessionId p := by
    rw [← hsess] at hs
    obtain ⟨t, ht, hle, hhas⟩ := applyMetadata_has rt workspaceId sessionId now p hs
    exact
      { event := (applyMetadata_grows rt workspaceId sessionId now _ p).events hevent
        session := ⟨t, ht, fun hp => hle.startedAt (hstart hp), hhas⟩
        tags := fun text hm => applyMetadata_tags rt workspaceId sessionId now _ p hm }
  unfold ingestOne
  dsimp only
  split_ifs
  · exact hmeta.mono (insertAnchor_grows rt workspaceId sessionId now _ p)
  · exact hmeta

theorem touchSession_row (db : Db) {tss : List (Option ℤ)} (h : tss ≠ []) :
    ∃ s, (touchSession db workspaceId sessionId tss).sessions.get sessionId = some s ∧
      ∀ ts ∈ tss, ts.isSome → s.startedAt.isSome := by
  obtain ⟨next, hnext⟩ := Option.isSome_iff_exists.mp (foldSessionTouch_isSome
    ((db.sessions.get sessionId).map fun r => ⟨r.startedAt, r.lastActiveAt⟩) h)
  have hstart : ∀ ts ∈ tss, ts.isSome → next.startedAt.isSome :=
    fun ts hts hsome => foldSessionTouch_startedAt hnext (.inr ⟨ts, hts, hsome⟩)
  simp only [touchSession, hnext]
  cases hg : db.sessions.get sessionId with
  | none =>
    simp only [Option.map_none, if_true]
    rw [Table.get_insertIgnore, hg, if_pos ⟨rfl, rfl⟩]
    exact ⟨_, rfl, hstart⟩
  | some r =>
    simp only [Option.map_some, reduceCtorEq, if_false]
    split_ifs with he
    · refine ⟨r, hg, ?_⟩
      rwa [← Option.some.inj he] at hstart
    · rw [Table.get_updateWhere, hg]
      refine ⟨_, rfl, ?_⟩
      simpa [(Table.get_eq_some.mp hg).2] using hstart

/-- Every parsed line of a loop over a started session is known afterwards. -/
theorem ingestLines_known (lines : List (String × Option ParsedLine)) :
    ∀ c : Chunk, (∃ s, c.st.db.sessions.get sessionId = some s ∧
      ∀ l ∈ lines, ∀ p, l.2 = some p → p.ts.isSome → s.startedAt.isSome) →
    ∀ l ∈ lines, ∀ p, l.2 = some p →
      Known rt (lines.foldl (ingestLine rt workspaceId sessionId now) c).st.db sessionId p := by
  induction lines with
  | nil =>
    intro c _ l hl
    cases hl
  | cons x xs ih =>
    rintro c ⟨s, hs, hstart⟩ l hl p hp
    have hgrow : Grows c.st.db (ingestLine rt workspaceId sessionId now c x).st.db :=
      ingestLines_grows rt workspaceId sessionId now [x] c
    rcases List.mem_cons.mp hl with rfl | hl
    · refine Known.mono ?_ (ingestLines_grows rt workspaceId sessionId now xs _)
      have hone := ingestOne_known rt workspaceId sessionId now l.1 p hs
        (hstart l (by simp) p hp)
      rcases ingestLine_cases rt workspaceId sessionId now c l hp with he | he
      · rwa [he]
      · rw [he]
        exact hone.mono (.of_eq rfl rfl rfl)
    · obtain ⟨t, ht, hle⟩ := hgrow.sessions _ s hs
      exact ih _ ⟨t, ht, fun m hm q hq hts =>
        hle.startedAt (hstart m (List.mem_cons_of_mem _ hm) q hq hts)⟩ l hl p hp

theorem chunkBody_known (st : State) (lines : List (String × Option ParsedLine))
    (l : String × Option ParsedLine) (hl : l ∈ lines) (p : ParsedLine) (hp : l.2 = some p) :
    Known rt (chunkBody rt st workspaceId sessionId lines now).st.db sessionId p := by
  unfold chunkBody
  split_ifs with hall
  · have := List.all_eq_true.mp hall l hl
    simp [hp] at this
  · have htss : ∀ m ∈ lines, ∀ q, m.2 = some q →
        q.ts ∈ lines.filterMap fun l => l.2.map ParsedLine.ts :=
      fun m hm q hq => List.mem_filterMap.mpr ⟨m, hm, by simp [hq]⟩
    obtain ⟨s, hs, hstart⟩ := touchSession_row workspaceId sessionId st.db
      (List.ne_nil_of_mem (htss l hl p hp))
    exact ingestLines_known rt workspaceId sessionId now lines _
      ⟨s, hs, fun m hm q hq hts => hstart _ (htss m hm q hq) hts⟩ l hl p hp

/-- Ingest only adds to the database and only clears keys from the guard set. -/
structure StateGrows (a b : State) : Prop where
  db : Grows a.db b.db
  ids : b.pendingClaudeIds ⊆ a.pendingClaudeIds

theorem StateGrows.refl (a : State) : StateGrows a a := ⟨.refl _, fun _ h => h⟩

theorem StateGrows.trans {a b c : State} (h : StateGrows a b) (h' : StateGrows b c) :
    StateGrows a c :=
  ⟨h.db.trans h'.db, fun _ hx => h.ids (h'.ids hx)⟩

theorem ingestChunk_grows (st : State) (chunk : List String) (commits : Bool) :
    StateGrows st (ingestChunk rt st workspaceId sessionId chunk now commits).1 := by
  rcases ingestChunk_cases rt workspaceId sessionId now st chunk commits with
    he | ⟨parsed, _, _, he⟩
  · rw [he]
    exact .refl st
  · rw [he]
    refine ⟨chunkBody_grows rt workspaceId sessionId now st _, ?_⟩
    have hm := (chunkBody_mapping rt workspaceId sessionId now st (chunk.zip parsed)).1
    unfold Chunk.Mapping at hm
    split_ifs at hm
    · rw [hm.2.1]
      exact Finset.erase_subset _ _
    · rw [hm.1]

theorem ingestBatch_grows (st : State) (rawLines : List String) (commits : ℕ → Bool) :
    StateGrows st (ingestBatch rt st workspaceId sessionId rawLines now commits).1 :=
  ingestBatch_induct (P := StateGrows st)
    (fun _ chunk ok h => h.trans (ingestChunk_grows rt workspaceId sessionId now _ chunk ok))
    (.refl st) rawLines commits

/-- The line parses, and when it holds an object everything it leaves behind is there. -/
def LineKnown (st : State) (line : String) : Prop :=
  ∃ q, parseIngestLine rt line = .ok q ∧ ∀ p, q = some p →
    Known rt st.db sessionId p ∧ pendingKey workspaceId sessionId ∉ st.pendingClaudeIds

variable {rt workspaceId sessionId}

theorem LineKnown.mono {a b : State} {line : String} (h : LineKnown rt workspaceId sessionId a line)
    (hab : StateGrows a b) : LineKnown rt workspaceId sessionId b line := by
  obtain ⟨q, hq, hknown⟩ := h
  refine ⟨q, hq, fun p hp => ?_⟩
  obtain ⟨hk, hids⟩ := hknown p hp
  exact ⟨hk.mono hab.db, fun hmem => hids (hab.ids hmem)⟩

variable {now}

theorem ingestChunk_known {st : State} {chunk : List String} {commits : Bool}
    {results : List IngestResult}
    (h : (ingestChunk rt st workspaceId sessionId chunk now commits).2 = some results) :
    ∀ line ∈ chunk, LineKnown rt workspaceId sessionId
      (ingestChunk rt st workspaceId sessionId chunk now commits).1 line := by
  intro line hline
  rcases ingestChunk_cases rt workspaceId sessionId now st chunk commits with
    he | ⟨parsed, hparsed, _, he⟩
  · rw [he] at h
    cases h
  · rw [he]
    obtain ⟨hfst, hall⟩ := zip_parsed hparsed
    obtain ⟨l, hl, rfl⟩ := List.mem_map.mp (hfst.symm ▸ hline)
    refine ⟨l.2, hall l hl, fun p hp => ⟨?_, ?_⟩⟩
    · exact chunkBody_known rt workspaceId sessionId now st _ l hl p hp
    · exact (chunkBody_mapping rt workspaceId sessionId now st _).2 ⟨l, hl, by simp [hp]⟩

/-- After a call that resolves, every line it was given is known. -/
theorem ingestBatch_known {st : State} {rawLines : List String} {commits : ℕ → Bool}
    (h : (ingestBatch rt st workspaceId sessionId rawLines now commits).2 ≠ none) :
    ∀ line ∈ rawLines, LineKnown rt workspaceId sessionId
      (ingestBatch rt st workspaceId sessionId rawLines now commits).1 line := by
  have hfrom : ∀ fuel i lines st, lines.length ≤ fuel →
      (ingestFrom rt workspaceId sessionId now commits fuel i lines st).2 ≠ none →
      ∀ line ∈ lines, LineKnown rt workspaceId sessionId
        (ingestFrom rt workspaceId sessionId now commits fuel i lines st).1 line := by
    intro fuel
    induction fuel with
    | zero =>
      intro i lines st hlen _ line hline
      rw [List.length_eq_zero_iff.mp (Nat.le_zero.mp hlen)] at hline
      cases hline
    | succ fuel ih =>
      intro i lines st hlen hres line hline
      obtain ⟨st', results, hchunk, hrest, he⟩ :=
        ingestFrom_resolved (List.ne_nil_of_mem hline) hres
      rw [he]
      have hdrop : (lines.drop ingestTxLines).length ≤ fuel := by
        have : 0 < lines.length := List.length_pos_of_mem hline
        simp only [List.length_drop, ingestTxLines]
        omega
      rw [← List.take_append_drop ingestTxLines lines] at hline
      rcases List.mem_append.mp hline with hline | hline
      · have hknown := ingestChunk_known (by rw [hchunk]) line hline
        rw [hchunk] at hknown
        exact hknown.mono (ingestFrom_induct (P := StateGrows st') (fun _ chunk ok hg =>
          hg.trans (ingestChunk_grows rt workspaceId sessionId now _ chunk ok)) commits _ _ _ _
            (.refl st'))
      · exact ih _ _ _ hdrop hrest line hline
  exact hfrom _ _ _ _ (le_refl _) h

end ClaudeFleet.StateDb
