import ClaudeFleet.BrokerMapping

/-! A tab whose committed conversation has a transcript keeps one: remaps and ingest never
move it to a conversation without. -/
namespace ClaudeFleet.StateDb

open IngestParse Transition

variable {rt : Runtime} {workspaceId sessionId : String} {now : ℤ}

/-- The touch makes the session real and takes no other session's row. -/
theorem touchSession_isReal (db : Db) {tss : List (Option ℤ)} (h : tss ≠ []) (id : String) :
    claudeSessionIsReal (touchSession db workspaceId sessionId tss) id =
      (claudeSessionIsReal db id || decide (id = sessionId)) := by
  have hprev : ∀ r, db.sessions.get sessionId = some r →
      claudeSessionIsReal db id = (claudeSessionIsReal db id || decide (id = sessionId)) := by
    intro r hr
    by_cases hid : id = sessionId
    · simp [claudeSessionIsReal, hid, hr]
    · simp [hid]
  unfold touchSession
  dsimp only
  split
  · next hnone =>
    have := foldSessionTouch_isSome
      ((db.sessions.get sessionId).map fun r => ⟨r.startedAt, r.lastActiveAt⟩) h
    simp [hnone] at this
  · split_ifs with hn he
    · simp only [claudeSessionIsReal, Table.isSome_get_insertIgnore]
    · obtain ⟨r, hr⟩ := Option.ne_none_iff_exists'.mp (mt (Option.map_eq_none_iff.mpr) hn)
      exact hprev r hr
    · obtain ⟨r, hr⟩ := Option.ne_none_iff_exists'.mp (mt (Option.map_eq_none_iff.mpr) hn)
      rw [← hprev r hr]
      simp only [claudeSessionIsReal, Table.isSome_get_updateWhere]

theorem applyMetadata_isReal (db : Db) (p : ParsedLine) (id : String) :
    claudeSessionIsReal (applyMetadata rt db workspaceId sessionId p now) id =
      claudeSessionIsReal db id := by
  unfold applyMetadata
  split
  · rfl
  · simp only [claudeSessionIsReal, Table.isSome_get_updateWhere]
  · simp only [claudeSessionIsReal, Table.isSome_get_updateWhere]
  · simp only [claudeSessionIsReal, Table.isSome_get_updateWhere]
  · rfl

theorem ingestOne_isReal (db : Db) (rawLine : String) (p : ParsedLine) (id : String) :
    claudeSessionIsReal (ingestOne rt db workspaceId sessionId rawLine p now).1 id =
      claudeSessionIsReal db id := by
  have hins : claudeSessionIsReal (insertEvent db workspaceId sessionId rawLine p.event).1 id =
      claudeSessionIsReal db id := by
    unfold insertEvent
    dsimp only
    split_ifs <;> rfl
  have hanchor : ∀ db : Db, claudeSessionIsReal (insertAnchor rt db workspaceId sessionId p now) id =
      claudeSessionIsReal db id := by
    intro db
    unfold insertAnchor
    dsimp only
    split <;> rfl
  unfold ingestOne
  dsimp only
  split_ifs
  · rw [hanchor, applyMetadata_isReal, hins]
  · rw [applyMetadata_isReal, hins]

theorem ingestLines_isReal (lines : List (String × Option ParsedLine)) (c : Chunk) (id : String)
    (h : claudeSessionIsReal c.st.db id = true) :
    claudeSessionIsReal (lines.foldl (ingestLine rt workspaceId sessionId now) c).st.db id = true :=
  ingestLines_induct (P := fun db => claudeSessionIsReal db id = true)
    (fun db raw p hdb => by rwa [ingestOne_isReal]) (fun _ hdb => hdb) lines c h

/-- A chunk keeps real sessions real, and makes its own real when a line parsed. -/
theorem chunkBody_isReal (st : State) (lines : List (String × Option ParsedLine)) (id : String)
    (h : claudeSessionIsReal st.db id = true ∨ (id = sessionId ∧ ∃ l ∈ lines, l.2.isSome)) :
    claudeSessionIsReal (chunkBody rt st workspaceId sessionId lines now).st.db id = true := by
  unfold chunkBody
  split_ifs with hall
  · rcases h with h | ⟨_, l, hl, hsome⟩
    · exact h
    · have := List.all_eq_true.mp hall l hl
      simp [Option.isNone_iff_eq_none.mp this] at hsome
  · have htss : (lines.filterMap fun l => l.2.map ParsedLine.ts) ≠ [] := by
      intro he
      apply hall
      rw [List.filterMap_eq_nil_iff] at he
      exact List.all_eq_true.mpr fun l hl => by simpa using he l hl
    apply ingestLines_isReal
    rw [touchSession_isReal _ htss]
    rcases h with h | ⟨rfl, _⟩
    · simp [h]
    · simp

/-- The tab's committed conversation has a sessions row; with `v`, the mapping is verified
too. -/
def OnReal (v : Prop) (db : Db) (workspaceId brokerSessionId : String) : Prop :=
  ∃ r, existingMapping db workspaceId brokerSessionId = some r ∧ (v → r.verified = true) ∧
    claudeSessionIsReal db r.claudeSessionId = true

theorem lookupResumable_isSome_iff {db : Db} {workspaceId brokerSessionId : String} :
    (lookupResumableBrokerSession db workspaceId brokerSessionId).isSome ↔
      OnReal True db workspaceId brokerSessionId := by
  unfold lookupResumableBrokerSession OnReal
  cases existingMapping db workspaceId brokerSessionId with
  | none => simp
  | some r => simp [Option.filter]

variable {v : Prop} {w b : String}

theorem ingestChunk_onReal {st : State} (h : OnReal v st.db w b) (chunk : List String)
    (commits : Bool) :
    OnReal v (ingestChunk rt st workspaceId sessionId chunk now commits).1.db w b := by
  rcases ingestChunk_cases rt workspaceId sessionId now st chunk commits with
    he | ⟨parsed, _, _, he⟩
  · rwa [he]
  rw [he]
  obtain ⟨r, hr, hv, hreal⟩ := h
  have hkeep : ∀ id, claudeSessionIsReal st.db id = true → claudeSessionIsReal
      (chunkBody rt st workspaceId sessionId (chunk.zip parsed) now).st.db id = true :=
    fun id hid => chunkBody_isReal st _ id (.inl hid)
  have hm := (chunkBody_mapping rt workspaceId sessionId now st (chunk.zip parsed)).1
  unfold Chunk.Mapping at hm
  unfold OnReal existingMapping
  split_ifs at hm with hp
  · rw [hm.2.2, get_promotePendingBrokerMapping]
    refine ⟨_, Option.map_eq_some_iff.mpr ⟨r, hr, rfl⟩, ?_⟩
    split_ifs
    · refine ⟨fun _ => rfl, chunkBody_isReal st _ sessionId (.inr ⟨rfl, ?_⟩)⟩
      by_contra hnone
      have hall : ((chunk.zip parsed).all fun l => l.2.isNone) = true := by
        rw [List.all_eq_true]
        intro l hl
        by_contra hl'
        exact hnone ⟨l, hl, by simpa [Option.isSome_iff_ne_none] using hl'⟩
      simp [chunkBody, hall] at hp
    · exact ⟨hv, hkeep _ hreal⟩
  · rw [hm.2]
    exact ⟨r, hr, hv, hkeep _ hreal⟩

theorem settle_onReal {st : State} (h : OnReal v st.db w b) {db : Db}
    {ids : Finset (String × String)} {removed : Option String} {outcome : Outcome}
    (hc : OnReal v db w b) :
    OnReal v (settle st workspaceId db ids removed outcome).db w b := by
  cases outcome with
  | committed => exact hc
  | failedEarly => exact h
  | failedLate => exact h

theorem record_onReal {st : State} (h : OnReal v st.db w b)
    (workspaceId brokerSessionId claudeSessionId : String) (now : ℤ) (outcome : Outcome) :
    OnReal v (recordBrokerSessionMapping st workspaceId brokerSessionId claudeSessionId now
      outcome).1.db w b := by
  obtain ⟨r, hr, hv, hreal⟩ := id h
  cases hc : commitsNow st.db workspaceId brokerSessionId claudeSessionId with
  | true =>
    rw [record_of_commitsNow hc]
    apply settle_onReal h
    unfold OnReal existingMapping
    rw [get_commitMapping]
    split_ifs with hk
    · obtain ⟨rfl, rfl⟩ := Prod.mk.inj hk
      refine ⟨_, rfl, fun _ => rfl, ?_⟩
      simp only [commitsNow, hr, Option.map_some, Option.some.injEq, Option.any_some, hreal,
        Bool.not_true, Bool.or_false, Bool.or_eq_true, decide_eq_true_eq] at hc
      rcases hc with rfl | hnew
      · exact hreal
      · exact hnew
    · exact ⟨r, hr, hv, hreal⟩
  | false =>
    rw [record_of_parks hc]
    apply settle_onReal h
    unfold OnReal existingMapping
    rw [get_parkMapping]
    refine ⟨_, Option.map_eq_some_iff.mpr ⟨r, hr, rfl⟩, ?_⟩
    split_ifs
    · exact ⟨hv, hreal⟩
    · exact ⟨hv, hreal⟩

/-- Remaps and ingested chunks; no session is deleted. -/
def MappingOp.isRemapOrChunk : MappingOp → Bool
  | .record .. => true
  | .chunk .. => true
  | _ => false

theorem mappingStep_onReal {st st' : State} {op : MappingOp} (h : OnReal v st.db w b)
    (hop : op.isRemapOrChunk = true) (hs : mappingStep rt st op = some st') :
    OnReal v st'.db w b := by
  cases op with
  | record workspaceId brokerSessionId claudeSessionId now outcome =>
    exact Option.some.inj hs ▸ record_onReal h ..
  | chunk workspaceId sessionId lines now commits =>
    exact Option.some.inj hs ▸ ingestChunk_onReal h lines commits
  | learn | deleteSession | purge | reopen => cases hop

theorem run_onReal {st st' : State} {ops : List MappingOp} (h : OnReal v st.db w b)
    (hops : ∀ op ∈ ops, op.isRemapOrChunk = true) (hrun : run (mappingStep rt) st ops = some st') :
    OnReal v st'.db w b := by
  induction ops generalizing st with
  | nil => exact Option.some.inj hrun ▸ h
  | cons op ops ih =>
    obtain ⟨u, hu, hrest⟩ := run_cons hrun
    exact ih (mappingStep_onReal h (hops op (by simp)) hu) (fun o ho => hops o (by simp [ho])) hrest

/-- Over any remaps and chunks, from any state: a tab committed to a real conversation stays
committed to real ones, and a tab that can resume stays able to. -/
theorem tab_never_black_holed (rt : Runtime) (workspaceId brokerSessionId : String)
    (ops : List MappingOp) (st st' : State) (hops : ∀ op ∈ ops, op.isRemapOrChunk = true)
    (hrun : run (mappingStep rt) st ops = some st') :
    ((∃ r, existingMapping st.db workspaceId brokerSessionId = some r ∧
        claudeSessionIsReal st.db r.claudeSessionId = true) →
      ∃ r, existingMapping st'.db workspaceId brokerSessionId = some r ∧
        claudeSessionIsReal st'.db r.claudeSessionId = true) ∧
    (lookupResumableBrokerSession st.db workspaceId brokerSessionId ≠ none →
      lookupResumableBrokerSession st'.db workspaceId brokerSessionId ≠ none) := by
  constructor
  · rintro ⟨r, hr, hreal⟩
    have h : OnReal False st.db workspaceId brokerSessionId := ⟨r, hr, False.elim, hreal⟩
    obtain ⟨r', hr', _, hreal'⟩ := run_onReal h hops hrun
    exact ⟨r', hr', hreal'⟩
  · intro hl
    have h := lookupResumable_isSome_iff.mp (Option.isSome_iff_ne_none.mpr hl)
    have h' := run_onReal h hops hrun
    exact Option.isSome_iff_ne_none.mp (lookupResumable_isSome_iff.mpr h')

/-- A tab on a real conversation, and the remap that then waits for the new one's first line. -/
def realTab : List MappingOp :=
  [.chunk "w" "r" [userLine] 1 true, .record "w" "t1" "r" 2 .committed]

def remapTab : List MappingOp :=
  [.record "w" "t1" "x" 3 .committed, .chunk "w" "x" [userLine] 4 false,
    .chunk "w" "x" [userLine] 5 true]

theorem tab_never_black_holed_remap :
    ∃ st st', run (mappingStep (.ofDocs userDocs [])) (openDb {}) realTab = some st ∧
      run (mappingStep (.ofDocs userDocs [])) st remapTab = some st' ∧
      lookupResumableBrokerSession st.db "w" "t1" = some "r" ∧
      lookupResumableBrokerSession st'.db "w" "t1" ≠ none := by
  refine ⟨_, _, rfl, rfl, by decide +kernel, ?_⟩
  exact (tab_never_black_holed (.ofDocs userDocs []) "w" "t1" remapTab _ _ (by decide) rfl).2
    (by decide +kernel)

end ClaudeFleet.StateDb
