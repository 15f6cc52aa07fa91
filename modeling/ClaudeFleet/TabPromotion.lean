import ClaudeFleet.BrokerMapping

/-! Parked remaps are never lost, and a tab on a real conversation stays on one. -/
namespace ClaudeFleet.StateDb

open IngestParse Transition

variable {rt : Runtime} {workspaceId brokerSessionId claudeSessionId sessionId : String} {now : ℤ}

/-- The guard set holds the key of every parked remap. -/
def Guarded (st : State) : Prop :=
  ∀ r ∈ st.db.brokerSessions.rows, ∀ x, r.pendingClaudeSessionId = some x →
    pendingKey r.workspaceId x ∈ st.pendingClaudeIds

theorem guarded_iff_get {st : State} :
    Guarded st ↔ ∀ k r x, st.db.brokerSessions.get k = some r →
      r.pendingClaudeSessionId = some x → pendingKey k.1 x ∈ st.pendingClaudeIds := by
  constructor
  · intro h k r x hr hx
    obtain ⟨hm, rfl⟩ := Table.get_eq_some.mp hr
    exact h r hm x hx
  · intro h r hr x hx
    exact h r.key r x (Table.get_eq_some.mpr ⟨hr, rfl⟩) hx

theorem guarded_openDb (db : Db) : Guarded (openDb db) := by
  intro r hr x hx
  simp only [openDb, pendingRows, List.mem_toFinset, List.mem_filterMap]
  exact ⟨r, hr, by simp [hx]⟩

/-- Fewer rows and more keys keep the guard. -/
theorem Guarded.mono {st st' : State} (h : Guarded st)
    (hrows : st'.db.brokerSessions.rows ⊆ st.db.brokerSessions.rows)
    (hids : st.pendingClaudeIds ⊆ st'.pendingClaudeIds) : Guarded st' :=
  fun r hr x hx => hids (h r (hrows hr) x hx)

/-- No other tab of the workspace is parked on `x`. -/
def ParkedAlone (db : Db) (workspaceId brokerSessionId x : String) : Prop :=
  ∀ r ∈ db.brokerSessions.rows, r.workspaceId = workspaceId →
    r.pendingClaudeSessionId = some x → r.brokerSessionId = brokerSessionId

theorem subset_restoreKey (S : Finset (String × String)) (id : Option String) :
    S ⊆ restoreKey (removeKey S workspaceId id) workspaceId id := by
  cases id with
  | none => exact fun _ hx => hx
  | some x =>
    intro k hk
    simp only [restoreKey, removeKey, Option.elim_some, Finset.mem_insert, Finset.mem_erase]
    by_cases hkx : k = pendingKey workspaceId x
    · exact .inl hkx
    · exact .inr ⟨hkx, hk⟩

theorem restoreKey_mono {S T : Finset (String × String)} (h : S ⊆ T) (id : Option String) :
    restoreKey S workspaceId id ⊆ restoreKey T workspaceId id := by
  cases id with
  | none => exact h
  | some x => exact Finset.insert_subset_insert _ h

/-- A mapping transaction keeps the guard when its committed effect does: a failure only
ever leaves more keys. -/
theorem settle_guarded {st : State} (h : Guarded st) {db : Db} {ids : Finset (String × String)}
    {removed : Option String} (hids : removeKey st.pendingClaudeIds workspaceId removed ⊆ ids)
    {outcome : Outcome} (hc : outcome = .committed → Guarded ⟨db, ids⟩) :
    Guarded (settle st workspaceId db ids removed outcome) := by
  cases outcome with
  | committed => exact hc rfl
  | failedEarly => exact h
  | failedLate =>
    exact h.mono (fun _ hr => hr)
      ((subset_restoreKey _ removed).trans (restoreKey_mono hids removed))

/-- A tab's key survives another tab's removal unless both are parked on the same id. -/
theorem mem_removeKey {st : State} (h : Guarded st) {removed : Option String}
    (halone : ∀ x ∈ removed, ParkedAlone st.db workspaceId brokerSessionId x)
    {k : String × String} {r : BrokerRow} {x : String} (hk : k ≠ (workspaceId, brokerSessionId))
    (hr : st.db.brokerSessions.get k = some r) (hx : r.pendingClaudeSessionId = some x) :
    pendingKey k.1 x ∈ removeKey st.pendingClaudeIds workspaceId removed := by
  have hmem := guarded_iff_get.mp h k r x hr hx
  cases removed with
  | none => exact hmem
  | some y =>
    refine Finset.mem_erase.mpr ⟨fun he => hk ?_, hmem⟩
    obtain ⟨hrm, rfl⟩ := Table.get_eq_some.mp hr
    obtain ⟨hw, rfl⟩ := Prod.mk.inj he
    exact Prod.ext hw (halone x rfl r hrm hw hx)

theorem commitMapping_guarded {st : State} (h : Guarded st) {removed : Option String}
    (halone : ∀ x ∈ removed, ParkedAlone st.db workspaceId brokerSessionId x) :
    Guarded ⟨commitMapping st.db workspaceId brokerSessionId claudeSessionId now,
      removeKey st.pendingClaudeIds workspaceId removed⟩ := by
  rw [guarded_iff_get]
  intro k r x hr hx
  rw [get_commitMapping] at hr
  split_ifs at hr with hk
  · obtain rfl := Option.some.inj hr
    cases hx
  · exact mem_removeKey h halone hk hr hx

theorem parkMapping_guarded {st : State} (h : Guarded st) {removed : Option String}
    (halone : ∀ x ∈ removed, ParkedAlone st.db workspaceId brokerSessionId x) :
    Guarded ⟨parkMapping st.db workspaceId brokerSessionId claudeSessionId,
      insert (pendingKey workspaceId claudeSessionId)
        (removeKey st.pendingClaudeIds workspaceId removed)⟩ := by
  rw [guarded_iff_get]
  intro k r x hr hx
  rw [get_parkMapping, Option.map_eq_some_iff] at hr
  obtain ⟨r', hr', rfl⟩ := hr
  split_ifs at hx with hk
  · obtain rfl := Option.some.inj hx
    subst hk
    exact Finset.mem_insert_self _ _
  · exact Finset.mem_insert_of_mem (mem_removeKey h halone hk hr' hx)

/-- Removing the key of an id that another tab waits on leaves that tab unguarded. -/
theorem parkedAlone_of_guarded {db db' : Db} {S : Finset (String × String)} {removed : Option String}
    (h : Guarded ⟨db', S⟩) (hS : ∀ x ∈ removed, pendingKey workspaceId x ∉ S)
    (hother : ∀ k, k ≠ (workspaceId, brokerSessionId) →
      db'.brokerSessions.get k = db.brokerSessions.get k) :
    ∀ x ∈ removed, ParkedAlone db workspaceId brokerSessionId x := by
  intro x hx r hr hw hp
  by_contra hb
  have hk : r.key ≠ (workspaceId, brokerSessionId) := fun he => hb (Prod.mk.inj he).2
  have hget := (hother _ hk).trans (Table.get_eq_some.mpr ⟨hr, rfl⟩)
  have hmem := guarded_iff_get.mp h _ r x hget hp
  exact hS x hx (hw ▸ hmem)

/-- When a committing remap takes a parked id's key from the guard set, no other tab of the
workspace is parked on that id. -/
def SoleWaiter (st : State) : MappingOp → Prop
  | .record workspaceId brokerSessionId claudeSessionId _ .committed =>
    ∀ x ∈ parkedId (existingMapping st.db workspaceId brokerSessionId),
      (commitsNow st.db workspaceId brokerSessionId claudeSessionId = true ∨ x ≠ claudeSessionId) →
        ParkedAlone st.db workspaceId brokerSessionId x
  | .learn workspaceId brokerSessionId _ _ .committed =>
    ∀ x ∈ parkedId (existingMapping st.db workspaceId brokerSessionId),
      ParkedAlone st.db workspaceId brokerSessionId x
  | _ => True

theorem record_guarded {st : State} (h : Guarded st) {outcome : Outcome}
    (hok : SoleWaiter st
      (.record workspaceId brokerSessionId claudeSessionId now outcome)) :
    Guarded (recordBrokerSessionMapping st workspaceId brokerSessionId claudeSessionId now
      outcome).1 := by
  cases hc : commitsNow st.db workspaceId brokerSessionId claudeSessionId with
  | true =>
    rw [record_of_commitsNow hc]
    refine settle_guarded h (fun _ hx => hx) fun he => ?_
    subst he
    exact commitMapping_guarded h fun x hx => hok x hx (.inl hc)
  | false =>
    rw [record_of_parks hc]
    refine settle_guarded h (Finset.subset_insert _ _) fun he => ?_
    subst he
    refine parkMapping_guarded h fun x hx => ?_
    obtain ⟨hpark, hne⟩ := Option.filter_eq_some_iff.mp hx
    exact hok x hpark (.inr (by simpa using hne))

theorem learn_guarded {st : State} (h : Guarded st) {outcome : Outcome}
    (hok : SoleWaiter st
      (.learn workspaceId brokerSessionId claudeSessionId now outcome)) :
    Guarded (learnBrokerSessionMapping st workspaceId brokerSessionId claudeSessionId now
      outcome).1 := by
  refine settle_guarded h (fun _ hx => hx) fun he => ?_
  subst he
  exact commitMapping_guarded h hok

theorem notMem_removeKey (S : Finset (String × String)) (removed : Option String) :
    ∀ x ∈ removed, pendingKey workspaceId x ∉ removeKey S workspaceId removed := by
  intro x hx
  obtain rfl := Option.mem_def.mp hx
  exact Finset.notMem_erase _ _

/-- The condition on committing remaps is exact. -/
theorem record_guarded_iff {st : State} (h : Guarded st) {outcome : Outcome} :
    Guarded (recordBrokerSessionMapping st workspaceId brokerSessionId claudeSessionId now
        outcome).1 ↔
      SoleWaiter st (.record workspaceId brokerSessionId claudeSessionId now outcome) := by
  refine ⟨fun hg => ?_, record_guarded h⟩
  cases outcome with
  | failedEarly => trivial
  | failedLate => trivial
  | committed =>
    intro x hx hkey
    cases hc : commitsNow st.db workspaceId brokerSessionId claudeSessionId with
    | true =>
      rw [record_of_commitsNow hc] at hg
      refine parkedAlone_of_guarded hg (notMem_removeKey _ _) (fun k hk => ?_) x hx
      rw [get_commitMapping, if_neg hk]
    | false =>
      have hne : x ≠ claudeSessionId := hkey.resolve_left (by simp [hc])
      have hmem : x ∈ (parkedId (existingMapping st.db workspaceId brokerSessionId)).filter
          fun id => id ≠ claudeSessionId := Option.mem_filter_iff.mpr ⟨hx, by simpa using hne⟩
      rw [record_of_parks hc] at hg
      refine parkedAlone_of_guarded hg (fun y hy => ?_) (fun k hk => ?_) x hmem
      · rw [Finset.mem_insert, not_or]
        refine ⟨fun he => ?_, notMem_removeKey _ _ y hy⟩
        have := (Option.mem_filter_iff.mp hy).2
        simp [(Prod.mk.inj he).2] at this
      · rw [get_parkMapping]
        simp [hk]

theorem learn_guarded_iff {st : State} (h : Guarded st) {outcome : Outcome} :
    Guarded (learnBrokerSessionMapping st workspaceId brokerSessionId claudeSessionId now
        outcome).1 ↔
      SoleWaiter st (.learn workspaceId brokerSessionId claudeSessionId now outcome) := by
  refine ⟨fun hg => ?_, learn_guarded h⟩
  cases outcome with
  | failedEarly => trivial
  | failedLate => trivial
  | committed =>
    refine parkedAlone_of_guarded hg (notMem_removeKey _ _) (fun k hk => ?_)
    rw [get_commitMapping, if_neg hk]

theorem chunkBody_guarded {st : State} (h : Guarded st)
    (lines : List (String × Option ParsedLine)) :
    Guarded (chunkBody rt st workspaceId sessionId lines now).st := by
  have hm := (chunkBody_mapping rt workspaceId sessionId now st lines).1
  unfold Chunk.Mapping at hm
  split_ifs at hm
  · obtain ⟨_, hids, hrows⟩ := hm
    rw [guarded_iff_get]
    intro k r x hr hx
    rw [hrows, get_promotePendingBrokerMapping, Option.map_eq_some_iff] at hr
    obtain ⟨r', hr', rfl⟩ := hr
    split_ifs at hx with hwait
    rw [hids]
    refine Finset.mem_erase.mpr ⟨fun he => hwait ?_, guarded_iff_get.mp h k r' x hr' hx⟩
    obtain ⟨_, rfl⟩ := Table.get_eq_some.mp hr'
    obtain ⟨hw, rfl⟩ := Prod.mk.inj he
    exact ⟨hw, hx⟩
  · obtain ⟨hids, hrows⟩ := hm
    refine h.mono ?_ ?_
    · rw [hrows]
      exact fun _ hr => hr
    · rw [hids]

theorem ingestChunk_guarded {st : State} (h : Guarded st) (chunk : List String) (commits : Bool) :
    Guarded (ingestChunk rt st workspaceId sessionId chunk now commits).1 := by
  rcases ingestChunk_cases rt workspaceId sessionId now st chunk commits with
    he | ⟨parsed, _, _, he⟩
  · rwa [he]
  · rw [he]
    exact chunkBody_guarded h _

theorem purgeStatement_brokerSessions (db : Db) (t : PurgeTable) :
    (purgeStatement db workspaceId t).brokerSessions.rows ⊆ db.brokerSessions.rows := by
  cases t with
  | brokerSessions => exact List.filter_sublist.subset
  | _ => exact fun _ hr => hr

theorem mappingStep_guarded (st : State) (op : MappingOp) (st' : State) (h : Guarded st)
    (hok : SoleWaiter st op) (hs : mappingStep rt st op = some st') : Guarded st' := by
  cases op with
  | record workspaceId brokerSessionId claudeSessionId now outcome =>
    exact Option.some.inj hs ▸ record_guarded h hok
  | learn workspaceId brokerSessionId claudeSessionId now outcome =>
    exact Option.some.inj hs ▸ learn_guarded h hok
  | chunk workspaceId sessionId lines now commits =>
    exact Option.some.inj hs ▸ ingestChunk_guarded h lines commits
  | deleteSession id =>
    obtain rfl := Option.some.inj hs
    exact h.mono (List.filter_sublist.subset) (fun _ hx => hx)
  | purge workspaceId table =>
    obtain rfl := Option.some.inj hs
    exact h.mono (purgeStatement_brokerSessions _ _) (fun _ hx => hx)
  | reopen =>
    exact Option.some.inj hs ▸ guarded_openDb _

/-- A committed chunk with a parsed line leaves no tab of the workspace parked on the session. -/
theorem ingestChunk_promotes {st : State} (h : Guarded st) {chunk : List String}
    {results : List IngestResult} (hline : ∃ line ∈ chunk, ∃ p, parseIngestLine rt line = .ok (some p))
    (hc : (ingestChunk rt st workspaceId sessionId chunk now true).2 = some results) :
    ∀ r ∈ (ingestChunk rt st workspaceId sessionId chunk now true).1.db.brokerSessions.rows,
      r.workspaceId = workspaceId → r.pendingClaudeSessionId ≠ some sessionId := by
  intro r hr hw hx
  have hkey := ingestChunk_guarded h chunk true r hr sessionId hx
  rcases ingestChunk_cases rt workspaceId sessionId now st chunk true with
    he | ⟨parsed, hparsed, _, he⟩
  · rw [he] at hc
    cases hc
  · obtain ⟨line, hmem, p, hp⟩ := hline
    obtain ⟨hfst, hall⟩ := zip_parsed hparsed
    obtain ⟨l, hl, rfl⟩ := List.mem_map.mp (hfst.symm ▸ hmem)
    have hsome : l.2.isSome := by
      have := (hall l hl).symm.trans hp
      rw [Except.ok.inj this]
      rfl
    rw [he, hw] at hkey
    exact (chunkBody_mapping rt workspaceId sessionId now st _).2 ⟨l, hl, hsome⟩ hkey

/-- In every run from an open whose committing remaps take a key only from its sole waiter,
every parked remap is guarded, so the first committed line of its session promotes it. -/
theorem no_lost_promotion (rt : Runtime) (db : Db) (ops : List MappingOp) (st : State)
    (hrun : run (mappingStep rt) (openDb db) ops = some st)
    (hok : Along (mappingStep rt) SoleWaiter (openDb db) ops) :
    Guarded st ∧
      ∀ workspaceId sessionId chunk now results,
        (∃ line ∈ chunk, ∃ p, parseIngestLine rt line = .ok (some p)) →
        (ingestChunk rt st workspaceId sessionId chunk now true).2 = some results →
        ∀ r ∈ (ingestChunk rt st workspaceId sessionId chunk now true).1.db.brokerSessions.rows,
          r.workspaceId = workspaceId → r.pendingClaudeSessionId ≠ some sessionId := by
  have h := run_invariant_along mappingStep_guarded (guarded_openDb db) hrun hok
  exact ⟨h, fun _ _ _ _ _ hline hc => ingestChunk_promotes h hline hc⟩

instance decidableParkedAlone (db : Db) (workspaceId brokerSessionId x : String) :
    Decidable (ParkedAlone db workspaceId brokerSessionId x) :=
  inferInstanceAs (Decidable (∀ r ∈ db.brokerSessions.rows, _))

instance decidableSoleWaiter (st : State) : (op : MappingOp) → Decidable (SoleWaiter st op)
  | .record workspaceId brokerSessionId claudeSessionId _ .committed =>
    inferInstanceAs (Decidable (∀ x ∈ parkedId (existingMapping st.db workspaceId brokerSessionId),
      (commitsNow st.db workspaceId brokerSessionId claudeSessionId = true ∨
        x ≠ claudeSessionId) → ParkedAlone st.db workspaceId brokerSessionId x))
  | .learn workspaceId brokerSessionId _ _ .committed =>
    inferInstanceAs (Decidable (∀ x ∈ parkedId (existingMapping st.db workspaceId brokerSessionId),
      ParkedAlone st.db workspaceId brokerSessionId x))
  | .record _ _ _ _ .failedEarly | .record _ _ _ _ .failedLate => isTrue trivial
  | .learn _ _ _ _ .failedEarly | .learn _ _ _ _ .failedLate => isTrue trivial
  | .chunk .. | .deleteSession _ | .purge .. | .reopen => isTrue trivial

/-- A tab on a real conversation is remapped, waits, and is promoted by the first line. -/
def remapThenLine : List MappingOp :=
  [.chunk "w" "r" [userLine] 1 true, .record "w" "t1" "r" 2 .committed,
    .record "w" "t1" "x" 3 .committed, .chunk "w" "x" [userLine] 4 true]

theorem no_lost_promotion_remap :
    ∃ st, run (mappingStep (.ofDocs userDocs [])) (openDb {}) remapThenLine = some st ∧
      st.db.brokerSessions.rows.map (fun r => (r.claudeSessionId, r.pendingClaudeSessionId)) =
        [("x", none)] ∧ Guarded st := by
  refine ⟨_, rfl, by decide +kernel, ?_⟩
  exact (no_lost_promotion (.ofDocs userDocs []) {} remapThenLine _ rfl (by decide +kernel)).1

/-- Two tabs wait on conversation x; remapping the first to y takes the shared key. -/
def sharedWait : List MappingOp :=
  [.chunk "w" "r" [userLine] 1 true, .record "w" "t1" "r" 2 .committed,
    .record "w" "t2" "r" 3 .committed, .record "w" "t1" "x" 4 .committed,
    .record "w" "t2" "x" 5 .committed, .record "w" "t1" "y" 6 .committed]

theorem shared_wait_stranded :
    ∃ st, run (mappingStep (.ofDocs userDocs [])) (openDb {}) sharedWait = some st ∧
      ¬ Guarded st ∧
      (ingestChunk (.ofDocs userDocs []) st "w" "x" [userLine] 7 true).2.isSome ∧
      (ingestChunk (.ofDocs userDocs []) st "w" "x" [userLine] 7 true).1.db.brokerSessions.rows.map
          (fun r => (r.brokerSessionId, r.pendingClaudeSessionId)) =
        [("t1", some "y"), ("t2", some "x")] := by
  refine ⟨_, rfl, fun h => ?_, by decide +kernel, by decide +kernel⟩
  have hx := guarded_iff_get.mp h ("w", "t2")
    { workspaceId := "w", brokerSessionId := "t2", claudeSessionId := "r", learnedAt := 3,
      verified := true, pendingClaudeSessionId := some "x" } "x" (by decide +kernel) rfl
  exact absurd hx (by decide +kernel)

end ClaudeFleet.StateDb
