import ClaudeFleet.ReplayEffect

/-! Ingesting again a prefix of a file whose lines were all ingested before: exactly when it
changes nothing. -/
namespace ClaudeFleet.StateDb

open IngestParse

variable (rt : Runtime)

/-- The condition under which a replay of these lines leaves the session as it is: the
timestamps keep its last activity, the last title among them is the stored one, and a summary
already stands under the session's newest event. -/
def ReplayKeeps (db : Db) (sessionId : String) (ps : List ParsedLine) : Prop :=
  ps = [] ∨ ∃ s, db.sessions.get sessionId = some s ∧
    LastActiveKept s.lastActiveAt (ps.map ParsedLine.ts) ∧
    (∀ v ∈ lastTitle rt ps, s.aiTitle = some v) ∧
    ((∃ p ∈ ps, isSummary rt p = true) →
      (sessionId, maxEventId db sessionId) ∈ db.sessionSummaries.rows.map SummaryRow.key)

/-- Lines that hold no object are skipped. -/
theorem ingestFrom_unparsed (workspaceId sessionId : String) (now : ℤ) (fuel : ℕ) :
    ∀ (i : ℕ) (lines : List String) (st : State),
      (∀ line ∈ lines, parseIngestLine rt line = .ok none) →
      (ingestFrom rt workspaceId sessionId now (fun _ => true) fuel i lines st).1 = st := by
  induction fuel with
  | zero => exact fun _ _ _ _ => rfl
  | succ fuel ih =>
    intro i lines st hnone
    by_cases hne : lines = []
    · simp [ingestFrom, hne]
    have hmap : ∃ parsed, (lines.take ingestTxLines).mapM (parseIngestLine rt) = .ok parsed :=
      mapM_parsed fun line hl => ⟨none, hnone line (List.mem_of_mem_take hl)⟩
    obtain ⟨parsed, hparsed⟩ := hmap
    obtain ⟨hfst, hall⟩ := zip_parsed hparsed
    have hnil : (((lines.take ingestTxLines).zip parsed).all fun l => l.2.isNone) = true := by
      rw [List.all_eq_true]
      intro l hl
      have hline : l.1 ∈ lines.take ingestTxLines := hfst ▸ List.mem_map_of_mem hl
      have := (hall l hl).symm.trans (hnone l.1 (List.mem_of_mem_take hline))
      rw [Except.ok.inj this]
      rfl
    have hrest := ih (i + 1) (lines.drop ingestTxLines) st
      fun line hl => hnone line (List.mem_of_mem_drop hl)
    simp [ingestFrom, hne, ingestChunk, hparsed, chunkBody, hnil, hrest]

/-- One `ingestBatch` call of the history. -/
structure IngestCall where
  workspaceId : String
  sessionId : String
  rawLines : List String
  now : ℤ
  commits : ℕ → Bool

def IngestCall.apply (st : State) (c : IngestCall) : State × Option (List IngestResult) :=
  ingestBatch rt st c.workspaceId c.sessionId c.rawLines c.now c.commits

def afterCalls (st : State) (calls : List IngestCall) : State :=
  calls.foldl (fun st c => (c.apply rt st).1) st

/-- Some call of the history resolved on this line of the file. -/
def Ingested (st : State) (calls : List IngestCall) (workspaceId sessionId line : String) : Prop :=
  ∃ before c later, calls = before ++ c :: later ∧ c.workspaceId = workspaceId ∧
    c.sessionId = sessionId ∧ line ∈ c.rawLines ∧ (c.apply rt (afterCalls rt st before)).2 ≠ none

theorem afterCalls_grows (st : State) (calls : List IngestCall) :
    StateGrows st (afterCalls rt st calls) := by
  induction calls generalizing st with
  | nil => exact .refl st
  | cons c calls ih => exact (ingestBatch_grows rt _ _ _ _ _ _).trans (ih _)

theorem Ingested.known {st : State} {calls : List IngestCall}
    {workspaceId sessionId line : String} (h : Ingested rt st calls workspaceId sessionId line) :
    LineKnown rt workspaceId sessionId (afterCalls rt st calls) line := by
  obtain ⟨before, c, later, rfl, rfl, rfl, hline, hres⟩ := h
  have hknown := ingestBatch_known hres line hline
  have hsplit : afterCalls rt st (before ++ c :: later) =
      afterCalls rt (c.apply rt (afterCalls rt st before)).1 later := by
    simp [afterCalls, List.foldl_append]
  rw [hsplit]
  exact hknown.mono (afterCalls_grows rt _ later)

/-- After any history that ingested a file's lines, ingesting a prefix of the file again
leaves the store's contents as they are exactly when the replayed lines keep the session's
last activity, title and summaries. -/
theorem reingest_unchanged_iff (st : State) (calls : List IngestCall)
    (workspaceId sessionId : String) (file again : List String) (now : ℤ)
    (hfile : ∀ line ∈ file, Ingested rt st calls workspaceId sessionId line)
    (hagain : again <+: file) :
    SameContents
        (ingestBatch rt (afterCalls rt st calls) workspaceId sessionId again now
          fun _ => true).1.db
        (afterCalls rt st calls).db ↔
      ReplayKeeps rt (afterCalls rt st calls).db sessionId (parsedLines rt again) := by
  have hknown : ∀ line ∈ again,
      LineKnown rt workspaceId sessionId (afterCalls rt st calls) line :=
    fun line hl => (hfile line (hagain.subset hl)).known
  have hparse : ∀ line ∈ again, ∃ q, parseIngestLine rt line = .ok q := by
    intro line hl
    obtain ⟨q, hq, _⟩ := hknown line hl
    exact ⟨q, hq⟩
  have hk : ∀ p ∈ parsedLines rt again, Known rt (afterCalls rt st calls).db sessionId p ∧
      pendingKey workspaceId sessionId ∉ (afterCalls rt st calls).pendingClaudeIds := by
    intro p hp
    obtain ⟨line, hl, hline⟩ := (mem_parsedLines rt).mp hp
    obtain ⟨q, hq, hall⟩ := hknown line hl
    exact hall p (Except.ok.inj (hq.symm.trans hline))
  unfold ReplayKeeps
  by_cases hnil : parsedLines rt again = []
  · have hnone : ∀ line ∈ again, parseIngestLine rt line = .ok none := by
      intro line hl
      obtain ⟨q, hq⟩ := hparse line hl
      cases q with
      | none => exact hq
      | some p =>
        have : p ∈ parsedLines rt again := (mem_parsedLines rt).mpr ⟨line, hl, hq⟩
        simp [hnil] at this
    rw [ingestBatch, ingestFrom_unparsed rt workspaceId sessionId now _ _ _ _ hnone]
    exact iff_of_true ⟨rfl, rfl, rfl, rfl, rfl, rfl, rfl, rfl, rfl⟩ (.inl hnil)
  · obtain ⟨p, hp⟩ := List.exists_mem_of_ne_nil _ hnil
    obtain ⟨row, hrow, _⟩ := (hk p hp).1.session
    have hrep : Replayed _ (ingestBatch rt (afterCalls rt st calls) workspaceId sessionId again now
        fun _ => true).1.db sessionId _ _ _ := Replayed.batch rt hrow _ 0 again _ _ _ _
      (replayed_self hrow) (hk p hp).2 hparse (fun q hq => (hk q hq).1) (le_refl _)
    have hts : (parsedLines rt again).map ParsedLine.ts ≠ [] := by simpa using hnil
    refine (hrep.sameContents_iff hrow).trans ?_
    rw [foldLast_eq_iff _ _ hts, foldTitle_eq_iff, Bool.false_or, List.any_eq_true]
    constructor
    · intro hkeep
      exact .inr ⟨row, hrow, hkeep⟩
    · rintro (hc | ⟨s, hs, hkeep⟩)
      · exact absurd hc hnil
      · obtain rfl := Option.some.inj (hrow.symm.trans hs)
        exact hkeep

/-- Two ai-title lines, with the JSON they parse to. -/
def titleLine1 : String := "\x7b\"type\":\"ai-title\",\"aiTitle\":\"A\",\"uuid\":\"u1\"\x7d"

def titleLine2 : String := "\x7b\"type\":\"ai-title\",\"aiTitle\":\"B\",\"uuid\":\"u2\"\x7d"

def titleDocs : List (String × Json) :=
  [(titleLine1, .obj [("type", .str "ai-title"), ("aiTitle", .str "A"), ("uuid", .str "u1")]),
    (titleLine2, .obj [("type", .str "ai-title"), ("aiTitle", .str "B"), ("uuid", .str "u2")])]

def titleCalls : List IngestCall := [⟨"w", "s", [titleLine1, titleLine2], 0, fun _ => true⟩]

theorem titleCalls_ingested : ∀ line ∈ [titleLine1, titleLine2],
    Ingested (.ofDocs titleDocs []) {} titleCalls "w" "s" line :=
  fun _ hl => ⟨[], _, [], rfl, rfl, rfl, hl, by decide +kernel⟩

/-- Replaying the whole file ends on the same title. -/
theorem reingest_unchanged_titles :
    SameContents
      (ingestBatch (.ofDocs titleDocs []) (afterCalls (.ofDocs titleDocs []) {} titleCalls) "w" "s"
        [titleLine1, titleLine2] 1 fun _ => true).1.db
      (afterCalls (.ofDocs titleDocs []) {} titleCalls).db := by
  refine (reingest_unchanged_iff (.ofDocs titleDocs []) {} titleCalls "w" "s"
    [titleLine1, titleLine2] [titleLine1, titleLine2] 1 titleCalls_ingested
    (List.prefix_refl _)).mpr ?_
  let row : SessionRow :=
    { id := "s", workspaceId := "w", startedAt := none, lastActiveAt := none, aiTitle := some "B" }
  refine .inr ⟨row, by decide +kernel, ?_, by decide +kernel, by decide +kernel⟩
  rw [LastActiveKept, if_pos (by decide +kernel)]
  decide +kernel

/-- Replaying only the first line puts the old title back. -/
theorem reingest_old_title :
    (∀ line ∈ [titleLine1, titleLine2],
      Ingested (.ofDocs titleDocs []) {} titleCalls "w" "s" line) ∧
    [titleLine1] <+: [titleLine1, titleLine2] ∧
    ¬ SameContents
      (ingestBatch (.ofDocs titleDocs []) (afterCalls (.ofDocs titleDocs []) {} titleCalls) "w" "s"
        [titleLine1] 1 fun _ => true).1.db
      (afterCalls (.ofDocs titleDocs []) {} titleCalls).db := by
  refine ⟨titleCalls_ingested, ⟨[titleLine2], rfl⟩, fun h => ?_⟩
  have hrows := congrArg (fun T => T.rows.map SessionRow.aiTitle) h.sessions
  exact absurd hrows (by decide +kernel)

end ClaudeFleet.StateDb
