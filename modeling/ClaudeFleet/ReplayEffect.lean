import ClaudeFleet.IngestKnown
import Mathlib.Data.List.DropRight
import Mathlib.Data.List.ReduceOption

/-! What ingesting known lines again can still change: the session's last activity and title,
and a summary under its newest event. -/
namespace ClaudeFleet.StateDb

open IngestParse

/-- `lastActiveAt` after a run of touches on an existing row. -/
def foldLast (last : Option ℤ) (tss : List (Option ℤ)) : Option ℤ :=
  tss.foldl (fun last ts => ts.map fun t => max (last.getD 0) t) last

theorem foldLast_concat (last : Option ℤ) (tss : List (Option ℤ)) (ts : Option ℤ) :
    foldLast last (tss ++ [ts]) = ts.map fun t => max ((foldLast last tss).getD 0) t := by
  simp [foldLast, List.foldl_append]

theorem foldSessionTouch_some {startedAt last : Option ℤ} {tss : List (Option ℤ)}
    (h : ∀ ts ∈ tss, ts.isSome → startedAt.isSome) :
    foldSessionTouch (some ⟨startedAt, last⟩) tss = some ⟨startedAt, foldLast last tss⟩ := by
  induction tss generalizing last with
  | nil => rfl
  | cons ts tss ih =>
    have hstart : startedAt.or ts = startedAt := by
      cases startedAt with
      | some s => rfl
      | none =>
        have := h ts (by simp)
        cases ts with
        | none => rfl
        | some t => simp at this
    have hrest : foldSessionTouch (some ⟨startedAt, ts.map fun t => max (last.getD 0) t⟩) tss = _ :=
      ih fun x hx => h x (List.mem_cons_of_mem _ hx)
    simpa [foldSessionTouch, touchOne, hstart, foldLast] using hrest

/-- Touches with these timestamps leave `last` as it is. After a line without a timestamp the
column is null, and the lines after it count from zero. -/
def LastActiveKept (last : Option ℤ) (tss : List (Option ℤ)) : Prop :=
  if none ∈ tss then
    last = ((tss.rtakeWhile Option.isSome).reduceOption.max?).map (max 0)
  else ∃ v, last = some v ∧ ∀ t ∈ tss.reduceOption, t ≤ v

theorem foldLast_of_none_mem (last : Option ℤ) (tss : List (Option ℤ)) (h : none ∈ tss) :
    foldLast last tss = ((tss.rtakeWhile Option.isSome).reduceOption.max?).map (max 0) := by
  induction tss using List.reverseRecOn with
  | nil => cases h
  | append_singleton tss ts ih =>
    rw [foldLast_concat]
    cases ts with
    | none => simp
    | some t =>
      have hmem : none ∈ tss := by simpa using h
      rw [ih hmem, List.rtakeWhile_concat_pos _ _ _ rfl, List.reduceOption_append]
      cases hl : (tss.rtakeWhile Option.isSome).reduceOption with
      | nil => simp
      | cons x xs =>
        simp only [List.max?_cons', List.cons_append, List.foldl_append, Option.map_some,
          Option.getD_some, List.reduceOption_singleton, Option.toList_some, List.foldl_cons,
          List.foldl_nil, max_assoc]

theorem foldLast_of_none_notMem (last : Option ℤ) (tss : List (Option ℤ)) (hne : tss ≠ [])
    (h : none ∉ tss) :
    foldLast last tss = some (tss.reduceOption.foldl max (last.getD 0)) := by
  induction tss using List.reverseRecOn with
  | nil => exact absurd rfl hne
  | append_singleton tss ts ih =>
    rw [foldLast_concat]
    cases ts with
    | none => simp at h
    | some t =>
      have hrest : none ∉ tss := by simpa using h
      rw [List.reduceOption_append, List.foldl_append]
      by_cases htss : tss = []
      · simp [htss, foldLast]
      · simp [ih htss hrest]

theorem foldl_max_le_iff (v w : ℤ) (ts : List ℤ) :
    ts.foldl max v ≤ w ↔ v ≤ w ∧ ∀ t ∈ ts, t ≤ w := by
  induction ts generalizing v with
  | nil => simp
  | cons t ts ih => simp [ih, and_assoc]

theorem foldLast_eq_iff (last : Option ℤ) (tss : List (Option ℤ)) (hne : tss ≠ []) :
    foldLast last tss = last ↔ LastActiveKept last tss := by
  unfold LastActiveKept
  split_ifs with h
  · rw [foldLast_of_none_mem last tss h]
    exact eq_comm
  · rw [foldLast_of_none_notMem last tss hne h]
    constructor
    · intro he
      refine ⟨_, he.symm, ?_⟩
      exact ((foldl_max_le_iff _ _ _).mp (le_refl _)).2
    · rintro ⟨v, rfl, hle⟩
      have hle' := (foldl_max_le_iff v v tss.reduceOption).mpr ⟨le_refl v, hle⟩
      have hge := ((foldl_max_le_iff v _ tss.reduceOption).mp (le_refl _)).1
      exact congrArg some (le_antisymm hle' hge)

variable (rt : Runtime)

def titleOf (p : ParsedLine) : Option String :=
  match metadataOf rt p with
  | .aiTitle v => some v
  | _ => none

def isSummary (p : ParsedLine) : Bool :=
  match metadataOf rt p with
  | .summary _ => true
  | _ => false

def foldTitle (title : Option String) (ps : List ParsedLine) : Option String :=
  ps.foldl (fun title p => (titleOf rt p).or title) title

/-- The last title among the lines. -/
def lastTitle (ps : List ParsedLine) : Option String := (ps.filterMap (titleOf rt)).getLast?

theorem foldTitle_eq (title : Option String) (ps : List ParsedLine) :
    foldTitle rt title ps = (lastTitle rt ps).or title := by
  induction ps using List.reverseRecOn with
  | nil => rfl
  | append_singleton ps p ih =>
    unfold foldTitle lastTitle at *
    rw [List.foldl_append, List.filterMap_append, List.foldl_cons, List.foldl_nil, ih]
    cases ht : titleOf rt p with
    | none => simp [ht]
    | some v => simp [ht]

theorem foldTitle_eq_iff (title : Option String) (ps : List ParsedLine) :
    foldTitle rt title ps = title ↔ ∀ v ∈ lastTitle rt ps, title = some v := by
  rw [foldTitle_eq]
  cases lastTitle rt ps with
  | none => simp
  | some v => simp [eq_comm]

/-- The lines that hold an object, parsed. -/
def parsedLines (lines : List String) : List ParsedLine :=
  lines.filterMap fun line =>
    match parseIngestLine rt line with
    | .ok (some p) => some p
    | _ => none

theorem mem_parsedLines {lines : List String} {p : ParsedLine} :
    p ∈ parsedLines rt lines ↔ ∃ line ∈ lines, parseIngestLine rt line = .ok (some p) := by
  simp only [parsedLines, List.mem_filterMap]
  constructor
  · rintro ⟨line, hline, hp⟩
    refine ⟨line, hline, ?_⟩
    split at hp
    · next q hq => rw [hq, Option.some.inj hp]
    · cases hp
  · rintro ⟨line, hline, hp⟩
    exact ⟨line, hline, by rw [hp]⟩

theorem parsedLines_zip {chunk : List String} {parsed : List (Option ParsedLine)}
    (h : chunk.mapM (parseIngestLine rt) = .ok parsed) :
    (chunk.zip parsed).filterMap Prod.snd = parsedLines rt chunk := by
  obtain ⟨hfst, hall⟩ := zip_parsed h
  conv_rhs => rw [← hfst]
  rw [parsedLines, List.filterMap_map]
  apply List.filterMap_congr
  intro l hl
  rw [Function.comp_apply, hall l hl]
  cases l.2 <;> rfl

/-- `b` is `a` after replayed lines: only the session's `lastActiveAt` and `aiTitle`, and a
summary under the current event id, can have moved. -/
structure Replayed (a b : Db) (sessionId : String) (last : Option ℤ) (title : Option String)
    (summary : Bool) : Prop where
  events : b.events = a.events
  sessionCosts : b.sessionCosts = a.sessionCosts
  sessionStats : b.sessionStats = a.sessionStats
  sessionToolCounts : b.sessionToolCounts = a.sessionToolCounts
  sessionTags : b.sessionTags = a.sessionTags
  usageAnchors : b.usageAnchors = a.usageAnchors
  brokerSessions : b.brokerSessions = a.brokerSessions
  sessions : b.sessions = a.sessions.updateWhere (fun r => r.id = sessionId)
    (fun r => { r with lastActiveAt := last, aiTitle := title }) fun _ => rfl
  summaries : summary = false ∨ (sessionId, maxEventId a sessionId) ∈
      a.sessionSummaries.rows.map SummaryRow.key → b.sessionSummaries = a.sessionSummaries
  summary_mem : summary = true →
    (sessionId, maxEventId a sessionId) ∈ b.sessionSummaries.rows.map SummaryRow.key

/-- Inserting tags that are all there changes nothing. -/
theorem insertTags_eq_self (workspaceId sessionId : String) {tags : List String}
    {T : Table TagRow.key} (h : ∀ tag ∈ tags, (sessionId, tag) ∈ T.rows.map TagRow.key) :
    tags.foldl (fun tags tag => tags.insertIgnore ⟨workspaceId, sessionId, tag⟩) T = T := by
  induction tags with
  | nil => rfl
  | cons tag tags ih =>
    have hmem : TagRow.key ⟨workspaceId, sessionId, tag⟩ ∈ T.rows.map TagRow.key := h tag (by simp)
    rw [List.foldl_cons, Table.insertIgnore_of_mem hmem]
    exact ih fun t ht => h t (List.mem_cons_of_mem _ ht)

section Replay

variable {a : Db} {sessionId : String} {row : SessionRow} (hrow : a.sessions.get sessionId = some row)

include hrow

theorem replayed_self : Replayed a a sessionId row.lastActiveAt row.aiTitle false := by
  refine ⟨rfl, rfl, rfl, rfl, rfl, rfl, rfl, ?_, fun _ => rfl, by simp⟩
  refine (Table.updateWhere_eq_self fun r hr hp => ?_).symm
  have hget := Table.get_eq_some.mpr ⟨hr, rfl⟩
  simp only [decide_eq_true_eq] at hp
  rw [hp, hrow] at hget
  rw [← Option.some.inj hget]

variable {b : Db} {last : Option ℤ} {title : Option String} {summary : Bool}

theorem Replayed.get (h : Replayed a b sessionId last title summary) :
    b.sessions.get sessionId = some { row with lastActiveAt := last, aiTitle := title } := by
  rw [h.sessions, Table.get_updateWhere, hrow]
  simp [(Table.get_eq_some.mp hrow).2]

/-- Any row of the session in the replayed table is the replayed row. -/
theorem Replayed.row_eq (h : Replayed a b sessionId last title summary) {r : SessionRow}
    (hr : r ∈ b.sessions.rows) (hid : r.id = sessionId) :
    r = { row with lastActiveAt := last, aiTitle := title } := by
  have hget := Table.get_eq_some.mpr ⟨hr, hid⟩
  rw [h.get hrow] at hget
  exact (Option.some.inj hget).symm

omit hrow in
theorem Replayed.maxEventId_eq (h : Replayed a b sessionId last title summary) :
    maxEventId b sessionId = maxEventId a sessionId := by
  simp only [maxEventId, h.events]

theorem Replayed.touch (h : Replayed a b sessionId last title summary) (workspaceId : String)
    {tss : List (Option ℤ)} (hstart : ∀ ts ∈ tss, ts.isSome → row.startedAt.isSome) :
    Replayed a (touchSession b workspaceId sessionId tss) sessionId (foldLast last tss) title
      summary := by
  have hprev : (b.sessions.get sessionId).map (fun r => (⟨r.startedAt, r.lastActiveAt⟩ :
      SessionTouch)) = some ⟨row.startedAt, last⟩ := by
    rw [h.get hrow]
    rfl
  simp only [touchSession, hprev, foldSessionTouch_some hstart, reduceCtorEq, if_false,
    Option.some.injEq, SessionTouch.mk.injEq, true_and]
  split_ifs with he
  · rwa [← he]
  · refine { h with sessions := ?_ }
    simp only [h.sessions]
    rw [Table.updateWhere_updateWhere]
    case hp => exact fun _ => rfl
    apply Table.updateWhere_congr
    intro r hr hid
    have hget := Table.get_eq_some.mpr ⟨hr, of_decide_eq_true hid⟩
    rw [hrow] at hget
    rw [Option.some.inj hget]

/-- Replaying a known line moves the title and may add a summary, nothing else. -/
theorem Replayed.line (h : Replayed a b sessionId last title summary) {p : ParsedLine}
    (hk : Known rt a sessionId p) (workspaceId rawLine : String) (now : ℤ) :
    Replayed a (ingestOne rt b workspaceId sessionId rawLine p now).1 sessionId last
      ((titleOf rt p).or title) (summary || isSummary rt p) := by
  have hdup : (sessionId, p.event.dedupKey) ∈ b.events.rows.map EventRow.key := by
    rw [h.events]
    exact hk.event
  have hb : Replayed a { b with eventSeq := b.eventSeq + 1 } sessionId last title summary := { h with }
  obtain ⟨s, hs, _, hhas⟩ := hk.session
  obtain rfl := Option.some.inj (hrow.symm.trans hs)
  simp only [ingestOne, insertEvent_of_mem hdup, Bool.false_eq_true, if_false]
  generalize { b with eventSeq := b.eventSeq + 1 } = b' at hb
  unfold applyMetadata titleOf isSummary
  cases hm : metadataOf rt p with
  | nothing => simpa using hb
  | cwd v =>
    have hself : b'.sessions.updateWhere (fun r => r.id = sessionId ∧ r.cwd = none)
        (fun r => { r with cwd := some v }) (fun _ => rfl) = b'.sessions := by
      refine Table.updateWhere_eq_self fun r hr hp => ?_
      obtain ⟨hid, hnone⟩ := of_decide_eq_true hp
      have hrow' : row.cwd = none := by rwa [hb.row_eq hrow hr hid] at hnone
      simp [SessionRow.Has, hm, hrow'] at hhas
    simpa only [hself, Option.none_or, Bool.or_false] using hb
  | aiTitle v =>
    refine { hb with sessions := ?_, summaries := ?_, summary_mem := ?_ }
    · simp only [hb.sessions]
      rw [Table.updateWhere_updateWhere]
      case hp => exact fun _ => rfl
      rfl
    · simpa using hb.summaries
    · simpa using hb.summary_mem
  | firstUserMessage text =>
    have hself : b'.sessions.updateWhere (fun r => r.id = sessionId)
        (fun r => { r with firstUserMessage := r.firstUserMessage.or (some text) })
        (fun _ => rfl) = b'.sessions := by
      refine Table.updateWhere_eq_self fun r hr hp => ?_
      rw [hb.row_eq hrow hr (of_decide_eq_true hp)]
      obtain ⟨t, ht⟩ := Option.isSome_iff_exists.mp (by simpa [SessionRow.Has, hm] using hhas)
      simp [ht]
    simpa only [hself, Option.none_or, Bool.or_false] using hb
  | summary text =>
    have htags : (lineTags rt p).foldl
        (fun tags tag => tags.insertIgnore ⟨workspaceId, sessionId, tag⟩) b'.sessionTags =
          b'.sessionTags := by
      apply insertTags_eq_self
      rw [hb.sessionTags]
      exact hk.tags text hm
    refine { hb with
      sessionTags := htags.trans hb.sessionTags
      summaries := fun hor => ?_
      summary_mem := fun _ => ?_ }
    · have hmem := hor.resolve_left (by simp)
      have hsame := hb.summaries (.inr hmem)
      rw [← hsame, ← hb.maxEventId_eq] at hmem
      exact (Table.insertIgnore_of_mem hmem).trans hsame
    · rw [← hb.maxEventId_eq]
      exact Table.key_mem_insertIgnore b'.sessionSummaries _

/-- The line loop of a replayed chunk: nobody waits on the session, so nothing is promoted. -/
theorem Replayed.lines (workspaceId : String) (now : ℤ) (lines : List (String × Option ParsedLine))
    (hk : ∀ l ∈ lines, ∀ p, l.2 = some p → Known rt a sessionId p) :
    ∀ (c : Chunk) (title : Option String) (summary : Bool),
      Replayed a c.st.db sessionId last title summary →
      pendingKey workspaceId sessionId ∉ c.st.pendingClaudeIds →
      Replayed a (lines.foldl (ingestLine rt workspaceId sessionId now) c).st.db sessionId last
          (foldTitle rt title (lines.filterMap Prod.snd))
          (summary || (lines.filterMap Prod.snd).any (isSummary rt)) ∧
        (lines.foldl (ingestLine rt workspaceId sessionId now) c).st.pendingClaudeIds =
          c.st.pendingClaudeIds := by
  induction lines with
  | nil =>
    intro c title summary hc _
    exact ⟨by simpa [foldTitle] using hc, rfl⟩
  | cons l ls ih =>
    intro c title summary hc hids
    have hrest := ih fun m hm => hk m (List.mem_cons_of_mem _ hm)
    cases hp : l.2 with
    | none =>
      have hst := ingestLine_of_none rt workspaceId sessionId now c hp
      have hnext := hrest (ingestLine rt workspaceId sessionId now c l) title summary
      rw [hst] at hnext
      simpa [hp] using hnext hc hids
    | some p =>
      have hst : (ingestLine rt workspaceId sessionId now c l).st =
          ⟨(ingestOne rt c.st.db workspaceId sessionId l.1 p now).1, c.st.pendingClaudeIds⟩ := by
        simp [ingestLine, hp, hids]
      have hone := hc.line rt hrow (hk l (by simp) p hp) workspaceId l.1 now
      have hnext := hrest (ingestLine rt workspaceId sessionId now c l) _ _ (by rwa [hst])
        (by rwa [hst])
      rw [hst] at hnext
      simpa [hp, foldTitle, Bool.or_assoc] using hnext

variable {workspaceId : String} {now : ℤ}

/-- A replayed chunk transaction. -/
theorem Replayed.chunk {st : State} (h : Replayed a st.db sessionId last title summary)
    (hids : pendingKey workspaceId sessionId ∉ st.pendingClaudeIds) {chunk : List String}
    (hparse : ∀ line ∈ chunk, ∃ q, parseIngestLine rt line = .ok q)
    (hk : ∀ p ∈ parsedLines rt chunk, Known rt a sessionId p) :
    ∃ st' results, ingestChunk rt st workspaceId sessionId chunk now true = (st', some results) ∧
      Replayed a st'.db sessionId (foldLast last ((parsedLines rt chunk).map ParsedLine.ts))
        (foldTitle rt title (parsedLines rt chunk))
        (summary || (parsedLines rt chunk).any (isSummary rt)) ∧
      pendingKey workspaceId sessionId ∉ st'.pendingClaudeIds := by
  obtain ⟨parsed, hparsed⟩ := mapM_parsed hparse
  refine ⟨(chunkBody rt st workspaceId sessionId (chunk.zip parsed) now).st,
    (chunkBody rt st workspaceId sessionId (chunk.zip parsed) now).results,
    by simp [ingestChunk, hparsed], ?_⟩
  have hzip := parsedLines_zip rt hparsed
  have hmem : ∀ l ∈ chunk.zip parsed, ∀ p, l.2 = some p → p ∈ parsedLines rt chunk := by
    intro l hl p hp
    rw [← hzip]
    exact List.mem_filterMap.mpr ⟨l, hl, hp⟩
  have htss : (chunk.zip parsed).filterMap (fun l => l.2.map ParsedLine.ts) =
      (parsedLines rt chunk).map ParsedLine.ts := by
    rw [← hzip, List.map_filterMap]
  unfold chunkBody
  split_ifs with hall
  · have hnil : parsedLines rt chunk = [] := by
      rw [← hzip, List.filterMap_eq_nil_iff]
      intro l hl
      simpa using List.all_eq_true.mp hall l hl
    exact ⟨by simpa [hnil, foldLast, foldTitle] using h, hids⟩
  · have hstart : ∀ ts ∈ (parsedLines rt chunk).map ParsedLine.ts, ts.isSome →
        row.startedAt.isSome := by
      intro ts hts
      obtain ⟨p, hp, rfl⟩ := List.mem_map.mp hts
      obtain ⟨s, hs, hstart, _⟩ := (hk p hp).session
      obtain rfl := Option.some.inj (hrow.symm.trans hs)
      exact hstart
    have hlines := Replayed.lines rt hrow workspaceId now (chunk.zip parsed)
      (fun l hl p hp => hk p (hmem l hl p hp))
      ⟨⟨touchSession st.db workspaceId sessionId ((parsedLines rt chunk).map ParsedLine.ts),
        st.pendingClaudeIds⟩, false, []⟩ title summary (h.touch hrow workspaceId hstart) hids
    rw [htss, ← hzip]
    rw [hzip] at hlines ⊢
    exact ⟨hlines.1, by rw [hlines.2]; exact hids⟩

/-- The replayed call: its accumulated effect on the last activity, the title and the
summaries. -/
theorem Replayed.batch (fuel : ℕ) :
    ∀ (i : ℕ) (lines : List String) (st : State) (last : Option ℤ) (title : Option String)
      (summary : Bool), Replayed a st.db sessionId last title summary →
      pendingKey workspaceId sessionId ∉ st.pendingClaudeIds →
      (∀ line ∈ lines, ∃ q, parseIngestLine rt line = .ok q) →
      (∀ p ∈ parsedLines rt lines, Known rt a sessionId p) → lines.length ≤ fuel →
      Replayed a (ingestFrom rt workspaceId sessionId now (fun _ => true) fuel i lines st).1.db
        sessionId (foldLast last ((parsedLines rt lines).map ParsedLine.ts))
        (foldTitle rt title (parsedLines rt lines))
        (summary || (parsedLines rt lines).any (isSummary rt)) := by
  induction fuel with
  | zero =>
    intro i lines st last title summary h _ _ _ hlen
    rw [List.length_eq_zero_iff.mp (Nat.le_zero.mp hlen)]
    simpa [parsedLines, foldLast, foldTitle, ingestFrom] using h
  | succ fuel ih =>
    intro i lines st last title summary h hids hparse hk hlen
    by_cases hne : lines = []
    · subst hne
      simpa [parsedLines, foldLast, foldTitle, ingestFrom] using h
    have hsplit := List.take_append_drop ingestTxLines lines
    have happ : parsedLines rt lines =
        parsedLines rt (lines.take ingestTxLines) ++ parsedLines rt (lines.drop ingestTxLines) := by
      rw [parsedLines, parsedLines, parsedLines, ← List.filterMap_append, hsplit]
    have hdrop : (lines.drop ingestTxLines).length ≤ fuel := by
      have := List.length_pos_of_ne_nil hne
      simp only [List.length_drop, ingestTxLines]
      omega
    rw [happ] at hk
    obtain ⟨st', results, hchunk, hst', hids'⟩ := h.chunk rt hrow hids
      (fun line hl => hparse line (List.mem_of_mem_take hl))
      (fun p hp => hk p (List.mem_append_left _ hp))
    have hrest := ih (i + 1) (lines.drop ingestTxLines) st' _ _ _ hst' hids'
      (fun line hl => hparse line (List.mem_of_mem_drop hl))
      (fun p hp => hk p (List.mem_append_right _ hp)) hdrop
    rw [ingestFrom, if_neg hne, hchunk, happ]
    simpa [foldLast, foldTitle, List.foldl_append, Bool.or_assoc] using hrest

end Replay

theorem Replayed.sameContents_iff {a b : Db} {sessionId : String} {row : SessionRow}
    (hrow : a.sessions.get sessionId = some row) {last : Option ℤ} {title : Option String}
    {summary : Bool} (h : Replayed a b sessionId last title summary) :
    SameContents b a ↔ last = row.lastActiveAt ∧ title = row.aiTitle ∧
      (summary = true →
        (sessionId, maxEventId a sessionId) ∈ a.sessionSummaries.rows.map SummaryRow.key) := by
  constructor
  · intro hs
    have hget := h.get hrow
    rw [hs.sessions, hrow] at hget
    have heq := Option.some.inj hget
    refine ⟨(congrArg SessionRow.lastActiveAt heq).symm, (congrArg SessionRow.aiTitle heq).symm,
      fun hsum => ?_⟩
    rw [← hs.sessionSummaries]
    exact h.summary_mem hsum
  · rintro ⟨rfl, rfl, hsum⟩
    refine ⟨h.events, ?_, h.sessionCosts, h.sessionStats, h.sessionToolCounts, h.summaries ?_,
      h.sessionTags, h.usageAnchors, h.brokerSessions⟩
    · rw [h.sessions]
      exact (replayed_self hrow).sessions.symm
    · cases summary with
      | false => exact .inl rfl
      | true => exact .inr (hsum rfl)

end ClaudeFleet.StateDb
