import ClaudeFleet.RetentionComplete

/-! A whole retention pass, stopped or not, and what a completed one promises for every event. -/
namespace ClaudeFleet.Retention
open IngestParse RawCodec Transition

theorem stripCut_le_compressCut (now : ℤ) (resumed : Bool) :
    stripCut now resumed ≤ compressCut now := by
  unfold stripCut compressCut stripAfterResumedMs stripAfterMs compressAfterMs dayMs
  split <;> omega

theorem stripCut_false (now : ℤ) : stripCut now false = compressCut now := rfl

theorem older_eq_true {cut : ℤ} {e : Event} : older cut e = true ↔ ∃ t, e.ts = some t ∧ t < cut := by
  unfold older
  cases e.ts <;> simp

theorem holds_eq_true {r : Range} {e : Event} :
    r.holds e = true ↔ e.sessionId = r.sessionId ∧
      (∃ t, e.ts = some t ∧ r.fromTs ≤ t ∧ t < r.toTs) ∧
      (r.toolOnly = true → e.toolUseId.isSome = true) := by
  unfold Range.holds
  cases e.ts <;> cases r.toolOnly <;> simp [and_assoc]

section Pass
variable {env : Env} {now : ℤ}

/-- The strip cut of a session as the pass finds it. -/
def Db.stripCut (db : Db) (now : ℤ) (sessionId : String) : ℤ :=
  Retention.stripCut now (sessionId ∈ db.resumed)

/-- What a pass, at any of its stages, leaves of the store. -/
structure Progress (env : Env) (now : ℤ) (db db' : Db) : Prop where
  sessions : db'.sessions = db.sessions
  resumed : db'.resumed = db.resumed
  ids : db'.events.rows.map Event.id = db.events.rows.map Event.id
  kept : ∀ e' ∈ db'.events.rows, ∃ e ∈ db.events.rows,
    Kept env now (db.stripCut now e.sessionId) (compressCut now) e e'
  compressedBefore : ∀ id, db.compressedBefore id ≤ db'.compressedBefore id
  strippedBefore : ∀ id, db.strippedBefore id ≤ db'.strippedBefore id

theorem Progress.refl (db : Db) : Progress env now db db where
  sessions := rfl
  resumed := rfl
  ids := rfl
  kept := fun e he => ⟨e, he, .refl e⟩
  compressedBefore := fun _ => le_rfl
  strippedBefore := fun _ => le_rfl

theorem Progress.trans (hjson : WritesObjects env.rt "fleetStripped") {a b c : Db}
    (h₁ : Progress env now a b) (h₂ : Progress env now b c) : Progress env now a c where
  sessions := h₂.sessions.trans h₁.sessions
  resumed := h₂.resumed.trans h₁.resumed
  ids := h₂.ids.trans h₁.ids
  kept := by
    intro e₃ he₃
    obtain ⟨e₂, he₂, hk₂⟩ := h₂.kept e₃ he₃
    obtain ⟨e₁, he₁, hk₁⟩ := h₁.kept e₂ he₂
    have hid : e₂.sessionId = e₁.sessionId := by rw [hk₁.same]; rfl
    have hcut : b.stripCut now e₂.sessionId = a.stripCut now e₁.sessionId := by
      unfold Db.stripCut
      rw [h₁.resumed, hid]
    rw [hcut] at hk₂
    exact ⟨e₁, he₁, hk₁.trans hjson hk₂⟩
  compressedBefore := fun id => (h₁.compressedBefore id).trans (h₂.compressedBefore id)
  strippedBefore := fun id => (h₁.strippedBefore id).trans (h₂.strippedBefore id)

theorem Progress.stripCut {db db' : Db} (h : Progress env now db db') (sessionId : String) :
    db'.stripCut now sessionId = db.stripCut now sessionId := by
  unfold Db.stripCut
  rw [h.resumed]

/-- The row transformation of a session's walks. -/
abbrev sessionApply (env : Env) (now : ℤ) (db : Db) (sessionId : String) : Event → Option Stored :=
  fun row => transform env row now (db.stripCut now sessionId) (compressCut now)

/-- Rewriting old rows of one session, all or some, is progress and keeps the invariant. -/
theorem Sound.rewrite (hjson : WritesObjects env.rt "fleetStripped") {db : Db} (hs : Sound env db)
    {sessionId : String} {q : Event → Bool}
    (hq : ∀ e, q e = true → e.sessionId = sessionId ∧ older (compressCut now) e = true) :
    Sound env { db with
      events := rewriteWhere (sessionApply env now db sessionId) db.events q } ∧
    Progress env now db { db with
      events := rewriteWhere (sessionApply env now db sessionId) db.events q } := by
  have hkept : ∀ e ∈ db.events.rows, ∀ e',
      e' = (if q e then rewritten (sessionApply env now db sessionId) e else e) →
      Kept env now (db.stripCut now e.sessionId) (compressCut now) e e' ∧
      (∃ l, e'.line env = some l) ∧ (Compressed env e → Compressed env e') := by
    intro e he e' heq
    obtain ⟨l, hl⟩ := hs.readable e he
    cases hqe : q e with
    | false =>
      rw [hqe] at heq
      cases heq
      exact ⟨.refl e, ⟨l, hl⟩, id⟩
    | true =>
      rw [hqe, if_pos rfl] at heq
      subst heq
      obtain ⟨hid, hold⟩ := hq e hqe
      obtain ⟨hline, hcomp⟩ := @transform_rewritten env now (db.stripCut now sessionId) _ e l hl hold
      rw [hid]
      exact ⟨kept_rewritten hl hold, ⟨_, hline⟩, fun _ => hcomp⟩
  constructor
  · refine ⟨?_, ?_, hs.active, hs.order, hs.unresumed, ?_, ?_⟩
    · intro e' he'
      obtain ⟨e, he, heq⟩ := mem_rewriteWhere.mp he'
      exact (hkept e he e' heq).2.1
    · intro e' he'
      obtain ⟨e, he, heq⟩ := mem_rewriteWhere.mp he'
      have hsame := (hkept e he e' heq).1.same
      obtain ⟨t, s, last, hrest⟩ := hs.session e he
      rw [hsame]
      exact ⟨t, s, last, hrest⟩
    · intro e' he' t ht hw hlt
      obtain ⟨e, he, heq⟩ := mem_rewriteWhere.mp he'
      obtain ⟨hk, -, hcomp⟩ := hkept e he e' heq
      rw [hk.same] at ht hw hlt
      exact hcomp (hs.compressed e he t ht hw hlt)
    · intro e' he' t ht hw hlt hor
      obtain ⟨e, he, heq⟩ := mem_rewriteWhere.mp he'
      obtain ⟨hk, -, -⟩ := hkept e he e' heq
      obtain ⟨l, hl⟩ := hs.readable e he
      rw [hk.same] at ht hw hlt hor
      exact hk.stripped hjson hl (hs.stripped e he t ht hw hlt hor)
  · refine ⟨rfl, rfl, ?_, ?_, fun _ => le_rfl, fun _ => le_rfl⟩
    · exact Table.map_update (rewritten _) q (rewritten_id _) db.events.rows
    · intro e' he'
      obtain ⟨e, he, heq⟩ := mem_rewriteWhere.mp he'
      exact ⟨e, he, (hkept e he e' heq).1⟩

theorem get_setRetentionWatermarks {db : Db} {sessionId workspaceId : String} {c s : ℤ}
    (h : (db.sessions.get sessionId).isSome) (id : String) :
    (setRetentionWatermarks db sessionId workspaceId c s).compressedBefore id =
        (if id = sessionId then c else db.compressedBefore id) ∧
    (setRetentionWatermarks db sessionId workspaceId c s).strippedBefore id =
        (if id = sessionId then s else db.strippedBefore id) := by
  unfold setRetentionWatermarks Db.compressedBefore Db.strippedBefore
  rw [if_pos h]
  dsimp only
  rw [Table.get_upsert]
  by_cases hid : id = sessionId
  · rw [if_pos hid, if_pos hid, if_pos hid]
    cases db.retention.get id <;> exact ⟨rfl, rfl⟩
  · rw [if_neg hid, if_neg hid, if_neg hid]
    exact ⟨rfl, rfl⟩

/-- The watermarks may pass the cuts once the rows of both ranges are in their form. -/
theorem Sound.advance {db : Db} (hs : Sound env db) {sessionId workspaceId : String}
    (hsession : (db.sessions.get sessionId).isSome)
    (hnew : ∀ e ∈ db.events.rows, ∀ t, e.sessionId = sessionId → e.ts = some t →
      db.compressedBefore sessionId ≤ t → t < compressCut now →
      Compressed env e ∧ (t < db.stripCut now sessionId → Stripped env e))
    (hageing : ∀ e ∈ db.events.rows, ∀ t, e.sessionId = sessionId → e.ts = some t →
      db.strippedBefore sessionId ≤ t → t < db.stripCut now sessionId →
      t < db.compressedBefore sessionId → e.toolUseId.isSome → Stripped env e) :
    Sound env (setRetentionWatermarks db sessionId workspaceId
      (max (db.compressedBefore sessionId) (compressCut now))
      (max (db.strippedBefore sessionId) (db.stripCut now sessionId))) ∧
    Progress env now db (setRetentionWatermarks db sessionId workspaceId
      (max (db.compressedBefore sessionId) (compressCut now))
      (max (db.strippedBefore sessionId) (db.stripCut now sessionId))) := by
  have hmarks := @get_setRetentionWatermarks db sessionId workspaceId
    (max (db.compressedBefore sessionId) (compressCut now))
    (max (db.strippedBefore sessionId) (db.stripCut now sessionId)) hsession
  have hrest : ∀ c s, (setRetentionWatermarks db sessionId workspaceId c s).events = db.events ∧
      (setRetentionWatermarks db sessionId workspaceId c s).sessions = db.sessions ∧
      (setRetentionWatermarks db sessionId workspaceId c s).resumed = db.resumed := by
    intro c s
    unfold setRetentionWatermarks
    rw [if_pos hsession]
    exact ⟨rfl, rfl, rfl⟩
  obtain ⟨hevents, hsessions, hresumed⟩ := hrest
    (max (db.compressedBefore sessionId) (compressCut now))
    (max (db.strippedBefore sessionId) (db.stripCut now sessionId))
  have hcuts : db.stripCut now sessionId ≤ compressCut now := stripCut_le_compressCut ..
  constructor
  · refine ⟨?_, ?_, ?_, ?_, ?_, ?_, ?_⟩
    · rw [hevents]
      exact hs.readable
    · rw [hevents, hsessions]
      exact hs.session
    · rw [hsessions]
      exact hs.active
    · intro id
      have := hs.order id
      rw [(hmarks id).1, (hmarks id).2]
      by_cases hid : id = sessionId
      · rw [if_pos hid, if_pos hid]
        exact max_le_max (hs.order sessionId) hcuts
      · rw [if_neg hid, if_neg hid]
        exact this
    · intro id hnot
      rw [hresumed] at hnot
      rw [(hmarks id).1, (hmarks id).2]
      by_cases hid : id = sessionId
      · subst hid
        rw [if_pos rfl, if_pos rfl, hs.unresumed id hnot]
        unfold Db.stripCut
        rw [decide_eq_false hnot, stripCut_false]
      · rw [if_neg hid, if_neg hid]
        exact hs.unresumed id hnot
    · intro e he t ht hw hlt
      rw [hevents] at he
      rw [(hmarks e.sessionId).1] at hlt
      split at hlt
      · next hid =>
        by_cases hold : t < db.compressedBefore e.sessionId
        · exact hs.compressed e he t ht hw hold
        · rw [hid] at hold
          exact (hnew e he t hid ht (not_lt.mp hold) (by omega)).1
      · exact hs.compressed e he t ht hw hlt
    · intro e he t ht hw hlt hor
      rw [hevents] at he
      rw [hresumed] at hor
      rw [(hmarks e.sessionId).2] at hlt
      split at hlt
      · next hid =>
        by_cases hold : t < db.strippedBefore e.sessionId
        · exact hs.stripped e he t ht hw hold hor
        · rw [hid] at hold hor
          by_cases hcb : t < db.compressedBefore sessionId
          · -- an unresumed session has no row between its two watermarks
            rcases hor with htool | hnot
            · exact hageing e he t hid ht (not_lt.mp hold) (by omega) hcb htool
            · rw [hs.unresumed sessionId hnot] at hold
              exact absurd hcb hold
          · exact (hnew e he t hid ht (not_lt.mp hcb) (by omega)).2 (by omega)
      · exact hs.stripped e he t ht hw hlt hor
  · refine ⟨hsessions, hresumed, by rw [hevents], ?_, ?_, ?_⟩
    · rw [hevents]
      exact fun e he => ⟨e, he, .refl e⟩
    · intro id
      rw [(hmarks id).1]
      split
      · next hid => exact hid ▸ le_max_left _ _
      · exact le_rfl
    · intro id
      rw [(hmarks id).2]
      split
      · next hid => exact hid ▸ le_max_left _ _
      · exact le_rfl

theorem picked_store {apply : Event → Option Stored} {q : Event → Bool} {e e' : Event}
    (h : e' = if q e then rewritten apply e else e) : e' = e.store e'.toStored := by
  rw [h]
  split
  · exact rewritten_store apply e
  · rfl

/-- The candidate describes its session as the store has it. -/
structure Matches (db : Db) (c : Candidate) : Prop where
  session : ∃ s, db.sessions.get c.sessionId = some s ∧ c.lastActiveAt = s.lastActiveAt.getD 0
  resumed : c.resumed = decide (c.sessionId ∈ db.resumed)
  compressedBefore : c.compressedBefore = db.compressedBefore c.sessionId
  strippedBefore : c.strippedBefore = db.strippedBefore c.sessionId

theorem Matches.stripCut {db : Db} {c : Candidate} (h : Matches db c) :
    Retention.stripCut now c.resumed = db.stripCut now c.sessionId := by
  unfold Db.stripCut
  rw [h.resumed]

/-- One walk over old rows of a session. -/
theorem Sound.walk (hjson : WritesObjects env.rt "fleetStripped") {p : Pass} (hs : Sound env p.db)
    {r : Range} (hr : r.toTs ≤ compressCut now) :
    Sound env (walkRange env (sessionApply env now p.db r.sessionId) r p).1.db ∧
    Progress env now p.db (walkRange env (sessionApply env now p.db r.sessionId) r p).1.db := by
  obtain ⟨⟨q, hdb, hq, -⟩, -⟩ :=
    @walkRange_spec env (sessionApply env now p.db r.sessionId) r p
  rw [hdb]
  refine hs.rewrite hjson fun e he => ?_
  obtain ⟨hid, ⟨t, ht, -, hlt⟩, -⟩ := holds_eq_true.mp (hq e he)
  exact ⟨hid, older_eq_true.mpr ⟨t, ht, hlt.trans_le hr⟩⟩

/-- The two ranges of a session, as a pass walks them. -/
def newRange (db : Db) (now : ℤ) (sessionId : String) : Range :=
  ⟨sessionId, db.compressedBefore sessionId, compressCut now, false⟩

def ageingRange (db : Db) (now : ℤ) (sessionId : String) : Range :=
  ⟨sessionId, db.strippedBefore sessionId,
    min (db.stripCut now sessionId) (db.compressedBefore sessionId), true⟩

/-- Both walks done, the rows of the ranges are in their form. -/
theorem walks_done (hjson : WritesObjects env.rt "fleetStripped") {p p₁ p₂ : Pass}
    {sessionId : String} (hs : Sound env p.db)
    (h₁ : walkRange env (sessionApply env now p.db sessionId) (newRange p.db now sessionId) p =
      (p₁, true))
    (h₂ : walkRange env (sessionApply env now p.db sessionId) (ageingRange p.db now sessionId) p₁ =
      (p₂, true)) :
    (∀ e ∈ p₂.db.events.rows, ∀ t, e.sessionId = sessionId → e.ts = some t →
      p.db.compressedBefore sessionId ≤ t → t < compressCut now →
      Compressed env e ∧ (t < p.db.stripCut now sessionId → Stripped env e)) ∧
    ∀ e ∈ p₂.db.events.rows, ∀ t, e.sessionId = sessionId → e.ts = some t →
      p.db.strippedBefore sessionId ≤ t → t < p.db.stripCut now sessionId →
      t < p.db.compressedBefore sessionId → e.toolUseId.isSome → Stripped env e := by
  have hcuts : p.db.stripCut now sessionId ≤ compressCut now := stripCut_le_compressCut ..
  have hs₁ : Sound env p₁.db := by
    have := (hs.walk hjson (r := newRange p.db now sessionId) le_rfl).1
    rwa [show (newRange p.db now sessionId).sessionId = sessionId from rfl, h₁] at this
  obtain ⟨⟨q₁, hdb₁, -, hall₁⟩, -⟩ :=
    @walkRange_spec env (sessionApply env now p.db sessionId) (newRange p.db now sessionId) p
  obtain ⟨⟨q₂, hdb₂, hq₂, hall₂⟩, -⟩ :=
    @walkRange_spec env (sessionApply env now p.db sessionId) (ageingRange p.db now sessionId) p₁
  rw [h₁] at hdb₁ hall₁
  rw [h₂] at hdb₂ hall₂
  have hevents₁ : p₁.db.events =
      rewriteWhere (sessionApply env now p.db sessionId) p.db.events q₁ := by rw [hdb₁]
  have hevents₂ : p₂.db.events =
      rewriteWhere (sessionApply env now p.db sessionId) p₁.db.events q₂ := by rw [hdb₂]
  constructor
  · intro e he t hid ht hle hlt
    rw [hevents₂] at he
    obtain ⟨e₁, he₁, heq⟩ := mem_rewriteWhere.mp he
    -- the second walk stays below the compress watermark
    have hq : q₂ e₁ = false := by
      by_contra hne
      obtain ⟨-, ⟨u, hu, -, hult⟩, -⟩ := holds_eq_true.mp (hq₂ e₁ (by simpa using hne))
      rw [picked_store heq] at ht
      cases hu.symm.trans ht
      simp only [ageingRange] at hult
      omega
    rw [hq] at heq
    have heq₁ : e = e₁ := heq
    rw [heq₁] at hid ht ⊢
    rw [hevents₁] at he₁
    obtain ⟨e₀, he₀, heq₀⟩ := mem_rewriteWhere.mp he₁
    rw [picked_store heq₀] at hid ht
    obtain ⟨l, hl⟩ := hs.readable e₀ he₀
    have hold : older (compressCut now) e₀ = true := older_eq_true.mpr ⟨t, ht, hlt⟩
    have hholds : (newRange p.db now sessionId).holds e₀ = true :=
      holds_eq_true.mpr ⟨hid, ⟨t, ht, hle, hlt⟩, fun h => by cases h⟩
    rw [hall₁ rfl e₀ he₀ hholds, if_pos rfl] at heq₀
    rw [heq₀]
    exact ⟨(transform_rewritten hl hold).2, fun hstrip => stripped_rewritten hjson hl hold
      (older_eq_true.mpr ⟨t, ht, hstrip⟩)⟩
  · intro e he t hid ht hle hstrip hlt htool
    rw [hevents₂] at he
    obtain ⟨e₁, he₁, heq⟩ := mem_rewriteWhere.mp he
    rw [picked_store heq] at hid ht htool
    obtain ⟨l, hl⟩ := hs₁.readable e₁ he₁
    have hholds : (ageingRange p.db now sessionId).holds e₁ = true :=
      holds_eq_true.mpr ⟨hid, ⟨t, ht, hle, lt_min hstrip hlt⟩, fun _ => htool⟩
    rw [hall₂ rfl e₁ he₁ hholds, if_pos rfl] at heq
    rw [heq]
    exact stripped_rewritten hjson hl
      (older_eq_true.mpr ⟨t, ht, hstrip.trans_le hcuts⟩)
      (older_eq_true.mpr ⟨t, ht, hstrip⟩)

/-- Nothing of the session is left for a pass: its watermarks are past the cuts, or all its events
are below them. -/
def Reached (now : ℤ) (db : Db) (sessionId : String) : Prop :=
  (compressCut now ≤ db.compressedBefore sessionId ∧
    db.stripCut now sessionId ≤ db.strippedBefore sessionId) ∨
  ∃ s last, db.sessions.get sessionId = some s ∧ s.lastActiveAt = some last ∧
    last < db.strippedBefore sessionId

theorem Reached.mono {db db' : Db} {sessionId : String} (h : Reached now db sessionId)
    (hp : Progress env now db db') : Reached now db' sessionId := by
  rcases h with ⟨hc, hst⟩ | ⟨s, last, hget, hact, hlt⟩
  · rw [← hp.stripCut] at hst
    exact .inl ⟨hc.trans (hp.compressedBefore _), hst.trans (hp.strippedBefore _)⟩
  · exact .inr ⟨s, last, hp.sessions ▸ hget, hact, hlt.trans_le (hp.strippedBefore _)⟩

/-- A session the pass skips has nothing left. -/
theorem Matches.reached {db : Db} {c : Candidate} (hm : Matches db c) (hs : Sound env db)
    (h : (compressCut now ≤ c.compressedBefore ∧
        Retention.stripCut now c.resumed ≤ c.strippedBefore) ∨
      c.lastActiveAt < min c.compressedBefore c.strippedBefore) : Reached now db c.sessionId := by
  rcases h with ⟨hc, hst⟩ | hlast
  · rw [hm.stripCut, hm.strippedBefore] at hst
    rw [hm.compressedBefore] at hc
    exact .inl ⟨hc, hst⟩
  · obtain ⟨s, hget, hact⟩ := hm.session
    obtain ⟨last, hsome⟩ := Option.isSome_iff_exists.mp (hs.active c.sessionId s hget)
    rw [hact, hsome, hm.strippedBefore] at hlast
    exact .inr ⟨s, last, hget, hsome, hlast.trans_le (min_le_right _ _)⟩

theorem Matches.walked {db db' : Db} {c : Candidate} (hm : Matches db c)
    (hp : Progress env now db db')
    (hmarks : db'.compressedBefore c.sessionId = db.compressedBefore c.sessionId ∧
      db'.strippedBefore c.sessionId = db.strippedBefore c.sessionId) : Matches db' c where
  session := by
    rw [hp.sessions]
    exact hm.session
  resumed := by rw [hp.resumed, hm.resumed]
  compressedBefore := by rw [hm.compressedBefore, hmarks.1]
  strippedBefore := by rw [hm.strippedBefore, hmarks.2]

/-- What the walk of one session gives: whatever happens the invariant is kept, and if both walks
finish the watermarks move. -/
theorem retainSession_spec (hjson : WritesObjects env.rt "fleetStripped") {p p₁ : Pass}
    {c : Candidate} (hs : Sound env p.db) (hm : Matches p.db c) {b₁ : Bool}
    (h₁ : walkRange env (fun row => transform env row now (Retention.stripCut now c.resumed)
        (compressCut now)) ⟨c.sessionId, c.compressedBefore, compressCut now, false⟩ p = (p₁, b₁)) :
    (Sound env p₁.db ∧ Progress env now p.db p₁.db ∧
      (p.checks = none → b₁ = true ∧ p₁.checks = none)) ∧
    ∀ p₂ b₂, walkRange env (fun row => transform env row now (Retention.stripCut now c.resumed)
        (compressCut now)) ⟨c.sessionId, c.strippedBefore,
          min (Retention.stripCut now c.resumed) c.compressedBefore, true⟩ p₁ = (p₂, b₂) →
      (Sound env p₂.db ∧ Progress env now p.db p₂.db ∧
        (p₁.checks = none → b₂ = true ∧ p₂.checks = none)) ∧
      (b₁ = true → b₂ = true →
        let db' := setRetentionWatermarks p₂.db c.sessionId c.workspaceId
          (max c.compressedBefore (compressCut now))
          (max c.strippedBefore (Retention.stripCut now c.resumed))
        Sound env db' ∧ Progress env now p.db db' ∧ Reached now db' c.sessionId ∧
          ∀ id, id ≠ c.sessionId → db'.compressedBefore id = p.db.compressedBefore id ∧
            db'.strippedBefore id = p.db.strippedBefore id) := by
  have hcuts : p.db.stripCut now c.sessionId ≤ compressCut now := stripCut_le_compressCut ..
  rw [@Matches.stripCut now _ _ hm, hm.compressedBefore] at h₁ ⊢
  rw [hm.strippedBefore]
  have hwalk₁ := hs.walk hjson (r := newRange p.db now c.sessionId) le_rfl
  obtain ⟨⟨q₁, hdb₁, -, -⟩, hchecks₁⟩ :=
    @walkRange_spec env (sessionApply env now p.db c.sessionId) (newRange p.db now c.sessionId) p
  have h₁' : walkRange env (sessionApply env now p.db c.sessionId)
      (newRange p.db now c.sessionId) p = (p₁, b₁) := h₁
  rw [show (newRange p.db now c.sessionId).sessionId = c.sessionId from rfl, h₁'] at hwalk₁
  rw [h₁'] at hdb₁ hchecks₁
  refine ⟨⟨hwalk₁.1, hwalk₁.2, hchecks₁⟩, ?_⟩
  intro p₂ b₂ h₂
  have hcut₁ := hwalk₁.2.stripCut c.sessionId
  have h₂' : walkRange env (sessionApply env now p.db c.sessionId)
      (ageingRange p.db now c.sessionId) p₁ = (p₂, b₂) := h₂
  have hwalk₂ := hwalk₁.1.walk hjson (r := ageingRange p.db now c.sessionId)
    ((min_le_left _ _).trans hcuts)
  obtain ⟨⟨q₂, hdb₂, -, -⟩, hchecks₂⟩ :=
    @walkRange_spec env (sessionApply env now p.db c.sessionId) (ageingRange p.db now c.sessionId)
      p₁
  have happly : sessionApply env now p₁.db c.sessionId = sessionApply env now p.db c.sessionId := by
    unfold sessionApply
    rw [hcut₁]
  rw [show (ageingRange p.db now c.sessionId).sessionId = c.sessionId from rfl, happly, h₂']
    at hwalk₂
  rw [h₂'] at hdb₂ hchecks₂
  have hprog := hwalk₁.2.trans hjson hwalk₂.2
  refine ⟨⟨hwalk₂.1, hprog, hchecks₂⟩, ?_⟩
  rintro rfl rfl
  -- the walks leave the watermarks alone
  have hmarks : ∀ id, p₂.db.compressedBefore id = p.db.compressedBefore id ∧
      p₂.db.strippedBefore id = p.db.strippedBefore id := by
    intro id
    rw [hdb₂, hdb₁]
    exact ⟨rfl, rfl⟩
  have hcut₂ := hprog.stripCut c.sessionId
  have hsession : (p₂.db.sessions.get c.sessionId).isSome := by
    obtain ⟨s, hget, -⟩ := hm.session
    rw [hprog.sessions, hget]
    rfl
  obtain ⟨hnew, hageing⟩ := walks_done hjson hs h₁' h₂'
  have hadvance := @Sound.advance env now p₂.db hwalk₂.1 c.sessionId c.workspaceId hsession
  rw [hcut₂, (hmarks c.sessionId).1, (hmarks c.sessionId).2] at hadvance
  obtain ⟨hsound, hstep⟩ := hadvance hnew hageing
  have hset := @get_setRetentionWatermarks p₂.db c.sessionId c.workspaceId
    (max (p.db.compressedBefore c.sessionId) (compressCut now))
    (max (p.db.strippedBefore c.sessionId) (p.db.stripCut now c.sessionId)) hsession
  have hprog' := hprog.trans hjson hstep
  refine ⟨hsound, hprog', .inl ⟨?_, ?_⟩, ?_⟩
  · rw [(hset _).1, if_pos rfl]
    exact le_max_right _ _
  · rw [(hset _).2, if_pos rfl, hprog'.stripCut]
    exact le_max_right _ _
  · intro id hid
    rw [(hset id).1, (hset id).2, if_neg hid, if_neg hid]
    exact hmarks id

theorem retainSessions_spec (hjson : WritesObjects env.rt "fleetStripped") (cs : List Candidate)
    (p : Pass) (hs : Sound env p.db) (hm : ∀ c ∈ cs, Matches p.db c)
    (hd : (cs.map Candidate.sessionId).Nodup) :
    Sound env (retainSessions env now cs p).1.db ∧
    Progress env now p.db (retainSessions env now cs p).1.db ∧
    ((retainSessions env now cs p).2 = true →
      ∀ c ∈ cs, Reached now (retainSessions env now cs p).1.db c.sessionId) ∧
    (p.checks = none → (retainSessions env now cs p).2 = true) := by
  induction cs generalizing p with
  | nil => exact ⟨hs, .refl _, fun _ c hc => (by cases hc), fun _ => rfl⟩
  | cons c cs ih =>
    obtain ⟨hnotin, hd'⟩ := List.nodup_cons.mp hd
    have hmc := hm c List.mem_cons_self
    have hmcs : ∀ c' ∈ cs, Matches p.db c' := fun c' hc' => hm c' (List.mem_cons_of_mem _ hc')
    rw [retainSessions]
    cases hcheck : p.check with
    | none =>
      refine ⟨hs, .refl _, fun h => (by cases h), fun hnone => ?_⟩
      rw [Pass.check, hnone] at hcheck
      cases hcheck
    | some p' =>
      obtain ⟨hdb, hchecks⟩ := Pass.check_cases hcheck
      rw [← hdb] at hs hmc hmcs ⊢
      dsimp only
      have hskip : Reached now p'.db c.sessionId →
          Sound env (retainSessions env now cs p').1.db ∧
          Progress env now p'.db (retainSessions env now cs p').1.db ∧
          ((retainSessions env now cs p').2 = true →
            ∀ c' ∈ c :: cs, Reached now (retainSessions env now cs p').1.db c'.sessionId) ∧
          (p.checks = none → (retainSessions env now cs p').2 = true) := by
        intro hreached
        obtain ⟨hsound, hprog, hall, hfin⟩ := ih p' hs hmcs hd'
        refine ⟨hsound, hprog, fun hdone c' hc' => ?_, fun h => hfin (hchecks h)⟩
        rcases List.mem_cons.mp hc' with rfl | hc'
        · exact hreached.mono hprog
        · exact hall hdone c' hc'
      split
      · next hskip₁ => exact hskip (hmc.reached hs (.inl hskip₁))
      · split
        · next hskip₂ => exact hskip (hmc.reached hs (.inr hskip₂))
        · split
          · next p₁ h₁ =>
            obtain ⟨⟨hsound, hprog, hch⟩, -⟩ := retainSession_spec hjson hs hmc h₁
            refine ⟨hsound, hprog, fun h => (by cases h), fun hnone => ?_⟩
            exact (hch (hchecks hnone)).1
          · next p₁ h₁ =>
            obtain ⟨⟨-, -, hch₁⟩, hsecond⟩ := retainSession_spec hjson hs hmc h₁
            split
            · next p₂ h₂ =>
              obtain ⟨⟨hsound, hprog, hch⟩, -⟩ := hsecond p₂ false h₂
              refine ⟨hsound, hprog, fun h => (by cases h), fun hnone => ?_⟩
              exact (hch (hch₁ (hchecks hnone)).2).1
            · next p₂ h₂ =>
              obtain ⟨⟨-, -, hch₂⟩, hdone⟩ := hsecond p₂ true h₂
              obtain ⟨hsound, hprog, hreached, hother⟩ := hdone rfl rfl
              have hrest : ∀ c' ∈ cs, Matches (setRetentionWatermarks p₂.db c.sessionId
                  c.workspaceId (max c.compressedBefore (compressCut now))
                  (max c.strippedBefore (Retention.stripCut now c.resumed))) c' := by
                intro c' hc'
                refine (hmcs c' hc').walked hprog (hother c'.sessionId ?_)
                rintro heq
                exact hnotin (heq ▸ List.mem_map_of_mem hc')
              obtain ⟨hsound', hprog', hall, hfin⟩ := ih
                { p₂ with
                  db := setRetentionWatermarks p₂.db c.sessionId c.workspaceId
                    (max c.compressedBefore (compressCut now))
                    (max c.strippedBefore (Retention.stripCut now c.resumed)) } hsound hrest hd'
              refine ⟨hsound', hprog.trans hjson hprog', fun hdone' c' hc' => ?_, fun hnone => ?_⟩
              · rcases List.mem_cons.mp hc' with rfl | hc'
                · exact hreached.mono hprog'
                · exact hall hdone' c' hc'
              · exact hfin (hch₂ (hch₁ (hchecks hnone)).2).2

theorem mem_retentionCandidates {db : Db} {cut : ℤ} {c : Candidate} :
    c ∈ retentionCandidates db cut ↔ ∃ s ∈ db.sessions.rows,
      ((s.startedAt.any fun t => t < cut) = true ∧
        (db.compressedBefore s.id < cut ∨ db.strippedBefore s.id < cut)) ∧
      c = ⟨s.id, s.workspaceId, s.id ∈ db.resumed, db.compressedBefore s.id,
        db.strippedBefore s.id, s.lastActiveAt.getD 0⟩ := by
  unfold retentionCandidates
  dsimp only
  rw [List.mem_map]
  simp only [List.mem_insertionSort, List.mem_filter, decide_eq_true_eq, and_assoc]
  simp only [eq_comm]

theorem matches_of_candidate {db : Db} {cut : ℤ} {c : Candidate}
    (h : c ∈ retentionCandidates db cut) : Matches db c := by
  obtain ⟨s, hs, -, rfl⟩ := mem_retentionCandidates.mp h
  exact ⟨⟨s, Table.get_eq_some.mpr ⟨hs, rfl⟩, rfl⟩, rfl, rfl, rfl⟩

theorem retentionCandidates_nodup (db : Db) (cut : ℤ) :
    ((retentionCandidates db cut).map Candidate.sessionId).Nodup := by
  unfold retentionCandidates
  dsimp only
  rw [List.map_map]
  refine ((List.perm_insertionSort _ _).map _).nodup_iff.mpr ?_
  exact db.sessions.nodup.sublist (List.filter_sublist.map Session.id)

theorem retainEvents_spec (hjson : WritesObjects env.rt "fleetStripped") {db : Db}
    (hs : Sound env db) (checks : Option ℕ) :
    Sound env (retainEvents env db now checks).1.db ∧
    Progress env now db (retainEvents env db now checks).1.db ∧
    ((retainEvents env db now checks).2 = true → ∀ id s, db.sessions.get id = some s →
      (s.startedAt.any fun t => t < compressCut now) = true →
      Reached now (retainEvents env db now checks).1.db id) ∧
    (checks = none → (retainEvents env db now checks).2 = true) := by
  obtain ⟨hsound, hprog, hall, hfin⟩ := @retainSessions_spec env now hjson
    (retentionCandidates db (compressCut now)) ⟨db, checks, {}⟩ hs
    (fun c hc => matches_of_candidate hc) (retentionCandidates_nodup db _)
  refine ⟨hsound, hprog, fun hdone id s hget hstarted => ?_, hfin⟩
  obtain ⟨hmem, rfl⟩ := Table.get_eq_some.mp hget
  by_cases hbehind : db.compressedBefore s.id < compressCut now ∨
      db.strippedBefore s.id < compressCut now
  · exact hall hdone _ (mem_retentionCandidates.mpr ⟨s, hmem, ⟨hstarted, hbehind⟩, rfl⟩)
  · have hcuts : db.stripCut now s.id ≤ compressCut now := stripCut_le_compressCut ..
    have hreached : Reached now db s.id := .inl (by omega)
    exact hreached.mono hprog

/-- The lines of the run that are events carry a timestamp. -/
def Stamped (rt : Runtime) : Action → Prop
  | .ingest _ _ rawLine => ∀ p, parseIngestLine rt rawLine = .ok (some p) → p.ts ≠ none
  | _ => True

theorem Sound.step (hjson : WritesObjects env.rt "fleetStripped") {db db' : Db} {a : Action}
    (hs : Sound env db) (ha : Stamped env.rt a) (h : step env db a = some db') :
    Sound env db' := by
  cases a with
  | ingest workspaceId sessionId rawLine =>
    cases h
    exact hs.ingest workspaceId sessionId rawLine ha
  | resume sessionId =>
    cases h
    exact hs.resume sessionId
  | pass now checks =>
    cases h
    exact (retainEvents_spec hjson hs checks).1

end Pass

/-- An injective code for the lines, read back by its inverse. -/
noncomputable def byteZlib : Zlib where
  deflate line := 120 :: line.toByteArray.data.toList
  inflate z := open Classical in
    if h : ∃ line : String, 120 :: line.toByteArray.data.toList = z then some h.choose else none
  inflate_deflate line := by
    have hex : ∃ l : String, 120 :: l.toByteArray.data.toList = 120 :: line.toByteArray.data.toList :=
      ⟨line, rfl⟩
    rw [dif_pos hex]
    have hbytes := hex.choose_spec
    rw [List.cons.injEq, Array.toList_inj] at hbytes
    have hinj : hex.choose.toByteArray = line.toByteArray := ByteArray.ext hbytes.2
    rw [String.toByteArray_inj.mp hinj]
  deflate_ne_nil _ := List.cons_ne_nil _ _

def stubText : String := "\x7b\"fleetStripped\":\x7b\x7d\x7d"

def noteLine : String := "\x7b\"type\":\"system\",\"uuid\":\"n\",\"timestamp\":\"1970-01-02\"\x7d"

def resultLine : String := "\x7b\"type\":\"user\",\"uuid\":\"r\",\"timestamp\":\"1970-01-02\"," ++
  "\"message\":\x7b\"content\":[\x7b\"type\":\"tool_result\"\x7d]\x7d\x7d"

def recentLine : String :=
  "\x7b\"type\":\"system\",\"uuid\":\"m\",\"timestamp\":\"1970-02-01\"\x7d"

def sampleDocs : List (String × Json) :=
  [(stubText, .obj [("fleetStripped", .obj [])]),
   (noteLine, .obj [("type", .str "system"), ("uuid", .str "n"), ("timestamp", .str "1970-01-02")]),
   (recentLine,
    .obj [("type", .str "system"), ("uuid", .str "m"), ("timestamp", .str "1970-02-01")]),
   (resultLine,
    .obj [("type", .str "user"), ("uuid", .str "r"), ("timestamp", .str "1970-01-02"),
      ("message", .obj [("content", .arr [.obj [("type", .str "tool_result")]])])])]

noncomputable def sampleEnv : Env where
  rt := { Runtime.ofDocs sampleDocs [("1970-01-02", dayMs), ("1970-02-01", 31 * dayMs)] with
    stringify := fun _ => stubText }
  slice text _ := text
  zlib := byteZlib
  compress := true
  sliceRows := 200

end ClaudeFleet.Retention
