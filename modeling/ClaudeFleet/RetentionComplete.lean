import ClaudeFleet.Retention

/-! What a retention pass leaves behind. A walk rewrites exactly the rows of its range, the rows
below a session's watermarks are in their final form, and a completed pass has raised the
watermarks of every session it should have walked. -/
namespace ClaudeFleet.Retention
open IngestParse RawCodec Transition

/-! One walk. -/

def rewritten (apply : Event → Option Stored) (e : Event) : Event :=
  ((apply e).map e.store).getD e

section Rows
variable (apply : Event → Option Stored)

theorem rewritten_store (e : Event) :
    rewritten apply e = e.store (rewritten apply e).toStored := by
  unfold rewritten
  cases apply e <;> rfl

@[simp] theorem rewritten_id (e : Event) : (rewritten apply e).id = e.id := by
  rw [rewritten_store]
  rfl

@[simp] theorem rewritten_key (e : Event) : (rewritten apply e).key = e.key := by
  rw [rewritten_store]
  rfl

@[simp] theorem holds_rewritten (r : Range) (e : Event) :
    r.holds (rewritten apply e) = r.holds e := by
  rw [rewritten_store]
  rfl

/-- Rewrite the rows a predicate picks. -/
def rewriteWhere (T : Table Event.id) (q : Event → Bool) : Table Event.id :=
  T.updateWhere q (rewritten apply) (rewritten_id apply)

variable {apply}

theorem mem_rewriteWhere {T : Table Event.id} {q : Event → Bool} {e' : Event} :
    e' ∈ (rewriteWhere apply T q).rows ↔
      ∃ e ∈ T.rows, e' = if q e then rewritten apply e else e := by
  simp only [rewriteWhere, Table.updateWhere, List.mem_map, eq_comm]

theorem mem_sliceUpdates {T : Table Event.id} {ids : List ℕ} {u : Update} :
    u ∈ sliceUpdates T ids apply ↔
      ∃ e ∈ T.rows, e.id ∈ ids ∧ ∃ next, apply e = some next ∧ u = ⟨e.id, next⟩ := by
  simp only [sliceUpdates, List.mem_filterMap, List.mem_filter, decide_eq_true_eq,
    Option.map_eq_some_iff, and_assoc]
  simp only [eq_comm]

theorem find_sliceUpdates {T : Table Event.id} {ids : List ℕ} {e : Event} (he : e ∈ T.rows)
    {u : Update} (hu : u ∈ sliceUpdates T ids apply) (hid : u.id = e.id) :
    e.id ∈ ids ∧ apply e = some u.next := by
  obtain ⟨e₂, he₂, hids, next, happly, rfl⟩ := mem_sliceUpdates.mp hu
  have hsame : e₂ = e := List.inj_on_of_nodup_map T.nodup he₂ he hid
  subst hsame
  exact ⟨hids, happly⟩

/-- One slice: bodies read, transformed and written back by id. -/
theorem rewrite_slice (T : Table Event.id) (ids : List ℕ) :
    rewriteEventRaw T (sliceUpdates T ids apply) = rewriteWhere apply T fun e => e.id ∈ ids := by
  apply Table.ext
  refine List.map_congr_left fun e he => ?_
  cases hfind : (sliceUpdates T ids apply).find? fun u => u.id = e.id with
  | some u =>
    have hu := List.mem_of_find?_eq_some hfind
    have hid : u.id = e.id := by simpa using List.find?_some hfind
    obtain ⟨hids, happly⟩ := find_sliceUpdates he hu hid
    have hany : ((sliceUpdates T ids apply).any fun u => u.id = e.id) = true :=
      List.any_eq_true.mpr ⟨u, hu, by simpa using hid⟩
    rw [if_pos hany, if_pos (by simpa using hids)]
    dsimp only
    rw [hfind]
    simp [rewritten, happly]
  | none =>
    have hnone := List.find?_eq_none.mp hfind
    have hany : ¬ ((sliceUpdates T ids apply).any fun u => u.id = e.id) = true := by
      intro h
      obtain ⟨u, hu, hid⟩ := List.any_eq_true.mp h
      exact hnone u hu hid
    rw [if_neg hany]
    split
    · next hids =>
      cases happly : apply e with
      | none => simp [rewritten, happly]
      | some next =>
        have hmem := mem_sliceUpdates.mpr ⟨e, he, by simpa using hids, next, happly, rfl⟩
        exact absurd (decide_eq_true rfl) (hnone _ hmem)
    · rfl

end Rows

section Walk
variable {env : Env} {apply : Event → Option Stored} {r : Range}

/-- A filter that drops the updated rows, before and after, does not see the update. -/
theorem filter_map_update {α : Type*} {p q : α → Bool} {f : α → α} {rows : List α}
    (h : ∀ e, q e = true → p (f e) = false ∧ p e = false) :
    (rows.map fun e => if q e then f e else e).filter p = rows.filter p := by
  induction rows with
  | nil => rfl
  | cons e rows ih =>
    rw [List.map_cons]
    by_cases hq : q e = true
    · obtain ⟨hf, he⟩ := h e hq
      rw [if_pos hq, List.filter_cons_of_neg (by simp [hf]), List.filter_cons_of_neg (by simp [he]),
        ih]
    · rw [if_neg hq, List.filter_cons, List.filter_cons, ih]

open Keyset in
/-- The table once the walk has come to a mark. -/
def walked (apply : Event → Option Stored) (r : Range) (T : Table Event.id)
    (after : Option (ℤ ×ₗ ℕ)) : Table Event.id :=
  rewriteWhere apply T fun e => r.holds e && decide (¬ Beyond Event.key after e)

/-- The rows ahead of the mark are as they were. -/
theorem filter_walked (T : Table Event.id) (after : Option (ℤ ×ₗ ℕ)) :
    ((walked apply r T after).rows.filter r.holds).filter (Keyset.Beyond Event.key after) =
      (T.rows.filter r.holds).filter (Keyset.Beyond Event.key after) := by
  rw [List.filter_filter, List.filter_filter]
  refine filter_map_update fun e he => ?_
  obtain ⟨-, hb⟩ := Bool.and_eq_true_iff.mp he
  have hb' : ¬ Keyset.Beyond Event.key after e := of_decide_eq_true hb
  have hb'' : ¬ Keyset.Beyond Event.key after (rewritten apply e) := by
    simpa only [Keyset.Beyond, rewritten_key] using hb'
  simp only [decide_eq_false hb', decide_eq_false hb'', Bool.false_and, and_self]

theorem retentionKeys_walked (T : Table Event.id) (after : Option (ℤ ×ₗ ℕ)) (n : ℕ) :
    retentionKeys (walked apply r T after).rows r after n = retentionKeys T.rows r after n := by
  unfold retentionKeys Keyset.fetch
  rw [filter_walked]

theorem key_nodup (T : Table Event.id) (q : Event → Bool) :
    ((T.rows.filter q).map Event.key).Nodup := by
  refine List.Nodup.of_map (fun k : ℤ ×ₗ ℕ => (ofLex k).2) ?_
  rw [List.map_map]
  exact T.nodup.sublist (List.filter_sublist.map Event.id)

theorem take_retentionKeys (rows : List Event) (after : Option (ℤ ×ₗ ℕ)) (n k : ℕ) :
    (retentionKeys rows r after n).take k = retentionKeys rows r after (min k n) := by
  unfold retentionKeys Keyset.fetch
  rw [List.take_take]

theorem beyond_some {k : ℤ ×ₗ ℕ} {e : Event} :
    Keyset.Beyond Event.key (some k) e ↔ k < e.key := by
  simp [Keyset.Beyond]

/-- The rows of a page, by their ids. -/
theorem id_mem_page {T : Table Event.id} {after : Option (ℤ ×ₗ ℕ)} {n : ℕ} {last e : Event}
    (hlast : (retentionKeys T.rows r after n).getLast? = some last) (he : e ∈ T.rows) :
    e.id ∈ (retentionKeys T.rows r after n).map Event.id ↔
      r.holds e = true ∧ Keyset.Beyond Event.key after e ∧ e.key ≤ last.key := by
  have hperm := Keyset.fetch_perm hlast (.inl (key_nodup T r.holds))
  have hpage : ∀ x, x ∈ retentionKeys T.rows r after n ↔
      (x ∈ T.rows ∧ r.holds x = true) ∧ Keyset.Beyond Event.key after x ∧ x.key ≤ last.key := by
    intro x
    rw [retentionKeys, hperm.mem_iff, Keyset.between, List.mem_filter, List.mem_filter,
      decide_eq_true_eq]
  constructor
  · intro h
    obtain ⟨x, hx, hid⟩ := List.mem_map.mp h
    obtain ⟨⟨hxT, hholds⟩, hrest⟩ := (hpage x).mp hx
    have hsame : x = e := List.inj_on_of_nodup_map T.nodup hxT he hid
    exact hsame ▸ ⟨hholds, hrest⟩
  · rintro ⟨hholds, hrest⟩
    exact List.mem_map_of_mem ((hpage e).mpr ⟨⟨he, hholds⟩, hrest⟩)

theorem walked_slice {T : Table Event.id} {after : Option (ℤ ×ₗ ℕ)} {n : ℕ} {last : Event}
    (hlast : (retentionKeys T.rows r after n).getLast? = some last) :
    rewriteWhere apply (walked apply r T after)
        (fun e => e.id ∈ (retentionKeys T.rows r after n).map Event.id) =
      walked apply r T (some last.key) := by
  have hmove : ∀ l ∈ after, l < last.key := (Keyset.fetch_last hlast).1
  apply Table.ext
  simp only [walked, rewriteWhere, Table.updateWhere, List.map_map]
  refine List.map_congr_left fun e he => ?_
  have hpage := id_mem_page hlast he
  simp only [Function.comp_apply, beyond_some, not_lt]
  by_cases hh : r.holds e = true
  · by_cases hb : Keyset.Beyond Event.key after e
    · simp [hh, hb, hpage]
    · have hle : e.key ≤ last.key := by
        by_contra hlt
        exact hb fun l hl => (hmove l hl).trans (not_le.mp hlt)
      have hnot : e.id ∉ (retentionKeys T.rows r after n).map Event.id :=
        fun hmem => hb (hpage.mp hmem).2.1
      simp [hh, hb, hle, hnot]
  · have hnot : e.id ∉ (retentionKeys T.rows r after n).map Event.id :=
      fun hmem => hh (hpage.mp hmem).1
    simp [hh, hnot]

theorem sliceLength_pos {keys : List Event} (h : keys ≠ []) : 0 < sliceLength keys := by
  cases keys with
  | nil => exact absurd rfl h
  | cons e keys => exact Nat.succ_pos _

theorem Pass.check_cases {p p' : Pass} (h : p.check = some p') :
    p'.db = p.db ∧ (p.checks = none → p'.checks = none) := by
  unfold Pass.check at h
  split at h
  · cases h
    exact ⟨rfl, id⟩
  · cases h
  · next n hn =>
    cases h
    exact ⟨rfl, fun hnone => by rw [hn] at hnone; cases hnone⟩

theorem walkFrom_spec {T : Table Event.id} (fuel : ℕ) (p : Pass) (after : Option (ℤ ×ₗ ℕ))
    (hT : p.db.events = walked apply r T after)
    (hfuel : ((T.rows.filter r.holds).filter (Keyset.Beyond Event.key after)).length < fuel) :
    (∃ mark, (walkFrom env apply r fuel p after).1.db =
        { p.db with events := walked apply r T mark } ∧
      ((walkFrom env apply r fuel p after).2 = true →
        ∀ e ∈ T.rows, r.holds e = true → ¬ Keyset.Beyond Event.key mark e)) ∧
    (p.checks = none → (walkFrom env apply r fuel p after).2 = true ∧
      (walkFrom env apply r fuel p after).1.checks = none) := by
  induction fuel generalizing p after with
  | zero => omega
  | succ fuel ih =>
    rw [walkFrom]
    cases hcheck : p.check with
    | none =>
      refine ⟨⟨after, by rw [← hT], fun h => by cases h⟩, fun hnone => ?_⟩
      rw [Pass.check, hnone] at hcheck
      cases hcheck
    | some p' =>
      obtain ⟨hdb, hchecks⟩ := Pass.check_cases hcheck
      dsimp only
      rw [hdb, hT, retentionKeys_walked, take_retentionKeys]
      split
      · next hnil =>
        have hempty := List.getLast?_eq_none_iff.mp hnil
        have hkeys : retentionKeys T.rows r after env.sliceRows = [] := by
          by_contra hne
          have hpos := sliceLength_pos hne
          rw [← take_retentionKeys, List.take_eq_nil_iff] at hempty
          rcases hempty with hzero | hnil'
          · omega
          · exact hne hnil'
        have hall := Keyset.upto_of_fetch_nil env.sliceRows.pos hkeys
        refine ⟨⟨after, by rw [hdb, ← hT], fun _ e he hh => ?_⟩, fun hnone => ⟨rfl, hchecks hnone⟩⟩
        have hmem : e ∈ Keyset.upto Event.key (T.rows.filter r.holds) after := by
          rw [hall]
          exact List.mem_filter.mpr ⟨he, hh⟩
        simpa using (List.mem_filter.mp hmem).2
      · next last hlast =>
        have hslice := @walked_slice apply r T after _ last hlast
        rw [rewrite_slice, hslice]
        have hlastT := Keyset.fetch_mem (List.mem_of_getLast? hlast)
        have hless := Keyset.beyond_length_lt hlastT (Keyset.fetch_last hlast).1
        obtain ⟨⟨mark, hmark, hdone⟩, hchecks'⟩ := ih
          { p' with
            db := { p.db with events := walked apply r T (some last.key) }
            acc := p'.acc.add _ apply } (some last.key) rfl (by omega)
        exact ⟨⟨mark, hmark, hdone⟩, fun hnone => hchecks' (hchecks hnone)⟩

/-- A walk rewrites rows of its range only, and all of them unless it was stopped. -/
theorem walkRange_spec (p : Pass) :
    (∃ q : Event → Bool, (walkRange env apply r p).1.db =
        { p.db with events := rewriteWhere apply p.db.events q } ∧
      (∀ e, q e = true → r.holds e = true) ∧
      ((walkRange env apply r p).2 = true →
        ∀ e ∈ p.db.events.rows, r.holds e = true → q e = true)) ∧
    (p.checks = none → (walkRange env apply r p).2 = true ∧
      (walkRange env apply r p).1.checks = none) := by
  unfold walkRange
  split
  · next hempty =>
    have hnone : ∀ e, r.holds e = false := by
      intro e
      unfold Range.holds
      cases e.ts with
      | none => simp
      | some t =>
        have : ¬ (r.fromTs ≤ t ∧ t < r.toTs) := by omega
        simp [this]
    have hsame : rewriteWhere apply p.db.events (fun _ => false) = p.db.events :=
      Table.updateWhere_eq_self fun e _ h => by cases h
    refine ⟨⟨fun _ => false, by rw [hsame], fun e h => (by cases h), fun _ e _ h => ?_⟩,
      fun h => ⟨rfl, h⟩⟩
    rw [hnone] at h
    cases h
  · have hstart : walked apply r p.db.events none = p.db.events := by
      unfold walked rewriteWhere
      rw [Table.updateWhere_eq_self]
      intro e _ h
      simp [Keyset.Beyond] at h
    have hfuel : ((p.db.events.rows.filter r.holds).filter
        (Keyset.Beyond Event.key none)).length < p.db.events.rows.length + 1 :=
      Nat.lt_succ_of_le ((List.length_filter_le _ _).trans (List.length_filter_le _ _))
    obtain ⟨⟨mark, hdb, hall⟩, hchecks⟩ := @walkFrom_spec env apply r _ _ p none hstart.symm hfuel
    refine ⟨⟨fun e => r.holds e && decide (¬ Keyset.Beyond Event.key mark e), hdb, ?_, ?_⟩,
      hchecks⟩
    · exact fun e he => (Bool.and_eq_true_iff.mp he).1
    · exact fun hdone e he hh => by simp [hh, hall hdone e he hh]

end Walk

/-! The form of a row. -/

section Form
variable (env : Env)

def older (cut : ℤ) (e : Event) : Bool := e.ts.any fun t => t < cut

def Event.line (e : Event) : Option String := rawLine env.zlib e.toStored

/-- Compressed exactly when the store compresses and the line is long enough. -/
def Compressed (e : Event) : Prop :=
  ∀ l, e.line env = some l →
    e.isCompressed = (env.compress && decide (compressMinBytes ≤ l.utf8ByteSize))

/-- Nothing is left to strip. -/
def Stripped (e : Event) : Prop :=
  ∀ l, e.line env = some l → stripLine env.rt env.slice l 0 = none

/-- What a pass may do to a row: only what is older than its cuts is rewritten, and the line itself
changes only to its stub. -/
structure Kept (now sCut cCut : ℤ) (e e' : Event) : Prop where
  same : e' = e.store e'.toStored
  line : ∀ l, e.line env = some l → e'.line env = some l ∨
    older sCut e = true ∧ ∃ out, stripLine env.rt env.slice l now = some out ∧
      e'.line env = some out
  young : older cCut e = false → e' = e

variable {env} {now sCut cCut : ℤ}

theorem Kept.refl (e : Event) : Kept env now sCut cCut e e where
  same := rfl
  line := fun _ h => .inl h
  young := fun _ => rfl

theorem Kept.older_eq {e e' : Event} (h : Kept env now sCut cCut e e') (cut : ℤ) :
    older cut e' = older cut e := by
  rw [h.same]
  rfl

theorem Kept.trans (hjson : WritesObjects env.rt "fleetStripped") {e₁ e₂ e₃ : Event}
    (h₁ : Kept env now sCut cCut e₁ e₂) (h₂ : Kept env now sCut cCut e₂ e₃) :
    Kept env now sCut cCut e₁ e₃ where
  same := by
    have := h₂.same
    rw [h₁.same] at this
    exact this
  line := by
    intro l hl
    rcases h₁.line l hl with h | ⟨hold, out, hout, h⟩
    · rcases h₂.line l h with h' | ⟨hold', out, hout, h'⟩
      · exact .inl h'
      · exact .inr ⟨by rwa [h₁.older_eq] at hold', out, hout, h'⟩
    · rcases h₂.line out h with h' | ⟨-, out', hout', -⟩
      · exact .inr ⟨hold, out, hout, h'⟩
      · rw [stripLine_idem hjson hout now] at hout'
        cases hout'
  young := fun hy => by
    have hy' : older cCut e₂ = false := by rw [h₁.older_eq, hy]
    rw [h₂.young hy', h₁.young hy]

theorem stripped_of_line {e e' : Event} {l : String} (h : Stripped env e)
    (hl : e.line env = some l) (hl' : e'.line env = some l) : Stripped env e' := by
  intro m hm
  cases hl'.symm.trans hm
  exact h l hl

theorem Kept.stripped (hjson : WritesObjects env.rt "fleetStripped") {e e' : Event} {l : String}
    (h : Kept env now sCut cCut e e') (hl : e.line env = some l) (hs : Stripped env e) :
    Stripped env e' := by
  rcases h.line l hl with h' | ⟨-, out, hout, h'⟩
  · exact stripped_of_line hs hl h'
  · intro m hm
    cases h'.symm.trans hm
    exact stripLine_idem hjson hout 0

/-- The rewritten row of a readable one: stripped when older than the strip cut, then compressed
when that is due. -/
theorem transform_rewritten {e : Event} {l : String} (hl : e.line env = some l)
    (hold : older cCut e = true) :
    (rewritten (fun row => transform env row now sCut cCut) e).line env =
      some (if older sCut e then (stripLine env.rt env.slice l now).getD l else l) ∧
    Compressed env (rewritten (fun row => transform env row now sCut cCut) e) := by
  set out := if older sCut e then (stripLine env.rt env.slice l now).getD l else l with hout
  have hrow : transform env e now sCut cCut =
      if out = l ∧ (env.compress && decide (compressMinBytes ≤ out.utf8ByteSize)) =
        e.isCompressed then none
      else some (if env.compress && decide (compressMinBytes ≤ out.utf8ByteSize) then
        ⟨"", some (env.zlib.deflate out)⟩ else ⟨out, none⟩) := by
    have hc : (e.ts.any fun t => t < cCut) = true := hold
    unfold transform
    rw [show rawLine env.zlib e.toStored = some l from hl]
    dsimp only
    rw [hc, Bool.and_true]
    rfl
  unfold rewritten
  dsimp only
  rw [hrow]
  by_cases hsame : out = l ∧ (env.compress && decide (compressMinBytes ≤ out.utf8ByteSize)) =
      e.isCompressed
  · rw [if_pos hsame]
    refine ⟨by rw [hsame.1]; exact hl, ?_⟩
    intro m hm
    cases hl.symm.trans hm
    rw [← hsame.1]
    exact hsame.2.symm
  · rw [if_neg hsame]
    by_cases hwant : (env.compress && decide (compressMinBytes ≤ out.utf8ByteSize)) = true
    · rw [if_pos hwant]
      have hline := rawLine_deflate env.zlib out ""
      refine ⟨hline, fun m hm => ?_⟩
      cases hline.symm.trans hm
      rw [hwant]
      exact isCompressed_deflate env.zlib out ""
    · rw [if_neg hwant]
      have hline : rawLine env.zlib ⟨out, none⟩ = some out := rawLine_raw env.zlib out
      refine ⟨hline, fun m hm => ?_⟩
      have hmout : m = out := Option.some.inj (hm.symm.trans hline)
      rw [Bool.not_eq_true] at hwant
      rw [hmout, hwant]
      rfl

theorem kept_rewritten {e : Event} {l : String} (hl : e.line env = some l)
    (hold : older cCut e = true) :
    Kept env now sCut cCut e (rewritten (fun row => transform env row now sCut cCut) e) where
  same := rewritten_store _ e
  line := by
    intro m hm
    cases hl.symm.trans hm
    rw [(transform_rewritten hl hold).1]
    cases hs : older sCut e with
    | false => exact .inl rfl
    | true =>
      cases hstrip : stripLine env.rt env.slice l now with
      | none => exact .inl rfl
      | some out => exact .inr ⟨rfl, out, rfl, rfl⟩
  young := fun h => by rw [hold] at h; cases h

theorem stripped_rewritten (hjson : WritesObjects env.rt "fleetStripped") {e : Event} {l : String}
    (hl : e.line env = some l) (hold : older cCut e = true) (hstrip : older sCut e = true) :
    Stripped env (rewritten (fun row => transform env row now sCut cCut) e) := by
  intro m hm
  rw [(transform_rewritten hl hold).1, if_pos hstrip] at hm
  cases hs : stripLine env.rt env.slice l now with
  | none =>
    rw [hs] at hm
    cases hm
    exact stripLine_none hs 0
  | some out =>
    rw [hs] at hm
    cases hm
    exact stripLine_idem hjson hs 0

end Form

/-! The invariant of the store. -/

section Invariant
variable (env : Env)

/-- Rows below a session's watermarks are in their final form, the late ones apart: those inserted
below the watermark of their session. A row without a tool use id counts only while its session
was not resumed. -/
structure Sound (db : Db) : Prop where
  readable : ∀ e ∈ db.events.rows, ∃ l, e.line env = some l
  session : ∀ e ∈ db.events.rows, ∃ t s last, e.ts = some t ∧
    db.sessions.get e.sessionId = some s ∧ s.lastActiveAt = some last ∧ t ≤ last
  active : ∀ id s, db.sessions.get id = some s → s.lastActiveAt.isSome
  order : ∀ id, db.strippedBefore id ≤ db.compressedBefore id
  unresumed : ∀ id, id ∉ db.resumed → db.strippedBefore id = db.compressedBefore id
  compressed : ∀ e ∈ db.events.rows, ∀ t, e.ts = some t → e.watermark ≤ t →
    t < db.compressedBefore e.sessionId → Compressed env e
  stripped : ∀ e ∈ db.events.rows, ∀ t, e.ts = some t → e.watermark ≤ t →
    t < db.strippedBefore e.sessionId → e.toolUseId.isSome ∨ e.sessionId ∉ db.resumed →
    Stripped env e

variable {env}

theorem Sound.start : Sound env {} where
  readable := by simp [Table.empty]
  session := by simp [Table.empty]
  active := by simp [Table.empty, Table.get]
  order := fun _ => le_rfl
  unresumed := fun _ _ => rfl
  compressed := by simp [Table.empty]
  stripped := by simp [Table.empty]

theorem Sound.resume {db : Db} (hs : Sound env db) (sessionId : String) :
    Sound env { db with resumed := sessionId :: db.resumed } where
  readable := hs.readable
  session := hs.session
  active := hs.active
  order := hs.order
  unresumed := fun id h => hs.unresumed id fun hmem => h (List.mem_cons_of_mem _ hmem)
  compressed := hs.compressed
  stripped := fun e he t ht hw hlt h => hs.stripped e he t ht hw hlt
    (h.imp_right fun hnot hmem => hnot (List.mem_cons_of_mem _ hmem))

theorem get_touchSession (db : Db) (workspaceId sessionId id : String) (ts : Option ℤ) :
    ∃ s, (touchSession db workspaceId sessionId ts).sessions.get id =
        (if id = sessionId then some s else db.sessions.get id) ∧
      s.lastActiveAt = (touchOne ((db.sessions.get sessionId).map fun r =>
        ⟨r.startedAt, r.lastActiveAt⟩) ts).lastActiveAt := by
  unfold touchSession
  dsimp only
  rw [Table.get_upsert]
  by_cases hid : id = sessionId
  · rw [if_pos hid, hid]
    cases db.sessions.get sessionId with
    | none => exact ⟨_, by rw [if_pos rfl], rfl⟩
    | some s => exact ⟨_, by rw [if_pos rfl], rfl⟩
  · rw [if_neg hid]
    exact ⟨⟨"", "", none, _⟩, by rw [if_neg hid], rfl⟩

/-- A line with a timestamp never lowers the last activity. -/
theorem Sound.touch {db : Db} (hs : Sound env db) (workspaceId sessionId : String) (t : ℤ) :
    Sound env (touchSession db workspaceId sessionId (some t)) ∧
    ∃ s last, (touchSession db workspaceId sessionId (some t)).sessions.get sessionId = some s ∧
      s.lastActiveAt = some last ∧ t ≤ last := by
  have hnew : ∃ last, (touchOne ((db.sessions.get sessionId).map fun r =>
      (⟨r.startedAt, r.lastActiveAt⟩ : SessionTouch)) (some t)).lastActiveAt = some last ∧ t ≤ last ∧
      ∀ s old, db.sessions.get sessionId = some s → s.lastActiveAt = some old → old ≤ last := by
    cases hget : db.sessions.get sessionId with
    | none => exact ⟨t, rfl, le_rfl, fun s _ h => by cases h⟩
    | some s =>
      refine ⟨_, rfl, le_max_right _ _, ?_⟩
      intro s' old hs' hold
      cases hs'
      simp [hold]
  obtain ⟨last, hlast, htl, hmono⟩ := hnew
  refine ⟨⟨hs.readable, ?_, ?_, hs.order, hs.unresumed, hs.compressed, hs.stripped⟩, ?_⟩
  · intro e he
    obtain ⟨u, s, old, hu, hget, hact, hle⟩ := hs.session e he
    obtain ⟨s', hget', hact'⟩ := get_touchSession db workspaceId sessionId e.sessionId (some t)
    by_cases hid : e.sessionId = sessionId
    · rw [if_pos hid] at hget'
      exact ⟨u, s', last, hu, hget', hact'.trans hlast, hle.trans (hmono s old (hid ▸ hget) hact)⟩
    · rw [if_neg hid] at hget'
      exact ⟨u, s, old, hu, hget'.trans hget, hact, hle⟩
  · intro id s hget
    obtain ⟨s', hget', hact'⟩ := get_touchSession db workspaceId sessionId id (some t)
    rw [hget'] at hget
    split at hget
    · cases hget
      rw [hact', hlast]
      rfl
    · exact hs.active id s hget
  · obtain ⟨s', hget', hact'⟩ := get_touchSession db workspaceId sessionId sessionId (some t)
    rw [if_pos rfl] at hget'
    exact ⟨s', last, hget', hact'.trans hlast, htl⟩

theorem Sound.insertEvent {db : Db} (hs : Sound env db) {sessionId : String} {p : ParsedLine}
    {t : ℤ} (ht : p.ts = some t) (rawLine : String)
    (hsession : ∃ s last, db.sessions.get sessionId = some s ∧ s.lastActiveAt = some last ∧
      t ≤ last) : Sound env (insertEvent db sessionId rawLine p) := by
  unfold Retention.insertEvent
  split
  · exact ⟨hs.readable, hs.session, hs.active, hs.order, hs.unresumed, hs.compressed, hs.stripped⟩
  · refine ⟨?_, ?_, hs.active, hs.order, hs.unresumed, ?_, ?_⟩
    · intro e he
      rcases Table.mem_insertIgnore.mp he with he | ⟨rfl, -⟩
      · exact hs.readable e he
      · exact ⟨rawLine, rfl⟩
    · intro e he
      rcases Table.mem_insertIgnore.mp he with he | ⟨rfl, -⟩
      · exact hs.session e he
      · obtain ⟨s, last, hget, hact, hle⟩ := hsession
        exact ⟨t, s, last, ht, hget, hact, hle⟩
    · intro e he u hu hw hlt
      rcases Table.mem_insertIgnore.mp he with he | ⟨rfl, -⟩
      · exact hs.compressed e he u hu hw hlt
      · exact absurd hlt (not_lt.mpr hw)
    · intro e he u hu hw hlt hor
      rcases Table.mem_insertIgnore.mp he with he | ⟨rfl, -⟩
      · exact hs.stripped e he u hu hw hlt hor
      · exact absurd (hlt.trans_le (hs.order sessionId)) (not_lt.mpr hw)

theorem Sound.ingest {db : Db} (hs : Sound env db) (workspaceId sessionId rawLine : String)
    (hts : ∀ p, parseIngestLine env.rt rawLine = .ok (some p) → p.ts ≠ none) :
    Sound env (ingestLine env db workspaceId sessionId rawLine) := by
  unfold ingestLine
  split
  · exact hs
  · exact hs
  · next p hp =>
    obtain ⟨t, ht⟩ := Option.ne_none_iff_exists'.mp (hts p hp)
    obtain ⟨htouch, hsession⟩ := hs.touch workspaceId sessionId t
    rw [ht]
    exact htouch.insertEvent ht rawLine hsession

end Invariant
end ClaudeFleet.Retention
