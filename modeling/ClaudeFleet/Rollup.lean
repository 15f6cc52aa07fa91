import ClaudeFleet.Table
import Mathlib.Data.List.Dedup

/-! Incrementally maintained `GROUP BY` tables. A `View` says which rows contribute to
which group and how a group is aggregated; a table tracks the view of some rows when it
holds exactly the aggregated groups. -/
namespace ClaudeFleet

namespace Table

variable {ρ κ : Type*} {key : ρ → κ} [DecidableEq κ]

/-- Tables are the same set of rows exactly when every key has the same row. -/
theorem perm_iff_get {T U : Table key} : T.rows.Perm U.rows ↔ ∀ k, T.get k = U.get k := by
  rw [List.perm_ext_iff_of_nodup T.nodup.of_map U.nodup.of_map]
  constructor
  · intro h k
    apply Option.ext
    intro r
    simp only [get_eq_some, h r]
  · intro h r
    have hT := get_eq_some (T := T) (k := key r) (r := r)
    have hU := get_eq_some (T := U) (k := key r) (r := r)
    rw [h] at hT
    simpa using hT.symm.trans hU

end Table

structure View (ρ κ γ : Type*) where
  key : ρ → Option κ
  agg : κ → List ρ → γ
  rowKey : γ → κ
  rowKey_agg : ∀ k l, rowKey (agg k l) = k

namespace View

variable {ρ κ γ : Type*} [DecidableEq κ] (V : View ρ κ γ)

def group (rows : List ρ) (k : κ) : List ρ := rows.filter fun r => V.key r = some k

/-- `SELECT agg FROM rows GROUP BY key`, leaving out the rows without a key. -/
def groupBy (rows : List ρ) : Table V.rowKey where
  rows := (rows.filterMap V.key).dedup.map fun k => V.agg k (V.group rows k)
  nodup := by
    have h : V.rowKey ∘ (fun k => V.agg k (V.group rows k)) = id := by
      funext k
      simp [V.rowKey_agg]
    rw [List.map_map, h, List.map_id]
    exact List.nodup_dedup _

/-- The table holds exactly the groups of the rows. -/
def Tracks (T : Table V.rowKey) (rows : List ρ) : Prop := T.rows.Perm (V.groupBy rows).rows

/-- The row of group `k`, if any row contributes to it. -/
def groupRow (rows : List ρ) (k : κ) : Option γ :=
  if V.group rows k = [] then none else some (V.agg k (V.group rows k))

theorem mem_group {rows : List ρ} {k : κ} {r : ρ} :
    r ∈ V.group rows k ↔ r ∈ rows ∧ V.key r = some k := by
  simp [group]

theorem group_eq_nil {rows : List ρ} {k : κ} :
    V.group rows k = [] ↔ ∀ r ∈ rows, V.key r ≠ some k := by
  simp [group, List.filter_eq_nil_iff]

theorem get_groupBy (rows : List ρ) (k : κ) : (V.groupBy rows).get k = V.groupRow rows k := by
  unfold groupRow
  split_ifs with h
  · apply Table.get_eq_none.mpr
    intro c hc
    simp only [groupBy, List.mem_map, List.mem_dedup, List.mem_filterMap] at hc
    obtain ⟨k', ⟨r, hr, hk'⟩, rfl⟩ := hc
    rw [V.rowKey_agg]
    rintro rfl
    exact (V.group_eq_nil.mp h r hr) hk'
  · apply Table.get_eq_some.mpr
    refine ⟨?_, V.rowKey_agg _ _⟩
    simp only [groupBy, List.mem_map, List.mem_dedup, List.mem_filterMap]
    obtain ⟨r, hr⟩ := List.exists_mem_of_ne_nil _ h
    exact ⟨k, ⟨r, V.mem_group.mp hr⟩, rfl⟩

theorem tracks_iff {T : Table V.rowKey} {rows : List ρ} :
    V.Tracks T rows ↔ ∀ k, T.get k = V.groupRow rows k := by
  unfold Tracks
  rw [Table.perm_iff_get]
  simp only [get_groupBy]

variable {V}

/-- A row that contributes to no group. -/
theorem Tracks.skip {T : Table V.rowKey} {rows : List ρ} {r : ρ} (h : V.Tracks T rows)
    (hr : V.key r = none) : V.Tracks T (rows ++ [r]) := by
  rw [tracks_iff] at h ⊢
  intro k
  simp [h k, groupRow, group, List.filter_append, hr]

/-- The upsert that maintains the view when a row is appended: `new` is the group of the
row alone, and `f` adds the row to a group. -/
theorem Tracks.append {T : Table V.rowKey} {rows : List ρ} {r : ρ} {k : κ} {f : γ → γ}
    (h : V.Tracks T rows) (hf : ∀ c, V.rowKey (f c) = V.rowKey c) (hr : V.key r = some k)
    (hadd : ∀ l, l ≠ [] → V.agg k (l ++ [r]) = f (V.agg k l)) :
    V.Tracks (T.upsert (V.agg k [r]) f hf) (rows ++ [r]) := by
  rw [tracks_iff] at h ⊢
  intro j
  rw [Table.get_upsert, h j, V.rowKey_agg]
  by_cases hj : j = k
  · subst hj
    have hg : V.group (rows ++ [r]) j = V.group rows j ++ [r] := by
      simp [group, List.filter_append, hr]
    by_cases hn : V.group rows j = []
    · simp [groupRow, hg, hn]
    · simp [groupRow, hg, hn, hadd _ hn]
  · have hg : V.group (rows ++ [r]) j = V.group rows j := by
      simp [group, List.filter_append, hr, Ne.symm hj]
    simp [groupRow, hg, hj]

/-- Deleting table rows by `q` and rows by `p` keeps the table on track exactly when each
group either goes as a whole from both, or stays with the same aggregate. -/
theorem Tracks.delete_iff {T : Table V.rowKey} {rows : List ρ} (h : V.Tracks T rows)
    (q : γ → Bool) (p : ρ → Bool) :
    V.Tracks (T.deleteWhere q) (rows.filter fun r => !p r) ↔
      ∀ k, V.group rows k ≠ [] →
        (q (V.agg k (V.group rows k)) = true ∧ ∀ r ∈ V.group rows k, p r = true) ∨
        (q (V.agg k (V.group rows k)) = false ∧ (∃ r ∈ V.group rows k, p r = false) ∧
          V.agg k ((V.group rows k).filter fun r => !p r) = V.agg k (V.group rows k)) := by
  rw [tracks_iff] at h ⊢
  apply forall_congr'
  intro k
  have hg : V.group (rows.filter fun r => !p r) k = (V.group rows k).filter fun r => !p r := by
    simp only [group, List.filter_filter, Bool.and_comm]
  have hall : ((V.group rows k).filter fun r => !p r) = [] ↔ ∀ r ∈ V.group rows k, p r = true := by
    simp [List.filter_eq_nil_iff]
  have hex : (∃ r ∈ V.group rows k, p r = false) ↔ ¬ ∀ r ∈ V.group rows k, p r = true := by
    simp
  rw [Table.get_deleteWhere, h k]
  unfold groupRow
  rw [hg, hex]
  by_cases hn : V.group rows k = []
  · simp [hn]
  rw [if_neg hn, imp_iff_right hn]
  by_cases ha : ∀ r ∈ V.group rows k, p r = true
  · rw [if_pos (hall.mpr ha)]
    cases hq : q (V.agg k (V.group rows k))
    · exact iff_of_false (by simp [Option.filter, hq]) fun hc => hc.elim (fun h => nomatch h.1)
        fun h => h.2.1 ha
    · exact iff_of_true (by simp [Option.filter, hq]) (.inl ⟨rfl, ha⟩)
  · rw [if_neg fun e => ha (hall.mp e)]
    cases hq : q (V.agg k (V.group rows k))
    · simp only [Option.filter, hq, Bool.not_false, if_true, Option.some.injEq, reduceCtorEq,
        false_and, false_or, true_and, ha, not_false_eq_true]
      exact eq_comm
    · exact iff_of_false (by simp [Option.filter, hq]) fun hc => hc.elim (fun h => ha h.2)
        fun h => nomatch h.1

/-- Deleting whole groups from both. -/
theorem Tracks.delete {T : Table V.rowKey} {rows : List ρ} (h : V.Tracks T rows)
    {q : γ → Bool} {p : ρ → Bool}
    (hqp : ∀ k r l, r ∈ rows → V.key r = some k → q (V.agg k l) = p r) :
    V.Tracks (T.deleteWhere q) (rows.filter fun r => !p r) := by
  refine (h.delete_iff q p).mpr fun k hk => ?_
  have hp : ∀ r ∈ V.group rows k, p r = q (V.agg k (V.group rows k)) := by
    intro r hr
    obtain ⟨hm, hrk⟩ := V.mem_group.mp hr
    exact (hqp k r _ hm hrk).symm
  cases hq : q (V.agg k (V.group rows k))
  · refine .inr ⟨rfl, ?_, ?_⟩
    · obtain ⟨r, hr⟩ := List.exists_mem_of_ne_nil _ hk
      exact ⟨r, hr, (hp r hr).trans hq⟩
    · rw [List.filter_eq_self.mpr]
      intro r hr
      simp [hp r hr, hq]
  · exact .inl ⟨rfl, fun r hr => (hp r hr).trans hq⟩

/-- Rewriting columns the view does not read. -/
theorem Tracks.map {T : Table V.rowKey} {rows : List ρ} {f : ρ → ρ} (h : V.Tracks T rows)
    (hkey : ∀ r, V.key (f r) = V.key r) (hagg : ∀ k l, V.agg k (l.map f) = V.agg k l) :
    V.Tracks T (rows.map f) := by
  rw [tracks_iff] at h ⊢
  intro k
  have hg : V.group (rows.map f) k = (V.group rows k).map f := by
    simp [group, List.filter_map, Function.comp_def, hkey]
  simp [h k, groupRow, hg, hagg]

end View

end ClaudeFleet
