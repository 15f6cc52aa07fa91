import Mathlib.Tactic
import Mathlib.Data.List.Nodup

/-! SQL tables with a unique key. A table is the list of its rows in insertion order, with
the uniqueness of the key as a field, so every operation keeps the constraint. -/
namespace ClaudeFleet

structure Table {ρ κ : Type*} (key : ρ → κ) where
  rows : List ρ
  nodup : (rows.map key).Nodup

namespace Table

variable {ρ κ : Type*} {key : ρ → κ}

@[ext]
theorem ext {T U : Table key} (h : T.rows = U.rows) : T = U := by
  cases T
  cases U
  simpa using h

instance [DecidableEq ρ] : DecidableEq (Table key) := fun T U =>
  decidable_of_iff (T.rows = U.rows) ⟨ext, fun h => h ▸ rfl⟩

def empty : Table key := ⟨[], by simp⟩

/-- `DELETE … WHERE p`. -/
def deleteWhere (T : Table key) (p : ρ → Bool) : Table key :=
  ⟨T.rows.filter fun r => !p r, T.nodup.sublist (List.filter_sublist.map key)⟩

theorem map_update (f : ρ → ρ) (p : ρ → Bool) (hf : ∀ r, key (f r) = key r) (rows : List ρ) :
    (rows.map fun r => if p r then f r else r).map key = rows.map key := by
  rw [List.map_map]
  apply List.map_congr_left
  intro r _
  simp only [Function.comp_apply]
  split_ifs
  · exact hf r
  · rfl

/-- `UPDATE … SET f WHERE p`, for an update that leaves the key alone. -/
def updateWhere (T : Table key) (p : ρ → Bool) (f : ρ → ρ) (hf : ∀ r, key (f r) = key r) :
    Table key :=
  ⟨T.rows.map fun r => if p r then f r else r, by rw [map_update f p hf]; exact T.nodup⟩

theorem mem_deleteWhere {T : Table key} {p : ρ → Bool} {x : ρ} :
    x ∈ (T.deleteWhere p).rows ↔ x ∈ T.rows ∧ p x = false := by
  simp [deleteWhere]

theorem updateWhere_eq_self {T : Table key} {p : ρ → Bool} {f : ρ → ρ}
    {hf : ∀ r, key (f r) = key r} (h : ∀ r ∈ T.rows, p r = true → f r = r) :
    T.updateWhere p f hf = T := by
  apply Table.ext
  conv_rhs => rw [← List.map_id T.rows]
  apply List.map_congr_left
  intro r hr
  by_cases hp : p r = true
  · simp [hp, h r hr hp]
  · simp [hp]

theorem updateWhere_congr {T : Table key} {p : ρ → Bool} {f g : ρ → ρ}
    (hf : ∀ r, key (f r) = key r) (hg : ∀ r, key (g r) = key r)
    (h : ∀ r ∈ T.rows, p r = true → f r = g r) : T.updateWhere p f hf = T.updateWhere p g hg := by
  apply Table.ext
  apply List.map_congr_left
  intro r hr
  by_cases hp : p r = true
  · simp [hp, h r hr hp]
  · simp [hp]

/-- Two updates of the same rows are one. -/
theorem updateWhere_updateWhere {T : Table key} {p : ρ → Bool} {f g : ρ → ρ}
    (hf : ∀ r, key (f r) = key r) (hg : ∀ r, key (g r) = key r) (hp : ∀ r, p (f r) = p r) :
    (T.updateWhere p f hf).updateWhere p g hg =
      T.updateWhere p (fun r => g (f r)) fun r => (hg _).trans (hf r) := by
  apply Table.ext
  simp only [updateWhere, List.map_map]
  apply List.map_congr_left
  intro r _
  by_cases h : p r = true
  · simp [h, hp]
  · simp [h]

section DeleteLoop

/-- `DELETE … WHERE id IN (SELECT id … WHERE p LIMIT n)`. -/
def deleteLimit (T : Table key) (id : ρ → ℕ) (p : ρ → Bool) (n : ℕ) : Table key :=
  T.deleteWhere fun r => id r ∈ ((T.rows.filter p).take n).map id

/-- Repeat the statement until it deletes fewer than `n` rows. -/
def deleteLoop (id : ρ → ℕ) (p : ρ → Bool) (n : ℕ) : ℕ → Table key → Table key
  | 0, T => T
  | fuel + 1, T =>
    let T' := T.deleteLimit id p n
    if T.rows.length - T'.rows.length < n then T' else deleteLoop id p n fuel T'

variable {T : Table key} {id : ρ → ℕ} {p : ρ → Bool} {n : ℕ}

end DeleteLoop

variable [DecidableEq κ]

/-- `INSERT … ON CONFLICT DO NOTHING`. -/
def insertIgnore (T : Table key) (r : ρ) : Table key :=
  if h : key r ∈ T.rows.map key then T
  else ⟨T.rows ++ [r], by simpa [List.nodup_append, T.nodup] using h⟩

/-- `INSERT … ON CONFLICT (key) DO UPDATE SET f`. -/
def upsert (T : Table key) (r : ρ) (f : ρ → ρ) (hf : ∀ x, key (f x) = key x) : Table key :=
  if key r ∈ T.rows.map key then T.updateWhere (fun x => key x = key r) f hf
  else T.insertIgnore r

/-- The row with a given key. -/
def get (T : Table key) (k : κ) : Option ρ := T.rows.find? fun r => key r = k

theorem get_eq_some {T : Table key} {k : κ} {r : ρ} :
    T.get k = some r ↔ r ∈ T.rows ∧ key r = k := by
  constructor
  · intro h
    have hk := List.find?_some h
    exact ⟨List.mem_of_find?_eq_some h, by simpa using hk⟩
  · rintro ⟨hr, rfl⟩
    rcases h : T.get (key r) with _ | x
    · have := List.find?_eq_none.mp h r hr
      simp at this
    · have hx := List.find?_some h
      have hmem := List.mem_of_find?_eq_some h
      rw [List.inj_on_of_nodup_map T.nodup hmem hr (by simpa using hx)]

theorem get_eq_none {T : Table key} {k : κ} : T.get k = none ↔ ∀ r ∈ T.rows, key r ≠ k := by
  simp [get, List.find?_eq_none]

theorem mem_map_key {T : Table key} {k : κ} : k ∈ T.rows.map key ↔ ∃ r, T.get k = some r := by
  simp only [List.mem_map, get_eq_some]

theorem insertIgnore_of_mem {T : Table key} {r : ρ} (h : key r ∈ T.rows.map key) :
    T.insertIgnore r = T := by
  simp [insertIgnore, h]

theorem mem_insertIgnore {T : Table key} {r x : ρ} :
    x ∈ (T.insertIgnore r).rows ↔ x ∈ T.rows ∨ (x = r ∧ key r ∉ T.rows.map key) := by
  unfold insertIgnore
  split_ifs with h
  · simp only [h, not_true_eq_false, and_false, or_false]
  · simp only [List.mem_append, List.mem_singleton, h, not_false_eq_true, and_true]

theorem keys_subset_insertIgnore (T : Table key) (r : ρ) :
    T.rows.map key ⊆ (T.insertIgnore r).rows.map key := by
  intro k hk
  obtain ⟨x, hx, rfl⟩ := List.mem_map.mp hk
  exact List.mem_map_of_mem (mem_insertIgnore.mpr (.inl hx))

theorem key_mem_insertIgnore (T : Table key) (r : ρ) :
    key r ∈ (T.insertIgnore r).rows.map key := by
  by_cases h : key r ∈ T.rows.map key
  · rwa [insertIgnore_of_mem h]
  · exact List.mem_map_of_mem (mem_insertIgnore.mpr (.inr ⟨rfl, h⟩))

theorem get_updateWhere (T : Table key) (p : ρ → Bool) (f : ρ → ρ)
    (hf : ∀ r, key (f r) = key r) (k : κ) :
    (T.updateWhere p f hf).get k = (T.get k).map fun r => if p r then f r else r := by
  rcases h : T.get k with _ | r
  · rw [Option.map_none]
    apply get_eq_none.mpr
    intro x hx
    simp only [updateWhere, List.mem_map] at hx
    obtain ⟨r, hr, rfl⟩ := hx
    have := get_eq_none.mp h r hr
    split_ifs
    · rwa [hf]
    · exact this
  · obtain ⟨hr, rfl⟩ := get_eq_some.mp h
    apply get_eq_some.mpr
    refine ⟨List.mem_map.mpr ⟨r, hr, rfl⟩, ?_⟩
    dsimp only
    split_ifs
    · exact hf r
    · rfl

theorem isSome_get_updateWhere (T : Table key) (p : ρ → Bool) (f : ρ → ρ)
    (hf : ∀ r, key (f r) = key r) (k : κ) :
    ((T.updateWhere p f hf).get k).isSome = (T.get k).isSome := by
  rw [get_updateWhere, Option.isSome_map]

theorem get_insertIgnore (T : Table key) (r : ρ) (k : κ) :
    (T.insertIgnore r).get k = if k = key r ∧ T.get k = none then some r else T.get k := by
  unfold insertIgnore
  split_ifs with hmem hk hk
  · obtain ⟨x, hx⟩ := mem_map_key.mp hmem
    rw [hk.1, hx] at hk
    exact absurd hk.2 (by simp)
  · rfl
  · exact get_eq_some.mpr ⟨by simp, hk.1.symm⟩
  · rcases h : T.get k with _ | x
    · apply get_eq_none.mpr
      intro y hy
      rcases List.mem_append.mp hy with hy | hy
      · exact get_eq_none.mp h y hy
      · obtain rfl : y = r := by simpa using hy
        exact fun e => hk ⟨e.symm, h⟩
    · obtain ⟨hx, hkx⟩ := get_eq_some.mp h
      exact get_eq_some.mpr ⟨List.mem_append_left _ hx, hkx⟩

theorem isSome_get_insertIgnore (T : Table key) (r : ρ) (k : κ) :
    ((T.insertIgnore r).get k).isSome = ((T.get k).isSome || decide (k = key r)) := by
  rw [get_insertIgnore]
  split_ifs with h
  · simp [h.1]
  · cases hg : T.get k with
    | none => simpa [hg] using h
    | some x => simp

theorem get_upsert (T : Table key) (r : ρ) (f : ρ → ρ) (hf : ∀ x, key (f x) = key x) (k : κ) :
    (T.upsert r f hf).get k =
      if k = key r then some ((T.get k).elim r f) else T.get k := by
  unfold upsert
  split_ifs with hmem hk hk
  · subst hk
    obtain ⟨x, hx⟩ := mem_map_key.mp hmem
    have := (get_eq_some.mp hx).2
    simp [get_updateWhere, hx, this]
  · rw [get_updateWhere]
    rcases h : T.get k with _ | x
    · rfl
    · have := (get_eq_some.mp h).2
      simp [this, hk]
  · subst hk
    have hn : T.get (key r) = none := by
      rcases h : T.get (key r) with _ | x
      · rfl
      · exact absurd (mem_map_key.mpr ⟨x, h⟩) hmem
    simp [get_insertIgnore, hn]
  · simp [get_insertIgnore, hk]

theorem get_deleteWhere (T : Table key) (p : ρ → Bool) (k : κ) :
    (T.deleteWhere p).get k = (T.get k).filter fun r => !p r := by
  rcases h : T.get k with _ | r
  · apply get_eq_none.mpr
    intro x hx
    exact get_eq_none.mp h x (mem_deleteWhere.mp hx).1
  · obtain ⟨hr, rfl⟩ := get_eq_some.mp h
    rcases hp : p r with _ | _
    · have : r ∈ (T.deleteWhere p).rows := mem_deleteWhere.mpr ⟨hr, hp⟩
      simpa [Option.filter, hp] using get_eq_some.mpr ⟨this, rfl⟩
    · simp only [Option.filter, hp, Bool.not_true, Bool.false_eq_true, if_false]
      apply get_eq_none.mpr
      intro x hx hkx
      obtain ⟨hxm, hpx⟩ := mem_deleteWhere.mp hx
      rw [List.inj_on_of_nodup_map T.nodup hxm hr hkx, hp] at hpx
      cases hpx

end Table

end ClaudeFleet
