import ClaudeFleet.Table

/-! Maps that list their entries in the order the keys were first set, as the language has them: a
key set again keeps its place, and the first entry is the one to drop when there are too many. -/
namespace ClaudeFleet

/-- The entries of a map, oldest first. -/
abbrev JsMap (K V : Type*) := Table fun e : K × V => e.1

namespace JsMap

variable {K V : Type*}

def empty : JsMap K V := Table.empty

def size (m : JsMap K V) : ℕ := m.rows.length

/-- The map without its first entry. -/
def dropFirst (m : JsMap K V) : JsMap K V :=
  ⟨m.rows.tail, m.nodup.sublist ((List.tail_sublist _).map _)⟩

theorem size_dropFirst (m : JsMap K V) : m.dropFirst.size = m.size - 1 := List.length_tail

variable [DecidableEq K]

def get? (m : JsMap K V) (k : K) : Option V := (m.get k).map Prod.snd

def delete (m : JsMap K V) (k : K) : JsMap K V := m.deleteWhere fun e => e.1 = k

def set (m : JsMap K V) (k : K) (v : V) : JsMap K V :=
  m.upsert (k, v) (fun e => (e.1, v)) fun _ => rfl

variable {m : JsMap K V} {k k' : K} {v : V}

theorem get?_eq_some : m.get? k = some v ↔ (k, v) ∈ m.rows := by
  unfold get?
  rw [Option.map_eq_some_iff]
  constructor
  · rintro ⟨⟨k', v'⟩, he, rfl⟩
    obtain ⟨hmem, rfl⟩ := Table.get_eq_some.mp he
    exact hmem
  · exact fun hmem => ⟨(k, v), Table.get_eq_some.mpr ⟨hmem, rfl⟩, rfl⟩

@[simp] theorem get?_empty (k : K) : (empty : JsMap K V).get? k = none := rfl

theorem get?_set (m : JsMap K V) (k k' : K) (v : V) :
    (m.set k v).get? k' = if k' = k then some v else m.get? k' := by
  unfold get? set
  rw [Table.get_upsert]
  split_ifs
  · cases m.get k' <;> rfl
  · rfl

@[simp] theorem get?_set_self (m : JsMap K V) (k : K) (v : V) : (m.set k v).get? k = some v := by
  rw [get?_set, if_pos rfl]

theorem get?_set_of_ne (m : JsMap K V) (v : V) (h : k' ≠ k) : (m.set k v).get? k' = m.get? k' := by
  rw [get?_set, if_neg h]

theorem get?_delete (m : JsMap K V) (k k' : K) :
    (m.delete k).get? k' = if k' = k then none else m.get? k' := by
  unfold get? delete
  rw [Table.get_deleteWhere]
  cases h : m.get k' with
  | none => simp
  | some e =>
    obtain ⟨-, rfl⟩ := Table.get_eq_some.mp h
    by_cases hk : e.1 = k <;> simp [Option.filter, hk]

@[simp] theorem get?_delete_self (m : JsMap K V) (k : K) : (m.delete k).get? k = none := by
  rw [get?_delete, if_pos rfl]

theorem get?_delete_of_ne (m : JsMap K V) (h : k' ≠ k) : (m.delete k).get? k' = m.get? k' := by
  rw [get?_delete, if_neg h]

theorem get?_of_delete (h : (m.delete k).get? k' = some v) : m.get? k' = some v := by
  rw [get?_delete] at h
  split_ifs at h
  exact h

theorem delete_none (h : m.get? k' = none) (k : K) : (m.delete k).get? k' = none := by
  rw [get?_delete]
  split_ifs
  · rfl
  · exact h

theorem get?_of_dropFirst (h : m.dropFirst.get? k = some v) : m.get? k = some v :=
  get?_eq_some.mpr (List.mem_of_mem_tail (get?_eq_some.mp h))

theorem dropFirst_none (h : m.get? k = none) : m.dropFirst.get? k = none := by
  cases hd : m.dropFirst.get? k with
  | none => rfl
  | some v => exact absurd (get?_of_dropFirst hd) (by simp [h])

theorem size_set (m : JsMap K V) (k : K) (v : V) :
    (m.set k v).size = if (m.get? k).isNone then m.size + 1 else m.size := by
  have hkey : k ∈ m.rows.map (fun e => e.1) ↔ (m.get? k).isNone = false := by
    rw [Table.mem_map_key]
    unfold get?
    cases m.get k <;> simp
  unfold set Table.upsert size
  by_cases hmem : k ∈ m.rows.map fun e => e.1
  · rw [if_pos hmem, hkey.mp hmem]
    simp [Table.updateWhere]
  · rw [if_neg hmem, if_pos (by simpa using mt hkey.mpr hmem)]
    unfold Table.insertIgnore
    rw [dif_neg hmem]
    simp

/-! Maps made of entries, of some of the keys, and of changed values. -/

def has (m : JsMap K V) (k : K) : Bool := (m.get? k).isSome

/-- The map of a list of entries, in which a later one takes the place of an earlier one. -/
def ofEntries (es : List (K × V)) : JsMap K V := es.foldl (fun m e => m.set e.1 e.2) .empty

def keepKeys (m : JsMap K V) (p : K → Bool) : JsMap K V := m.deleteWhere fun e => !p e.1

def mapValues (m : JsMap K V) (f : K → V → V) : JsMap K V :=
  m.updateWhere (fun _ => true) (fun e => (e.1, f e.1 e.2)) fun _ => rfl

theorem has_iff : m.has k = true ↔ ∃ v, m.get? k = some v := Option.isSome_iff_exists

@[simp] theorem has_empty (k : K) : (empty : JsMap K V).has k = false := rfl

theorem has_set (m : JsMap K V) (k k' : K) (v : V) :
    (m.set k v).has k' = (decide (k' = k) || m.has k') := by
  unfold has
  rw [get?_set]
  split_ifs with h <;> simp [h]

theorem has_delete (m : JsMap K V) (k k' : K) :
    (m.delete k).has k' = (decide (k' ≠ k) && m.has k') := by
  unfold has
  rw [get?_delete]
  split_ifs with h <;> simp [h]

theorem has_ofEntries {es : List (K × V)} : (ofEntries es).has k = true ↔ k ∈ es.map Prod.fst := by
  suffices h : ∀ (es : List (K × V)) (m : JsMap K V),
      (es.foldl (fun m e => m.set e.1 e.2) m).has k = true ↔
        m.has k = true ∨ k ∈ es.map Prod.fst by
    simpa [ofEntries] using h es empty
  intro es
  induction es with
  | nil => simp
  | cons e es ih =>
    intro m
    rw [List.foldl_cons, ih, has_set, List.map_cons, List.mem_cons, Bool.or_eq_true,
      decide_eq_true_eq]
    tauto

theorem get?_keepKeys (m : JsMap K V) (p : K → Bool) (k : K) :
    (m.keepKeys p).get? k = if p k then m.get? k else none := by
  unfold get? keepKeys
  rw [Table.get_deleteWhere]
  cases h : m.get k with
  | none => simp
  | some e =>
    obtain ⟨-, rfl⟩ := Table.get_eq_some.mp h
    cases hp : p e.1 <;> simp [Option.filter, hp]

theorem has_keepKeys (m : JsMap K V) (p : K → Bool) (k : K) :
    (m.keepKeys p).has k = (p k && m.has k) := by
  unfold has
  rw [get?_keepKeys]
  split_ifs with h <;> simp [h]

theorem keepKeys_eq_self {p : K → Bool} (h : ∀ e ∈ m.rows, p e.1 = true) : m.keepKeys p = m := by
  apply Table.ext
  exact List.filter_eq_self.mpr fun e he => by simp [h e he]

theorem get?_mapValues (m : JsMap K V) (f : K → V → V) (k : K) :
    (m.mapValues f).get? k = (m.get? k).map (f k) := by
  unfold get? mapValues
  rw [Table.get_updateWhere]
  cases h : m.get k with
  | none => rfl
  | some e =>
    obtain ⟨-, rfl⟩ := Table.get_eq_some.mp h
    rfl

theorem has_mapValues (m : JsMap K V) (f : K → V → V) (k : K) :
    (m.mapValues f).has k = m.has k := by
  unfold has
  rw [get?_mapValues, Option.isSome_map]

theorem mapValues_eq_self {f : K → V → V} (h : ∀ e ∈ m.rows, f e.1 e.2 = e.2) :
    m.mapValues f = m :=
  Table.updateWhere_eq_self fun e he _ => by rw [h e he]

/-! The order of the entries. -/

/-- The entries after that of a key. -/
def following (m : JsMap K V) (k : K) : List (K × V) := (m.rows.dropWhile fun e => e.1 ≠ k).tail

theorem rows_split (h : m.get? k = some v) : ∃ before after,
    m.rows = before ++ (k, v) :: after ∧ ∀ e ∈ before ++ after, e.1 ≠ k := by
  obtain ⟨before, after, hrows⟩ := List.append_of_mem (get?_eq_some.mp h)
  refine ⟨before, after, hrows, ?_⟩
  have hnodup := m.nodup
  rw [hrows, List.map_append, List.map_cons, List.nodup_middle, List.nodup_cons,
    ← List.map_append] at hnodup
  intro e he hk
  exact hnodup.1 (List.mem_map.mpr ⟨e, he, hk⟩)

theorem rows_set_of_none (h : m.get? k = none) (v : V) :
    (m.set k v).rows = m.rows ++ [(k, v)] := by
  have hmem : k ∉ m.rows.map fun e => e.1 := by
    intro hk
    obtain ⟨e, he⟩ := Table.mem_map_key.mp hk
    simp [get?, he] at h
  unfold set Table.upsert
  rw [if_neg hmem]
  unfold Table.insertIgnore
  rw [dif_neg hmem]

theorem rows_delete_of_none (h : m.get? k = none) : (m.delete k).rows = m.rows := by
  refine List.filter_eq_self.mpr fun e he => ?_
  have hne : e.1 ≠ k := by
    rintro rfl
    rw [get?_eq_some.mpr he] at h
    cases h
  simpa using hne

theorem rows_of_split {before after : List (K × V)} {v : V} (v' : V)
    (h : m.rows = before ++ (k, v) :: after) (hne : ∀ e ∈ before ++ after, e.1 ≠ k) :
    (m.set k v').rows = before ++ (k, v') :: after ∧ (m.delete k).rows = before ++ after ∧
      m.following k = after := by
  have hbefore : ∀ e ∈ before, e.1 ≠ k := fun e he => hne e (List.mem_append_left _ he)
  have hafter : ∀ e ∈ after, e.1 ≠ k := fun e he => hne e (List.mem_append_right _ he)
  have hkeep : ∀ l : List (K × V), (∀ e ∈ l, e.1 ≠ k) →
      (l.map fun e => if e.1 = k then (e.1, v') else e) = l := by
    intro l hl
    conv_rhs => rw [← List.map_id l]
    exact List.map_congr_left fun e he => if_neg (hl e he)
  have hfilter : ∀ l : List (K × V), (∀ e ∈ l, e.1 ≠ k) →
      (l.filter fun e => !decide (e.1 = k)) = l :=
    fun l hl => List.filter_eq_self.mpr fun e he => by simpa using hl e he
  refine ⟨?_, ?_, ?_⟩
  · have hmem : k ∈ m.rows.map fun e => e.1 := by simp [h]
    unfold set Table.upsert
    rw [if_pos hmem]
    simp only [Table.updateWhere, h, List.map_append, List.map_cons, decide_eq_true_eq,
      if_true, hkeep before hbefore, hkeep after hafter]
  · simp [delete, Table.deleteWhere, h, List.filter_append, hfilter before hbefore,
      hfilter after hafter]
  · unfold following
    rw [h, List.dropWhile_append_of_pos (by simpa using hbefore)]
    simp

/-- Among the entries of one kind, one that is set stands last if none of them followed it. -/
theorem filter_rows_set {p : K × V → Bool} (m : JsMap K V) (k : K) (v : V)
    (h : p (k, v) = true → ∀ e ∈ m.following k, p e = false) :
    (m.set k v).rows.filter p = (m.delete k).rows.filter p ++ [(k, v)].filter p := by
  cases hget : m.get? k with
  | none => rw [rows_set_of_none hget, rows_delete_of_none hget, List.filter_append]
  | some old =>
    obtain ⟨before, after, hrows, hne⟩ := rows_split hget
    obtain ⟨hset, hdelete, hfollowing⟩ := rows_of_split v hrows hne
    rw [hset, hdelete, List.filter_append, List.filter_append, List.filter_cons]
    split_ifs with hp
    · have hafter : after.filter p = [] :=
        List.filter_eq_nil_iff.mpr fun e he => by simp [h hp e (hfollowing ▸ he)]
      simp [hafter, hp]
    · simp [hp]

end JsMap

end ClaudeFleet
