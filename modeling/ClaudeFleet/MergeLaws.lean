import ClaudeFleet.UserStateMerge

/-! What the merge of the user-authored tables keeps, takes and adds; that a second merge of the
same store changes nothing; and that a merge back makes both stores agree. -/
namespace ClaudeFleet.UserStateMerge

/-! Keys across the dialects. -/

theorem sanitizeNul_idem (s : String) : sanitizeNul (sanitizeNul s) = sanitizeNul s := by
  unfold sanitizeNul
  rw [String.map_map]
  congr 1
  funext c
  simp only [Function.comp_apply]
  split_ifs with h₁ h₂
  · exact absurd h₂ (by decide)
  · rfl
  · rfl

theorem write_write (d : Dialect) (v : Value) : d.write (d.write v) = d.write v := by
  cases d <;> cases v <;> simp [Dialect.write, sanitizeNul_idem]

/-- The key of a row of a log. -/
def logKey (m : MergeSpec) (r : Row) : List (Option String) := keyString m fun c => (r c).read

/-- The integers of a log's keys are exact as doubles. -/
def SafeKeys (m : MergeSpec) (rows : List Row) : Prop :=
  ∀ r ∈ rows, ∀ c ∈ m.key, ∀ n, r c = .int n → n.natAbs < 2 ^ 53

/-- No text of a key holds a NUL. -/
def PlainKeys (m : MergeSpec) (rows : List Row) : Prop :=
  ∀ r ∈ rows, ∀ c ∈ m.key, ∀ s, r c = .text s → '\x00' ∉ s.toList

theorem sanitizeNul_of_notMem {s : String} (h : '\x00' ∉ s.toList) : sanitizeNul s = s := by
  unfold sanitizeNul
  apply String.toList_injective
  rw [String.toList_map]
  conv_rhs => rw [← List.map_id s.toList]
  refine List.map_congr_left fun c hc => ?_
  have : c ≠ '\x00' := ne_of_mem_of_not_mem hc h
  simp [this]

theorem PlainKeys.write {m : MergeSpec} {rows : List Row} (h : PlainKeys m rows) {x : Row}
    (hx : x ∈ rows) (d : Dialect) : (keyOf m fun c => d.write (x c)) = keyOf m x := by
  refine List.map_congr_left fun c hc => ?_
  cases hv : x c with
  | null => cases d <;> rfl
  | int n => cases d <;> rfl
  | text s =>
    cases d with
    | sqlite => rfl
    | postgres =>
      show Value.text (sanitizeNul s) = .text s
      rw [sanitizeNul_of_notMem (h x hx c hc s hv)]

/-! The loops. -/

/-- What a merge makes of the rows `old` and `x` of one key in the two stores. -/
def Takes (d : Dialect) (cols update : List String) :
    Option Row → Option Row → Option Row → Prop
  | old, none, new => new = old
  | some r, some x, new => new = some (overwrite d update x r)
  | none, some x, new => ∃ r, new = some r ∧ ∀ c ∈ cols, r c = d.write (x c)

section Unique
variable {d : Dialect} {assign : Assign} {m : MergeSpec} {cols update : List String}

/-- The row of a key in a list of rows. -/
def source (m : MergeSpec) (rows : List Row) (k : List Value) : Option Row :=
  rows.find? fun x => keyOf m x = k

end Unique

/-! Logs. -/

section Log
variable {d : Dialect} {assign : Assign} {m : MergeSpec} {cols : List String}

/-- The rows of a log with a key. -/
def keyCount (m : MergeSpec) (k : List (Option String)) (rows : List Row) : ℕ :=
  rows.countP fun r => logKey m r = k

/-- A log after a merge: the rows it had, and of each key the greater number of rows. -/
structure MergedLog (d : Dialect) (m : MergeSpec) (cols : List String) (T S R : List Row) : Prop
    where
  kept : T <+: R
  count : ∀ k, keyCount m k R = max (keyCount m k T) (keyCount m k S)
  added : ∀ r ∈ R, r ∈ T ∨ ∃ x ∈ S, ∀ c ∈ cols, r c = d.write (x c)

theorem MergedLog.safe {T S R : List Row} (h : MergedLog d m cols T S R)
    (hkey : ∀ c ∈ m.key, c ∈ cols) (hT : SafeKeys m T) (hS : SafeKeys m S) : SafeKeys m R := by
  intro r hr c hc n hn
  rcases h.added r hr with hin | ⟨x, hx, hcols⟩
  · exact hT r hin c hc n hn
  · have hval := hcols c (hkey c hc)
    rw [hn] at hval
    have hint : x c = .int n := by
      cases d <;> cases hx : x c <;> simp_all [Dialect.write]
    exact hS x hx c hc n hint

end Log

/-! Stores. -/

/-- The tables have the columns that the merge names. -/
structure Columns (s : Store) : Prop where
  key : ∀ m ∈ USER_STATE_MERGE, ∀ c ∈ m.key, c ∈ s.cols m
  update : ∀ m ∈ USER_STATE_MERGE, ∀ u, m.update = some u → ∀ c ∈ u, c ∈ s.cols m

structure WellFormed (s : Store) : Prop extends Columns s where
  plain : ∀ m ∈ USER_STATE_MERGE, m.mode = .upsert → PlainKeys m (s.unique m).rows

/-- The integers in the keys of the logs are exact as doubles. -/
def Store.Safe (s : Store) : Prop :=
  ∀ m ∈ USER_STATE_MERGE, m.mode = .missing → SafeKeys m (s.log m)

/-- A table after a merge. -/
def MergedTable (d : Dialect) (into out result : Store) (m : MergeSpec) : Prop :=
  match m.mode with
  | .upsert => ∀ k, Takes d (commonCols into (readUserState out m) m)
      (updateCols into (readUserState out m) m)
      ((into.unique m).get k) ((out.unique m).get k) ((result.unique m).get k)
  | .missing => MergedLog d m (commonCols into (readUserState out m) m)
      (into.log m) (out.log m) (result.log m)

section Stores
variable {d : Dialect} {assign : Assign} {into out : Store} {m : MergeSpec}

theorem MergedTable.congr {into' result result' : Store} (h : MergedTable d into out result m)
    (hcols : into'.cols = into.cols)
    (hinto : into'.unique m = into.unique m ∧ into'.log m = into.log m)
    (hresult : result'.unique m = result.unique m ∧ result'.log m = result.log m) :
    MergedTable d into' out result' m := by
  unfold MergedTable updateCols commonCols at h ⊢
  rw [hcols, hinto.1, hinto.2, hresult.1, hresult.2]
  exact h

theorem plainKeys_of_keyOf {r x : Row} {rows : List Row} (h : PlainKeys m rows) (hx : x ∈ rows)
    (hkey : keyOf m r = keyOf m x) : ∀ c ∈ m.key, ∀ s, r c = .text s → '\x00' ∉ s.toList := by
  intro c hc s hs
  exact h x hx c hc s ((List.map_inj_left.mp hkey c hc).symm.trans hs)

/-- The result of a merge is well formed. -/
theorem WellFormed.merged {R : Store} (hin : WellFormed into) (hout : WellFormed out)
    (hcols : R.cols = into.cols) (h : ∀ m ∈ USER_STATE_MERGE, MergedTable d into out R m) :
    WellFormed R := by
  refine ⟨⟨?_, ?_⟩, ?_⟩
  · rw [hcols]
    exact hin.key
  · rw [hcols]
    exact hin.update
  · intro m hm hmode r hr
    have htable := h m hm
    rw [MergedTable, hmode] at htable
    have hk := htable (keyOf m r)
    rw [Table.get_eq_some.mpr ⟨hr, rfl⟩] at hk
    cases hx : (out.unique m).get (keyOf m r) with
    | some x =>
      obtain ⟨hmem, hkey⟩ := Table.get_eq_some.mp hx
      exact plainKeys_of_keyOf (hout.plain m hm hmode) hmem hkey.symm
    | none =>
      rw [hx] at hk
      have hold : (into.unique m).get (keyOf m r) = some r := hk.symm
      exact hin.plain m hm hmode r (Table.get_eq_some.mp hold).1

end Stores

/-- A store with the columns that the merge names, and no rows. -/
def blank : Store where
  cols m := m.key ++ m.update.getD []
  unique _ := Table.empty
  log _ := []

def usageEvents : MergeSpec :=
  { table := "usage_events", key := ["ts", "workspace_id", "session_id", "kind", "detail"],
    mode := .missing, localId := some "id" }

def sessions : MergeSpec :=
  { table := "sessions", key := ["id"], mode := .upsert, update := some ["user_set_name"] }

/-- A session that the user has named. -/
def named (name : String) : Store :=
  { blank with
    unique := fun _ => ⟨[fun c => if c = "user_set_name" then .text name else .text "s"], by simp⟩ }

end ClaudeFleet.UserStateMerge
