import Mathlib.Tactic

/-! Lists whose items are known by their numbers, and only grow or have an item replaced. -/
namespace ClaudeFleet

variable {α : Type*} {l : List α} {m n : ℕ} {x y : α}

theorem getElem?_concat_cases (h : (l ++ [x])[n]? = some y) :
    l[n]? = some y ∨ n = l.length ∧ x = y := by
  rw [List.getElem?_append] at h
  split_ifs at h with hlt
  · exact Or.inl h
  · rw [List.getElem?_singleton] at h
    split_ifs at h
    exact Or.inr ⟨by omega, Option.some.inj h⟩

theorem getElem?_append_of_some (h : l[n]? = some y) (ys : List α) : (l ++ ys)[n]? = some y := by
  rw [List.getElem?_append_left (List.getElem?_eq_some_iff.mp h).1, h]

theorem getElem?_set_cases (h : (l.set m x)[n]? = some y) :
    m = n ∧ x = y ∨ m ≠ n ∧ l[n]? = some y := by
  rw [List.getElem?_set] at h
  split_ifs at h with hn
  · exact Or.inl ⟨hn, Option.some.inj h⟩
  · exact Or.inr ⟨hn, h⟩

theorem getElem?_set_of_some (h : l[m]? = some y) (x : α) : (l.set m x)[m]? = some x :=
  List.getElem?_set_self (List.getElem?_eq_some_iff.mp h).1

/-- Of the items, the one numbered alone has the property. -/
theorem filter_eq_singleton {p : α → Bool} (hx : l[n]? = some x) (hp : p x = true)
    (hone : ∀ (k : ℕ) (y : α), l[k]? = some y → p y = true → k = n) : l.filter p = [x] := by
  induction l generalizing n with
  | nil => cases hx
  | cons a l ih =>
    cases n with
    | zero =>
      cases hx
      have hrest : l.filter p = [] := List.filter_eq_nil_iff.mpr fun y hy hpy => by
        obtain ⟨k, hk⟩ := List.mem_iff_getElem?.mp hy
        have := hone (k + 1) y hk hpy
        omega
      rw [List.filter_cons_of_pos hp, hrest]
    | succ n =>
      have ha : p a ≠ true := fun hpa => by
        have := hone 0 a rfl hpa
        omega
      rw [List.filter_cons_of_neg ha]
      exact ih hx fun k y hk hpy => Nat.succ_inj.mp (hone (k + 1) y hk hpy)

end ClaudeFleet
