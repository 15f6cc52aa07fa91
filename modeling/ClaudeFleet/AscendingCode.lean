import Mathlib.Tactic
import Mathlib.Data.List.Lex

/-! Codes that write each symbol as a word and keep the lexicographic order. -/
namespace ClaudeFleet

/-- The word of a lesser symbol comes before that of a greater one, whatever follows either. -/
def AscendingCode {α β : Type*} [LT α] [LT β] (word : α → List β) : Prop :=
  ∀ x y s t, x < y → word x ++ s < word y ++ t

namespace AscendingCode

variable {α β : Type*} [LinearOrder α] [LinearOrder β] {word : α → List β}

theorem append_lt_append_left (p : List β) {s t : List β} (h : s < t) : p ++ s < p ++ t := by
  induction p with
  | nil => exact h
  | cons b p ih => exact List.cons_lt_cons_iff.mpr (Or.inr ⟨rfl, ih⟩)

/-- Texts are ordered as their words are, one after another. -/
theorem strictMono (h : AscendingCode word) (hne : ∀ x, word x ≠ []) :
    StrictMono fun xs : List α => xs.flatMap word := by
  intro xs
  induction xs with
  | nil =>
    intro ys hlt
    cases ys with
    | nil => exact absurd hlt (lt_irrefl _)
    | cons y ys =>
      obtain ⟨b, w, hw⟩ := List.exists_cons_of_ne_nil (hne y)
      simp only [List.flatMap_nil, List.flatMap_cons, hw, List.cons_append]
      exact List.nil_lt_cons b _
  | cons x xs ih =>
    intro ys hlt
    cases ys with
    | nil => exact absurd hlt (List.not_lt_nil _)
    | cons y ys =>
      rcases List.cons_lt_cons_iff.mp hlt with hxy | ⟨rfl, hrest⟩
      · exact h x y _ _ hxy
      · exact append_lt_append_left _ (ih hrest)

theorem flatMap_lt_iff (h : AscendingCode word) (hne : ∀ x, word x ≠ []) {xs ys : List α} :
    xs.flatMap word < ys.flatMap word ↔ xs < ys :=
  (h.strictMono hne).lt_iff_lt

theorem flatMap_inj (h : AscendingCode word) (hne : ∀ x, word x ≠ []) {xs ys : List α} :
    xs.flatMap word = ys.flatMap word ↔ xs = ys :=
  (h.strictMono hne).injective.eq_iff

end AscendingCode

end ClaudeFleet
