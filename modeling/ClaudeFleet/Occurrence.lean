import Mathlib.Tactic
import Mathlib.Data.List.DropRight

/-! The first occurrence of a word in a text. Where a separator cannot be part of the word, the
pieces between separators can be searched one by one. -/
namespace ClaudeFleet.Occurrence

section infixes

variable {α : Type*} {m a b : List α} {sep : α}

/-- A word without the separator ends before it. -/
theorem prefix_sep (hm : sep ∉ m) (h : m <+: a ++ sep :: b) : m <+: a := by
  obtain ⟨u, hu⟩ := h
  rcases List.append_eq_append_iff.mp hu with ⟨c, ha, -⟩ | ⟨c, hm', hrest⟩
  · exact ⟨c, ha.symm⟩
  · cases c with
    | nil => exact ⟨[], by simp [hm']⟩
    | cons x c =>
      obtain rfl : sep = x := (List.cons.inj hrest).1
      exact absurd (hm' ▸ by simp) hm

theorem infix_sep (hm : sep ∉ m) : m <:+: a ++ sep :: b ↔ m <:+: a ∨ m <:+: b := by
  induction a with
  | nil =>
    rw [List.nil_append, List.infix_cons_iff, List.infix_nil]
    refine or_congr_left ⟨fun h => List.prefix_nil.mp (prefix_sep (a := []) hm h), ?_⟩
    rintro rfl
    exact List.nil_prefix
  | cons x a ih =>
    rw [List.cons_append, List.infix_cons_iff, ih, List.infix_cons_iff, or_assoc]
    refine or_congr_left ⟨fun h => prefix_sep hm h, fun h => ?_⟩
    exact h.trans (List.prefix_append (x :: a) _)

theorem infix_replicate (hm : sep ∉ m) (k : ℕ) :
    m <:+: List.replicate k sep ++ b ↔ m = [] ∨ m <:+: b := by
  induction k with
  | zero =>
    constructor
    · exact .inr
    · rintro (rfl | h)
      · exact List.nil_infix
      · exact h
  | succ k ih =>
    have hsplit : List.replicate (k + 1) sep ++ b = [] ++ sep :: (List.replicate k sep ++ b) := by
      simp [List.replicate_succ]
    rw [hsplit, infix_sep hm, ih, List.infix_nil]
    tauto

/-- A word whose first letter is nowhere else in the text can only stand at its front. -/
theorem prefix_of_infix_head {x : α} {l : List α} (hx : x ∉ l) (h : x :: m <:+: x :: l) :
    m <+: l := by
  obtain ⟨s, t, hst⟩ := h
  cases s with
  | nil => exact ⟨t, (List.cons.inj hst).2⟩
  | cons y s =>
    have hl : s ++ x :: m ++ t = l := (List.cons.inj hst).2
    exact absurd (hl ▸ by simp) hx

theorem rdropWhile_append_of_pos {p : α → Bool} {l w : List α} (hw : ∀ x ∈ w, p x) :
    (l ++ w).rdropWhile p = l.rdropWhile p := by
  unfold List.rdropWhile
  rw [List.reverse_append, List.dropWhile_append_of_pos]
  intro x hx
  exact hw x (List.mem_reverse.mp hx)

/-- What ends in an element that stays keeps its end. -/
theorem rdropWhile_append_last {p : α → Bool} {x : α} (hx : p x = false) (l w : List α) :
    (l ++ (w ++ [x])).rdropWhile p = l ++ (w ++ [x]) := by
  rw [← List.append_assoc, List.rdropWhile_concat_neg]
  simp [hx]

theorem dropWhile_append_of_not {p : α → Bool} {l : List α} (h : ∃ x ∈ l, p x = false)
    (w : List α) : (l ++ w).dropWhile p = l.dropWhile p ++ w := by
  rw [List.dropWhile_append, if_neg]
  obtain ⟨x, hx, hp⟩ := h
  rw [List.isEmpty_iff, List.dropWhile_eq_nil_iff]
  intro hall
  rw [hall x hx] at hp
  cases hp

theorem takeWhile_append_of_not {p : α → Bool} {l : List α} (h : ∃ x ∈ l, p x = false)
    (w : List α) : (l ++ w).takeWhile p = l.takeWhile p := by
  rw [List.takeWhile_append, if_neg]
  intro hlen
  obtain ⟨x, hx, hp⟩ := h
  rw [← (List.takeWhile_prefix p).eq_of_length hlen] at hx
  rw [List.mem_takeWhile_imp hx] at hp
  cases hp

end infixes

variable {α : Type*} [DecidableEq α]

/-- What stands before and after the first occurrence of a word. -/
def cut (m : List α) : List α → Option (List α × List α)
  | [] => if m = [] then some ([], []) else none
  | x :: l =>
    if m.isPrefixOf (x :: l) then some ([], (x :: l).drop m.length)
    else (cut m l).map fun p => (x :: p.1, p.2)

variable {m a b l : List α} {sep : α}

theorem cut_self (b : List α) : cut m (m ++ b) = some ([], b) := by
  cases h : m ++ b with
  | nil =>
    obtain ⟨rfl, rfl⟩ := List.append_eq_nil_iff.mp h
    rfl
  | cons x l =>
    have hpre : m.isPrefixOf (x :: l) = true := by
      rw [← h, List.isPrefixOf_iff_prefix]
      exact List.prefix_append m b
    rw [cut, if_pos hpre, ← h, List.drop_left]

theorem cut_eq_none (h : ¬ m <:+: l) : cut m l = none := by
  induction l with
  | nil =>
    rw [List.infix_nil] at h
    rw [cut, if_neg h]
  | cons x l ih =>
    have hpre : ¬ m.isPrefixOf (x :: l) = true := by
      rw [List.isPrefixOf_iff_prefix]
      exact fun hp => h hp.isInfix
    rw [cut, if_neg hpre, ih fun hl => h (hl.trans (List.suffix_cons x l).isInfix), Option.map_none]

/-- Where no occurrence begins in `a`, the search goes on after it. -/
theorem cut_append (h : ∀ t, t ≠ [] → t <:+ a → ¬ m <+: t ++ b) :
    cut m (a ++ b) = (cut m b).map fun p => (a ++ p.1, p.2) := by
  induction a with
  | nil => simp
  | cons x a ih =>
    have hpre : ¬ m.isPrefixOf (x :: (a ++ b)) = true := by
      rw [List.isPrefixOf_iff_prefix]
      exact h (x :: a) (by simp) List.suffix_rfl
    rw [List.cons_append, cut, if_neg hpre,
      ih fun t ht hs => h t ht (hs.trans (List.suffix_cons x a)), Option.map_map]
    rfl

/-- An occurrence cannot run over a separator. -/
theorem cut_sep (hm : sep ∉ m) (h : ¬ m <:+: a) :
    cut m (a ++ sep :: b) = (cut m b).map fun p => (a ++ sep :: p.1, p.2) := by
  have hstart : ∀ t, t ≠ [] → t <:+ a ++ [sep] → ¬ m <+: t ++ b := by
    intro t ht hs hp
    rcases List.suffix_concat_iff.mp hs with rfl | ⟨t', rfl, ht'⟩
    · exact ht rfl
    · rw [List.append_assoc] at hp
      exact h ((prefix_sep hm hp).isInfix.trans ht'.isInfix)
  have hcut := cut_append hstart
  rw [List.append_assoc] at hcut
  simpa using hcut

end ClaudeFleet.Occurrence
