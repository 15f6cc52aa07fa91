import Mathlib.Tactic
import Mathlib.Data.List.Sublists

/-! The length of a longest common subsequence by its recurrence, and the table of its values for
all suffixes, filled from the end. -/
namespace ClaudeFleet.CommonSubsequence

variable {α : Type*} [DecidableEq α]

def lcsLength : List α → List α → ℕ
  | [], _ => 0
  | _ :: _, [] => 0
  | x :: a, y :: b =>
    if x = y then lcsLength a b + 1 else max (lcsLength a (y :: b)) (lcsLength (x :: a) b)
  termination_by a b => a.length + b.length

@[simp] theorem lcsLength_nil_left (b : List α) : lcsLength [] b = 0 := by rw [lcsLength]

@[simp] theorem lcsLength_nil_right (a : List α) : lcsLength a [] = 0 := by
  cases a <;> rw [lcsLength]

theorem exists_common (a b : List α) :
    ∃ l : List α, l.Sublist a ∧ l.Sublist b ∧ l.length = lcsLength a b := by
  induction a, b using lcsLength.induct with
  | case1 b => exact ⟨[], List.nil_sublist _, List.nil_sublist _, by simp⟩
  | case2 x a => exact ⟨[], List.nil_sublist _, List.nil_sublist _, by simp⟩
  | case3 a y b ih =>
    obtain ⟨l, ha, hb, hlen⟩ := ih
    refine ⟨y :: l, ha.cons_cons y, hb.cons_cons y, ?_⟩
    rw [lcsLength, if_pos rfl, List.length_cons, hlen]
  | case4 x a y b hne ihdel ihadd =>
    rw [lcsLength, if_neg hne]
    rcases max_choice (lcsLength a (y :: b)) (lcsLength (x :: a) b) with hmax | hmax
    · obtain ⟨l, ha, hb, hlen⟩ := ihdel
      exact ⟨l, ha.cons x, hb, hlen.trans hmax.symm⟩
    · obtain ⟨l, ha, hb, hlen⟩ := ihadd
      exact ⟨l, ha, hb.cons y, hlen.trans hmax.symm⟩

theorem length_le (a b : List α) :
    ∀ l : List α, l.Sublist a → l.Sublist b → l.length ≤ lcsLength a b := by
  induction a, b using lcsLength.induct with
  | case1 b =>
    intro l ha _
    simp [List.sublist_nil.mp ha]
  | case2 x a =>
    intro l _ hb
    simp [List.sublist_nil.mp hb]
  | case3 a y b ih =>
    intro l ha hb
    have htail := ih l.tail ha.tail hb.tail
    rw [List.length_tail] at htail
    rw [lcsLength, if_pos rfl]
    omega
  | case4 x a y b hne ihdel ihadd =>
    intro l ha hb
    rw [lcsLength, if_neg hne]
    -- the two first elements differ, so that one of them is not in what they have in common
    rcases List.sublist_cons_iff.mp ha with hdel | ⟨r, rfl, -⟩
    · exact le_max_of_le_left (ihdel l hdel hb)
    · refine le_max_of_le_right (ihadd _ ha ?_)
      rcases List.sublist_cons_iff.mp hb with hadd | ⟨r', heq, -⟩
      · exact hadd
      · exact absurd (List.cons.inj heq).1 hne

/-- The recurrence gives the length of a longest common subsequence. -/
theorem isGreatest_lcsLength (a b : List α) :
    IsGreatest {n | ∃ l : List α, l.Sublist a ∧ l.Sublist b ∧ l.length = n} (lcsLength a b) :=
  ⟨exists_common a b, fun _ ⟨l, ha, hb, hlen⟩ => hlen ▸ length_le a b l ha hb⟩

/-! The table. -/

/-- The values for the suffixes of `b`, from those for a list with one element less. -/
def row (x : α) : List α → List ℕ → List ℕ
  | [], _ => [0]
  | y :: b, below =>
    let rest := row x b below.tail
    (if x = y then below.tail.headD 0 + 1 else max (below.headD 0) (rest.headD 0)) :: rest

/-- The rows for the suffixes of `a`. -/
def table : List α → List α → List (List ℕ)
  | [], b => [List.replicate (b.length + 1) 0]
  | x :: a, b => row x b ((table a b).headD []) :: table a b

/-- The row of a list. -/
def suffixValues (a : List α) (b : List α) : List ℕ := b.tails.map (lcsLength a)

theorem headD_suffixValues (a b : List α) : (suffixValues a b).headD 0 = lcsLength a b := by
  cases b <;> simp [suffixValues]

theorem row_eq (x : α) (a b : List α) : row x b (suffixValues a b) = suffixValues (x :: a) b := by
  induction b with
  | nil => simp [row, suffixValues]
  | cons y b ih =>
    have htail : (suffixValues a (y :: b)).tail = suffixValues a b := by simp [suffixValues]
    have hrow : suffixValues (x :: a) (y :: b) =
        lcsLength (x :: a) (y :: b) :: suffixValues (x :: a) b := by simp [suffixValues]
    rw [row, htail, ih, headD_suffixValues, headD_suffixValues, headD_suffixValues, hrow, lcsLength]

theorem table_eq (a b : List α) : table a b = a.tails.map fun a' => suffixValues a' b := by
  induction a with
  | nil =>
    have hzero : suffixValues [] b = List.replicate (b.length + 1) 0 := by
      refine List.eq_replicate_iff.mpr ⟨by simp [suffixValues], fun n hn => ?_⟩
      obtain ⟨b', -, rfl⟩ := List.mem_map.mp hn
      exact lcsLength_nil_left b'
    simp [table, hzero]
  | cons x a ih =>
    have hhead : (table a b).headD [] = suffixValues a b := by
      rw [ih]
      cases a <;> simp
    rw [table, hhead, row_eq, ih]
    simp

/-- The table has at a pair of places the value for the suffixes from there on. -/
theorem table_getElem (a b : List α) {i j : ℕ} (hi : i ≤ a.length) (hj : j ≤ b.length) :
    ((table a b).getD i []).getD j 0 = lcsLength (a.drop i) (b.drop j) := by
  have hi' : i < a.tails.length := by simpa using Nat.lt_succ_of_le hi
  have hj' : j < b.tails.length := by simpa using Nat.lt_succ_of_le hj
  rw [table_eq]
  simp [suffixValues, List.getD_eq_getElem?_getD, List.getElem?_eq_getElem hi',
    List.getElem?_eq_getElem hj']

end ClaudeFleet.CommonSubsequence
