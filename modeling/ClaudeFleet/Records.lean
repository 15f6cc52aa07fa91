import Mathlib.Tactic
import Mathlib.Data.List.DropRight

/-! A stream of records, each ended by a separator. The part after the last separator is a record
that is not complete yet. -/
namespace ClaudeFleet.Records

variable {α : Type*} {sep : α}

/-- The stream ends where a record ends. -/
def Boundary (sep : α) (l : List α) : Prop := l = [] ∨ l.getLast? = some sep

theorem Boundary.nil : Boundary sep [] := .inl rfl

theorem boundary_concat (l : List α) : Boundary sep (l ++ [sep]) := .inr (by simp)

theorem Boundary.append {a b : List α} (ha : Boundary sep a) (hb : Boundary sep b) :
    Boundary sep (a ++ b) := by
  rcases hb with rfl | hb
  · rwa [List.append_nil]
  · refine .inr ?_
    rw [List.getLast?_append, hb]
    rfl

/-- A stream at the end of a record is empty or begins with a record. -/
theorem Boundary.cases {l : List α} (h : Boundary sep l) :
    l = [] ∨ ∃ raw rest, sep ∉ raw ∧ l = raw ++ sep :: rest ∧ Boundary sep rest := by
  rcases h with rfl | h
  · exact .inl rfl
  · refine .inr ?_
    have hmem : sep ∈ l := List.mem_of_getLast? h
    obtain ⟨raw, rest, rfl, hraw⟩ := List.eq_append_cons_of_mem hmem
    refine ⟨raw, rest, hraw, rfl, ?_⟩
    cases rest with
    | nil => exact .inl rfl
    | cons x rest =>
      refine .inr ?_
      rw [List.getLast?_append] at h
      simpa using h

variable [DecidableEq α]

/-- The records of a stream that are complete, without their separators. -/
def complete (sep : α) (l : List α) : List (List α) := (l.splitOn sep).dropLast

theorem complete_nil : complete sep [] = [] := rfl

theorem complete_concat_append (a b : List α) :
    complete sep (a ++ sep :: b) = a.splitOn sep ++ complete sep b := by
  unfold complete
  rw [List.splitOn_eq_splitOnP, List.splitOnP_append_cons _ _ (by simp), List.dropLast_append_of_ne_nil]
  · rfl
  · exact List.splitOnP_ne_nil _ _

theorem complete_append {a : List α} (h : Boundary sep a) (b : List α) :
    complete sep (a ++ b) = complete sep a ++ complete sep b := by
  rcases h with rfl | h
  · rfl
  · obtain ⟨a', rfl⟩ := List.getLast?_eq_some_iff.mp h
    have hself : complete sep (a' ++ [sep]) = a'.splitOn sep := by
      rw [complete_concat_append, complete_nil, List.append_nil]
    rw [List.append_assoc, List.singleton_append, complete_concat_append, hself]

theorem complete_of_notMem {l : List α} (h : sep ∉ l) : complete sep l = [] := by
  unfold complete
  rw [List.splitOn_eq_singleton h]
  rfl

theorem complete_record {raw : List α} (h : sep ∉ raw) (rest : List α) :
    complete sep (raw ++ sep :: rest) = raw :: complete sep rest := by
  rw [complete_concat_append, List.splitOn_eq_singleton h]
  rfl

theorem mem_complete_length {l : List α} {raw : List α} (h : raw ∈ complete sep l) :
    raw.length + 1 ≤ l.length := by
  induction hn : l.length using Nat.strong_induction_on generalizing l with
  | _ n ih =>
    subst hn
    by_cases hmem : sep ∈ l
    · obtain ⟨first, rest, rfl, hfirst⟩ := List.eq_append_cons_of_mem hmem
      rw [complete_record hfirst] at h
      rcases List.mem_cons.mp h with rfl | h
      · simp
      · have := ih rest.length (by simp; omega) h rfl
        simp only [List.length_append, List.length_cons]
        omega
    · rw [complete_of_notMem hmem] at h
      cases h

/-- The part up to the last separator ends where a record ends. -/
theorem boundary_rdropWhile (l : List α) : Boundary sep (l.rdropWhile (· != sep)) := by
  by_cases hnil : l.rdropWhile (· != sep) = []
  · rw [hnil]
    exact .nil
  · have hlast := List.rdropWhile_last_not (p := (· != sep)) (l := l) hnil
    refine .inr ?_
    rw [List.getLast?_eq_getLast_of_ne_nil hnil]
    simpa using hlast

end ClaudeFleet.Records
