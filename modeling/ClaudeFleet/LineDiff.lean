import ClaudeFleet.CommonSubsequence
import ClaudeFleet.JsText

/-! The line diff that proposals are approved from, and its short form, where unchanged lines away
from every change give way to gaps. -/
namespace ClaudeFleet.LineDiff
open Js CommonSubsequence

inductive DiffType
  | same
  | add
  | del
  deriving DecidableEq

structure DiffLine where
  type : DiffType
  text : Text
  deriving DecidableEq

/-- A text without its last newline, if it ends with one. -/
def dropNewline (s : Text) : Text := if s.getLast? = some newline then s.dropLast else s

def valueAt (lcs : List (List ℕ)) (i j : ℕ) : ℕ := (lcs.getD i []).getD j 0

/-- The walk through the table, from places `i` and `j` with the lines from there on. -/
def walk (lcs : List (List ℕ)) : ℕ → ℕ → List Text → List Text → List DiffLine
  | _, _, [], b => b.map fun y => ⟨.add, y⟩
  | _, _, x :: a, [] => (x :: a).map fun x => ⟨.del, x⟩
  | i, j, x :: a, y :: b =>
    if x = y then ⟨.same, x⟩ :: walk lcs (i + 1) (j + 1) a b
    else if valueAt lcs i (j + 1) ≤ valueAt lcs (i + 1) j then
      ⟨.del, x⟩ :: walk lcs (i + 1) j a (y :: b)
    else ⟨.add, y⟩ :: walk lcs i (j + 1) (x :: a) b
  termination_by _ _ a b => a.length + b.length

def diffLines (before after : Text) : List DiffLine :=
  let a := lines (dropNewline before)
  let b := lines (dropNewline after)
  walk (table a b) 0 0 a b

inductive CompactLine
  | line (l : DiffLine)
  | gap
  deriving DecidableEq

def isChange (l : DiffLine) : Bool := decide (l.type ≠ .same)

/-- The line is a change, or within `context` of one. -/
def keep (lines : List DiffLine) (context i : ℕ) (l : DiffLine) : Bool :=
  isChange l || ((lines.take (i + context + 1)).drop (i - context)).any isChange

def pushLine (out : List CompactLine) (l : DiffLine × Bool) : List CompactLine :=
  if l.2 then out ++ [.line l.1]
  else if out.getLast? = some .gap then out
  else out ++ [.gap]

def flagged (lines : List DiffLine) (context : ℕ) : List (DiffLine × Bool) :=
  lines.mapIdx fun i l => (l, keep lines context i l)

def compact (lines : List DiffLine) (context : ℕ) : List CompactLine :=
  (flagged lines context).foldl pushLine []

/-! The diff. -/

def texts (lines : List DiffLine) (dropped : DiffType) : List Text :=
  (lines.filter fun l => decide (l.type ≠ dropped)).map DiffLine.text

def sameCount (lines : List DiffLine) : ℕ := lines.countP fun l => decide (l.type = .same)

theorem texts_walk_add (lcs : List (List ℕ)) (i j : ℕ) (a b : List Text) :
    texts (walk lcs i j a b) .add = a := by
  induction i, j, a, b using walk.induct lcs with
  | case1 i j b => simp [walk, texts]
  | case2 i j x a => simp [walk, texts, Function.comp_def, List.filter_map]
  | case3 i j a y b ih =>
    rw [walk, if_pos rfl]
    simpa [texts] using ih
  | case4 i j x a y b hne hle ih =>
    rw [walk, if_neg hne, if_pos hle]
    simpa [texts] using ih
  | case5 i j x a y b hne hle ih =>
    rw [walk, if_neg hne, if_neg hle]
    simpa [texts] using ih

theorem texts_walk_del (lcs : List (List ℕ)) (i j : ℕ) (a b : List Text) :
    texts (walk lcs i j a b) .del = b := by
  induction i, j, a, b using walk.induct lcs with
  | case1 i j b => simp [walk, texts, Function.comp_def, List.filter_map]
  | case2 i j x a => simp [walk, texts]
  | case3 i j a y b ih =>
    rw [walk, if_pos rfl]
    simpa [texts] using ih
  | case4 i j x a y b hne hle ih =>
    rw [walk, if_neg hne, if_pos hle]
    simpa [texts] using ih
  | case5 i j x a y b hne hle ih =>
    rw [walk, if_neg hne, if_neg hle]
    simpa [texts] using ih

theorem le_length_of_drop {α : Type*} {l t : List α} {x : α} {n : ℕ} (h : l.drop n = x :: t) :
    n + 1 ≤ l.length := by
  have := congrArg List.length h
  simp only [List.length_drop, List.length_cons] at this
  omega

/-- The greedy walk takes as many lines as the table promises it. -/
theorem sameCount_walk {as bs : List Text} {lcs : List (List ℕ)} (hlcs : lcs = table as bs)
    (i j : ℕ) (a b : List Text) (ha : as.drop i = a) (hb : bs.drop j = b) :
    sameCount (walk lcs i j a b) = lcsLength a b := by
  have hat : ∀ i' j', i' ≤ as.length → j' ≤ bs.length →
      valueAt lcs i' j' = lcsLength (as.drop i') (bs.drop j') := by
    intro i' j' hi hj
    rw [hlcs]
    exact table_getElem as bs hi hj
  induction i, j, a, b using walk.induct lcs with
  | case1 i j b => simp [walk, sameCount]
  | case2 i j x a => simp [walk, sameCount]
  | case3 i j a y b ih =>
    rw [walk, if_pos rfl, lcsLength, if_pos rfl, ← ih (by simp [← List.drop_drop, ha])
      (by simp [← List.drop_drop, hb])]
    simp [sameCount]
  | case4 i j x a y b hne hle ih =>
    have ha' : as.drop (i + 1) = a := by simp [← List.drop_drop, ha]
    have hb' : bs.drop (j + 1) = b := by simp [← List.drop_drop, hb]
    have hi := le_length_of_drop ha
    have hj := le_length_of_drop hb
    have hle' := hle
    rw [hat _ _ (by omega) hj, hat _ _ hi (by omega), ha, hb, ha', hb'] at hle'
    rw [walk, if_neg hne, if_pos hle, lcsLength, if_neg hne, max_eq_left hle', ← ih ha' hb]
    simp [sameCount]
  | case5 i j x a y b hne hle ih =>
    have ha' : as.drop (i + 1) = a := by simp [← List.drop_drop, ha]
    have hb' : bs.drop (j + 1) = b := by simp [← List.drop_drop, hb]
    have hi := le_length_of_drop ha
    have hj := le_length_of_drop hb
    have hle' := hle
    rw [hat _ _ (by omega) hj, hat _ _ hi (by omega), ha, hb, ha', hb', not_le] at hle'
    rw [walk, if_neg hne, if_neg hle, lcsLength, if_neg hne, max_eq_right hle'.le, ← ih ha hb']
    simp [sameCount]

/-! The short form. -/

/-- Lines that follow one another and are all shown, or all left out for one gap. -/
structure Run where
  kept : Bool
  lines : List DiffLine

def Run.shown (r : Run) : List CompactLine := if r.kept then r.lines.map .line else [.gap]

/-- The line is unchanged, and more than `context` away from every change. -/
def Far (lines : List DiffLine) (context i : ℕ) : Prop :=
  (∃ l, lines[i]? = some l ∧ isChange l = false) ∧
    ∀ j l, lines[j]? = some l → isChange l = true → i + context < j ∨ j + context < i

def shownLines (out : List CompactLine) : List DiffLine :=
  out.filterMap fun c =>
    match c with
    | .line l => some l
    | .gap => none

/-- What a short form is: runs in turn shown and left out, those left out far from every change, and
no change lost. -/
structure Compacted (lines : List DiffLine) (context : ℕ) (out : List CompactLine) : Prop where
  runs : ∃ runs : List Run, lines = runs.flatMap Run.lines ∧ out = runs.flatMap Run.shown ∧
    (runs.map Run.kept).IsChain (· ≠ ·) ∧ (∀ r ∈ runs, r.lines ≠ []) ∧
    ∀ before r after, runs = before ++ r :: after → r.kept = false →
      ∀ k < r.lines.length, Far lines context ((before.flatMap Run.lines).length + k)
  changes : (shownLines out).filter isChange = lines.filter isChange

/-- A run with the flag of its lines. -/
def Run.flagged (r : Run) : List (DiffLine × Bool) := r.lines.map fun l => (l, r.kept)

/-- The runs of flagged lines, and what is shown of them. -/
structure RunsOf (xs : List (DiffLine × Bool)) (runs : List Run) : Prop where
  flagged : xs = runs.flatMap Run.flagged
  shown : xs.foldl pushLine [] = runs.flatMap Run.shown
  alternate : (runs.map Run.kept).IsChain (· ≠ ·)
  nonempty : ∀ r ∈ runs, r.lines ≠ []

theorem getLast?_shown {runs : List Run} {r : Run} (hne : r.lines ≠ []) :
    ((runs ++ [r]).flatMap Run.shown).getLast? = some .gap ↔ r.kept = false := by
  rw [List.flatMap_append, List.flatMap_singleton]
  unfold Run.shown
  cases hk : r.kept with
  | false => simp
  | true =>
    obtain ⟨ls, l, hl⟩ := List.eq_nil_or_concat r.lines |>.resolve_left hne
    simp [hl]

/-- One more line of the kind of the last run belongs to it. -/
theorem RunsOf.extend {xs : List (DiffLine × Bool)} {runs : List Run} {r : Run} (l : DiffLine)
    (h : RunsOf xs (runs ++ [r])) :
    RunsOf (xs ++ [(l, r.kept)]) (runs ++ [⟨r.kept, r.lines ++ [l]⟩]) where
  flagged := by simp [h.flagged, Run.flagged]
  shown := by
    have hlast : ((runs ++ [r]).flatMap Run.shown).getLast? = some .gap ↔ r.kept = false :=
      getLast?_shown (h.nonempty r (by simp))
    rw [List.foldl_append, List.foldl_cons, List.foldl_nil, h.shown, pushLine]
    dsimp only
    split_ifs with hk hgap
    · simp [Run.shown, hk]
    · simp [Run.shown, hk]
    · exact absurd (hlast.mpr (by simpa using hk)) hgap
  alternate := by simpa using h.alternate
  nonempty t ht := by
    rcases List.mem_append.mp ht with ht | ht
    · exact h.nonempty t (List.mem_append_left _ ht)
    · simp [List.mem_singleton.mp ht]

/-- One more line of the other kind begins a run. -/
theorem RunsOf.begin_ {xs : List (DiffLine × Bool)} {runs : List Run} (l : DiffLine) (kept : Bool)
    (h : RunsOf xs runs) (hlast : ∀ r ∈ runs.getLast?, r.kept ≠ kept) :
    RunsOf (xs ++ [(l, kept)]) (runs ++ [⟨kept, [l]⟩]) where
  flagged := by simp [h.flagged, Run.flagged]
  shown := by
    rw [List.foldl_append, List.foldl_cons, List.foldl_nil, h.shown, pushLine]
    dsimp only
    split_ifs with hk hgap
    · simp [Run.shown, hk]
    · rcases List.eq_nil_or_concat runs with rfl | ⟨before, r, rfl⟩
      · simp at hgap
      · rw [List.concat_eq_append] at *
        have := (getLast?_shown (h.nonempty r (by simp))).mp hgap
        exact absurd this (by simpa [hk] using hlast r (by simp))
    · simp [Run.shown, hk]
  alternate := by
    rw [List.map_append, List.isChain_append]
    refine ⟨h.alternate, List.isChain_singleton _, ?_⟩
    intro k hk k' hk'
    obtain rfl : kept = k' := by simpa using hk'
    rw [List.getLast?_map, Option.mem_def, Option.map_eq_some_iff] at hk
    obtain ⟨r, hr, rfl⟩ := hk
    exact hlast r hr
  nonempty t ht := by
    rcases List.mem_append.mp ht with ht | ht
    · exact h.nonempty t ht
    · simp [List.mem_singleton.mp ht]

theorem exists_runs (xs : List (DiffLine × Bool)) : ∃ runs, RunsOf xs runs := by
  induction xs using List.reverseRecOn with
  | nil => exact ⟨[], rfl, rfl, List.isChain_nil, fun r hr => absurd hr List.not_mem_nil⟩
  | append_singleton xs x ih =>
    obtain ⟨l, kept⟩ := x
    obtain ⟨runs, h⟩ := ih
    rcases List.eq_nil_or_concat runs with rfl | ⟨before, r, rfl⟩
    · exact ⟨_, h.begin_ l kept (by simp)⟩
    · rw [List.concat_eq_append] at h
      by_cases hk : r.kept = kept
      · exact ⟨_, hk ▸ h.extend l⟩
      · exact ⟨_, h.begin_ l kept (by simpa using hk)⟩

theorem far_of_keep {lines : List DiffLine} {context i : ℕ} {l : DiffLine}
    (hl : lines[i]? = some l) (h : keep lines context i l = false) : Far lines context i := by
  unfold keep at h
  rw [Bool.or_eq_false_iff] at h
  refine ⟨⟨l, hl, h.1⟩, fun j l' hl' hchange => ?_⟩
  by_contra hnear
  push Not at hnear
  have hmem : l' ∈ (lines.take (i + context + 1)).drop (i - context) := by
    refine List.mem_of_getElem? (i := j - (i - context)) ?_
    rw [List.getElem?_drop, List.getElem?_take_of_lt (by omega)]
    rwa [Nat.add_sub_cancel' (by omega)]
  have := List.any_eq_false.mp h.2 l' hmem
  exact this hchange

theorem compacted_compact (lines : List DiffLine) (context : ℕ) :
    Compacted lines context (compact lines context) := by
  obtain ⟨runs, h⟩ := exists_runs (flagged lines context)
  have hfst : (flagged lines context).map Prod.fst = lines := by
    refine List.ext_getElem? fun i => ?_
    simp [flagged, List.getElem?_mapIdx, Function.comp_def]
  have hlines : lines = runs.flatMap Run.lines := by
    rw [← hfst, h.flagged, List.map_flatMap]
    simp [Run.flagged, Function.comp_def]
  have hkeep : ∀ i l, (flagged lines context)[i]? = some (l, false) →
      Far lines context i := by
    intro i l hi
    rw [flagged, List.getElem?_mapIdx, Option.map_eq_some_iff] at hi
    obtain ⟨l', hl', heq⟩ := hi
    exact far_of_keep hl' (congrArg Prod.snd heq)
  refine ⟨⟨runs, hlines, h.shown, h.alternate, h.nonempty, ?_⟩, ?_⟩
  · intro before r after hruns hk k hlt
    have hlen : (before.flatMap Run.flagged).length = (before.flatMap Run.lines).length := by
      simp [List.length_flatMap, Run.flagged]
    refine hkeep _ r.lines[k] ?_
    rw [h.flagged, hruns, List.flatMap_append, List.flatMap_cons, ← hlen,
      List.getElem?_append_right (Nat.le_add_right _ _), Nat.add_sub_cancel_left,
      List.getElem?_append_left (by simpa [Run.flagged] using hlt)]
    simp [Run.flagged, hk, hlt]
  · have hrun : ∀ r ∈ runs, (shownLines r.shown).filter isChange = r.lines.filter isChange := by
      intro r hr
      unfold Run.shown shownLines
      cases hk : r.kept with
      | true => simp [List.filterMap_map]
      | false =>
        have hnone : r.lines.filter isChange = [] := by
          refine List.filter_eq_nil_iff.mpr fun l hl => ?_
          have hmem : (l, false) ∈ flagged lines context := by
            rw [h.flagged]
            exact List.mem_flatMap.mpr ⟨r, hr, List.mem_map.mpr ⟨l, hl, by rw [hk]⟩⟩
          obtain ⟨i, hi⟩ := List.getElem?_of_mem hmem
          obtain ⟨⟨l', hl', hsame⟩, -⟩ := hkeep i l hi
          rw [flagged, List.getElem?_mapIdx, hl'] at hi
          have heq : l' = l := congrArg Prod.fst (Option.some.inj hi)
          simp [← heq, hsame]
        simp [hnone]
    have hall : ∀ rs : List Run, (∀ r ∈ rs, r ∈ runs) →
        (shownLines (rs.flatMap Run.shown)).filter isChange =
          (rs.flatMap Run.lines).filter isChange := by
      intro rs
      induction rs with
      | nil => intro _; rfl
      | cons r rs ih =>
        intro hrs
        have hr := hrun r (hrs r List.mem_cons_self)
        have hrest := ih fun t ht => hrs t (List.mem_cons_of_mem _ ht)
        unfold shownLines at hr hrest ⊢
        rw [List.flatMap_cons, List.filterMap_append, List.filter_append, hr, hrest,
          List.flatMap_cons, List.filter_append]
    have hruns := hall runs fun _ hr => hr
    rwa [← h.shown, ← hlines] at hruns

/-- The lines of a diff are those of the two texts, as many of them the same as can be, and its
short form loses no change and hides nothing near one. -/
theorem diff_faithful :
    (∀ before after : Text,
      texts (diffLines before after) .add = lines (dropNewline before) ∧
      texts (diffLines before after) .del = lines (dropNewline after) ∧
      IsGreatest {n | ∃ l : List Text, l.Sublist (lines (dropNewline before)) ∧
        l.Sublist (lines (dropNewline after)) ∧ l.length = n}
        (sameCount (diffLines before after))) ∧
    ∀ (ls : List DiffLine) (context : ℕ), Compacted ls context (compact ls context) := by
  refine ⟨fun before after => ⟨texts_walk_add _ _ _ _ _, texts_walk_del _ _ _ _ _, ?_⟩,
    compacted_compact⟩
  unfold diffLines
  dsimp only
  rw [sameCount_walk rfl 0 0 _ _ List.drop_zero List.drop_zero]
  exact isGreatest_lcsLength _ _

end ClaudeFleet.LineDiff
