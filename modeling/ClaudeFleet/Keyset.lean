import Mathlib.Tactic
import Mathlib.Data.List.Sort
import Mathlib.Data.List.Perm.Basic

/-! Keyset pagination: rows are fetched in the order of a key, a page at a time, each page from
beyond the greatest key of the one before. Where keys repeat, a full page is widened to the whole
group of its last key. -/
namespace ClaudeFleet.Keyset

variable {α κ : Type*} [LinearOrder κ] (key : α → κ)

/-- The mark has not reached the row. -/
def Beyond (last : Option κ) (r : α) : Prop := ∀ l ∈ last, l < key r

instance (last : Option κ) (r : α) : Decidable (Beyond key last r) := by
  unfold Beyond
  infer_instance

/-- One page, in the order of the keys. -/
def fetch (rows : List α) (last : Option κ) (n : ℕ) : List α :=
  ((rows.filter (Beyond key last)).insertionSort fun a b => key a ≤ key b).take n

/-- A page with the whole group of its last key. -/
def widen (rows page : List α) : List α :=
  match page.getLast? with
  | none => page
  | some r => page.filter (fun a => key a ≠ key r) ++ rows.filter fun a => key a = key r

/-- Rows between two marks. -/
def between (rows : List α) (last : Option κ) (k : κ) : List α :=
  rows.filter fun r => Beyond key last r ∧ key r ≤ k

/-- Rows up to a mark. -/
def upto (rows : List α) (last : Option κ) : List α := rows.filter fun r => ¬Beyond key last r

variable {key}

theorem upto_none (rows : List α) : upto key rows none = [] := by
  simp [upto, Beyond]

theorem upto_perm {rows rows' : List α} (h : rows.Perm rows') (last : Option κ) :
    (upto key rows last).Perm (upto key rows' last) := h.filter _

/-- The rows of one more page. -/
theorem upto_append_between {rows : List α} {last : Option κ} {k : κ} (hk : ∀ l ∈ last, l < k) :
    (upto key rows last ++ between key rows last k).Perm (upto key rows (some k)) := by
  have hsplit := List.filter_append_perm (fun r => decide (Beyond key last r))
    (upto key rows (some k))
  refine List.Perm.trans (List.perm_append_comm.trans (List.Perm.append ?_ ?_)) hsplit
  · rw [upto, between, List.filter_filter]
    refine List.Perm.of_eq (List.filter_congr fun r _ => ?_)
    rw [← Bool.decide_and, decide_eq_decide]
    simp [Beyond]
  · rw [upto, upto, List.filter_filter]
    refine List.Perm.of_eq (List.filter_congr fun r _ => ?_)
    rw [← decide_not, ← Bool.decide_and, decide_eq_decide]
    refine ⟨fun hr => ⟨hr, fun hbeyond => hr fun l hl => ?_⟩, And.left⟩
    exact (hk l hl).trans (hbeyond k rfl)

/-- All rows are up to the mark once a page is empty. -/
theorem upto_of_fetch_nil {rows : List α} {last : Option κ} {n : ℕ} (hn : 1 ≤ n)
    (h : fetch key rows last n = []) : upto key rows last = rows := by
  have hsort : (rows.filter (Beyond key last)).insertionSort (fun a b => key a ≤ key b) = [] := by
    rcases List.take_eq_nil_iff.mp h with hzero | hnil
    · omega
    · exact hnil
  have hnil : rows.filter (Beyond key last) = [] := by
    have hperm := List.perm_insertionSort (fun a b => key a ≤ key b)
      (rows.filter (Beyond key last))
    rw [hsort] at hperm
    exact hperm.nil_eq.symm
  rw [upto, List.filter_eq_self]
  intro r hr
  have hnot := List.filter_eq_nil_iff.mp hnil r hr
  simpa using hnot

/-- The rows left beyond the mark, sorted: first the page, then rows with keys no smaller. -/
theorem fetch_append (key : α → κ) (rows : List α) (last : Option κ) (n : ℕ) :
    ∃ rest, (rows.filter (Beyond key last)).Perm (fetch key rows last n ++ rest) ∧
      ((fetch key rows last n ++ rest).Pairwise fun a b => key a ≤ key b) ∧
      (rest ≠ [] → (fetch key rows last n).length = n) := by
  set sorted := (rows.filter (Beyond key last)).insertionSort fun a b => key a ≤ key b
    with hsorted
  have hperm : (rows.filter (Beyond key last)).Perm sorted :=
    (List.perm_insertionSort _ _).symm
  have : Std.Total fun a b : α => key a ≤ key b := ⟨fun a b => le_total (key a) (key b)⟩
  have : IsTrans α fun a b => key a ≤ key b := ⟨fun _ _ _ hab hbc => le_trans hab hbc⟩
  have hpair : sorted.Pairwise fun a b => key a ≤ key b := List.pairwise_insertionSort _ _
  refine ⟨sorted.drop n, ?_, ?_, ?_⟩
  · rw [fetch, ← hsorted, List.take_append_drop]
    exact hperm
  · rw [fetch, ← hsorted, List.take_append_drop]
    exact hpair
  · intro hne
    rw [fetch, ← hsorted, List.length_take, min_eq_left]
    by_contra hlt
    exact hne (List.drop_eq_nil_iff.mpr (by omega))

theorem between_eq (rows : List α) (last : Option κ) (k : κ) :
    between key rows last k = (rows.filter (Beyond key last)).filter fun r => key r ≤ k := by
  rw [between, List.filter_filter]
  refine List.filter_congr fun r _ => ?_
  rw [← Bool.decide_and, decide_eq_decide]
  exact and_comm

/-- What the last row of a page says of the page and of the rows after it. -/
theorem fetch_last {rows : List α} {last : Option κ} {n : ℕ} {r : α}
    (h : (fetch key rows last n).getLast? = some r) :
    Beyond key last r ∧ ∃ rest, (rows.filter (Beyond key last)).Perm (fetch key rows last n ++ rest) ∧
      (∀ a ∈ fetch key rows last n, key a ≤ key r) ∧ (∀ a ∈ rest, key r ≤ key a) ∧
      (rest ≠ [] → (fetch key rows last n).length = n) := by
  obtain ⟨rest, hperm, hpair, hrest⟩ := fetch_append key rows last n
  obtain ⟨front, hfront⟩ := List.getLast?_eq_some_iff.mp h
  have hmem : r ∈ fetch key rows last n := List.mem_of_getLast? h
  have hbeyond : r ∈ rows.filter (Beyond key last) :=
    hperm.mem_iff.mpr (List.mem_append_left _ hmem)
  obtain ⟨hpage, -, hcross⟩ := List.pairwise_append.mp hpair
  refine ⟨by simpa using (List.mem_filter.mp hbeyond).2, rest, hperm, ?_, ?_, hrest⟩
  · intro a ha
    rw [hfront] at ha hpage
    rcases List.mem_append.mp ha with ha | ha
    · exact (List.pairwise_append.mp hpage).2.2 a ha r (List.mem_singleton_self r)
    · rw [List.mem_singleton.mp ha]
  · intro a ha
    exact hcross r hmem a ha

/-- Where keys do not repeat, and on the last page, a page is all the rows up to its last key. -/
theorem fetch_perm {rows : List α} {last : Option κ} {n : ℕ} {r : α}
    (h : (fetch key rows last n).getLast? = some r)
    (hkeys : (rows.map key).Nodup ∨ (fetch key rows last n).length ≠ n) :
    (fetch key rows last n).Perm (between key rows last (key r)) := by
  obtain ⟨-, rest, hperm, hle, hge, hfull⟩ := fetch_last h
  have hrest : rest.filter (fun a => key a ≤ key r) = [] := by
    rw [List.filter_eq_nil_iff]
    intro a ha
    rw [decide_eq_true_eq, not_le]
    refine lt_of_le_of_ne (hge a ha) ?_
    rcases hkeys with hnodup | hne
    · have hsub : ((rows.filter (Beyond key last)).map key).Nodup :=
        hnodup.sublist (List.filter_sublist.map key)
      have happ := (hperm.map key).nodup_iff.mp hsub
      rw [List.map_append, List.nodup_append] at happ
      exact happ.2.2 _ (List.mem_map_of_mem (List.mem_of_getLast? h)) _ (List.mem_map_of_mem ha)
    · exact absurd (hfull (List.ne_nil_of_mem ha)) hne
  have hall : (fetch key rows last n).filter (fun a => key a ≤ key r) = fetch key rows last n :=
    List.filter_eq_self.mpr fun a ha => decide_eq_true (hle a ha)
  have hfilter := hperm.filter fun a => key a ≤ key r
  rw [List.filter_append, hrest, List.append_nil, hall] at hfilter
  rw [between_eq]
  exact hfilter.symm

/-- A widened page is all the rows up to its last key, however often keys repeat. -/
theorem widen_perm {rows : List α} {last : Option κ} {n : ℕ} {r : α}
    (h : (fetch key rows last n).getLast? = some r) :
    (widen key rows (fetch key rows last n)).Perm (between key rows last (key r)) := by
  obtain ⟨hr, rest, hperm, hle, hge, -⟩ := fetch_last h
  have hsplit := (List.filter_append_perm (fun a => decide (key a < key r))
    (between key rows last (key r))).symm
  rw [widen, h]
  refine List.Perm.trans (List.Perm.append ?_ ?_) hsplit.symm
  · -- smaller keys are all on the page
    have hrest : rest.filter (fun a => decide (key a < key r)) = [] := by
      rw [List.filter_eq_nil_iff]
      intro a ha
      rw [decide_eq_true_eq, not_lt]
      exact hge a ha
    have hpage : (fetch key rows last n).filter (fun a => key a ≠ key r) =
        (fetch key rows last n).filter fun a => key a < key r := by
      refine List.filter_congr fun a ha => ?_
      rw [decide_eq_decide]
      exact ⟨fun hne => lt_of_le_of_ne (hle a ha) hne, ne_of_lt⟩
    have hsmall : (between key rows last (key r)).filter (fun a => key a < key r) =
        (rows.filter (Beyond key last)).filter fun a => key a < key r := by
      rw [between_eq, List.filter_filter]
      refine List.filter_congr fun a _ => ?_
      rw [← Bool.decide_and, decide_eq_decide]
      exact ⟨And.left, fun hlt => ⟨hlt, hlt.le⟩⟩
    have hfilter := hperm.filter fun a => key a < key r
    rw [List.filter_append, hrest, List.append_nil] at hfilter
    rw [hpage, hsmall]
    exact hfilter.symm
  · rw [between, List.filter_filter]
    refine List.Perm.of_eq (List.filter_congr fun a _ => ?_)
    rw [← decide_not, ← Bool.decide_and, decide_eq_decide]
    constructor
    · intro heq
      refine ⟨heq ▸ lt_irrefl _, fun l hl => ?_, heq.le⟩
      rw [heq]
      exact hr l hl
    · rintro ⟨hnot, -, hle'⟩
      exact le_antisymm hle' (not_lt.mp hnot)

theorem widen_getLast? (key : α → κ) {rows page : List α} {r : α}
    (h : page.getLast? = some r) (hr : r ∈ rows) : ∃ r', (widen key rows page).getLast? = some r' ∧ key r' = key r := by
  rw [widen, h]
  have hne : rows.filter (fun a => key a = key r) ≠ [] := by
    refine List.ne_nil_of_mem (a := r) ?_
    simp [hr]
  refine ⟨(rows.filter fun a => key a = key r).getLast hne, ?_, ?_⟩
  · simp only
    rw [List.getLast?_append_of_ne_nil _ hne]
    exact List.getLast?_eq_getLast_of_ne_nil hne
  · have hmem := List.getLast_mem hne
    simpa using (List.mem_filter.mp hmem).2

theorem fetch_mem {rows : List α} {last : Option κ} {n : ℕ} {r : α}
    (h : r ∈ fetch key rows last n) : r ∈ rows := by
  have hmem := List.mem_of_mem_take h
  rw [List.mem_insertionSort] at hmem
  exact (List.mem_filter.mp hmem).1

/-- A page moves the mark, so fewer rows are left. -/
theorem beyond_length_lt {rows : List α} {last : Option κ} {r : α} (hr : r ∈ rows)
    (hbeyond : Beyond key last r) :
    (rows.filter (Beyond key (some (key r)))).length <
      (rows.filter (Beyond key last)).length := by
  have hsub : rows.filter (Beyond key (some (key r))) =
      (rows.filter (Beyond key last)).filter (Beyond key (some (key r))) := by
    rw [List.filter_filter]
    refine List.filter_congr fun a _ => ?_
    rw [← Bool.decide_and, decide_eq_decide]
    refine ⟨fun ha => ⟨ha, fun l hl => ?_⟩, And.left⟩
    exact (hbeyond l hl).trans (ha _ rfl)
  rw [hsub]
  refine List.length_filter_lt_length_iff_exists.mpr ⟨r, ?_, ?_⟩
  · simpa using ⟨hr, hbeyond⟩
  · simp [Beyond]

end ClaudeFleet.Keyset
