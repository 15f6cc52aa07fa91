import ClaudeFleet.Loadout

/-! The markers of the loadouts' blocks, and the lines of a text, of which trimming takes blank ones
where the white space at its ends is of whole lines. -/
namespace ClaudeFleet.Loadout
open Occurrence

theorem pathSafe_ne {c d : Char} (hc : pathSafe c) (hd : pathSafe d = false) : c ≠ d := by
  rintro rfl
  rw [hc] at hd
  cases hd

theorem LoadoutId.not_mem (id : LoadoutId) {d : Char} (hd : pathSafe d = false) : d ∉ id.value :=
  fun hmem => pathSafe_ne (id.safe.2 d hmem) hd rfl

theorem LoadoutId.ext_value {i j : LoadoutId} (h : i.value = j.value) : i = j := by
  cases i
  cases j
  cases h
  rfl

/-- A marker is its first letter, which it has only once, with the rest. -/
def markerRest (id : LoadoutId) (tail : Text) : Text := "!-- loadout:".toList ++ id.value ++ tail

theorem blockStart_eq (id : LoadoutId) :
    blockStart id = '<' :: markerRest id (' ' :: "start -->".toList) := rfl

theorem blockEnd_eq (id : LoadoutId) :
    blockEnd id = '<' :: markerRest id (' ' :: "end -->".toList) := rfl

theorem markerRest_not_mem (id : LoadoutId) {tail : Text} {d : Char} (hd : pathSafe d = false)
    (hfront : d ∉ "!-- loadout:".toList) (htail : d ∉ tail) : d ∉ markerRest id tail := by
  unfold markerRest
  rw [List.mem_append, List.mem_append, not_or, not_or]
  exact ⟨⟨hfront, id.not_mem hd⟩, htail⟩

theorem newline_not_mem_start (id : LoadoutId) : '\n' ∉ blockStart id := by
  rw [blockStart_eq, List.mem_cons, not_or]
  exact ⟨by decide, markerRest_not_mem id (by decide) (by decide +kernel) (by decide +kernel)⟩

theorem newline_not_mem_end (id : LoadoutId) : '\n' ∉ blockEnd id := by
  rw [blockEnd_eq, List.mem_cons, not_or]
  exact ⟨by decide, markerRest_not_mem id (by decide) (by decide +kernel) (by decide +kernel)⟩

/-- The ids and what follows them can be read off two markers, one of which begins the other. -/
theorem markerRest_unique {i j : LoadoutId} {s t : Text}
    (h : markerRest i (' ' :: s) <+: markerRest j (' ' :: t)) : i = j ∧ s <+: t := by
  unfold markerRest at h
  rw [List.append_assoc, List.append_assoc, List.prefix_append_right_inj] at h
  have hspace : pathSafe ' ' = false := by decide
  have hij : i.value = j.value := by
    obtain ⟨u, hu⟩ := h
    rw [List.append_assoc, List.cons_append] at hu
    have hcut : ∀ (k : LoadoutId) (v : Text), (k.value ++ ' ' :: v).takeWhile pathSafe = k.value := by
      intro k v
      rw [List.takeWhile_append_of_pos k.safe.2]
      simp [hspace]
    rw [← hcut i (s ++ u), hu, hcut j t]
  refine ⟨LoadoutId.ext_value hij, ?_⟩
  rw [hij, List.prefix_append_right_inj, List.cons_prefix_cons] at h
  exact h.2

theorem start_infix_start {i j : LoadoutId} (h : blockStart i <:+: blockStart j) : i = j := by
  rw [blockStart_eq, blockStart_eq] at h
  have hnot : '<' ∉ markerRest j (' ' :: "start -->".toList) :=
    markerRest_not_mem j (by decide) (by decide +kernel) (by decide +kernel)
  exact (markerRest_unique (prefix_of_infix_head hnot h)).1

theorem start_not_infix_end (i j : LoadoutId) : ¬ blockStart i <:+: blockEnd j := by
  intro h
  rw [blockStart_eq, blockEnd_eq] at h
  have hnot : '<' ∉ markerRest j (' ' :: "end -->".toList) :=
    markerRest_not_mem j (by decide) (by decide +kernel) (by decide +kernel)
  have hpre := (markerRest_unique (prefix_of_infix_head hnot h)).2
  revert hpre
  decide +kernel

/-- No white space at the end. -/
def Closed (u : Text) : Prop := trimEnd u = u

theorem isSpace_newline : isSpace '\n' = true := by decide

/-- The lines that are not white space. -/
def nonBlank (text : Text) : List Text := (text.splitOn '\n').filter fun l => !(l.all isSpace)

theorem nonBlank_append (a b : Text) : nonBlank (a ++ '\n' :: b) = nonBlank a ++ nonBlank b := by
  unfold nonBlank
  rw [List.splitOn_eq_splitOnP, List.splitOnP_append_cons _ _ (by simp), List.filter_append]
  rfl

theorem nonBlank_of_space {text : Text} (h : ∀ c ∈ text, isSpace c) : nonBlank text = [] := by
  have hlines : ∀ l ∈ text.splitOn '\n', l.all isSpace := by
    induction text with
    | nil => simp
    | cons c text ih =>
      have htext := ih fun d hd => h d (List.mem_cons_of_mem _ hd)
      rw [List.splitOn_cons_eq_if_modifyHead]
      split
      · intro l hl
        rcases List.mem_cons.mp hl with rfl | hl
        · rfl
        · exact htext l hl
      · cases hsplit : text.splitOn '\n' with
        | nil => simp
        | cons l ls =>
          rw [hsplit] at htext
          intro l' hl'
          rcases List.mem_cons.mp hl' with rfl | hl'
          · simp only [List.all_cons, Bool.and_eq_true]
            exact ⟨h c List.mem_cons_self, htext l List.mem_cons_self⟩
          · exact htext l' (List.mem_cons_of_mem _ hl')
  unfold nonBlank
  rw [List.filter_eq_nil_iff]
  intro l hl
  simp [hlines l hl]

/-- The white space at the front is of whole lines. -/
def FrontLines (text : Text) : Prop :=
  text.takeWhile isSpace = [] ∨ (text.takeWhile isSpace).getLast? = some '\n'

/-- The white space at the end begins with the end of a line. -/
def BackLines (text : Text) : Prop :=
  text.rtakeWhile isSpace = [] ∨ (text.rtakeWhile isSpace).head? = some '\n'

/-- What trimming takes from a text is blank lines. -/
def Trimmable (text : Text) : Prop :=
  (∀ c ∈ text, isSpace c) ∨ (FrontLines text ∧ BackLines text)

theorem closed_trimEnd (text : Text) : Closed (trimEnd text) := List.rdropWhile_idempotent _ _

theorem nonBlank_trimEnd {text : Text} (h : Trimmable text) :
    nonBlank (trimEnd text) = nonBlank text := by
  rcases h with h | ⟨-, h⟩
  · have hnil : trimEnd text = [] := List.rdropWhile_eq_nil_iff.mpr h
    rw [hnil, nonBlank_of_space h]
    rfl
  · have hsplit := List.rdropWhile_append_rtakeWhile (p := isSpace) (l := text)
    cases hw : text.rtakeWhile isSpace with
    | nil =>
      rw [hw, List.append_nil] at hsplit
      unfold trimEnd
      rw [hsplit]
    | cons c w =>
      obtain rfl : c = '\n' := by
        rw [BackLines, hw] at h
        simpa using h
      have hspace : ∀ d ∈ w, isSpace d := by
        intro d hd
        refine List.mem_rtakeWhile_imp (l := text) ?_
        rw [hw]
        exact List.mem_cons_of_mem _ hd
      rw [hw] at hsplit
      unfold trimEnd
      nth_rewrite 2 [← hsplit]
      rw [nonBlank_append, nonBlank_of_space hspace, List.append_nil]

theorem frontLines_trimEnd {text : Text} (h : Trimmable text) : FrontLines (trimEnd text) := by
  rcases h with h | ⟨h, -⟩
  · have hnil : trimEnd text = [] := List.rdropWhile_eq_nil_iff.mpr h
    rw [hnil]
    exact .inl rfl
  · by_cases hall : ∀ c ∈ text, isSpace c
    · have hnil : trimEnd text = [] := List.rdropWhile_eq_nil_iff.mpr hall
      rw [hnil]
      exact .inl rfl
    · have hsame : (trimEnd text).takeWhile isSpace = text.takeWhile isSpace := by
        have hsplit := List.rdropWhile_append_rtakeWhile (p := isSpace) (l := text)
        obtain ⟨c, hc, hspace⟩ : ∃ c ∈ text, isSpace c = false := by
          simpa using hall
        have hmem : c ∈ trimEnd text := by
          rw [← hsplit, List.mem_append] at hc
          rcases hc with hc | hc
          · exact hc
          · rw [List.mem_rtakeWhile_imp hc] at hspace
            cases hspace
        nth_rewrite 2 [← hsplit]
        exact (takeWhile_append_of_not ⟨c, hmem, hspace⟩ _).symm
      rw [FrontLines, hsame]
      exact h

theorem nonBlank_dropWhile {text : Text} (h : FrontLines text) :
    nonBlank (text.dropWhile isSpace) = nonBlank text := by
  have hsplit := List.takeWhile_append_dropWhile (p := isSpace) (l := text)
  rcases h with h | h
  · rw [h, List.nil_append] at hsplit
    rw [hsplit]
  · obtain ⟨w, hw⟩ := List.getLast?_eq_some_iff.mp h
    have hspace : ∀ c ∈ w, isSpace c := by
      intro c hc
      refine List.mem_takeWhile_imp (l := text) ?_
      rw [hw]
      exact List.mem_append_left _ hc
    rw [hw, List.append_assoc, List.singleton_append] at hsplit
    nth_rewrite 2 [← hsplit]
    rw [nonBlank_append, nonBlank_of_space hspace, List.nil_append]

/-- How many letters stand on the lines that are not white space. -/
def weight (text : Text) : ℕ := ((nonBlank text).map List.length).sum

theorem weight_append (a b : Text) : weight (a ++ '\n' :: b) = weight a + weight b := by
  simp [weight, nonBlank_append]

theorem weight_of_space {text : Text} (h : ∀ c ∈ text, isSpace c) : weight text = 0 := by
  simp [weight, nonBlank_of_space h]

theorem weight_line {l : Text} (hl : '\n' ∉ l) {c : Char} (hc : c ∈ l) (hspace : isSpace c = false) :
    weight l = l.length := by
  have hline : l.splitOn '\n' = [l] := List.splitOn_eq_singleton hl
  have hsolid : l.all isSpace = false := by
    rw [List.all_eq_false]
    exact ⟨c, hc, by simp [hspace]⟩
  simp [weight, nonBlank, hline, hsolid]

/-- What is put before the first letter of a line that is not white space counts. -/
theorem weight_front {s x : Text} {c : Char} (hs : '\n' ∉ s) (hc : isSpace c = false) :
    weight (s ++ c :: x) = s.length + weight (c :: x) := by
  have hne : '\n' ≠ c := by
    rintro rfl
    cases hc
  by_cases hx : '\n' ∈ x
  · obtain ⟨l, b, rfl, hl⟩ := List.eq_append_cons_of_mem hx
    have hfirst : weight (s ++ c :: l) = s.length + (l.length + 1) := by
      rw [weight_line (by simp [hs, hl, hne]) (c := c) (by simp) hc]
      simp
    have hself : weight (c :: l) = l.length + 1 :=
      weight_line (by simp [hl, hne]) List.mem_cons_self hc
    have hsplit : s ++ c :: (l ++ '\n' :: b) = (s ++ c :: l) ++ '\n' :: b := by simp
    rw [hsplit, weight_append, hfirst, ← List.cons_append, weight_append, hself]
    omega
  · rw [weight_line (by simp [hs, hx, hne]) (c := c) (by simp) hc,
      weight_line (by simp [hx, hne]) List.mem_cons_self hc]
    simp

theorem exists_last_line {x : Text} (h : '\n' ∈ x) : ∃ b l, x = b ++ '\n' :: l ∧ '\n' ∉ l := by
  obtain ⟨l, b, hrev, hl⟩ := List.eq_append_cons_of_mem (List.mem_reverse.mpr h)
  refine ⟨b.reverse, l.reverse, ?_, by simpa using hl⟩
  rw [← List.reverse_reverse x, hrev]
  simp

/-- And so does what is put after the last one. -/
theorem weight_back {s x : Text} {c : Char} (hs : '\n' ∉ s) (hc : isSpace c = false) :
    weight (x ++ c :: s) = weight (x ++ [c]) + s.length := by
  have hne : '\n' ≠ c := by
    rintro rfl
    cases hc
  by_cases hx : '\n' ∈ x
  · obtain ⟨b, l, rfl, hl⟩ := exists_last_line hx
    have hlast : ∀ r : Text, '\n' ∉ r → weight (b ++ '\n' :: l ++ c :: r) =
        weight b + (l.length + (r.length + 1)) := by
      intro r hr
      have hmem : c ∈ l ++ c :: r := List.mem_append_right _ List.mem_cons_self
      have hline : '\n' ∉ l ++ c :: r := by simp [hr, hl, hne]
      rw [List.append_assoc, List.cons_append, weight_append, weight_line hline hmem hc]
      simp
    rw [hlast s hs, hlast [] (by simp), List.length_nil]
    omega
  · rw [weight_line (by simp [hs, hx, hne]) (c := c) (by simp) hc,
      weight_line (by simp [hx, hne]) (c := c) (by simp) hc]
    simp only [List.length_append, List.length_cons, List.length_nil]
    omega

/-- Where trimming the front changes nothing on the other lines, it takes whole lines. -/
theorem weight_dropWhile {u : Text} {c : Char} {x : Text} (hx : u.dropWhile isSpace = c :: x) :
    ∃ n, weight u = n + weight (c :: x) ∧ (n = 0 → FrontLines u) := by
  have hsplit := List.takeWhile_append_dropWhile (p := isSpace) (l := u)
  have hc : isSpace c = false := by
    have hhead := List.head?_dropWhile_not isSpace u
    simpa [hx] using hhead
  rw [hx] at hsplit
  have hspace : ∀ d ∈ u.takeWhile isSpace, isSpace d := fun d hd => List.mem_takeWhile_imp hd
  by_cases hline : '\n' ∈ u.takeWhile isSpace
  · obtain ⟨b, l, hw, hl⟩ := exists_last_line hline
    refine ⟨l.length, ?_, fun hnone => .inr ?_⟩
    · have hb : ∀ d ∈ b, isSpace d := fun d hd => hspace d (by simp [hw, hd])
      rw [← hsplit, hw, List.append_assoc, List.cons_append, weight_append, weight_of_space hb,
        weight_front hl hc, zero_add]
    · rw [hw, List.length_eq_zero_iff.mp hnone]
      simp
  · refine ⟨(u.takeWhile isSpace).length, ?_, fun hnone => .inl (List.length_eq_zero_iff.mp hnone)⟩
    nth_rewrite 1 [← hsplit]
    exact weight_front hline hc

theorem weight_trimEnd {u : Text} (h : ∃ c ∈ u, isSpace c = false) :
    ∃ n, weight u = n + weight (trimEnd u) ∧ (n = 0 → BackLines u) := by
  have hsplit := List.rdropWhile_append_rtakeWhile (p := isSpace) (l := u)
  have hspace : ∀ d ∈ u.rtakeWhile isSpace, isSpace d := fun d hd => List.mem_rtakeWhile_imp hd
  have hne : trimEnd u ≠ [] := by
    obtain ⟨c, hc, hsolid⟩ := h
    rw [trimEnd, Ne, List.rdropWhile_eq_nil_iff]
    intro hall
    rw [hall c hc] at hsolid
    cases hsolid
  obtain ⟨x, c, hx⟩ := List.eq_nil_or_concat' (trimEnd u) |>.resolve_left hne
  have hc : isSpace c = false := by
    have hlast := List.rdropWhile_last_not isSpace u hne
    have hget : (u.rdropWhile isSpace).getLast hne = c := by
      simp [show u.rdropWhile isSpace = x ++ [c] from hx]
    simpa [hget] using hlast
  rw [hx]
  rw [show u.rdropWhile isSpace = x ++ [c] from hx] at hsplit
  by_cases hline : '\n' ∈ u.rtakeWhile isSpace
  · obtain ⟨l, b, hw, hl⟩ := List.eq_append_cons_of_mem hline
    refine ⟨l.length, ?_, fun hnone => .inr ?_⟩
    · have hb : ∀ d ∈ b, isSpace d := fun d hd => hspace d (by simp [hw, hd])
      have hjoin : x ++ [c] ++ (l ++ '\n' :: b) = (x ++ c :: l) ++ '\n' :: b := by simp
      rw [← hsplit, hw, hjoin, weight_append, weight_of_space hb, weight_back hl hc, add_zero,
        add_comm]
    · rw [hw, List.length_eq_zero_iff.mp hnone]
      rfl
  · refine ⟨(u.rtakeWhile isSpace).length, ?_,
      fun hnone => .inl (List.length_eq_zero_iff.mp hnone)⟩
    nth_rewrite 1 [← hsplit]
    rw [List.append_assoc, List.singleton_append, weight_back hline hc, add_comm]

/-- A text whose other lines trimming leaves as they are. -/
theorem trimmable_of_nonBlank {u : Text} (h : nonBlank (trim u) = nonBlank u) : Trimmable u := by
  by_cases hall : ∀ c ∈ u, isSpace c
  · exact .inl hall
  · obtain ⟨c, hc, hsolid⟩ : ∃ c ∈ u, isSpace c = false := by simpa using hall
    have hsplit := List.takeWhile_append_dropWhile (p := isSpace) (l := u)
    have hdrop : ∃ c ∈ u.dropWhile isSpace, isSpace c = false := by
      rw [← hsplit] at hc
      obtain hc | hc := List.mem_append.mp hc
      · rw [List.mem_takeWhile_imp hc] at hsolid
        cases hsolid
      · exact ⟨c, hc, hsolid⟩
    obtain ⟨d, x, hx⟩ : ∃ d x, u.dropWhile isSpace = d :: x :=
      List.exists_cons_of_ne_nil (List.ne_nil_of_mem hdrop.choose_spec.1)
    obtain ⟨m, hm, hfront⟩ := weight_dropWhile hx
    obtain ⟨n, hn, hback⟩ := weight_trimEnd hdrop
    have hweight : weight (trim u) = weight u := by rw [weight, h, weight]
    rw [trim] at hweight
    rw [← hx] at hm
    have hback' : BackLines u := by
      have hsame : u.rtakeWhile isSpace = (u.dropWhile isSpace).rtakeWhile isSpace := by
        obtain ⟨c, hc, hsolid⟩ := hdrop
        nth_rewrite 1 [← hsplit]
        rw [List.rtakeWhile, List.reverse_append,
          takeWhile_append_of_not ⟨c, List.mem_reverse.mpr hc, hsolid⟩]
        rfl
      rw [BackLines, hsame]
      exact hback (by omega)
    exact .inr ⟨hfront (by omega), hback'⟩

end ClaudeFleet.Loadout
