import ClaudeFleet.JsText

/-! Whether a session is busy, read off the terminal titles in its output: each chunk is searched
together with the output just before it, which is cut to a bounded buffer first. -/
namespace ClaudeFleet.ActivityDetector
open Js

def BEL : UInt16 := 7

def ESC : UInt16 := 27

def BUF_CAP : ℕ := 512

/-- `ESC ] 0 ;` -/
def opening : Text := [ESC, 93, 48, 59]

def isTitleUnit (u : UInt16) : Bool := u != BEL && u != ESC

/-- What ends a title: `BEL` or `ESC \`. -/
def Closing (c : Text) : Prop := c = [BEL] ∨ c = [ESC, 92]

/-- A match of the pattern at the beginning of a text: the title, and what follows the match. -/
def matchAt (s : Text) : Option (Text × Text) :=
  if opening.isPrefixOf s then
    let title := (s.drop 4).takeWhile isTitleUnit
    match (s.drop 4).dropWhile isTitleUnit with
    | [] => none
    | [u] => if u = BEL then some (title, []) else none
    | u :: v :: rest =>
      if u = BEL then some (title, v :: rest) else if v = 92 then some (title, rest) else none
  else none

/-- The loop over the matches, with the last title so far; each pass makes the text shorter. -/
def scan : ℕ → Option Text → Text → Option Text
  | 0, last, _ => last
  | _ + 1, last, [] => last
  | n + 1, last, u :: s =>
    match matchAt (u :: s) with
    | some (title, rest) => scan n (some title) rest
    | none => scan n last s

def lastTitle (s : Text) : Option Text := scan s.length none s

def IDLE_GLYPH : ℕ := 0x2733

def leadCodePoint (title : Text) : ℕ :=
  match trim title with
  | [] => 0
  | [u] => u.toNat
  | u :: v :: _ =>
    if 0xd800 ≤ u ∧ u ≤ 0xdbff ∧ 0xdc00 ≤ v ∧ v ≤ 0xdfff then
      0x10000 + (u.toNat - 0xd800) * 0x400 + (v.toNat - 0xdc00)
    else u.toNat

def isBusyTitle (title : Text) : Bool :=
  let cp := leadCodePoint title
  (0x25d0 ≤ cp && cp ≤ 0x25d3) || (0x2800 ≤ cp && cp ≤ 0x28ff)

def isUnknownTitleGlyph (title : Text) : Bool :=
  let cp := leadCodePoint title
  0x7f < cp && cp != IDLE_GLYPH && !isBusyTitle title

structure Detector where
  buf : Text := []
  busy : Bool := false
  reportedUnknown : Bool := false

/-- What the last title in the buffer does: the detector after it, whether its state has changed, and
the title that is reported where someone listens. -/
def Detector.read (listening : Bool) (d : Detector) (buf : Text) :
    Option Text → Detector × Bool × Option Text
  | none => ({ d with buf }, false, none)
  | some title =>
    let report := !d.reportedUnknown && listening && isUnknownTitleGlyph title
    let reportedUnknown := d.reportedUnknown || report
    let next := isBusyTitle title
    ({ buf, busy := next, reportedUnknown }, next != d.busy,
      if report then some (trim title) else none)

def push (listening : Bool) (d : Detector) (chunk : Text) : Detector × Bool × Option Text :=
  let buf := (d.buf ++ chunk).rtake BUF_CAP
  d.read listening buf (lastTitle buf)

def pushAll (listening : Bool) (chunks : List Text) : Detector :=
  chunks.foldl (fun d chunk => (push listening d chunk).1) {}

/-- The sequence with title `t` stands in `s` from `i` up to `e`. -/
def Titled (s : Text) (i : ℕ) (t : Text) (e : ℕ) : Prop :=
  ∃ before closing rest, s = before ++ (opening ++ t ++ closing) ++ rest ∧
    (∀ u ∈ t, isTitleUnit u = true) ∧ Closing closing ∧
    before.length = i ∧ (before ++ (opening ++ t ++ closing)).length = e

/-- What the last of some sequences says; without any, the session is not busy. -/
def Reads (P : ℕ → Text → ℕ → Prop) (busy : Bool) : Prop :=
  (busy = false ∧ ∀ i t e, ¬ P i t e) ∨
    ∃ i t e, P i t e ∧ (∀ j t' e', P j t' e' → j ≤ i) ∧ busy = isBusyTitle t

/-- A sequence that is whole in the output before some border of the chunks, and begins no further
before the border than the buffer reaches. -/
def Caught (chunks : List Text) (i : ℕ) (t : Text) (e : ℕ) : Prop :=
  Titled chunks.flatten i t e ∧ ∃ before after, chunks = before ++ after ∧
    e ≤ before.flatten.length ∧ before.flatten.length ≤ i + BUF_CAP

/-! The matches of the pattern are the sequences of the text. -/

theorem matchAt_of {t closing : Text} (ht : ∀ u ∈ t, isTitleUnit u = true) (hc : Closing closing)
    (rest : Text) : matchAt (opening ++ t ++ closing ++ rest) = some (t, rest) := by
  have hopen : opening.isPrefixOf (opening ++ t ++ closing ++ rest) = true := by
    rw [List.isPrefixOf_iff_prefix, List.append_assoc, List.append_assoc]
    exact List.prefix_append _ _
  have hdrop : (opening ++ t ++ closing ++ rest).drop 4 = t ++ (closing ++ rest) := by
    simp [opening]
  have hstop : (closing ++ rest).takeWhile isTitleUnit = [] := by
    rcases hc with rfl | rfl
    · simp [isTitleUnit]
    · simp [isTitleUnit]
  have hstay : (closing ++ rest).dropWhile isTitleUnit = closing ++ rest := by
    rcases hc with rfl | rfl
    · simp [isTitleUnit]
    · simp [isTitleUnit]
  unfold matchAt
  rw [if_pos hopen, hdrop, List.takeWhile_append_of_pos ht, List.dropWhile_append_of_pos ht, hstop,
    hstay, List.append_nil]
  rcases hc with rfl | rfl
  · cases rest with
    | nil => rfl
    | cons v rest => rfl
  · rfl

theorem matchAt_eq_some {s t rest : Text} (h : matchAt s = some (t, rest)) :
    ∃ closing, s = opening ++ t ++ closing ++ rest ∧ (∀ u ∈ t, isTitleUnit u = true) ∧
      Closing closing := by
  unfold matchAt at h
  split_ifs at h with hopen
  rw [List.isPrefixOf_iff_prefix] at hopen
  obtain ⟨tail, rfl⟩ := hopen
  have hdrop : (opening ++ tail).drop 4 = tail := by simp [opening]
  rw [hdrop] at h
  have hsplit := List.takeWhile_append_dropWhile (p := isTitleUnit) (l := tail)
  have htitle : ∀ u ∈ tail.takeWhile isTitleUnit, isTitleUnit u = true := fun u hu =>
    List.mem_takeWhile_imp hu
  have hnext : ∀ u more, tail.dropWhile isTitleUnit = u :: more → u = BEL ∨ u = ESC := by
    intro u more hmore
    have hstop : isTitleUnit u = false := by
      have := List.head?_dropWhile_not isTitleUnit tail
      simpa [hmore] using this
    by_contra hne
    rw [not_or] at hne
    simp [isTitleUnit, hne.1, hne.2] at hstop
  dsimp only at h
  split at h
  · cases h
  · next u hdone =>
    split_ifs at h with hbel
    obtain ⟨rfl, rfl⟩ : tail.takeWhile isTitleUnit = t ∧ [] = rest := by simpa using h
    refine ⟨[BEL], ?_, htitle, Or.inl rfl⟩
    rw [hdone, hbel] at hsplit
    rw [List.append_assoc, List.append_assoc]
    exact congrArg (opening ++ ·) hsplit.symm
  · next u v more hdone =>
    split_ifs at h with hbel hslash
    · obtain ⟨rfl, rfl⟩ : tail.takeWhile isTitleUnit = t ∧ v :: more = rest := by simpa using h
      refine ⟨[BEL], ?_, htitle, Or.inl rfl⟩
      rw [hdone, hbel] at hsplit
      rw [List.append_assoc, List.append_assoc]
      exact congrArg (opening ++ ·) hsplit.symm
    · obtain ⟨rfl, rfl⟩ : tail.takeWhile isTitleUnit = t ∧ more = rest := by simpa using h
      refine ⟨[ESC, 92], ?_, htitle, Or.inr rfl⟩
      have hesc := (hnext u _ hdone).resolve_left hbel
      rw [hdone, hesc, hslash] at hsplit
      rw [List.append_assoc, List.append_assoc]
      exact congrArg (opening ++ ·) hsplit.symm

theorem titled_append (front s : Text) (i : ℕ) (t : Text) (e : ℕ) :
    Titled (front ++ s) (front.length + i) t (front.length + e) ↔ Titled s i t e := by
  constructor
  · rintro ⟨before, closing, rest, hs, ht, hc, hi, he⟩
    have hfront : front <+: before := by
      have hbefore : before <+: front ++ s := by
        rw [hs, List.append_assoc]
        exact List.prefix_append _ _
      exact List.prefix_of_prefix_length_le (List.prefix_append _ _) hbefore (by omega)
    obtain ⟨between, rfl⟩ := hfront
    refine ⟨between, closing, rest, ?_, ht, hc, ?_, ?_⟩
    · simpa [List.append_assoc] using hs
    · simpa using hi
    · simp only [List.length_append] at he ⊢
      omega
  · rintro ⟨before, closing, rest, rfl, ht, hc, rfl, rfl⟩
    refine ⟨front ++ before, closing, rest, ?_, ht, hc, ?_, ?_⟩
    · simp only [List.append_assoc]
    · exact List.length_append
    · simp only [List.length_append]
      omega

theorem titled_behind {s : Text} {i e : ℕ} {t : Text} (more : Text) (he : e ≤ s.length) :
    Titled (s ++ more) i t e ↔ Titled s i t e := by
  constructor
  · rintro ⟨before, closing, rest, hs, ht, hc, hi, hlen⟩
    have hin : before ++ (opening ++ t ++ closing) <+: s := by
      have hwhole : before ++ (opening ++ t ++ closing) <+: s ++ more := by
        rw [hs]
        exact List.prefix_append _ _
      exact List.prefix_of_prefix_length_le hwhole (List.prefix_append _ _) (by omega)
    obtain ⟨rest', hrest⟩ := hin
    exact ⟨before, closing, rest', hrest.symm, ht, hc, hi, hlen⟩
  · rintro ⟨before, closing, rest, rfl, ht, hc, hi, hlen⟩
    exact ⟨before, closing, rest ++ more, by simp only [List.append_assoc], ht, hc, hi, hlen⟩

theorem Titled.le_length {s t : Text} {i e : ℕ} (h : Titled s i t e) : i ≤ e ∧ e ≤ s.length := by
  obtain ⟨before, closing, rest, rfl, -, -, rfl, rfl⟩ := h
  simp only [List.length_append]
  omega

theorem titled_iff {s t : Text} {i e : ℕ} : Titled s i t e ↔
    i ≤ s.length ∧ ∃ rest, matchAt (s.drop i) = some (t, rest) ∧ e + rest.length = s.length := by
  constructor
  · rintro ⟨before, closing, rest, rfl, ht, hc, rfl, rfl⟩
    refine ⟨?_, rest, ?_, ?_⟩
    · simp only [List.length_append]
      omega
    · rw [List.append_assoc, List.drop_left]
      exact matchAt_of ht hc rest
    · simp only [List.length_append]
  · rintro ⟨hi, rest, hm, he⟩
    obtain ⟨closing, hs, ht, hc⟩ := matchAt_eq_some hm
    refine ⟨s.take i, closing, rest, ?_, ht, hc, ?_, ?_⟩
    · rw [List.append_assoc, ← hs, List.take_append_drop]
    · exact List.length_take_of_le hi
    · have hlen := congrArg List.length hs
      simp only [List.length_append, List.length_drop, List.length_take] at hlen ⊢
      omega

theorem Titled.unique {s t t' : Text} {i e e' : ℕ} (h : Titled s i t e) (h' : Titled s i t' e') :
    t = t' := by
  obtain ⟨-, rest, hm, -⟩ := titled_iff.mp h
  obtain ⟨-, rest', hm', -⟩ := titled_iff.mp h'
  rw [hm] at hm'
  exact congrArg Prod.fst (Option.some.inj hm')

/-- Inside a sequence no `ESC` stands before a `]`. -/
theorem no_opening_inside {t closing rest : Text} (ht : ∀ u ∈ t, isTitleUnit u = true)
    (hc : Closing closing) {k : ℕ} (hk : k < 3 + t.length + closing.length)
    (hesc : ([93, 48, 59] ++ t ++ (closing ++ rest))[k]? = some ESC)
    (hnext : ([93, 48, 59] ++ t ++ (closing ++ rest))[k + 1]? = some 93) : False := by
  have hlen : ([93, 48, 59] ++ t).length = 3 + t.length := List.length_append
  rcases Nat.lt_or_ge k ([93, 48, 59] ++ t).length with hbody | hbody
  · rw [List.getElem?_append_left hbody] at hesc
    rcases List.mem_append.mp (List.mem_of_getElem? hesc) with hmem | hmem
    · revert hmem
      decide
    · have hunit := ht ESC hmem
      revert hunit
      decide
  · obtain ⟨m, rfl⟩ := Nat.exists_eq_add_of_le hbody
    rw [List.getElem?_append_right hbody, Nat.add_sub_cancel_left] at hesc
    rw [Nat.add_assoc, List.getElem?_append_right (Nat.le_add_right _ _),
      Nat.add_sub_cancel_left] at hnext
    have hm : m < closing.length := by omega
    rcases hc with rfl | rfl
    · obtain rfl : m = 0 := by simpa using hm
      revert hesc
      simp [BEL, ESC]
    · obtain rfl | rfl : m = 0 ∨ m = 1 := by
        simp only [List.length_cons, List.length_nil] at hm
        omega
      · revert hnext
        simp
      · revert hesc
        simp [ESC]

/-- No sequence begins inside another. -/
theorem matchAt_disjoint {s t rest t' : Text} {j e : ℕ} (h : matchAt s = some (t, rest))
    (h' : Titled s j t' e) : j = 0 ∨ s.length ≤ j + rest.length := by
  obtain ⟨closing, rfl, ht, hc⟩ := matchAt_eq_some h
  obtain ⟨before, closing', rest', hs, -, -, rfl, -⟩ := h'
  by_contra hin
  rw [not_or] at hin
  obtain ⟨hpos, hlt⟩ := hin
  obtain ⟨k, hk⟩ := Nat.exists_eq_succ_of_ne_zero hpos
  have hesc : (opening ++ t ++ closing ++ rest)[before.length]? = some ESC := by
    rw [hs]
    simp [opening]
  have hnext : (opening ++ t ++ closing ++ rest)[before.length + 1]? = some 93 := by
    rw [hs]
    simp [opening]
  have hshape : opening ++ t ++ closing ++ rest = ESC :: ([93, 48, 59] ++ t ++ (closing ++ rest)) := by
    simp [opening]
  simp only [List.length_append] at hlt
  rw [hshape, hk, List.getElem?_cons_succ] at hesc hnext
  have hopening : opening.length = 4 := rfl
  exact no_opening_inside ht hc (by omega) hesc hnext

/-- The title of the last of some sequences, or what it was before where there are none. -/
def LastOr (P : ℕ → Text → ℕ → Prop) (last o : Option Text) : Prop :=
  (o = last ∧ ∀ i t e, ¬ P i t e) ∨
    ∃ i t e, P i t e ∧ (∀ j t' e', P j t' e' → j ≤ i) ∧ o = some t

theorem not_titled_nil (i : ℕ) (t : Text) (e : ℕ) : ¬ Titled [] i t e := by
  rintro ⟨before, closing, rest, hs, -, -, -, -⟩
  simp [opening] at hs

/-- What stands in front of a text adds no sequence to it, or one that is not the last. -/
theorem LastOr.front {front s : Text} {last before o : Option Text}
    (h : LastOr (Titled s) before o)
    (hfront : ∀ j t e, Titled (front ++ s) j t e → j = 0 ∨ front.length ≤ j)
    (hfirst : LastOr (fun i t e => i = 0 ∧ Titled (front ++ s) i t e) last before) :
    LastOr (Titled (front ++ s)) last o := by
  rcases h with ⟨rfl, hnone⟩ | ⟨i, t, e, ht, hmax, rfl⟩
  · have hzero : ∀ j t e, Titled (front ++ s) j t e → j = 0 := by
      intro j t e hj
      rcases hfront j t e hj with h0 | hge
      · exact h0
      · obtain ⟨m, rfl⟩ := Nat.exists_eq_add_of_le hge
        obtain ⟨n, rfl⟩ := Nat.exists_eq_add_of_le (hge.trans hj.le_length.1)
        exact absurd ((titled_append front s m t n).mp hj) (hnone m t n)
    rcases hfirst with ⟨rfl, hno⟩ | ⟨i, t, e, ⟨rfl, ht⟩, -, rfl⟩
    · exact Or.inl ⟨rfl, fun i t e hi => hno i t e ⟨hzero i t e hi, hi⟩⟩
    · exact Or.inr ⟨0, t, e, ht, fun j t' e' hj => (hzero j t' e' hj).le, rfl⟩
  · refine Or.inr ⟨front.length + i, t, front.length + e, (titled_append _ _ _ _ _).mpr ht, ?_, rfl⟩
    intro j t' e' hj
    rcases hfront j t' e' hj with rfl | hge
    · exact Nat.zero_le _
    · obtain ⟨m, rfl⟩ := Nat.exists_eq_add_of_le hge
      obtain ⟨n, rfl⟩ := Nat.exists_eq_add_of_le (hge.trans hj.le_length.1)
      have := hmax m t' n ((titled_append front s m t' n).mp hj)
      omega

theorem scan_last (n : ℕ) : ∀ (last : Option Text) (s : Text), s.length ≤ n →
    LastOr (Titled s) last (scan n last s) := by
  induction n with
  | zero =>
    intro last s hs
    obtain rfl := List.length_eq_zero_iff.mp (Nat.le_zero.mp hs)
    exact Or.inl ⟨rfl, not_titled_nil⟩
  | succ n ih =>
    intro last s hs
    cases s with
    | nil => exact Or.inl ⟨rfl, not_titled_nil⟩
    | cons u s =>
      have hlen : s.length ≤ n := by simpa using hs
      simp only [scan]
      cases hm : matchAt (u :: s) with
      | none =>
        show LastOr (Titled ([u] ++ s)) last (scan n last s)
        refine LastOr.front (ih last s hlen) ?_ (Or.inl ⟨rfl, ?_⟩)
        · intro j _ _ _
          exact (Nat.eq_zero_or_pos j).imp id id
        · rintro i t e ⟨rfl, ht⟩
          obtain ⟨-, rest, hsome, -⟩ := titled_iff.mp ht
          rw [List.drop_zero] at hsome
          exact absurd (hsome.symm.trans hm) (by simp)
      | some found =>
        obtain ⟨title, rest⟩ := found
        obtain ⟨closing, hs', -, -⟩ := matchAt_eq_some hm
        have hshort : rest.length ≤ n := by
          have := congrArg List.length hs'
          simp only [List.length_cons, List.length_append, opening, List.length_nil] at this
          omega
        have hfirst : Titled (u :: s) 0 title ((u :: s).length - rest.length) := by
          refine titled_iff.mpr ⟨Nat.zero_le _, rest, hm, Nat.sub_add_cancel ?_⟩
          rw [hs', List.length_append]
          exact Nat.le_add_left _ _
        dsimp only
        have hdisjoint : ∀ j t e, Titled (u :: s) j t e →
            j = 0 ∨ (u :: s).length ≤ j + rest.length := fun j t e hj => matchAt_disjoint hm hj
        rw [hs'] at hdisjoint hfirst ⊢
        refine LastOr.front (ih (some title) rest hshort) ?_
          (Or.inr ⟨0, title, _, ⟨rfl, hfirst⟩, fun j _ _ hj => hj.1.le, rfl⟩)
        intro j t e hj
        rcases hdisjoint j t e hj with h0 | hge
        · exact Or.inl h0
        · rw [List.length_append] at hge
          exact Or.inr (by omega)

theorem lastTitle_last (s : Text) : LastOr (Titled s) none (lastTitle s) :=
  scan_last s.length none s le_rfl

/-! The detector after a row of chunks. -/

theorem rtake_eq_drop (s : Text) (n : ℕ) : s.rtake n = s.drop (s.length - n) := by
  rw [List.rtake]

/-- Cutting before or after more is put behind is the same, when what is put behind is not cut. -/
theorem rtake_append_rtake (s t : Text) (n : ℕ) : (s.rtake n ++ t).rtake n = (s ++ t).rtake n := by
  simp only [List.rtake]
  rw [List.drop_append, List.drop_append, List.drop_drop, List.length_append, List.length_drop,
    List.length_append]
  congr 2 <;> omega

/-- Once the chunks are pushed the buffer holds the end of the output. -/
theorem pushAll_concat (listening : Bool) (chunks : List Text) (chunk : Text) :
    pushAll listening (chunks ++ [chunk]) = (push listening (pushAll listening chunks) chunk).1 := by
  simp [pushAll]

theorem push_buf (listening : Bool) (d : Detector) (chunk : Text) :
    (push listening d chunk).1.buf = (d.buf ++ chunk).rtake BUF_CAP := by
  unfold push
  generalize (d.buf ++ chunk).rtake BUF_CAP = buf
  dsimp only
  generalize lastTitle buf = o
  cases o with
  | none => rfl
  | some title => rfl

theorem push_busy (listening : Bool) (d : Detector) (chunk : Text) :
    (push listening d chunk).1.busy =
      (lastTitle ((d.buf ++ chunk).rtake BUF_CAP)).elim d.busy isBusyTitle := by
  unfold push
  generalize (d.buf ++ chunk).rtake BUF_CAP = buf
  dsimp only
  generalize lastTitle buf = o
  cases o with
  | none => rfl
  | some title => rfl

theorem pushAll_buf (listening : Bool) (chunks : List Text) :
    (pushAll listening chunks).buf = chunks.flatten.rtake BUF_CAP := by
  induction chunks using List.reverseRecOn with
  | nil => rfl
  | append_singleton chunks chunk ih =>
    rw [pushAll_concat, push_buf, ih, rtake_append_rtake]
    simp

/-- One more chunk catches what the buffer then holds. -/
theorem caught_concat (chunks : List Text) (chunk : Text) (i : ℕ) (t : Text) (e : ℕ) :
    Caught (chunks ++ [chunk]) i t e ↔ Caught chunks i t e ∨
      Titled (chunks ++ [chunk]).flatten i t e ∧
        (chunks ++ [chunk]).flatten.length ≤ i + BUF_CAP := by
  have hflat : (chunks ++ [chunk]).flatten = chunks.flatten ++ chunk := by simp
  constructor
  · rintro ⟨ht, before, after, hsplit, he, hi⟩
    rcases List.eq_nil_or_concat after with rfl | ⟨after, last, rfl⟩
    · rw [List.append_nil] at hsplit
      exact Or.inr ⟨ht, hsplit ▸ hi⟩
    · rw [List.concat_eq_append, ← List.append_assoc] at hsplit
      obtain ⟨rfl, -⟩ := List.append_inj' hsplit rfl
      have hle : e ≤ (before ++ after).flatten.length := by
        rw [List.flatten_append, List.length_append]
        omega
      rw [hflat] at ht
      exact Or.inl ⟨(titled_behind chunk hle).mp ht, before, after, rfl, he, hi⟩
  · rintro (⟨ht, before, after, rfl, he, hi⟩ | ⟨ht, hi⟩)
    · refine ⟨?_, before, after ++ [chunk], by simp, he, hi⟩
      rw [hflat]
      exact (titled_behind chunk ht.le_length.2).mpr ht
    · exact ⟨ht, chunks ++ [chunk], [], by simp, ht.le_length.2, hi⟩

theorem Caught.titled {chunks : List Text} {i e : ℕ} {t : Text} (h : Caught chunks i t e) :
    Titled chunks.flatten i t e := h.1

/-- The detector goes by the last sequence that was caught. -/
theorem pushAll_reads (listening : Bool) (chunks : List Text) :
    Reads (Caught chunks) (pushAll listening chunks).busy := by
  induction chunks using List.reverseRecOn with
  | nil =>
    refine Or.inl ⟨rfl, ?_⟩
    rintro i t e ⟨ht, -⟩
    exact not_titled_nil i t e ht
  | append_singleton chunks chunk ih =>
    have hwindow : ((pushAll listening chunks).buf ++ chunk).rtake BUF_CAP =
        (chunks ++ [chunk]).flatten.drop ((chunks ++ [chunk]).flatten.length - BUF_CAP) := by
      rw [pushAll_buf, rtake_append_rtake, rtake_eq_drop]
      simp
    rw [pushAll_concat, push_busy, hwindow]
    generalize hstream : (chunks ++ [chunk]).flatten = stream
    have hcaught : ∀ i t e, Caught (chunks ++ [chunk]) i t e ↔ Caught chunks i t e ∨
        Titled stream i t e ∧ stream.length ≤ i + BUF_CAP := by
      intro i t e
      rw [caught_concat, hstream]
    have htake : stream.length - BUF_CAP ≤ stream.length := Nat.sub_le _ _
    have hshift : ∀ i t e, Titled (stream.drop (stream.length - BUF_CAP)) i t e ↔
        Titled stream (stream.length - BUF_CAP + i) t (stream.length - BUF_CAP + e) := by
      intro i t e
      have h := titled_append (stream.take (stream.length - BUF_CAP))
        (stream.drop (stream.length - BUF_CAP)) i t e
      rw [List.take_append_drop, List.length_take_of_le htake] at h
      exact h.symm
    rcases lastTitle_last (stream.drop (stream.length - BUF_CAP)) with
      ⟨ho, hnone⟩ | ⟨i, t, e, ht, hmax, ho⟩
    · -- nothing new is caught
      have hsame : ∀ i t e, Caught (chunks ++ [chunk]) i t e ↔ Caught chunks i t e := by
        intro i t e
        rw [hcaught, or_iff_left]
        rintro ⟨ht, hi⟩
        obtain ⟨m, rfl⟩ := Nat.exists_eq_add_of_le (Nat.sub_le_iff_le_add.mpr hi)
        obtain ⟨n, rfl⟩ := Nat.exists_eq_add_of_le
          ((Nat.sub_le_iff_le_add.mpr hi).trans ht.le_length.1)
        exact hnone m t n ((hshift m t n).mpr ht)
      have hP : Caught (chunks ++ [chunk]) = Caught chunks :=
        funext fun i => funext fun t => funext fun e => propext (hsame i t e)
      rw [ho, Option.elim_none, hP]
      exact ih
    · rw [ho, Option.elim_some]
      refine Or.inr ⟨stream.length - BUF_CAP + i, t, stream.length - BUF_CAP + e, ?_, ?_, rfl⟩
      · exact (hcaught _ _ _).mpr (Or.inr ⟨(hshift i t e).mp ht, by omega⟩)
      · intro j t' e' hj
        have hstream' : Titled stream j t' e' := hstream ▸ hj.titled
        rcases Nat.lt_or_ge j (stream.length - BUF_CAP) with hlt | hge
        · omega
        · obtain ⟨m, rfl⟩ := Nat.exists_eq_add_of_le hge
          obtain ⟨n, rfl⟩ := Nat.exists_eq_add_of_le (hge.trans hstream'.le_length.1)
          have := hmax m t' n ((hshift m t' n).mpr hstream')
          omega

theorem Reads.unique {P : ℕ → Text → ℕ → Prop} {b b' : Bool}
    (hP : ∀ i t e t' e', P i t e → P i t' e' → t = t') (h : Reads P b) (h' : Reads P b') :
    b = b' := by
  rcases h with ⟨rfl, hnone⟩ | ⟨i, t, e, ht, hmax, rfl⟩
  · rcases h' with ⟨rfl, -⟩ | ⟨i, t, e, ht, -, -⟩
    · rfl
    · exact absurd ht (hnone i t e)
  · rcases h' with ⟨-, hnone⟩ | ⟨j, t', e', ht', hmax', rfl⟩
    · exact absurd ht (hnone i t e)
    · obtain rfl : i = j := le_antisymm (hmax' i t e ht) (hmax j t' e' ht')
      rw [hP i t e t' e' ht ht']

/-- A chunk is answered with whether it changed what is reported. -/
theorem push_changed (listening : Bool) (d : Detector) (chunk : Text) :
    (push listening d chunk).2.1 = true ↔ (push listening d chunk).1.busy ≠ d.busy := by
  unfold push
  generalize (d.buf ++ chunk).rtake BUF_CAP = buf
  dsimp only
  generalize lastTitle buf = o
  cases o with
  | none => simp [Detector.read]
  | some title => simp [Detector.read]

/-- After any chunks the detector reads what the last title of the whole output says, exactly when
the last one that was caught, within the buffer's reach of a border of the chunks, says the same. -/
theorem busy_iff (listening : Bool) (chunks : List Text) :
    (Reads (Titled chunks.flatten) (pushAll listening chunks).busy ∧
      ∀ d chunk, (push listening d chunk).2.1 = true ↔
        (push listening d chunk).1.busy ≠ d.busy) ↔
      ∃ busy, Reads (Caught chunks) busy ∧ Reads (Titled chunks.flatten) busy := by
  have hcaught := pushAll_reads listening chunks
  constructor
  · rintro ⟨hread, -⟩
    exact ⟨_, hcaught, hread⟩
  · rintro ⟨busy, hlast, hread⟩
    have hsame : (pushAll listening chunks).busy = busy :=
      hcaught.unique (fun i t e t' e' h h' => h.1.unique h'.1) hlast
    exact ⟨hsame ▸ hread, push_changed listening⟩

/-- A spinner is shown and much is written behind it. -/
def flood : Text := opening ++ [0x25d0] ++ [BEL] ++ List.replicate 512 120

theorem flood_first : Titled flood 0 [0x25d0] 6 :=
  ⟨[], [BEL], List.replicate 512 120, rfl, List.forall_mem_singleton.mpr rfl, Or.inl rfl, rfl, rfl⟩

theorem flood_titled {i e : ℕ} {t : Text} (h : Titled flood i t e) : i = 0 ∧ t = [0x25d0] := by
  have hshape : flood = [ESC] ++ flood.tail := by decide +kernel
  cases i with
  | zero => exact ⟨rfl, h.unique flood_first⟩
  | succ i =>
    rw [hshape, Nat.add_comm] at h
    obtain ⟨n, rfl⟩ := Nat.exists_eq_add_of_le ((Nat.le_add_right 1 i).trans h.le_length.1)
    have hrest := (titled_append [ESC] flood.tail i t n).mp h
    rcases lastTitle_last flood.tail with ⟨-, hnone⟩ | ⟨_, _, _, -, -, hsome⟩
    · exact absurd hrest (hnone i t n)
    · rw [show lastTitle flood.tail = none by decide +kernel] at hsome
      cases hsome

theorem flood_missed :
    (∀ i t e, Titled [flood].flatten i t e → t.length ≤ BUF_CAP / 2) ∧
      ¬ Reads (Titled [flood].flatten) (pushAll false [flood]).busy := by
  rw [List.flatten_cons, List.flatten_nil, List.append_nil]
  constructor
  · intro i t e h
    rw [(flood_titled h).2]
    decide
  · have hidle : (pushAll false [flood]).busy = false := by decide +kernel
    rw [hidle]
    rintro (⟨-, hnone⟩ | ⟨i, t, e, ht, -, hbusy⟩)
    · exact hnone 0 [0x25d0] 6 flood_first
    · rw [(flood_titled ht).2] at hbusy
      revert hbusy
      decide

end ClaudeFleet.ActivityDetector
