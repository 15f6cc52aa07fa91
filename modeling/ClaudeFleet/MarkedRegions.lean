import ClaudeFleet.Occurrence

/-! Texts in which some pieces stand between a start and an end marker. The pieces are kept apart by
separators, which no marker can run over, so a region can be taken out and its neighbours stay. -/
namespace ClaudeFleet.Regions
open Occurrence

variable {α κ : Type*} {sep : α} {blank : α → Bool}

/-- A word that a text can be searched for: its first letter is in it once, it holds no separator,
and there is no blank at its ends. -/
structure Marker (sep : α) (blank : α → Bool) where
  first : α
  mid : List α
  last : α
  once : first ∉ mid ++ [last]
  unbroken : sep ∉ mid
  front : blank first = false
  back : blank last = false

def Marker.word (m : Marker sep blank) : List α := m.first :: (m.mid ++ [m.last])

/-- A start and an end marker for each key; no start marker is in another key's marker. -/
structure Markers (κ : Type*) (sep : α) (blank : α → Bool) where
  start : κ → Marker sep blank
  stop : κ → Marker sep blank
  sep_blank : blank sep = true
  starts : ∀ j k, (start j).word <:+: (start k).word → j = k
  stops : ∀ j k, ¬(start j).word <:+: (stop k).word

inductive Part (κ α : Type*)
  | plain (text : List α)
  | region (key : κ) (text : List α)

def Part.key : Part κ α → Option κ
  | .plain _ => none
  | .region k _ => some k

namespace Marker

theorem sep_not_mem (hsep : blank sep = true) (m : Marker sep blank) : sep ∉ m.word := by
  have hne : ∀ c, blank c = false → sep ≠ c := by
    rintro c hc rfl
    rw [hsep] at hc
    cases hc
  rw [word, List.mem_cons, List.mem_append, List.mem_singleton]
  rintro (h | h | h)
  · exact hne _ m.front h
  · exact m.unbroken h
  · exact hne _ m.back h

theorem not_infix_blank (m : Marker sep blank) {w : List α} (hw : ∀ c ∈ w, blank c) :
    ¬m.word <:+: w := by
  intro h
  have hfirst := hw m.first (h.subset List.mem_cons_self)
  rw [m.front] at hfirst
  cases hfirst

/-- Of two markers with one first letter, one can only be in the other at its front. -/
theorem prefix_of_word {m n : Marker sep blank} (hfirst : m.first = n.first)
    (h : m.word <:+: n.word) : m.mid ++ [m.last] <+: n.mid ++ [n.last] := by
  rw [word, word, hfirst] at h
  exact prefix_of_infix_head n.once h

theorem rdropWhile_word (m : Marker sep blank) (a : List α) :
    (a ++ m.word).rdropWhile blank = a ++ m.word := by
  have h := rdropWhile_append_last m.back (a ++ [m.first]) m.mid
  simpa [word] using h

theorem cut_word [DecidableEq α] (m : Marker sep blank) {a : List α} (ha : ¬m.word <:+: a)
    (b : List α) : cut m.word (a ++ (m.word ++ b)) = some (a, b) := by
  have hno : ∀ t, t ≠ [] → t <:+ a → ¬m.word <+: t ++ (m.word ++ b) := by
    rintro t ht hta ⟨u, hu⟩
    rcases List.append_eq_append_iff.mp hu with ⟨c, rfl, -⟩ | ⟨c, hc, hrest⟩
    · exact ha ((List.prefix_append m.word c).isInfix.trans hta.isInfix)
    · obtain ⟨x, t, rfl⟩ := List.exists_cons_of_ne_nil ht
      cases c with
      | nil =>
        rw [List.append_nil] at hc
        rw [hc] at ha
        exact ha hta.isInfix
      | cons y c =>
        have hy : m.first = y := (List.cons.inj hrest).1
        have hmem : m.mid ++ [m.last] = t ++ y :: c := (List.cons.inj hc).2
        exact m.once (hmem ▸ hy ▸ by simp)
  rw [cut_append hno, cut_self]
  simp

end Marker

/-! Pieces, each after a number of separators. -/

/-- Another number of separators before the first piece. -/
def closeGap (gap : ℕ) : List (ℕ × Part κ α) → List (ℕ × Part κ α)
  | [] => []
  | (_, p) :: ps => (gap, p) :: ps

theorem map_closeGap (gap : ℕ) (ps : List (ℕ × Part κ α)) :
    (closeGap gap ps).map Prod.snd = ps.map Prod.snd := by
  cases ps <;> rfl

theorem mem_closeGap {gap : ℕ} {ps : List (ℕ × Part κ α)} {q : ℕ × Part κ α}
    (h : q ∈ closeGap gap ps) : ∃ p ∈ ps, p.2 = q.2 := by
  have hmem := List.mem_map_of_mem (f := Prod.snd) h
  rw [map_closeGap] at hmem
  exact List.mem_map.mp hmem

/-- The pieces without those of a key; what follows comes one separator after what is before. -/
def erase [DecidableEq κ] (k : κ) : List (ℕ × Part κ α) → List (ℕ × Part κ α)
  | [] => []
  | (gap, p) :: ps => if p.key = some k then closeGap 1 ps else (gap, p) :: erase k ps

def Part.trimStart (blank : α → Bool) : Part κ α → Part κ α
  | .plain t => .plain (t.dropWhile blank)
  | .region k t => .region k t

/-- The pieces without the blanks in front of them. -/
def trimFront (blank : α → Bool) : List (ℕ × Part κ α) → List (ℕ × Part κ α)
  | [] => []
  | (_, p) :: ps => (0, p.trimStart blank) :: ps

@[simp] theorem trimFront_trimFront (ps : List (ℕ × Part κ α)) :
    trimFront blank (trimFront blank ps) = trimFront blank ps := by
  cases ps with
  | nil => rfl
  | cons p ps =>
    obtain ⟨gap, t | ⟨k, t⟩⟩ := p <;> simp [trimFront, Part.trimStart, List.dropWhile_idempotent]

@[simp] theorem trimFront_closeGap (gap : ℕ) (ps : List (ℕ × Part κ α)) :
    trimFront blank (closeGap gap ps) = trimFront blank ps := by
  cases ps <;> rfl

section erase
variable [DecidableEq κ]

theorem erase_of_not_mem {k : κ} {ps : List (ℕ × Part κ α)}
    (h : ∀ p ∈ ps, p.2.key ≠ some k) : erase k ps = ps := by
  induction ps with
  | nil => rfl
  | cons p ps ih =>
    rw [erase, if_neg (h p List.mem_cons_self), ih fun q hq => h q (List.mem_cons_of_mem _ hq)]

theorem erase_append {k : κ} {xs ys : List (ℕ × Part κ α)} {p : ℕ × Part κ α}
    (hxs : ∀ q ∈ xs, q.2.key ≠ some k) (hp : p.2.key = some k) :
    erase k (xs ++ p :: ys) = xs ++ closeGap 1 ys := by
  induction xs with
  | nil => exact if_pos hp
  | cons q xs ih =>
    rw [List.cons_append, erase, if_neg (hxs q List.mem_cons_self),
      ih fun r hr => hxs r (List.mem_cons_of_mem _ hr)]
    rfl

end erase

section strip
variable [DecidableEq α]

/-- Each region, from its start marker to the next end marker, becomes one separator, with the
separators around it. A region is at least a letter long. -/
def strip (sep : α) (start stop : List α) : ℕ → List α → List α
  | 0, text => text
  | fuel + 1, text =>
    match cut start text with
    | none => text
    | some (before, rest) =>
      match cut stop rest with
      | none => text
      | some (_, after) =>
        before.rdropWhile (· == sep) ++
          sep :: strip sep start stop fuel (after.dropWhile (· == sep))

theorem strip_of_not_infix {start stop text : List α} (h : ¬start <:+: text) (fuel : ℕ) :
    strip sep start stop fuel text = text := by
  cases fuel with
  | zero => rfl
  | succ fuel => rw [strip, cut_eq_none h]

end strip

namespace Markers
variable (M : Markers κ sep blank)

/-- No marker is in the text. -/
def Free (text : List α) : Prop :=
  ∀ k, ¬(M.start k).word <:+: text ∧ ¬(M.stop k).word <:+: text

def text : Part κ α → List α
  | .plain t => t
  | .region k t => (M.start k).word ++ sep :: (t ++ sep :: (M.stop k).word)

def join : List (ℕ × Part κ α) → List α
  | [] => []
  | (gap, p) :: ps => List.replicate gap sep ++ (M.text p ++ join ps)

def Sound : Part κ α → Prop
  | .plain t => M.Free t ∧ t ≠ [] ∧ t.rdropWhile blank = t
  | .region _ t => M.Free t

/-- Pieces that stand apart, with one region at most for each key. -/
structure Laid (ps : List (ℕ × Part κ α)) : Prop where
  sound : ∀ p ∈ ps, M.Sound p.2
  apart : ∀ p ∈ ps.tail, 1 ≤ p.1 ∧ (M.text p.2).head? ≠ some sep
  keys : (ps.filterMap (·.2.key)).Nodup

/-- Blanks that follow the pieces, a separator first. -/
def After (_ : Markers κ sep blank) (ps : List (ℕ × Part κ α)) (w : List α) : Prop :=
  (∀ c ∈ w, blank c) ∧ (ps = [] ∨ w = [] ∨ w.head? = some sep)

/-- The text without the regions of a key. -/
def erased [DecidableEq α] (k : κ) (text : List α) : List α :=
  strip sep (M.start k).word (M.stop k).word text.length text

variable {M}

theorem join_append (xs ys : List (ℕ × Part κ α)) : M.join (xs ++ ys) = M.join xs ++ M.join ys := by
  induction xs with
  | nil => rfl
  | cons p xs ih => simp [join, ih]

namespace Laid
variable {ps xs ys : List (ℕ × Part κ α)} {p : ℕ × Part κ α}

theorem tail (h : M.Laid (p :: ps)) : M.Laid ps := by
  refine ⟨fun q hq => h.sound q (List.mem_cons_of_mem _ hq),
    fun q hq => h.apart q (List.mem_of_mem_tail hq), ?_⟩
  exact h.keys.sublist ((List.sublist_cons_self p ps).filterMap _)

theorem left (h : M.Laid (xs ++ ys)) : M.Laid xs := by
  refine ⟨fun q hq => h.sound q (List.mem_append_left _ hq), fun q hq => h.apart q ?_,
    h.keys.sublist ((List.sublist_append_left xs ys).filterMap _)⟩
  cases xs with
  | nil => cases hq
  | cons x xs => exact List.mem_append_left _ hq

theorem right (h : M.Laid (xs ++ ys)) : M.Laid ys := by
  induction xs with
  | nil => exact h
  | cons x xs ih => exact ih h.tail

theorem closeGap (h : M.Laid ps) (gap : ℕ) : M.Laid (closeGap gap ps) := by
  cases ps with
  | nil => exact h
  | cons p ps =>
    refine ⟨fun q hq => ?_, h.apart, h.keys⟩
    obtain ⟨r, hr, heq⟩ := mem_closeGap hq
    exact heq ▸ h.sound r hr

end Laid

/-- What follows a piece is nothing, or begins with a separator. -/
theorem after_tail {p : ℕ × Part κ α} {ps : List (ℕ × Part κ α)} {w : List α}
    (h : M.Laid (p :: ps)) (hw : M.After (p :: ps) w) :
    M.After ps w ∧ (M.join ps ++ w = [] ∨ ∃ v, M.join ps ++ w = sep :: v) := by
  obtain ⟨hblank, hp | hnil | hhead⟩ := hw
  · cases hp
  · refine ⟨⟨hblank, .inr (.inl hnil)⟩, ?_⟩
    cases ps with
    | nil => exact .inl (by simp [join, hnil])
    | cons q ps =>
      obtain ⟨g, hg⟩ := Nat.exists_eq_add_of_le (h.apart q List.mem_cons_self).1
      exact .inr ⟨_, by rw [join, hg, Nat.add_comm, List.replicate_succ]; rfl⟩
  · refine ⟨⟨hblank, .inr (.inr hhead)⟩, ?_⟩
    cases ps with
    | nil =>
      obtain ⟨v, hv⟩ := List.head?_eq_some_iff.mp hhead
      exact .inr ⟨v, by simp [join, hv]⟩
    | cons q ps =>
      obtain ⟨g, hg⟩ := Nat.exists_eq_add_of_le (h.apart q List.mem_cons_self).1
      exact .inr ⟨_, by rw [join, hg, Nat.add_comm, List.replicate_succ]; rfl⟩

theorem text_avoids {k : κ} {p : Part κ α} (hp : M.Sound p) (hk : p.key ≠ some k) :
    ¬(M.start k).word <:+: M.text p := by
  cases p with
  | plain t => exact (hp.1 k).1
  | region j t =>
    have hsep := (M.start k).sep_not_mem M.sep_blank
    rw [text, infix_sep hsep, infix_sep hsep]
    rintro (h | h | h)
    · exact hk (congrArg some (M.starts k j h).symm)
    · exact (hp k).1 h
    · exact M.stops k j h

/-- A start marker is nowhere but at its own region. -/
theorem join_avoids {k : κ} {ps : List (ℕ × Part κ α)} {w : List α} (h : M.Laid ps)
    (hw : M.After ps w) (hk : ∀ p ∈ ps, p.2.key ≠ some k) :
    ¬(M.start k).word <:+: M.join ps ++ w := by
  have hsep := (M.start k).sep_not_mem M.sep_blank
  induction ps with
  | nil => exact (M.start k).not_infix_blank hw.1
  | cons p ps ih =>
    obtain ⟨hw', hnext⟩ := after_tail h hw
    have hrest := ih h.tail hw' fun q hq => hk q (List.mem_cons_of_mem _ hq)
    have htext := text_avoids (h.sound p List.mem_cons_self) (hk p List.mem_cons_self)
    rw [join, List.append_assoc, infix_replicate hsep, List.append_assoc]
    rintro (hnil | hinfix)
    · cases hnil
    · obtain hnext | ⟨v, hv⟩ := hnext
      · rw [hnext, List.append_nil] at hinfix
        exact htext hinfix
      · rw [hv, infix_sep hsep] at hinfix
        rw [hv] at hrest
        exact hinfix.elim htext fun hin => hrest (hin.trans (List.suffix_cons sep v).isInfix)

theorem text_ne_nil {p : Part κ α} (hp : M.Sound p) : M.text p ≠ [] := by
  cases p with
  | plain t => exact hp.2.1
  | region k t => simp [text, Marker.word]

theorem text_closed {p : Part κ α} (hp : M.Sound p) (a : List α) :
    (a ++ M.text p).rdropWhile blank = a ++ M.text p := by
  cases p with
  | plain t =>
    obtain ⟨-, hne, hclosed⟩ := hp
    rw [text, List.rdropWhile_eq_self_iff] at *
    intro hne'
    rw [List.getLast_append_of_right_ne_nil _ _ hne]
    exact hclosed hne
  | region k t =>
    have hword := (M.stop k).rdropWhile_word (a ++ (M.start k).word ++ sep :: (t ++ [sep]))
    simpa [text] using hword

theorem join_closed {ps : List (ℕ × Part κ α)} (h : M.Laid ps) :
    (M.join ps).rdropWhile blank = M.join ps := by
  rcases List.eq_nil_or_concat' ps with rfl | ⟨xs, p, rfl⟩
  · rfl
  · have hp := h.sound p (by simp)
    have hsplit : M.join (xs ++ [p]) = (M.join xs ++ List.replicate p.1 sep) ++ M.text p.2 := by
      simp [join_append, join]
    rw [hsplit]
    exact text_closed hp _

theorem rdropWhile_join {ps : List (ℕ × Part κ α)} {w : List α} (h : M.Laid ps)
    (hw : ∀ c ∈ w, blank c) : (M.join ps ++ w).rdropWhile blank = M.join ps := by
  rw [rdropWhile_append_of_pos hw, join_closed h]

theorem rdropWhile_sep {ps : List (ℕ × Part κ α)} [DecidableEq α] (h : M.Laid ps) (gap : ℕ) :
    (M.join ps ++ List.replicate gap sep).rdropWhile (· == sep) = M.join ps := by
  rw [rdropWhile_append_of_pos fun c hc => by simp [List.eq_of_mem_replicate hc],
    List.rdropWhile_eq_self_iff]
  intro hne hlast
  refine (List.rdropWhile_eq_self_iff.mp (join_closed h)) hne ?_
  rw [beq_iff_eq.mp hlast]
  exact M.sep_blank

/-! Taking a region out. -/

section erase
variable [DecidableEq κ] {ps : List (ℕ × Part κ α)}

theorem Laid.split (h : M.Laid ps) (k : κ) :
    (∀ p ∈ ps, p.2.key ≠ some k) ∨ ∃ xs gap t ys, ps = xs ++ (gap, .region k t) :: ys ∧
      (∀ p ∈ xs, p.2.key ≠ some k) ∧ ∀ p ∈ ys, p.2.key ≠ some k := by
  induction ps with
  | nil => exact .inl (by simp)
  | cons p ps ih =>
    by_cases hp : p.2.key = some k
    · obtain ⟨gap, t | ⟨j, t⟩⟩ := p
      · cases hp
      · obtain rfl : j = k := Option.some.inj hp
        refine .inr ⟨[], gap, t, ps, rfl, by simp, fun q hq hqk => ?_⟩
        have hkeys : (j :: ps.filterMap (·.2.key)).Nodup := h.keys
        exact (List.nodup_cons.mp hkeys).1 (List.mem_filterMap.mpr ⟨q, hq, hqk⟩)
    · obtain hnone | ⟨xs, gap, t, ys, rfl, hxs, hys⟩ := ih h.tail
      · exact .inl (List.forall_mem_cons.mpr ⟨hp, hnone⟩)
      · exact .inr ⟨p :: xs, gap, t, ys, rfl, List.forall_mem_cons.mpr ⟨hp, hxs⟩, hys⟩

theorem Laid.erase (h : M.Laid ps) (k : κ) : M.Laid (erase k ps) := by
  obtain hnone | ⟨xs, gap, t, ys, rfl, hxs, -⟩ := h.split k
  · rw [erase_of_not_mem hnone]
    exact h
  · rw [erase_append hxs rfl]
    refine ⟨fun q hq => ?_, fun q hq => ?_, ?_⟩
    · obtain hq | hq := List.mem_append.mp hq
      · exact h.left.sound q hq
      · exact (h.right.tail.closeGap 1).sound q hq
    · cases xs with
      | nil =>
        refine h.apart q ?_
        cases ys with
        | nil => cases hq
        | cons y ys => exact List.mem_cons_of_mem _ hq
      | cons x xs =>
        obtain hq | hq := List.mem_append.mp hq
        · exact h.apart q (List.mem_append_left _ hq)
        · cases ys with
          | nil => cases hq
          | cons y ys =>
            have hy := h.apart y (by simp)
            obtain rfl | hq := List.mem_cons.mp hq
            · exact ⟨le_rfl, hy.2⟩
            · exact h.apart q (by simp [hq])
    · have hsub : ((xs ++ Regions.closeGap 1 ys).map Prod.snd).Sublist
          ((xs ++ (gap, Part.region k t) :: ys).map Prod.snd) := by
        rw [List.map_append, map_closeGap, List.map_append, List.map_cons]
        exact (List.sublist_cons_self _ _).append_left _
      have hkeys := h.keys
      have hfun : ∀ l : List (ℕ × Part κ α),
          l.filterMap (·.2.key) = (l.map Prod.snd).filterMap Part.key := by
        intro l
        rw [List.filterMap_map]
        rfl
      rw [hfun] at hkeys ⊢
      exact hkeys.sublist (hsub.filterMap _)

end erase

section erased
variable [DecidableEq α] {k : κ} {ps : List (ℕ × Part κ α)} {w : List α}

theorem cut_stop {t b : List α} (ht : M.Free t) :
    cut (M.stop k).word (sep :: (t ++ sep :: ((M.stop k).word ++ b))) =
      some (sep :: (t ++ [sep]), b) := by
  have hsep := (M.stop k).sep_not_mem M.sep_blank
  have hword : ¬(M.stop k).word <:+: [] := by
    simp [Marker.word]
  have hfront : ¬(M.stop k).word <:+: sep :: (t ++ [sep]) := by
    rw [show sep :: (t ++ [sep]) = [] ++ sep :: (t ++ sep :: []) by simp, infix_sep hsep,
      infix_sep hsep, not_or, not_or]
    exact ⟨hword, (ht k).2, hword⟩
  have hcut := (M.stop k).cut_word hfront b
  simpa using hcut

theorem dropWhile_sep {p : ℕ × Part κ α} (h : M.Laid (p :: ps))
    (hhead : (M.text p.2).head? ≠ some sep) :
    (M.join (p :: ps) ++ w).dropWhile (· == sep) = M.join (closeGap 0 (p :: ps)) ++ w := by
  obtain ⟨c, l, hc⟩ := List.exists_cons_of_ne_nil (text_ne_nil (h.sound p List.mem_cons_self))
  rw [hc] at hhead
  rw [join, List.append_assoc,
    List.dropWhile_append_of_pos fun c hc => by simp [List.eq_of_mem_replicate hc]]
  have hne : (c == sep) = false := by simpa using hhead
  simp [closeGap, join, hc, hne]

variable [DecidableEq κ]

/-- Taking a key's region out of laid pieces leaves the others laid. -/
theorem erased_join (h : M.Laid ps) (hw : M.After ps w) :
    ∃ w', M.After (Regions.erase k ps) w' ∧
      M.erased k (M.join ps ++ w) = M.join (Regions.erase k ps) ++ w' := by
  obtain hnone | ⟨xs, gap, t, ys, rfl, hxs, hys⟩ := h.split k
  · rw [erase_of_not_mem hnone]
    exact ⟨w, hw, strip_of_not_infix (join_avoids h hw hnone) _⟩
  · rw [erase_append hxs rfl]
    have hafter : M.After xs (List.replicate gap sep) := by
      refine ⟨fun c hc => List.eq_of_mem_replicate hc ▸ M.sep_blank, .inr ?_⟩
      cases gap with
      | zero => exact .inl rfl
      | succ gap => exact .inr rfl
    have ht : M.Free t := h.sound (gap, .region k t) (by simp)
    have hcut := (M.start k).cut_word (join_avoids h.left hafter hxs)
      (sep :: (t ++ sep :: ((M.stop k).word ++ (M.join ys ++ w))))
    have htext : M.join (xs ++ (gap, .region k t) :: ys) ++ w = (M.join xs ++
        List.replicate gap sep) ++ ((M.start k).word ++ (sep :: (t ++ sep ::
          ((M.stop k).word ++ (M.join ys ++ w))))) := by
      simp [join_append, join, text]
    obtain ⟨fuel, hfuel⟩ : ∃ fuel, (M.join (xs ++ (gap, .region k t) :: ys) ++ w).length =
        fuel + 1 := by
      refine Nat.exists_eq_succ_of_ne_zero ?_
      rw [htext]
      simp [Marker.word]
    rw [erased, hfuel, strip, htext, hcut]
    dsimp only
    rw [cut_stop ht]
    dsimp only
    rw [rdropWhile_sep h.left]
    cases ys with
    | nil =>
      have hblank : ∀ c ∈ w.dropWhile (· == sep), blank c :=
        fun c hc => hw.1 c ((List.dropWhile_sublist _).subset hc)
      refine ⟨sep :: w.dropWhile (· == sep),
        ⟨List.forall_mem_cons.mpr ⟨M.sep_blank, hblank⟩, .inr (.inr rfl)⟩, ?_⟩
      rw [join, List.nil_append, strip_of_not_infix ((M.start k).not_infix_blank hblank)]
      simp [closeGap]
    | cons q ys =>
      have hq := h.right.apart q List.mem_cons_self
      have hne : xs ++ (gap, Part.region k t) :: q :: ys ≠ [] := by simp
      have hw' : w = [] ∨ w.head? = some sep := hw.2.resolve_left hne
      have hys' : ∀ r ∈ closeGap 0 (q :: ys), r.2.key ≠ some k := by
        intro r hr
        obtain ⟨r', hr', heq⟩ := mem_closeGap hr
        exact heq ▸ hys r' hr'
      refine ⟨w, ⟨hw.1, .inr hw'⟩, ?_⟩
      rw [dropWhile_sep h.right.tail hq.2,
        strip_of_not_infix (join_avoids (h.right.tail.closeGap 0) ⟨hw.1, .inr hw'⟩ hys')]
      simp [join_append, join, closeGap]

end erased

/-! Trimming, and placing a region. -/

section place
variable {ps : List (ℕ × Part κ α)} {k : κ} {t : List α}

theorem Sound.exists_solid (h : M.Sound (.plain t : Part κ α)) : ∃ c ∈ t, blank c = false := by
  obtain ⟨-, hne, hclosed⟩ := h
  exact ⟨t.getLast hne, List.getLast_mem hne,
    by simpa using List.rdropWhile_eq_self_iff.mp hclosed hne⟩

theorem Sound.trimStart {p : Part κ α} (h : M.Sound p) : M.Sound (p.trimStart blank) := by
  cases p with
  | region k t => exact h
  | plain t =>
    obtain ⟨c, hc, hsolid⟩ := Sound.exists_solid h
    have hsuffix := List.dropWhile_suffix blank (l := t)
    have hne : t.dropWhile blank ≠ [] := by
      rw [Ne, List.dropWhile_eq_nil_iff]
      intro hall
      rw [hall c hc] at hsolid
      cases hsolid
    refine ⟨fun j => ⟨fun hin => (h.1 j).1 (hin.trans hsuffix.isInfix),
      fun hin => (h.1 j).2 (hin.trans hsuffix.isInfix)⟩, hne, ?_⟩
    rw [List.rdropWhile_eq_self_iff]
    intro hne'
    have hlast := List.rdropWhile_eq_self_iff.mp h.2.2 h.2.1
    rwa [← hsuffix.getLast hne'] at hlast

theorem head_trimStart (p : Part κ α) :
    ∀ c ∈ (M.text (p.trimStart blank)).head?, blank c = false := by
  intro c hc
  cases p with
  | plain t =>
    have hhead := List.head?_dropWhile_not blank t
    rw [Part.trimStart, text, Option.mem_def] at hc
    rwa [hc] at hhead
  | region k t =>
    obtain rfl : (M.start k).first = c := by simpa [Part.trimStart, text, Marker.word] using hc
    exact (M.start k).front

theorem Laid.trimFront (h : M.Laid ps) : M.Laid (trimFront blank ps) := by
  cases ps with
  | nil => exact h
  | cons p ps =>
    refine ⟨List.forall_mem_cons.mpr ⟨(h.sound p List.mem_cons_self).trimStart,
      h.tail.sound⟩, h.apart, ?_⟩
    obtain ⟨gap, t | ⟨k, t⟩⟩ := p
    · exact h.keys
    · exact h.keys

theorem dropWhile_join (h : M.Laid ps) :
    (M.join ps).dropWhile blank = M.join (trimFront blank ps) := by
  cases ps with
  | nil => rfl
  | cons p ps =>
    obtain ⟨gap, t | ⟨k, t⟩⟩ := p
    · rw [join, text, List.dropWhile_append_of_pos
          fun c hc => List.eq_of_mem_replicate hc ▸ M.sep_blank,
        dropWhile_append_of_not (Sound.exists_solid (h.sound _ List.mem_cons_self))]
      rfl
    · rw [join, List.dropWhile_append_of_pos
          fun c hc => List.eq_of_mem_replicate hc ▸ M.sep_blank]
      have hfront := (M.start k).front
      simp [trimFront, Part.trimStart, join, text, Marker.word, hfront]

theorem Laid.concat (h : M.Laid ps) (ht : M.Free t) (hk : ∀ p ∈ ps, p.2.key ≠ some k) {gap : ℕ}
    (hgap : ps = [] ∨ 1 ≤ gap) : M.Laid (ps ++ [(gap, .region k t)]) := by
  refine ⟨fun q hq => ?_, fun q hq => ?_, ?_⟩
  · obtain hq | hq := List.mem_append.mp hq
    · exact h.sound q hq
    · obtain rfl := List.mem_singleton.mp hq
      exact ht
  · cases ps with
    | nil => cases hq
    | cons p ps =>
      obtain hq | hq := List.mem_append.mp hq
      · exact h.apart q hq
      · obtain rfl := List.mem_singleton.mp hq
        refine ⟨hgap.resolve_left (by simp), ?_⟩
        have hfront := (M.start k).front
        have hne : (M.start k).first ≠ sep := fun heq => by
          rw [heq, M.sep_blank] at hfront
          cases hfront
        simpa [text, Marker.word] using hne
  · rw [List.filterMap_append, List.nodup_append']
    refine ⟨h.keys, by simp [Part.key], ?_⟩
    intro j hj hjk
    obtain ⟨p, hp, hpk⟩ := List.mem_filterMap.mp hj
    obtain rfl : j = k := by simpa [Part.key] using hjk
    exact hk p hp hpk

theorem Laid.cons (h : M.Laid ps) (ht : M.Free t) (hk : ∀ p ∈ ps, p.2.key ≠ some k)
    (hhead : ∀ p ∈ ps.head?, (M.text p.2).head? ≠ some sep) {gap : ℕ} (hgap : 1 ≤ gap) :
    M.Laid ((0, .region k t) :: Regions.closeGap gap ps) := by
  refine ⟨List.forall_mem_cons.mpr ⟨ht, (h.closeGap gap).sound⟩, fun q hq => ?_, ?_⟩
  · cases ps with
    | nil => cases hq
    | cons p ps =>
      obtain rfl | hq := List.mem_cons.mp hq
      · exact ⟨hgap, hhead p rfl⟩
      · exact h.apart q hq
  · refine List.nodup_cons.mpr ⟨fun hmem => ?_, (h.closeGap gap).keys⟩
    obtain ⟨q, hq, hqk⟩ := List.mem_filterMap.mp hmem
    obtain ⟨p, hp, heq⟩ := mem_closeGap hq
    exact hk p hp (heq ▸ hqk)

theorem join_eq_nil (h : M.Laid ps) : M.join ps = [] ↔ ps = [] := by
  constructor
  · intro hjoin
    cases ps with
    | nil => rfl
    | cons p ps =>
      rw [join, List.append_eq_nil_iff, List.append_eq_nil_iff] at hjoin
      exact absurd hjoin.2.1 (text_ne_nil (h.sound p List.mem_cons_self))
  · rintro rfl
    rfl

/-- Trimming takes the blanks before the first piece and after the last one. -/
theorem trim_join (h : M.Laid ps) {w : List α} (hw : ∀ c ∈ w, blank c) :
    ((M.join ps ++ w).dropWhile blank).rdropWhile blank = M.join (trimFront blank ps) := by
  have hfront : (M.join ps ++ w).dropWhile blank = (M.join ps).dropWhile blank ++ w ∨
      (M.join ps ++ w).dropWhile blank = [] ∧ ps = [] := by
    by_cases hps : ps = []
    · refine .inr ⟨?_, hps⟩
      rw [hps, join, List.nil_append, List.dropWhile_eq_nil_iff]
      exact hw
    · have hne : M.join ps ≠ [] := fun hnil => hps ((join_eq_nil h).mp hnil)
      refine .inl (dropWhile_append_of_not ⟨_, List.getLast_mem hne, ?_⟩ w)
      simpa using List.rdropWhile_eq_self_iff.mp (join_closed h) hne
  obtain hfront | ⟨hfront, rfl⟩ := hfront
  · rw [hfront, dropWhile_join h, rdropWhile_join h.trimFront hw]
  · rw [hfront]
    rfl

end place

/-! What the pieces hold. -/

end Markers

def Part.plain? : Part κ α → Option (List α)
  | .plain t => some t
  | .region _ _ => none

def Part.region? [DecidableEq κ] (k : κ) : Part κ α → Option (List α)
  | .plain _ => none
  | .region j t => if j = k then some t else none

/-- The texts outside the regions. -/
def plains (ps : List (ℕ × Part κ α)) : List (List α) := (ps.map Prod.snd).filterMap Part.plain?

/-- The text of a key's region. -/
def content [DecidableEq κ] (k : κ) (ps : List (ℕ × Part κ α)) : Option (List α) :=
  (ps.map Prod.snd).findSome? (Part.region? k)

section content
variable [DecidableEq κ] {M : Markers κ sep blank} {ps : List (ℕ × Part κ α)} {k : κ}

theorem content_eq_none : content k ps = none ↔ ∀ p ∈ ps, p.2.key ≠ some k := by
  simp only [content, List.findSome?_eq_none_iff, List.forall_mem_map]
  refine forall₂_congr fun p _ => ?_
  obtain ⟨gap, t | ⟨j, t⟩⟩ := p <;> simp [Part.region?, Part.key]

theorem map_erase (h : M.Laid ps) (k : κ) :
    (erase k ps).map Prod.snd = (ps.map Prod.snd).filter fun p => p.key ≠ some k := by
  have hkeep : ∀ l : List (ℕ × Part κ α), (∀ p ∈ l, p.2.key ≠ some k) →
      (l.map Prod.snd).filter (fun p => p.key ≠ some k) = l.map Prod.snd := by
    intro l hl
    rw [List.filter_eq_self, List.forall_mem_map]
    exact fun p hp => decide_eq_true (hl p hp)
  obtain hnone | ⟨xs, gap, t, ys, rfl, hxs, hys⟩ := h.split k
  · rw [erase_of_not_mem hnone, hkeep ps hnone]
  · rw [erase_append hxs rfl, List.map_append, map_closeGap, List.map_append, List.filter_append,
      hkeep xs hxs, List.map_cons, List.filter_cons_of_neg (by simp [Part.key]), hkeep ys hys]

theorem plains_erase (h : M.Laid ps) (k : κ) : plains (erase k ps) = plains ps := by
  rw [plains, map_erase h, List.filterMap_filter, plains]
  refine List.filterMap_congr fun p _ => ?_
  cases p <;> simp [Part.key, Part.plain?]

theorem content_erase (h : M.Laid ps) (k j : κ) :
    content j (erase k ps) = if j = k then none else content j ps := by
  split_ifs with hj
  · rw [content_eq_none]
    intro p hp
    have hmem := List.mem_map_of_mem (f := Prod.snd) hp
    rw [map_erase h] at hmem
    simpa [hj] using (List.mem_filter.mp hmem).2
  · rw [content, map_erase h, content]
    induction ps.map Prod.snd with
    | nil => rfl
    | cons p l ih =>
      by_cases hp : p.key = some k
      · rw [List.filter_cons_of_neg (by simpa using hp), ih, List.findSome?_cons]
        cases p with
        | plain t => cases hp
        | region i t =>
          obtain rfl : i = k := Option.some.inj hp
          simp [Part.region?, Ne.symm hj]
      · rw [List.filter_cons_of_pos (by simpa using hp), List.findSome?_cons, List.findSome?_cons,
          ih]

theorem content_concat (hk : ∀ p ∈ ps, p.2.key ≠ some k) (gap : ℕ) (t : List α) (j : κ) :
    content j (ps ++ [(gap, .region k t)]) = if j = k then some t else content j ps := by
  rw [content, List.map_append, List.findSome?_append]
  split_ifs with hj
  · subst hj
    have hnone : (ps.map Prod.snd).findSome? (Part.region? j) = none := content_eq_none.mpr hk
    simp [hnone, Part.region?]
  · simp [content, Part.region?, Ne.symm hj]

theorem content_cons (gap gap' : ℕ) (t : List α) (j : κ) :
    content j ((gap', .region k t) :: closeGap gap ps) =
      if j = k then some t else content j ps := by
  rw [content, List.map_cons, map_closeGap, List.findSome?_cons]
  split_ifs with hj
  · simp [Part.region?, hj]
  · simp [content, Part.region?, Ne.symm hj]

theorem plains_concat (gap : ℕ) (t : List α) :
    plains (ps ++ [(gap, .region k t)]) = plains ps := by
  simp [plains, Part.plain?]

theorem plains_cons (gap gap' : ℕ) (t : List α) :
    plains ((gap', .region k t) :: closeGap gap ps) = plains ps := by
  rw [plains, List.map_cons, map_closeGap]
  rfl

theorem content_trimFront (j : κ) : content j (trimFront blank ps) = content j ps := by
  cases ps with
  | nil => rfl
  | cons p ps => obtain ⟨gap, t | ⟨i, t⟩⟩ := p <;> rfl

end content
end ClaudeFleet.Regions
