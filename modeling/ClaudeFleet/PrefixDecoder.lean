import Mathlib.Tactic

/-! Decoders that read one item at a time off the front of a buffer, and never change their mind
when more input arrives. What they read does not depend on how the input is cut into pieces. -/
namespace ClaudeFleet.PrefixDecoder

variable {α β ε : Type*}

inductive Head (α β ε : Type*)
  | more
  | bad (error : ε)
  | item (value : β) (rest : List α)

structure Stable (head : List α → Head α β ε) : Prop where
  bad : ∀ xs e ys, head xs = .bad e → head (xs ++ ys) = .bad e
  item : ∀ xs b rest ys, head xs = .item b rest → head (xs ++ ys) = .item b (rest ++ ys)

/-- Reading items off `xs` gives the list `bs` and stops at `rest`: at a malformed item (`e`), or
where more input is needed. -/
inductive Reads (head : List α → Head α β ε) : List α → List β → Option ε → List α → Prop
  | more {xs} (h : head xs = .more) : Reads head xs [] none xs
  | bad {xs e} (h : head xs = .bad e) : Reads head xs [] (some e) xs
  | item {xs b rest bs e left} (h : head xs = .item b rest) (hr : Reads head rest bs e left) :
      Reads head xs (b :: bs) e left

variable {head : List α → Head α β ε}

theorem Reads.unique {xs left left' : List α} {bs bs' : List β} {e e' : Option ε}
    (h : Reads head xs bs e left) (h' : Reads head xs bs' e' left') :
    bs = bs' ∧ e = e' ∧ left = left' := by
  induction h generalizing bs' e' left' with
  | more hm =>
    cases h' with
    | more _ => exact ⟨rfl, rfl, rfl⟩
    | bad hb => cases hm.symm.trans hb
    | item hi _ => cases hm.symm.trans hi
  | bad hb =>
    cases h' with
    | more hm => cases hb.symm.trans hm
    | bad hb' =>
      cases hb.symm.trans hb'
      exact ⟨rfl, rfl, rfl⟩
    | item hi _ => cases hb.symm.trans hi
  | item hi _ ih =>
    cases h' with
    | more hm => cases hi.symm.trans hm
    | bad hb => cases hi.symm.trans hb
    | item hi' hr' =>
      cases hi.symm.trans hi'
      obtain ⟨rfl, rfl, rfl⟩ := ih hr'
      exact ⟨rfl, rfl, rfl⟩

theorem Reads.total (hshrink : ∀ xs b rest, head xs = .item b rest → rest.length < xs.length)
    (xs : List α) : ∃ bs e left, Reads head xs bs e left := by
  induction hn : xs.length using Nat.strong_induction_on generalizing xs with
  | _ n ih =>
    cases hh : head xs with
    | more => exact ⟨[], none, xs, .more hh⟩
    | bad e => exact ⟨[], some e, xs, .bad hh⟩
    | item b rest =>
      obtain ⟨bs, e, left, hr⟩ := ih rest.length (hn ▸ hshrink xs b rest hh) rest rfl
      exact ⟨b :: bs, e, left, .item hh hr⟩

/-- Where reading stopped, another look finds nothing. -/
theorem Reads.stopped {xs left : List α} {bs : List β} {e : Option ε}
    (h : Reads head xs bs e left) : Reads head left [] e left := by
  induction h with
  | more hm => exact .more hm
  | bad hb => exact .bad hb
  | item _ _ ih => exact ih

theorem Reads.bad_append (hs : Stable head) {xs left : List α} {bs : List β} {e : ε}
    (h : Reads head xs bs (some e) left) (ys : List α) :
    Reads head (xs ++ ys) bs (some e) (left ++ ys) := by
  generalize he : some e = e' at h
  induction h with
  | more _ => cases he
  | bad hb =>
    cases he
    exact .bad (hs.bad _ _ ys hb)
  | item hi _ ih => exact .item (hs.item _ _ _ ys hi) (ih he)

/-- Input that arrives after a stop is read as if it had been there. -/
theorem Reads.append (hs : Stable head) {xs ys left left' : List α} {bs bs' : List β}
    {e : Option ε} (h : Reads head xs bs none left) (h' : Reads head (left ++ ys) bs' e left') :
    Reads head (xs ++ ys) (bs ++ bs') e left' := by
  generalize he : (none : Option ε) = e' at h
  induction h with
  | more _ => exact h'
  | bad _ => cases he
  | item hi _ ih => exact .item (hs.item _ _ _ ys hi) (ih h' he)

/-- Take in each piece, read what can be read, and stop for good at the first error. -/
def feed (read : List α → List α → List β × Option ε × List α) :
    List α → List (List α) → List β × Option ε
  | _, [] => ([], none)
  | left, piece :: pieces =>
    match read left piece with
    | (bs, some e, _) => (bs, some e)
    | (bs, none, left) => (bs ++ (feed read left pieces).1, (feed read left pieces).2)

/-- However the input is cut, the items and the first error are those of the whole. -/
theorem feed_reads (hs : Stable head) {read : List α → List α → List β × Option ε × List α}
    (hd : ∀ left piece, Reads head (left ++ piece) (read left piece).1 (read left piece).2.1
      (read left piece).2.2) (pieces : List (List α)) (left : List α)
    (h : Reads head left [] none left) :
    ∃ last, Reads head (left ++ pieces.flatten) (feed read left pieces).1
      (feed read left pieces).2 last := by
  induction pieces generalizing left with
  | nil =>
    refine ⟨left, ?_⟩
    rw [List.flatten_nil, List.append_nil]
    exact h
  | cons piece pieces ih =>
    have hfirst := hd left piece
    rw [List.flatten_cons, ← List.append_assoc]
    simp only [feed]
    rcases hdr : read left piece with ⟨bs, e, left'⟩
    rw [hdr] at hfirst
    cases e with
    | some e => exact ⟨_, hfirst.bad_append hs pieces.flatten⟩
    | none =>
      obtain ⟨last, hrest⟩ := ih left' hfirst.stopped
      exact ⟨last, hfirst.append hs hrest⟩

end ClaudeFleet.PrefixDecoder
