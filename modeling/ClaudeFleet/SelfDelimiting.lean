import Mathlib.Tactic

/-! Writers whose text tells where it ends, so that texts written one after another can be read in
one way only. -/
namespace ClaudeFleet

/-- Among the values that satisfy `P`, a text tells which value it is of, whatever follows it. -/
def SelfDelimiting {α β : Type*} (P : α → Prop) (write : α → List β) : Prop :=
  ∀ a b s t, P a → P b → write a ++ s = write b ++ t → a = b ∧ s = t

namespace SelfDelimiting

variable {α γ β : Type*} {P : α → Prop} {Q : γ → Prop} {write : α → List β} {other : γ → List β}

theorem injOn (h : SelfDelimiting P write) {a b : α} (ha : P a) (hb : P b)
    (heq : write a = write b) : a = b :=
  (h a b [] [] ha hb (congrArg (· ++ []) heq)).1

theorem cut_at_mark {mark : β} {a b s t : List β} (ha : mark ∉ a) (hb : mark ∉ b)
    (h : a ++ mark :: s = b ++ mark :: t) : a = b ∧ s = t := by
  induction a generalizing b with
  | nil =>
    cases b with
    | nil => simpa using h
    | cons y b =>
      obtain ⟨rfl, -⟩ := List.cons.inj h
      exact absurd List.mem_cons_self hb
  | cons x a ih =>
    cases b with
    | nil =>
      obtain ⟨rfl, -⟩ := List.cons.inj h
      exact absurd List.mem_cons_self ha
    | cons y b =>
      obtain ⟨rfl, hrest⟩ := List.cons.inj h
      obtain ⟨rfl, hst⟩ := ih (List.not_mem_of_not_mem_cons ha)
        (List.not_mem_of_not_mem_cons hb) hrest
      exact ⟨rfl, hst⟩

/-- A text between two marks that are not in it. -/
theorem quoted (mark : β) :
    SelfDelimiting (fun s => mark ∉ s) fun s : List β => mark :: (s ++ [mark]) := by
  intro a b s t ha hb h
  simp only [List.cons_append, List.append_assoc, List.nil_append, List.cons.injEq,
    true_and] at h
  exact cut_at_mark ha hb h

theorem lead (h : SelfDelimiting P write) (pre : List β) :
    SelfDelimiting P fun a => pre ++ write a := by
  intro a b s t ha hb heq
  rw [List.append_assoc, List.append_assoc] at heq
  exact h a b s t ha hb (List.append_cancel_left heq)

theorem trail (h : SelfDelimiting P write) (post : List β) :
    SelfDelimiting P fun a => write a ++ post := by
  intro a b s t ha hb heq
  rw [List.append_assoc, List.append_assoc] at heq
  obtain ⟨hab, hst⟩ := h a b _ _ ha hb heq
  exact ⟨hab, List.append_cancel_left hst⟩

/-- One value after another. -/
theorem pair (h : SelfDelimiting P write) (h' : SelfDelimiting Q other) :
    SelfDelimiting (fun p : α × γ => P p.1 ∧ Q p.2) fun p => write p.1 ++ other p.2 := by
  rintro ⟨a, c⟩ ⟨b, d⟩ s t ⟨ha, hc⟩ ⟨hb, hd⟩ heq
  rw [List.append_assoc, List.append_assoc] at heq
  obtain ⟨hab, hrest⟩ := h a b _ _ ha hb heq
  obtain ⟨hcd, hst⟩ := h' c d s t hc hd hrest
  exact ⟨Prod.ext hab hcd, hst⟩

theorem comap (h : SelfDelimiting P write) {f : γ → α} (hf : Function.Injective f)
    (hQ : ∀ c, Q c → P (f c)) : SelfDelimiting Q fun c => write (f c) := by
  intro c d s t hc hd heq
  obtain ⟨hcd, hst⟩ := h _ _ s t (hQ c hc) (hQ d hd) heq
  exact ⟨hf hcd, hst⟩

theorem intercalate_append (sep close : β) (a : List β) (as : List (List β)) :
    [sep].intercalate (a :: as) ++ [close] =
      a ++ (as.flatMap fun b => sep :: b) ++ [close] := by
  induction as generalizing a with
  | nil => simp
  | cons b as ih =>
    rw [List.intercalate_cons_cons, List.append_assoc, ih b]
    simp

/-- The values after the first, each behind a separator, up to the closing mark. -/
theorem followed (h : SelfDelimiting P write) {sep close : β} (hne : sep ≠ close) :
    SelfDelimiting (fun as => ∀ a ∈ as, P a)
      fun as : List α => (as.flatMap fun a => sep :: write a) ++ [close] := by
  intro as
  induction as with
  | nil =>
    intro bs s t _ _ heq
    cases bs with
    | nil => exact ⟨rfl, by simpa using heq⟩
    | cons b bs =>
      simp only [List.flatMap_nil, List.flatMap_cons, List.nil_append, List.cons_append,
        List.cons.injEq] at heq
      exact absurd heq.1.symm hne
  | cons a as ih =>
    intro bs s t has hbs heq
    cases bs with
    | nil =>
      simp only [List.flatMap_nil, List.flatMap_cons, List.nil_append, List.cons_append,
        List.cons.injEq] at heq
      exact absurd heq.1 hne
    | cons b bs =>
      simp only [List.flatMap_cons, List.cons_append, List.append_assoc, List.cons.injEq,
        true_and] at heq
      obtain ⟨rfl, hrest⟩ := h a b _ _ (has a List.mem_cons_self) (hbs b List.mem_cons_self) heq
      obtain ⟨rfl, hst⟩ := ih bs s t (fun x hx => has x (List.mem_cons_of_mem _ hx))
        (fun x hx => hbs x (List.mem_cons_of_mem _ hx)) (by simpa using hrest)
      exact ⟨rfl, hst⟩

/-- A list with separators, up to a closing mark that begins none of its values. -/
theorem separated (h : SelfDelimiting P write) (sep close : β) (hne : sep ≠ close)
    (hstart : ∀ a s t, write a ++ s ≠ close :: t) :
    SelfDelimiting (fun as => ∀ a ∈ as, P a)
      fun as : List α => [sep].intercalate (as.map write) ++ [close] := by
  intro as bs s t has hbs heq
  dsimp only at heq
  cases as with
  | nil =>
    cases bs with
    | nil => exact ⟨rfl, by simpa using heq⟩
    | cons b bs =>
      rw [List.map_cons, intercalate_append, List.append_assoc, List.append_assoc] at heq
      exact absurd heq.symm (by simpa using hstart b _ s)
  | cons a as =>
    cases bs with
    | nil =>
      rw [List.map_cons, intercalate_append, List.append_assoc, List.append_assoc] at heq
      exact absurd heq (by simpa using hstart a _ t)
    | cons b bs =>
      simp only [List.map_cons, intercalate_append, List.append_assoc] at heq
      obtain ⟨rfl, hrest⟩ := h a b _ _ (has a List.mem_cons_self) (hbs b List.mem_cons_self) heq
      obtain ⟨rfl, hst⟩ := h.followed hne as bs s t (fun x hx => has x (List.mem_cons_of_mem _ hx))
        (fun x hx => hbs x (List.mem_cons_of_mem _ hx)) (by simpa [List.flatMap_map] using hrest)
      exact ⟨rfl, hst⟩

end SelfDelimiting

end ClaudeFleet
