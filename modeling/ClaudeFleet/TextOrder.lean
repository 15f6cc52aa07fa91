import ClaudeFleet.JsText
import Mathlib.Data.List.Sort
import Mathlib.Data.Set.Function

/-! The order of JavaScript strings by their code units, sorted lists of them, and lists joined with
a separator. -/
namespace ClaudeFleet.Js

/-- The order of the code units, which sorting goes by when it is given no other. -/
def unitLe (s t : Text) : Prop := s.map UInt16.toNat ≤ t.map UInt16.toNat

instance : DecidableRel unitLe :=
  fun s t => inferInstanceAs (Decidable (s.map UInt16.toNat ≤ t.map UInt16.toNat))

def sortTexts (texts : List Text) : List Text := texts.insertionSort unitLe

theorem map_toNat_injective : Function.Injective (List.map UInt16.toNat) :=
  List.map_injective_iff.mpr fun _ _ => UInt16.toNat_inj.mp

instance : Std.Total unitLe := ⟨fun s t => le_total (s.map UInt16.toNat) (t.map UInt16.toNat)⟩

instance : IsTrans Text unitLe := ⟨fun _ _ _ h h' => le_trans (α := List ℕ) h h'⟩

theorem unitLe_antisymm {s t : Text} (h : unitLe s t) (h' : unitLe t s) : s = t :=
  map_toNat_injective (le_antisymm (α := List ℕ) h h')

theorem sortTexts_perm (texts : List Text) : (sortTexts texts).Perm texts :=
  List.perm_insertionSort unitLe texts

/-- Joined with a unit that is in none of them, nonempty lists of texts are told apart. -/
theorem join_inj {sep : UInt16} {as bs : List Text} (ha : ∀ s ∈ as, sep ∉ s) (hb : ∀ s ∈ bs, sep ∉ s)
    (hane : as ≠ []) (hbne : bs ≠ []) (h : [sep].intercalate as = [sep].intercalate bs) :
    as = bs := by
  rw [← List.splitOn_intercalate sep ha hane, h, List.splitOn_intercalate sep hb hbne]

theorem join_ne_nil (sep : UInt16) {as : List Text} (hne : as ≠ []) (ha : ∀ s ∈ as, s ≠ []) :
    [sep].intercalate as ≠ [] := by
  cases as with
  | nil => exact absurd rfl hne
  | cons s as =>
    have hs := ha s List.mem_cons_self
    cases as with
    | nil => simpa using hs
    | cons t as => simp [List.intercalate_cons_cons, hs]

/-- Lists are the same up to order if their images are, under a map that tells their elements
apart. -/
theorem perm_of_map_perm {α β : Type*} {f : α → β} {S : Set α} (hf : Set.InjOn f S)
    {as bs : List α} (ha : ∀ a ∈ as, a ∈ S) (hb : ∀ b ∈ bs, b ∈ S)
    (h : (as.map f).Perm (bs.map f)) : as.Perm bs := by
  cases as with
  | nil => simpa using h
  | cons a as =>
    haveI : Nonempty α := ⟨a⟩
    have hinv := hf.leftInvOn_invFunOn
    have hback : ∀ l : List α, (∀ x ∈ l, x ∈ S) → (l.map f).map (Function.invFunOn f S) = l := by
      intro l hl
      rw [List.map_map]
      exact (List.map_congr_left fun x hx => hinv (hl x hx)).trans (List.map_id l)
    have hperm := h.map (Function.invFunOn f S)
    rwa [hback _ ha, hback _ hb] at hperm

end ClaudeFleet.Js
