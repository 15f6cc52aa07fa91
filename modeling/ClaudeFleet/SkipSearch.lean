import Mathlib.Tactic
import Mathlib.Order.Bounds.Basic

/-! Looking for the first hit on a line of instants by skipping ahead from each miss. -/
namespace ClaudeFleet

/-- Instants that hit, and how far to go on from one that does not. -/
structure Skipping where
  hit : ℤ → Prop
  decHit : DecidablePred hit
  skip : ℤ → ℤ
  skip_pos : ∀ t, 0 < skip t

namespace Skipping
variable (k : Skipping)

instance : DecidablePred k.hit := k.decHit

/-- The first hit met from `t` on, up to the limit. -/
def search (limit t : ℤ) : Option ℤ :=
  if t ≤ limit then if k.hit t then some t else search limit (t + k.skip t) else none
termination_by (limit + 1 - t).toNat
decreasing_by
  have := k.skip_pos t
  omega

/-- From a miss to where it skips to. -/
def Next (s t : ℤ) : Prop := ¬k.hit s ∧ t = s + k.skip s

/-- The instants a search that begins at the first one looks at. -/
abbrev Looks : ℤ → ℤ → Prop := Relation.ReflTransGen k.Next

def hits (start limit : ℤ) : Set ℤ := {t | start ≤ t ∧ t ≤ limit ∧ k.hit t}

/-- The answer is the least hit, and there is none only where nothing hits. -/
def First (start limit : ℤ) (answer : Option ℤ) : Prop :=
  (∀ r, answer = some r ↔ IsLeast (k.hits start limit) r) ∧
    (answer = none ↔ k.hits start limit = ∅)

variable {k}

theorem next_unique : Relator.RightUnique k.Next := by
  intro s t u ht hu
  exact ht.2.trans hu.2.symm

theorem Looks.le {s t : ℤ} (h : k.Looks s t) : s ≤ t := by
  induction h with
  | refl => exact le_rfl
  | tail _ hnext ih =>
    have hpos := k.skip_pos
    obtain ⟨-, rfl⟩ := hnext
    exact ih.trans (by have := k.skip_pos ‹_›; omega)

/-- Of two instants looked at, the later is past what the earlier skips. -/
theorem Looks.beyond {start s t : ℤ} (hs : k.Looks start s) (ht : k.Looks start t) (h : s < t) :
    ¬k.hit s ∧ s + k.skip s ≤ t := by
  obtain hst | hts := Relation.ReflTransGen.total_of_right_unique next_unique hs ht
  · obtain rfl | ⟨u, ⟨hmiss, rfl⟩, hrest⟩ := hst.cases_head
    · exact absurd h (lt_irrefl _)
    · exact ⟨hmiss, Looks.le hrest⟩
  · exact absurd (Looks.le hts) (by omega)

theorem search_some {limit t r : ℤ} (h : k.search limit t = some r) :
    k.Looks t r ∧ r ≤ limit ∧ k.hit r := by
  induction t using search.induct k limit with
  | case1 t hle hhit =>
    obtain rfl : t = r := by simpa [search, hle, hhit] using h
    exact ⟨.refl, hle, hhit⟩
  | case2 t hle hmiss ih =>
    rw [search, if_pos hle, if_neg hmiss] at h
    obtain ⟨hlooks, hr⟩ := ih h
    exact ⟨.head ⟨hmiss, rfl⟩ hlooks, hr⟩
  | case3 t hlate =>
    rw [search, if_neg hlate] at h
    cases h

/-- A hit that is looked at within the limit is the answer. -/
theorem search_of_looks {limit t r : ℤ} (hlooks : k.Looks t r) (hle : r ≤ limit)
    (hhit : k.hit r) : k.search limit t = some r := by
  induction hlooks using Relation.ReflTransGen.head_induction_on with
  | refl => rw [search, if_pos hle, if_pos hhit]
  | head hnext hrest ih =>
    obtain ⟨hmiss, rfl⟩ := hnext
    have hlater := Looks.le hrest
    rename_i s
    have hpos := k.skip_pos s
    rw [search, if_pos (by omega), if_neg hmiss, ih]

/-- If no hit lies within a skip, every hit has been looked at or lies behind one that was. -/
theorem looks_or_hit {start limit : ℤ}
    (hclear : ∀ s, k.Looks start s → ¬k.hit s → ∀ u, s < u → u < s + k.skip s → u ≤ limit →
      ¬k.hit u)
    {s u : ℤ} (hs : k.Looks start s) (hsu : s ≤ u) (hle : u ≤ limit) (hu : k.hit u) :
    ∃ r, k.Looks start r ∧ k.hit r ∧ r ≤ u := by
  induction s using search.induct k u with
  | case1 s _ hhit => exact ⟨s, hs, hhit, hsu⟩
  | case2 s _ hmiss ih =>
    refine ih (hs.tail ⟨hmiss, rfl⟩) ?_
    by_contra hshort
    obtain heq | hlt := hsu.eq_or_lt
    · exact hmiss (heq ▸ hu)
    · exact hclear s hs hmiss u hlt (by omega) hle hu
  | case3 s hlate => exact absurd hsu hlate

/-- The search finds the first hit exactly when no instant it looks at skips over a hit. -/
theorem search_first_iff {start limit : ℤ} :
    k.First start limit (k.search limit start) ↔
      ∀ s, k.Looks start s → ¬k.hit s → ∀ u, s < u → u < s + k.skip s → u ≤ limit →
        ¬k.hit u := by
  constructor
  · intro hfirst s hs hmiss u hsu hshort hle hu
    have hmem : u ∈ k.hits start limit := ⟨(Looks.le hs).trans hsu.le, hle, hu⟩
    cases hres : k.search limit start with
    | none =>
      rw [hfirst.2.mp hres] at hmem
      exact hmem
    | some r =>
      obtain ⟨hlooks, -, hhit⟩ := search_some hres
      have hru : r ≤ u := ((hfirst.1 r).mp hres).2 hmem
      obtain hlt | hge := lt_or_ge s r
      · have := (hs.beyond hlooks hlt).2
        omega
      · obtain rfl | hrs := hge.eq_or_lt
        · exact hmiss hhit
        · exact (hlooks.beyond hs hrs).1 hhit
  · intro hclear
    have hleast : ∀ r, k.search limit start = some r → IsLeast (k.hits start limit) r := by
      intro r hres
      obtain ⟨hlooks, hle, hhit⟩ := search_some hres
      refine ⟨⟨Looks.le hlooks, hle, hhit⟩, ?_⟩
      rintro u ⟨hstart, hu, huhit⟩
      obtain ⟨v, hv, hvhit, hvu⟩ := looks_or_hit hclear .refl hstart hu huhit
      obtain rfl : v = r :=
        Option.some.inj ((search_of_looks hv (hvu.trans hu) hvhit).symm.trans hres)
      exact hvu
    have hnone : k.search limit start = none → k.hits start limit = ∅ := by
      intro hres
      refine Set.eq_empty_of_forall_notMem ?_
      rintro u ⟨hstart, hu, huhit⟩
      obtain ⟨v, hv, hvhit, hvu⟩ := looks_or_hit hclear .refl hstart hu huhit
      rw [search_of_looks hv (hvu.trans hu) hvhit] at hres
      cases hres
    refine ⟨fun r => ⟨hleast r, fun hr => ?_⟩, ⟨hnone, fun hempty => ?_⟩⟩
    · cases hres : k.search limit start with
      | none =>
        have hmem := hr.1
        rw [hnone hres] at hmem
        exact hmem.elim
      | some v => rw [(hleast v hres).unique hr]
    · cases hres : k.search limit start with
      | none => rfl
      | some v =>
        have hmem := (hleast v hres).1
        rw [hempty] at hmem
        exact hmem.elim

end Skipping
end ClaudeFleet
