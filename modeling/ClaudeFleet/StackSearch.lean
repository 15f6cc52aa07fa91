import Mathlib

/-! Searches of a finite graph with a stack: the top is taken, and unless it was listed before it
is listed and its targets are put on the stack. The graph may have cycles. -/
namespace ClaudeFleet.StackSearch

variable {V : Type*} [DecidableEq V]

/-- Where the edges from a vertex lead, in the order of the edges. -/
def targets (edges : List (V × V)) (v : V) : List V :=
  (edges.filter fun e => e.1 = v).map Prod.snd

/-- The search from a stack whose top is its head, in at most so many steps. -/
def search (edges : List (V × V)) : ℕ → List V → List V → Option (List V)
  | 0, _, _ => none
  | _ + 1, [], listed => some listed
  | steps + 1, v :: stack, listed =>
    if v ∈ listed then search edges steps stack listed
    else search edges steps ((targets edges v).reverse ++ stack) (listed ++ [v])

def Reach (edges : List (V × V)) : V → V → Prop :=
  Relation.ReflTransGen fun v w => w ∈ targets edges v

/-- The edges whose source is still to be listed. -/
def unlisted (edges : List (V × V)) (listed : List V) : List (V × V) :=
  edges.filter fun e => e.1 ∉ listed

variable {edges : List (V × V)} {listed stack found : List V} {v : V} {steps : ℕ}

theorem mem_targets {w : V} : w ∈ targets edges v ↔ (v, w) ∈ edges := by
  simp [targets]

theorem unlisted_append (h : v ∉ listed) :
    (unlisted edges (listed ++ [v])).length + (targets edges v).length =
      (unlisted edges listed).length := by
  induction edges with
  | nil => rfl
  | cons e rest ih =>
    simp only [unlisted, targets, List.length_map, List.filter_cons] at ih ⊢
    by_cases hv : e.1 = v
    · rw [if_neg (by simp [hv]), if_pos (by simp [hv]), if_pos (by simp [hv, h])]
      simp only [List.length_cons]
      omega
    · by_cases hl : e.1 ∈ listed
      · rw [if_neg (by simp [hl]), if_neg (by simp [hv]), if_neg (by simp [hl]), ih]
      · rw [if_pos (by simp [hl, hv]), if_neg (by simp [hv]), if_pos (by simp [hl])]
        simp only [List.length_cons]
        omega

/-- Every step takes a vertex from the stack, and every edge puts one there once. -/
theorem search_total (h : stack.length + (unlisted edges listed).length < steps) :
    ∃ found, search edges steps stack listed = some found := by
  induction steps generalizing stack listed with
  | zero => omega
  | succ steps ih =>
    cases stack with
    | nil => exact ⟨listed, rfl⟩
    | cons v stack =>
      rw [List.length_cons] at h
      rw [search]
      split_ifs with hv
      · exact ih (by omega)
      · have hcount : (unlisted edges (listed ++ [v])).length + (targets edges v).length =
            (unlisted edges listed).length := unlisted_append hv
        apply ih
        rw [List.length_append, List.length_reverse]
        omega

theorem search_nodup (h : search edges steps stack listed = some found) (hl : listed.Nodup) :
    found.Nodup := by
  induction steps generalizing stack listed with
  | zero => cases h
  | succ steps ih =>
    cases stack with
    | nil => cases h; exact hl
    | cons v stack =>
      rw [search] at h
      split_ifs at h with hv
      · exact ih h hl
      · exact ih h (List.nodup_append.mpr ⟨hl, List.nodup_singleton v, by
          intro a ha b hb hab
          rw [List.mem_singleton.mp hb] at hab
          exact hv (hab ▸ ha)⟩)

/-- What is found has any property that the start has and the edges keep. -/
theorem search_sound {P : V → Prop} (h : search edges steps stack listed = some found)
    (hedge : ∀ v w, P v → w ∈ targets edges v → P w) (hstack : ∀ v ∈ stack, P v)
    (hlisted : ∀ v ∈ listed, P v) : ∀ v ∈ found, P v := by
  induction steps generalizing stack listed with
  | zero => cases h
  | succ steps ih =>
    cases stack with
    | nil => cases h; exact hlisted
    | cons v stack =>
      obtain ⟨hv, hrest⟩ := List.forall_mem_cons.mp hstack
      rw [search] at h
      split_ifs at h
      · exact ih h hrest hlisted
      · refine ih h ?_ ?_
        · intro w hw
          rcases List.mem_append.mp hw with hw | hw
          · exact hedge v w hv (List.mem_reverse.mp hw)
          · exact hrest w hw
        · intro w hw
          rcases List.mem_append.mp hw with hw | hw
          · exact hlisted w hw
          · exact List.mem_singleton.mp hw ▸ hv

/-- Nothing that waits is lost, and what is found is closed under the edges. -/
theorem search_complete (h : search edges steps stack listed = some found)
    (hclosed : ∀ v ∈ listed, ∀ w ∈ targets edges v, w ∈ listed ∨ w ∈ stack) :
    (∀ v, v ∈ listed ∨ v ∈ stack → v ∈ found) ∧
      ∀ v ∈ found, ∀ w ∈ targets edges v, w ∈ found := by
  induction steps generalizing stack listed with
  | zero => cases h
  | succ steps ih =>
    cases stack with
    | nil =>
      cases h
      simp only [List.not_mem_nil, or_false] at hclosed ⊢
      exact ⟨fun _ hv => hv, hclosed⟩
    | cons v stack =>
      rw [search] at h
      split_ifs at h with hv
      · obtain ⟨hkept, hfound⟩ := ih h (by
          intro u hu w hw
          rcases hclosed u hu w hw with hw | hw
          · exact .inl hw
          · rcases List.mem_cons.mp hw with rfl | hw
            · exact .inl hv
            · exact .inr hw)
        refine ⟨fun u hu => hkept u ?_, hfound⟩
        rcases hu with hu | hu
        · exact .inl hu
        · rcases List.mem_cons.mp hu with rfl | hu
          · exact .inl hv
          · exact .inr hu
      · obtain ⟨hkept, hfound⟩ := ih h (by
          intro u hu w hw
          simp only [List.mem_append, List.mem_reverse, List.mem_singleton] at hu ⊢
          rcases hu with hu | rfl
          · rcases hclosed u hu w hw with hw | hw
            · exact .inl (.inl hw)
            · rcases List.mem_cons.mp hw with hw | hw
              · exact .inl (.inr hw)
              · exact .inr (.inr hw)
          · exact .inr (.inl hw))
        refine ⟨fun u hu => hkept u ?_, hfound⟩
        simp only [List.mem_append, List.mem_reverse, List.mem_singleton]
        rcases hu with hu | hu
        · exact .inl (.inl hu)
        · rcases List.mem_cons.mp hu with hu | hu
          · exact .inl (.inr hu)
          · exact .inr (.inr hu)

/-- The search from one vertex finds what can be reached from it. -/
theorem mem_search {root : V} (h : search edges steps [root] [] = some found) :
    v ∈ found ↔ Reach edges root v := by
  constructor
  · refine search_sound (P := Reach edges root) h (fun _ _ hv hw => hv.tail hw) ?_ ?_ v
    · intro u hu
      rw [List.mem_singleton.mp hu]
      exact .refl
    · exact fun u hu => absurd hu (List.not_mem_nil)
  · intro hreach
    obtain ⟨hkept, hclosed⟩ :=
      search_complete h fun u hu => absurd hu (List.not_mem_nil)
    induction hreach with
    | refl => exact hkept root (.inr (List.mem_singleton.mpr rfl))
    | tail _ hw ih => exact hclosed _ ih _ hw

end ClaudeFleet.StackSearch
