import Mathlib.Tactic

/-! Guarded transition systems with executable steps. `step s a` is `none` when
action `a` is not enabled in `s`; a run is a list of actions that are all enabled. -/
namespace ClaudeFleet.Transition

variable {σ α : Type*}

def run (step : σ → α → Option σ) : σ → List α → Option σ
  | s, [] => some s
  | s, a :: as =>
    match step s a with
    | none => none
    | some t => run step t as

/-- Every step of the run meets a condition on the state it starts from. -/
def Along (step : σ → α → Option σ) (ok : σ → α → Prop) : σ → List α → Prop
  | _, [] => True
  | s, a :: as =>
    ok s a ∧
      match step s a with
      | none => True
      | some t => Along step ok t as

instance decidableAlong (step : σ → α → Option σ) (ok : σ → α → Prop)
    [∀ s a, Decidable (ok s a)] : (s : σ) → (as : List α) → Decidable (Along step ok s as)
  | _, [] => isTrue trivial
  | s, a :: as =>
    match h : step s a with
    | none => decidable_of_iff (ok s a) (by simp [Along, h])
    | some t =>
      haveI := decidableAlong step ok t as
      decidable_of_iff (ok s a ∧ Along step ok t as) (by simp [Along, h])

theorem run_cons {step : σ → α → Option σ} {s u : σ} {a : α} {as : List α}
    (h : run step s (a :: as) = some u) : ∃ t, step s a = some t ∧ run step t as = some u := by
  simp only [run] at h
  split at h
  · cases h
  · next t ht => exact ⟨t, ht, h⟩

theorem Along.tail {step : σ → α → Option σ} {ok : σ → α → Prop} {s t : σ} {a : α} {as : List α}
    (h : Along step ok s (a :: as)) (hs : step s a = some t) : Along step ok t as := by
  have := h.2
  rwa [hs] at this

theorem Along.and {step : σ → α → Option σ} {p q : σ → α → Prop} {s : σ} {as : List α}
    (hp : Along step p s as) (hq : Along step q s as) :
    Along step (fun s a => p s a ∧ q s a) s as := by
  induction as generalizing s with
  | nil => trivial
  | cons a as ih =>
    refine ⟨⟨hp.1, hq.1⟩, ?_⟩
    cases hs : step s a with
    | none => trivial
    | some t => exact ih (hp.tail hs) (hq.tail hs)

/-- The invariant rule for the runs whose steps all meet `ok`. -/
theorem run_invariant_along {step : σ → α → Option σ} {ok : σ → α → Prop} {I : σ → Prop}
    (hI : ∀ s a t, I s → ok s a → step s a = some t → I t) {s t : σ} {as : List α}
    (h0 : I s) (hr : run step s as = some t) (hok : Along step ok s as) : I t := by
  induction as generalizing s with
  | nil =>
    simp only [run, Option.some.injEq] at hr
    exact hr ▸ h0
  | cons a as ih =>
    obtain ⟨u, hu, hrest⟩ := run_cons hr
    exact ih (hI s a u h0 hok.1 hu) hrest (hok.tail hu)

/-- What the invariant gives of a step holds of every step of the run. -/
theorem along_of_invariant {step : σ → α → Option σ} {ok P : σ → α → Prop} {I : σ → Prop}
    (hI : ∀ s a t, I s → ok s a → step s a = some t → I t) (hP : ∀ s a, I s → ok s a → P s a)
    {s : σ} {as : List α} (h0 : I s) (hok : Along step ok s as) : Along step P s as := by
  induction as generalizing s with
  | nil => trivial
  | cons a as ih =>
    refine ⟨hP s a h0 hok.1, ?_⟩
    cases hs : step s a with
    | none => trivial
    | some t => exact ih (hI s a t h0 hok.1 hs) (hok.tail hs)

/-- The invariant rule for arbitrary runs. -/
theorem run_invariant {step : σ → α → Option σ} {I : σ → Prop}
    (hI : ∀ s a t, I s → step s a = some t → I t) {s t : σ} {as : List α}
    (h0 : I s) (hr : run step s as = some t) : I t := by
  induction as generalizing s with
  | nil =>
    simp only [run, Option.some.injEq] at hr
    exact hr ▸ h0
  | cons a as ih =>
    obtain ⟨u, hu, hrest⟩ := run_cons hr
    exact ih (hI s a u h0 hu) hrest

theorem run_append {step : σ → α → Option σ} {s u : σ} {as bs : List α} :
    run step s (as ++ bs) = some u ↔ ∃ t, run step s as = some t ∧ run step t bs = some u := by
  induction as generalizing s with
  | nil => simp [run]
  | cons a as ih =>
    simp only [List.cons_append, run]
    cases step s a with
    | none => simp
    | some t => exact ih

theorem along_append {step : σ → α → Option σ} {ok : σ → α → Prop} {s : σ} {as bs : List α} :
    Along step ok s (as ++ bs) ↔
      Along step ok s as ∧ ∀ t, run step s as = some t → Along step ok t bs := by
  induction as generalizing s with
  | nil => simp [Along, run]
  | cons a as ih =>
    simp only [List.cons_append, Along, run]
    cases step s a with
    | none => simp
    | some t =>
      dsimp only
      rw [ih, and_assoc]

/-- The invariant rule for what also speaks of the steps made so far, for the runs whose steps all
meet `ok`. -/
theorem run_invariant_history_along {step : σ → α → Option σ} {ok : σ → α → Prop} {s₀ : σ}
    {I : List α → σ → Prop} (h0 : I [] s₀)
    (hI : ∀ as s a t, run step s₀ as = some s → I as s → ok s a → step s a = some t →
      I (as ++ [a]) t)
    {as : List α} {s : σ} (hr : run step s₀ as = some s) (hok : Along step ok s₀ as) : I as s := by
  induction as using List.reverseRecOn generalizing s with
  | nil =>
    simp only [run, Option.some.injEq] at hr
    exact hr ▸ h0
  | append_singleton as a ih =>
    obtain ⟨hbefore, hlastOk⟩ := along_append.mp hok
    obtain ⟨t, ht, hlast⟩ := run_append.mp hr
    obtain ⟨u, hu, hend⟩ := run_cons hlast
    simp only [run, Option.some.injEq] at hend
    exact hend ▸ hI as t a u ht (ih ht hbefore) (hlastOk t ht).1 hu

theorem along_true {step : σ → α → Option σ} (s : σ) (as : List α) :
    Along step (fun _ _ => True) s as := by
  induction as generalizing s with
  | nil => trivial
  | cons a as ih =>
    refine ⟨trivial, ?_⟩
    cases step s a with
    | none => trivial
    | some t => exact ih t

/-- The invariant rule for what also speaks of the steps made so far. -/
theorem run_invariant_history {step : σ → α → Option σ} {s₀ : σ} {I : List α → σ → Prop}
    (h0 : I [] s₀)
    (hI : ∀ as s a t, run step s₀ as = some s → I as s → step s a = some t → I (as ++ [a]) t)
    {as : List α} {s : σ} (hr : run step s₀ as = some s) : I as s :=
  run_invariant_history_along h0 (fun as s a t hrun h _ hs => hI as s a t hrun h hs) hr
    (along_true s₀ as)

/-- Every entry of a log is allowed by what stands before it. -/
def Justified {ε : Type*} (allowed : List ε → ε → Prop) (log : List ε) : Prop :=
  ∀ before e after, log = before ++ e :: after → allowed before e

theorem Justified.nil {ε : Type*} (allowed : List ε → ε → Prop) : Justified allowed [] := by
  intro before e after h
  simp at h

/-- An entry of a log with one more at its end is that one or stood there before. -/
theorem snoc_eq_append_cons {ε : Type*} {log before after : List ε} {e x : ε}
    (h : log ++ [e] = before ++ x :: after) :
    (after = [] ∧ log = before ∧ e = x) ∨
      ∃ after', after = after' ++ [e] ∧ log = before ++ x :: after' := by
  rcases List.eq_nil_or_concat after with rfl | ⟨after', last, rfl⟩
  · obtain ⟨hlog, hlast⟩ := List.append_inj' h rfl
    exact Or.inl ⟨rfl, hlog, by simpa using hlast⟩
  · have hsplit : log ++ [e] = (before ++ x :: after') ++ [last] := by simpa using h
    obtain ⟨hlog, hlast⟩ := List.append_inj' hsplit rfl
    have hlast : e = last := by simpa using hlast
    exact Or.inr ⟨after', by simp [hlast], hlog⟩

theorem Justified.snoc {ε : Type*} {allowed : List ε → ε → Prop} {log : List ε} {e : ε}
    (h : Justified allowed log) (he : allowed log e) : Justified allowed (log ++ [e]) := by
  intro before e' after heq
  rcases snoc_eq_append_cons heq with ⟨-, rfl, rfl⟩ | ⟨after', -, hlog⟩
  · exact he
  · exact h before e' after' hlog

end ClaudeFleet.Transition
