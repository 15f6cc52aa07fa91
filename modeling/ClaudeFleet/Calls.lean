import Mathlib.Tactic

/-! Programs that make calls. A call is answered, or throws, as a world decides that knows every call
made so far. What a program shows to an observer is a view of its calls, in their order. -/
namespace ClaudeFleet.Calls

/-- A call with its answer. -/
structure Event {ε : Type} (Reply : ε → Type) (φ : Type) where
  call : ε
  reply : Except φ (Reply call)

section Prog

variable {ε : Type} {Reply : ε → Type} {φ α β μ : Type}

/-- The answers to each call, after the calls before it. -/
abbrev World (Reply : ε → Type) (φ : Type) := (c : ε) → List (Event Reply φ) → Except φ (Reply c)

/-- What the program ends with and the calls it makes, given those made before; nothing when it goes
on for longer than its fuel lets it. -/
def Prog (Reply : ε → Type) (φ α : Type) :=
  List (Event Reply φ) → Option (Except φ α × List (Event Reply φ))

namespace Prog

protected def pure (a : α) : Prog Reply φ α := fun _ => some (.ok a, [])

protected def bind (m : Prog Reply φ α) (f : α → Prog Reply φ β) : Prog Reply φ β := fun h =>
  match m h with
  | none => none
  | some (.error e, es) => some (.error e, es)
  | some (.ok a, es) => (f a (h ++ es)).map fun r => (r.1, es ++ r.2)

instance : Monad (Prog Reply φ) where
  pure := Prog.pure
  bind := Prog.bind

def fail (e : φ) : Prog Reply φ α := fun _ => some (.error e, [])

/-- Go on with what was thrown, if anything was. -/
def attempt (m : Prog Reply φ α) : Prog Reply φ (Except φ α) := fun h =>
  (m h).map fun r => (.ok r.1, r.2)

def rescue (m : Prog Reply φ α) (f : φ → Prog Reply φ α) : Prog Reply φ α := do
  match ← m.attempt with
  | .ok a => pure a
  | .error e => f e

/-- The second program is run whatever comes of the first; what it throws takes the place of that. -/
def finally' (m : Prog Reply φ α) (last : Prog Reply φ Unit) : Prog Reply φ α := do
  let r ← m.attempt
  last
  match r with
  | .ok a => pure a
  | .error e => fail e

def diverge : Prog Reply φ α := fun _ => none

def call (w : World Reply φ) (c : ε) : Prog Reply φ (Reply c) := fun h =>
  some (w c h, [⟨c, w c h⟩])

/-! What a program shows. -/

/-- Whenever the program ends, what its calls show is as the postconditions say, the first for an
answer and the second for what it throws. -/
def Shows (view : Event Reply φ → Option μ) (m : Prog Reply φ α) (Q : α → List μ → Prop)
    (E : φ → List μ → Prop) : Prop :=
  ∀ h r es, m h = some (r, es) →
    match r with
    | .ok a => Q a (es.filterMap view)
    | .error e => E e (es.filterMap view)

/-- Nothing of the program is seen, and what it throws is of a kind. -/
def Quiet (view : Event Reply φ → Option μ) (P : φ → Prop) (m : Prog Reply φ α) : Prop :=
  m.Shows view (fun _ xs => xs = []) fun e xs => xs = [] ∧ P e

variable {view : Event Reply φ → Option μ} {m : Prog Reply φ α} {f : α → Prog Reply φ β}
  {Q Q₁ : α → List μ → Prop} {R : β → List μ → Prop} {E E₁ : φ → List μ → Prop}

theorem Shows.mono (h : m.Shows view Q₁ E₁) (hQ : ∀ a xs, Q₁ a xs → Q a xs)
    (hE : ∀ e xs, E₁ e xs → E e xs) : m.Shows view Q E := by
  intro pre r es hm
  have hr := h pre r es hm
  cases r with
  | ok a => exact hQ a _ hr
  | error e => exact hE e _ hr

theorem shows_pure {a : α} (hQ : Q a []) : (pure a : Prog Reply φ α).Shows view Q E := by
  intro pre r es hm
  obtain ⟨rfl, rfl⟩ := Prod.mk.inj (Option.some.inj hm)
  exact hQ

theorem shows_fail {e : φ} (hE : E e []) : (fail e : Prog Reply φ α).Shows view Q E := by
  intro pre r es hm
  obtain ⟨rfl, rfl⟩ := Prod.mk.inj (Option.some.inj hm)
  exact hE

theorem shows_true : m.Shows view (fun _ _ => True) fun _ _ => True := by
  intro pre r es _
  cases r <;> trivial

theorem Shows.bind (hm : m.Shows view Q₁ E₁)
    (hf : ∀ a xs, Q₁ a xs → (f a).Shows view (fun b ys => R b (xs ++ ys)) fun e ys => E e (xs ++ ys))
    (hE : ∀ e xs, E₁ e xs → E e xs) : (m >>= f).Shows view R E := by
  intro pre r es h
  change Prog.bind m f pre = some (r, es) at h
  unfold Prog.bind at h
  cases hr : m pre with
  | none =>
    rw [hr] at h
    cases h
  | some p =>
    obtain ⟨r₁, es₁⟩ := p
    have h₁ := hm pre r₁ es₁ hr
    rw [hr] at h
    cases r₁ with
    | error e =>
      obtain ⟨rfl, rfl⟩ := Prod.mk.inj (Option.some.inj h)
      exact hE e _ h₁
    | ok a =>
      obtain ⟨⟨r₂, es₂⟩, hr₂, heq⟩ := Option.map_eq_some_iff.mp h
      obtain ⟨rfl, rfl⟩ := Prod.mk.inj heq
      have h₂ := hf a _ h₁ (pre ++ es₁) r₂ es₂ hr₂
      cases r₂ with
      | ok b =>
        simp only [List.filterMap_append]
        exact h₂
      | error e =>
        simp only [List.filterMap_append]
        exact h₂

theorem Shows.attempt {T : φ → List μ → Prop} (hm : m.Shows view Q E) :
    m.attempt.Shows view (fun r xs => match r with | .ok a => Q a xs | .error e => E e xs) T := by
  intro pre r es h
  obtain ⟨⟨r₁, es₁⟩, hr₁, heq⟩ := Option.map_eq_some_iff.mp h
  obtain ⟨rfl, rfl⟩ := Prod.mk.inj heq
  exact hm pre r₁ es₁ hr₁

theorem Shows.rescue {g : φ → Prog Reply φ α} (hm : m.Shows view Q₁ E₁)
    (hQ : ∀ a xs, Q₁ a xs → Q a xs)
    (hg : ∀ e xs, E₁ e xs → (g e).Shows view (fun a ys => Q a (xs ++ ys))
      fun e' ys => E e' (xs ++ ys)) : (m.rescue g).Shows view Q E := by
  refine (hm.attempt (T := E)).bind (fun r xs hr => ?_) (fun _ _ hE => hE)
  cases r with
  | ok a => exact shows_pure (by simpa using hQ a xs hr)
  | error e => exact hg e xs hr

theorem Shows.finally' {last : Prog Reply φ Unit} (hm : m.Shows view Q₁ E₁)
    (hlast : ∀ xs, (∃ a, Q₁ a xs) ∨ (∃ e, E₁ e xs) →
      last.Shows view (fun _ ys => (∀ a, Q₁ a xs → Q a (xs ++ ys)) ∧ ∀ e, E₁ e xs → E e (xs ++ ys))
        fun e ys => E e (xs ++ ys)) : (m.finally' last).Shows view Q E := by
  refine (hm.attempt (T := E)).bind (fun r xs hr => ?_) (fun _ _ hE => hE)
  have hpost : (∃ a, Q₁ a xs) ∨ ∃ e, E₁ e xs := by
    cases r with
    | ok a => exact .inl ⟨a, hr⟩
    | error e => exact .inr ⟨e, hr⟩
  refine (hlast xs hpost).bind (fun _ ys hys => ?_) (fun _ _ hE => hE)
  cases r with
  | ok a => exact shows_pure (by simpa using hys.1 a hr)
  | error e => exact shows_fail (by simpa using hys.2 e hr)

variable {P : φ → Prop}

theorem Quiet.bind (hm : m.Quiet view P) (hf : ∀ a, (f a).Quiet view P) :
    (m >>= f).Quiet view P := by
  refine Shows.bind hm (fun a xs hxs => ?_) (fun _ _ he => he)
  subst hxs
  exact hf a

theorem Quiet.attempt {P' : φ → Prop} (hm : m.Quiet view P) : m.attempt.Quiet view P' :=
  (Shows.attempt hm).mono (fun r _ hr => by
    cases r with
    | ok a => exact hr
    | error e => exact hr.1) fun _ _ hr => hr

/-- What comes before and is not seen leaves what is shown as it is. -/
theorem Quiet.then (hm : m.Quiet view P) (hE : ∀ e, P e → E e [])
    (hf : ∀ a, (f a).Shows view R E) : (m >>= f).Shows view R E := by
  refine Shows.bind hm (fun a xs hxs => ?_) (fun e xs he => ?_)
  · subst hxs
    exact hf a
  · obtain ⟨rfl, he⟩ := he
    exact hE e he

/-! Programs that come to an end. -/

def Ends (m : Prog Reply φ α) (h : List (Event Reply φ)) : Prop := ∃ p, m h = some p

/-- The program ends whatever was called before. -/
def Total (m : Prog Reply φ α) : Prop := ∀ h, m.Ends h

variable {h : List (Event Reply φ)}

theorem Ends.bind (hm : m.Ends h)
    (hf : ∀ a es, m h = some (.ok a, es) → (f a).Ends (h ++ es)) : (m >>= f).Ends h := by
  obtain ⟨⟨r, es⟩, hr⟩ := hm
  change ∃ p, Prog.bind m f h = some p
  unfold Prog.bind
  rw [hr]
  cases r with
  | error e => exact ⟨_, rfl⟩
  | ok a =>
    obtain ⟨p, hp⟩ := hf a es hr
    exact ⟨_, congrArg (Option.map _) hp⟩

theorem total_pure {a : α} : (pure a : Prog Reply φ α).Total := fun _ => ⟨_, rfl⟩

theorem total_fail {e : φ} : (fail e : Prog Reply φ α).Total := fun _ => ⟨_, rfl⟩

theorem total_call {w : World Reply φ} {c : ε} : (call w c).Total := fun _ => ⟨_, rfl⟩

theorem Total.bind (hm : m.Total) (hf : ∀ a, (f a).Total) : (m >>= f).Total :=
  fun h => (hm h).bind fun a es _ => hf a (h ++ es)

theorem Total.attempt (hm : m.Total) : m.attempt.Total := by
  intro h
  obtain ⟨p, hp⟩ := hm h
  exact ⟨_, congrArg (Option.map _) hp⟩

theorem Total.rescue {g : φ → Prog Reply φ α} (hm : m.Total) (hg : ∀ e, (g e).Total) :
    (m.rescue g).Total := by
  refine hm.attempt.bind fun r => ?_
  cases r with
  | ok a => exact total_pure
  | error e => exact hg e

theorem Total.finally' {last : Prog Reply φ Unit} (hm : m.Total) (hlast : last.Total) :
    (m.finally' last).Total := by
  refine hm.attempt.bind fun r => hlast.bind fun _ => ?_
  cases r with
  | ok a => exact total_pure
  | error e => exact total_fail

end Prog

end Prog

end ClaudeFleet.Calls
