import Mathlib.Tactic

/-! Checks that go on after an error, so that all of them can be told at once. -/
namespace ClaudeFleet

/-- The errors met, and the value if one came about; without errors there is one. -/
structure Check (ε α : Type) where
  errors : List ε
  value : Option α
  settled : errors = [] → value.isSome = true

namespace Check
variable {ε α β : Type}

protected def pure (a : α) : Check ε α := ⟨[], some a, fun _ => rfl⟩

protected def bind (x : Check ε α) (f : α → Check ε β) : Check ε β :=
  match x with
  | ⟨errors, none, h⟩ => ⟨errors, none, fun he => absurd (h he) (by simp)⟩
  | ⟨errors, some a, _⟩ =>
    ⟨errors ++ (f a).errors, (f a).value, fun he => (f a).settled (List.append_eq_nil_iff.mp he).2⟩

instance : Monad (Check ε) where
  pure := Check.pure
  bind := Check.bind

/-- An error after which nothing is left to check. -/
def fail (e : ε) : Check ε α := ⟨[e], none, fun h => by cases h⟩

/-- An error that ends the check where the condition holds. -/
def refuse (condition : Bool) (e : ε) : Check ε Unit := if condition then fail e else pure ()

/-- An error after which the check goes on. -/
def complain (condition : Bool) (e : ε) : Check ε Unit :=
  if condition then ⟨[e], some (), fun _ => rfl⟩ else pure ()

def orFail (v : Option α) (e : ε) : Check ε α :=
  match v with
  | some a => pure a
  | none => fail e

/-- Go on with or without the value. -/
def attempt (x : Check ε α) : Check ε (Option α) := ⟨x.errors, some x.value, fun _ => rfl⟩

/-- The check has found nothing wrong. -/
def Accepts (x : Check ε α) (a : α) : Prop := x.errors = [] ∧ x.value = some a

/-- What is found of a list: each item's value is known to the checks of those after it. -/
def each (f : ℕ → List β → α → Check ε β) : ℕ → List β → List α → Check ε (List β)
  | _, out, [] => pure out
  | i, out, a :: as => do
    let b ← (f i out a).attempt
    each f (i + 1) (out ++ b.toList) as

instance [DecidableEq α] (x : Check ε α) (a : α) : Decidable (x.Accepts a) :=
  inferInstanceAs (Decidable (x.errors = [] ∧ x.value = some a))

@[simp] theorem accepts_pure {a b : α} : (pure a : Check ε α).Accepts b ↔ a = b := by
  simp [Accepts, pure, Check.pure]

@[simp] theorem accepts_bind {x : Check ε α} {f : α → Check ε β} {b : β} :
    (x >>= f).Accepts b ↔ ∃ a, x.Accepts a ∧ (f a).Accepts b := by
  obtain ⟨errors, value, h⟩ := x
  cases value with
  | none =>
    simp only [Accepts, bind, Check.bind]
    simp
  | some a =>
    simp only [Accepts, bind, Check.bind, List.append_eq_nil_iff, Option.some.injEq]
    constructor
    · rintro ⟨⟨h₁, h₂⟩, h₃⟩
      exact ⟨a, ⟨h₁, rfl⟩, h₂, h₃⟩
    · rintro ⟨_, ⟨h₁, rfl⟩, h₂, h₃⟩
      exact ⟨⟨h₁, h₂⟩, h₃⟩

@[simp] theorem accepts_map {x : Check ε α} {f : α → β} {b : β} :
    (f <$> x).Accepts b ↔ ∃ a, x.Accepts a ∧ f a = b := by
  have : f <$> x = x >>= fun a => pure (f a) := rfl
  simp [this]

@[simp] theorem accepts_fail {e : ε} {a : α} : (fail e : Check ε α).Accepts a ↔ False := by
  simp [Accepts, fail]

@[simp] theorem accepts_complain {condition : Bool} {e : ε} {u : Unit} :
    (complain condition e).Accepts u ↔ condition = false := by
  cases condition <;> simp [complain, Accepts, pure, Check.pure]

@[simp] theorem accepts_orFail {v : Option α} {e : ε} {a : α} :
    (orFail v e).Accepts a ↔ v = some a := by
  cases v <;> simp [orFail]

@[simp] theorem accepts_attempt {x : Check ε α} {a : Option α} :
    x.attempt.Accepts a ↔ ∃ b, x.Accepts b ∧ a = some b := by
  simp only [Accepts, attempt, Option.some.injEq]
  constructor
  · rintro ⟨h, rfl⟩
    obtain ⟨b, hb⟩ := Option.isSome_iff_exists.mp (x.settled h)
    exact ⟨b, ⟨h, hb⟩, hb⟩
  · rintro ⟨b, ⟨h, hb⟩, rfl⟩
    exact ⟨h, hb⟩

theorem Accepts.unique {x : Check ε α} {a b : α} (ha : x.Accepts a) (hb : x.Accepts b) : a = b :=
  Option.some.inj (ha.2.symm.trans hb.2)

@[simp] theorem accepts_each_nil {f : ℕ → List β → α → Check ε β} {i : ℕ} {out l : List β} :
    (each f i out []).Accepts l ↔ out = l := by
  simp [each]

@[simp] theorem accepts_each_cons {f : ℕ → List β → α → Check ε β} {i : ℕ} {out l : List β}
    {a : α} {as : List α} :
    (each f i out (a :: as)).Accepts l ↔
      ∃ b, (f i out a).Accepts b ∧ (each f (i + 1) (out ++ [b]) as).Accepts l := by
  simp only [each, accepts_bind, accepts_attempt]
  constructor
  · rintro ⟨_, ⟨b, hb, rfl⟩, h⟩
    exact ⟨b, hb, h⟩
  · rintro ⟨b, hb, h⟩
    exact ⟨some b, ⟨b, hb, rfl⟩, h⟩

/-- Each item of an accepted list has been accepted in its place, and nothing else was added. -/
theorem accepts_each {f : ℕ → List β → α → Check ε β} {as : List α} :
    ∀ {i : ℕ} {out l : List β}, (each f i out as).Accepts l ↔
      ∃ bs, l = out ++ bs ∧ bs.length = as.length ∧
        ∀ k a b, as[k]? = some a → bs[k]? = some b →
          (f (i + k) (out ++ bs.take k) a).Accepts b := by
  induction as with
  | nil =>
    intro i out l
    simp only [accepts_each_nil]
    constructor
    · rintro rfl
      exact ⟨[], by simp⟩
    · rintro ⟨bs, rfl, hlen, -⟩
      simp [List.length_eq_zero_iff.mp hlen]
  | cons a as ih =>
    intro i out l
    simp only [accepts_each_cons, ih]
    constructor
    · rintro ⟨b, hb, bs, rfl, hlen, hall⟩
      refine ⟨b :: bs, by simp, by simp [hlen], ?_⟩
      intro k x y hx hy
      cases k with
      | zero =>
        obtain rfl : a = x := by simpa using hx
        obtain rfl : b = y := by simpa using hy
        simpa using hb
      | succ k =>
        have hxy := hall k x y (by simpa using hx) (by simpa using hy)
        rw [Nat.add_right_comm, Nat.add_assoc] at hxy
        simpa using hxy
    · rintro ⟨bs, rfl, hlen, hall⟩
      cases bs with
      | nil => simp at hlen
      | cons b bs =>
        refine ⟨b, by simpa using hall 0 a b rfl rfl, bs, by simp, by simpa using hlen, ?_⟩
        intro k x y hx hy
        have hxy := hall (k + 1) x y (by simpa using hx) (by simpa using hy)
        rw [Nat.add_right_comm, Nat.add_assoc]
        simpa using hxy

end Check
end ClaudeFleet
