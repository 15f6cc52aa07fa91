import Mathlib.Tactic

/-! A bounded number of slots, taken at once while one is free. Who finds none waits; a slot given
back wakes the first who waits, who takes it only when he continues. -/
namespace ClaudeFleet

/-- How many slots are taken, and who waits or has been woken and is yet to continue. -/
structure SlotGate (C : Type*) where
  running : ℕ := 0
  waiters : List C := []
  woken : List C := []

namespace SlotGate

variable {C : Type*}

/-- One comes: a slot is taken, or he waits. -/
def enter (limit : ℕ) (g : SlotGate C) (c : C) : SlotGate C :=
  if limit ≤ g.running then { g with waiters := g.waiters ++ [c] }
  else { g with running := g.running + 1 }

/-- A slot is given back. -/
def leave (g : SlotGate C) : SlotGate C :=
  match g.waiters with
  | [] => { g with running := g.running - 1 }
  | c :: waiters => { running := g.running - 1, waiters, woken := g.woken ++ [c] }

section
variable [DecidableEq C]

/-- One who was woken takes his slot. -/
def resume (g : SlotGate C) (c : C) : SlotGate C :=
  { g with running := g.running + 1, woken := g.woken.erase c }

/-- One waits no longer. -/
def quit (g : SlotGate C) (c : C) : SlotGate C := { g with waiters := g.waiters.erase c }

end

/-- Nobody waits while there is a slot that is neither taken nor on its way to one. -/
def Fed (limit : ℕ) (g : SlotGate C) : Prop :=
  g.waiters ≠ [] → limit ≤ g.running + g.woken.length

/-- The slots taken and those on their way are no more than there are. -/
def Within (limit : ℕ) (g : SlotGate C) : Prop := g.running + g.woken.length ≤ limit

/-- Whoever comes and takes a slot at once finds one that is on its way to nobody. -/
def Spare (limit : ℕ) (g : SlotGate C) : Prop :=
  g.running < limit → g.running + g.woken.length < limit

instance (limit : ℕ) (g : SlotGate C) : Decidable (g.Spare limit) :=
  inferInstanceAs (Decidable (g.running < limit → g.running + g.woken.length < limit))

variable {limit : ℕ} {g : SlotGate C} {c : C}

theorem Fed.enter (h : Fed limit g) : Fed limit (g.enter limit c) := by
  unfold SlotGate.enter
  split_ifs with hfull
  · exact fun _ => hfull.trans (Nat.le_add_right _ _)
  · intro hw
    have := h hw
    dsimp only
    omega

theorem Fed.leave (h : Fed limit g) : Fed limit g.leave := by
  unfold SlotGate.leave
  split
  · next hw => exact fun hne => absurd hw hne
  · next c waiters hw =>
    intro _
    have := h (by simp [hw])
    simp only [List.length_append, List.length_singleton]
    omega

theorem Within.enter (h : Within limit g) (hspare : Spare limit g) :
    Within limit (g.enter limit c) := by
  unfold SlotGate.enter
  split_ifs with hfull
  · exact h
  · have := hspare (not_le.mp hfull)
    show g.running + 1 + g.woken.length ≤ limit
    omega

theorem Within.leave (h : Within limit g) (hrun : 0 < g.running) : Within limit g.leave := by
  unfold Within at h
  unfold SlotGate.leave Within
  split
  · dsimp only
    omega
  · simp only [List.length_append, List.length_singleton]
    omega

theorem running_leave (g : SlotGate C) : g.leave.running = g.running - 1 := by
  unfold SlotGate.leave
  split <;> rfl

variable [DecidableEq C]

theorem Fed.resume (h : Fed limit g) (hc : c ∈ g.woken) : Fed limit (g.resume c) := by
  intro hw
  have hlimit := h hw
  have hlen := List.length_erase_add_one hc
  show limit ≤ g.running + 1 + (g.woken.erase c).length
  omega

theorem Fed.quit (h : Fed limit g) : Fed limit (g.quit c) := by
  intro hw
  refine h fun hnil => hw ?_
  simp [SlotGate.quit, hnil]

theorem Within.resume (h : Within limit g) (hc : c ∈ g.woken) : Within limit (g.resume c) := by
  have hlen := List.length_erase_add_one hc
  unfold Within at h
  show g.running + 1 + (g.woken.erase c).length ≤ limit
  omega

theorem Within.quit (h : Within limit g) : Within limit (g.quit c) := h

end SlotGate

end ClaudeFleet
