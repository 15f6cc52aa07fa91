import ClaudeFleet.Transition
import Mathlib.Data.Rat.Floor

/-! The host's limits on token verifications that reach GitHub: how many are made at a time, and a
budget of rejections that is tested when a verification is admitted and spent when it ends. -/
namespace ClaudeFleet.RejectionBudget
open Transition

structure Limits where
  perMinute : ℚ
  maxInFlight : ℕ

structure Budget where
  tokens : ℚ
  at_ : ℚ

def refill (l : Limits) (b : Budget) (t : ℚ) : Budget :=
  ⟨min l.perMinute (b.tokens + (t - b.at_) * l.perMinute / 60000), t⟩

/-- Milliseconds until one more rejection fits; 0 when one fits now. -/
def waitMs (l : Limits) (b : Budget) (t : ℚ) : Budget × ℤ :=
  let b := refill l b t
  (b, if 1 ≤ b.tokens then 0 else ⌈(1 - b.tokens) * 60000 / l.perMinute⌉)

def spend (l : Limits) (b : Budget) (t : ℚ) : Budget :=
  let b := refill l b t
  { b with tokens := max 0 (b.tokens - 1) }

def knownGoodMax : ℕ := 10000
def knownGoodTtlMs : ℚ := 24 * 60 * 60000

variable {K : Type}

section
variable [DecidableEq K]

/-- The tokens GitHub has accepted, the one used longest ago first. -/
abbrev KnownGood (K : Type) := List (K × ℚ)

def KnownGood.delete (good : KnownGood K) (key : K) : KnownGood K := good.filter fun g => g.1 ≠ key

def isKnownGood (good : KnownGood K) (key : K) (t : ℚ) : Bool × KnownGood K :=
  match good.lookup key with
  | none => (false, good)
  | some time =>
    if knownGoodTtlMs < t - time then (false, good.delete key)
    else (true, good.delete key ++ [(key, time)])

def rememberGood (good : KnownGood K) (key : K) (t : ℚ) : KnownGood K :=
  let good := good.delete key
  (if knownGoodMax ≤ good.length then good.tail else good) ++ [(key, t)]

/-- A verification that is made, of a token that was or was not known to be good. -/
structure Check (K : Type) where
  key : K
  trusted : Bool
  admittedAt : ℚ

/-- What a verification ends with: an identity with a grant, or the status of the refusal. -/
inductive Outcome
  | ok
  | unauthorized
  | forbidden
  | badGateway
  | unavailable
  deriving DecidableEq

def Outcome.rejected : Outcome → Bool
  | .ok | .unavailable => false
  | .unauthorized | .forbidden | .badGateway => true

structure Ended (K : Type) extends Check K where
  outcome : Outcome
  endedAt : ℚ

/-- The gate, and beside it the clock and the verifications that have ended. -/
structure Gate (K : Type) where
  budget : Budget
  inFlight : List (Check K) := []
  knownGood : KnownGood K := []
  now : ℚ
  ended : List (Ended K) := []

inductive Action (K : Type)
  /-- A request with a token that no cache can answer for; its address may be limited. -/
  | gate (key : K) (limited : Bool) (t : ℚ)
  /-- One of the verifications in flight ends. -/
  | finish (i : ℕ) (outcome : Outcome) (t : ℚ)
  /-- The token of an open socket has been verified once more, past the gate. -/
  | reverified (key : K) (outcome : Outcome) (t : ℚ)

def Action.time : Action K → ℚ
  | .gate _ _ t => t
  | .finish _ _ t => t
  | .reverified _ _ t => t

def gate (l : Limits) (s : Gate K) (key : K) (limited : Bool) (t : ℚ) : Gate K :=
  let (trusted, knownGood) := isKnownGood s.knownGood key t
  let s := { s with knownGood, now := t }
  if !trusted && limited then s
  else if l.maxInFlight ≤ s.inFlight.length then s
  else
    let (budget, wait) := if trusted then (s.budget, 0) else waitMs l s.budget t
    let s := { s with budget }
    if 0 < wait then s
    else { s with inFlight := ⟨key, trusted, t⟩ :: s.inFlight }

def finish (l : Limits) (s : Gate K) (v : Check K) (outcome : Outcome) (t : ℚ) : Gate K :=
  let s := { s with now := t, ended := ⟨v, outcome, t⟩ :: s.ended }
  match outcome with
  | .ok => { s with knownGood := rememberGood s.knownGood v.key t }
  | .unavailable => s
  | .badGateway => { s with budget := spend l s.budget t }
  | .unauthorized | .forbidden =>
    { s with budget := spend l s.budget t, knownGood := s.knownGood.delete v.key }

def reverified (s : Gate K) (key : K) (outcome : Outcome) (t : ℚ) : Gate K :=
  let s := { s with now := t }
  match outcome with
  | .ok => { s with knownGood := rememberGood s.knownGood key t }
  | .unavailable | .badGateway => s
  | .unauthorized | .forbidden => { s with knownGood := s.knownGood.delete key }

def step (l : Limits) (s : Gate K) (a : Action K) : Option (Gate K) :=
  if a.time < s.now then none
  else
    match a with
    | .gate key limited t => some (gate l s key limited t)
    | .finish i outcome t =>
      (s.inFlight[i]?).map fun v =>
        finish l { s with inFlight := s.inFlight.eraseIdx i } v outcome t
    | .reverified key outcome t => some (reverified s key outcome t)

end

def init (l : Limits) (t : ℚ) : Gate K := { budget := ⟨l.perMinute, t⟩, now := t }

/-- A verification of a token that was not known to be good has ended in a rejection. -/
def Ended.counts (e : Ended K) : Bool := !e.trusted && e.outcome.rejected

/-- How many of these were admitted in an interval. -/
def rejections (s : Gate K) (a b : ℚ) : ℕ :=
  s.ended.countP fun e => e.counts && decide (a ≤ e.admittedAt) && decide (e.admittedAt ≤ b)

/-- Where the verification of a token that was not known to be good ends in a rejection, the budget
still holds one. -/
def Funded (l : Limits) (s : Gate K) : Action K → Prop
  | .gate _ _ _ | .reverified _ _ _ => True
  | .finish i outcome t => ∀ v, s.inFlight[i]? = some v → v.trusted = false →
      outcome.rejected = true → 1 ≤ (refill l s.budget t).tokens

instance (l : Limits) (s : Gate K) (a : Action K) : Decidable (Funded l s a) := by
  cases a <;> unfold Funded <;> infer_instance

variable {l : Limits} {a b : ℚ} {s : Gate K} {t : ℚ}

theorem refill_tokens_le (l : Limits) (b : Budget) (t : ℚ) :
    (refill l b t).tokens ≤ l.perMinute := min_le_left _ _

theorem refill_tokens_nonneg {c : Budget} (hp : 0 ≤ l.perMinute) (hc : 0 ≤ c.tokens)
    (ht : c.at_ ≤ t) : 0 ≤ (refill l c t).tokens := by
  have hgain : 0 ≤ (t - c.at_) * l.perMinute / 60000 :=
    div_nonneg (mul_nonneg (sub_nonneg.mpr ht) hp) (by norm_num)
  exact le_min hp (add_nonneg hc hgain)

/-- A wait of 0 says that one more rejection fits. -/
theorem one_le_of_waitMs {c : Budget} (hp : 0 < l.perMinute) (h : ¬ 0 < (waitMs l c t).2) :
    1 ≤ (refill l c t).tokens := by
  by_contra hfew
  apply h
  have hgap : 0 < 1 - (refill l c t).tokens := by linarith
  simp only [waitMs, if_neg hfew]
  exact Int.ceil_pos.mpr (div_pos (mul_pos hgap (by norm_num)) hp)

/-- The counted verifications of the interval that had ended when it was over. -/
def early (ended : List (Ended K)) (a b : ℚ) : ℕ :=
  ended.countP fun e =>
    e.counts && decide (a ≤ e.admittedAt) && decide (e.admittedAt ≤ b) && decide (e.endedAt ≤ b)

/-- Those that ended later. -/
def late (ended : List (Ended K)) (a b : ℚ) : ℕ :=
  ended.countP fun e =>
    e.counts && decide (a ≤ e.admittedAt) && decide (e.admittedAt ≤ b) && decide (b < e.endedAt)

/-- The verifications admitted before the interval was over that have yet to end. -/
def open_ (inFlight : List (Check K)) (b : ℚ) : ℕ :=
  inFlight.countP fun v => decide (v.admittedAt ≤ b)

theorem rejections_eq (s : Gate K) (a b : ℚ) : rejections s a b = early s.ended a b + late s.ended a b := by
  unfold rejections early late
  induction s.ended with
  | nil => rfl
  | cons e es ih =>
    simp only [List.countP_cons, ih]
    rcases le_or_gt e.endedAt b with h | h
    · simp [h, not_lt.mpr h]
      omega
    · simp [h, not_le.mpr h]
      omega

/-- The accounting of one interval: what has been counted in it and what is left in the budget
together never exceed what the budget began it with and has regained since. -/
structure Accounted (l : Limits) (a b : ℚ) (s : Gate K) : Prop where
  nonneg : 0 ≤ s.budget.tokens
  at_le : s.budget.at_ ≤ s.now
  pending : ∀ v ∈ s.inFlight, v.trusted = false → v.admittedAt ≤ s.budget.at_
  before : s.budget.at_ < a → early s.ended a b = 0
  balance : s.now ≤ b →
    early s.ended a b + s.budget.tokens ≤ l.perMinute + l.perMinute * max 0 (s.budget.at_ - a) / 60000
  bounded : early s.ended a b ≤ l.perMinute + l.perMinute * (b - a) / 60000
  later : s.now ≤ b → late s.ended a b = 0
  admitted : s.inFlight.length ≤ l.maxInFlight
  overlap : late s.ended a b + open_ s.inFlight b ≤ l.maxInFlight

theorem early_cons (e : Ended K) (es : List (Ended K)) (a b : ℚ) :
    early (e :: es) a b = early es a b +
      if e.counts && decide (a ≤ e.admittedAt) && decide (e.admittedAt ≤ b) &&
        decide (e.endedAt ≤ b) then 1 else 0 :=
  List.countP_cons

theorem late_cons (e : Ended K) (es : List (Ended K)) (a b : ℚ) :
    late (e :: es) a b = late es a b +
      if e.counts && decide (a ≤ e.admittedAt) && decide (e.admittedAt ≤ b) &&
        decide (b < e.endedAt) then 1 else 0 :=
  List.countP_cons

theorem open_eraseIdx {vs : List (Check K)} {i : ℕ} {v : Check K} (hv : vs[i]? = some v) (b : ℚ) :
    open_ vs b = open_ (vs.eraseIdx i) b + if v.admittedAt ≤ b then 1 else 0 := by
  obtain ⟨hi, rfl⟩ := List.getElem?_eq_some_iff.mp hv
  have hcount := (List.getElem_cons_eraseIdx_perm hi).countP_eq fun v => decide (v.admittedAt ≤ b)
  simpa [open_, List.countP_cons] using hcount.symm

theorem early_cons_of_not {e : Ended K} (hc : e.counts = false) (es : List (Ended K)) (a b : ℚ) :
    early (e :: es) a b = early es a b := by simp [early_cons, hc]

theorem late_cons_of_not {e : Ended K} (hc : e.counts = false) (es : List (Ended K)) (a b : ℚ) :
    late (e :: es) a b = late es a b := by simp [late_cons, hc]

theorem Accounted.init (hp : 0 ≤ l.perMinute) (hab : a ≤ b) (t : ℚ) :
    Accounted l a b (init l t : Gate K) := by
  have hspan : 0 ≤ l.perMinute * (b - a) / 60000 :=
    div_nonneg (mul_nonneg hp (sub_nonneg.mpr hab)) (by norm_num)
  have hgain : 0 ≤ l.perMinute * max 0 (t - a) / 60000 :=
    div_nonneg (mul_nonneg hp (le_max_left _ _)) (by norm_num)
  exact
    { nonneg := hp
      at_le := le_rfl
      pending := fun _ hv => absurd hv List.not_mem_nil
      before := fun _ => rfl
      balance := fun _ => by
        show ((0 : ℕ) : ℚ) + l.perMinute ≤ l.perMinute + l.perMinute * max 0 (t - a) / 60000
        linarith [Nat.cast_zero (R := ℚ)]
      bounded := by
        show ((0 : ℕ) : ℚ) ≤ l.perMinute + l.perMinute * (b - a) / 60000
        rw [Nat.cast_zero]
        linarith
      later := fun _ => rfl
      admitted := Nat.zero_le _
      overlap := Nat.zero_le _ }

theorem Accounted.tick (h : Accounted l a b s) (ht : s.now ≤ t) :
    Accounted l a b { s with now := t } where
  nonneg := h.nonneg
  at_le := h.at_le.trans ht
  pending := h.pending
  before := h.before
  balance hb := h.balance (ht.trans hb)
  bounded := h.bounded
  later hb := h.later (ht.trans hb)
  admitted := h.admitted
  overlap := h.overlap

theorem Accounted.refill (hp : 0 ≤ l.perMinute) (h : Accounted l a b s) (ht : s.now ≤ t) :
    Accounted l a b { s with now := t, budget := refill l s.budget t } where
  nonneg := refill_tokens_nonneg hp h.nonneg (h.at_le.trans ht)
  at_le := le_rfl
  pending v hv hu := (h.pending v hv hu).trans (h.at_le.trans ht)
  before hlt := h.before ((h.at_le.trans ht).trans_lt hlt)
  balance hb := by
    have hbal := h.balance (ht.trans hb)
    have hat : s.budget.at_ ≤ t := h.at_le.trans ht
    show (early s.ended a b : ℚ) + (RejectionBudget.refill l s.budget t).tokens ≤
      l.perMinute + l.perMinute * max 0 (t - a) / 60000
    rcases lt_or_ge s.budget.at_ a with hlt | hge
    · -- nothing has been counted yet, and the budget is never fuller than at its beginning
      have hgain : 0 ≤ l.perMinute * max 0 (t - a) / 60000 :=
        div_nonneg (mul_nonneg hp (le_max_left _ _)) (by norm_num)
      have hfull := refill_tokens_le l s.budget t
      rw [h.before hlt, Nat.cast_zero]
      linarith
    · have hmore : (RejectionBudget.refill l s.budget t).tokens ≤
          s.budget.tokens + (t - s.budget.at_) * l.perMinute / 60000 := min_le_right _ _
      rw [max_eq_right (sub_nonneg.mpr hge)] at hbal
      rw [max_eq_right (sub_nonneg.mpr (hge.trans hat))]
      linarith
  bounded := h.bounded
  later hb := h.later (ht.trans hb)
  admitted := h.admitted
  overlap := h.overlap

/-- Tokens may be taken out of the budget without a verification that counts. -/
theorem Accounted.lower {x : ℚ} (h : Accounted l a b s) (hx : 0 ≤ x) (hle : x ≤ s.budget.tokens) :
    Accounted l a b { s with budget := { s.budget with tokens := x } } where
  nonneg := hx
  at_le := h.at_le
  pending := h.pending
  before := h.before
  balance hb := by
    have hbal := h.balance hb
    show (early s.ended a b : ℚ) + x ≤ _
    linarith
  bounded := h.bounded
  later := h.later
  admitted := h.admitted
  overlap := h.overlap

theorem Accounted.knownGood (h : Accounted l a b s) (good : KnownGood K) :
    Accounted l a b { s with knownGood := good } where
  nonneg := h.nonneg
  at_le := h.at_le
  pending := h.pending
  before := h.before
  balance := h.balance
  bounded := h.bounded
  later := h.later
  admitted := h.admitted
  overlap := h.overlap

theorem Accounted.admit {v : Check K} (h : Accounted l a b s)
    (hroom : s.inFlight.length < l.maxInFlight) (hnow : v.admittedAt = s.now)
    (hv : v.trusted = false → v.admittedAt ≤ s.budget.at_) :
    Accounted l a b { s with inFlight := v :: s.inFlight } where
  nonneg := h.nonneg
  at_le := h.at_le
  pending w hw hu := by
    rcases List.mem_cons.mp hw with rfl | hw
    · exact hv hu
    · exact h.pending w hw hu
  before := h.before
  balance := h.balance
  bounded := h.bounded
  later := h.later
  admitted := hroom
  overlap := by
    show late s.ended a b + (v :: s.inFlight).countP (fun v => decide (v.admittedAt ≤ b)) ≤ _
    rcases le_or_gt s.now b with hb | hb
    · have hlen := List.countP_le_length (p := fun v => decide (v.admittedAt ≤ b))
        (l := v :: s.inFlight)
      rw [h.later hb]
      simp only [List.length_cons] at hlen
      omega
    · have hout : ¬ v.admittedAt ≤ b := by rw [hnow]; exact not_le.mpr hb
      have := h.overlap
      simpa [List.countP_cons, hout, open_] using this

/-- A verification that does not count ends. -/
theorem Accounted.release {i : ℕ} {v : Check K} {outcome : Outcome} (h : Accounted l a b s)
    (hv : s.inFlight[i]? = some v) (hc : (Ended.mk v outcome t).counts = false) :
    Accounted l a b
      { s with inFlight := s.inFlight.eraseIdx i, ended := ⟨v, outcome, t⟩ :: s.ended } where
  nonneg := h.nonneg
  at_le := h.at_le
  pending w hw := h.pending w (List.mem_of_mem_eraseIdx hw)
  before hlt := by
    rw [early_cons_of_not hc]
    exact h.before hlt
  balance hb := by
    rw [early_cons_of_not hc]
    exact h.balance hb
  bounded := by
    rw [early_cons_of_not hc]
    exact h.bounded
  later hb := by
    rw [late_cons_of_not hc]
    exact h.later hb
  admitted := (List.length_eraseIdx_le _ _).trans h.admitted
  overlap := by
    rw [late_cons_of_not hc]
    have hopen := open_eraseIdx hv b
    have hsum := h.overlap
    show late s.ended a b + open_ (s.inFlight.eraseIdx i) b ≤ l.maxInFlight
    omega

/-- A rejection that counts is paid for in full: what it takes is there. -/
theorem Accounted.charge {i : ℕ} {v : Check K} (outcome : Outcome) (hab : a ≤ b)
    (hp : 0 ≤ l.perMinute) (h : Accounted l a b s) (hv : s.inFlight[i]? = some v)
    (hu : v.trusted = false) (hone : 1 ≤ s.budget.tokens) :
    Accounted l a b
      { s with
        budget := { s.budget with tokens := s.budget.tokens - 1 }
        inFlight := s.inFlight.eraseIdx i
        ended := ⟨v, outcome, s.now⟩ :: s.ended } := by
  have hat : v.admittedAt ≤ s.budget.at_ := h.pending v (List.mem_of_getElem? hv) hu
  have hbalance : s.now ≤ b → (early (⟨v, outcome, s.now⟩ :: s.ended) a b : ℚ) +
      (s.budget.tokens - 1) ≤ l.perMinute + l.perMinute * max 0 (s.budget.at_ - a) / 60000 := by
    intro hb
    have hbal := h.balance hb
    rw [early_cons, Nat.cast_add]
    split
    · rw [Nat.cast_one]
      linarith
    · rw [Nat.cast_zero]
      linarith
  exact
    { nonneg := sub_nonneg.mpr hone
      at_le := h.at_le
      pending := fun w hw => h.pending w (List.mem_of_mem_eraseIdx hw)
      before := by
        intro hlt
        have hout : ¬ a ≤ v.admittedAt := not_le.mpr (hat.trans_lt hlt)
        simpa [early_cons, hout] using h.before hlt
      balance := hbalance
      bounded := by
        rcases le_or_gt s.now b with hb | hb
        · have hspan : max 0 (s.budget.at_ - a) ≤ b - a :=
            max_le (sub_nonneg.mpr hab) (sub_le_sub_right (h.at_le.trans hb) a)
          have hgain := mul_le_mul_of_nonneg_left hspan hp
          have hbal := hbalance hb
          have : l.perMinute * max 0 (s.budget.at_ - a) / 60000 ≤
              l.perMinute * (b - a) / 60000 := div_le_div_of_nonneg_right hgain (by norm_num)
          show (early (⟨v, outcome, s.now⟩ :: s.ended) a b : ℚ) ≤ _
          linarith
        · have hout : ¬ s.now ≤ b := not_le.mpr hb
          simpa [early_cons, hout] using h.bounded
      later := by
        intro hb
        have hout : ¬ b < s.now := not_lt.mpr hb
        simpa [late_cons, hout] using h.later hb
      admitted := (List.length_eraseIdx_le _ _).trans h.admitted
      overlap := by
        show late (⟨v, outcome, s.now⟩ :: s.ended) a b + open_ (s.inFlight.eraseIdx i) b ≤ _
        have hopen := open_eraseIdx hv b
        have hsum := h.overlap
        rw [late_cons]
        by_cases hin : v.admittedAt ≤ b
        · rw [if_pos hin] at hopen
          split <;> omega
        · simp only [hin, decide_false, Bool.and_false, Bool.false_and, Bool.false_eq_true,
            if_false]
          omega }

theorem Accounted.rejections_le (h : Accounted l a b s) :
    (rejections s a b : ℚ) ≤ l.perMinute + l.perMinute * (b - a) / 60000 + l.maxInFlight := by
  have hlate : (late s.ended a b : ℚ) ≤ l.maxInFlight := by
    exact_mod_cast (Nat.le_add_right _ _).trans h.overlap
  have hearly := h.bounded
  rw [rejections_eq, Nat.cast_add]
  linarith

variable [DecidableEq K]

theorem Accounted.gate (hp : 0 < l.perMinute) (h : Accounted l a b s) (key : K) (limited : Bool)
    (ht : s.now ≤ t) : Accounted l a b (gate l s key limited t) := by
  obtain ⟨trusted, good, hk⟩ : ∃ trusted good, isKnownGood s.knownGood key t = (trusted, good) :=
    ⟨_, _, rfl⟩
  have hseen := (h.tick ht).knownGood good
  unfold RejectionBudget.gate
  simp only [hk]
  split
  · exact hseen
  split
  · exact hseen
  next hroom =>
  rw [not_le] at hroom
  cases trusted with
  | true =>
    simp only [if_true, lt_irrefl, if_false]
    exact hseen.admit hroom rfl fun hu => absurd hu Bool.noConfusion
  | false =>
    simp only [Bool.false_eq_true, if_false]
    have hfilled := (h.refill hp.le ht).knownGood good
    split
    · exact hfilled
    · exact hfilled.admit hroom rfl fun _ => le_rfl

theorem Accounted.finish {i : ℕ} {v : Check K} {outcome : Outcome} (hab : a ≤ b)
    (hp : 0 ≤ l.perMinute) (h : Accounted l a b s) (ht : s.now ≤ t)
    (hv : s.inFlight[i]? = some v)
    (hfund : v.trusted = false → outcome.rejected = true →
      1 ≤ (RejectionBudget.refill l s.budget t).tokens) :
    Accounted l a b
      (finish l { s with inFlight := s.inFlight.eraseIdx i } v outcome t) := by
  by_cases hc : (Ended.mk v outcome t).counts = true
  · -- a rejection that counts: the budget pays for it
    obtain ⟨hu, hr⟩ : v.trusted = false ∧ outcome.rejected = true := by
      simpa [Ended.counts] using hc
    have hpaid := (h.refill hp ht).charge outcome hab hp hv hu (hfund hu hr)
    have hfloor : max 0 ((RejectionBudget.refill l s.budget t).tokens - 1) =
        (RejectionBudget.refill l s.budget t).tokens - 1 :=
      max_eq_right (sub_nonneg.mpr (hfund hu hr))
    cases outcome with
    | ok => cases hr
    | unavailable => cases hr
    | badGateway =>
      simp only [RejectionBudget.finish, spend, hfloor]
      exact hpaid
    | unauthorized =>
      simp only [RejectionBudget.finish, spend, hfloor]
      exact hpaid.knownGood _
    | forbidden =>
      simp only [RejectionBudget.finish, spend, hfloor]
      exact hpaid.knownGood _
  · rw [Bool.not_eq_true] at hc
    have htaken : Accounted l a b
        { s with
          now := t
          budget := spend l s.budget t
          inFlight := s.inFlight.eraseIdx i
          ended := ⟨v, outcome, t⟩ :: s.ended } := by
      have hreleased := (h.refill hp ht).release hv hc
      refine hreleased.lower (le_max_left _ _) (max_le hreleased.nonneg ?_)
      exact sub_le_self _ zero_le_one
    have hended := (h.tick ht).release hv hc
    cases outcome with
    | ok => exact hended.knownGood _
    | unavailable => exact hended
    | badGateway => exact htaken
    | unauthorized => exact htaken.knownGood _
    | forbidden => exact htaken.knownGood _

theorem Accounted.reverified (h : Accounted l a b s) (key : K) (outcome : Outcome)
    (ht : s.now ≤ t) : Accounted l a b (reverified s key outcome t) := by
  cases outcome with
  | ok => exact (h.tick ht).knownGood _
  | unauthorized => exact (h.tick ht).knownGood _
  | forbidden => exact (h.tick ht).knownGood _
  | badGateway => exact h.tick ht
  | unavailable => exact h.tick ht

theorem step_accounted {s' : Gate K} {x : Action K} (hab : a ≤ b) (hp : 0 < l.perMinute)
    (h : Accounted l a b s) (hok : Funded l s x) (hs : step l s x = some s') :
    Accounted l a b s' := by
  unfold step at hs
  split at hs
  · cases hs
  next ht =>
  rw [not_lt] at ht
  cases x with
  | gate key limited t =>
    simp only [Option.some.injEq] at hs
    exact hs ▸ h.gate hp key limited ht
  | finish i outcome t =>
    obtain ⟨v, hv, rfl⟩ := Option.map_eq_some_iff.mp hs
    exact h.finish hab hp.le ht hv (hok v hv)
  | reverified key outcome t =>
    simp only [Option.some.injEq] at hs
    exact hs ▸ h.reverified key outcome ht

/-- However its verifications overlap, a run that never takes a rejection out of an empty budget
admits in every interval of length `T` at most `p + p * T / 60000` rejections, and as many more as
may be in flight. -/
theorem rejections_bounded (l : Limits) (hp : 1 ≤ l.perMinute) (t₀ : ℚ) (as : List (Action K))
    (s : Gate K) (hr : run (step l) (init l t₀) as = some s)
    (hok : Along (step l) (Funded l) (init l t₀) as) (a T : ℚ) (hT : 0 ≤ T) :
    (rejections s a (a + T) : ℚ) ≤
      l.perMinute + l.perMinute * T / 60000 + l.maxInFlight := by
  have hab : a ≤ a + T := le_add_of_nonneg_right hT
  have hpos : 0 < l.perMinute := zero_lt_one.trans_le hp
  have hI : Accounted l a (a + T) s :=
    run_invariant_along (fun _ _ _ h hf hs => step_accounted hab hpos h hf hs)
      (Accounted.init hpos.le hab t₀) hr hok
  simpa using hI.rejections_le

/-- Two tokens a minute apart are refused; the second is let through by what was regained. -/
def sparse : List (Action Bool) :=
  [.gate true false 0, .finish 0 .unauthorized 100, .gate false false 60100,
    .finish 0 .badGateway 60200]

theorem sparse_bounded : ∃ s, run (step ⟨1, 3⟩) (init ⟨1, 3⟩ 0) sparse = some s ∧
    (rejections s 0 (0 + 60000) : ℚ) ≤ 1 + 1 * 60000 / 60000 + (3 : ℕ) := by
  have hsome : (run (step ⟨1, 3⟩) (init ⟨1, 3⟩ 0) sparse).isSome = true := by decide +kernel
  obtain ⟨s, hs⟩ := Option.isSome_iff_exists.mp hsome
  exact ⟨s, hs, rejections_bounded ⟨1, 3⟩ le_rfl 0 sparse s hs (by decide +kernel) 0 60000
    (by norm_num)⟩

/-- Three unknown tokens are let in beside one another while the budget holds one rejection, and
three more a minute later: refusing the first three cost it no more than the one. -/
def crowded : List (Action ℕ) :=
  [.gate 0 false 0, .gate 1 false 0, .gate 2 false 0, .finish 0 .unauthorized 0,
    .finish 0 .unauthorized 0, .finish 0 .unauthorized 0, .gate 3 false 60000,
    .gate 4 false 60000, .gate 5 false 60000, .finish 0 .unauthorized 60000,
    .finish 0 .unauthorized 60000, .finish 0 .unauthorized 60000]

theorem crowded_exceeds : ∃ s, run (step ⟨1, 3⟩) (init ⟨1, 3⟩ 0) crowded = some s ∧
    1 + 1 * 60000 / 60000 + 3 < (rejections s 0 (0 + 60000) : ℚ) := by
  have hsix : (run (step ⟨1, 3⟩) (init ⟨1, 3⟩ 0) crowded).map (fun s => rejections s 0 (0 + 60000)) =
      some 6 := by decide +kernel
  obtain ⟨s, hs, hcount⟩ := Option.map_eq_some_iff.mp hsix
  refine ⟨s, hs, ?_⟩
  rw [hcount]
  norm_num

end ClaudeFleet.RejectionBudget
