import Mathlib.Tactic

/-! The Gregorian calendar over the days since 1 January 1970. -/
namespace ClaudeFleet.Calendar

structure Date where
  y : ℤ
  mo : ℤ
  d : ℤ
  deriving DecidableEq

def leap (y : ℤ) : Bool := y % 4 = 0 && (y % 100 ≠ 0 || y % 400 = 0)

def monthLength (y mo : ℤ) : ℤ :=
  if mo = 2 then if leap y then 29 else 28
  else if mo = 4 ∨ mo = 6 ∨ mo = 9 ∨ mo = 11 then 30 else 31

/-- A day of the calendar. -/
def Date.Valid (date : Date) : Prop :=
  1 ≤ date.mo ∧ date.mo ≤ 12 ∧ 1 ≤ date.d ∧ date.d ≤ monthLength date.y date.mo

/-- Years are counted from March here, so that the leap day comes last in its year. -/
def marchYear (date : Date) : ℤ := if date.mo ≤ 2 then date.y - 1 else date.y

def marchMonth (date : Date) : ℤ := if date.mo ≤ 2 then date.mo + 9 else date.mo - 3

/-- The days since 1 January 1970, which is 719468 days after 1 March of year 0. -/
def daysOf (date : Date) : ℤ :=
  365 * marchYear date + marchYear date / 4 - marchYear date / 100 + marchYear date / 400 +
    (153 * marchMonth date + 2) / 5 + date.d - 1 - 719468

/-- The year since March that a day lies in, and how many days of it lie before: 400 years have
146097 days, a century of them 36524 but for the last, four years of it 1461 but for the last,
and a year 365 but for the fourth. -/
def marchOf (day : ℤ) : ℤ × ℤ :=
  let ofCycle := (day + 719468) % 146097
  let century := min 3 (ofCycle / 36524)
  let ofCentury := ofCycle - 36524 * century
  let single := min 3 (ofCentury % 1461 / 365)
  (400 * ((day + 719468) / 146097) + 100 * century + 4 * (ofCentury / 1461) + single,
    ofCentury % 1461 - 365 * single)

/-- The date some days after 1 March. -/
def dateIn (year ofYear : ℤ) : Date :=
  let month := (5 * ofYear + 2) / 153
  { y := if month < 10 then year else year + 1
    mo := if month < 10 then month + 3 else month - 9
    d := ofYear - (153 * month + 2) / 5 + 1 }

def dateOf (day : ℤ) : Date := dateIn (marchOf day).1 (marchOf day).2

theorem marchOf_days (day : ℤ) : ∃ year ofYear, marchOf day = (year, ofYear) ∧
    365 * year + year / 4 - year / 100 + year / 400 + ofYear = day + 719468 ∧
      0 ≤ ofYear ∧ ofYear ≤ 365 ∧
        (ofYear = 365 → (year + 1) % 4 = 0 ∧ ((year + 1) % 100 ≠ 0 ∨ (year + 1) % 400 = 0)) := by
  refine ⟨_, _, rfl, ?_⟩
  generalize hcycle : (day + 719468) / 146097 = cycle
  generalize hof : (day + 719468) % 146097 = ofCycle
  generalize hcentury : min 3 (ofCycle / 36524) = century
  generalize hcent : ofCycle - 36524 * century = ofCentury
  generalize hfour : ofCentury / 1461 = four
  generalize hrest : ofCentury % 1461 = ofFour
  generalize hsingle : min 3 (ofFour / 365) = single
  have hcycle' : day + 719468 = 146097 * cycle + ofCycle := by omega
  have h0 : 0 ≤ century ∧ century ≤ 3 ∧ 0 ≤ ofCentury ∧ ofCentury ≤ 36524 ∧
      (ofCentury = 36524 → century = 3) := by omega
  have h1 : 0 ≤ four ∧ four ≤ 24 ∧ 0 ≤ ofFour ∧ ofFour ≤ 1460 ∧
      (four = 24 → ofFour = 1460 → century = 3) := by omega
  have h2 : 0 ≤ single ∧ single ≤ 3 ∧ 365 * single ≤ ofFour ∧ ofFour - 365 * single ≤ 365 ∧
      (ofFour - 365 * single = 365 → ofFour = 1460) := by omega
  have h100 : (400 * cycle + 100 * century + 4 * four + single) / 100 = 4 * cycle + century := by
    omega
  have h4 : (400 * cycle + 100 * century + 4 * four + single) / 4 =
      100 * cycle + 25 * century + four := by omega
  have h400 : (400 * cycle + 100 * century + 4 * four + single) / 400 = cycle := by omega
  rw [h100, h4, h400]
  refine ⟨by omega, by omega, by omega, fun hlast => ?_⟩
  have h3 : single = 3 := by omega
  refine ⟨by omega, ?_⟩
  by_cases hfour' : four = 24
  · right
    have := h1.2.2.2.2 hfour' (h2.2.2.2.2 hlast)
    omega
  · left
    omega

theorem daysOf_dateOf (day : ℤ) : daysOf (dateOf day) = day := by
  obtain ⟨year, ofYear, hmarch, hdays, h0, h1, -⟩ := marchOf_days day
  simp only [dateOf, hmarch, daysOf, dateIn, marchYear, marchMonth]
  split_ifs <;> omega

theorem dateOf_valid (day : ℤ) : (dateOf day).Valid := by
  obtain ⟨year, ofYear, hmarch, -, h0, h1, hlast⟩ := marchOf_days day
  simp only [dateOf, hmarch, dateIn, Date.Valid, monthLength, leap, Bool.and_eq_true,
    decide_eq_true_eq, Bool.or_eq_true]
  refine ⟨by split_ifs <;> omega, by split_ifs <;> omega, by omega, ?_⟩
  split_ifs <;> omega

end ClaudeFleet.Calendar
