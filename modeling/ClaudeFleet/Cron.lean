import ClaudeFleet.Calendar
import ClaudeFleet.JsText
import ClaudeFleet.SkipSearch
import Mathlib.Data.List.SplitOn

/-! Five-field cron expressions and the search for the next minute that one of them matches. -/
namespace ClaudeFleet.Cron
open Js

structure CronSpec where
  minute : Finset ℕ
  hour : Finset ℕ
  dom : Finset ℕ
  month : Finset ℕ
  dow : Finset ℕ
  domStar : Bool
  dowStar : Bool
  deriving DecidableEq

structure Field where
  name : Text
  min : ℕ
  max : ℕ

def minuteField : Field := ⟨js "minute", 0, 59⟩
def hourField : Field := ⟨js "hour", 0, 23⟩
def domField : Field := ⟨js "day of month", 1, 31⟩
def monthField : Field := ⟨js "month", 1, 12⟩
def dowField : Field := ⟨js "day of week", 0, 7⟩

def star : UInt16 := 42
def dash : UInt16 := 45
def slash : UInt16 := 47
def comma : UInt16 := 44

/-- The digits a string begins with, and what follows them. -/
def digitRun (s : Text) : Text × Text := (s.takeWhile isDigit, s.dropWhile isDigit)

/-- An optional group of a mark and digits, and what follows it. -/
def optionalDigits (mark : UInt16) (s : Text) : Option Text × Text :=
  match s with
  | [] => (none, [])
  | u :: rest =>
    if u = mark ∧ (digitRun rest).1 ≠ [] then (some (digitRun rest).1, (digitRun rest).2)
    else (none, s)

/-- A star or the first number, and what follows it. -/
def leading (part : Text) : Text × Text :=
  if part.head? = some star then ([star], part.tail) else digitRun part

/-- The three groups of a list part: a star or the first number, the end of a range, a step. -/
def matchPart (part : Text) : Option (Text × Option Text × Option Text) :=
  let (first, s) := leading part
  let (second, s) := optionalDigits dash s
  let (third, s) := optionalDigits slash s
  if first ≠ [] ∧ s = [] then some (first, second, third) else none

def quoted (s : Text) : Text := js "\"" ++ s ++ js "\""

/-- Sunday has two numbers. -/
def wrapDay (f : Field) (v : ℕ) : ℕ := if f.name = js "day of week" ∧ v = 7 then 0 else v

/-- One pass of the loop over the list parts of a field. -/
def parsePart (f : Field) (part : Text) : Except Text (Finset ℕ) :=
  match matchPart part with
  | none => .error (js "invalid " ++ f.name ++ js " " ++ quoted part)
  | some (first, second, third) =>
    let step := (third.map decimal).getD 1
    if step < 1 then .error (js "invalid " ++ f.name ++ js " step " ++ quoted part)
    else if first = [star] ∧ second.isSome then
      .error (js "invalid " ++ f.name ++ js " " ++ quoted part)
    else
      let lo := if first = [star] then f.min else decimal first
      let hi := if first = [star] then f.max
        else (second.map decimal).getD (if third.isSome then f.max else lo)
      if lo < f.min ∨ hi > f.max ∨ lo > hi then
        .error (f.name ++ js " out of range in " ++ quoted part ++ js " (" ++ js (toString f.min) ++
          js "–" ++ js (toString f.max) ++ js ")")
      else .ok (((List.range' lo ((hi - lo) / step + 1) step).map (wrapDay f)).toFinset)

/-- The list parts in order, added to the set. -/
def parseParts (f : Field) : List Text → Finset ℕ → Except Text (Finset ℕ)
  | [], out => .ok out
  | part :: parts, out => do
    let values ← parsePart f part
    parseParts f parts (out ∪ values)

def parseField (raw : Text) (f : Field) : Except Text (Finset ℕ) :=
  parseParts f (raw.splitOn comma) ∅

/-- A trimmed string split at its white space; the empty string is one word. -/
def splitSpaces (s : Text) : List Text :=
  if s = [] then [[]] else (s.splitOnP isSpace).filter (· ≠ [])

def parseCron (expr : Text) : Except Text CronSpec :=
  match splitSpaces (trim expr) with
  | [minute, hour, dom, month, dow] => do
    let minutes ← parseField minute minuteField
    let hours ← parseField hour hourField
    let doms ← parseField dom domField
    let months ← parseField month monthField
    let dows ← parseField dow dowField
    .ok { minute := minutes, hour := hours, dom := doms, month := months, dow := dows
          domStar := dom = [star], dowStar := dow = [star] }
  | parts => .error (js "cron needs 5 fields (minute hour day-of-month month day-of-week), got " ++
      js (toString parts.length))

/-- The minutes by which a zone's clock is ahead, at each instant in milliseconds. On whole
minutes, whatever it is, it changes finitely often within any bounded time. -/
structure Zone where
  offset : ℤ → ℤ

structure Wall where
  y : ℤ
  mo : ℕ
  d : ℕ
  h : ℕ
  mi : ℕ
  dow : ℕ
  h_lt : h < 24
  mi_lt : mi < 60

def MIN : ℤ := 60000

def DAY : ℤ := 86400000

/-- The minutes on the zone's clock since 1 January 1970. -/
def localMinute (ms : ℤ) (tz : Zone) : ℤ := ms / MIN + tz.offset ms

/-- The clock at some minute; the first of January 1970 was a Thursday. -/
def clockAt (minute : ℤ) : Wall :=
  let date := Calendar.dateOf (minute / 1440)
  { y := date.y
    mo := date.mo.toNat
    d := date.d.toNat
    h := (minute % 1440 / 60).toNat
    mi := (minute % 60).toNat
    dow := ((minute / 1440 + 4) % 7).toNat
    h_lt := by omega
    mi_lt := by omega }

def wallClock (ms : ℤ) (tz : Zone) : Wall := clockAt (localMinute ms tz)

def dayMatches (s : CronSpec) (w : Wall) : Bool :=
  if w.mo ∉ s.month then false
  else
    let domOk : Bool := w.d ∈ s.dom
    let dowOk : Bool := w.dow ∈ s.dow
    if s.domStar && s.dowStar then true
    else if s.domStar then dowOk
    else if s.dowStar then domOk
    else domOk || dowOk

/-- The clock matches all the fields. -/
def fires (s : CronSpec) (w : Wall) : Bool :=
  dayMatches s w && decide (w.h ∈ s.hour) && decide (w.mi ∈ s.minute)

/-- The minutes passed over where the clock does not match: those left of the day or of the hour
as the clock stands. -/
def skip (s : CronSpec) (w : Wall) : ℕ :=
  if dayMatches s w = false then (23 - w.h) * 60 + (60 - w.mi)
  else if w.h ∉ s.hour then 60 - w.mi
  else 1

/-- The search from a whole minute on. -/
def nextFrom (spec : CronSpec) (tz : Zone) (limit t : ℤ) : Option ℤ :=
  if t ≤ limit then
    let w := wallClock t tz
    if dayMatches spec w = false then
      nextFrom spec tz limit (t + ((23 - w.h : ℕ) * 60 + (60 - w.mi : ℕ)) * MIN)
    else if w.h ∉ spec.hour then nextFrom spec tz limit (t + (60 - w.mi : ℕ) * MIN)
    else if w.mi ∈ spec.minute then some t
    else nextFrom spec tz limit (t + MIN)
  else none
termination_by (limit + 1 - t).toNat
decreasing_by
  all_goals
    have := (wallClock t tz).mi_lt
    simp only [MIN, w]
    omega

/-- The first minute after an instant that matches, or none within 732 days. -/
def nextFire (spec : CronSpec) (after : ℤ) (tz : Zone) : Option ℤ :=
  nextFrom spec tz (after + 732 * DAY) (after / MIN * MIN + MIN)

end ClaudeFleet.Cron
