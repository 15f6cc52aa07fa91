import ClaudeFleet.Cron

/-! What a cron expression says of a clock, and when the search finds the first minute that
matches. -/
namespace ClaudeFleet.Cron
open Js

/-- The list part stands for every step-th number from `lo` up to `hi`. -/
inductive Denotes (f : Field) : Text → ℕ → ℕ → ℕ → Prop
  | any : Denotes f [star] f.min f.max 1
  | anyStep {n} : Digits n → Denotes f (star :: slash :: n) f.min f.max (decimal n)
  | one {a} : Digits a → Denotes f a (decimal a) (decimal a) 1
  | oneStep {a n} : Digits a → Digits n → Denotes f (a ++ slash :: n) (decimal a) f.max (decimal n)
  | range {a b} : Digits a → Digits b → Denotes f (a ++ dash :: b) (decimal a) (decimal b) 1
  | rangeStep {a b n} : Digits a → Digits b → Digits n →
      Denotes f (a ++ dash :: (b ++ slash :: n)) (decimal a) (decimal b) (decimal n)

def PartMeans (f : Field) (part : Text) (v : ℕ) : Prop :=
  ∃ lo hi step, Denotes f part lo hi step ∧ ∃ k, lo + step * k ≤ hi ∧ v = wrapDay f (lo + step * k)

def FieldMeans (f : Field) (raw : Text) (v : ℕ) : Prop :=
  ∃ part ∈ raw.splitOn comma, PartMeans f part v

/-- The day fields of an expression: a star restricts nothing, and of two restricted fields
either will do. -/
def DayRule (dom dow : Text) (w : Wall) : Prop :=
  if dom ≠ [star] ∧ dow ≠ [star] then FieldMeans domField dom w.d ∨ FieldMeans dowField dow w.dow
  else (dom ≠ [star] → FieldMeans domField dom w.d) ∧ (dow ≠ [star] → FieldMeans dowField dow w.dow)

/-- The clock matches the five fields of the expression. -/
def Matches (expr : Text) (w : Wall) : Prop :=
  ∃ minute hour dom month dow, splitSpaces (trim expr) = [minute, hour, dom, month, dow] ∧
    FieldMeans minuteField minute w.mi ∧ FieldMeans hourField hour w.h ∧
      FieldMeans monthField month w.mo ∧ DayRule dom dow w

/-- How the groups of a list part are written. -/
def spelled (mark : UInt16) (digits : Option Text) : Text :=
  (digits.map fun d => mark :: d).getD []

theorem digitRun_spec (s : Text) :
    s = (digitRun s).1 ++ (digitRun s).2 ∧ ∀ u ∈ (digitRun s).1, isDigit u = true :=
  ⟨List.takeWhile_append_dropWhile.symm, fun _ hu => List.mem_takeWhile_imp hu⟩

/-- A row of digits ends where something else follows. -/
theorem digitRun_append {d r : Text} (hd : ∀ u ∈ d, isDigit u = true)
    (hr : ∀ u ∈ r.head?, isDigit u = false) : digitRun (d ++ r) = (d, r) := by
  rw [digitRun, List.takeWhile_append_of_pos hd, List.dropWhile_append_of_pos hd]
  cases r with
  | nil => simp
  | cons u r =>
    have hu : isDigit u = false := hr u rfl
    simp [hu]

theorem optionalDigits_spec (mark : UInt16) (s : Text) :
    s = spelled mark (optionalDigits mark s).1 ++ (optionalDigits mark s).2 ∧
      ∀ d ∈ (optionalDigits mark s).1, Digits d := by
  cases s with
  | nil => simp [optionalDigits, spelled]
  | cons u rest =>
    obtain ⟨hrest, hdigits⟩ := digitRun_spec rest
    simp only [optionalDigits]
    split_ifs with hmark
    · refine ⟨by simp [spelled, hmark.1, ← hrest], fun x hx => ?_⟩
      obtain rfl := Option.some.inj hx
      exact ⟨hmark.2, hdigits⟩
    · simp [spelled]

theorem optionalDigits_some {mark : UInt16} {d r : Text} (hd : Digits d)
    (hr : ∀ u ∈ r.head?, isDigit u = false) :
    optionalDigits mark (mark :: (d ++ r)) = (some d, r) := by
  simp [optionalDigits, digitRun_append hd.2 hr, hd.1]

theorem optionalDigits_none {mark : UInt16} {s : Text} (hs : ∀ u ∈ s.head?, u ≠ mark) :
    optionalDigits mark s = (none, s) := by
  cases s with
  | nil => rfl
  | cons u rest =>
    have hu : u ≠ mark := hs u rfl
    simp [optionalDigits, hu]

theorem leading_spec (part : Text) :
    part = (leading part).1 ++ (leading part).2 ∧
      ((leading part).1 = [star] ∨ ∀ u ∈ (leading part).1, isDigit u = true) := by
  unfold leading
  split_ifs with hstar
  · obtain ⟨rest, rfl⟩ := List.head?_eq_some_iff.mp hstar
    exact ⟨rfl, Or.inl rfl⟩
  · exact ⟨(digitRun_spec part).1, Or.inr (digitRun_spec part).2⟩

theorem matchPart_spec {part first : Text} {second third : Option Text}
    (h : matchPart part = some (first, second, third)) :
    part = first ++ (spelled dash second ++ spelled slash third) ∧
      (first = [star] ∨ Digits first) ∧ (∀ d ∈ second, Digits d) ∧ ∀ d ∈ third, Digits d := by
  obtain ⟨hpart, hfirst⟩ := leading_spec part
  obtain ⟨hrest, hsecond⟩ := optionalDigits_spec dash (leading part).2
  obtain ⟨hend, hthird⟩ := optionalDigits_spec slash (optionalDigits dash (leading part).2).2
  simp only [matchPart] at h
  split_ifs at h with hok
  obtain ⟨rfl, rfl, rfl⟩ : (leading part).1 = first ∧ _ = second ∧ _ = third := by simpa using h
  refine ⟨?_, hfirst.imp_right fun hd => ⟨hok.1, hd⟩, hsecond, hthird⟩
  rw [hok.2, List.append_nil] at hend
  rw [← hend, ← hrest, ← hpart]

theorem head_spelled {mark u : UInt16} {digits : Option Text}
    (h : u ∈ (spelled mark digits).head?) : u = mark := by
  cases digits with
  | none => simp [spelled] at h
  | some d => simpa [spelled] using h.symm

theorem optionalDigits_spelled {mark : UInt16} {digits : Option Text} {r : Text}
    (hd : ∀ d ∈ digits, Digits d) (hr : ∀ u ∈ r.head?, isDigit u = false ∧ u ≠ mark) :
    optionalDigits mark (spelled mark digits ++ r) = (digits, r) := by
  cases digits with
  | none => exact optionalDigits_none fun u hu => (hr u hu).2
  | some d => exact optionalDigits_some (hd d rfl) fun u hu => (hr u hu).1

theorem matchPart_spelled {first : Text} {second third : Option Text}
    (hfirst : first = [star] ∨ Digits first) (hsecond : ∀ d ∈ second, Digits d)
    (hthird : ∀ d ∈ third, Digits d) :
    matchPart (first ++ (spelled dash second ++ spelled slash third)) =
      some (first, second, third) := by
  have h₃ : optionalDigits slash (spelled slash third) = (third, []) := by
    simpa using optionalDigits_spelled (r := []) hthird (by simp)
  have h₂ : optionalDigits dash (spelled dash second ++ spelled slash third) =
      (second, spelled slash third) := by
    refine optionalDigits_spelled hsecond fun u hu => ?_
    rw [head_spelled hu]
    decide
  have hmarks : ∀ u ∈ (spelled dash second ++ spelled slash third).head?, isDigit u = false := by
    intro u hu
    cases second with
    | none =>
      have hslash : u = slash := head_spelled (by simpa [spelled] using hu)
      rw [hslash]
      decide
    | some d =>
      obtain rfl : dash = u := by simpa [spelled] using hu
      decide
  obtain rfl | hdigits := hfirst
  · simp [matchPart, leading, h₂, h₃]
  · have hhead : (first ++ (spelled dash second ++ spelled slash third)).head? ≠ some star := by
      obtain ⟨u, ds, rfl⟩ := List.exists_cons_of_ne_nil hdigits.1
      intro hstar
      obtain rfl : u = star := by simpa using hstar
      exact absurd (hdigits.2 star (by simp)) (by decide)
    have hleading : leading (first ++ (spelled dash second ++ spelled slash third)) =
        (first, spelled dash second ++ spelled slash third) := by
      rw [leading, if_neg hhead, digitRun_append hdigits.2 hmarks]
    simp [matchPart, hleading, h₂, h₃, hdigits.1]

/-- The bounds and the step the code reads off the groups of a list part. -/
def bounds (f : Field) (first : Text) (second third : Option Text) : ℕ × ℕ × ℕ :=
  let lo := if first = [star] then f.min else decimal first
  (lo, if first = [star] then f.max
    else (second.map decimal).getD (if third.isSome then f.max else lo),
    (third.map decimal).getD 1)

theorem denotes_of_groups (f : Field) {first : Text} {second third : Option Text}
    (hfirst : first = [star] ∨ Digits first) (hsecond : ∀ d ∈ second, Digits d)
    (hthird : ∀ d ∈ third, Digits d) (hstar : ¬(first = [star] ∧ second.isSome)) :
    Denotes f (first ++ (spelled dash second ++ spelled slash third))
      (bounds f first second third).1 (bounds f first second third).2.1
      (bounds f first second third).2.2 := by
  obtain rfl | hdigits := hfirst
  · obtain rfl : second = none := by simpa using hstar
    cases third with
    | none => exact .any
    | some n => exact .anyStep (hthird n rfl)
  · have hne : first ≠ [star] := by
      rintro rfl
      exact absurd (hdigits.2 star (by simp)) (by decide)
    cases second with
    | none =>
      cases third with
      | none => simpa [bounds, hne, spelled] using Denotes.one hdigits
      | some n => simpa [bounds, hne, spelled] using Denotes.oneStep hdigits (hthird n rfl)
    | some b =>
      have hb : Digits b := hsecond b rfl
      cases third with
      | none => simpa [bounds, hne, spelled] using Denotes.range hdigits hb
      | some n => simpa [bounds, hne, spelled] using Denotes.rangeStep hdigits hb (hthird n rfl)

theorem groups_of_denotes {f : Field} {part : Text} {lo hi step : ℕ}
    (h : Denotes f part lo hi step) : ∃ first second third,
      matchPart part = some (first, second, third) ∧
        bounds f first second third = (lo, hi, step) := by
  have hne : ∀ {a : Text}, Digits a → a ≠ [star] := by
    rintro a ha rfl
    exact absurd (ha.2 star (by simp)) (by decide)
  have hgroups := @matchPart_spelled
  cases h with
  | any => exact ⟨_, _, _, @hgroups [star] none none (Or.inl rfl) (by simp) (by simp), rfl⟩
  | anyStep hn =>
    exact ⟨_, _, _, @hgroups [star] none (some _) (Or.inl rfl) (by simp) (by simpa using hn), rfl⟩
  | one ha =>
    refine ⟨_, _, _, by
      simpa [spelled] using @hgroups _ none none (Or.inr ha) (by simp) (by simp), ?_⟩
    simp [bounds, hne ha]
  | oneStep ha hn =>
    refine ⟨_, _, _, by
      simpa [spelled] using @hgroups _ none (some _) (Or.inr ha) (by simp) (by simpa using hn), ?_⟩
    simp [bounds, hne ha]
  | range ha hb =>
    refine ⟨_, _, _, by
      simpa [spelled] using @hgroups _ (some _) none (Or.inr ha) (by simpa using hb) (by simp), ?_⟩
    simp [bounds, hne ha]
  | rangeStep ha hb hn =>
    refine ⟨_, _, _, by
      simpa [spelled] using
        @hgroups _ (some _) (some _) (Or.inr ha) (by simpa using hb) (by simpa using hn), ?_⟩
    simp [bounds, hne ha]

theorem mem_steps {lo hi step : ℕ} (hstep : 1 ≤ step) (hle : lo ≤ hi) (v : ℕ) :
    v ∈ List.range' lo ((hi - lo) / step + 1) step ↔
      ∃ k, lo + step * k ≤ hi ∧ v = lo + step * k := by
  rw [List.mem_range']
  refine exists_congr fun k => and_congr_left fun _ => ?_
  rw [Nat.lt_add_one_iff, Nat.le_div_iff_mul_le hstep, mul_comm]
  omega

/-- What the code has checked of a list part it accepts, and what it adds for it. -/
theorem parsePart_ok {f : Field} {part : Text} {values : Finset ℕ}
    (h : parsePart f part = .ok values) : ∃ first second third,
      matchPart part = some (first, second, third) ∧ ¬(first = [star] ∧ second.isSome) ∧
        ∃ lo hi step, bounds f first second third = (lo, hi, step) ∧ 1 ≤ step ∧ f.min ≤ lo ∧
          lo ≤ hi ∧ hi ≤ f.max ∧
            values = ((List.range' lo ((hi - lo) / step + 1) step).map (wrapDay f)).toFinset := by
  cases hm : matchPart part with
  | none => simp [parsePart, hm] at h
  | some groups =>
    obtain ⟨first, second, third⟩ := groups
    obtain ⟨lo, hi, step, hbounds⟩ : ∃ lo hi step, bounds f first second third = (lo, hi, step) :=
      ⟨_, _, _, rfl⟩
    have hcode : ∃ e₁ e₂ e₃ : Text, parsePart f part = if step < 1 then .error e₁
        else if first = [star] ∧ second.isSome then .error e₂
        else if lo < f.min ∨ hi > f.max ∨ lo > hi then .error e₃
        else .ok (((List.range' lo ((hi - lo) / step + 1) step).map (wrapDay f)).toFinset) := by
      obtain ⟨rfl, rfl, rfl⟩ : (bounds f first second third).1 = lo ∧
          (bounds f first second third).2.1 = hi ∧ (bounds f first second third).2.2 = step := by
        simp [hbounds]
      simp only [parsePart, hm, bounds]
      exact ⟨_, _, _, rfl⟩
    obtain ⟨e₁, e₂, e₃, hcode⟩ := hcode
    rw [hcode] at h
    split_ifs at h with hzero hstar hrange
    refine ⟨first, second, third, rfl, hstar, lo, hi, step, hbounds, by omega, by omega, by omega,
      by omega, ?_⟩
    exact (Except.ok.inj h).symm

theorem mem_parsePart {f : Field} {part : Text} {values : Finset ℕ}
    (h : parsePart f part = .ok values) (v : ℕ) : v ∈ values ↔ PartMeans f part v := by
  obtain ⟨first, second, third, hmatch, hstar, lo, hi, step, hbounds, hstep, -, hle, -, rfl⟩ :=
    parsePart_ok h
  obtain ⟨hpart, hfirst, hsecond, hthird⟩ := matchPart_spec hmatch
  simp only [List.mem_toFinset, List.mem_map, mem_steps hstep hle]
  constructor
  · rintro ⟨w, ⟨k, hk, rfl⟩, rfl⟩
    have hden := denotes_of_groups f hfirst hsecond hthird hstar
    rw [hbounds, ← hpart] at hden
    exact ⟨lo, hi, step, hden, k, hk, rfl⟩
  · rintro ⟨lo', hi', step', hden, k, hk, rfl⟩
    obtain ⟨first', second', third', hmatch', hbounds'⟩ := groups_of_denotes hden
    rw [hmatch] at hmatch'
    obtain ⟨rfl, rfl, rfl⟩ : first = first' ∧ second = second' ∧ third = third' := by
      simpa using hmatch'
    obtain ⟨rfl, rfl, rfl⟩ : lo = lo' ∧ hi = hi' ∧ step = step' := by
      simpa using hbounds.symm.trans hbounds'
    exact ⟨_, ⟨k, hk, rfl⟩, rfl⟩

theorem ok_of_bind {ε α β : Type} {x : Except ε α} {g : α → Except ε β} {b : β}
    (h : x >>= g = .ok b) : ∃ a, x = .ok a ∧ g a = .ok b := by
  cases x with
  | error e => cases h
  | ok a => exact ⟨a, rfl, h⟩

theorem mem_parseParts {f : Field} (v : ℕ) : ∀ {parts : List Text} {out values : Finset ℕ},
    parseParts f parts out = .ok values →
      (v ∈ values ↔ v ∈ out ∨ ∃ part ∈ parts, PartMeans f part v) := by
  intro parts
  induction parts with
  | nil =>
    intro out values h
    obtain rfl := Except.ok.inj h
    simp
  | cons part parts ih =>
    intro out values h
    obtain ⟨new, hpart, hrest⟩ := ok_of_bind h
    rw [ih hrest, Finset.mem_union, mem_parsePart hpart]
    simp [or_assoc]

theorem mem_parseField {f : Field} {raw : Text} {values : Finset ℕ}
    (h : parseField raw f = .ok values) (v : ℕ) : v ∈ values ↔ FieldMeans f raw v := by
  rw [mem_parseParts v h]
  simp [FieldMeans]

/-- The sets of an accepted expression are what its fields stand for. -/
theorem parseCron_ok {expr : Text} {spec : CronSpec} (h : parseCron expr = .ok spec) :
    ∃ minute hour dom month dow, splitSpaces (trim expr) = [minute, hour, dom, month, dow] ∧
      (∀ v, v ∈ spec.minute ↔ FieldMeans minuteField minute v) ∧
      (∀ v, v ∈ spec.hour ↔ FieldMeans hourField hour v) ∧
      (∀ v, v ∈ spec.dom ↔ FieldMeans domField dom v) ∧
      (∀ v, v ∈ spec.month ↔ FieldMeans monthField month v) ∧
      (∀ v, v ∈ spec.dow ↔ FieldMeans dowField dow v) ∧
      spec.domStar = decide (dom = [star]) ∧ spec.dowStar = decide (dow = [star]) := by
  unfold parseCron at h
  split at h
  · rename_i minute hour dom month dow hwords
    obtain ⟨minutes, hminute, h⟩ := ok_of_bind h
    obtain ⟨hours, hhour, h⟩ := ok_of_bind h
    obtain ⟨doms, hdom, h⟩ := ok_of_bind h
    obtain ⟨months, hmonth, h⟩ := ok_of_bind h
    obtain ⟨dows, hdow, h⟩ := ok_of_bind h
    obtain rfl := Except.ok.inj h
    exact ⟨minute, hour, dom, month, dow, hwords, mem_parseField hminute, mem_parseField hhour,
      mem_parseField hdom, mem_parseField hmonth, mem_parseField hdow, rfl, rfl⟩
  · cases h

/-- The code's test of the clock is what the expression says. -/
theorem fires_iff {expr : Text} {spec : CronSpec} (h : parseCron expr = .ok spec) (w : Wall) :
    fires spec w = true ↔ Matches expr w := by
  obtain ⟨minute, hour, dom, month, dow, hwords, hminute, hhour, hdom, hmonth, hdow, hds, hws⟩ :=
    parseCron_ok h
  have hday : dayMatches spec w = true ↔
      FieldMeans monthField month w.mo ∧ DayRule dom dow w := by
    rw [← hmonth, DayRule, ← hdom, ← hdow]
    by_cases hm : w.mo ∈ spec.month <;> by_cases hd : dom = [star] <;>
      by_cases hw : dow = [star] <;> simp [dayMatches, hm, hd, hw, hds, hws]
  have hall : fires spec w = true ↔ FieldMeans minuteField minute w.mi ∧
      FieldMeans hourField hour w.h ∧ FieldMeans monthField month w.mo ∧ DayRule dom dow w := by
    rw [fires, Bool.and_eq_true, Bool.and_eq_true, hday, decide_eq_true_eq, decide_eq_true_eq,
      hminute, hhour]
    tauto
  rw [hall]
  constructor
  · rintro ⟨h₁, h₂, h₃, h₄⟩
    exact ⟨minute, hour, dom, month, dow, hwords, h₁, h₂, h₃, h₄⟩
  · rintro ⟨minute', hour', dom', month', dow', hwords', h₁, h₂, h₃, h₄⟩
    obtain ⟨rfl, rfl, rfl, rfl, rfl⟩ : minute = minute' ∧ hour = hour' ∧ dom = dom' ∧
        month = month' ∧ dow = dow' := by simpa using hwords.symm.trans hwords'
    exact ⟨h₁, h₂, h₃, h₄⟩

/-- The search as it goes from one whole minute to another. -/
def watch (spec : CronSpec) (tz : Zone) : Skipping where
  hit t := fires spec (wallClock (t * MIN) tz) = true
  decHit _ := inferInstance
  skip t := skip spec (wallClock (t * MIN) tz)
  skip_pos t := by
    have := (wallClock (t * MIN) tz).mi_lt
    simp only [skip]
    split_ifs <;> omega

theorem skip_of_fires {spec : CronSpec} {w : Wall} (h : fires spec w = true) : skip spec w = 1 := by
  simp only [fires, Bool.and_eq_true, decide_eq_true_eq] at h
  simp [skip, h.1.1, h.1.2]

theorem nextFrom_eq (spec : CronSpec) (tz : Zone) (limit t : ℤ) :
    nextFrom spec tz limit (t * MIN) = ((watch spec tz).search (limit / MIN) t).map (· * MIN) := by
  induction t using Skipping.search.induct (watch spec tz) (limit / MIN) with
  | case1 t hle hhit =>
    have hlimit : t * MIN ≤ limit := (Int.le_ediv_iff_mul_le (by decide)).mp hle
    have hfires : fires spec (wallClock (t * MIN) tz) = true := hhit
    simp only [fires, Bool.and_eq_true, decide_eq_true_eq] at hfires
    rw [Skipping.search, if_pos hle, if_pos hhit, nextFrom, if_pos hlimit]
    simp [hfires.1.1, hfires.1.2, hfires.2]
  | case2 t hle hmiss ih =>
    have hlimit : t * MIN ≤ limit := (Int.le_ediv_iff_mul_le (by decide)).mp hle
    rw [Skipping.search, if_pos hle, if_neg hmiss, ← ih, nextFrom, if_pos hlimit]
    have hskip : (watch spec tz).skip t = skip spec (wallClock (t * MIN) tz) := rfl
    have hnot : ¬fires spec (wallClock (t * MIN) tz) = true := hmiss
    rw [hskip, add_mul]
    simp only [fires, Bool.and_eq_true, decide_eq_true_eq] at hnot
    simp only [skip]
    split_ifs with hday hhour hminute <;> simp_all
  | case3 t hlate =>
    have hlimit : ¬t * MIN ≤ limit := fun h => hlate ((Int.le_ediv_iff_mul_le (by decide)).mpr h)
    rw [Skipping.search, if_neg hlate, nextFrom, if_neg hlimit, Option.map_none]

/-- The minutes after an instant, within 732 days, at which the clock matches the expression. -/
def firings (expr : Text) (tz : Zone) (after : ℤ) : Set ℤ :=
  {t | after < t ∧ t ≤ after + 732 * DAY ∧ MIN ∣ t ∧ Matches expr (wallClock t tz)}

/-- At no minute that the search looks at and skips on from does a change of the clock put a
match among the minutes it skips. -/
def Unhidden (spec : CronSpec) (tz : Zone) (after : ℤ) : Prop :=
  ∀ s, (watch spec tz).Looks (after / MIN + 1) s →
    ∀ u, s < u → u < s + skip spec (wallClock (s * MIN) tz) → u * MIN ≤ after + 732 * DAY →
      tz.offset (u * MIN) ≠ tz.offset (s * MIN) → fires spec (wallClock (u * MIN) tz) = false

theorem dayMatches_congr (spec : CronSpec) {m n : ℤ} (h : m / 1440 = n / 1440) :
    dayMatches spec (clockAt m) = dayMatches spec (clockAt n) := by
  have hmo : (clockAt m).mo = (clockAt n).mo := by simp only [clockAt, h]
  have hd : (clockAt m).d = (clockAt n).d := by simp only [clockAt, h]
  have hdow : (clockAt m).dow = (clockAt n).dow := by simp only [clockAt, h]
  simp only [dayMatches, hmo, hd, hdow]

theorem clockAt_h (m : ℤ) : ((clockAt m).h : ℤ) = m % 1440 / 60 := by
  simp only [clockAt]
  omega

theorem clockAt_mi (m : ℤ) : ((clockAt m).mi : ℤ) = m % 60 := by
  simp only [clockAt]
  omega

/-- Without a change of the clock, no skipped minute matches. -/
theorem not_fires_skipped {spec : CronSpec} {m n : ℤ} (hmn : m < n)
    (h : n < m + skip spec (clockAt m)) : fires spec (clockAt n) = false := by
  have hh := clockAt_h m
  have hmi := clockAt_mi m
  have hh' := clockAt_h n
  have hlt := (clockAt m).h_lt
  have hmlt := (clockAt m).mi_lt
  unfold skip at h
  split_ifs at h with hday hhour
  · have hsame : n / 1440 = m / 1440 := by omega
    simp [fires, dayMatches_congr spec hsame, hday]
  · omega
  · have hsame : (clockAt n).h = (clockAt m).h := by omega
    simp [fires, hsame, hhour]

theorem firings_eq {expr : Text} {spec : CronSpec} (h : parseCron expr = .ok spec) (tz : Zone)
    (after : ℤ) : firings expr tz after =
      (· * MIN) '' (watch spec tz).hits (after / MIN + 1) ((after + 732 * DAY) / MIN) := by
  ext t
  constructor
  · rintro ⟨hafter, hlimit, ⟨n, rfl⟩, hmatch⟩
    refine ⟨n, ⟨?_, (Int.le_ediv_iff_mul_le (by decide)).mpr (by rwa [mul_comm]), ?_⟩, mul_comm _ _⟩
    · simp only [MIN] at hafter ⊢
      omega
    · rw [mul_comm] at hmatch
      exact (fires_iff h _).mpr hmatch
  · rintro ⟨n, ⟨hafter, hlimit, hhit⟩, rfl⟩
    refine ⟨?_, (Int.le_ediv_iff_mul_le (by decide)).mp hlimit, ⟨n, mul_comm _ _⟩,
      (fires_iff h _).mp hhit⟩
    simp only [MIN] at hafter ⊢
    omega

theorem minutes_strictMono : StrictMono fun t : ℤ => t * MIN := fun a b hab => by
  simp only [MIN]
  omega

/-- The search gives the least minute that matches, and none exactly if there is none, as long as
no change of the clock hides a match from it; and only so. -/
theorem nextFire_exact_iff {expr : Text} {spec : CronSpec} (h : parseCron expr = .ok spec)
    (tz : Zone) (after : ℤ) :
    ((∀ r, nextFire spec after tz = some r ↔ IsLeast (firings expr tz after) r) ∧
      (nextFire spec after tz = none ↔ firings expr tz after = ∅)) ↔ Unhidden spec tz after := by
  have hclear : Unhidden spec tz after ↔
      ∀ s, (watch spec tz).Looks (after / MIN + 1) s → ¬(watch spec tz).hit s →
        ∀ u, s < u → u < s + (watch spec tz).skip s → u ≤ (after + 732 * DAY) / MIN →
          ¬(watch spec tz).hit u := by
    constructor
    · intro hun s hs _ u hsu hskip hle hhit
      have hlimit := (Int.le_ediv_iff_mul_le (by decide)).mp hle
      by_cases hoff : tz.offset (u * MIN) = tz.offset (s * MIN)
      · have hlocal : ∀ t : ℤ, localMinute (t * MIN) tz = t + tz.offset (t * MIN) := fun t => by
          rw [localMinute, Int.mul_ediv_cancel _ (by decide)]
        have hnot : fires spec (clockAt (localMinute (u * MIN) tz)) = false := by
          refine not_fires_skipped (m := localMinute (s * MIN) tz) ?_ ?_
          · rw [hlocal, hlocal, hoff]
            omega
          · have hskip' : u < s + skip spec (clockAt (localMinute (s * MIN) tz)) := hskip
            rw [hlocal u, hoff]
            have hs' := hlocal s
            omega
        have hyes : fires spec (clockAt (localMinute (u * MIN) tz)) = true := hhit
        rw [hnot] at hyes
        cases hyes
      · have hnot := hun s hs u hsu hskip hlimit hoff
        have hyes : fires spec (wallClock (u * MIN) tz) = true := hhit
        rw [hnot] at hyes
        cases hyes
    · intro hall s hs u hsu hskip hlimit _
      have hmiss : ¬(watch spec tz).hit s := by
        intro hhit
        rw [skip_of_fires hhit] at hskip
        omega
      have := hall s hs hmiss u hsu hskip ((Int.le_ediv_iff_mul_le (by decide)).mpr hlimit)
      simpa [watch] using this
  have hstart : after / MIN * MIN + MIN = (after / MIN + 1) * MIN := by ring
  have hfire : nextFire spec after tz = ((watch spec tz).search ((after + 732 * DAY) / MIN)
      (after / MIN + 1)).map (· * MIN) := by
    rw [nextFire, hstart, nextFrom_eq]
  have himage : ∀ r, IsLeast ((· * MIN) ''
      (watch spec tz).hits (after / MIN + 1) ((after + 732 * DAY) / MIN)) (r * MIN) ↔
        IsLeast ((watch spec tz).hits (after / MIN + 1) ((after + 732 * DAY) / MIN)) r :=
    fun r => minutes_strictMono.map_isLeast
  rw [hclear, ← Skipping.search_first_iff, firings_eq h, hfire, Skipping.First,
    Option.map_eq_none_iff, Set.image_eq_empty]
  refine and_congr_left fun _ => ⟨fun hall r => ?_, fun hall r => ?_⟩
  · rw [← himage r, ← hall (r * MIN), Option.map_eq_some_iff]
    exact ⟨fun hr => ⟨r, hr, rfl⟩, fun ⟨v, hv, heq⟩ => minutes_strictMono.injective heq ▸ hv⟩
  · rw [Option.map_eq_some_iff]
    constructor
    · rintro ⟨v, hv, rfl⟩
      exact (himage v).mpr ((hall v).mp hv)
    · intro hr
      obtain ⟨v, -, rfl⟩ := hr.1
      exact ⟨v, (hall v).mpr ((himage v).mp hr), rfl⟩

def utc : Zone := ⟨fun _ => 0⟩

/-- A clock that never changes hides nothing. -/
theorem unhidden_of_constant {tz : Zone} {offset : ℤ} (h : ∀ t, tz.offset t = offset)
    (spec : CronSpec) (after : ℤ) : Unhidden spec tz after :=
  fun s _ u _ _ _ hne => absurd ((h _).trans (h _).symm) hne

/-- Half past midnight on Mondays. -/
def mondays : Text := js "30 0 * * 1"

def mondaySpec : CronSpec :=
  { minute := {30}, hour := {0}, dom := Finset.Icc 1 31, month := Finset.Icc 1 12, dow := {1}
    domStar := true, dowStar := false }

theorem nextFire_exact_iff_utc :
    (∀ r, nextFire mondaySpec 0 utc = some r ↔ IsLeast (firings mondays utc 0) r) ∧
      (nextFire mondaySpec 0 utc = none ↔ firings mondays utc 0 = ∅) :=
  (nextFire_exact_iff (by decide +kernel) utc 0).mpr
    (unhidden_of_constant (fun _ => rfl) mondaySpec 0)

/-- The clock goes from two to three on Sunday 8 March 2026. -/
def springForward : Zone := ⟨fun t => if t < 1772953200000 then -300 else -240⟩

/-- From Saturday noon on, Sunday's skip ends at one o'clock on Monday: the Monday's match is
passed over, and the next is a week later. -/
theorem nextFire_skips_monday :
    parseCron mondays = .ok mondaySpec ∧
      nextFire mondaySpec 1772902800000 springForward = some 1773635400000 ∧
        ¬IsLeast (firings mondays springForward 1772902800000) 1773635400000 := by
  have hparse : parseCron mondays = .ok mondaySpec := by decide +kernel
  refine ⟨hparse, by decide +kernel, fun hleast => ?_⟩
  have hmonday : 1773030600000 ∈ firings mondays springForward 1772902800000 :=
    ⟨by decide, by decide, by decide, (fires_iff hparse _).mp (by decide +kernel)⟩
  exact absurd (hleast.2 hmonday) (by decide)

end ClaudeFleet.Cron
