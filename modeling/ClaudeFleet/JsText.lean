import Mathlib.Tactic
import Mathlib.Data.List.DropRight
import Mathlib.Data.Rat.Defs

/-! JavaScript strings as their UTF-16 code units: trimming, decimal digits, lines, JSON quoting. -/
namespace ClaudeFleet.Js

abbrev Text := List UInt16

instance : LawfulBEq Text := inferInstance

def units (c : Char) : Text :=
  if c.toNat < 0x10000 then [c.toNat.toUInt16]
  else [(0xd800 + (c.toNat - 0x10000) / 0x400).toUInt16,
    (0xdc00 + (c.toNat - 0x10000) % 0x400).toUInt16]

def js (s : String) : Text := s.toList.flatMap units

theorem char_range (c : Char) : c.toNat < 0xd800 ∨ 0xdfff < c.toNat ∧ c.toNat < 0x110000 :=
  c.valid

theorem toUInt16_inj {m n : ℕ} (hm : m < 0x10000) (hn : n < 0x10000)
    (h : m.toUInt16 = n.toUInt16) : m = n := by
  have h' := congrArg UInt16.toNat h
  simp only [Nat.toUInt16, UInt16.toNat_ofNat'] at h'
  omega

theorem units_append_inj {c d : Char} {s t : Text} (h : units c ++ s = units d ++ t) :
    c = d ∧ s = t := by
  have hc := char_range c
  have hd := char_range d
  simp only [units] at h
  split_ifs at h with h₁ h₂ h₂
  · simp only [List.cons_append, List.nil_append, List.cons.injEq] at h
    exact ⟨Char.toNat_inj.mp (toUInt16_inj h₁ h₂ h.1), h.2⟩
  · simp only [List.cons_append, List.nil_append, List.cons.injEq] at h
    have := toUInt16_inj h₁ (by omega) h.1
    omega
  · simp only [List.cons_append, List.nil_append, List.cons.injEq] at h
    have := toUInt16_inj (by omega) h₂ h.1
    omega
  · simp only [List.cons_append, List.nil_append, List.cons.injEq] at h
    have hi := toUInt16_inj (by omega) (by omega) h.1
    have lo := toUInt16_inj (by omega) (by omega) h.2.1
    exact ⟨Char.toNat_inj.mp (by omega), h.2.2⟩

theorem units_ne_nil (c : Char) : units c ≠ [] := by
  simp only [units]
  split_ifs <;> simp

theorem flatMap_units_inj (cs : List Char) :
    ∀ ds : List Char, cs.flatMap units = ds.flatMap units → cs = ds := by
  induction cs with
  | nil =>
    intro ds h
    cases ds with
    | nil => rfl
    | cons d ds => simp [units_ne_nil] at h
  | cons c cs ih =>
    intro ds h
    cases ds with
    | nil => simp [units_ne_nil] at h
    | cons d ds =>
      obtain ⟨rfl, hrest⟩ := units_append_inj (by simpa using h)
      rw [ih ds hrest]

@[simp] theorem js_inj {a b : String} : js a = js b ↔ a = b :=
  ⟨fun h => String.toList_inj.mp (flatMap_units_inj _ _ h), congrArg js⟩

/-- White space and line terminators, which both the trimming functions and `\s` go by. -/
def isSpace (u : UInt16) : Bool :=
  u ∈ [9, 10, 11, 12, 13, 32, 160, 5760, 8232, 8233, 8239, 8287, 12288, 65279] ||
    (8192 ≤ u && u ≤ 8202)

def trimEnd (s : Text) : Text := s.rdropWhile isSpace

def trim (s : Text) : Text := trimEnd (s.dropWhile isSpace)

def startsInSpace (s : Text) : Bool := s.head?.any isSpace

def endsInSpace (s : Text) : Bool := s.getLast?.any isSpace

theorem dropWhile_eq_self {s : Text} (h : startsInSpace s = false) : s.dropWhile isSpace = s := by
  cases s with
  | nil => rfl
  | cons u s =>
    have hu : isSpace u = false := by simpa [startsInSpace] using h
    simp [hu]

theorem startsInSpace_take {s : Text} (h : startsInSpace s = false) (n : ℕ) :
    startsInSpace (s.take n) = false := by
  cases n <;> cases s <;> simp_all [startsInSpace]

theorem startsInSpace_dropWhile (s : Text) : startsInSpace (s.dropWhile isSpace) = false := by
  induction s with
  | nil => rfl
  | cons u s ih =>
    rw [List.dropWhile_cons]
    split_ifs with hu
    · exact ih
    · simpa [startsInSpace] using hu

theorem startsInSpace_trim (s : Text) : startsInSpace (trim s) = false := by
  obtain ⟨t, ht⟩ := List.rdropWhile_prefix isSpace (l := s.dropWhile isSpace)
  have h := startsInSpace_dropWhile s
  rw [← ht] at h
  rw [trim, trimEnd]
  cases hr : (s.dropWhile isSpace).rdropWhile isSpace with
  | nil => rfl
  | cons u r => simpa [startsInSpace, hr] using h

/-- Trimming what is left of a trimmed string after a cut takes away at the end only. -/
theorem trim_take_trim (s : Text) (n : ℕ) : trim ((trim s).take n) = trimEnd ((trim s).take n) := by
  rw [trim, dropWhile_eq_self (startsInSpace_take (startsInSpace_trim s) n)]

def isDigit (u : UInt16) : Bool := 48 ≤ u && u ≤ 57

/-- The number a row of decimal digits stands for. -/
def decimal (ds : Text) : ℕ := ds.foldl (fun n u => 10 * n + (u.toNat - 48)) 0

/-- A nonempty row of digits, which is what `\d+` matches as a whole. -/
def Digits (ds : Text) : Prop := ds ≠ [] ∧ ∀ u ∈ ds, isDigit u = true

/-- A number; the finite ones are taken as exact. -/
inductive Number
  | finite (q : ℚ)
  | negZero
  | infinity (negative : Bool)
  | nan
  deriving DecidableEq

def Number.isFinite : Number → Bool
  | .finite _ | .negZero => true
  | .infinity _ | .nan => false

def newline : UInt16 := 10

def lines (s : Text) : List Text := s.splitOn newline

theorem lines_append (s t : Text) : lines (s ++ newline :: t) = lines s ++ lines t := by
  simp only [lines, List.splitOn_eq_splitOnP]
  exact List.splitOnP_append_cons _ _ (by simp)

theorem lines_of_notMem {s : Text} (h : newline ∉ s) : lines s = [s] := by
  rw [lines, List.splitOn_eq_splitOnP]
  refine List.splitOnP_eq_singleton fun u hu => ?_
  simpa using fun heq : u = newline => h (heq ▸ hu)

/-! A string as JSON writes it; a surrogate that stands alone is escaped. -/

def isLead (u : UInt16) : Bool := 0xd800 ≤ u && u ≤ 0xdbff

def isTrail (u : UInt16) : Bool := 0xdc00 ≤ u && u ≤ 0xdfff

def hexDigit (n : ℕ) : UInt16 := if n < 10 then (48 + n).toUInt16 else (87 + n).toUInt16

def unicodeEscape (u : UInt16) : Text :=
  js "\\u" ++ [hexDigit (u.toNat / 4096), hexDigit (u.toNat / 256 % 16),
    hexDigit (u.toNat / 16 % 16), hexDigit (u.toNat % 16)]

def escapeUnit (u : UInt16) : Text :=
  if u = 34 then js "\\\""
  else if u = 92 then js "\\\\"
  else if u = 8 then js "\\b"
  else if u = 9 then js "\\t"
  else if u = 10 then js "\\n"
  else if u = 12 then js "\\f"
  else if u = 13 then js "\\r"
  else if u < 32 ∨ isLead u = true ∨ isTrail u = true then unicodeEscape u
  else [u]

def quoteUnits : Text → Text
  | [] => []
  | [u] => escapeUnit u
  | u :: v :: s =>
    if isLead u && isTrail v then u :: v :: quoteUnits s else escapeUnit u ++ quoteUnits (v :: s)

def quote (s : Text) : Text := 34 :: (quoteUnits s ++ [34])

theorem hexDigit_ne (n : ℕ) (h : n < 16) : hexDigit n ≠ newline := by
  interval_cases n <;> decide

theorem newline_notMem_escapeUnit (u : UInt16) : newline ∉ escapeUnit u := by
  have hhex : newline ∉ unicodeEscape u := by
    have h := u.toNat_lt
    simp only [unicodeEscape, List.mem_append, List.mem_cons, List.not_mem_nil, or_false, not_or]
    refine ⟨by decide, ?_, ?_, ?_, ?_⟩
    all_goals exact (hexDigit_ne _ (by omega)).symm
  unfold escapeUnit
  split_ifs with _ _ _ _ h10 _ _ _
  all_goals first | exact hhex | decide | skip
  simpa [newline] using Ne.symm h10

/-- JSON writes a string within one line. -/
theorem newline_notMem_quote (s : Text) : newline ∉ quote s := by
  have hunits : newline ∉ quoteUnits s := by
    induction s using quoteUnits.induct with
    | case1 => simp [quoteUnits]
    | case2 u => simpa [quoteUnits] using newline_notMem_escapeUnit u
    | case3 u v s hpair ih =>
      rw [quoteUnits, if_pos hpair]
      have hu : newline ≠ u := by
        rintro rfl
        simp [isLead, newline] at hpair
      have hv : newline ≠ v := by
        rintro rfl
        simp [isTrail, newline] at hpair
      simp [hu, hv, ih]
    | case4 u v s hpair ih =>
      rw [quoteUnits, if_neg hpair, List.mem_append, not_or]
      exact ⟨newline_notMem_escapeUnit u, ih⟩
  simp only [quote, List.mem_cons, List.mem_append, List.not_mem_nil, or_false, not_or]
  exact ⟨by decide, hunits, by decide⟩

end ClaudeFleet.Js
