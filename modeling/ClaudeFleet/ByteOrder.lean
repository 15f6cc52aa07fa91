import ClaudeFleet.AscendingCode
import ClaudeFleet.FederationComplete
import ClaudeFleet.JsText
import Mathlib.Data.Char

/-! The order in which two copies of one function compare strings is that of their UTF-8 encodings,
by which the databases collate. -/
namespace ClaudeFleet.ByteOrder
open Js hiding js
open Federation hiding js

/-- The copy that orders the cost rows. -/
def compareBytes (a b : Text) : ℤ := Federation.compareBytes a b

structure CostRow where
  workspaceId : Text
  model : Option Text
  serviceTier : Option Text

def compareCostRows (a b : CostRow) : ℤ :=
  let c := compareBytes a.workspaceId b.workspaceId
  if c ≠ 0 then c
  else
    let c := compareBytes (a.model.getD []) (b.model.getD [])
    if c ≠ 0 then c else compareBytes (a.serviceTier.getD []) (b.serviceTier.getD [])

/-- Each lead surrogate is followed by a trail surrogate, and no other trail surrogate stands. -/
def wellFormed : Text → Bool
  | [] => true
  | [u] => !isLead u && !isTrail u
  | u :: v :: s =>
    if isLead u then isTrail v && wellFormed s else !isTrail u && wellFormed (v :: s)

/-- The bytes of a character. -/
def utf8Char (c : Char) : List ℕ := (String.utf8EncodeChar c).map UInt8.toNat

/-- The bytes of a string; its order is that of `COLLATE "C"` and of SQLite's binary collation. -/
def utf8 (s : String) : List ℕ := s.toList.flatMap utf8Char

/-- A comparison has the sign of that of the encodings. -/
def ByUtf8 (compare : Text → Text → ℤ) : Prop :=
  ∀ a b : String, (compare (Js.js a) (Js.js b) < 0 ↔ utf8 a < utf8 b) ∧
    (compare (Js.js a) (Js.js b) = 0 ↔ utf8 a = utf8 b) ∧ (0 < compare (Js.js a) (Js.js b) ↔ utf8 b < utf8 a)

/-- The strings a comparison does not put after one another are totally ordered. -/
structure TotalOrder (compare : Text → Text → ℤ) : Prop where
  total : ∀ a b, compare a b ≤ 0 ∨ compare b a ≤ 0
  antisymm : ∀ a b, compare a b ≤ 0 → compare b a ≤ 0 → a = b
  trans : ∀ a b c, compare a b ≤ 0 → compare b c ≤ 0 → compare a c ≤ 0

/-! Characters. -/

theorem lt_iff_toNat_lt {c d : Char} : c < d ↔ c.toNat < d.toNat := Iff.rfl

theorem utf8Char_eq (c : Char) :
    utf8Char c =
      if c.toNat ≤ 0x7f then [c.toNat]
      else if c.toNat ≤ 0x7ff then [192 + c.toNat / 64, 128 + c.toNat % 64]
      else if c.toNat ≤ 0xffff then
        [224 + c.toNat / 4096, 128 + c.toNat / 64 % 64, 128 + c.toNat % 64]
      else
        [240 + c.toNat / 262144, 128 + c.toNat / 4096 % 64, 128 + c.toNat / 64 % 64,
          128 + c.toNat % 64] := by
  have hc : c.toNat < 0x110000 := by
    have := char_range c
    omega
  have hval : c.val.toNat = c.toNat := rfl
  unfold utf8Char String.utf8EncodeChar
  simp only [hval]
  by_cases h7 : c.toNat ≤ 0x7f
  · rw [if_pos h7, if_pos h7]
    simp only [List.map_cons, List.map_nil, UInt8.toNat_ofNat', List.cons.injEq, and_true]
    omega
  · rw [if_neg h7, if_neg h7]
    by_cases h11 : c.toNat ≤ 0x7ff
    · rw [if_pos h11, if_pos h11]
      simp only [List.map_cons, List.map_nil, UInt8.toNat_ofNat', List.cons.injEq, and_true]
      omega
    · rw [if_neg h11, if_neg h11]
      by_cases h16 : c.toNat ≤ 0xffff
      · rw [if_pos h16, if_pos h16]
        simp only [List.map_cons, List.map_nil, UInt8.toNat_ofNat', List.cons.injEq, and_true]
        omega
      · rw [if_neg h16, if_neg h16]
        simp only [List.map_cons, List.map_nil, UInt8.toNat_ofNat', List.cons.injEq, and_true]
        omega

theorem utf8Char_ne_nil (c : Char) : utf8Char c ≠ [] := by
  rw [utf8Char_eq]
  split_ifs <;> simp

theorem ascending_utf8Char : AscendingCode utf8Char := by
  intro c d s t hlt
  have hcd := lt_iff_toNat_lt.mp hlt
  rw [utf8Char_eq, utf8Char_eq]
  split_ifs <;> simp only [List.cons_append, List.nil_append, List.cons_lt_cons_iff] <;> omega

/-- A character as the ranks of its code units. -/
def rankChar (c : Char) : List ℕ := byteKey (units c)

theorem rankChar_eq (c : Char) :
    rankChar c =
      if c.toNat < 0xd800 then [c.toNat]
      else if c.toNat < 0x10000 then [c.toNat - 0x800]
      else [0xf800 + (c.toNat - 0x10000) / 0x400, 0xfc00 + (c.toNat - 0x10000) % 0x400] := by
  have hc := char_range c
  unfold rankChar byteKey units
  by_cases hlow : c.toNat < 0x10000
  · rw [if_pos hlow]
    simp only [List.map_cons, List.map_nil, Nat.toUInt16, UInt16.toNat_ofNat', codeUnitRank]
    split_ifs <;> simp only [List.cons.injEq, and_true] <;> omega
  · rw [if_neg hlow]
    simp only [List.map_cons, List.map_nil, Nat.toUInt16, UInt16.toNat_ofNat', codeUnitRank]
    split_ifs <;> simp only [List.cons.injEq, and_true] <;> omega

theorem rankChar_ne_nil (c : Char) : rankChar c ≠ [] := by
  rw [rankChar_eq]
  split_ifs <;> simp

theorem ascending_rankChar : AscendingCode rankChar := by
  intro c d s t hlt
  have hcd := lt_iff_toNat_lt.mp hlt
  have hc := char_range c
  have hd := char_range d
  rw [rankChar_eq, rankChar_eq]
  split_ifs <;> simp only [List.cons_append, List.nil_append, List.cons_lt_cons_iff] <;> omega

/-! Strings. -/

theorem byteKey_js (s : String) : byteKey (Js.js s) = s.toList.flatMap rankChar := by
  unfold byteKey Js.js rankChar byteKey
  rw [List.map_flatMap]

theorem utf8_lt (a b : String) : utf8 a < utf8 b ↔ byteKey (Js.js a) < byteKey (Js.js b) := by
  rw [byteKey_js, byteKey_js, ascending_rankChar.flatMap_lt_iff rankChar_ne_nil]
  exact ascending_utf8Char.flatMap_lt_iff utf8Char_ne_nil

theorem utf8_inj (a b : String) : utf8 a = utf8 b ↔ a = b := by
  unfold utf8
  rw [ascending_utf8Char.flatMap_inj utf8Char_ne_nil, String.toList_inj]

theorem byUtf8_compareBytes : ByUtf8 Federation.compareBytes := by
  intro a b
  have hlt := compareBytes_neg (Js.js a) (Js.js b)
  have hzero : Federation.compareBytes (Js.js a) (Js.js b) = 0 ↔ utf8 a = utf8 b := by
    rw [compareBytes_eq_zero, js_inj, utf8_inj]
  refine ⟨hlt.trans (utf8_lt a b).symm, hzero, ?_⟩
  have hpos : 0 < Federation.compareBytes (Js.js a) (Js.js b) ↔
      ¬Federation.compareBytes (Js.js a) (Js.js b) ≤ 0 := not_le.symm
  rw [hpos, compareBytes_nonpos, not_le, utf8_lt]

theorem totalOrder_compareBytes : TotalOrder Federation.compareBytes where
  total a b := by
    rw [compareBytes_nonpos, compareBytes_nonpos]
    exact le_total _ _
  antisymm a b h h' := by
    rw [compareBytes_nonpos] at h h'
    exact byteKey_inj (le_antisymm h h')
  trans a b c h h' := by
    rw [compareBytes_nonpos] at h h' ⊢
    exact h.trans h'

/-! Well-formed strings. -/

theorem isLead_iff (u : UInt16) : isLead u = true ↔ 0xd800 ≤ u.toNat ∧ u.toNat ≤ 0xdbff := by
  simp only [isLead, Bool.and_eq_true, decide_eq_true_eq, UInt16.le_iff_toNat_le,
    UInt16.reduceToNat]

theorem isTrail_iff (u : UInt16) : isTrail u = true ↔ 0xdc00 ≤ u.toNat ∧ u.toNat ≤ 0xdfff := by
  simp only [isTrail, Bool.and_eq_true, decide_eq_true_eq, UInt16.le_iff_toNat_le,
    UInt16.reduceToNat]

theorem isLead_eq_false {u : UInt16} (h : u.toNat < 0xd800 ∨ 0xdbff < u.toNat) :
    isLead u = false := by
  rw [← Bool.not_eq_true, isLead_iff]
  omega

theorem isTrail_eq_false {u : UInt16} (h : u.toNat < 0xdc00 ∨ 0xdfff < u.toNat) :
    isTrail u = false := by
  rw [← Bool.not_eq_true, isTrail_iff]
  omega

theorem wellFormed_single {u : UInt16} (hlead : isLead u = false) (htrail : isTrail u = false)
    (t : Text) : wellFormed (u :: t) = wellFormed t := by
  cases t <;> simp [wellFormed, hlead, htrail]

theorem wellFormed_units (c : Char) (t : Text) : wellFormed (units c ++ t) = wellFormed t := by
  have hc := char_range c
  unfold units
  split_ifs with hlow
  · have hval : c.toNat.toUInt16.toNat = c.toNat := by
      simp only [Nat.toUInt16, UInt16.toNat_ofNat']
      omega
    exact wellFormed_single (isLead_eq_false (by omega)) (isTrail_eq_false (by omega)) t
  · have hhi : (0xd800 + (c.toNat - 0x10000) / 0x400).toUInt16.toNat =
        0xd800 + (c.toNat - 0x10000) / 0x400 := by
      simp only [Nat.toUInt16, UInt16.toNat_ofNat']
      omega
    have hlo : (0xdc00 + (c.toNat - 0x10000) % 0x400).toUInt16.toNat =
        0xdc00 + (c.toNat - 0x10000) % 0x400 := by
      simp only [Nat.toUInt16, UInt16.toNat_ofNat']
      omega
    have hlead : isLead (0xd800 + (c.toNat - 0x10000) / 0x400).toUInt16 = true := by
      rw [isLead_iff, hhi]
      omega
    have htrail : isTrail (0xdc00 + (c.toNat - 0x10000) % 0x400).toUInt16 = true := by
      rw [isTrail_iff, hlo]
      omega
    show wellFormed (_ :: _ :: t) = wellFormed t
    rw [wellFormed, if_pos hlead, htrail, Bool.true_and]

theorem exists_char {n : ℕ} (h : n < 0xd800 ∨ 0xdfff < n ∧ n < 0x110000) :
    ∃ c : Char, c.toNat = n := by
  have hvalid : n.isValidChar := h
  exact ⟨Char.ofNatAux n hvalid, rfl⟩

/-- A well-formed string is one of characters. -/
theorem exists_chars (t : Text) (h : wellFormed t = true) :
    ∃ cs : List Char, cs.flatMap units = t := by
  induction t using wellFormed.induct with
  | case1 => exact ⟨[], rfl⟩
  | case2 u =>
    have hu := u.toNat_lt
    simp only [wellFormed, Bool.and_eq_true, Bool.not_eq_true', ← Bool.not_eq_true,
      isLead_iff, isTrail_iff] at h
    obtain ⟨c, hc⟩ := exists_char (n := u.toNat) (by omega)
    refine ⟨[c], ?_⟩
    simp only [List.flatMap_cons, List.flatMap_nil, List.append_nil, units, hc]
    rw [if_pos (by omega)]
    simp
  | case3 u v s hlead ih =>
    rw [wellFormed, if_pos hlead, Bool.and_eq_true] at h
    obtain ⟨cs, rfl⟩ := ih h.2
    have hu := (isLead_iff u).mp hlead
    have hv := (isTrail_iff v).mp h.1
    obtain ⟨c, hc⟩ := exists_char
      (n := 0x10000 + (u.toNat - 0xd800) * 0x400 + (v.toNat - 0xdc00)) (by omega)
    refine ⟨c :: cs, ?_⟩
    have hhi : 0xd800 + (c.toNat - 0x10000) / 0x400 = u.toNat := by omega
    have hlo : 0xdc00 + (c.toNat - 0x10000) % 0x400 = v.toNat := by omega
    simp only [List.flatMap_cons, units, hhi, hlo]
    rw [if_neg (by omega)]
    simp
  | case4 u v s hlead ih =>
    rw [wellFormed, if_neg hlead, Bool.and_eq_true] at h
    obtain ⟨cs, hcs⟩ := ih h.2
    have hu := u.toNat_lt
    rw [isLead_iff] at hlead
    have htrail := h.1
    simp only [Bool.not_eq_true', ← Bool.not_eq_true, isTrail_iff] at htrail
    obtain ⟨c, hc⟩ := exists_char (n := u.toNat) (by omega)
    refine ⟨c :: cs, ?_⟩
    simp only [List.flatMap_cons, units, hc, hcs]
    rw [if_pos (by omega)]
    simp

theorem wellFormed_iff (t : Text) : wellFormed t = true ↔ ∃ s : String, Js.js s = t := by
  constructor
  · intro h
    obtain ⟨cs, hcs⟩ := exists_chars t h
    exact ⟨String.ofList cs, by rw [Js.js, String.toList_ofList, hcs]⟩
  · rintro ⟨s, rfl⟩
    unfold Js.js
    induction s.toList with
    | nil => rfl
    | cons c cs ih => rw [List.flatMap_cons, wellFormed_units, ih]

/-- The well-formed strings are those of characters, and on them both copies compare as the UTF-8
encodings do; on all strings, they compare by a total order. -/
theorem compareBytes_utf8 :
    (∀ t, wellFormed t = true ↔ ∃ s : String, Js.js s = t) ∧
    (ByUtf8 Federation.compareBytes ∧ TotalOrder Federation.compareBytes) ∧
    ByUtf8 compareBytes ∧ TotalOrder compareBytes :=
  ⟨wellFormed_iff, ⟨byUtf8_compareBytes, totalOrder_compareBytes⟩, byUtf8_compareBytes,
    totalOrder_compareBytes⟩

/-! The cost rows. -/

/-- The order of the rows by the texts they are compared by. -/
def CostRow.order (r : CostRow) : List ℕ ×ₗ List ℕ ×ₗ List ℕ :=
  toLex (byteKey r.workspaceId, toLex (byteKey (r.model.getD []), byteKey (r.serviceTier.getD [])))

/-- A comparison by one text and then by another key. -/
theorem compareBytes_lex {γ : Type*} [LinearOrder γ] {a b : Text} {c : ℤ} {q r : γ}
    (h : c ≤ 0 ↔ q ≤ r) :
    (if compareBytes a b ≠ 0 then compareBytes a b else c) ≤ 0 ↔
      (toLex (byteKey a, q) : List ℕ ×ₗ γ) ≤ toLex (byteKey b, r) := by
  have hinj : byteKey a = byteKey b ↔ a = b := ⟨byteKey_inj, congrArg byteKey⟩
  rw [Prod.Lex.toLex_le_toLex]
  dsimp only
  rw [hinj, ← compareBytes_neg, ← compareBytes_eq_zero, ← h]
  change (if compareBytes a b ≠ 0 then compareBytes a b else c) ≤ 0 ↔
    compareBytes a b < 0 ∨ compareBytes a b = 0 ∧ c ≤ 0
  split_ifs with hne
  · omega
  · omega

/-- The rows of a session are summed in one order, whatever the order in which they are stored. -/
theorem compareCostRows_nonpos (a b : CostRow) : compareCostRows a b ≤ 0 ↔ a.order ≤ b.order :=
  compareBytes_lex (compareBytes_lex (compareBytes_nonpos _ _))

end ClaudeFleet.ByteOrder
