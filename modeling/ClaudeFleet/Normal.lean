import ClaudeFleet.Placeholders

/-! The texts, tags, params and arguments of a validated definition, validated again. -/
namespace ClaudeFleet.Definition
open Js Template

variable {L : Language} {ctx : ResolveCtx}

/-! Texts and durations. -/

/-- A tag as it is kept. -/
def IsTag (t : Text) : Prop := t ≠ [] ∧ t.length ≤ 40 ∧ ∀ u ∈ t, isTagUnit u = true

theorem normalizeTag_isTag {raw t : Text} (h : normalizeTag L raw = some t) : IsTag t := by
  simp only [normalizeTag] at h
  split_ifs at h with hok
  obtain rfl := Option.some.inj h
  exact ⟨hok.1, hok.2.1, List.all_eq_true.mp hok.2.2⟩

/-- The tags as they are kept: no more than fit, and each once. -/
structure Tags (tags : List Text) : Prop where
  tag : ∀ t ∈ tags, IsTag t
  nodup : tags.Nodup
  length : tags.length ≤ MAX_TAGS

theorem normalizeTags_tags (raw : List Value) : Tags (normalizeTags L raw) := by
  have hstep : ∀ out v, Tags out →
      Tags (if out.length = MAX_TAGS then out else addTag L out v) := by
    intro out v hout
    split_ifs with hfull
    · exact hout
    · unfold addTag
      split
      · rename_i t ht
        split_ifs with hin
        · exact hout
        · obtain ⟨s, -, hs⟩ := Option.bind_eq_some_iff.mp ht
          have hlen := hout.length
          refine ⟨?_, ?_, ?_⟩
          · intro x hx
            obtain hx | hx := List.mem_append.mp hx
            · exact hout.tag x hx
            · obtain rfl := List.mem_singleton.mp hx
              exact normalizeTag_isTag hs
          · exact List.nodup_append'.mpr ⟨hout.nodup, by simp, by simpa using hin⟩
          · simp only [List.length_append, List.length_singleton]
            omega
      · exact hout
  have hall : ∀ out, Tags out → Tags (raw.foldl
      (fun out v => if out.length = MAX_TAGS then out else addTag L out v) out) := by
    induction raw with
    | nil => exact fun out hout => hout
    | cons v raw ih => exact fun out hout => ih _ (hstep out v hout)
  exact hall [] ⟨by simp, by simp, by simp⟩

theorem checkParamValue_again {p : ParamDef} {v : Value} {place place' : Text} {w : ParamValue}
    (h : (checkParamValue p v place).Accepts w) :
    (checkParamValue p (ParamValue.toValue w) place').Accepts w := by
  unfold checkParamValue at h
  split at h
  · rename_i s htype
    obtain rfl : ParamValue.string s = w := by simpa using h
    simp [checkParamValue, htype, ParamValue.toValue]
  · rename_i n htype
    split_ifs at h with hfinite
    · obtain rfl : ParamValue.number n = w := by simpa using h
      simp [checkParamValue, htype, ParamValue.toValue, hfinite]
    · simp at h
  · rename_i b htype
    obtain rfl : ParamValue.boolean b = w := by simpa using h
    simp [checkParamValue, htype, ParamValue.toValue]
  · rename_i htype
    split at h
    · rename_i s values hvalues
      split_ifs at h with hin
      · obtain rfl : ParamValue.string s = w := by simpa using h
        simp [checkParamValue, htype, ParamValue.toValue, hvalues, hin]
      · simp at h
    · simp at h
  · simp at h

/-- A default that is kept has passed the param's own check. -/
def DefaultOk (p : ParamDef) : Prop :=
  ∀ w ∈ p.default, ∀ place, (checkParamValue p (ParamValue.toValue w) place).Accepts w

/-- What an accepted param has met, apart from the names of the others. -/
structure ParamOk (p : ParamDef) : Prop where
  name : paramRe p.name = true
  values : ∀ l ∈ p.values, p.type = .enum ∧ textsOf (some l.toValue) = some l
  listed : p.type = .enum → p.values.isSome = true
  description : ∀ s ∈ p.description, s.length ≤ 200
  default : DefaultOk p

/-- What a param's turn comes to: the value that is assigned, if any. -/
def ArgOf (L : Language) (given : Value) (coerce : Bool) (p : ParamDef) (w : Option ParamValue) :
    Prop :=
  match givenFor given p with
  | none => w = p.default ∧ (p.default = none → p.required = false)
  | some v => ∃ b, (checkParamValue p (if coerce then coerceValue L p v else v) p.name).Accepts b ∧
      w = some b

theorem ArgOf.unique {given : Value} {coerce : Bool} {p : ParamDef} {w w' : Option ParamValue}
    (h : ArgOf L given coerce p w) (h' : ArgOf L given coerce p w') : w = w' := by
  unfold ArgOf at h h'
  cases hg : givenFor given p with
  | none =>
    simp only [hg] at h h'
    rw [h.1, h'.1]
  | some v =>
    simp only [hg] at h h'
    obtain ⟨b, hb, rfl⟩ := h
    obtain ⟨b', hb', rfl⟩ := h'
    rw [hb.unique hb']

theorem lookup_argsValue (args : Args) (key : Text) :
    (args.map fun kv => (kv.1, ParamValue.toValue kv.2)).lookup key =
      (args.lookup key).map ParamValue.toValue := by
  induction args with
  | nil => rfl
  | cons kv args ih =>
    rw [List.map_cons, List.lookup_cons, List.lookup_cons, ih]
    cases key == kv.1 <;> rfl

/-- A value that is kept shows the text it was given as, or none. -/
theorem checkParamValue_asText {p : ParamDef} {v : Value} {place : Text} {b : ParamValue}
    (h : (checkParamValue p v place).Accepts b) : v.asText = (ParamValue.toValue b).asText := by
  unfold checkParamValue at h
  split at h
  · obtain rfl := Check.accepts_pure.mp h
    rfl
  · split_ifs at h
    · obtain rfl := Check.accepts_pure.mp h
      rfl
    · simp at h
  · obtain rfl := Check.accepts_pure.mp h
    rfl
  · split at h
    · split_ifs at h
      · obtain rfl := Check.accepts_pure.mp h
        rfl
      · simp at h
    · simp at h
  · simp at h

theorem ArgOf.isSome {given : Value} {coerce : Bool} {p : ParamDef} {w : Option ParamValue}
    (h : ArgOf L given coerce p w) :
    w.isSome = true ↔ (givenFor given p).isSome = true ∨ p.default.isSome = true := by
  unfold ArgOf at h
  cases hg : givenFor given p with
  | none =>
    simp only [hg] at h
    simp [h.1]
  | some v =>
    simp only [hg] at h
    obtain ⟨b, -, rfl⟩ := h
    simp

/-- A param's turn over the map that was made comes to the same value. -/
theorem ArgOf.again {given : Value} {p : ParamDef} {w : Option ParamValue} (hp : ParamOk p)
    (h : ArgOf L given false p w) {args : Args} (hargs : args.lookup p.name = w)
    (hplain : w = none → inheritedNames.contains p.name = false) :
    ArgOf L (argsValue args) false p w := by
  have hproperty : property (argsValue args) p.name = w.map ParamValue.toValue := by
    simp only [property, argsValue, lookup_argsValue, hargs]
    cases w with
    | none => simpa using hplain rfl
    | some v => simp
  have hgiven : givenFor (argsValue args) p =
      (w.map ParamValue.toValue).filter fun v => v.asText ≠ some [] := by
    rw [givenFor, hproperty]
  unfold ArgOf at h ⊢
  rw [hgiven]
  cases w with
  | none =>
    cases hg : givenFor given p with
    | none => simpa [hg] using h
    | some v => simp [hg] at h
  | some b =>
    have hcheck : ∀ place, (checkParamValue p (ParamValue.toValue b) place).Accepts b := by
      cases hg : givenFor given p with
      | none =>
        simp only [hg] at h
        exact hp.default b h.1.symm
      | some v =>
        simp only [hg] at h
        obtain ⟨b', hb', heq⟩ := h
        obtain rfl := Option.some.inj heq
        exact fun place => checkParamValue_again hb'
    by_cases hempty : (ParamValue.toValue b).asText = some []
    · -- an empty text is kept only as a default, and is taken for the default again
      have hdefault : givenFor given p = none := by
        cases hg : givenFor given p with
        | none => rfl
        | some v =>
          simp only [hg] at h
          obtain ⟨b', hb', heq⟩ := h
          obtain rfl := Option.some.inj heq
          have hv := (Option.filter_eq_some_iff.mp hg).2
          have htext : v.asText = some [] := by simpa [← checkParamValue_asText hb'] using hempty
          exact absurd htext (by simpa using hv)
      have hnone : (some (ParamValue.toValue b)).filter (fun v => v.asText ≠ some []) = none := by
        simp [Option.filter, hempty]
      simp only [hdefault] at h
      rw [Option.map_some, hnone]
      exact h
    · simp only [Option.map_some, Option.filter_some, hempty, ne_eq, not_false_eq_true, decide_true,
        if_true]
      exact ⟨b, hcheck _, rfl⟩

end ClaudeFleet.Definition
