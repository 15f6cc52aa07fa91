import Mathlib.Tactic
import ClaudeFleet.RetentionPass

/-! What a reader still finds in a line that was stripped and compressed: the columns ingest takes
from it are those of the line as it came, and a second pass leaves the row as it is. -/
namespace ClaudeFleet.Retention
open IngestParse RawCodec

/-- What JSON.parse makes of the JSON text of a value: a number that is not finite was written as
null, and the properties of an object may stand in another order. -/
inductive Reread : Json → Json → Prop
  | null : Reread .null .null
  | bool (b : Bool) : Reread (.bool b) (.bool b)
  | finite (q : ℚ) : Reread (.num (.finite q)) (.num (.finite q))
  | infinite (negative : Bool) : Reread (.num (.infinite negative)) .null
  | str (s : String) : Reread (.str s) (.str s)
  | arr {items items' : List Json} (h : List.Forall₂ Reread items items') :
    Reread (.arr items) (.arr items')
  | obj {fields fields' : List (String × Json)}
    (h : ∀ name, Option.Rel Reread ((Json.obj fields).field name) ((Json.obj fields').field name)) :
    Reread (.obj fields) (.obj fields')

def ReadsBack (rt : Runtime) (v : Json) : Prop :=
  ∃ v', rt.parse (rt.stringify v) = some v' ∧ Reread v v'

/-- What a block tells ingest of a tool call, but for the summary of its input. -/
structure Outcome where
  name : Option String := none
  useId : Option String := none
  resultIsError : Option ℕ := none
  deriving DecidableEq

def outcome (d : ToolDetail) : Outcome := ⟨d.name, d.useId, d.resultIsError⟩

def flagged : Option Json → ℕ
  | some (.bool true) => 1
  | _ => 0

def blockOutcome (b : Json) : Option Outcome :=
  if b.stringField "type" = some "tool_use" ∧ (b.stringField "name").isSome then
    some { name := b.stringField "name", useId := b.stringField "id" }
  else if b.stringField "type" = some "tool_result" then
    some { useId := b.stringField "tool_use_id",
           resultIsError := some (flagged (b.field "is_error")) }
  else none

/-- The columns of an event that a stub keeps: all but the summary of the tool's input, and the
dedup key, which a line without a uuid takes from its own text. -/
def lasting (p : ParsedLine) : EventColumns := { p.event with toolInput := none, dedupKey := "" }

def columns (rt : Runtime) (line : String) : Except String (Option EventColumns) :=
  (parseIngestLine rt line).map (Option.map lasting)

/-! Reading a value back. -/

section Reread

variable {v v' : Json} {o o' : Option Json}

theorem Reread.field (h : Reread v v') (name : String) :
    Option.Rel Reread (v.field name) (v'.field name) := by
  cases h with
  | obj h => exact h name
  | _ => exact .none

theorem bind_asString (h : Option.Rel Reread o o') :
    o'.bind Json.asString = o.bind Json.asString := by
  cases h with
  | none => rfl
  | some h => cases h <;> rfl

theorem Reread.stringField (h : Reread v v') (name : String) :
    v'.stringField name = v.stringField name := bind_asString (h.field name)

theorem numOrNull_reread (h : Option.Rel Reread o o') : numOrNull o' = numOrNull o := by
  cases h with
  | none => rfl
  | some h => cases h <;> rfl

theorem flagged_reread (h : Option.Rel Reread o o') : flagged o' = flagged o := by
  cases h with
  | none => rfl
  | some h => cases h <;> rfl

theorem Reread.asArray (h : Reread v v') {items : List Json} (hv : v.asArray = some items) :
    ∃ items', v'.asArray = some items' ∧ List.Forall₂ Reread items items' := by
  cases h with
  | arr h =>
    cases hv
    exact ⟨_, rfl, h⟩
  | _ => cases hv

theorem Reread.asArray_field (h : Reread v v') {name : String} {items : List Json}
    (hv : (v.field name).bind Json.asArray = some items) :
    ∃ items', (v'.field name).bind Json.asArray = some items' ∧
      List.Forall₂ Reread items items' := by
  obtain ⟨w, hw, hitems⟩ := Option.bind_eq_some_iff.mp hv
  have hrel := h.field name
  rw [hw] at hrel
  cases hf : v'.field name with
  | none =>
    rw [hf] at hrel
    cases hrel
  | some w' =>
    rw [hf] at hrel
    cases hrel with
    | some hrel => exact hrel.asArray hitems

theorem Reread.some_field (h : Reread v v') {name : String} {w : Json}
    (hv : v.field name = some w) : ∃ w', v'.field name = some w' ∧ Reread w w' := by
  have hrel := h.field name
  rw [hv] at hrel
  cases hf : v'.field name with
  | none =>
    rw [hf] at hrel
    cases hrel
  | some w' =>
    rw [hf] at hrel
    cases hrel with
    | some hrel => exact ⟨w', rfl, hrel⟩

/-- A value is only asked for its properties, which null and a number do not have. -/
theorem nullish_field (h : Option.Rel Reread o o') (name : String) :
    Option.Rel Reread ((Json.nullish o).bind fun u => u.field name)
      ((Json.nullish o').bind fun u => u.field name) := by
  cases h with
  | none => exact .none
  | some h =>
    cases h with
    | obj h => exact h name
    | _ => exact .none

end Reread

/-! Properties of a rebuilt object. -/

section Rebuilt

variable {name : String}

theorem field_obj (fields : List (String × Json)) (name : String) :
    (Json.obj fields).field name = (fields.reverse.find? fun f => f.1 = name).map Prod.snd := rfl

theorem field_cons (f : String × Json) (fields : List (String × Json)) (name : String) :
    (Json.obj (f :: fields)).field name =
      ((Json.obj fields).field name).or (if f.1 = name then some f.2 else none) := by
  rw [field_obj, field_obj, List.reverse_cons, List.find?_append]
  cases fields.reverse.find? fun g => g.1 = name with
  | none => by_cases hf : f.1 = name <;> simp [hf]
  | some g => rfl

theorem field_concat (fields : List (String × Json)) (f : String × Json) (hne : f.1 ≠ name) :
    (Json.obj (fields ++ [f])).field name = (Json.obj fields).field name := by
  rw [field_obj, field_obj, List.reverse_concat, List.find?_cons_of_neg (by simpa using hne)]

theorem field_last (fields : List (String × Json)) (f g : String × Json) :
    (Json.obj (fields ++ [f, g])).field g.1 = some g.2 := by
  rw [field_obj, List.reverse_append]
  simp

theorem field_map {g : String × Json → String × Json} (hkey : ∀ f, (g f).1 = f.1)
    (hval : ∀ f : String × Json, f.1 = name → (g f).2 = f.2) (fields : List (String × Json)) :
    (Json.obj (fields.map g)).field name = (Json.obj fields).field name := by
  induction fields with
  | nil => rfl
  | cons f fields ih =>
    rw [List.map_cons, field_cons, field_cons, ih, hkey]
    by_cases hf : f.1 = name
    · rw [hval f hf]
    · rw [if_neg hf, if_neg hf]

theorem field_setField_of_ne (fields : List (String × Json)) {key : String} (w : Json)
    (hne : key ≠ name) :
    (Json.obj (setField fields key w)).field name = (Json.obj fields).field name := by
  unfold setField
  split
  · apply field_map
    · intro f
      split
      · next h => exact h.symm
      · rfl
    · intro f hf
      rw [if_neg fun h => hne (h.symm.trans hf)]
  · exact field_concat fields _ hne

theorem field_filter {P : String × Json → Bool} (hP : ∀ f : String × Json, f.1 = name → P f = true)
    (fields : List (String × Json)) :
    (Json.obj (fields.filter P)).field name = (Json.obj fields).field name := by
  induction fields with
  | nil => rfl
  | cons f fields ih =>
    rw [List.filter_cons, field_cons]
    split
    · rw [field_cons, ih]
    · next hf =>
      have hne : f.1 ≠ name := fun h => hf (hP f h)
      rw [if_neg hne, Option.or_none, ih]

theorem field_foldl (fields acc : List (String × Json)) (name : String) :
    (Json.obj (fields.foldl (fun acc f => setField acc f.1 f.2) acc)).field name =
      ((Json.obj fields).field name).or ((Json.obj acc).field name) := by
  induction fields generalizing acc with
  | nil => rfl
  | cons f fields ih =>
    rw [List.foldl_cons, ih, field_cons, Option.or_assoc]
    by_cases hf : f.1 = name
    · rw [if_pos hf, ← hf, field_setField]
      rfl
    · rw [if_neg hf, field_setField_of_ne _ _ hf]
      rfl

/-- A copy has the properties of the value. -/
theorem field_spread (v : Json) (name : String) :
    (Json.obj (spread v)).field name = v.field name := by
  cases v with
  | obj fields =>
    change (Json.obj (fields.foldl _ [])).field name = _
    rw [field_foldl]
    exact Option.or_none
  | _ => rfl

end Rebuilt

/-! The blocks of a stub. -/

section Blocks

variable {rt : Runtime} {slice : String → ℕ → String}

theorem object_of_field (v : Json) (name : String) (h : v.field name ≠ none) :
    ∃ fields, v = .obj fields := by
  cases v with
  | obj fields => exact ⟨fields, rfl⟩
  | _ => exact absurd rfl h

theorem toolBlock_outcome (rt : Runtime) (b : Json) :
    (toolBlock rt b).map outcome = blockOutcome b := by
  unfold toolBlock blockOutcome
  by_cases htype : b.stringField "type" = none
  · simp [htype]
  · have htruthy : b.truthy = true := by
      obtain ⟨fields, rfl⟩ := object_of_field b "type" fun h =>
        htype (by rw [Json.stringField, h]; rfl)
      rfl
    rw [if_pos htruthy]
    split_ifs
    · rfl
    · simp only [Option.map_some, outcome, Option.some.injEq, Outcome.mk.injEq, true_and]
      generalize b.field "is_error" = e
      cases e with
      | none => rfl
      | some v =>
        cases v with
        | bool b => cases b <;> rfl
        | _ => rfl
    · rfl

/-- The outcome of a block is read off five of its properties. -/
theorem blockOutcome_congr {b b' : Json}
    (hs : ∀ name ∈ ["type", "name", "id", "tool_use_id"], b'.stringField name = b.stringField name)
    (he : flagged (b'.field "is_error") = flagged (b.field "is_error")) :
    blockOutcome b' = blockOutcome b := by
  unfold blockOutcome
  rw [hs "type" (by simp), hs "name" (by simp), hs "id" (by simp), hs "tool_use_id" (by simp), he]

theorem blockOutcome_reread {b b' : Json} (h : Reread b b') : blockOutcome b' = blockOutcome b :=
  blockOutcome_congr (fun name _ => h.stringField name) (flagged_reread (h.field _))

theorem flagged_nullish (o : Option Json) :
    flagged (some ((Json.nullish o).getD (.bool false))) = flagged o := by
  cases o with
  | none => rfl
  | some v => cases v <;> rfl

theorem blockOutcome_stripResult (b : Json) :
    blockOutcome (stripResult rt slice b) = blockOutcome b := by
  unfold stripResult
  split
  · next htype =>
    have htype : b.stringField "type" = some "tool_result" := of_decide_eq_true htype
    generalize hb' : Json.obj _ = b'
    have htype' : b'.stringField "type" = some "tool_result" := by
      subst hb'
      cases b.field "tool_use_id" <;> simp [Json.stringField, Json.field, Json.asString]
    have hid : b'.stringField "tool_use_id" = b.stringField "tool_use_id" := by
      subst hb'
      unfold Json.stringField
      cases b.field "tool_use_id" <;> simp [Json.field]
    have herr : b'.field "is_error" =
        some ((Json.nullish (b.field "is_error")).getD (.bool false)) := by
      subst hb'
      simp [Json.field]
    simp [blockOutcome, htype, htype', hid, herr, flagged_nullish]
  · rfl

theorem blockOutcome_stripUse (b : Json) :
    blockOutcome (stripUse rt slice b) = blockOutcome b := by
  unfold stripUse
  cases oversizedInput rt b with
  | none => rfl
  | some input =>
    have hfield : ∀ name ≠ "input", (Json.obj (setField (spread b) "input"
        (.obj (cutInput rt slice input)))).field name = b.field name := by
      intro name hne
      rw [field_setField_of_ne _ _ hne.symm, field_spread]
    apply blockOutcome_congr
    · intro name hname
      rw [Json.stringField, Json.stringField, hfield]
      rintro rfl
      simp at hname
    · rw [hfield _ (by decide)]

theorem map_stripped {f : Json → Json} (hf : ∀ b, blockOutcome (f b) = blockOutcome b)
    (content : List Json) : (content.map f).map blockOutcome = content.map blockOutcome := by
  rw [List.map_map]
  exact List.map_congr_left fun b _ => hf b

theorem map_reread {blocks blocks' : List Json} (h : List.Forall₂ Reread blocks blocks') :
    blocks'.map blockOutcome = blocks.map blockOutcome := by
  induction h with
  | nil => rfl
  | cons h _ ih => rw [List.map_cons, List.map_cons, blockOutcome_reread h, ih]

end Blocks

/-! The columns of a line with content blocks. -/

section Columns

variable {rt : Runtime} {slice : String → ℕ → String}

def count (msg : Json) (name : String) : Option ℚ :=
  numOrNull ((Json.nullish (msg.field "usage")).bind fun u => u.field name)

/-- The columns that `columns` gives, from the parts of the line. -/
def lastingOf (rt : Runtime) (o msg : Json) (content : List Json) (type : String) : EventColumns :=
  let found := ((content.map blockOutcome).findSome? id).getD {}
  { ts := (o.stringField "timestamp").bind rt.dateParse
    type := type
    subtype := o.stringField "subtype"
    uuid := o.stringField "uuid"
    parentUuid := o.stringField "parentUuid"
    model := msg.stringField "model"
    inputTokens := count msg "input_tokens"
    outputTokens := count msg "output_tokens"
    cacheReadInputTokens := count msg "cache_read_input_tokens"
    cacheCreationInputTokens := count msg "cache_creation_input_tokens"
    serviceTier := (Json.nullish (msg.field "usage")).bind fun u => u.stringField "service_tier"
    toolName := found.name
    toolUseId := found.useId
    toolInput := none
    toolResultIsError := found.resultIsError
    dedupKey := "" }

/-- A line whose message has content blocks. -/
structure Reads (rt : Runtime) (line : String) (o msg : Json) (content : List Json)
    (type : String) : Prop where
  parse : rt.parse line = some o
  type : o.stringField "type" = some type
  message : o.field "message" = some msg
  content : (msg.field "content").bind Json.asArray = some content

theorem outcome_extract {msg : Json} {content : List Json}
    (hc : (msg.field "content").bind Json.asArray = some content) :
    outcome (extractToolDetail rt (some msg)) =
      ((content.map blockOutcome).findSome? id).getD {} := by
  obtain ⟨fields, rfl⟩ := object_of_field msg "content" fun h => by
    rw [h] at hc
    cases hc
  have htruthy : (Json.obj fields).truthy = true := rfl
  simp only [extractToolDetail, htruthy, if_true, hc]
  have hmap : (content.findSome? (toolBlock rt)).map outcome =
      (content.map blockOutcome).findSome? id := by
    rw [List.map_findSome?, List.findSome?_map]
    exact congrArg content.findSome? (funext fun b => toolBlock_outcome rt b)
  change outcome ((content.findSome? (toolBlock rt)).getD {}) = _
  rw [← hmap]
  cases content.findSome? (toolBlock rt) <;> rfl

theorem Reads.columns {line type : String} {o msg : Json} {content : List Json}
    (h : Reads rt line o msg content type) :
    columns rt line = .ok (some (lastingOf rt o msg content type)) := by
  obtain ⟨fields, rfl⟩ := object_of_field o "message" fun hnone =>
    Option.some_ne_none _ (h.message.symm.trans hnone)
  obtain ⟨inner, rfl⟩ := object_of_field msg "content" fun hnone => by
    have hc := h.content
    rw [hnone] at hc
    cases hc
  have htype : (Json.obj fields).field "type" = some (.str type) := by
    have ht := h.type
    rw [Json.stringField] at ht
    obtain ⟨v, hv, hstr⟩ := Option.bind_eq_some_iff.mp ht
    cases v <;> cases hstr
    exact hv
  have hmsg : Json.nullish ((Json.obj fields).field "message") = some (.obj inner) := by
    rw [h.message]
    rfl
  have hdetail : outcome (extractToolDetail rt (some (.obj inner))) = _ := outcome_extract h.content
  have hnone : (Json.nullish ((Json.obj fields).field "type")).any Json.unprintable = false := by
    rw [htype]
    rfl
  simp only [Retention.columns, parseIngestLine, h.parse]
  rw [if_neg (by simp [hnone])]
  simp only [Except.map, Option.map_some, Except.ok.injEq, Option.some.injEq, lasting, lastingOf]
  rw [hmsg, htype, ← hdetail]
  rfl

theorem stub_field {line name : String} {now : ℤ} {rest : List (String × Json)} {msg : Json}
    {blocks : List Json} (hm : name ≠ "message") (hs : name ≠ "fleetStripped") :
    (stub line now rest msg blocks).field name = (Json.obj rest).field name := by
  unfold stub
  rw [field_setField_of_ne _ _ hs.symm, field_setField_of_ne _ _ hm.symm]

theorem stub_message (line : String) (now : ℤ) (rest : List (String × Json)) (msg : Json)
    (blocks : List Json) : (stub line now rest msg blocks).field "message" =
      some (.obj (setField (spread msg) "content" (.arr blocks))) := by
  unfold stub
  rw [field_setField_of_ne _ _ (by decide), field_setField]

theorem field_rest (o : Json) (name : String) (hne : name ≠ "toolUseResult") :
    (Json.obj ((spread o).filter fun f => f.1 ≠ "toolUseResult")).field name = o.field name := by
  rw [field_filter (fun f hf => by simp [hf, hne]), field_spread]

theorem Reads.stub_type {line type : String} {o msg : Json} {content : List Json}
    (h : Reads rt line o msg content type) {rest : List (String × Json)}
    (hrest : ∀ name ≠ "toolUseResult", (Json.obj rest).field name = o.field name) (now : ℤ)
    (m : Json) (blocks : List Json) :
    (stub line now rest m blocks).stringField "type" = some type := by
  rw [Json.stringField, stub_field (by decide) (by decide), hrest _ (by decide)]
  exact h.type

/-- A stub that reads back shows ingest what the line showed it. -/
theorem Reads.columns_stub {line type : String} {o msg : Json} {content : List Json}
    (h : Reads rt line o msg content type) {now : ℤ} {rest : List (String × Json)}
    (hrest : ∀ name ≠ "toolUseResult", (Json.obj rest).field name = o.field name)
    {blocks : List Json} (hblocks : blocks.map blockOutcome = content.map blockOutcome)
    {out : String} {v : Json} (hout : rt.parse out = some v)
    (hv : Reread (stub line now rest msg blocks) v) :
    Retention.columns rt out = Retention.columns rt line := by
  obtain ⟨msg', hmsg, hrel⟩ := hv.some_field (stub_message ..)
  obtain ⟨items, hitems, hall⟩ := hrel.asArray_field
    (by rw [field_setField, Option.bind_some]; rfl)
  have hfield : ∀ name, name ≠ "message" → name ≠ "fleetStripped" → name ≠ "toolUseResult" →
      v.stringField name = o.stringField name := by
    intro name hm hs ht
    rw [hv.stringField, Json.stringField, stub_field hm hs, hrest name ht]
    rfl
  have hinner : ∀ name ≠ "content", Option.Rel Reread (msg.field name) (msg'.field name) := by
    intro name hne
    have := hrel.field name
    rwa [field_setField_of_ne _ _ hne.symm, field_spread] at this
  have hcount : ∀ name, count msg' name = count msg name := fun name =>
    numOrNull_reread (nullish_field (hinner "usage" (by decide)) name)
  have hmodel : msg'.stringField "model" = msg.stringField "model" :=
    bind_asString (hinner "model" (by decide))
  have htier : ((Json.nullish (msg'.field "usage")).bind fun u => u.stringField "service_tier") =
      (Json.nullish (msg.field "usage")).bind fun u => u.stringField "service_tier" := by
    simp only [Json.stringField, ← Option.bind_assoc]
    exact bind_asString (nullish_field (hinner "usage" (by decide)) _)
  have hreads : Reads rt out v msg' items type :=
    ⟨hout, (hfield "type" (by decide) (by decide) (by decide)).trans h.type, hmsg, hitems⟩
  rw [hreads.columns, h.columns]
  unfold lastingOf
  rw [map_reread hall, hblocks, hfield "timestamp" (by decide) (by decide) (by decide),
    hfield "subtype" (by decide) (by decide) (by decide),
    hfield "uuid" (by decide) (by decide) (by decide),
    hfield "parentUuid" (by decide) (by decide) (by decide), hmodel, htier, hcount, hcount, hcount,
    hcount]

theorem strippable_eq_some {o msg : Json} {content : List Json}
    (h : strippable o = some (msg, content)) :
    o.field "message" = some msg ∧ (msg.field "content").bind Json.asArray = some content := by
  unfold strippable at h
  split at h
  · cases h
  · obtain ⟨m, hm, hmap⟩ := Option.bind_eq_some_iff.mp h
    obtain ⟨c, hc, heq⟩ := Option.map_eq_some_iff.mp hmap
    cases heq
    exact ⟨hm, hc⟩

/-- What is written for a line: the stub of a user's line or of an assistant's. -/
theorem stripValue_cases {line : String} {now : ℤ} {v : Json}
    (h : stripValue rt slice line now = some v) :
    ∃ o msg content type, Reads rt line o msg content type ∧
      ((type = "user" ∧ v = stub line now ((spread o).filter fun f => f.1 ≠ "toolUseResult") msg
          (content.map (stripResult rt slice))) ∨
        (type = "assistant" ∧
          v = stub line now (spread o) msg (content.map (stripUse rt slice)))) := by
  unfold stripValue at h
  split at h
  · cases h
  · next o msg content hread =>
    obtain ⟨_, hparse, hmap⟩ := Option.bind_eq_some_iff.mp hread
    obtain ⟨_, hstrip, heq⟩ := Option.map_eq_some_iff.mp hmap
    cases heq
    obtain ⟨hmsg, hcontent⟩ := strippable_eq_some hstrip
    split_ifs at h with huser huse
    · cases h
      exact ⟨_, _, _, _, ⟨hparse, of_decide_eq_true huser.1, hmsg, hcontent⟩, .inl ⟨rfl, rfl⟩⟩
    · cases h
      exact ⟨_, _, _, _, ⟨hparse, of_decide_eq_true huse.1, hmsg, hcontent⟩, .inr ⟨rfl, rfl⟩⟩

theorem columns_stripped {line : String} {now : ℤ} {v : Json}
    (h : stripValue rt slice line now = some v) (hread : ReadsBack rt v) :
    (rt.parse (rt.stringify v)).isSome ∧
      Retention.columns rt (rt.stringify v) = Retention.columns rt line := by
  obtain ⟨v', hparse, hrel⟩ := hread
  refine ⟨by rw [hparse]; rfl, ?_⟩
  obtain ⟨o, msg, content, type, hreads, ⟨-, rfl⟩ | ⟨-, rfl⟩⟩ := stripValue_cases h
  · exact hreads.columns_stub (field_rest o) (map_stripped blockOutcome_stripResult _) hparse hrel
  · exact hreads.columns_stub (fun name _ => field_spread o name)
      (map_stripped blockOutcome_stripUse _) hparse hrel

end Columns

/-! The caps. -/

section Caps

variable {rt : Runtime} {slice : String → ℕ → String}

/-- A field of a cut input: an identifying one is at most `keepMax` long, and any other at most
`otherMax`, or that long before the mark of the cut. -/
def WithinCap (rt : Runtime) (f : String × Json) : Prop :=
  if f.1 ∈ keepInput then utf16Length (textOf rt f.2) ≤ keepMax
  else utf16Length (textOf rt f.2) ≤ otherMax ∨
    ∃ head, f.2 = .str (head ++ "…") ∧ utf16Length head ≤ otherMax

/-- The tool results of a user's stub and the large inputs of an assistant's are within their
caps. -/
structure Capped (rt : Runtime) (line : String) (v : Json) : Prop where
  results : v.stringField "type" = some "user" → ∃ msg blocks, v.field "message" = some msg ∧
    msg.field "content" = some (.arr blocks) ∧
    ∀ b ∈ blocks, hasType "tool_result" b → ∃ text, b.field "content" = some (.str text) ∧
      utf16Length text ≤ stubHeadChars
  inputs : v.stringField "type" = some "assistant" → ∃ o msg content msg' blocks,
    Reads rt line o msg content "assistant" ∧ v.field "message" = some msg' ∧
    msg'.field "content" = some (.arr blocks) ∧
    List.Forall₂ (fun b b' => ∀ input, oversizedInput rt b = some input →
      ∃ fields, b'.field "input" = some (.obj fields) ∧ ∀ f ∈ fields, WithinCap rt f)
      content blocks

theorem withinCap_cutField (hslice : ∀ text n, utf16Length (slice text n) ≤ n)
    (f : String × Json) : WithinCap rt (cutField rt slice f) := by
  unfold WithinCap cutField
  by_cases hkeep : f.1 ∈ keepInput
  · rw [if_pos hkeep, if_pos hkeep]
    split
    · exact hslice ..
    · next hshort => exact Nat.le_of_not_lt hshort
  · rw [if_neg hkeep, if_neg hkeep]
    split
    · exact .inr ⟨_, rfl, hslice ..⟩
    · next hshort => exact .inl (Nat.le_of_not_lt hshort)

theorem stripResult_capped (hslice : ∀ text n, utf16Length (slice text n) ≤ n) {b : Json}
    (h : hasType "tool_result" (stripResult rt slice b)) :
    ∃ text, (stripResult rt slice b).field "content" = some (.str text) ∧
      utf16Length text ≤ stubHeadChars := by
  unfold stripResult at h ⊢
  split
  · exact ⟨_, field_last _ _ ("content", _), hslice _ _⟩
  · next hb =>
    rw [if_neg hb] at h
    exact absurd h hb

theorem stripUse_capped (hslice : ∀ text n, utf16Length (slice text n) ≤ n) {b input : Json}
    (h : oversizedInput rt b = some input) :
    ∃ fields, (stripUse rt slice b).field "input" = some (.obj fields) ∧
      ∀ f ∈ fields, WithinCap rt f := by
  unfold stripUse
  rw [h]
  refine ⟨_, field_setField .., fun f hf => ?_⟩
  obtain ⟨g, -, rfl⟩ := List.mem_map.mp hf
  exact withinCap_cutField hslice g

theorem Capped.of_stripValue (hslice : ∀ text n, utf16Length (slice text n) ≤ n) {line : String}
    {now : ℤ} {v : Json} (h : stripValue rt slice line now = some v) : Capped rt line v := by
  obtain ⟨o, msg, content, type, hreads, ⟨rfl, rfl⟩ | ⟨rfl, rfl⟩⟩ := stripValue_cases h
  · have huser := hreads.stub_type (field_rest o) now msg (content.map (stripResult rt slice))
    refine ⟨fun _ => ⟨_, _, stub_message .., field_setField .., ?_⟩, fun hass => ?_⟩
    · intro b hb hresult
      obtain ⟨b, -, rfl⟩ := List.mem_map.mp hb
      exact stripResult_capped hslice hresult
    · exact absurd (Option.some.inj (huser.symm.trans hass)) (by decide)
  · have hass := hreads.stub_type (fun name _ => field_spread o name) now msg
      (content.map (stripUse rt slice))
    refine ⟨fun huser => ?_, fun _ => ⟨o, msg, content, _, _, hreads, stub_message ..,
      field_setField .., ?_⟩⟩
    · exact absurd (Option.some.inj (hass.symm.trans huser)) (by decide)
    · rw [List.forall₂_map_right_iff]
      exact List.forall₂_same.mpr fun b _ input hb => stripUse_capped hslice hb

end Caps

/-- The row after a pass applied `transform` to it. -/
def retained (env : Env) (row : Event) (now stripCut compressCut : ℤ) : Event :=
  row.store ((transform env row now stripCut compressCut).getD row.toStored)

section Retained

variable {env : Env} {row : Event} {line : String} {now stripCut compressCut : ℤ}

/-- The line `transform` gives a row that holds `line`. -/
def lineAfter (env : Env) (row : Event) (line : String) (now stripCut : ℤ) : String :=
  if row.ts.any fun t => t < stripCut then (stripLine env.rt env.slice line now).getD line else line

def wantCompressed (env : Env) (row : Event) (compressCut : ℤ) (out : String) : Bool :=
  env.compress && (row.ts.any fun t => t < compressCut) &&
    decide (compressMinBytes ≤ out.utf8ByteSize)

theorem transform_eq (hline : rawLine env.zlib row.toStored = some line)
    (now stripCut compressCut : ℤ) :
    transform env row now stripCut compressCut =
      if lineAfter env row line now stripCut = line ∧
          wantCompressed env row compressCut (lineAfter env row line now stripCut) =
            row.isCompressed then none
      else some (if wantCompressed env row compressCut (lineAfter env row line now stripCut) then
        ⟨"", some (env.zlib.deflate (lineAfter env row line now stripCut))⟩
      else ⟨lineAfter env row line now stripCut, none⟩) := by
  unfold transform
  rw [hline]
  rfl

theorem retained_spec (hline : rawLine env.zlib row.toStored = some line)
    (now stripCut compressCut : ℤ) :
    rawLine env.zlib (retained env row now stripCut compressCut).toStored =
      some (lineAfter env row line now stripCut) ∧
    (retained env row now stripCut compressCut).isCompressed =
      wantCompressed env row compressCut (lineAfter env row line now stripCut) := by
  have heq := transform_eq hline now stripCut compressCut
  unfold retained
  split_ifs at heq with hsame hwant
  · rw [heq, hsame.2]
    exact ⟨hline.trans (congrArg some hsame.1.symm), rfl⟩
  · rw [heq, hwant]
    exact ⟨rawLine_deflate env.zlib _ "", isCompressed_deflate env.zlib _ ""⟩
  · rw [heq, Bool.eq_false_iff.mpr hwant]
    exact ⟨rfl, rfl⟩

/-- A stub that reads back is known as one. -/
theorem stripLine_stripped {rt : Runtime} {slice : String → ℕ → String} {v : Json}
    (h : stripValue rt slice line now = some v) (hread : ReadsBack rt v) (at' : ℤ) :
    stripLine rt slice (rt.stringify v) at' = none := by
  obtain ⟨v', hparse, hrel⟩ := hread
  have hfleet : v.field "fleetStripped" = some (fleetStripped line now) := by
    obtain ⟨o, msg, content, type, -, ⟨-, rfl⟩ | ⟨-, rfl⟩⟩ := stripValue_cases h
    · exact field_setField ..
    · exact field_setField ..
  obtain ⟨w, hw, hobj⟩ := hrel.some_field hfleet
  have hnot : strippable v' = none := by
    unfold strippable
    rw [hw]
    cases hobj
    exact if_pos (.inr rfl)
  rw [stripLine, stripValue, hparse, Option.bind_some, hnot]
  rfl

theorem lineAfter_lineAfter (row : Event) (stripCut : ℤ)
    (hread : ∀ v, stripValue env.rt env.slice line now = some v → ReadsBack env.rt v) (at' : ℤ) :
    lineAfter env row (lineAfter env row line now stripCut) at' stripCut =
      lineAfter env row line now stripCut := by
  unfold lineAfter
  split
  · cases hv : stripValue env.rt env.slice line now with
    | none =>
      have hnone : stripLine env.rt env.slice line now = none := by rw [stripLine, hv]; rfl
      rw [hnone, Option.getD_none, stripLine_none hnone at', Option.getD_none]
    | some v =>
      have hsome : stripLine env.rt env.slice line now = some (env.rt.stringify v) := by
        rw [stripLine, hv]
        rfl
      rw [hsome, Option.getD_some, stripLine_stripped hv (hread v hv) at', Option.getD_none]
  · rfl

theorem transform_retained
    (hread : ∀ l v, stripValue env.rt env.slice l now = some v → ReadsBack env.rt v) (at' : ℤ) :
    transform env (retained env row now stripCut compressCut) at' stripCut compressCut = none := by
  cases hline : rawLine env.zlib row.toStored with
  | none =>
    have hnone : ∀ n, transform env row n stripCut compressCut = none := by
      intro n
      unfold transform
      rw [hline]
    unfold retained
    rw [hnone now]
    exact hnone at'
  | some line =>
    obtain ⟨hafter, hcomp⟩ := retained_spec hline now stripCut compressCut
    have hstable := lineAfter_lineAfter row stripCut (fun v hv => hread line v hv) at'
    rw [transform_eq hafter, if_pos]
    exact ⟨hstable, by
      rw [hcomp]
      exact congrArg (wantCompressed env row compressCut) hstable⟩

theorem retained_columns
    (hread : ∀ l v, stripValue env.rt env.slice l now = some v → ReadsBack env.rt v)
    (hline : rawLine env.zlib row.toStored = some line) :
    ∃ line', rawLine env.zlib (retained env row now stripCut compressCut).toStored = some line' ∧
      ((env.rt.parse line).isSome → (env.rt.parse line').isSome) ∧
      columns env.rt line' = columns env.rt line := by
  refine ⟨_, (retained_spec hline now stripCut compressCut).1, ?_⟩
  unfold lineAfter
  split
  · cases hv : stripValue env.rt env.slice line now with
    | none =>
      rw [stripLine, hv]
      exact ⟨id, rfl⟩
    | some v =>
      obtain ⟨hparse, hcol⟩ := columns_stripped hv (hread line v hv)
      rw [stripLine, hv]
      exact ⟨fun _ => hparse, hcol⟩
  · exact ⟨id, rfl⟩

end Retained

/-- Stripping and compressing keep what ingest reads in a line, and a second pass finds nothing to
do. -/
theorem retained_faithful (env : Env) (now : ℤ)
    (hread : ∀ line v, stripValue env.rt env.slice line now = some v → ReadsBack env.rt v)
    (hslice : ∀ text n, utf16Length (env.slice text n) ≤ n) :
    (∀ (row : Event) (stripCut compressCut : ℤ) (line : String),
      rawLine env.zlib row.toStored = some line →
      ∃ line', rawLine env.zlib (retained env row now stripCut compressCut).toStored = some line' ∧
        ((env.rt.parse line).isSome → (env.rt.parse line').isSome) ∧
        columns env.rt line' = columns env.rt line) ∧
    (∀ line out, stripLine env.rt env.slice line now = some out →
      ∀ at', stripLine env.rt env.slice out at' = none) ∧
    (∀ (row : Event) (stripCut compressCut at' : ℤ),
      transform env (retained env row now stripCut compressCut) at' stripCut compressCut = none) ∧
    ∀ line v, stripValue env.rt env.slice line now = some v → Capped env.rt line v := by
  refine ⟨fun row stripCut compressCut line hline => retained_columns hread hline, ?_,
    fun row stripCut compressCut at' => transform_retained hread at',
    fun line v hv => Capped.of_stripValue hslice hv⟩
  intro line out hout at'
  obtain ⟨v, hv, rfl⟩ := Option.map_eq_some_iff.mp hout
  exact stripLine_stripped hv (hread line v hv) at'

/-! Two lines: a tool result that is answered, and a file that is written. -/

/-- The characters of a text that fit into `n` units. -/
def takeUnits : List Char → ℕ → List Char
  | [], _ => []
  | c :: cs, n =>
    if c.val < 0x10000 then if 1 ≤ n then c :: takeUnits cs (n - 1) else []
    else if 2 ≤ n then c :: takeUnits cs (n - 2) else []

def headUnits (text : String) (n : ℕ) : String := String.ofList (takeUnits text.toList n)

theorem utf16Length_headUnits (text : String) (n : ℕ) : utf16Length (headUnits text n) ≤ n := by
  unfold headUnits utf16Length
  rw [String.toList_ofList]
  induction text.toList generalizing n with
  | nil => exact Nat.zero_le n
  | cons c cs ih =>
    unfold takeUnits
    split_ifs with hc hn hn
    · have := ih (n - 1)
      rw [List.map_cons, List.sum_cons, if_pos hc]
      omega
    · exact Nat.zero_le n
    · have := ih (n - 2)
      rw [List.map_cons, List.sum_cons, if_neg hc]
      omega
    · exact Nat.zero_le n

theorem reread_self {fields : List (String × Json)} (h : ∀ f ∈ fields, Reread f.2 f.2) :
    Reread (.obj fields) (.obj fields) := by
  refine .obj fun name => ?_
  rw [field_obj]
  cases hf : fields.reverse.find? fun f => f.1 = name with
  | none => exact .none
  | some f => exact .some (h f (List.mem_reverse.mp (List.mem_of_find?_eq_some hf)))

def answerLine : String := "\x7b\"type\":\"user\",\"uuid\":\"r\",\"timestamp\":\"1970-01-02\"," ++
  "\"toolUseResult\":\"done\",\"message\":\x7b\"content\":[\x7b\"type\":\"tool_result\"," ++
  "\"tool_use_id\":\"t\",\"content\":\"done\"\x7d]\x7d\x7d"

def answerStub : String := "\x7b\"type\":\"user\",\"uuid\":\"r\",\"timestamp\":\"1970-01-02\"," ++
  "\"message\":\x7b\"content\":[\x7b\"type\":\"tool_result\",\"tool_use_id\":\"t\"," ++
  "\"is_error\":false,\"content\":\"done\"\x7d]\x7d," ++
  "\"fleetStripped\":\x7b\"bytes\":156,\"at\":0\x7d\x7d"

def answerDoc : Json :=
  .obj [("type", .str "user"), ("uuid", .str "r"), ("timestamp", .str "1970-01-02"),
    ("toolUseResult", .str "done"),
    ("message", .obj [("content", .arr [.obj [("type", .str "tool_result"),
      ("tool_use_id", .str "t"), ("content", .str "done")]])])]

def answerStubDoc : Json :=
  .obj [("type", .str "user"), ("uuid", .str "r"), ("timestamp", .str "1970-01-02"),
    ("message", .obj [("content", .arr [.obj [("type", .str "tool_result"),
      ("tool_use_id", .str "t"), ("is_error", .bool false), ("content", .str "done")]])]),
    ("fleetStripped", fleetStripped answerLine 0)]

noncomputable def answerEnv : Env where
  rt := { Runtime.ofDocs [(answerLine, answerDoc), (answerStub, answerStubDoc)]
      [("1970-01-02", dayMs)] with
    stringify := fun _ => answerStub }
  slice := headUnits
  zlib := byteZlib
  compress := true
  sliceRows := sampleEnv.sliceRows

theorem answer_parse : answerEnv.rt.parse answerLine = some answerDoc := by
  simp [answerEnv, Runtime.ofDocs]

theorem answer_stripped : stripValue answerEnv.rt headUnits answerLine 0 = some answerStubDoc := by
  unfold stripValue
  rw [answer_parse]
  rfl

theorem answerStub_readsBack : ReadsBack answerEnv.rt answerStubDoc := by
  refine ⟨answerStubDoc, ?_, ?_⟩
  · have hne : answerLine ≠ answerStub := by decide +kernel
    simp [answerEnv, Runtime.ofDocs, hne]
  · have hresult : Reread (.obj [("type", .str "tool_result"), ("tool_use_id", .str "t"),
        ("is_error", .bool false), ("content", .str "done")])
        (.obj [("type", .str "tool_result"), ("tool_use_id", .str "t"), ("is_error", .bool false),
          ("content", .str "done")]) := by
      apply reread_self
      simp only [List.forall_mem_cons]
      exact ⟨.str _, .str _, .bool _, .str _, nofun⟩
    apply reread_self
    simp only [List.forall_mem_cons]
    refine ⟨.str _, .str _, .str _, reread_self ?_, reread_self ?_, nofun⟩
    · exact List.forall_mem_singleton.mpr (.arr (.cons hresult .nil))
    · simp only [List.forall_mem_cons]
      exact ⟨.finite _, .finite _, nofun⟩

theorem answerEnv_readsBack (line : String) (v : Json)
    (h : stripValue answerEnv.rt answerEnv.slice line 0 = some v) : ReadsBack answerEnv.rt v := by
  by_cases hline : line = answerLine
  · subst hline
    cases answer_stripped.symm.trans h
    exact answerStub_readsBack
  · obtain ⟨o, msg, content, type, hreads, hv⟩ := stripValue_cases h
    have hstub : o = answerStubDoc := by
      have hparse := hreads.parse
      change (List.find? (fun d : String × Json => d.1 = line) _).map Prod.snd = _ at hparse
      rw [List.find?_cons_of_neg (by simpa using Ne.symm hline), List.find?_singleton] at hparse
      split at hparse
      · exact (Option.some.inj hparse).symm
      · cases hparse
    subst hstub
    unfold stripValue at h
    rw [hreads.parse] at h
    cases h

def answerRow : Event :=
  { id := 1, sessionId := "s", ts := some dayMs, toolUseId := some "t", dedupKey := "r",
    rawJsonl := answerLine, rawZ := none, watermark := 0 }

theorem retained_answer :
    (∃ line', rawLine answerEnv.zlib
        (retained answerEnv answerRow 0 (2 * dayMs) (2 * dayMs)).toStored = some line' ∧
      ((answerEnv.rt.parse answerLine).isSome → (answerEnv.rt.parse line').isSome) ∧
      columns answerEnv.rt line' = columns answerEnv.rt answerLine) ∧
    Capped answerEnv.rt answerLine answerStubDoc :=
  let h := retained_faithful answerEnv 0 answerEnv_readsBack utf16Length_headUnits
  ⟨h.1 answerRow (2 * dayMs) (2 * dayMs) answerLine rfl, h.2.2.2 _ _ answer_stripped⟩

/-- The JSON text of an object with one text in it, as the input of a written file. -/
def oneField : Json → String
  | .obj [(name, .str text)] => "\x7b\"" ++ name ++ "\":\"" ++ text ++ "\"\x7d"
  | _ => ""

section Write

variable (text : String)

def writeInput : Json := .obj [("content", .str text)]

def writeBlock : Json :=
  .obj [("type", .str "tool_use"), ("name", .str "Write"), ("id", .str "u"),
    ("input", writeInput text)]

def writeDoc : Json :=
  .obj [("type", .str "assistant"), ("message", .obj [("content", .arr [writeBlock text])])]

def writeLine : String :=
  "\x7b\"type\":\"assistant\",\"message\":\x7b\"content\":[\x7b\"type\":\"tool_use\"," ++
  "\"name\":\"Write\",\"id\":\"u\",\"input\":" ++ oneField (writeInput text) ++ "\x7d]\x7d\x7d"

def writeRt : Runtime :=
  { Runtime.ofDocs [(writeLine text, writeDoc text)] [] with stringify := oneField }

end Write

theorem utf16Length_append (a b : String) :
    utf16Length (a ++ b) = utf16Length a + utf16Length b := by
  unfold utf16Length
  rw [String.toList_append, List.map_append, List.sum_append]

theorem utf16Length_replicate (n : ℕ) :
    utf16Length (String.ofList (List.replicate n 'a')) = n := by
  unfold utf16Length
  rw [String.toList_ofList, List.map_replicate, List.sum_replicate]
  simp

theorem headUnits_replicate (n k : ℕ) (h : k ≤ n) :
    headUnits (String.ofList (List.replicate n 'a')) k = String.ofList (List.replicate k 'a') := by
  unfold headUnits
  rw [String.toList_ofList]
  congr 1
  induction n generalizing k with
  | zero =>
    rw [Nat.le_zero.mp h]
    rfl
  | succ n ih =>
    rw [List.replicate_succ, takeUnits, if_pos (by decide)]
    cases k with
    | zero => rfl
    | succ k =>
      rw [if_pos (Nat.le_add_left 1 k), Nat.add_sub_cancel, ih k (Nat.le_of_succ_le_succ h),
        List.replicate_succ]

theorem oversizedInput_write {text : String} (h : toolInputMax < utf16Length text) :
    oversizedInput (writeRt text) (writeBlock text) = some (writeInput text) := by
  have hsize : toolInputMax < utf16Length (oneField (writeInput text)) := by
    simp only [writeInput, oneField, utf16Length_append]
    omega
  have htype : hasType "tool_use" (writeBlock text) = true := rfl
  unfold oversizedInput
  rw [htype, if_pos rfl]
  change Option.filter _ (some (writeInput text)) = _
  rw [Option.filter_some_pos]
  exact (Bool.and_eq_true _ _).mpr ⟨rfl, decide_eq_true hsize⟩

theorem stripValue_write {text : String} (h : toolInputMax < utf16Length text) :
    stripValue (writeRt text) headUnits (writeLine text) 0 =
      some (stub (writeLine text) 0 (spread (writeDoc text)) (.obj [("content",
        .arr [writeBlock text])]) [stripUse (writeRt text) headUnits (writeBlock text)]) := by
  have hparse : (writeRt text).parse (writeLine text) = some (writeDoc text) := by
    simp [writeRt, Runtime.ofDocs]
  have huser : hasType "user" (writeDoc text) = false := rfl
  have hass : hasType "assistant" (writeDoc text) = true := rfl
  have hread : strippable (writeDoc text) =
      some (.obj [("content", .arr [writeBlock text])], [writeBlock text]) := rfl
  unfold stripValue
  rw [hparse, Option.bind_some, hread]
  simp [huser, hass, oversizedInput_write h]

theorem stripUse_write {text : String} (h : toolInputMax < utf16Length text) :
    (stripUse (writeRt text) headUnits (writeBlock text)).field "input" =
      some (.obj [("content", .str (headUnits text otherMax ++ "…"))]) := by
  have hlong : otherMax < utf16Length text := lt_trans (by decide) h
  have hcut : cutField (writeRt text) headUnits ("content", .str text) =
      ("content", .str (headUnits text otherMax ++ "…")) := by
    unfold cutField
    rw [if_neg (show "content" ∉ keepInput by decide)]
    exact congrArg (Prod.mk "content") (if_pos hlong)
  unfold stripUse
  rw [oversizedInput_write h]
  refine (field_setField ..).trans ?_
  rw [← hcut]
  rfl

/-- A field that is cut is one unit longer than its cap: the mark comes after the cut. -/
theorem cut_over_cap : ∃ text v msg block fields cut,
    stripValue (writeRt text) headUnits (writeLine text) 0 = some v ∧
    v.field "message" = some msg ∧ msg.field "content" = some (.arr [block]) ∧
    block.field "input" = some (.obj fields) ∧ ("content", .str cut) ∈ fields ∧
    "content" ∉ keepInput ∧ otherMax < utf16Length cut := by
  have hlong : toolInputMax < utf16Length (String.ofList (List.replicate 2100 'a')) := by
    rw [utf16Length_replicate]
    decide
  refine ⟨_, _, _, _, _, _, stripValue_write hlong, stub_message .., field_setField ..,
    stripUse_write hlong, List.mem_singleton_self _, by decide, ?_⟩
  rw [headUnits_replicate 2100 otherMax (by decide), utf16Length_append, utf16Length_replicate]
  decide

end ClaudeFleet.Retention
