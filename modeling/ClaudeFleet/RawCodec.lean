import Mathlib.Tactic
import ClaudeFleet.IngestParse

/-! The stored form of an event line: stripped to a stub, deflated, and read back. -/
namespace ClaudeFleet.RawCodec
open IngestParse

abbrev Bytes := List UInt8

/-- deflateSync and inflateSync (`none` when it throws). -/
structure Zlib where
  deflate : String → Bytes
  inflate : Bytes → Option String
  inflate_deflate : ∀ line, inflate (deflate line) = some line
  deflate_ne_nil : ∀ line, deflate line ≠ []

structure Stored where
  rawJsonl : String
  rawZ : Option Bytes
  deriving DecidableEq

def compressMinBytes : ℕ := 512
def stubHeadChars : ℕ := 500
def toolInputMax : ℕ := 2048
def keepMax : ℕ := 4096
def otherMax : ℕ := 200

def keepInput : List String :=
  ["file_path", "path", "notebook_path", "command", "pattern", "url", "description", "skill",
    "subagent_type"]

def Stored.isCompressed (r : Stored) : Bool := r.rawZ.any fun z => z ≠ []

/-- The strict form: `none` when a deflated line cannot be read. -/
def rawLine (zlib : Zlib) (r : Stored) : Option String :=
  match r.rawZ with
  | none => some r.rawJsonl
  | some z => if z = [] then some r.rawJsonl else zlib.inflate z

section Strip
variable (rt : Runtime) (slice : String → ℕ → String)

/-- Set a property: in place when the object has it, else at the end. -/
def setField (fields : List (String × Json)) (name : String) (v : Json) : List (String × Json) :=
  if fields.any fun f => f.1 = name then
    fields.map fun f => if f.1 = name then (name, v) else f
  else fields ++ [(name, v)]

/-- The own properties of a value, each once with its last value, as a spread copies them. -/
def spread : Json → List (String × Json)
  | .obj fields => fields.foldl (fun acc f => setField acc f.1 f.2) []
  | _ => []

/-- Object.entries of an object or an array. -/
def entries : Json → List (String × Json)
  | .arr items => items.zipIdx.map fun p => (toString p.2, p.1)
  | v => spread v

def hasType (type : String) (block : Json) : Bool := block.stringField "type" = some type

/-- A text as it is, any other value as its JSON. -/
def textOf : Json → String
  | .str s => s
  | v => rt.stringify v

def stripResult (block : Json) : Json :=
  if hasType "tool_result" block then
    let text := match block.stringField "content" with
      | some text => text
      | none => rt.stringify ((Json.nullish (block.field "content")).getD (.str ""))
    .obj ([("type", .str "tool_result")] ++
      ((block.field "tool_use_id").toList.map fun id => ("tool_use_id", id)) ++
      [("is_error", (Json.nullish (block.field "is_error")).getD (.bool false)),
       ("content", .str (slice text stubHeadChars))])
  else block

/-- The input of a tool use that is longer than `toolInputMax`. -/
def oversizedInput (block : Json) : Option Json :=
  if hasType "tool_use" block then
    (block.field "input").filter fun input =>
      input.isObject && toolInputMax < utf16Length (rt.stringify input)
  else none

def cutField (f : String × Json) : String × Json :=
  let s := textOf rt f.2
  if f.1 ∈ keepInput then
    (f.1, if keepMax < utf16Length s then .str (slice s keepMax) else f.2)
  else (f.1, if otherMax < utf16Length s then .str (slice s otherMax ++ "…") else f.2)

/-- The fields of an oversized input; an assignment to __proto__ makes no property. -/
def cutInput (input : Json) : List (String × Json) :=
  ((entries input).filter fun f => f.1 ≠ "__proto__").map (cutField rt slice)

def stripUse (block : Json) : Json :=
  match oversizedInput rt block with
  | none => block
  | some input => .obj (setField (spread block) "input" (.obj (cutInput rt slice input)))

def fleetStripped (line : String) (nowMs : ℤ) : Json :=
  .obj [("bytes", .num (.finite line.utf8ByteSize)), ("at", .num (.finite nowMs))]

/-- The line rebuilt around its new content blocks. -/
def stub (line : String) (nowMs : ℤ) (rest : List (String × Json)) (msg : Json)
    (blocks : List Json) : Json :=
  .obj (setField (setField rest "message" (.obj (setField (spread msg) "content" (.arr blocks))))
    "fleetStripped" (fleetStripped line nowMs))

/-- The content blocks of a line that is not a stub yet, with its message. -/
def strippable (o : Json) : Option (Json × List Json) :=
  if o.isObject = false ∨ (o.field "fleetStripped").any Json.truthy then none
  else
    (o.field "message").bind fun msg =>
      ((msg.field "content").bind Json.asArray).map fun content => (msg, content)

/-- The value that the stub of a line is the JSON text of. -/
def stripValue (line : String) (nowMs : ℤ) : Option Json :=
  match (rt.parse line).bind fun o => (strippable o).map fun mc => (o, mc.1, mc.2) with
  | none => none
  | some (o, msg, content) =>
    if hasType "user" o ∧ content.any (hasType "tool_result") then
      some (stub line nowMs ((spread o).filter fun f => f.1 ≠ "toolUseResult") msg
        (content.map (stripResult rt slice)))
    else if hasType "assistant" o ∧ content.any fun b => (oversizedInput rt b).isSome then
      some (stub line nowMs (spread o) msg (content.map (stripUse rt slice)))
    else none

def stripLine (line : String) (nowMs : ℤ) : Option String :=
  (stripValue rt slice line nowMs).map rt.stringify

end Strip

section Laws
variable {rt : Runtime} {slice : String → ℕ → String}

/-- A property with an object as its value reads back from the JSON text of an object. -/
def WritesObjects (rt : Runtime) (name : String) : Prop :=
  ∀ fields inner, (Json.obj fields).field name = some (.obj inner) →
    ∃ fields' inner', rt.parse (rt.stringify (.obj fields)) = some (.obj fields') ∧
      (Json.obj fields').field name = some (.obj inner')

theorem field_setField (fields : List (String × Json)) (name : String) (v : Json) :
    (Json.obj (setField fields name v)).field name = some v := by
  have hfind : ∀ l : List (String × Json), (∃ f ∈ l, f.1 = name) →
      (∀ f ∈ l, f.1 = name → f.2 = v) →
      (l.find? fun f => f.1 = name).map Prod.snd = some v := by
    intro l hex hall
    cases hl : l.find? fun f => f.1 = name with
    | none =>
      obtain ⟨f, hf, hname⟩ := hex
      exact absurd hname (by simpa using List.find?_eq_none.mp hl f hf)
    | some f =>
      have hname : f.1 = name := by simpa using List.find?_some hl
      rw [Option.map_some, hall f (List.mem_of_find?_eq_some hl) hname]
  change ((setField fields name v).reverse.find? fun f => f.1 = name).map Prod.snd = some v
  unfold setField
  split
  · next h =>
    apply hfind
    · obtain ⟨f, hf, hname⟩ := List.any_eq_true.mp h
      refine ⟨(name, v), List.mem_reverse.mpr (List.mem_map.mpr ⟨f, hf, ?_⟩), rfl⟩
      rw [if_pos (of_decide_eq_true hname)]
    · intro f hf hname
      obtain ⟨g, -, rfl⟩ := List.mem_map.mp (List.mem_reverse.mp hf)
      split at hname
      · next hg => rw [if_pos hg]
      · next hg => exact absurd hname hg
  · simp

theorem stripLine_stub (h : WritesObjects rt "fleetStripped") (line : String) (nowMs at' : ℤ)
    (rest : List (String × Json)) (msg : Json) (blocks : List Json) :
    stripLine rt slice (rt.stringify (stub line nowMs rest msg blocks)) at' = none := by
  obtain ⟨fields, inner, hparse, hfield⟩ := h _ _ (field_setField
    (setField rest "message" (.obj (setField (spread msg) "content" (.arr blocks))))
    "fleetStripped" (fleetStripped line nowMs))
  have hnot : strippable (.obj fields) = none := by
    unfold strippable
    rw [if_pos (.inr (by rw [hfield]; rfl))]
  unfold stripLine stripValue stub
  rw [hparse, Option.bind_some, hnot]
  rfl

/-- A stub is not stripped again. -/
theorem stripLine_idem (h : WritesObjects rt "fleetStripped") {line out : String} {nowMs : ℤ}
    (hs : stripLine rt slice line nowMs = some out) (at' : ℤ) :
    stripLine rt slice out at' = none := by
  obtain ⟨v, hv, rfl⟩ := Option.map_eq_some_iff.mp hs
  unfold stripValue at hv
  split at hv
  · cases hv
  · split_ifs at hv
    · cases hv
      exact stripLine_stub h ..
    · cases hv
      exact stripLine_stub h ..

/-- Whether a line is stripped does not depend on the time. -/
theorem stripLine_none {line : String} {nowMs : ℤ} (h : stripLine rt slice line nowMs = none)
    (at' : ℤ) : stripLine rt slice line at' = none := by
  rw [stripLine, Option.map_eq_none_iff] at h ⊢
  unfold stripValue at h ⊢
  split at h
  · rfl
  · split_ifs at h with huser huse
    rw [if_neg huser, if_neg huse]

theorem rawLine_raw (zlib : Zlib) (line : String) : rawLine zlib ⟨line, none⟩ = some line := rfl

theorem rawLine_deflate (zlib : Zlib) (line text : String) :
    rawLine zlib ⟨text, some (zlib.deflate line)⟩ = some line := by
  simp only [rawLine, if_neg (zlib.deflate_ne_nil line), zlib.inflate_deflate]

theorem isCompressed_deflate (zlib : Zlib) (line text : String) :
    Stored.isCompressed ⟨text, some (zlib.deflate line)⟩ = true := by
  simp [Stored.isCompressed, zlib.deflate_ne_nil]

end Laws
end ClaudeFleet.RawCodec
