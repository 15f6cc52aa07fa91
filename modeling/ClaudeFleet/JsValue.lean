import ClaudeFleet.JsText

/-! The values JSON and YAML texts stand for. An array that a YAML anchor names carries the
anchor, since an alias puts the same array in a second place. -/
namespace ClaudeFleet.Js

inductive Value
  | null
  | bool (b : Bool)
  | num (n : Number)
  | str (s : Text)
  | arr (anchor : Option ℕ) (items : List Value)
  | obj (fields : List (Text × Value))

namespace Value

/-- An own property of an object; nothing stands for undefined. -/
def get (v : Value) (k : String) : Option Value :=
  match v with
  | .obj fields => fields.lookup (js k)
  | _ => none

/-- What `typeof` calls an object, but for null. -/
def isObject : Value → Bool
  | .arr _ _ | .obj _ => true
  | _ => false

def asText : Value → Option Text
  | .str s => some s
  | _ => none

/-- An object of those fields that are given. -/
def record (fields : List (String × Option Value)) : Value :=
  .obj (fields.filterMap fun kv => kv.2.map fun v => (js kv.1, v))

def ofTexts (anchor : Option ℕ) (texts : List Text) : Value := .arr anchor (texts.map .str)

theorem asText_eq_some {v : Value} {s : Text} : v.asText = some s ↔ v = .str s := by
  cases v <;> simp [asText]

theorem mapM_asText_eq_some {items : List Value} :
    ∀ {texts : List Text}, items.mapM asText = some texts ↔ items = texts.map .str := by
  induction items with
  | nil =>
    intro texts
    cases texts <;> simp
  | cons v items ih =>
    intro texts
    cases texts with
    | nil => cases h : v.asText <;> cases h' : items.mapM asText <;> simp [h, h']
    | cons s texts =>
      simp only [List.mapM_cons, List.map_cons, List.cons.injEq, ← ih, ← asText_eq_some]
      cases v.asText <;> cases items.mapM asText <;> simp

mutual
/-- What a template string shows for a value, given how numbers are written. -/
def display (number : Number → Text) : Value → Text
  | .null => js "null"
  | .bool b => js (toString b)
  | .num n => number n
  | .str s => s
  | .arr _ items => [(44 : UInt16)].intercalate (displayItems number items)
  | .obj _ => js "[object Object]"

def displayItems (number : Number → Text) : List Value → List Text
  | [] => []
  | .null :: vs => [] :: displayItems number vs
  | v :: vs => display number v :: displayItems number vs
end

end Value
end ClaudeFleet.Js
