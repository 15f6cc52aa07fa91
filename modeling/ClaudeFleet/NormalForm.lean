import ClaudeFleet.Normal

/-! When a validated definition, saved and validated again, stays what it is. -/
namespace ClaudeFleet.Definition
open Js Template

variable {L : Language} {ctx : ResolveCtx}

/-! Triggers. -/

/-- An id that a context gives is the id of the same workspace. -/
def Lawful (ctx : ResolveCtx) : Prop :=
  ∀ s id, ctx.workspace s = some id → ctx.workspace id = some id

theorem nodup_eraseDups : ∀ l : List Text, l.eraseDups.Nodup
  | [] => by simp
  | a :: l => by
    rw [List.eraseDups_cons, List.nodup_cons]
    exact ⟨by simp [List.mem_eraseDups], nodup_eraseDups _⟩
termination_by l => l.length
decreasing_by
  have := List.length_filter_le (fun b => !b == a) l
  simp only [List.length_cons]
  omega

/-- The place a script is to run at: nothing is the automations workspace. -/
def placeOf (ctx : ResolveCtx) (v : Option Value) : Option Text :=
  v.bind fun v =>
    if v.asText = some automations then none
    else if v.asText = some host then some host
    else resolve ctx (some v)

/-- The script goes to the same place again, and on this computer to a shell that may be named. -/
def ScriptSettled (ctx : ResolveCtx) (raw : Value) : Prop :=
  placeOf ctx (raw.get "runIn") ≠ some automations ∧
    (raw.get "shell" = none → placeOf ctx (raw.get "runIn") = some host →
      ∀ s, ctx.hostShells = some [s] → shellRe s = true)

/-- The workspace is no stand-in for the one a loadout is installed into. -/
def PromptSettled (ctx : ResolveCtx) (raw : Value) : Prop :=
  resolve ctx (raw.get "workspace") ≠ some (js "$self")

def StepSettled (ctx : ResolveCtx) (s : Value) : Prop :=
  match s.get "script", s.get "prompt" with
  | some script, _ => ScriptSettled ctx script
  | none, some prompt => PromptSettled ctx prompt
  | none, none => True

/-- The params a mapping declares, by name and by whether they have a default. -/
def declared (raw : Value) : List (Text × Bool) :=
  ((listOf (raw.get "params")).getD []).filterMap fun p =>
    ((p.get "name").bind Value.asText).map fun name => (name, (p.get "default").isSome)

/-- What a definition has to be for its validated form to be its own: its description, where it
is cut, is not cut before white space; no prompt goes to a workspace whose id is the loadouts'
stand-in, and no script to one whose id is the word for the automations workspace; the only shell
of this computer, where a script leaves the choice to it, can be named; and no schedule has
arguments for params that go by the names of inherited properties, but for a constructor that is
given a value. -/
structure Settled (ctx : ResolveCtx) (raw : Value) : Prop where
  description : ∀ s, describe (raw.get "description") = some s → endsInSpace s = false
  triggers : ∀ items, listOf (raw.get "triggers") = some items → ∀ t ∈ items, ∀ s given,
    t.get "event" = none → t.get "schedule" = some s → s.get "args" = some given →
    ∀ p ∈ declared raw, p.1 ≠ js "__proto__" ∧ (p.1 = js "constructor" → p.2 = false →
      ∃ v, property (givenArgs given) p.1 = some v ∧ v.asText ≠ some [])
  steps : ∀ items, listOf (raw.get "steps") = some items → ∀ s ∈ items, StepSettled ctx s

end ClaudeFleet.Definition
