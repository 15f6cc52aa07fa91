import ClaudeFleet.Runner

/-! What a run leaves behind: the rows of its steps, and what each step did to a workspace between
the start and the end of its row. -/
namespace ClaudeFleet.Runner
open Js Template Definition Calls Calls.Prog ScriptOutput

/-- What is seen of a run. Rows count when they are written; the rest counts when it is asked for. -/
inductive Mark
  | started (row : ℕ) (step : Text)
  | finished (row : ℕ) (status : RunStatus) (error : Option Text)
  | spawned (workspace session : Text) (args : List Text) (ok : Bool)
  | closed (workspace session : Text)
  | posted (workspace text : Text)
  | ran (target : Target) (script : Text) (result : Option ExecResult)
  | asked (a : Ask)

def view : Event Call.Reply Failure → Option Mark
  | ⟨.startStep step _ _ _, .ok row⟩ => some (.started row step)
  | ⟨.finishStep row status patch _, .ok _⟩ => some (.finished row status patch.error)
  | ⟨.spawnFresh ws session args, .ok _⟩ => some (.spawned ws session args true)
  | ⟨.spawnFresh ws session args, .error _⟩ => some (.spawned ws session args false)
  | ⟨.closeFresh ws session, _⟩ => some (.closed ws session)
  | ⟨.post ws text, _⟩ => some (.posted ws text)
  | ⟨.execScript target script _ _, .ok res⟩ => some (.ran target script (some res))
  | ⟨.execScript target script _ _, .error _⟩ => some (.ran target script none)
  | ⟨.emitTodo v, _⟩ => some (.asked (.todo v))
  | ⟨.emitNotify v, _⟩ => some (.asked (.notify v))
  | ⟨.setState v, _⟩ => some (.asked (.state v))
  | ⟨.requestNext v _, _⟩ => some (.asked (.next v))
  | _ => none

/-- A failure that is thrown before the row of its step is finished. -/
def Failure.Open (e : Failure) : Prop :=
  e.handled = false ∧ (e.status = .failed ∨ e.status = .timedOut)

/-- All that a script's output asks for, in the order it is asked. -/
def wanted (out : ScriptEmits) : List Mark :=
  out.todos.map (fun v => Mark.asked (.todo v)) ++
    out.notifies.map (fun v => Mark.asked (.notify v)) ++
    out.state.toList.map (fun v => Mark.asked (.state v)) ++
    out.next.toList.map fun v => Mark.asked (.next v)

section Quiet

variable {d : Deps} {fuel : ℕ}

end Quiet

section Script

variable {d : Deps} {xs : List Mark}

/-- What a script step may have done by the time something throws. -/
def ScriptAttempt (J : Json) (sc : ScriptDef) (xs : List Mark) : Prop :=
  xs = [] ∨ ∃ target, xs = [.ran target sc.run none] ∨ ∃ res ys,
    xs = .ran target sc.run (some res) :: ys ∧
      ys <+: wanted (parseScriptOutput J res.stdout) ∧ (res.failed = true → ys = [])

/-- What a script step has done that went well, with its output and whether it stops the run. -/
def ScriptDone (J : Json) (sc : ScriptDef) (r : Text × Bool) (xs : List Mark) : Prop :=
  ∃ target res, res.failed = false ∧ r = ((parseScriptOutput J res.stdout).text,
      decide (res.exitCode = EXIT_NOTHING_TO_DO)) ∧
    xs = .ran target sc.run (some res) :: wanted (parseScriptOutput J res.stdout)

/-- The row was finished with this failure, after the attempt. -/
def Closed (row : ℕ) (attempt : List Mark → Prop) (e : Failure) (xs : List Mark) : Prop :=
  e.handled = true ∧ (e.status = .failed ∨ e.status = .timedOut) ∧
    ∃ mid, attempt mid ∧ xs = mid ++ [Mark.finished row e.status (some e.message)]

theorem ScriptDone.attempt {J : Json} {sc : ScriptDef} {r : Text × Bool}
    (h : ScriptDone J sc r xs) : ScriptAttempt J sc xs := by
  obtain ⟨target, res, hres, -, rfl⟩ := h
  refine .inr ⟨target, .inr ⟨res, _, rfl, List.prefix_rfl, fun hf => ?_⟩⟩
  rw [hres] at hf
  cases hf

end Script

section Prompt

variable {d : Deps} {fuel : ℕ} {xs : List Mark}

end Prompt

section Steps

variable {d : Deps} {fuel : ℕ} {xs : List Mark}

end Steps

variable (d : Deps)

end ClaudeFleet.Runner
