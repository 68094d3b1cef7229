import LetLang.History
import LetLang.Script
import LetLang.Session
import LetLang.Settings

/-!
# The interactive loop

A session at a terminal. Each round shows the prompt, reads a line and shows what it gave; blank lines are
passed over, and the blanks around a line do not count. The loop ends with the input, with a line that says
`exit`, when no line can be asked for, or when a result cannot be shown; a line that the user gives up is none.
What was typed is kept in a history file, which is read at the start and written at the end.
-/

set_option autoImplicit false

namespace LetLang.Interactive

/-- The version of the program. -/
def version : String := "0.1.0"

/-- What is shown at the start. -/
def banner : String := "Monkey " ++ version ++ "\nCtrl+C cancels input, Ctrl+D exits.\n"

/-- The loop, for at most so many rounds: the exit code and the history at its end. -/
def loop (settings : Settings) (keeper : History.Keeper) (fuel : Nat) :
    Nat → Session → History → Script (Nat × History)
  | 0, _, _ => .unfinished
  | rounds + 1, session, history => do
    match ← Script.prompt settings.prompt with
    | .aborted => loop settings keeper fuel rounds session history
    | .ended =>
      let _ ← Script.display "\n"
      return (0, history)
    | .failed error =>
      Script.log settings.level [⟨.error, "read input", [("error", error)]⟩]
      let _ ← Script.display "\n"
      return (0, history)
    | .line line =>
      let code := Text.trim line
      if code.isEmpty then loop settings keeper fuel rounds session history
      else if code = Session.exitLine then return (0, history)
      else
        let history := keeper.add history line
        match session.renewPatience.eval .endless fuel code with
        | none => .unfinished
        | some (result, session) =>
          Script.log settings.level session.machine.log
          match ← Script.displayAll result.writes with
          | none => loop settings keeper fuel rounds session history
          | some refusal =>
            Script.log settings.level [⟨.error, "write result", [("error", refusal)]⟩]
            return (1, history)

/-- Reads the history file; one that cannot be read is as good as none. -/
def loadHistory (keeper : History.Keeper) (path : String) : Script History := do
  match ← Script.readFile path with
  | .ok content => return keeper.ofFile content
  | .error _ => return []

/-- Writes the history file. -/
def saveHistory (level : Level) (keeper : History.Keeper) (path : String) (history : History) : Script Unit := do
  match ← Script.writeFile path (keeper.toFile history) with
  | none => return ()
  | some fault =>
    Script.log level [⟨.warn, "cannot save history", [("path", path), ("error", fault.message)]⟩]

/-- A session at the terminal, from the banner to the history file; the result is the exit code. -/
def run (settings : Settings) (home : String) (fuel rounds : Nat) (keeper : History.Keeper) : Script Nat := do
  let _ ← Script.display banner
  let path := settings.historyPath home
  if path.isEmpty then
    let (code, _) ← loop settings keeper fuel rounds (Session.new settings.maxDepth) []
    return code
  let history ← loadHistory keeper path
  let (code, history) ← loop settings keeper fuel rounds (Session.new settings.maxDepth) history
  saveHistory settings.level keeper path history
  return code

end LetLang.Interactive
