import LetLang.Flags
import LetLang.Interactive
import LetLang.Settings.File
import LetLang.Tree.Printer

/-!
# The command

One command with subcommands: start the interactive loop, evaluate a file, print a file's tokens or its
tree, print the version or the usage. The exit code is 2 when the command was called wrongly or its
settings are bad, 1 when something is wrong with the file, and else 0.
-/

set_option autoImplicit false

namespace LetLang.Command

/-- The parts that the command is put together with. -/
structure Toolkit where
  decoder : Settings.Decoder := .yaml
  keeper : History.Keeper := {}

/-- The name of the command. -/
def name : String := "monkey"

/-- How the command is called. -/
def usage : String :=
  "Usage:\n"
    ++ "  monkey [repl] [-config file]        Start the interactive loop.\n"
    ++ "  monkey run [-config file] <file>    Evaluate a source file and print its value.\n"
    ++ "  monkey tokens <file>                Print the token stream of a file.\n"
    ++ "  monkey ast <file>                   Print the parsed program of a file.\n"
    ++ "  monkey version                      Print the version.\n"

/-- Reads the flags of a subcommand and the settings they ask for: these and the arguments left, or
nothing after saying what is wrong. -/
def settings? (subcommand home : String) (args : List String) (decoder : Settings.Decoder) :
    Script (Option (Settings × List String)) := do
  match Flags.parse args with
  | .error fault =>
    Script.print .err (fault.message ++ Flags.usage subcommand)
    return none
  | .ok flags =>
    match ← Settings.resolve home flags.config decoder with
    | .error e =>
      Script.print .err (name ++ ": " ++ e.message ++ "\n")
      return none
    | .ok s => return some (s, flags.rest)

/-- Reads the one file that a subcommand is given: its path and content, or nothing after saying what is
wrong. -/
def source? (subcommand : String) (args : List String) : Script (Option (String × Source)) := do
  match args with
  | [path] =>
    match ← Script.readFile path with
    | .ok src => return some (path, src)
    | .error fault =>
      Script.print .err (name ++ ": cannot read " ++ path ++ ": " ++ fault.message ++ "\n")
      return none
  | _ =>
    Script.print .err ("usage: " ++ name ++ " " ++ subcommand ++ " <file>\n")
    return none

/-- The lines that report diagnostics of a file. -/
def report (path : String) (ds : List Diagnostic) : String :=
  "".intercalate (ds.map fun d => path ++ ": " ++ d.message ++ "\n")

/-- Evaluates a text and prints its value. -/
def evaluate (settings : Settings) (fuel : Nat) (path : String) (src : Source) : Script Nat := do
  match Program.ofSource src with
  | (program, []) =>
    let (scope, machine) := Machine.newScope {}
    match machine.eval { maxDepth := settings.maxDepth } fuel scope (.program program) with
    | none => .unfinished
    | some (value, machine) =>
      Script.log settings.level machine.log
      if value.isError then
        Script.print .err (value.text ++ "\n")
        return 1
      if value.isPresent then Script.print .out (value.text ++ "\n")
      return 0
  | (_, ds) =>
    Script.print .err (report path ds)
    return 1

/-- The subcommand that evaluates a file. -/
def run (home : String) (fuel : Nat) (args : List String) (decoder : Settings.Decoder) : Script Nat := do
  match ← settings? "run" home args decoder with
  | none => return 2
  | some (settings, args) =>
    match ← source? "run" args with
    | none => return 1
    | some (path, src) => evaluate settings fuel path src

/-- The subcommand that prints the tokens of a file. -/
def tokens (args : List String) : Script Nat := do
  match ← source? "tokens" args with
  | none => return 1
  | some (_, src) =>
    Script.print .out
      ("".intercalate (src.tokens.map fun t => t.kind.name ++ " " ++ t.literal ++ "\n"))
    return 0

/-- The subcommand that prints the tree of a file, one statement to a line, as far as it has one. -/
def tree (args : List String) : Script Nat := do
  match ← source? "ast" args with
  | none => return 1
  | some (path, src) =>
    let (program, ds) := Program.ofSource src
    Script.print .err (report path ds)
    Script.print .out ("".intercalate (program.map fun s => s.text ++ "\n"))
    return if ds.isEmpty then 0 else 1

/-- The subcommand that starts the interactive loop. -/
def interactive (home : String) (fuel rounds : Nat) (args : List String) (tools : Toolkit) : Script Nat := do
  match ← settings? "repl" home args tools.decoder with
  | none => return 2
  | some (settings, _) => Interactive.run settings home fuel rounds tools.keeper

/-- The command: what it does with its arguments, and its exit code. `fuel` bounds an evaluation and
`rounds` the interactive loop. -/
def script (home : String) (fuel rounds : Nat) (args : List String) (tools : Toolkit := {}) : Script Nat := do
  match args with
  | [] => interactive home fuel rounds [] tools
  | "repl" :: args => interactive home fuel rounds args tools
  | "run" :: args => run home fuel args tools.decoder
  | "tokens" :: args => tokens args
  | "ast" :: args => tree args
  | "version" :: _ =>
    Script.print .out (Interactive.version ++ "\n")
    return 0
  | "-h" :: _ | "--help" :: _ | "help" :: _ =>
    Script.print .out usage
    return 0
  | other :: _ =>
    Script.print .err (name ++ ": unknown command " ++ Text.quoted other ++ "\n" ++ usage)
    return 2

end LetLang.Command
