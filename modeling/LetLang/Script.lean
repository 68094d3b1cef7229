import LetLang.FileTree
import LetLang.Log
import LetLang.Text.Control
import LetLang.Text.Lines
import LetLang.Writer

/-!
# Scripts

What a command does to its surroundings, as a value: a script makes requests one after the other, and what
it does next depends on the answers. Played in a `World`, which is all in memory, a script is a function;
the same script can be performed for real by whoever can answer requests.

A script may be cut short because its author ran out of fuel; such a script has no outcome.
-/

set_option autoImplicit false

namespace LetLang

/-- Where a command prints to. -/
inductive Channel where
  | out
  | err
  deriving DecidableEq, Repr, Inhabited

/-- What comes of asking for a line. -/
inductive Prompted where
  /-- A line was typed; its end is not part of it. -/
  | line (content : List UInt8)
  /-- The line was given up. -/
  | aborted
  /-- There are no more lines. -/
  | ended
  /-- No line could be asked for. -/
  | failed (error : String)
  deriving DecidableEq, Repr, Inhabited

/-- A request to the surroundings. -/
inductive Request where
  /-- Print to a channel. -/
  | print (channel : Channel) (text : String)
  /-- Print a line of the log. -/
  | log (line : LogLine)
  /-- Show text on the terminal. -/
  | display (text : String)
  /-- Show a prompt on the terminal and read a line from there. -/
  | prompt (text : String)
  /-- Read a whole file. -/
  | readFile (path : String)
  /-- Write a whole file. -/
  | writeFile (path : String) (content : List UInt8)
  /-- Look whether a path leads to anything. -/
  | hasFile (path : String)
  deriving Inhabited

/-- What the answer to a request is: what was read, or why something failed. -/
@[reducible]
def Request.Answer : Request → Type
  | .print _ _ | .log _ => Unit
  | .display _ => Option String
  | .prompt _ => Prompted
  | .readFile _ => Except FileFault (List UInt8)
  | .writeFile _ _ => Option FileFault
  | .hasFile _ => Bool

/-- A course of requests that ends in a result. -/
inductive Script (α : Type) where
  | done (result : α)
  | ask (request : Request) (next : request.Answer → Script α)
  | unfinished

namespace Script

/-- Goes on with the result of a script. -/
def bind {α β : Type} (x : Script α) (f : α → Script β) : Script β :=
  match x with
  | .done a => f a
  | .ask r next => .ask r fun answer => (next answer).bind f
  | .unfinished => .unfinished

instance : Monad Script where
  pure := .done
  bind := bind

/-- Prints to a channel. -/
def print (channel : Channel) (text : String) : Script Unit := .ask (.print channel text) .done

/-- Prints the lines of a log that starts at a level. -/
def log (level : Level) : List LogLine → Script Unit
  | [] => .done ()
  | l :: ls => if level.shows l.level then .ask (.log l) fun _ => log level ls else log level ls

/-- Shows text on the terminal; the answer says why it was refused, if it was. -/
def display (text : String) : Script (Option String) := .ask (.display text) .done

/-- Shows texts in order and stops at the first that is refused. -/
def displayAll : List String → Script (Option String)
  | [] => .done none
  | s :: ss => .ask (.display s) fun
    | none => displayAll ss
    | some refusal => .done (some refusal)

/-- Asks for a line. -/
def prompt (text : String) : Script Prompted := .ask (.prompt text) .done

/-- Reads a file. -/
def readFile (path : String) : Script (Except FileFault (List UInt8)) := .ask (.readFile path) .done

/-- Writes a file. -/
def writeFile (path : String) (content : List UInt8) : Script (Option FileFault) :=
  .ask (.writeFile path content) .done

/-- Looks whether a path leads to anything. -/
def hasFile (path : String) : Script Bool := .ask (.hasFile path) .done

end Script

/-! ## Surroundings in memory -/

/-- Surroundings: files, the lines still to be typed, the terminal, and what was printed. -/
structure World (Files : Type := FileTree) where
  files : Files
  input : List Text.Line := []
  terminal : Writer := {}
  /-- Why a text is refused as a prompt, if it is. -/
  refusal : String → Option String := Text.promptRefusal
  out : String := ""
  err : String := ""

namespace World

variable {Files : Type} [FileSystem Files]

/-- Answers a request. -/
def answer (w : World Files) : (r : Request) → r.Answer × World Files
  | .print .out s => ((), { w with out := w.out ++ s })
  | .print .err s => ((), { w with err := w.err ++ s })
  | .log l => ((), { w with err := w.err ++ l.text ++ "\n" })
  | .display s => let (refusal, terminal) := w.terminal.write s; (refusal, { w with terminal })
  | .prompt s =>
    match w.refusal s, w.input with
    | some error, _ => (.failed error, w)
    | none, [] => (.ended, { w with terminal := w.terminal.offer s })
    | none, l :: ls => (.line l.content, { w with terminal := w.terminal.offer s, input := ls })
  | .readFile path => (FileSystem.read w.files path, w)
  | .writeFile path content =>
    match FileSystem.write w.files path content with
    | .ok files => (none, { w with files })
    | .error fault => (some fault, w)
  | .hasFile path => (FileSystem.has w.files path, w)

/-- Plays a script: its result, and the surroundings after it. -/
def play {α : Type} (w : World Files) : Script α → Option (α × World Files)
  | .done a => some (a, w)
  | .ask r next =>
    let (a, w) := w.answer r
    w.play (next a)
  | .unfinished => none

end World

end LetLang
