import LetLang.Command
import Std.Time

/-!
# The program

Performs the command's script: requests are answered by the real files and the real terminal. All
decisions are the script's.
-/

set_option autoImplicit false

namespace LetLang.Main

/-- More than any run that ends can use. -/
def fuel : Nat := 1000000000000

/-- Why the system could not do something with a file. -/
def cause : IO.Error → FileFault.Cause
  | .noFileOrDirectory .. => .missing
  | .inappropriateType _ code _ => if code == 21 then .isDirectory else .notDirectory
  | .permissionDenied .. => .other "permission denied"
  | e => .other (toString e)

/-- Does something that may fail, and gives the error as a result. -/
def attempt {α : Type} (action : IO α) : IO (Except IO.Error α) := do
  try
    return .ok (← action)
  catch e => return .error e

/-- Writes text to a stream at once. -/
def put (stream : IO.FS.Stream) (text : String) : IO Unit := do
  stream.putStr text
  stream.flush

/-- Opens and reads a file. -/
def readFile (path : String) : IO (Except FileFault (List UInt8)) := do
  match ← attempt (IO.FS.Handle.mk path .read) with
  | .error e => return .error ⟨false, path, cause e⟩
  | .ok handle =>
    match ← attempt handle.readBinToEnd with
    | .error e => return .error ⟨true, path, cause e⟩
    | .ok bytes => return .ok bytes.toList

/-- Reads a line of the input, byte by byte, with the line feed at its end. -/
def readLine : IO (List UInt8) := do
  let stdin ← IO.getStdin
  let mut line := #[]
  repeat
    let next ← stdin.read 1
    line := line ++ next.data
    if next.isEmpty || next.data.contains 10 then break
  return line.toList

/-- Shows a prompt and reads a line. -/
def prompt (text : String) : IO Prompted := do
  if let some error := Text.promptRefusal text then return .failed error
  let read ← attempt do
    put (← IO.getStdout) text
    readLine
  match read with
  | .error e => return .failed (toString e)
  | .ok bytes =>
    match Text.lines bytes with
    | [] => return .ended
    | line :: _ => return .line line.content

/-- Creates a file and fills it. Only a file that cannot be created is a failure. -/
def writeFile (path : String) (content : List UInt8) : IO (Option FileFault) := do
  match ← attempt (IO.FS.Handle.mk path .write) with
  | .error e => return some ⟨false, path, cause e⟩
  | .ok handle =>
    let _ ← attempt (handle.write ⟨content.toArray⟩)
    return none

/-- Answers a request. -/
def answer : (r : Request) → IO r.Answer
  | .print .out text => do put (← IO.getStdout) text
  | .print .err text => do put (← IO.getStderr) text
  | .log line => do
    let time := (← Std.Time.DateTime.now).format "uuuu-MM-dd'T'HH:mm:ss.SSSXXX"
    put (← IO.getStderr) ("time=" ++ time ++ " " ++ line.text ++ "\n")
  | .display text => do
    match ← attempt (put (← IO.getStdout) text) with
    | .ok _ => return none
    | .error e => return some (toString e)
  | .prompt text => prompt text
  | .readFile path => readFile path
  | .writeFile path content => writeFile path content
  | .hasFile path => do
    -- a file can be there and not be readable
    match ← attempt (IO.FS.realPath path) with
    | .ok _ => return true
    | .error _ => return false

/-- Performs a script; one that was cut short fails. -/
def perform : Script Nat → IO UInt32
  | .done code => return code.toUInt32
  | .ask request next => do perform (next (← answer request))
  | .unfinished => return 1

end LetLang.Main

/-- The program. -/
def main (args : List String) : IO UInt32 := do
  let home := (← IO.getEnv "HOME").getD ""
  LetLang.Main.perform (LetLang.Command.script home LetLang.Main.fuel LetLang.Main.fuel args)
