/-!
# Flags

The arguments of a command start with its flags. There is one, `config`, with a value: `-config v` or
`-config=v`, with one dash or two. If it is given again the last value counts. The flags end at the first
argument that is no flag, or right after `--`.
-/

set_option autoImplicit false

namespace LetLang

/-- What the flags of a command said, and the arguments after them. -/
structure Flags where
  config : String
  rest : List String
  deriving DecidableEq, Repr, Inhabited

namespace Flags

/-- What an argument is when flags are expected. -/
inductive Form where
  | operand
  | terminator
  | malformed
  | flag (name : String) (value : Option String)
  deriving DecidableEq, Repr, Inhabited

/-- A flag without its dashes: its name, and its value if an equals sign gives it one. -/
def formOf (body : List Char) : Form :=
  match body with
  | [] | '-' :: _ | '=' :: _ => .malformed
  | _ =>
    let name := String.ofList (body.takeWhile (· != '='))
    match body.dropWhile (· != '=') with
    | [] => .flag name none
    | _ :: value => .flag name (some (String.ofList value))

/-- What an argument is. A dash alone is no flag. -/
def Form.of (arg : String) : Form :=
  match arg.toList with
  | ['-', '-'] => .terminator
  | ['-'] => .operand
  | '-' :: '-' :: body => formOf body
  | '-' :: body => formOf body
  | _ => .operand

/-- Why arguments could not be understood; asking for help is a reason too. -/
inductive Fault where
  | help
  | malformed (arg : String)
  | undefined (name : String)
  | withoutValue (name : String)
  deriving DecidableEq, Repr, Inhabited

/-- The wording of a fault. -/
def Fault.message : Fault → String
  | .help => ""
  | .malformed arg => "bad flag syntax: " ++ arg ++ "\n"
  | .undefined name => "flag provided but not defined: -" ++ name ++ "\n"
  | .withoutValue name => "flag needs an argument: -" ++ name ++ "\n"

/-- The flags at the front of some arguments, when `config` is the value so far. -/
def parseFrom (config : String) : List String → Except Fault Flags
  | [] => .ok ⟨config, []⟩
  | arg :: args =>
    match Form.of arg with
    | .operand => .ok ⟨config, arg :: args⟩
    | .terminator => .ok ⟨config, args⟩
    | .malformed => .error (.malformed arg)
    | .flag "config" (some value) => parseFrom value args
    | .flag "config" none =>
      match args with
      | [] => .error (.withoutValue "config")
      | value :: args => parseFrom value args
    | .flag name _ =>
      if name == "help" || name == "h" then .error .help else .error (.undefined name)

/-- The flags at the front of some arguments. -/
def parse (args : List String) : Except Fault Flags := parseFrom "" args

/-- What a command says about its flags. -/
def usage (command : String) : String :=
  "Usage of " ++ command
    ++ ":\n  -config string\n    \tpath to a YAML config file (default ~/.monkey.yaml)\n"

end Flags

end LetLang
