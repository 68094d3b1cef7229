import LetLang.Settings.Decoder
import LetLang.Yaml.Reader

/-!
# Settings in a document

A document with settings is a mapping from their names to their values. What it does not mention keeps its
value, and so does a setting given as null. Unknown names and values of the wrong kind are refused; all of
them are reported, except that a repeated key hides everything else about its mapping.

A mapping may take over the entries of others, which stand under its merge key. Those are further layers
below its own: a name that a layer above has is not set again.
-/

set_option autoImplicit false

namespace LetLang.Settings

/-- What a node was needed for. -/
inductive Target where
  | int
  | string
  | settings
  deriving DecidableEq, Repr, Inhabited

/-- The name of a target. -/
def Target.name : Target → String
  | .int => "int"
  | .string => "string"
  | .settings => "config.Config"

/-- Something in a document that cannot become settings, with the line it stands on. -/
inductive Mismatch where
  | repeatedKey (line : Nat) (key : String) (first : Nat)
  | repeatedName (line : Nat) (name : String)
  | unknownName (line : Nat) (name : String)
  | wrongKind (line : Nat) (tag : Yaml.Tag) (text : String) (target : Target)
  deriving DecidableEq, Repr, Inhabited

/-- The characters that fit into so many bytes. Each byte of a character that is cut in two counts as a
replacement character. -/
def clip : Nat → List Char → List Char
  | _, [] => []
  | room, c :: cs =>
    if c.utf8Size ≤ room then c :: clip (room - c.utf8Size) cs else List.replicate room '\ufffd'

/-- A node's text in a report: of more than ten bytes the first seven. -/
def excerpt (text : String) : String :=
  " `" ++ (if 10 < text.utf8ByteSize then String.ofList (clip 7 text.toList) ++ "..." else text) ++ "`"

/-- The wording of a mismatch. What is tagged as a collection has its text, if any, right after the
tag. -/
def Mismatch.message : Mismatch → String
  | .repeatedKey line key first =>
    "line " ++ toString line ++ ": mapping key " ++ Text.quoted key ++ " already defined at line "
      ++ toString first
  | .repeatedName line name =>
    "line " ++ toString line ++ ": field " ++ name ++ " already set in type " ++ Target.settings.name
  | .unknownName line name =>
    "line " ++ toString line ++ ": field " ++ name ++ " not found in type " ++ Target.settings.name
  | .wrongKind line tag text target =>
    "line " ++ toString line ++ ": cannot unmarshal " ++ tag.name
      ++ (if tag = .seq || tag = .map then text else excerpt text) ++ " into " ++ target.name

/-! ## Values -/

/-- What a node gives where something is needed: a value, unless it is null or a mismatch. -/
structure Taken (α : Type) where
  value : Option α := none
  mismatches : List Mismatch := []

/-- The keys that occur again further on, each with every later occurrence. -/
def repeatedKeys : List Yaml.Node → List Mismatch
  | [] => []
  | k :: ks =>
    (ks.filter k.sameKey).map (fun l => .repeatedKey l.line l.text k.line) ++ repeatedKeys ks

/-- The mismatches of a collection where something else is needed. -/
def collectionMismatches (target : Target) : Yaml.Node → List Mismatch
  | .scalar _ _ _ | .alias _ _ _ => []
  | .seq line tag _ => [.wrongKind line tag "" target]
  | .enclosing _ _ start => [.wrongKind start.line start.tag "" target]
  | .map line tag entries =>
    match repeatedKeys (entries.map Prod.fst) with
    | [] => [.wrongKind line tag "" target]
    | ms => ms

/-- A node where text is needed. Any scalar will do, as it is written. -/
def takeText : Yaml.Node → Except Yaml.Problem (Taken String)
  | .scalar _ tag s => do
    match ← Yaml.meaning tag s with
    | .null => return {}
    | .text content => return { value := some content }
    | _ => return { value := some s }
  | .alias _ _ target => takeText target
  | n => .ok { mismatches := collectionMismatches .string n }

/-- A node where an integer is needed. -/
def takeInteger : Yaml.Node → Except Yaml.Problem (Taken Int)
  | .scalar line tag s => do
    let mismatch : Taken Int := { mismatches := [.wrongKind line tag s .int] }
    match ← Yaml.meaning tag s with
    | .null => return {}
    | .int i => return if i ≤ Int64.maxValue.toInt then { value := some i } else mismatch
    | .float (some i) => return { value := some i }
    | .float none | .bool | .timestamp | .text _ => return mismatch
  | .alias _ _ target => takeInteger target
  | n => .ok { mismatches := collectionMismatches .int n }

/-! ## Layers -/

/-- A mapping that gives entries to another, or the reason why there is none. -/
inductive Layer where
  | entries (entries : List (Yaml.Node × Yaml.Node))
  | problem (p : Yaml.Problem)

/-- The problem of merging something that is no mapping. -/
def noMapping : Yaml.Problem := .inMeaning "map merge requires map or sequence of maps as the value"

mutual

/-- The layers that a node under a merge key gives: those of a mapping, or of the mappings in a sequence.
A mapping that repeats a key gives nothing but itself. A reference to a mapping around it would have no
end. -/
def layers : Bool → Yaml.Node → List Layer
  | _, .map _ _ entries =>
    .entries entries ::
      if (repeatedKeys (entries.map Prod.fst)).isEmpty then layersBelow entries else []
  | _, .alias _ _ target => layers true target
  | inner, .seq _ _ items => if inner then [.problem noMapping] else layersOfItems items
  | _, .scalar _ _ _ => [.problem noMapping]
  | _, .enclosing _ name start =>
    [.problem (if start.isMap then .inMeaning ("anchor '" ++ name ++ "' value contains itself")
      else noMapping)]

/-- The layers of the mappings in a sequence, one after the other. -/
def layersOfItems : List Yaml.Node → List Layer
  | [] => []
  | n :: ns => layers true n ++ layersOfItems ns

/-- The layers under the merge key of a mapping, if it has one. -/
def layersBelow : List (Yaml.Node × Yaml.Node) → List Layer
  | [] => []
  | (key, value) :: rest => if key.isMergeKey then layers false value else layersBelow rest

end

/-! ## Settings -/

/-- Settings on the way from a document: what is wrong with it so far, and in the layers below the first
the names that are not set again. -/
structure Filling where
  settings : Settings
  mismatches : List Mismatch := []
  taken : Option (List String) := none

/-- Adds mismatches. -/
def Filling.report (f : Filling) (ms : List Mismatch) : Filling :=
  { f with mismatches := f.mismatches ++ ms }

/-- Sets what a name stands for; nothing if it stands for no setting. -/
def set? (s : Settings) (name : String) (value : Yaml.Node) :
    Option (Except Yaml.Problem (Taken Settings)) :=
  match name with
  | "prompt" => some ((takeText value).map fun t =>
      { value := t.value.map fun v => { s with prompt := v }, mismatches := t.mismatches })
  | "history_file" => some ((takeText value).map fun t =>
      { value := t.value.map fun v => { s with historyFile := v }, mismatches := t.mismatches })
  | "max_depth" => some ((takeInteger value).map fun t =>
      { value := t.value.map fun v => { s with maxDepth := v }, mismatches := t.mismatches })
  | "log_level" => some ((takeText value).map fun t =>
      { value := t.value.map fun v => { s with logLevel := v }, mismatches := t.mismatches })
  | _ => none

/-- Takes over one entry, after those of its layer with the names in `done`. -/
def Filling.setName (f : Filling) (done : List String) (line : Nat) (name : String)
    (value : Yaml.Node) : Except Yaml.Problem Filling :=
  match f.settings.set? name value with
  | none => .ok (f.report [.unknownName line name])
  | some result =>
    if done.contains name then .ok (f.report [.repeatedName line name])
    else result.map fun t => { f.report t.mismatches with settings := t.value.getD f.settings }

/-- Takes over the entries of a layer one by one, after those with the names in `done`. -/
def Filling.setEntries (f : Filling) (done : List String) :
    List (Yaml.Node × Yaml.Node) → Except Yaml.Problem Filling
  | [] => .ok f
  | (key, value) :: rest => do
    if key.isMergeKey then f.setEntries done rest
    else
      let t ← takeText key
      match t.value with
      | none => (f.report t.mismatches).setEntries done rest
      | some name =>
        if (f.taken.getD []).contains name then f.setEntries done rest
        else
          let f := { f with taken := f.taken.map (name :: ·) }
          (← f.setName done key.line name value).setEntries (name :: done) rest

/-- The name that a key takes away from the layers below: that of a scalar which means text. -/
def ownName : Yaml.Node → Option String
  | .scalar _ tag s =>
    match Yaml.meaning tag s with
    | .ok (.text content) => some content
    | _ => none
  | .alias _ _ target => ownName target
  | .seq _ _ _ | .map _ _ _ | .enclosing _ _ _ => none

/-- Takes over a layer. -/
def Filling.setLayer (f : Filling) : Layer → Except Yaml.Problem Filling
  | .problem p => .error p
  | .entries entries => do
    match repeatedKeys (entries.map Prod.fst) with
    | [] =>
      let f ← f.setEntries [] entries
      return { f with taken := some (f.taken.getD (entries.filterMap fun e => ownName e.1)) }
    | ms => return f.report ms

/-- The settings with a document's values in place of their own, and what is wrong with the document. -/
def update (s : Settings) (document : Yaml.Node) : Except Yaml.Problem (Settings × List Mismatch) :=
  match document with
  | .scalar line tag text => do
    match ← Yaml.meaning tag text with
    | .null => return (s, [])
    | _ => return (s, [.wrongKind line tag text .settings])
  | .map _ _ _ => do
    let f ← (layers false document).foldlM Filling.setLayer { settings := s }
    return (f.settings, f.mismatches)
  | _ => .ok (s, collectionMismatches .settings document)

/-- Reads a document in YAML: what its mapping sets takes the place of the settings. The document must be in
UTF-8. -/
def Decoder.yaml : Decoder where
  decode document s :=
    match document.fault, String.fromUTF8? ⟨document.bytes.toArray⟩ with
    | some cause, _ => (.failed (.unreadable cause), s)
    | none, none => (.failed (.notYaml "invalid leading UTF-8 octet"), s)
    | none, some text =>
      match Yaml.read text with
      | .error p => (.failed (.notYaml p.message), s)
      | .ok none => (.empty, s)
      | .ok (some node) =>
        match s.update node with
        | .error p => (.failed (.notYaml p.message), s)
        | .ok (s, []) => (.done, s)
        | .ok (s, ms) => (.failed (.mismatched (ms.map Mismatch.message)), s)

end LetLang.Settings
