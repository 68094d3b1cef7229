import LetLang.Yaml.Lookahead
import LetLang.Yaml.Meaning
import LetLang.Yaml.Node

/-!
# Reading documents

Words become nodes. The next word always says what comes: a reader looks at it (`peek`), and takes it away
when it belongs to what is being read (`skip`). Only the first document of a text is read, with one look
past its end.

The recursion is bounded by fuel, of which each word uses up a fixed amount at most; `read` gives more than
the length of the text asks for.
-/

set_option autoImplicit false

namespace LetLang.Yaml

/-- What a name stands for: a node, or a collection whose end is not reached yet. -/
inductive Anchored where
  | node (node : Node)
  | opened (start : Opening)

/-- How far a document is read: the words, what the handles of tags are short for, and the names given so
far in order, of which the last of its kind counts. -/
structure Progress where
  scan : Scan
  handles : List (String × String) := []
  anchors : List (String × Anchored) := []

/-- Something that is read from words. -/
abbrev Reading := StateT Progress (Except Problem)

/-! ## Words -/

/-- The next word. -/
def peek : Reading Word := do
  let p ← get
  let scan ← p.scan.fill
  set { p with scan }
  return scan.queue.headD ⟨.streamEnd, scan.here.line⟩

/-- Takes the next word away. -/
def skip : Reading Unit :=
  modify fun p => { p with scan := { p.scan with
    queue := p.scan.queue.tail
    taken := p.scan.taken + 1 } }

/-! ## Names and tags -/

/-- The name of an anchor, if one is next. -/
def anchor? : Reading (Option String) := do
  match (← peek).token with
  | .anchor name => skip; return some name
  | _ => return none

/-- The handle and the suffix of a tag and the line it starts on, if one is next. -/
def tag? : Reading (Option (String × String × Nat)) := do
  let word ← peek
  match word.token with
  | .tag handle suffix => skip; return some (handle, suffix, word.line)
  | _ => return none

/-- A tag in full. -/
def fullTag (start : Nat) (handle suffix : String) (line : Nat) : Reading String := do
  if handle.isEmpty then return suffix
  match (← get).handles.lookup handle with
  | some front => return front ++ suffix
  | none => throw (.inOrder start line "found undefined tag handle")

/-- What may stand in front of a node. -/
structure Properties where
  anchor : Option String
  tag : Option String

/-- Whether there is any property. -/
def Properties.any (p : Properties) : Bool := p.anchor.isSome || p.tag.isSome

/-- The tag of a node that would have another one without properties. An exclamation mark alone is no
tag. -/
def Properties.tagOr (p : Properties) (implied : Tag) : Tag :=
  match p.tag with
  | none => implied
  | some text => if text == "!" then implied else .ofText text

/-- The anchor and the tag in front of a node, in either order. -/
def properties : Reading Properties := do
  let start := (← peek).line
  let anchor ← anchor?
  let tag ← tag?
  let anchor ← if anchor.isNone && tag.isSome then anchor? else pure anchor
  let _ ← peek
  match tag with
  | none => return ⟨anchor, none⟩
  | some (handle, suffix, line) => return ⟨anchor, some (← fullTag start handle suffix line)⟩

/-- Lets a node have a name. -/
def register (name : Option String) (node : Node) : Reading Node := do
  if let some name := name then
    modify fun p => { p with anchors := p.anchors ++ [(name, .node node)] }
  return node

/-- Reads a collection that has a name from its start on. -/
def registerOpen (name : Option String) (start : Opening) (rest : Reading Node) : Reading Node := do
  match name with
  | none => rest
  | some name =>
    let place := (← get).anchors.length
    modify fun p => { p with anchors := p.anchors ++ [(name, .opened start)] }
    let node ← rest
    modify fun p => { p with anchors := p.anchors.set place (name, .node node) }
    return node

/-- The reference to a name. -/
def reference (line : Nat) (name : String) : Reading Node := do
  match (← get).anchors.reverse.lookup name with
  | some (.node target) => return .alias line name target
  | some (.opened start) => return .enclosing line name start
  | none => throw (.inMeaning ("unknown anchor '" ++ name ++ "' referenced"))

/-! ## Nodes -/

/-- What stands where nothing was written, on a line counted from zero. -/
def emptyNode (line : Nat) : Node := .scalar (line + 1) .null ""

/-- Whether an entry of a block mapping has nothing more to say before this word. -/
def endsEntry : Token → Bool
  | .key | .value | .blockEnd => true
  | _ => false

/-- Whether an item of a block sequence is empty before this word. -/
def endsItem : Token → Bool
  | .dash | .blockEnd => true
  | _ => false

mutual

/-- A node. Collections can be written by indentation only if `inBlock` says so, and a sequence may have
its dashes in the column of the keys around it only if `shared` does. -/
def node : Nat → Bool → Bool → Reading Node
  | 0, _, _ => throw .outOfFuel
  | fuel + 1, inBlock, shared => do
    let first ← peek
    if let .alias name := first.token then
      skip
      reference (first.line + 1) name
    else
      let props ← properties
      let word ← peek
      let line := first.line + 1
      let seqTag := props.tagOr .seq
      let mapTag := props.tagOr .map
      let missing :=
        if props.any then register props.anchor (.scalar line (props.tagOr .null) "")
        else throw (.inOrder first.line word.line "did not find expected node content")
      match word.token with
      | .scalar plain text =>
        skip
        register props.anchor (.scalar line (props.tagOr (impliedTag plain text)) text)
      | .flowSeq =>
        registerOpen props.anchor ⟨false, line, seqTag⟩ do
          skip
          return .seq line seqTag (← flowItems fuel word.line true [])
      | .flowMap =>
        registerOpen props.anchor ⟨true, line, mapTag⟩ do
          skip
          return .map line mapTag (← flowEntries fuel word.line true [])
      | .blockSeq =>
        if !inBlock then missing
        else registerOpen props.anchor ⟨false, line, seqTag⟩ do
          skip
          return .seq line seqTag (← blockItems fuel word.line [])
      | .blockMap =>
        if !inBlock then missing
        else registerOpen props.anchor ⟨true, line, mapTag⟩ do
          skip
          return .map line mapTag (← blockEntries fuel word.line [])
      | .dash =>
        if !shared then missing
        else registerOpen props.anchor ⟨false, line, seqTag⟩ do
          return .seq line seqTag (← sharedItems fuel [])
      | _ => missing

/-- The items of a block sequence that began on the line `start`, after those in `done`, which is
reversed. -/
def blockItems : Nat → Nat → List Node → Reading (List Node)
  | 0, _, _ => throw .outOfFuel
  | fuel + 1, start, done => do
    let word ← peek
    match word.token with
    | .dash =>
      skip
      let item ← if endsItem (← peek).token then pure (emptyNode word.line) else node fuel true false
      blockItems fuel start (item :: done)
    | .blockEnd => skip; return done.reverse
    | _ => throw (.inOrder start word.line "did not find expected '-' indicator")

/-- The items of a sequence whose dashes stand in the column of the keys around it, after those in `done`,
which is reversed. What does not start with a dash belongs to the mapping again. -/
def sharedItems : Nat → List Node → Reading (List Node)
  | 0, _ => throw .outOfFuel
  | fuel + 1, done => do
    let word ← peek
    match word.token with
    | .dash =>
      skip
      let next := (← peek).token
      let item ←
        if endsItem next || endsEntry next then pure (emptyNode word.line) else node fuel true false
      sharedItems fuel (item :: done)
    | _ => return done.reverse

/-- The entries of a block mapping that began on the line `start`, after those in `done`, which is
reversed. -/
def blockEntries : Nat → Nat → List (Node × Node) → Reading (List (Node × Node))
  | 0, _, _ => throw .outOfFuel
  | fuel + 1, start, done => do
    let word ← peek
    match word.token with
    | .key =>
      skip
      let key ← if endsEntry (← peek).token then pure (emptyNode word.line) else node fuel true true
      let value ← blockValue fuel
      blockEntries fuel start ((key, value) :: done)
    | .blockEnd => skip; return done.reverse
    | _ => throw (.inOrder start word.line "did not find expected key")

/-- The value in a block mapping that belongs to the key just read. -/
def blockValue : Nat → Reading Node
  | 0 => throw .outOfFuel
  | fuel + 1 => do
    let word ← peek
    match word.token with
    | .value =>
      skip
      if endsEntry (← peek).token then return emptyNode word.line else node fuel true true
    | _ => return emptyNode word.line

/-- The items of a flow sequence that began on the line `start`, after those in `done`, which is reversed.
Before all but the first stands a comma. A key with its value is a mapping of one entry. -/
def flowItems : Nat → Nat → Bool → List Node → Reading (List Node)
  | 0, _, _, _ => throw .outOfFuel
  | fuel + 1, start, first, done => do
    let word ← peek
    match word.token, first with
    | .flowSeqEnd, _ => skip; return done.reverse
    | .comma, false => skip
    | _, false => throw (.inOrder start word.line "did not find expected ',' or ']'")
    | _, true => pure ()
    let word ← peek
    match word.token with
    | .flowSeqEnd => skip; return done.reverse
    | .key =>
      skip
      let entry ← flowPair fuel
      flowItems fuel start false (.map (word.line + 1) .map [entry] :: done)
    | _ => flowItems fuel start false ((← node fuel false false) :: done)

/-- A key and its value among the items of a flow sequence. The sign in place of a missing key is lost. -/
def flowPair : Nat → Reading (Node × Node)
  | 0 => throw .outOfFuel
  | fuel + 1 => do
    let word ← peek
    let key ←
      match word.token with
      | .value | .comma | .flowSeqEnd => skip; pure (emptyNode word.line)
      | _ => node fuel false false
    let word ← peek
    match word.token with
    | .value =>
      skip
      match (← peek).token with
      | .comma | .flowSeqEnd => return (key, emptyNode word.line)
      | _ => return (key, ← node fuel false false)
    | _ => return (key, emptyNode word.line)

/-- The entries of a flow mapping that began on the line `start`, after those in `done`, which is
reversed. Before all but the first stands a comma. Without the sign for a key there is no value. -/
def flowEntries : Nat → Nat → Bool → List (Node × Node) → Reading (List (Node × Node))
  | 0, _, _, _ => throw .outOfFuel
  | fuel + 1, start, first, done => do
    let word ← peek
    match word.token, first with
    | .flowMapEnd, _ => skip; return done.reverse
    | .comma, false => skip
    | _, false => throw (.inOrder start word.line "did not find expected ',' or '\x7d'")
    | _, true => pure ()
    let word ← peek
    match word.token with
    | .flowMapEnd => skip; return done.reverse
    | .key =>
      skip
      let entry ← flowEntry fuel
      flowEntries fuel start false (entry :: done)
    | _ =>
      let key ← node fuel false false
      flowEntries fuel start false ((key, emptyNode (← peek).line) :: done)

/-- A key and its value in a flow mapping. -/
def flowEntry : Nat → Reading (Node × Node)
  | 0 => throw .outOfFuel
  | fuel + 1 => do
    let word ← peek
    let key ←
      match word.token with
      | .value | .comma | .flowMapEnd => pure (emptyNode word.line)
      | _ => node fuel false false
    let word ← peek
    match word.token with
    | .value =>
      skip
      let word ← peek
      match word.token with
      | .comma | .flowMapEnd => return (key, emptyNode word.line)
      | _ => return (key, ← node fuel false false)
    | _ => return (key, emptyNode word.line)

end

/-! ## Documents -/

/-- The handles that need no directive. -/
def commonHandles : List (String × String) := [("!", "!"), ("!!", Tag.commonFront)]

/-- The directives in front of a document; `versioned` says whether its version was given already. -/
def directives : Nat → Bool → Reading Unit
  | 0, _ => throw .outOfFuel
  | fuel + 1, versioned => do
    let word ← peek
    let problem := Problem.inOrder word.line word.line
    match word.token with
    | .version major minor =>
      if versioned then throw (problem "found duplicate %YAML directive")
      if major != 1 || minor != 1 then throw (problem "found incompatible YAML document")
      skip
      directives fuel true
    | .handle handle expansion =>
      if (← get).handles.any (·.1 == handle) then throw (problem "found duplicate %TAG directive")
      modify fun p => { p with handles := p.handles ++ [(handle, expansion)] }
      skip
      directives fuel versioned
    | _ => modify fun p => { p with handles := p.handles ++ commonHandles }

/-- What stands after the sign that a document begins. -/
def explicitRoot (fuel : Nat) : Reading Node := do
  let word ← peek
  if word.token != .documentStart then
    throw (.inOrder word.line word.line "did not find expected <document start>")
  skip
  let word ← peek
  if word.token.outsideDocument then return emptyNode word.line else node fuel true false

/-- The first document; nothing if there is none. A document that does not begin with a sign begins with
its node. -/
def document (fuel : Nat) : Reading (Option Node) := do
  match (← peek).token with
  | .streamEnd => return none
  | first =>
    directives fuel false
    let root ←
      match first with
      | .version _ _ | .handle _ _ | .documentStart => explicitRoot fuel
      | _ => node fuel true false
    let _ ← peek
    return some root

/-! ## Texts -/

/-- The first document of a text; nothing if there is none. -/
def read (text : String) : Except Problem (Option Node) := do
  let source := Source.ofText text
  let scan : Scan :=
    { here := { rest := source.chars }, torn := source.torn, marked := source.marked }
  let (root, _) ← (document (8 * source.chars.length + 16)).run { scan }
  return root

end LetLang.Yaml
