import Restyle.Yaml.Token

/-!
Contract: the nodes of a YAML text.

Owns: `Yaml.Node`, and `Yaml.Node.ofTokens`, the node of a text's only document.

A node may bear the name of an anchor, once in a text, and a reference to it
stands for the node as it was read.  A reference inside the node itself is not
read.

Tokens are judged in their order, so that a text may be malformed before the
place where it is broken.
-/

namespace Restyle.Yaml

/-- A scalar, a sequence or a mapping. -/
inductive Node where
  | scalar (isPlain : Bool) (text : String)
  | sequence (items : List Node)
  | mapping (members : List (Node × Node))

/-- The tokens that follow, and the nodes with anchors that have been read. -/
structure Feed where
  tokens : List Token
  anchors : List (String × Node)

/-- The reading of nodes from tokens. -/
abbrev NodeReader := StateT Feed Reading

namespace NodeReader

/-- Ends the reading at the next token. -/
def refuse {α : Type} : NodeReader α := do
  match (← get).tokens.head? with
  | some (.broken fault) => throw fault
  | _ => throw .malformed

/-- Takes the next token if it is a given one. -/
def takes (token : Token) : NodeReader Bool := do
  let feed ← get
  if feed.tokens.head? = some token then
    set { feed with tokens := feed.tokens.tail }
    return true
  else return false

/-- Whether the next token is one of some marks, or there is none. -/
def isAt (marks : List Token) : NodeReader Bool := do
  return (← get).tokens.head?.all marks.contains

/-- Takes the name of an anchor, if one comes next. -/
def anchor? : NodeReader (Option String) := do
  let feed ← get
  match feed.tokens with
  | .anchor name :: rest =>
    set { feed with tokens := rest }
    return some name
  | _ => return none

/-- Gives a node its anchor.  A name may not be given twice. -/
def bear (name : Option String) (node : Node) : NodeReader Node := do
  match name with
  | none => return node
  | some name =>
    let feed ← get
    if (feed.anchors.lookup name).isSome then refuse
    set { feed with anchors := (name, node) :: feed.anchors }
    return node

def empty : Node :=
  .scalar true ""

mutual

/-- A node.  Block collections may stand outside flow collections only;
`indentless` allows a sequence that is not indented. -/
def node : Nat → Bool → Bool → NodeReader Node
  | 0, _, _ => refuse
  | fuel + 1, isBlock, indentless => do
    let feed ← get
    match feed.tokens with
    | .reference name :: rest =>
      let some node := feed.anchors.lookup name | refuse
      set { feed with tokens := rest }
      return node
    | _ =>
      let name ← anchor?
      bear name (← content fuel isBlock indentless name.isSome)

/-- A node without its anchor, which may be empty if it has one. -/
def content : Nat → Bool → Bool → Bool → NodeReader Node
  | 0, _, _, _ => refuse
  | fuel + 1, isBlock, indentless, isAnchored => do
    let feed ← get
    let further (rest : List Token) (reader : NodeReader Node) : NodeReader Node := do
      set { feed with tokens := rest }
      reader
    match feed.tokens with
    | .scalar isPlain text :: rest => further rest (return .scalar isPlain text)
    | .flowSequence :: rest => further rest (flowItems fuel true [])
    | .flowMapping :: rest => further rest (flowMembers fuel true [])
    | token :: rest =>
      if token = .blockSequence && isBlock then further rest (blockItems fuel [])
      else if token = .blockMapping && isBlock then further rest (blockMembers fuel [])
      else if token = .blockEntry && indentless then indentlessItems fuel []
      else if isAnchored then return empty
      else refuse
    | [] => if isAnchored then return empty else refuse

/-- A node, empty if one of some marks stands in its place. -/
def nodeUnless : Nat → List Token → Bool → Bool → NodeReader Node
  | 0, _, _, _ => refuse
  | fuel + 1, marks, isBlock, indentless => do
    if ← isAt marks then return empty
    node fuel isBlock indentless

/-- The value after a colon, empty if there is none. -/
def valueUnless : Nat → List Token → Bool → Bool → NodeReader Node
  | 0, _, _, _ => refuse
  | fuel + 1, marks, isBlock, indentless => do
    if ← takes .value then nodeUnless fuel marks isBlock indentless else return empty

def blockItems : Nat → List Node → NodeReader Node
  | 0, _ => refuse
  | fuel + 1, items => do
    if ← takes .blockEntry then
      let item ← nodeUnless fuel [.blockEntry, .blockEnd] true false
      blockItems fuel (items ++ [item])
    else if ← takes .blockEnd then return .sequence items
    else refuse

/-- The items of a sequence that stands at the margin of its mapping. -/
def indentlessItems : Nat → List Node → NodeReader Node
  | 0, _ => refuse
  | fuel + 1, items => do
    if ← takes .blockEntry then
      let item ← nodeUnless fuel [.blockEntry, .key, .value, .blockEnd] true false
      indentlessItems fuel (items ++ [item])
    else return .sequence items

def blockMembers : Nat → List (Node × Node) → NodeReader Node
  | 0, _ => refuse
  | fuel + 1, members => do
    if ← takes .key then
      let key ← nodeUnless fuel [.key, .value, .blockEnd] true true
      let value ← valueUnless fuel [.key, .value, .blockEnd] true true
      blockMembers fuel (members ++ [(key, value)])
    else if ← takes .blockEnd then return .mapping members
    else refuse

/-- The items of a flow sequence up to its bracket.  A pair among them is a
mapping of its own. -/
def flowItems : Nat → Bool → List Node → NodeReader Node
  | 0, _, _ => refuse
  | fuel + 1, isFirst, items => do
    if ← takes .flowSequenceEnd then return .sequence items
    if !isFirst then
      if !(← takes .flowEntry) then refuse
      if ← takes .flowSequenceEnd then return .sequence items
    if ← takes .key then
      let key ← nodeUnless fuel [.value, .flowEntry, .flowSequenceEnd] false false
      let value ← valueUnless fuel [.flowEntry, .flowSequenceEnd] false false
      flowItems fuel false (items ++ [.mapping [(key, value)]])
    else
      let item ← node fuel false false
      flowItems fuel false (items ++ [item])

/-- The members of a flow mapping up to its brace.  A key without a value has an
empty one. -/
def flowMembers : Nat → Bool → List (Node × Node) → NodeReader Node
  | 0, _, _ => refuse
  | fuel + 1, isFirst, members => do
    if ← takes .flowMappingEnd then return .mapping members
    if !isFirst then
      if !(← takes .flowEntry) then refuse
      if ← takes .flowMappingEnd then return .mapping members
    if ← takes .key then
      let key ← nodeUnless fuel [.value, .flowEntry, .flowMappingEnd] false false
      let value ← valueUnless fuel [.flowEntry, .flowMappingEnd] false false
      flowMembers fuel false (members ++ [(key, value)])
    else
      let key ← node fuel false false
      flowMembers fuel false (members ++ [(key, empty)])

end

/-- The node of a document, which may be marked at its start and at its end. -/
def document (fuel : Nat) : NodeReader Node := do
  if (← get).tokens.isEmpty then return empty
  let node ←
    if ← takes .documentStart then nodeUnless fuel [.documentStart, .documentEnd] true false
    else node fuel true false
  if (← get).tokens.all (· = .documentEnd) then return node else refuse

end NodeReader

def Node.ofTokens (tokens : List Token) : Reading Node :=
  (NodeReader.document (4 * tokens.length + 4)).run' ⟨tokens, []⟩

end Restyle.Yaml
