import Restyle.Text
import Restyle.Yaml.Node
import Restyle.Yaml.Plain
import Restyle.Yaml.Scan

/-!
Contract: the value of a YAML text.

Owns: the value of a node, and `Value.ofYaml`.

A text holds at most one document; an empty one is null.  Of two equal keys the
later value wins and the earlier place is kept.  A list or a mapping may not be
a key.  The members of a merged mapping come before those of the mapping it is
merged into, and of several the last one first.

Of several faults the one nearest to the top of the document counts, and of
those at one level the first.
-/

namespace Restyle.Yaml

namespace Node

def isMerge : Node → Bool
  | .scalar true text => text = mergeWord
  | _ => false

/-- The members of a mapping, with those of merged mappings before its own.  The
fuel bounds the depth. -/
def merged : Nat → List (Node × Node) → Reading (List (Node × Node))
  | 0, _ => malformed
  | fuel + 1, members => do
    let inner (node : Node) : Reading (List (Node × Node)) :=
      match node with
      | .mapping members => merged fuel members
      | _ => malformed
    let parts ← (members.filter (·.1.isMerge)).mapM fun (_, value) =>
      match value with
      | .sequence nodes => do
        let parts ← nodes.mapM inner
        return parts.reverse.flatten
      | node => inner node
    return parts.flatten ++ members.filter (!·.1.isMerge)

/-- The value of a scalar; other nodes have none yet. -/
def scalarValue : Node → Reading Value
  | .scalar true text => plainValue text
  | .scalar false text => return .text text
  | _ => return .null

/-- The key that a node is.  A reserved word may be one. -/
def keyValue : Node → Reading Value
  | .scalar true text => if reservedWords.contains text then return .text text else plainValue text
  | .scalar false text => return .text text
  | _ => malformed

def faultOf {α : Type} : Reading α → Option Fault
  | .ok _ => none
  | .error fault => some fault

/-- What is wrong with a node, apart from what is inside its parts. -/
def fault? (depth : Nat) : Node → Option Fault
  | .sequence items => items.findSome? fun item => faultOf item.scalarValue
  | .mapping members =>
    match merged depth members with
    | .ok members => members.findSome? fun (key, value) =>
      (faultOf key.keyValue).or (faultOf value.scalarValue)
    | .error fault => some fault
  | node => faultOf node.scalarValue

def parts (depth : Nat) : Node → List Node
  | .sequence items => items
  | .mapping members => ((merged depth members).toOption.getD []).map (·.2)
  | .scalar .. => []

/-- The first fault of nodes on one level, or else of those below them. -/
def firstFault? (depth : Nat) : Nat → List Node → Option Fault
  | 0, _ => none
  | levels + 1, nodes =>
    if nodes.isEmpty then none
    else
      (nodes.findSome? (·.fault? depth)).or
        (firstFault? depth levels (nodes.flatMap (·.parts depth)))

/-- The value of a node without faults.  The fuel bounds the depth. -/
def value : Nat → Node → Value
  | 0, _ => .null
  | fuel + 1, node =>
    match node with
    | .sequence items => .list (items.map (value fuel))
    | .mapping members =>
      let members := (merged (fuel + 1) members).toOption.getD []
      .mapping (members.foldl
        (fun entries (key, node) =>
          Value.put (key.keyValue.toOption.getD .null) (value fuel node) entries)
        [])
    | _ => node.scalarValue.toOption.getD .null

def read (depth : Nat) (node : Node) : Reading Value :=
  match firstFault? depth depth [node] with
  | none => return node.value depth
  | some fault => .error fault

end Node

end Restyle.Yaml

namespace Restyle.Value

def ofYaml (text : String) : Yaml.Reading Value := do
  let tokens := Yaml.tokensOf (Text.unifyNewlines text)
  let node ← Yaml.Node.ofTokens tokens
  node.read (tokens.length + 1)

end Restyle.Value
