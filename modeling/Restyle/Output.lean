import Restyle.Aliases
import Restyle.Fragments
import Restyle.Plan
import Restyle.Text

/-!
Contract: carrying out a plan.

Owns: `Output`, the code that takes the place of a use; the code of references
and calls; `Output.Writer`, the aliases and outputs so far; and the writing of
plans, which asks for aliases in the order in which uses are met.

An invocation asks for its own alias first, then writes its content from left
to right, then the argument of its factory, and is finished last.  What has
been written stays known when a fault stops the writing.
-/

namespace Restyle

/-- The code that takes the place of a use, the alias that it calls, and the
content of an invocation. -/
structure Output where
  use : Use
  code : String
  alias? : Option String
  fragments : Option Fragments

/-- The outputs finished so far, in that order, and the aliases given. -/
structure Output.Progress where
  aliases : Aliases
  outputs : List Output

/-- What the code of a use depends on besides the use. -/
structure Output.Frame where
  source : String
  filename : String
  settings : Settings

namespace Output

/-- A computation that writes outputs.  It may stop at a fault. -/
abbrev Writer := ExceptT Fault (StateM Progress)

def start (output : Output) : Nat :=
  output.use.start

def stop (output : Output) : Nat :=
  output.use.stop

def isPassThrough (output : Output) : Bool :=
  output.use.isPassThrough

/-- The edits that put outputs into the text. -/
def edits (outputs : List Output) : List Edit :=
  (outputs.filter (!·.isPassThrough)).map fun output =>
    ⟨output.start, output.stop, output.code⟩

/-! ## Code -/

/-- A plain value.  Where the name is also a key or an export, it is kept. -/
def referenceCode (position : Use.Position) (localName aliasName : String) : String :=
  match position with
  | .expression => aliasName
  | .shorthandProperty => localName ++ ": " ++ aliasName
  | .exportSpecifier => aliasName ++ " as " ++ localName

/-- The development metadata of a call, `none` if there is none to give. -/
def metadata? (frame : Frame) (use : Use) : Option String :=
  let label := match use.label with
    | some name =>
      if frame.settings.emitLabels && name ≠ "" then ["label: " ++ Text.quoted name] else []
    | none => []
  let place :=
    if frame.settings.emitLocations then
      ["source: " ++ Text.quoted (frame.filename ++ ":" ++ use.location.render)]
    else []
  match label ++ place with
  | [] => none
  | entries => some ("\x7b " ++ ", ".intercalate entries ++ " \x7d")

/-- The call of the runtime: what it is applied to, the content, and metadata. -/
def callCode
    (frame : Frame)
    (use : Use)
    (aliasName : String)
    (receiver : Option String)
    (fragments : Fragments) : String :=
  let arguments := receiver.toList ++ [fragments.code] ++ (metadata? frame use).toList
  aliasName ++ "(" ++ ", ".intercalate arguments ++ ")"

/-! ## Writing -/

def requestAlias (frame : Frame) (spec : Spec) : Writer String := do
  if spec.runtimeExport.isKey then
    modifyGet fun progress =>
      let (name, aliases) := progress.aliases.request frame.settings.aliasHead spec.runtimeExport
      (name, { progress with aliases })
  else throw (.exportNotKey spec.name)

def finish (output : Output) : Writer Output := do
  modify fun progress => { progress with outputs := progress.outputs ++ [output] }
  return output

mutual

def ofPlan (frame : Frame) : Plan → Writer Output
  | .passThrough use =>
    finish ⟨use, Text.cut frame.source use.start use.stop, none, none⟩
  | .bareValue use spec position => do
    let aliasName ← requestAlias frame spec
    finish ⟨use, referenceCode position use.binding.localName aliasName, some aliasName, none⟩
  | .invocation use spec receiver pieces => do
    let aliasName ← requestAlias frame spec
    let fragments ← ofPieces frame pieces
    let applied ← ofReceiver frame receiver
    finish ⟨use, callCode frame use aliasName applied fragments, some aliasName, some fragments⟩

def ofPlans (frame : Frame) : List Plan → Writer (List Output)
  | [] => return []
  | plan :: rest => do
    let output ← ofPlan frame plan
    let others ← ofPlans frame rest
    return output :: others

def ofReceiver (frame : Frame) : Plan.Receiver → Writer (Option String)
  | .direct => return none
  | .member name => return some (Text.quoted name)
  | .factory argument => do
    let code ← ofExpression frame argument
    return some (Text.strip code)

def ofPieces (frame : Frame) : List Plan.Piece → Writer Fragments
  | [] => return .empty
  | piece :: rest => do
    let fragments ← ofPiece frame piece
    let others ← ofPieces frame rest
    return fragments ++ others

def ofPiece (frame : Frame) : Plan.Piece → Writer Fragments
  | .literal text => return .literal text
  | .splice _ pieces => ofPieces frame pieces
  | .slot location expression => do
    let code ← ofExpression frame expression
    return .slot ⟨Text.strip code, location⟩
  | .fault fault => throw fault

/-- The text of an expression with its uses replaced. -/
def ofExpression (frame : Frame) : Plan.Expression → Writer String
  | .fault fault => throw fault
  | .span start stop plans => do
    let outputs ← ofPlans frame plans
    return Edit.applyAll (Text.cut frame.source start stop) (edits outputs) start

end

end Output

end Restyle
