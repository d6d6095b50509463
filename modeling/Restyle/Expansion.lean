import Restyle.Aliases
import Restyle.Binding
import Restyle.Output
import Restyle.Text

/-!
Contract: the expansion of a module.

Owns: the import that is left of a declaration, and `Expansion.importEdits`, the
edits that put the runtime import in place of the macro imports; `Expansion`, the
result; `Expansion.Attempt`, which also tells how far a failed expansion came;
`Expansion.run` and `Expansion.ofSource`.

The runtime import takes the place of the first declaration that loses a name.
Names that no macro stands for stay in an import of their own.  Required
modules stay as they are.
-/

namespace Restyle.Expansion

/-! ## Macro imports -/

def specifierText (specifier : Declaration.Specifier) : String :=
  if specifier.imported = specifier.localName then specifier.localName
  else specifier.imported ++ " as " ++ specifier.localName

/-- The import statement that is left of a declaration when only some local
names are kept, `none` if none of its names is. -/
def residualImport? (declaration : Declaration) (keep : List String) : Option String :=
  let specifiers := declaration.specifiers.filter fun specifier =>
    keep.contains specifier.localName
  if declaration.mechanism ≠ .module || specifiers.isEmpty then none
  else
    let names := match specifiers.find? (·.imported = "*") with
      | some specifier => "* as " ++ specifier.localName
      | none => "\x7b " ++ ", ".intercalate (specifiers.map specifierText) ++ " \x7d"
    some ("import " ++ names ++ " from '" ++ declaration.path ++ "';")

/-- The local names of a declaration that no macro stands for. -/
def unknownNames (bindings : Binding.Table) (declaration : Declaration) : List String :=
  (declaration.specifiers.filter fun specifier =>
    (bindings.find? specifier.localName).any (·.isUnknown)).map (·.localName)

/-- The blanks at the start of the line that holds an offset, if nothing else
stands before it. -/
def indentAt (source : String) (offset : Nat) : String :=
  let lead := Text.cut source (Text.lineStart source offset) offset
  if Text.isAllBlank lead then lead else ""

/-- The removal of a declaration, with its line where nothing else is on it. -/
def removal (source : String) (declaration : Declaration) : Edit :=
  let lineStart := Text.lineStart source declaration.start
  let lineStop := Text.lineStop source declaration.stop
  if Text.isAllBlank (Text.cut source lineStart declaration.start) &&
      Text.isAllBlank (Text.cut source declaration.stop lineStop) then
    ⟨lineStart, if lineStop < source.length then lineStop + 1 else lineStop, ""⟩
  else ⟨declaration.start, declaration.stop, ""⟩

/-- The edit of a declaration that loses names, with statements to be put in
front of what is left of it. -/
def declarationEdit
    (source : String)
    (bindings : Binding.Table)
    (leading : List String)
    (declaration : Declaration) : Edit :=
  let residual := residualImport? declaration (unknownNames bindings declaration)
  match leading ++ residual.toList with
  | [] => removal source declaration
  | statements =>
    let separator := "\n" ++ indentAt source declaration.start
    ⟨declaration.start, declaration.stop, separator.intercalate statements⟩

/-- Whether a declaration is a macro import that loses a name. -/
def losesName (settings : Settings) (bindings : Binding.Table) (declaration : Declaration) : Bool :=
  declaration.mechanism = .module && settings.isMacroPath declaration.path &&
    (unknownNames bindings declaration).length ≠ declaration.specifiers.length

def importEdits
    (settings : Settings)
    (module : Module)
    (bindings : Binding.Table)
    (aliases : Aliases) : List Edit :=
  match aliases.importStatement? settings.runtimeModule with
  | none => []
  | some statement =>
    match module.declarations.filter (losesName settings bindings) with
    | [] => [⟨0, 0, statement ++ "\n"⟩]
    | first :: others =>
      declarationEdit module.source bindings [statement] first ::
        others.map (declarationEdit module.source bindings [])

end Restyle.Expansion

/-! ## Whole modules -/

namespace Restyle

/-- The result of an expansion: the code, the outputs in source order, the
bindings in effect, and the aliases of the runtime exports in the order in
which they were given. -/
structure Expansion where
  code : String
  outputs : List Output
  bindings : Binding.Table
  aliases : List (Value × String)
  changed : Bool

namespace Expansion

/-- An expansion and how it went: the bindings in the order of declaration, and
the outputs in the order in which they were finished. -/
structure Attempt where
  bindings : List Binding
  finished : List Output
  result : Except Fault Expansion

def wholeSpan (module : Module) : Span :=
  ⟨module.tokens, 0, module.source.length⟩

/-- The outputs of the uses that no other use encloses. -/
def writeOutputs (frame : Output.Frame) : Plan.Expression → Output.Writer (List Output)
  | .fault fault => throw fault
  | .span _ _ plans => Output.ofPlans frame plans

def assemble
    (settings : Settings)
    (module : Module)
    (bindings : Binding.Table)
    (topmost : List Output)
    (progress : Output.Progress) : Expansion :=
  let edits := Output.edits topmost ++ importEdits settings module bindings progress.aliases
  let code := Edit.applyAll module.source edits 0
  {
    code
    outputs := progress.outputs.mergeSort fun left right => left.start ≤ right.start
    bindings
    aliases := progress.aliases.names
    changed := code ≠ module.source
  }

/-- The expansion of a module that binds no macro: its text as it is. -/
def unchanged (module : Module) : Expansion :=
  ⟨module.source, [], [], [], false⟩

def run
    (settings : Settings)
    (registry : Registry)
    (filename : String)
    (module : Module) : Attempt :=
  let declared := Binding.listOf settings registry module
  if declared.isEmpty then ⟨declared, [], .ok (unchanged module)⟩
  else
    let bindings := Binding.Table.ofList declared
    let plan := Plan.ofSpan ⟨module, registry, bindings⟩ (wholeSpan module)
    let frame : Output.Frame := ⟨module.source, filename, settings⟩
    let written := (writeOutputs frame plan).run ⟨Aliases.ofTaken module.identifiers, []⟩
    ⟨declared, written.2.outputs,
      written.1.map fun topmost => assemble settings module bindings topmost written.2⟩

def ofSource
    (settings : Settings)
    (registry : Registry)
    (filename source : String) : Except Fault Expansion := do
  let module ← Module.parse source
  (run settings registry filename module).result

end Expansion

end Restyle
