import Restyle.Module
import Restyle.Registry
import Restyle.Settings

/-!
Contract: which local names of a module stand for macros.

Owns: `Binding`, `Binding.listOf`, the bindings in the order of declaration, and
`Binding.Table`, the binding in effect for each local name.

A name that the registry does not know, and a module imported as a whole, give
a binding without an export: its uses are left alone.
-/

namespace Restyle

/-- A local name bound to an export of the macro module. -/
structure Binding where
  localName : String
  /-- The macro, `none` when the registry does not know it. -/
  exported : Option String
  /-- The name as it stands in the declaration. -/
  imported : String
  path : String
  mechanism : Declaration.Mechanism
  declaredAt : Location
deriving DecidableEq, Repr

namespace Binding

/-- How an unknown export is shown. -/
def unknownMark : String :=
  "<unknown>"

def isUnknown (binding : Binding) : Bool :=
  binding.exported.isNone

def exportShown (binding : Binding) : String :=
  binding.exported.getD unknownMark

/-- The macro that an imported name stands for.  The mark of unknown exports is
itself unknown. -/
def exportOf (registry : Registry) (imported : String) : Option String :=
  let name :=
    if imported = "default" then some registry.defaultExport
    else if registry.has imported then some imported
    else none
  name.filter (· ≠ unknownMark)

def ofDeclaration (registry : Registry) (declaration : Declaration) : List Binding :=
  declaration.specifiers.map fun specifier => {
    localName := specifier.localName
    exported := exportOf registry specifier.imported
    imported := specifier.imported
    path := declaration.path
    mechanism := declaration.mechanism
    declaredAt := declaration.location
  }

/-- The bindings of a module in the order of declaration. -/
def listOf (settings : Settings) (registry : Registry) (module : Module) : List Binding :=
  (module.declarations.filter fun declaration => settings.isMacroPath declaration.path).flatMap
    (ofDeclaration registry)

/-- The binding in effect for each local name, in the order in which the names
are first bound. -/
abbrev Table := List Binding

/-- The table with a further binding, which replaces an earlier one of its name. -/
def Table.put (binding : Binding) : Table → Table
  | [] => [binding]
  | other :: rest =>
    if other.localName = binding.localName then binding :: rest
    else other :: Table.put binding rest

/-- The table of some bindings: of two with one name the later is in effect. -/
def Table.ofList (bindings : List Binding) : Table :=
  bindings.foldl (fun table binding => table.put binding) []

def Table.find? (table : Table) (name : String) : Option Binding :=
  List.find? (fun binding => binding.localName = name) table

end Binding

end Restyle
