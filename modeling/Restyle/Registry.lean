import Restyle.Value
import Restyle.Yaml.Document

/-!
Contract: the macros that a macro module exports.

Owns: `Shape`, the syntactic shapes of a use; `Spec`, what is known of a macro;
`Registry`, the macros by name, in the order of their first registration;
`Registry.Fault`, what can be wrong with a manifest, with its messages;
`Spec.ofEntry`, one macro from its entry; `Registry.ofManifest` and
`Registry.ofManifestText`.

Fields that a manifest may give as any value are kept as given and judged by
their truth where they matter.  A manifest is judged in order: its table of
macros, then its entries one by one, and last its default export.
-/

namespace Restyle

/-- The shapes in which a macro may be used: before a template, called, by a
member or a factory call, or as a plain value. -/
inductive Shape where
  | taggedTemplate
  | call
  | memberFactory
  | bareValue
deriving DecidableEq, Repr

namespace Shape

/-- The shapes by the alphabet of their names. -/
def all : List Shape :=
  [.bareValue, .call, .memberFactory, .taggedTemplate]

def name : Shape → String
  | .taggedTemplate => "tagged-template"
  | .call => "call"
  | .memberFactory => "member-factory"
  | .bareValue => "bare-value"

def ofName? (name : String) : Option Shape :=
  all.find? fun shape => shape.name = name

end Shape

/-- What is known of a macro. -/
structure Spec where
  name : String
  description : Value
  shapes : List Shape
  /-- The runtime export that takes the macro's place. -/
  runtimeExport : Value
  /-- Whether a required module may not provide the macro. -/
  requiresImport : Value
  /-- Whether a use inside another macro's hole is spliced into it. -/
  inlinesNested : Value
  examples : List Value

namespace Spec

def allows (spec : Spec) (shape : Shape) : Bool :=
  spec.shapes.contains shape

/-- Whether a macro takes content: it allows more than a plain value. -/
def isInvocable (spec : Spec) : Bool :=
  spec.shapes.any (· ≠ .bareValue)

end Spec

/-- The macros by name, and the one that a default import binds. -/
structure Registry where
  specs : List Spec
  defaultExport : String

namespace Registry

def empty (defaultExport : String) : Registry :=
  ⟨[], defaultExport⟩

def find? (registry : Registry) (name : String) : Option Spec :=
  registry.specs.find? (·.name = name)

def has (registry : Registry) (name : String) : Bool :=
  (registry.find? name).isSome

def names (registry : Registry) : List String :=
  registry.specs.map (·.name)

/-- The specs with one more: a known name keeps its place. -/
def put (spec : Spec) : List Spec → List Spec
  | [] => [spec]
  | other :: rest => if other.name = spec.name then spec :: rest else other :: put spec rest

def register (registry : Registry) (spec : Spec) : Registry :=
  { registry with specs := put spec registry.specs }

def withShape (registry : Registry) (shape : Shape) : List Spec :=
  registry.specs.filter (·.allows shape)

/-- The registry in one line: its names in ascending order, and its default. -/
def describe (registry : Registry) : String :=
  let names := registry.names.mergeSort fun left right => !(right < left)
  let listed := ", ".intercalate (names.map Value.quoteText)
  s!"MacroRegistry(macros=[{listed}], default='{registry.defaultExport}')"

end Registry

/-! ## Manifests -/

/-- What can be wrong with a manifest.  The last seven have no message of their
own. -/
inductive Registry.Fault where
  | missing (path : String)
  | unreadable (path : String)
  | noTable (path : String)
  | unknownShape (name : String) (shape : Value)
  | noShapes (name : String)
  | unknownDefault (name path : String)
  | notFile (path : String)
  | notText (path : String)
  | scalar (fault : Yaml.ScalarFault)
  | entryNotMapping (name : String)
  | shapesNotItems (name : String)
  | examplesNotItems (name : String)
  | defaultNotKey

def Registry.Fault.message? : Registry.Fault → Option String
  | .missing path => some s!"Macro manifest not found: {path}"
  | .unreadable path => some s!"Failed to parse macro manifest {path}"
  | .noTable path => some s!"Macro manifest {path} has no 'macros' table"
  | .unknownShape name shape => some s!"Macro '{name}': {shape.quote} is not a valid CallShape"
  | .noShapes name => some s!"Macro '{name}' declares no call shapes"
  | .unknownDefault name path => some s!"default_export '{name}' is not a macro in {path}"
  | _ => none

/-- The items that a value offers: those of a list, the characters of a text,
the keys of a mapping. -/
def Value.items? : Value → Option (List Value)
  | .list items => some items
  | .text value => some (value.toList.map fun c => .text (String.singleton c))
  | .mapping entries => some (entries.map (·.1))
  | _ => none

namespace Spec

def shapeOf (name : String) (value : Value) : Except Registry.Fault Shape :=
  match value.text?.bind Shape.ofName? with
  | some shape => .ok shape
  | none => .error (.unknownShape name value)

def ofEntry (name : String) (entry : Value) : Except Registry.Fault Spec := do
  let .mapping entries := entry | throw (.entryNotMapping name)
  let field (key : String) (fallback : Value) : Value :=
    (Value.find? (.text key) entries).getD fallback
  let some shapeValues := (field "shapes" (.list [])).items? | throw (.shapesNotItems name)
  let shapes ← shapeValues.mapM (shapeOf name)
  if shapes.isEmpty then throw (.noShapes name)
  let some examples := (field "examples" (.list [])).items? | throw (.examplesNotItems name)
  let runtimeExport := field "runtime_export" (.text name)
  return {
    name
    description := field "description" (.text "")
    shapes
    runtimeExport := if runtimeExport.isTrue then runtimeExport else .text name
    requiresImport := field "requires_module_import" (.bool true)
    inlinesNested := field "inline_nested" (.bool false)
    examples
  }

end Spec

namespace Registry

/-- The name of the default export when a manifest gives none. -/
def usualDefault : String :=
  "styled"

/-- The registry with the macro of an entry.  An entry that counts as false is
an empty one. -/
def registerEntry (registry : Registry) (entry : Value × Value) : Except Fault Registry := do
  let body := if entry.2.isTrue then entry.2 else .mapping []
  return registry.register (← Spec.ofEntry entry.1.display body)

/-- The registry that a manifest describes.  The path stands in messages. -/
def ofManifest (path : String) (manifest : Value) : Except Fault Registry := do
  let some (.mapping entries) := manifest.get? "macros" | throw (.noTable path)
  let defaultExport := (manifest.get? "default_export").getD (.text usualDefault)
  let registry ← entries.foldlM registerEntry (empty defaultExport.display)
  if !defaultExport.isKey then throw .defaultNotKey
  if defaultExport.text?.any registry.has then return registry
  throw (.unknownDefault defaultExport.display path)

def ofManifestText (path text : String) : Except Fault Registry :=
  match Value.ofYaml text with
  | .ok manifest => ofManifest path manifest
  | .error .malformed => .error (.unreadable path)
  | .error (.scalar fault) => .error (.scalar fault)

end Registry

end Restyle
