import Restyle.FileTree
import Restyle.Settings
import Restyle.Value.Json

/-!
Contract: settings from dynamic values and from the environment.

Owns: `Settings.Fault`, `Settings.ofFields`, and `Settings.ofEnvironment`, in
which explicit fields win over variables.

Names may be written in any case of letters, and of two spellings of one field
the first is in effect.  A variable is the name of a field after a fixed head.
Its value is a text, but for the list of suffixes, which is written as JSON.
-/

namespace Restyle

/-- What can be wrong with settings: a field that is unknown or has a value of
the wrong type, or a variable whose text is no JSON. -/
inductive Settings.Fault where
  | invalid
  | unreadable
deriving DecidableEq, Repr

namespace Settings

def truthWords : List (String × Bool) :=
  [("0", false), ("off", false), ("f", false), ("false", false), ("n", false), ("no", false),
    ("1", true), ("on", true), ("t", true), ("true", true), ("y", true), ("yes", true)]

def readBool : Value → Except Fault Bool
  | .bool value => .ok value
  | .text word =>
    match truthWords.lookup (word.map Char.toLower) with
    | some value => .ok value
    | none => .error .invalid
  | value =>
    match value.whole? with
    | some 0 => .ok false
    | some 1 => .ok true
    | _ => .error .invalid

def readText : Value → Except Fault String
  | .text value => .ok value
  | _ => .error .invalid

def readTexts : Value → Except Fault (List String)
  | .list items => items.mapM readText
  | _ => .error .invalid

def readOptionalText : Value → Except Fault (Option String)
  | .null => .ok none
  | value => (readText value).map some

def setField (settings : Settings) (name : String) (value : Value) : Except Fault Settings := do
  match name with
  | "macro_suffixes" => return { settings with macroSuffixes := ← readTexts value }
  | "macro_manifest" => return { settings with macroManifest := ← readOptionalText value }
  | "runtime_module" => return { settings with runtimeModule := ← readText value }
  | "runtime_alias_prefix" => return { settings with aliasHead := ← readText value }
  | "emit_labels" => return { settings with emitLabels := ← readBool value }
  | "emit_source_locations" => return { settings with emitLocations := ← readBool value }
  | "placeholder_prefix" => return { settings with placeholderHead := ← readText value }
  | "placeholder_suffix" => return { settings with placeholderTail := ← readText value }
  | _ => throw .invalid

def fieldNames : List String :=
  ["macro_suffixes", "macro_manifest", "runtime_module", "runtime_alias_prefix", "emit_labels",
    "emit_source_locations", "placeholder_prefix", "placeholder_suffix"]

/-- The fields by their names in lower case, each as it is given first. -/
def normalFields (fields : List (String × Value)) : List (String × Value) :=
  let named := fields.map fun field => (field.1.map Char.toLower, field.2)
  named.foldl (fun kept field => if kept.any (·.1 = field.1) then kept else kept ++ [field]) []

def ofFields (fields : List (String × Value)) : Except Fault Settings :=
  (normalFields fields).foldlM (fun settings field => settings.setField field.1 field.2) {}

/-- What the names of variables begin with. -/
def variableHead : String :=
  "stylemacro_"

/-- The value of a field given by a variable; null gives none. -/
def variableValue? (name text : String) : Except Fault (Option Value) :=
  if name = "macro_suffixes" then
    match Value.ofJson? text with
    | some .null => .ok none
    | some value => .ok (some value)
    | none => .error .unreadable
  else .ok (some (.text text))

/-- The fields given by variables.  Of two variables for one field the later is
in effect. -/
def environmentFields (environment : List (String × String)) :
    Except Fault (List (String × Value)) := do
  let fields ← fieldNames.mapM fun name => do
    let isNamed (entry : String × String) : Bool :=
      entry.1.map Char.toLower = variableHead ++ name
    match environment.reverse.find? isNamed with
    | some (_, text) => return (← variableValue? name text).map fun value => (name, value)
    | none => return none
  return fields.filterMap id

/-- The settings given by variables and explicit fields, of which the explicit
ones win. -/
def ofEnvironment
    (environment : List (String × String))
    (fields : List (String × Value)) : Except Fault Settings := do
  let inherited ← environmentFields environment
  ofFields (fields ++ inherited)

def packagedManifest : String :=
  "macros.yaml"

/-- The manifest in effect other than the packaged one; an empty name counts as
none. -/
def manifest? (settings : Settings) : Option Path :=
  (settings.macroManifest.filter (· ≠ "")).map Path.ofString

def manifestName (settings : Settings) : String :=
  match settings.manifest? with
  | some path => path.name
  | none => packagedManifest

end Settings

end Restyle
