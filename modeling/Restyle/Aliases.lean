import Restyle.Value

/-!
Contract: local names for the exports of the runtime.

Owns: `Aliases`, the names given out so far and the names that are taken;
`Aliases.request`, which gives an export its name; the import statement for
them.

An export keeps its name once it has one.  A new name is the export behind the
configured head, with the least number from two on that makes it free where it
is taken.
-/

namespace Restyle

/-- The names given to exports, in the order of the first requests, and all
names that are taken. -/
structure Aliases where
  names : List (Value × String)
  taken : List String

namespace Aliases

def ofTaken (taken : List String) : Aliases :=
  ⟨[], taken⟩

def find? (aliases : Aliases) (exported : Value) : Option String :=
  (aliases.names.find? fun entry => entry.1.sameKey exported).map (·.2)

/-- The names that may be tried for a base: itself, then numbered from two on,
one more in all than `count`. -/
def candidates (base : String) (count : Nat) : List String :=
  base :: (List.range count).map fun index => base ++ Text.decimal (index + 2 : Nat)

/-- The first candidate for a base that is not taken. -/
def fresh (base : String) (taken : List String) : String :=
  ((candidates base taken.length).find? fun name => !taken.contains name).getD base

/-- The name of an export, given to it if it has none. -/
def request (head : String) (exported : Value) (aliases : Aliases) : String × Aliases :=
  match aliases.find? exported with
  | some name => (name, aliases)
  | none =>
    let name := fresh (head ++ exported.display) aliases.taken
    (name, ⟨aliases.names ++ [(exported, name)], aliases.taken ++ [name]⟩)

/-- An export in an import statement, with its name where that differs. -/
def specifier (entry : Value × String) : String :=
  if entry.1.text? = some entry.2 then entry.2 else entry.1.display ++ " as " ++ entry.2

/-- The import statement for the names given out, `none` if there are none. -/
def importStatement? (aliases : Aliases) (runtimeModule : String) : Option String :=
  if aliases.names.isEmpty then none
  else
    let specifiers := ", ".intercalate (aliases.names.map specifier)
    some ("import \x7b " ++ specifiers ++ " \x7d from '" ++ runtimeModule ++ "';")

end Aliases

end Restyle
