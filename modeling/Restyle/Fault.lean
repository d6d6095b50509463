import Restyle.Text

/-!
Contract: what can go wrong with a module, as causes.

Owns: `Problem`, a defect of the module text with its description, its family
and its report; `Fault`, everything that stops the expansion of a module.

Does not own: faults of a manifest (`Registry.Fault`) or of settings.
-/

namespace Restyle

/-- The families of problems: a macro bound by the wrong kind of declaration, a
macro whose meaning is not fixed, and text that cannot be analysed. -/
inductive Problem.Family where
  | importStyle
  | unresolved
  | malformed
deriving DecidableEq, Repr

/-- A defect of the module text. -/
inductive Problem where
  | unterminatedTemplate
  | unterminatedSpecifiers
  | namespaceUnnamed
  | pathMissing
  | requiredMacro (exported path localName : String)
  | reassignedMacro (localName : String)
  | emptyFactory (localName : String)
  | unmatchedBracket (bracket : String)
  | misusedMacro (localName summary : String) (examples : List String)
deriving DecidableEq, Repr

namespace Problem

def family : Problem → Family
  | .requiredMacro .. => .importStyle
  | .reassignedMacro .. => .unresolved
  | _ => .malformed

/-- The description of a problem, one sentence without its place. -/
def describe : Problem → String
  | .unterminatedTemplate => "Unterminated template literal"
  | .unterminatedSpecifiers => "Unterminated import specifier list"
  | .namespaceUnnamed => "Expected namespace name after 'import * as'"
  | .pathMissing => "Import declaration without a module source"
  | .requiredMacro exported path localName =>
    s!"the '{exported}' macro must be imported with module syntax (es modules): " ++
      s!"found require('{path}') binding '{localName}'"
  | .reassignedMacro localName =>
    s!"cannot statically resolve macro '{localName}': " ++
      "the binding is reassigned or re-declared in this module"
  | .emptyFactory localName => s!"'{localName}()' needs a tag or component argument"
  | .unmatchedBracket bracket => s!"Unmatched '{bracket}'"
  | .misusedMacro localName summary examples =>
    s!"macro '{localName}' ({summary}) cannot be used in this form" ++
      if examples.isEmpty then "" else "; expected e.g. " ++ " or ".intercalate examples

/-- The full report of a problem at an offset: description, place, and the line
with a caret. -/
def report (problem : Problem) (source filename : String) (offset : Nat) : String :=
  let location := Location.ofOffset source offset
  s!"{problem.describe}\n{filename}: Line {location.line}, column {location.column}\n" ++
    location.excerpt source offset

end Problem

/-- What stops the expansion of a module.  Besides a problem at an offset, these
are a stray character in the text of a template, a default export that the
registry does not define, an example that is no text, and a runtime export that
cannot be named. -/
inductive Fault where
  | problem (problem : Problem) (offset : Nat)
  | strayInTemplate
  | undefinedExport (name : String)
  | exampleNotText (name : String)
  | exportNotKey (name : String)
deriving DecidableEq, Repr

end Restyle
