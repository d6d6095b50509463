import Restyle.Declaration
import Restyle.Token
import Restyle.Token.Reader

/-!
Contract: a module as the expansion sees it.

Owns: `Module`, its identifiers, the names it reassigns, and `Module.parse`.

Names inside a declaration are its own bindings, so they reassign nothing.
-/

namespace Restyle

/-- A module's text and what has been read from it. -/
structure Module where
  source : String
  tokens : List Token
  declarations : List Declaration

namespace Module

/-- The operators that assign to the name before them. -/
def assignments : List String :=
  ["=", "+=", "-=", "*=", "/=", "%=", "**=", "<<=", ">>=", ">>>=", "&=", "|=", "^=", "&&=", "||=",
    "??="]

/-- The operators that change the name beside them. -/
def updates : List String :=
  ["++", "--"]

def declares (module : Module) (token : Token) : Bool :=
  module.declarations.any (·.covers token.start)

/-- Whether the name at a site is the target of an assignment or an update, or
is declared as a function or a class. -/
def reassigns (site : Site) : Bool :=
  !site.follows [".", "?."] &&
    (site.next?.any (fun next =>
        next.is .operator && (assignments ++ updates).contains next.text) ||
      site.previous?.any (fun previous =>
        previous.is .operator && updates.contains previous.text ||
          previous.is .keyword && ["function", "class"].contains previous.text))

def identifierSites (module : Module) : List Site :=
  (Site.all module.tokens).filter (·.token.is .identifier)

def identifiers (module : Module) : List String :=
  module.identifierSites.map (·.token.text)

/-- The names that the module assigns to or declares again. -/
def reassigned (module : Module) : List String :=
  (module.identifierSites.filter fun site =>
    !module.declares site.token && reassigns site).map (·.token.text)

def parse (source : String) : Except Fault Module := do
  let tokens ← Token.readAll source
  let declarations ← Declaration.readAll tokens
  return ⟨source, tokens, declarations⟩

end Module

end Restyle
