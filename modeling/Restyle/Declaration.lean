import Restyle.Bracket
import Restyle.Fault
import Restyle.Split
import Restyle.Text

/-!
Contract: what a module takes from other modules, and finding it in the module's
tokens.

Owns: `Declaration`, an import statement or a variable initialised by a
required module, with the names it binds; how specifier lists, such statements
and such variables are read; and `Declaration.readAll`.

An `import` that a parenthesis or a point follows is an expression and is
passed over.
-/

namespace Restyle

/-- How a declaration brings names into scope: by an import statement, or by
requiring a module when it runs. -/
inductive Declaration.Mechanism where
  | module
  | dynamic
deriving DecidableEq, Repr

def Declaration.Mechanism.name : Declaration.Mechanism → String
  | .module => "module"
  | .dynamic => "dynamic"

/-- A name bound by a declaration.  The imported name is `default` for the
default export and `*` for the module as a whole. -/
structure Declaration.Specifier where
  imported : String
  localName : String
deriving DecidableEq, Repr

/-- An import statement or a required module, from its first token to its last. -/
structure Declaration where
  path : String
  specifiers : List Declaration.Specifier
  mechanism : Declaration.Mechanism
  start : Nat
  stop : Nat
  location : Location
deriving DecidableEq, Repr

def Declaration.covers (declaration : Declaration) (offset : Nat) : Bool :=
  declaration.start ≤ offset && offset < declaration.stop

/-! ## Specifiers -/

namespace Declaration

def isQuote (c : Char) : Bool :=
  c = '\'' || c = '"'

/-- The specifier written by one entry of a list: its first name is the
imported one, its last name the local one. -/
def specifier? (entry : List Token) : Option Specifier :=
  let names := entry.filter fun token =>
    (token.isName || token.is .string) && token.text ≠ "as"
  match names.head?, names.getLast? with
  | some first, some last => some ⟨Text.trim isQuote first.text, last.text⟩
  | _, _ => none

def specifiersOf (tokens : List Token) : List Specifier :=
  (splitWhere (·.text = ",") tokens).filterMap specifier?

/-! ## Import statements -/

/-- What stands between `import` and the module's path: the specifiers, and the
tokens from the path on. -/
structure Clause where
  specifiers : List Specifier
  rest : List Token

def Clause.cons (specifiers : List Specifier) (clause : Clause) : Clause :=
  { clause with specifiers := specifiers ++ clause.specifiers }

/-- The clause of an import statement, up to its path, a semicolon or the end. -/
def readClause (tokens : List Token) : Except Fault Clause :=
  match tokens with
  | [] => .ok ⟨[], []⟩
  | token :: rest =>
    if token.is .string then .ok ⟨[], token :: rest⟩
    else if token.text = "\x7b" then
      match _found : Bracket.close? 0 rest with
      | none => .error (.problem .unterminatedSpecifiers token.start)
      | some cut => (readClause cut.after).map (·.cons (specifiersOf cut.before))
    else if token.text = "*" then
      match rest with
      | _ :: name :: after =>
        if name.isName then (readClause after).map (·.cons [⟨"*", name.text⟩])
        else .error (.problem .namespaceUnnamed token.start)
      | _ => .error (.problem .namespaceUnnamed token.start)
    else if token.text = ";" then .ok ⟨[], token :: rest⟩
    else if token.is .identifier && token.text ≠ "from" then
      (readClause rest).map (·.cons [⟨"default", token.text⟩])
    else readClause rest
termination_by tokens.length
decreasing_by
  · have := Bracket.eq_of_close? _found
    simp only [this, List.length_cons, List.length_append]
    omega
  · simp only [List.length_cons]; omega
  · simp
  · simp

/-- The import statement at a keyword, and the number of tokens after the
keyword that belong to it. -/
def readImport (keyword : Token) (tokens : List Token) : Except Fault (Declaration × Nat) := do
  let clause ← readClause tokens
  match clause.rest with
  | path :: after =>
    if path.is .string then
      let (stop, after) := match after with
        | next :: more => if next.text = ";" then (next.stop, more) else (path.stop, after)
        | [] => (path.stop, [])
      let declaration : Declaration :=
        ⟨Text.unquote path.text, clause.specifiers, .module, keyword.start, stop, keyword.location⟩
      return (declaration, tokens.length - after.length)
    else throw (.problem .pathMissing keyword.start)
  | [] => throw (.problem .pathMissing keyword.start)

/-! ## Required modules -/

/-- A call of `require` with one string, after the name: the path, the member
taken from the module, and the offset where it stops. -/
structure Required where
  path : String
  member : Option String
  stop : Nat

/-- The call of `require` whose name these tokens follow, up to a semicolon. -/
def required? : List Token → Option Required
  | openParen :: path :: closeParen :: after =>
    if openParen.text = "(" && path.is .string && closeParen.text = ")" then
      let (member, last, after) := match after with
        | point :: name :: more =>
          if point.text = "." && name.isName then (some name.text, name, more)
          else (none, closeParen, after)
        | _ => (none, closeParen, after)
      let stop := match after with
        | next :: _ => if next.text = ";" then next.stop else last.stop
        | [] => last.stop
      some ⟨Text.unquote path.text, member, stop⟩
    else none
  | _ => none

def variableKeywords : List String :=
  ["const", "let", "var"]

/-- The variable or pattern to which a required module is assigned, read
backwards from the `=`: its specifiers and the tokens before it. -/
def target? (member : Option String) : List Token → Option (List Specifier × List Token)
  | target :: before =>
    if target.is .identifier then some ([⟨member.getD "default", target.text⟩], before)
    else if target.text = "\x7d" && member.isNone then
      (Bracket.openingBrace? 0 [] before).map fun cut => (specifiersOf cut.after, cut.before)
    else none
  | [] => none

/-- The declaration around a `require`, given the tokens before it, latest
first, and those after it. -/
def readRequire? (before after : List Token) : Option Declaration := do
  let required ← required? after
  match before with
  | assign :: before =>
    if assign.text = "=" then
      let (specifiers, before) ← target? required.member before
      let keyword ← before.head?
      if variableKeywords.contains keyword.text then
        some ⟨required.path, specifiers, .dynamic, keyword.start, required.stop, keyword.location⟩
      else none
    else none
  | [] => none

/-! ## All declarations -/

/-- Whether the tokens after an `import` make it a statement. -/
def followsImport (after : List Token) : Bool :=
  after.head?.any fun next => next.text ≠ "(" && next.text ≠ "."

/-- The declarations in a list of tokens, in the order in which their `import`
or `require` stands.  The tokens before are given latest first; `skip` of the
tokens belong to a statement that has been read. -/
def readFrom (before : List Token) (skip : Nat) : List Token → Except Fault (List Declaration)
  | [] => .ok []
  | token :: after =>
    match skip with
    | skip + 1 => readFrom (token :: before) skip after
    | 0 =>
      if token.is .keyword && token.text = "import" && followsImport after then do
        let (declaration, length) ← readImport token after
        let others ← readFrom (token :: before) length after
        return declaration :: others
      else do
        let own := if token.is .identifier && token.text = "require" then
          (readRequire? before after).toList else []
        let others ← readFrom (token :: before) 0 after
        return own ++ others

/-- The declarations of a module in the order in which they begin. -/
def readAll (tokens : List Token) : Except Fault (List Declaration) := do
  let declarations ← readFrom [] 0 tokens
  return declarations.mergeSort fun left right => left.start ≤ right.start

end Declaration

end Restyle
