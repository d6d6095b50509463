import Restyle.Bracket
import Restyle.Fault
import Restyle.Use

/-!
Contract: recognising the uses of macros in a list of tokens.

Owns: `Scope`, what names mean in a module; the tests whether an identifier
refers to its binding and where it stands; `Use.matchAt`, the use at a site;
`Use.scan`, the uses in a list of tokens at every depth that no use encloses.

A use found at a site covers the site's token and some that follow.  What it
covers is passed over by the scan, so uses never overlap.
-/

namespace Restyle

/-- What names mean in a module. -/
structure Scope where
  module : Module
  registry : Registry
  bindings : Binding.Table

namespace Use

/-! ## Where an identifier stands -/

/-- The words and signs after which a name with a parenthesis and a body is a
method. -/
def methodLeads : List String :=
  ["\x7b", ",", ";", "\x7d", "*", "get", "set", "static", "async"]

/-- Whether a site is the name of a method: parentheses and a body follow it. -/
def isMethodName (site : Site) : Bool :=
  site.follows methodLeads && site.precedes ["("] &&
    ((Bracket.close? 0 site.after.tail).bind (·.after.head?)).any (·.text = "\x7b")

/-- Whether a site lies directly in the braces of an `export` list. -/
def inExportList (site : Site) : Bool :=
  match Bracket.innermost? 0 site.before with
  | some (opener, before) =>
    opener.text = "\x7b" &&
      before.head?.any fun keyword => keyword.is .keyword && keyword.text = "export"
  | none => false

/-- Whether the bracket around a site is followed by `from`. -/
def isReexported (site : Site) : Bool :=
  ((Bracket.close? 0 site.after).bind (·.after.head?)).any (·.text = "from")

/-- Whether an identifier refers to the binding of its name.  Property names,
object keys, method names, the outer names of an export list and names that
are exported from another module do not. -/
def isReference (site : Site) : Bool :=
  site.previous?.isNone ||
    !site.follows [".", "?."] &&
      !(site.follows ["\x7b", ","] && site.precedes [":"]) &&
      !isMethodName site &&
      !(inExportList site && (site.follows ["as"] || isReexported site))

def positionOf (site : Site) : Position :=
  if site.follows ["\x7b", ","] && site.precedes [",", "\x7d"] then
    if inExportList site then .exportSpecifier
    else if (Bracket.innermost? 0 site.before).any (·.1.text = "\x7b") then .shorthandProperty
    else .expression
  else .expression

/-- The name of the declaration around a use: the variable that it is assigned
to, or the key that it is the value of. -/
def labelOf (site : Site) : Option String :=
  match site.before with
  | previous :: name :: before =>
    if previous.is .operator && previous.text = "=" && name.is .identifier then some name.text
    else if previous.text = ":" && (name.isName || name.is .string) then
      if before.head?.any fun opener => ["\x7b", ","].contains opener.text then
        some (Text.trim Declaration.isQuote name.text)
      else none
    else none
  | _ => none

/-! ## Content -/

def opensContent (token : Token) : Bool :=
  token.isTemplate || token.text = "("

/-- The argument made of some tokens, `none` for no tokens. -/
def argument? (tokens : List Token) : Option Span :=
  match tokens.head?, tokens.getLast? with
  | some first, some last => some ⟨tokens, first.start, last.stop⟩
  | _, _ => none

/-- The tokens between parentheses cut at the commas that stand in no further
bracket, which are dropped.  The depth counts the brackets around the first
token. -/
def splitArguments (depth : Nat) : List Token → List (List Token)
  | [] => [[]]
  | token :: rest =>
    if depth = 0 && Bracket.isPunctuator [","] token then [] :: splitArguments 0 rest
    else
      let inner :=
        if Bracket.opens token then depth + 1
        else if Bracket.closes token then depth - 1
        else depth
      match splitArguments inner rest with
      | [] => [[token]]
      | first :: others => (token :: first) :: others

/-- The arguments between parentheses; empty ones are dropped. -/
def argumentsOf (tokens : List Token) : List Span :=
  (splitArguments 0 tokens).filterMap argument?

/-- Tokens cut at the parenthesis that closes one that is open, which is a
problem if it is never closed. -/
def closeParen (openParen : Token) (after : List Token) : Except Fault Bracket.Cut :=
  match Bracket.close? 0 after with
  | some cut => .ok cut
  | none => .error (.problem (.unmatchedBracket openParen.text) openParen.start)

/-- A use, and how many tokens after its identifier it covers. -/
structure Match where
  use : Use
  length : Nat

/-- The content that begins at a token, and how many tokens it covers. -/
def contentAt (token : Token) (after : List Token) : Except Fault (Content × Nat) :=
  match token.template? with
  | some literal => .ok (.template literal token.start token.stop, 1)
  | none => do
    let cut ← closeParen token after
    return (.arguments (argumentsOf cut.before) cut.token.stop, cut.before.length + 2)

/-! ## The use at a site -/

/-- How a macro is described when it is misused. -/
def summaryOf (spec : Spec) : String :=
  if spec.description.isTrue then s!"{spec.name}: {spec.description.display}" else spec.name

/-- The problem of a macro used in a shape that it does not allow. -/
def misuse (binding : Binding) (spec : Spec) (head : Token) : Fault :=
  match spec.examples.mapM Value.text? with
  | some examples =>
    .problem (.misusedMacro binding.localName (summaryOf spec) examples) head.start
  | none => .exampleNotText spec.name

/-- A plain value, where the macro allows one.  What looks like an invocation of
a macro that takes content is none. -/
def bareValueAt (binding : Binding) (spec : Spec) (site : Site) : Except Fault (Role × Nat) :=
  if spec.allows .bareValue && !(spec.isInvocable && site.next?.any opensContent) then
    .ok (.bareValue spec (positionOf site), 0)
  else .error (misuse binding spec site.token)

/-- A direct call, where the macro allows one. -/
def calledRoleAt
    (binding : Binding)
    (spec : Spec)
    (site : Site)
    (cut : Bracket.Cut) : Except Fault (Role × Nat) :=
  if spec.allows .call then
    let content : Content := .arguments (argumentsOf cut.before) cut.token.stop
    .ok (.invocation spec .direct content, cut.before.length + 2)
  else bareValueAt binding spec site

def importedRoleAt (binding : Binding) (spec : Spec) (site : Site) : Except Fault (Role × Nat) :=
  match site.after with
  | [] => bareValueAt binding spec site
  | next :: after =>
    if next.isTemplate then
      if spec.allows .taggedTemplate then do
        let (content, length) ← contentAt next after
        return (.invocation spec .direct content, length)
      else bareValueAt binding spec site
    else if next.text = "(" then do
      let cut ← closeParen next after
      match if spec.allows .memberFactory then cut.after else [] with
      | content :: rest =>
        if opensContent content then
          if cut.before.isEmpty then
            throw (.problem (.emptyFactory site.token.text) site.token.start)
          let argument : Span := ⟨cut.before, next.stop, cut.token.start⟩
          let (content, length) ← contentAt content rest
          return (.invocation spec (.factory argument) content, cut.before.length + 2 + length)
        else calledRoleAt binding spec site cut
      | [] => calledRoleAt binding spec site cut
    else if next.text = "." then
      match after with
      | member :: content :: rest =>
        if member.isName && spec.allows .memberFactory && opensContent content then do
          let (content, length) ← contentAt content rest
          return (.invocation spec (.member member.text) content, 2 + length)
        else bareValueAt binding spec site
      | _ => bareValueAt binding spec site
    else bareValueAt binding spec site

/-- The fault of a macro that the registry does not define; a parenthesis after
it has to be closed first. -/
def undefinedFault (exported : String) (site : Site) : Fault :=
  match site.after with
  | next :: after =>
    if next.text = "(" then
      match closeParen next after with
      | .error fault => fault
      | .ok _ => .undefinedExport exported
    else .undefinedExport exported
  | [] => .undefinedExport exported

/-- The role of the macro at a site.  Only a known macro that an import
statement binds and nothing reassigns is looked at more closely. -/
def roleAt (scope : Scope) (binding : Binding) (site : Site) : Except Fault (Role × Nat) :=
  match binding.exported with
  | none => .ok (.passThrough none, 0)
  | some exported =>
    match binding.mechanism with
    | .dynamic =>
      match scope.registry.find? exported with
      | none => .error (.undefinedExport exported)
      | some spec =>
        if spec.requiresImport.isTrue then
          .error (.problem (.requiredMacro exported binding.path binding.localName)
            site.token.start)
        else .ok (.passThrough (some spec), 0)
    | .module =>
      if scope.module.reassigned.contains binding.localName then
        .error (.problem (.reassignedMacro binding.localName) site.token.start)
      else
        match scope.registry.find? exported with
        | some spec => importedRoleAt binding spec site
        | none => .error (undefinedFault exported site)

/-- The use at a site, `none` if its token does not refer to a binding. -/
def matchAt (scope : Scope) (site : Site) : Except Fault (Option Match) :=
  if site.token.is .identifier && isReference site then
    match scope.bindings.find? site.token.text with
    | none => .ok none
    | some binding => do
      let (role, length) ← roleAt scope binding site
      return some ⟨⟨binding, site.token, labelOf site, role⟩, length⟩
  else .ok none

/-! ## All uses -/

mutual

/-- The uses in a list of tokens whose earlier part is given nearest first.
`skip` of the tokens belong to a use that has been found. -/
def scanFrom (scope : Scope) (before : List Token) (skip : Nat) :
    List Token → Except Fault (List Use)
  | [] => .ok []
  | token :: after =>
    match skip with
    | skip + 1 => scanFrom scope (token :: before) skip after
    | 0 =>
      if scope.module.declares token then scanFrom scope (token :: before) 0 after
      else do
        match ← matchAt scope ⟨before, token, after⟩ with
        | some found =>
          let others ← scanFrom scope (token :: before) found.length after
          return found.use :: others
        | none =>
          let inner ← scanToken scope token
          let others ← scanFrom scope (token :: before) 0 after
          return inner ++ others

def scanToken (scope : Scope) : Token → Except Fault (List Use)
  | ⟨_, _, _, body⟩ => scanBody scope body

def scanBody (scope : Scope) : Token.Body → Except Fault (List Use)
  | .atom _ => .ok []
  | .template literal => scanTemplate scope literal

def scanTemplate (scope : Scope) : Template → Except Fault (List Use)
  | ⟨_, rest⟩ => scanLinks scope rest

def scanLinks (scope : Scope) : List Template.Link → Except Fault (List Use)
  | [] => .ok []
  | link :: rest => do
    let first ← scanLink scope link
    let others ← scanLinks scope rest
    return first ++ others

def scanLink (scope : Scope) : Template.Link → Except Fault (List Use)
  | ⟨hole, _⟩ => scanSpan scope hole

def scanSpan (scope : Scope) : Span → Except Fault (List Use)
  | ⟨tokens, _, _⟩ => scanFrom scope [] 0 tokens

end

def scan (scope : Scope) (tokens : List Token) : Except Fault (List Use) :=
  scanFrom scope [] 0 tokens

end Use

end Restyle
