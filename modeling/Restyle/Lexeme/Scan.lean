import Restyle.Lexeme

/-!
Contract: cutting module text into lexemes.

Owns: the keywords and symbols of the language, `step`, which reads one lexeme
from the scanner's state, and `scan`, which reads them all.

A step always takes the first character and a number of those that follow, so
every lexeme is non-empty and the scan ends; `scan_text` states that nothing
is lost.  Forms are tried in a fixed order and the first that applies is taken.
-/

namespace Restyle.Lexeme

open Restyle.Text

/-- Words that are no identifiers.  A slash after one of them opens a pattern. -/
def keywords : List String :=
  ["await", "break", "case", "catch", "class", "const", "continue", "debugger", "default",
    "delete", "do", "else", "export", "extends", "finally", "for", "function", "if", "import",
    "in", "instanceof", "let", "new", "of", "return", "switch", "throw", "try", "typeof", "var",
    "void", "while", "with", "yield"]

/-- A punctuator or operator, and what a slash after it means. -/
structure Symbol where
  text : String
  kind : Kind
  slash : Slash

/-- The symbols in the order in which they are tried. -/
def symbols : List Symbol :=
  ["...", "?.", "."].map (⟨·, .punctuator, .divides⟩) ++
  ["=>", "(", "[", ";", ","].map (⟨·, .punctuator, .opensPattern⟩) ++
  [")", "]"].map (⟨·, .punctuator, .divides⟩) ++
  ["++", "--"].map (⟨·, .operator, .divides⟩) ++
  ["===", "==", "!==", "!=", "<<=", "<<", ">>>=", ">>>", ">>=", ">>", "<=", ">=", "&&=", "&&",
    "||=", "||", "??=", "??", "**=", "**", "-=", "-", "+=", "+", "*=", "*", "/=", "/", "%=", "%",
    "&=", "&", "|=", "|", "^=", "^", "<", ">", "!", "~", "?", ":", "="].map
      (⟨·, .operator, .opensPattern⟩) ++
  ["#", "@"].map (⟨·, .punctuator, .divides⟩)

/-- Whether a symbol stands at the head of a text.  The optional chain `?.`
before a digit is a question mark and a number. -/
def Symbol.heads (symbol : Symbol) (text : List Char) : Bool :=
  symbol.text.toList.isPrefixOf text &&
    !(symbol.text = "?." && (text.drop 2).head?.any isDigit)

/-- One lexeme to be taken: its kind, how many characters follow its first one,
and the state after it. -/
structure Step where
  kind : Kind
  tail : Nat
  next : State

def comment? (first : Char) (rest : List Char) : Option (Kind × Nat) :=
  if first = '/' then
    match rest with
    | '/' :: more => some (.lineComment, 1 + (more.takeWhile (· ≠ '\n')).length)
    | '*' :: more => (blockCommentExtent? more).map fun extent => (.blockComment, 1 + extent)
    | _ => none
  else none

def pattern? (slash : Slash) (first : Char) (rest : List Char) : Option Nat :=
  if slash = .opensPattern && first = '/' then patternExtent? false rest else none

def quoted? (first : Char) (rest : List Char) : Option (Kind × Nat) :=
  if first = '"' then (quotedExtent? '"' rest).map fun extent => (.doubleQuoted, extent)
  else if first = '\'' then (quotedExtent? '\'' rest).map fun extent => (.singleQuoted, extent)
  else none

/-- A keyword or an identifier at the head of a text.  A keyword is a whole run
of word characters, so a dollar sign may follow it directly. -/
def word? (first : Char) (rest : List Char) : Option (Kind × Nat) :=
  let run := rest.takeWhile isWord
  if keywords.contains (String.ofList (first :: run)) then some (.keyword, run.length)
  else if isIdentifierStart first then
    some (.identifier, (rest.takeWhile isIdentifierPart).length)
  else none

/-- A brace in code.  The closing brace of a hole returns to the template. -/
def brace? (nest : Nest) (first : Char) : Option Step :=
  if first = '{' then
    match nest with
    | .module => some ⟨.punctuator, 0, .code .module .opensPattern⟩
    | .hole braces outer => some ⟨.punctuator, 0, .code (.hole (braces + 1) outer) .opensPattern⟩
  else if first = '}' then
    match nest with
    | .module => some ⟨.punctuator, 0, .code .module .divides⟩
    | .hole (braces + 1) outer => some ⟨.punctuator, 0, .code (.hole braces outer) .divides⟩
    | .hole 0 outer => some ⟨.holeClose, 0, .template outer⟩
  else none

/-- The next lexeme in code.  Blanks and comments leave the meaning of a slash
as it is; every other lexeme settles it anew. -/
def codeStep (nest : Nest) (slash : Slash) (first : Char) (rest : List Char) : Step :=
  if isBlank first then
    ⟨.blank, (rest.takeWhile isBlank).length, .code nest slash⟩
  else if let some (kind, tail) := comment? first rest then
    ⟨kind, tail, .code nest slash⟩
  else if let some tail := pattern? slash first rest then
    ⟨.pattern, tail, .code nest .divides⟩
  else if first = '`' then
    ⟨.templateOpen, 0, .template nest⟩
  else if let some (kind, tail) := quoted? first rest then
    ⟨kind, tail, .code nest .divides⟩
  else if let some tail := numberExtent? first rest then
    ⟨.number, tail, .code nest .divides⟩
  else if let some (kind, tail) := word? first rest then
    ⟨kind, tail, .code nest (if kind = .keyword then .opensPattern else .divides)⟩
  else if let some symbol := symbols.find? (·.heads (first :: rest)) then
    ⟨symbol.kind, symbol.text.length - 1, .code nest symbol.slash⟩
  else if let some step := brace? nest first then
    step
  else
    ⟨.stray, 0, .code nest .divides⟩

def isTemplateText (c : Char) : Bool :=
  c ≠ '`' && c ≠ '\\' && c ≠ '$'

/-- The next lexeme in the text of a template.  A backslash takes the next
character with it and is stray at the end of the module. -/
def templateStep (nest : Nest) (first : Char) (rest : List Char) : Step :=
  if first = '`' then
    ⟨.templateClose, 0, .code nest .divides⟩
  else if first = '$' then
    if rest.head? = some '{' then
      ⟨.holeOpen, 1, .code (.hole 0 nest) .opensPattern⟩
    else
      ⟨.templateText, 0, .template nest⟩
  else if first = '\\' then
    if rest.isEmpty then ⟨.stray, 0, .template nest⟩ else ⟨.templateText, 1, .template nest⟩
  else
    ⟨.templateText, (rest.takeWhile isTemplateText).length, .template nest⟩

def step : State → Char → List Char → Step
  | .code nest slash, first, rest => codeStep nest slash first rest
  | .template nest, first, rest => templateStep nest first rest

def scanFrom (state : State) (start : Nat) : List Char → List Lexeme
  | [] => []
  | first :: rest =>
    let taken := step state first rest
    let lexeme : Lexeme := ⟨taken.kind, String.ofList (first :: rest.take taken.tail), start⟩
    lexeme :: scanFrom taken.next lexeme.stop (rest.drop taken.tail)
termination_by text => text.length
decreasing_by simp only [List.length_drop, List.length_cons]; omega

def scan (source : String) : List Lexeme :=
  scanFrom .initial 0 source.toList

/-- Nothing is lost: the lexemes spell the text they were read from. -/
theorem scanFrom_text (state : State) (start : Nat) (text : List Char) :
    (scanFrom state start text).flatMap (·.text.toList) = text := by
  fun_induction scanFrom state start text with
  | case1 => rfl
  | case2 state start first rest taken lexeme rest_ih =>
    rw [List.flatMap_cons, rest_ih]
    simp [lexeme]

end Restyle.Lexeme
