import Restyle.Text
import Restyle.Text.Word

/-!
Contract: the smallest pieces of module text, how far they reach, and what a
scanner must remember between two of them.

Owns: `Lexeme` and its kinds; `Nest`, how deep template holes enclose the code
being read; `Lexeme.State`, the scanner's memory; and one function per lexical
form, which takes the characters that follow the form's opening and returns the
number of them that belong to it, `none` when the form is not completed.

Does not own: which form is tried when; that is `Lexeme.Scan`.
-/

namespace Restyle

/-- What a lexeme is.  A template literal is cut into its delimiters, its text
and the lexemes of its holes. -/
inductive Lexeme.Kind where
  | blank
  | lineComment
  | blockComment
  | pattern
  | doubleQuoted
  | singleQuoted
  | number
  | keyword
  | identifier
  | punctuator
  | operator
  | templateOpen
  | templateText
  | templateClose
  | holeOpen
  | holeClose
  | stray
deriving DecidableEq, Repr

/-- A piece of module text and the offset where it begins. -/
structure Lexeme where
  kind : Lexeme.Kind
  text : String
  start : Nat
deriving DecidableEq, Repr

namespace Lexeme

def stop (lexeme : Lexeme) : Nat :=
  lexeme.start + lexeme.text.length

/-- Whether a kind only separates other lexemes. -/
def Kind.isTrivia : Kind → Bool
  | .blank | .lineComment | .blockComment => true
  | _ => false

/-- The code around a position: the module itself, or the hole of a template
that stands in outer code.  A hole counts the braces open in it, because only
a brace that closes none of them ends the hole. -/
inductive Nest where
  | module
  | hole (braces : Nat) (outer : Nest)
deriving DecidableEq, Repr

/-- What a slash means in code: a division, or the start of a pattern. -/
inductive Slash where
  | divides
  | opensPattern
deriving DecidableEq, Repr

/-- What the scanner remembers: it is in code, or in the text of a template
that stands in the given code. -/
inductive State where
  | code (nest : Nest) (slash : Slash)
  | template (nest : Nest)
deriving DecidableEq, Repr

/-- A module begins in its own code, where a slash divides. -/
def State.initial : State :=
  .code .module .divides

end Lexeme

end Restyle

/-! ## Extents -/

namespace Restyle.Lexeme

open Restyle.Text

/-- A block comment after its opening: up to the first `*/`. -/
def blockCommentExtent? : List Char → Option Nat
  | '*' :: '/' :: _ => some 2
  | _ :: rest => (blockCommentExtent? rest).map (· + 1)
  | [] => none

/-- A quoted string after its quote: characters other than the quote, the
backslash and the line feed, or a backslash with any character, up to the
closing quote. -/
def quotedExtent? (quote : Char) : List Char → Option Nat
  | [] => none
  | [c] => if c = quote then some 1 else none
  | c :: d :: rest =>
    if c = quote then some 1
    else if c = '\n' then none
    else if c = '\\' then (quotedExtent? quote rest).map (· + 2)
    else (quotedExtent? quote (d :: rest)).map (· + 1)

/-- A pattern after its opening slash: up to a slash outside brackets, on one
line, then its flags.  A backslash takes the next character with it. -/
def patternExtent? (inBrackets : Bool) : List Char → Option Nat
  | [] => none
  | '\n' :: _ => none
  | ['\\'] => none
  | '\\' :: c :: rest =>
    if c = '\n' then none else (patternExtent? inBrackets rest).map (· + 2)
  | c :: rest =>
    if inBrackets then
      (patternExtent? (c ≠ ']') rest).map (· + 1)
    else if c = '/' then
      some (1 + (rest.takeWhile Char.isLower).length)
    else
      (patternExtent? (c = '[') rest).map (· + 1)

def isDigitOrUnderscore (c : Char) : Bool :=
  isDigit c || c = '_'

def isRadixDigit (c : Char) : Bool :=
  c.isDigit || ('a' ≤ c && c ≤ 'f') || ('A' ≤ c && c ≤ 'F') || c = '_'

def digitsExtent (rest : List Char) : Nat :=
  (rest.takeWhile isDigitOrUnderscore).length

/-- An exponent part, zero when there is none. -/
def exponentExtent : List Char → Nat
  | mark :: rest =>
    if mark = 'e' || mark = 'E' then
      let sign := match rest with
        | '+' :: _ | '-' :: _ => 1
        | _ => 0
      let digits := ((rest.drop sign).takeWhile isDigit).length
      if digits = 0 then 0 else 1 + sign + digits
    else 0
  | [] => 0

/-- The mark of a big integer, zero when there is none. -/
def bigExtent : List Char → Nat
  | 'n' :: _ => 1
  | _ => 0

/-- The end of a number that has been read up to `length`: an exponent and the
mark of a big integer. -/
def numberEnd (length : Nat) (rest : List Char) : Nat :=
  let exponent := exponentExtent (rest.drop length)
  length + exponent + bigExtent (rest.drop (length + exponent))

/-- A number with a radix mark, after its leading zero. -/
def radixExtent? : List Char → Option Nat
  | mark :: rest =>
    if "xXoObB".toList.contains mark then
      let digits := (rest.takeWhile isRadixDigit).length
      if digits = 0 then none
      else some (1 + digits + bigExtent (rest.drop digits))
    else none
  | [] => none

/-- A number after its first character, which is a digit or a point. -/
def numberExtent? (first : Char) (rest : List Char) : Option Nat :=
  match if first = '0' then radixExtent? rest else none with
  | some length => some length
  | none =>
    if isDigit first then
      let whole := digitsExtent rest
      let point := match rest.drop whole with
        | '.' :: _ => 1
        | _ => 0
      let fraction := digitsExtent (rest.drop (whole + point))
      some (numberEnd (whole + point + fraction) rest)
    else if first = '.' && rest.head?.any isDigit then
      some (numberEnd (digitsExtent rest) rest)
    else none

end Restyle.Lexeme
