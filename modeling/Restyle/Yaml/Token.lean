/-!
Contract: the marks and scalars that a YAML text consists of.

Owns: the token type, `Yaml.Fault`, what can be wrong with a text, and
`Yaml.Cursor`, a place in the text with its line and column.

The starts and ends of block collections, which the text shows by indentation,
are tokens too.
-/

namespace Restyle.Yaml

/-- Why a scalar has no value: it is written like a number or a moment and is
none, or an escape has the code of no character, perhaps one beyond 31 bits. -/
inductive ScalarFault where
  | noNumber
  | noMoment
  | noCharacter
  | hugeCode
deriving DecidableEq, Repr

/-- Why a text has no value. -/
inductive Fault where
  | malformed
  | scalar (fault : ScalarFault)
deriving DecidableEq, Repr

/-- What is read from a text, if nothing is wrong with it. -/
abbrev Reading := Except Fault

/-- Nothing is read from a malformed text. -/
def malformed {α : Type} : Reading α :=
  .error .malformed

/-- A mark or a scalar, or the place from which on a text cannot be cut into
tokens.  A plain scalar is one without quotes. -/
inductive Token where
  | documentStart
  | documentEnd
  | blockSequence
  | blockMapping
  | blockEnd
  | flowSequence
  | flowSequenceEnd
  | flowMapping
  | flowMappingEnd
  | blockEntry
  | flowEntry
  | key
  | value
  | anchor (name : String)
  | reference (name : String)
  | scalar (isPlain : Bool) (text : String)
  | broken (fault : Fault)
deriving DecidableEq, Repr

def isBreak (c : Char) : Bool :=
  c = '\n' || c = '\x85' || c = '\u2028' || c = '\u2029'

/-- What a line end contributes to a scalar. -/
def breakText (c : Char) : Char :=
  if c = '\x85' then '\n' else c

/-- Whether a character separates scalars: a space, a tab or a line end. -/
def isSeparator (c : Char) : Bool :=
  c = ' ' || c = '\t' || isBreak c

/-- Whether a text is at its end or goes on with a separator. -/
def isSeparated (text : List Char) : Bool :=
  text.head?.all isSeparator

/-- Whether a line begins with the mark of a document's start or end. -/
def isDocumentMark (line : List Char) : Bool :=
  ("---".toList.isPrefixOf line || "...".toList.isPrefixOf line) && isSeparated (line.drop 3)

def isAllowed (c : Char) : Bool :=
  let code := c.toNat
  code = 0x9 || code = 0xa || code = 0xd || (0x20 ≤ code && code ≤ 0x7e) || code = 0x85 ||
    (0xa0 ≤ code && code ≤ 0xfffd) || 0x10000 ≤ code

/-- A place in a text: what follows it, and its offset, line and column, counted
from zero. -/
structure Cursor where
  rest : List Char
  offset : Nat
  line : Nat
  column : Nat

namespace Cursor

/-- The place after the next character.  The byte order mark takes no column. -/
def next (cursor : Cursor) : Cursor :=
  match cursor.rest with
  | [] => cursor
  | c :: rest =>
    if isBreak c then ⟨rest, cursor.offset + 1, cursor.line + 1, 0⟩
    else
      let width := if c = '\ufeff' then 0 else 1
      ⟨rest, cursor.offset + 1, cursor.line, cursor.column + width⟩

def skip : Nat → Cursor → Cursor
  | 0, cursor => cursor
  | count + 1, cursor => skip count cursor.next

end Cursor

end Restyle.Yaml
