/-!
Contract: texts, as sequences of code points.

Owns: tables of code point ranges, decimal digits and blanks; pieces of a text
between two offsets; line breaks; integers and hexadecimal digits, written and
read; `quoted`, a text as a double-quoted literal in ASCII; `templateRaw`, a
quoted string as template text; `Location`, where an offset lies, as line and
column; and `Edit`, the replacement of a part.

Does not own: the large tables of word and of unprintable characters
(`Text.Word`, `Text.Printable`).

An offset beyond the end of a text stands for its end.  Lines end at line feeds
only, and an offset beyond the end lies on the last of them.  The digits and the
blanks are those of Unicode 14.  Edits are applied from left to right, between
each two the text that neither covers, and their offsets may be given against a
larger text, of which only a part is edited; there a negative offset counts from
the end.
-/

namespace Restyle.Text

/-! ## Classes of characters -/

/-- Closed ranges of code points, ascending. -/
abbrev Ranges := List (Nat × Nat)

def Ranges.holds (ranges : Ranges) (c : Char) : Bool :=
  ranges.any fun range => range.1 ≤ c.toNat && c.toNat ≤ range.2

/-- The code points of the digit zero. -/
def zeros : List Nat :=
  [0x30, 0x660, 0x6f0, 0x7c0, 0x966, 0x9e6, 0xa66, 0xae6, 0xb66, 0xbe6, 0xc66, 0xce6, 0xd66,
    0xde6, 0xe50, 0xed0, 0xf20, 0x1040, 0x1090, 0x17e0, 0x1810, 0x1946, 0x19d0, 0x1a80,
    0x1a90, 0x1b50, 0x1bb0, 0x1c40, 0x1c50, 0xa620, 0xa8d0, 0xa900, 0xa9d0, 0xa9f0, 0xaa50,
    0xabf0, 0xff10, 0x104a0, 0x10d30, 0x11066, 0x110f0, 0x11136, 0x111d0, 0x112f0, 0x11450,
    0x114d0, 0x11650, 0x116c0, 0x11730, 0x118e0, 0x11950, 0x11c50, 0x11d50, 0x11da0,
    0x16a60, 0x16ac0, 0x16b50, 0x1d7ce, 0x1d7d8, 0x1d7e2, 0x1d7ec, 0x1d7f6, 0x1e140,
    0x1e2f0, 0x1e950, 0x1fbf0]

def digitValue? (c : Char) : Option Nat :=
  if c.toNat < 0x80 then
    if c.isDigit then some (c.toNat - 0x30) else none
  else
    (zeros.find? fun base => base ≤ c.toNat && c.toNat < base + 10).map (c.toNat - ·)

def isDigit (c : Char) : Bool :=
  (digitValue? c).isSome

/-! ## Blanks -/

/-- The blanks: tab to carriage return, the four information separators, the
space, and the separators beyond ASCII. -/
def blankRanges : Ranges :=
  [(0x9, 0xd), (0x1c, 0x20), (0x85, 0x85), (0xa0, 0xa0), (0x1680, 0x1680),
    (0x2000, 0x200a), (0x2028, 0x2029), (0x202f, 0x202f), (0x205f, 0x205f),
    (0x3000, 0x3000)]

def isBlank (c : Char) : Bool :=
  blankRanges.holds c

/-- The text without the characters of a class at its two ends. -/
def trim (isPadding : Char → Bool) (text : String) : String :=
  String.ofList
    (((text.toList.dropWhile isPadding).reverse.dropWhile isPadding).reverse)

def strip (text : String) : String :=
  trim isBlank text

/-- Whether a text is empty or holds blanks only. -/
def isAllBlank (text : String) : Bool :=
  text.toList.all isBlank

/-! ## Pieces by offset -/

/-- The characters from one offset up to another. -/
def slice (text : List Char) (start stop : Nat) : List Char :=
  (text.take stop).drop start

def cut (text : String) (start stop : Nat) : String :=
  String.ofList (slice text.toList start stop)

@[simp]
theorem toList_cut (text : String) (start stop : Nat) :
    (cut text start stop).toList = slice text.toList start stop := by
  simp [cut]

def unquote (text : String) : String :=
  String.ofList (text.toList.drop 1).dropLast

/-- Whether a text begins with another one. -/
def hasHead (text head : String) : Bool :=
  head.toList.isPrefixOf text.toList

/-- Whether a text ends with another one. -/
def hasTail (text tail : String) : Bool :=
  tail.toList.isSuffixOf text.toList

/-- The offset just after the last line feed before `offset`. -/
def lineStart (text : String) (offset : Nat) : Nat :=
  let before := text.toList.take offset
  before.length - (before.reverse.takeWhile (· ≠ '\n')).length

/-- The offset of the first line feed at or after `offset`, or of the end. -/
def lineStop (text : String) (offset : Nat) : Nat :=
  let start := min offset text.length
  start + ((text.toList.drop start).takeWhile (· ≠ '\n')).length

/-! ## Line breaks -/

/-- The characters with a carriage return, alone or before a line feed, read as
a line feed. -/
def unifyNewlineChars : List Char → List Char
  | [] => []
  | '\r' :: '\n' :: rest => '\n' :: unifyNewlineChars rest
  | '\r' :: rest => '\n' :: unifyNewlineChars rest
  | c :: rest => c :: unifyNewlineChars rest

def unifyNewlines (text : String) : String :=
  String.ofList (unifyNewlineChars text.toList)

/-- Whether a character ends a line: the line feed, carriage return, tabulation
and form feeds, the upper information separators, and the line ends beyond
ASCII. -/
def isLineBreak (c : Char) : Bool :=
  ['\n', '\r', '\x0b', '\x0c', '\x1c', '\x1d', '\x1e', '\x85', '\u2028', '\u2029'].contains c

def firstLine (text : String) : String :=
  String.ofList (text.toList.takeWhile (!isLineBreak ·))

/-! ## Numbers -/

/-- The last `width` hexadecimal digits of a number. -/
def hex (width value : Nat) : String :=
  let digits := Nat.toDigits 16 value
  String.ofList (List.replicate (width - digits.length) '0' ++ digits)

def hexValue? (c : Char) : Option Nat :=
  if c.isDigit then some (c.toNat - 0x30)
  else if 'a' ≤ c && c ≤ 'f' then some (c.toNat - 0x57)
  else if 'A' ≤ c && c ≤ 'F' then some (c.toNat - 0x37)
  else none

/-- The decimal spelling of an integer, without needless zeros or a plus sign. -/
def decimal : Int → String
  | .ofNat value => String.ofList (Nat.toDigits 10 value)
  | .negSucc value => "-" ++ String.ofList (Nat.toDigits 10 (value + 1))

/-- The number of digits that an integer of a data format may have at most. -/
def digitLimit : Nat :=
  4300

def natOf (digits : List Char) : Nat :=
  digits.foldl (fun value c => value * 10 + (c.toNat - 0x30)) 0

/-- Whether a character may surround an integer.  The information separators
are blank but may not. -/
def isIntegerPadding (c : Char) : Bool :=
  isBlank c && !(0x1c ≤ c.toNat && c.toNat ≤ 0x1f)

/-- The value of a run of digits that follows a digit, given the value so far.
An underscore has to stand between two digits. -/
def digitsValue? (value : Nat) : List Char → Option Nat
  | [] => some value
  | '_' :: rest =>
    match rest with
    | c :: more => do
      let digit ← digitValue? c
      digitsValue? (value * 10 + digit) more
    | [] => none
  | c :: rest => do
    let digit ← digitValue? c
    digitsValue? (value * 10 + digit) rest

def natural? : List Char → Option Nat
  | c :: rest => do
    let digit ← digitValue? c
    digitsValue? digit rest
  | [] => none

def readInteger? (text : String) : Option Int :=
  match (trim isIntegerPadding text).toList with
  | '-' :: digits => (natural? digits).map fun value => -(value : Int)
  | '+' :: digits => (natural? digits).map Int.ofNat
  | digits => (natural? digits).map Int.ofNat

/-! ## Literals -/

def unitEscape (unit : Nat) : String :=
  "\\u" ++ hex 4 unit

def quotedChar (c : Char) : String :=
  if c = '"' then "\\\""
  else if c = '\\' then "\\\\"
  else if c = '\n' then "\\n"
  else if c = '\r' then "\\r"
  else if c = '\t' then "\\t"
  else if c = '\x08' then "\\b"
  else if c = '\x0c' then "\\f"
  else if 0x20 ≤ c.toNat && c.toNat < 0x7f then String.singleton c
  else if c.toNat < 0x10000 then unitEscape c.toNat
  else
    let offset := c.toNat - 0x10000
    unitEscape (0xd800 + offset / 0x400) ++ unitEscape (0xdc00 + offset % 0x400)

def quoted (text : String) : String :=
  "\"" ++ String.join (text.toList.map quotedChar) ++ "\""

/-- The characters between the quotes of a string, as template text.  An escape
is kept as a pair; a bare backtick, and a dollar sign before a brace, get a
backslash. -/
def templateRawChars : List Char → List Char
  | [] => []
  | [c] => if c = '`' then ['\\', '`'] else [c]
  | c :: d :: rest =>
    if c = '\\' then c :: d :: templateRawChars rest
    else if c = '`' || c = '$' && d = '{' then '\\' :: c :: templateRawChars (d :: rest)
    else c :: templateRawChars (d :: rest)

/-- The template text of a string literal, whose first and last characters are
its quotes. -/
def templateRaw (literal : String) : String :=
  String.ofList (templateRawChars (unquote literal).toList)

end Restyle.Text

/-! ## Lines and columns -/

namespace Restyle

/-- A line and a column, both counted from one. -/
structure Location where
  line : Nat
  column : Nat
deriving DecidableEq, Repr

namespace Location

def origin : Location :=
  ⟨1, 1⟩

def after (location : Location) (c : Char) : Location :=
  if c = '\n' then ⟨location.line + 1, 1⟩ else ⟨location.line, location.column + 1⟩

/-- The location some characters further on in a text.  Beyond its end only the
column goes on. -/
def advance (location : Location) : List Char → Nat → Location
  | _, 0 => location
  | [], count + 1 => ⟨location.line, location.column + count + 1⟩
  | c :: rest, count + 1 => advance (location.after c) rest count

def ofOffset (source : String) (offset : Nat) : Location :=
  advance origin source.toList offset

/-- The location as `line:column`. -/
def render (location : Location) : String :=
  s!"{location.line}:{location.column}"

/-- The line that holds an offset, and below it a caret under a column. -/
def excerpt (source : String) (offset : Nat) (location : Location) : String :=
  let line := Text.cut source (Text.lineStart source offset) (Text.lineStop source offset)
  let indent := String.ofList (List.replicate (location.column - 1) ' ')
  s!"Context: {line}\n         {indent}^"

end Location

/-! ## Edits -/

/-- The replacement of the text between two offsets. -/
structure Edit where
  start : Int
  stop : Int
  replacement : String
deriving DecidableEq, Repr

namespace Edit

/-- An offset of a text of some length, counted from the end if negative. -/
def clamp (length : Nat) (offset : Int) : Nat :=
  if offset < 0 then (offset + length).toNat else min offset.toNat length

def piece (text : String) (start stop : Int) : String :=
  Text.cut text (clamp text.length start) (clamp text.length stop)

/-- Whether an edit comes before another one or at the same place. -/
def comesBefore (left right : Edit) : Bool :=
  left.start < right.start || left.start = right.start && left.stop ≤ right.stop

/-- The text from a cursor on with some edits applied, in their order. -/
def applyFrom (text : String) (offset cursor : Int) : List Edit → String
  | [] => piece text cursor text.length
  | edit :: rest =>
    piece text cursor (edit.start - offset) ++ edit.replacement ++
      applyFrom text offset (edit.stop - offset) rest

/-- The text with some edits applied, in the order of their places.  The text
begins at an offset of the one that the edits refer to. -/
def applyAll (text : String) (edits : List Edit) (offset : Int) : String :=
  applyFrom text offset 0 (edits.mergeSort comesBefore)

end Edit

end Restyle
