import Restyle.Text
import Restyle.Value

/-!
Contract: reading a value from JSON text.

Owns: `Value.ofJson?`.

Of two equal keys the later value wins and the earlier place is kept.  The
words `NaN` and `Infinity` are numbers.  Escapes of a surrogate pair give one
character; half a pair gives the replacement character.
-/

namespace Restyle.Value

namespace Json

/-- Blanks between the parts of a JSON text. -/
def isBlank (c : Char) : Bool :=
  c = ' ' || c = '\t' || c = '\n' || c = '\r'

def skipBlanks (input : List Char) : List Char :=
  input.dropWhile isBlank

def unit? : List Char → Option (Nat × List Char)
  | a :: b :: c :: d :: rest => do
    let a ← Text.hexValue? a
    let b ← Text.hexValue? b
    let c ← Text.hexValue? c
    let d ← Text.hexValue? d
    some (((a * 16 + b) * 16 + c) * 16 + d, rest)
  | _ => none

def shortEscape? : Char → Option Char
  | '"' => some '"'
  | '\\' => some '\\'
  | '/' => some '/'
  | 'b' => some '\x08'
  | 'f' => some '\x0c'
  | 'n' => some '\n'
  | 'r' => some '\r'
  | 't' => some '\t'
  | _ => none

/-- The second half of a surrogate pair, written as an escape. -/
def lowHalf? (input : List Char) : Option (Nat × List Char) :=
  match input with
  | '\\' :: 'u' :: rest => do
    let (low, rest) ← unit? rest
    if 0xdc00 ≤ low && low ≤ 0xdfff then some (low, rest) else none
  | _ => none

/-- The character of a code unit, taking the other half of a pair from the
text that follows. -/
def unitChar (unit : Nat) (rest : List Char) : Char × List Char :=
  if 0xd800 ≤ unit && unit ≤ 0xdfff then
    match if unit ≤ 0xdbff then lowHalf? rest else none with
    | some (low, rest) => (Char.ofNat (0x10000 + (unit - 0xd800) * 0x400 + (low - 0xdc00)), rest)
    | none => ('\ufffd', rest)
  else (Char.ofNat unit, rest)

/-- The characters of a string after its opening quote, and what follows it. -/
def string? : Nat → List Char → Option (List Char × List Char)
  | 0, _ => none
  | fuel + 1, input =>
    match input with
    | [] => none
    | '"' :: rest => some ([], rest)
    | '\\' :: 'u' :: rest => do
      let (unit, rest) ← unit? rest
      let (c, rest) := unitChar unit rest
      let (chars, rest) ← string? fuel rest
      some (c :: chars, rest)
    | '\\' :: mark :: rest => do
      let c ← shortEscape? mark
      let (chars, rest) ← string? fuel rest
      some (c :: chars, rest)
    | c :: rest =>
      if c.toNat < 0x20 || c = '\\' then none
      else do
        let (chars, rest) ← string? fuel rest
        some (c :: chars, rest)

/-- The length of an exponent at the head of a text, and its value. -/
def exponent (input : List Char) : Nat × Int :=
  match input with
  | mark :: rest =>
    let signed := rest.head?.any fun c => c = '+' || c = '-'
    let digits := (if signed then rest.drop 1 else rest).takeWhile Char.isDigit
    if (mark = 'e' || mark = 'E') && !digits.isEmpty then
      let size : Int := Text.natOf digits
      (1 + (if signed then 1 else 0) + digits.length,
        if rest.head? = some '-' then -size else size)
    else (0, 0)
  | [] => (0, 0)

/-- An unsigned number: an integer without needless zeros, of which there may
not be too many digits, or a real. -/
def number? (isNegative : Bool) (input : List Char) : Option (Value × List Char) :=
  let digits := input.takeWhile Char.isDigit
  let whole := if digits.head? = some '0' then ['0'] else digits
  if whole.isEmpty then none
  else
    let rest := input.drop whole.length
    let fraction := if rest.head? = some '.' then (rest.drop 1).takeWhile Char.isDigit else []
    let afterFraction := if fraction.isEmpty then rest else rest.drop (1 + fraction.length)
    let (length, power) := exponent afterFraction
    if !fraction.isEmpty || length ≠ 0 then
      some (.real (.ofDigits isNegative whole fraction power), afterFraction.drop length)
    else if Text.digitLimit < whole.length then none
    else
      let size : Int := Text.natOf whole
      some (.integer (if isNegative then -size else size), rest)

def words : List (String × Value) :=
  [("true", .bool true), ("false", .bool false), ("null", .null), ("NaN", .real .undefined),
    ("Infinity", .real (.infinite false)), ("-Infinity", .real (.infinite true))]

def atom? (input : List Char) : Option (Value × List Char) :=
  match words.find? fun word => word.1.toList.isPrefixOf input with
  | some (word, value) => some (value, input.drop word.length)
  | none =>
    match input with
    | '-' :: rest => number? true rest
    | _ => number? false input

mutual

/-- A value and what follows it.  The fuel bounds the number of characters. -/
def value? : Nat → List Char → Option (Value × List Char)
  | 0, _ => none
  | fuel + 1, input =>
    match input with
    | '"' :: rest =>
      (string? fuel rest).map fun (chars, rest) => (.text (String.ofList chars), rest)
    | '[' :: rest =>
      match skipBlanks rest with
      | ']' :: rest => some (.list [], rest)
      | rest => (items? fuel rest).map fun (items, rest) => (.list items, rest)
    | '\x7b' :: rest =>
      match skipBlanks rest with
      | '\x7d' :: rest => some (.mapping [], rest)
      | rest => (members? fuel [] rest).map fun (entries, rest) => (.mapping entries, rest)
    | _ => atom? input

def items? : Nat → List Char → Option (List Value × List Char)
  | 0, _ => none
  | fuel + 1, input => do
    let (item, rest) ← value? fuel (skipBlanks input)
    match skipBlanks rest with
    | ',' :: rest => do
      let (items, rest) ← items? fuel rest
      some (item :: items, rest)
    | ']' :: rest => some ([item], rest)
    | _ => none

def members? : Nat → List (Value × Value) → List Char → Option (List (Value × Value) × List Char)
  | 0, _, _ => none
  | fuel + 1, entries, input =>
    match skipBlanks input with
    | '"' :: rest => do
      let (key, rest) ← string? fuel rest
      match skipBlanks rest with
      | ':' :: rest => do
        let (value, rest) ← value? fuel (skipBlanks rest)
        let entries := put (.text (String.ofList key)) value entries
        match skipBlanks rest with
        | ',' :: rest => members? fuel entries rest
        | '\x7d' :: rest => some (entries, rest)
        | _ => none
      | _ => none
    | _ => none

end

end Json

/-- The value that a JSON text denotes, `none` if it denotes none. -/
def ofJson? (text : String) : Option Value :=
  let input := text.toList
  match Json.value? (input.length + 1) (Json.skipBlanks input) with
  | some (value, rest) => if (Json.skipBlanks rest).isEmpty then some value else none
  | none => none

end Restyle.Value
