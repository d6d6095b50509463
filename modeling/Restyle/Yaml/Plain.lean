import Restyle.Split
import Restyle.Text
import Restyle.Value
import Restyle.Yaml.Token

/-!
Contract: the values that plain scalars denote.

Owns: `Yaml.plainValue`.

A plain scalar is one of a few words, or it is written like a number or like a
moment; all others are texts.  Integers are binary, octal, decimal, hexadecimal
or in sixtieths, and digits may be grouped by underscores.
-/

namespace Restyle.Yaml

/-- The words that are no texts. -/
def words : List (String × Value) :=
  let both (value : Value) (spellings : List String) := spellings.map (·, value)
  both .null ["", "~", "null", "Null", "NULL"] ++
    both (.bool true) ["yes", "Yes", "YES", "true", "True", "TRUE", "on", "On", "ON"] ++
    both (.bool false) ["no", "No", "NO", "false", "False", "FALSE", "off", "Off", "OFF"] ++
    both (.real (.infinite false)) [".inf", ".Inf", ".INF", "+.inf", "+.Inf", "+.INF"] ++
    both (.real (.infinite true)) ["-.inf", "-.Inf", "-.INF"] ++
    both (.real .undefined) [".nan", ".NaN", ".NAN"]

/-- The mark of a key whose value is merged into its mapping. -/
def mergeWord : String :=
  "<<"

/-- The words that have a meaning of their own but denote no value. -/
def reservedWords : List String :=
  ["=", mergeWord]

/-! ## Integers -/

/-- Whether a character is a digit in a base, or groups digits. -/
def isDigitIn (base : Nat) (c : Char) : Bool :=
  c = '_' || (Text.hexValue? c).any (· < base)

/-- The number of digits in a base.  Not all of them may be underscores, and in
base ten there may not be too many. -/
def digitsIn (base : Nat) (digits : List Char) : Except ScalarFault Nat :=
  let digits := digits.filter (· ≠ '_')
  if digits.isEmpty || (base = 10 && Text.digitLimit < digits.length) then .error .noNumber
  else .ok (digits.foldl (fun value c => value * base + (Text.hexValue? c).getD 0) 0)

/-- Whether a text spells sixtieths of what stands before it. -/
def isSixtieth (part : List Char) : Bool :=
  part.all Char.isDigit &&
    (part.length = 1 || part.length = 2 && part.head?.any fun c => c ≤ '5')

/-- A number of sixtieths, in parts of which the first is the greatest. -/
def sixtieths (first : List Char) (others : List (List Char)) : Except ScalarFault Nat := do
  let value ← digitsIn 10 first
  return others.foldl (fun total part => total * 60 + Text.natOf part) value

/-- The number that a text without a sign is written like, if it is like one. -/
def unsigned? (text : List Char) : Option (Except ScalarFault Nat) :=
  let like (base : Nat) (digits : List Char) : Option (Except ScalarFault Nat) :=
    if !digits.isEmpty && digits.all (isDigitIn base) then some (digitsIn base digits) else none
  match text with
  | ['0'] => some (.ok 0)
  | '0' :: 'b' :: digits => like 2 digits
  | '0' :: 'x' :: digits => like 16 digits
  | '0' :: _ => like 8 text
  | '_' :: _ => none
  | _ =>
    match splitWhere (· = ':') text with
    | [digits] => like 10 digits
    | first :: others =>
      if !first.isEmpty && first.all (isDigitIn 10) && others.all isSixtieth then
        some (sixtieths first others)
      else none
    | [] => none

def cutSign (text : List Char) : Bool × List Char :=
  match text with
  | '-' :: rest => (true, rest)
  | '+' :: rest => (false, rest)
  | _ => (false, text)

/-- The integer that a text is written like, if it is like one. -/
def integer? (text : List Char) : Option (Except ScalarFault Int) :=
  let (isNegative, digits) := cutSign text
  (unsigned? digits).map fun value =>
    value.map fun size => if isNegative then -(size : Int) else size

/-! ## Reals -/

/-- Whether a text is digits, of which the first is no underscore. -/
def startsDigits (text : List Char) : Bool :=
  text.head?.any Char.isDigit && text.all (isDigitIn 10)

/-- The exponent that fills a text, zero for the empty one.  It has a sign. -/
def power? (text : List Char) : Option Int :=
  match text with
  | [] => some 0
  | mark :: sign :: digits =>
    if (mark = 'e' || mark = 'E') && (sign = '+' || sign = '-') && !digits.isEmpty &&
        digits.all Char.isDigit then
      let size : Int := Text.natOf digits
      some (if sign = '-' then -size else size)
    else none
  | _ => none

/-- The double of digits before and after a point, underscores left out. -/
def doubleOf (whole fraction : List Char) (power : Int) : Binary :=
  .ofDigits false (whole.filter (· ≠ '_')) (fraction.filter (· ≠ '_')) power

/-- The double nearest to a sum of doubles, each times a whole number. -/
def addTimes (total : Binary) (factor : Nat) (part : Binary) : Binary :=
  match total.fraction?, part.fraction? with
  | some (a, b), some (c, d) =>
    match (Binary.ofFraction false (c * factor) d).fraction? with
    | some (c, d) => .ofFraction false (a * d + c * b) (b * d)
    | none => .infinite false
  | _, _ => .infinite false

/-- The double of sixtieths, in parts of which the last is the least. -/
def sixtiethsReal (parts : List Binary) : Binary :=
  (parts.reverse.foldl
    (fun (total, factor) part => (addTimes total factor part, factor * 60))
    (Binary.zero false, 1)).1

/-- The real number that a text without a sign spells: digits and a point, with
more digits after it and an exponent, or in sixtieths without one. -/
def unsignedReal? (text : List Char) : Option Binary := do
  let whole := text.takeWhile (· ≠ '.')
  let rest := text.drop whole.length
  guard (rest.head? = some '.')
  let fraction := (rest.drop 1).takeWhile (isDigitIn 10)
  let power ← power? (rest.drop (1 + fraction.length))
  match splitWhere (· = ':') whole with
  | [digits] =>
    guard (startsDigits digits)
    return doubleOf digits fraction power
  | first :: others =>
    guard (startsDigits first && others.all isSixtieth)
    guard (rest.length = 1 + fraction.length)
    let last := others.getLastD []
    return sixtiethsReal
      ((first :: others.dropLast).map (doubleOf · [] 0) ++ [doubleOf last fraction 0])
  | [] => none

/-- The real number that a text spells.  Without digits before the point it has
no sign. -/
def real? (text : List Char) : Option Binary :=
  match text with
  | '.' :: rest => do
    let fraction := rest.takeWhile (isDigitIn 10)
    let power ← power? (rest.drop fraction.length)
    guard (startsDigits fraction)
    return doubleOf [] fraction power
  | _ =>
    let (isNegative, digits) := cutSign text
    (unsignedReal? digits).map fun number => if isNegative then number.negate else number

/-! ## Values -/

def plainValue (text : String) : Reading Value :=
  if reservedWords.contains text then malformed
  else
    let chars := text.toList
    match words.lookup text, real? chars, integer? chars, Moment.ofChars? chars with
    | some value, _, _, _ => return value
    | none, some number, _, _ => return .real number
    | none, none, some (.ok number), _ => return .integer number
    | none, none, some (.error fault), _ => .error (.scalar fault)
    | none, none, none, some moment =>
      if moment.isReal then return .moment moment else .error (.scalar .noMoment)
    | none, none, none, none => return .text text

end Restyle.Yaml
