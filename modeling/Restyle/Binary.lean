import Restyle.Text

/-!
Contract: numbers of double precision, and their spelling.

Owns: `Binary`, the double nearest to a fraction or to a decimal, and the whole
number that a double is; `Binary.shortest`, the fewest decimal digits that name
a double, and `Binary.render`.

A finite double is a significand times a power of two.  Its significand has 53
bits, or fewer at the least exponent.  Of two doubles equally near, the one with
the even significand is taken.

Of all decimals that a double is nearest to, those with the fewest digits are
taken, and of these the nearest one.  The point is written where it stands if
the leading digit is worth less than 10^16 and no less than 10^-4; otherwise an
exponent of at least two digits is written.
-/

namespace Restyle

/-- A number of double precision: a significand times a power of two, an
infinity, or the result of an undefined operation. -/
inductive Binary where
  | finite (isNegative : Bool) (significand : Nat) (exponent : Int)
  | infinite (isNegative : Bool)
  | undefined
deriving DecidableEq, Repr

namespace Binary

def leastExponent : Int :=
  -1074

def greatestExponent : Int :=
  971

/-- All significands are below this power of two. -/
def significandBound : Nat :=
  Nat.pow 2 53

def zero (isNegative : Bool) : Binary :=
  .finite isNegative 0 leastExponent

/-- A quotient rounded to the nearest whole number, a half to the even one. -/
def roundQuotient (numerator denominator : Nat) : Nat :=
  let quotient := numerator / denominator
  let twice := 2 * (numerator % denominator)
  if twice < denominator || (twice = denominator && quotient % 2 = 0) then quotient
  else quotient + 1

def scale (base numerator denominator : Nat) (exponent : Int) : Nat × Nat :=
  (numerator * Nat.pow base exponent.toNat, denominator * Nat.pow base (-exponent).toNat)

/-- The exponent at which the significand of a fraction has 53 bits, unless it
is below the least one. -/
def exponentOf (numerator denominator : Nat) : Int :=
  let low : Int := numerator.log2 - denominator.log2 - 53
  let (scaled, unit) := scale 2 numerator denominator (-low)
  max leastExponent (if significandBound ≤ scaled / unit then low + 1 else low)

def ofFraction (isNegative : Bool) (numerator denominator : Nat) : Binary :=
  if numerator = 0 then zero isNegative
  else
    let exponent := exponentOf numerator denominator
    let (scaled, unit) := scale 2 numerator denominator (-exponent)
    let rounded := roundQuotient scaled unit
    let (significand, exponent) :=
      if rounded = significandBound then (significandBound / 2, exponent + 1)
      else (rounded, exponent)
    if greatestExponent < exponent then .infinite isNegative
    else .finite isNegative significand exponent

def decimalSize (digits : Nat) : Nat :=
  (Nat.toDigits 10 digits).length

/-- The double nearest to digits times a power of ten.  Powers far beyond all
doubles are not computed. -/
def ofDecimal (isNegative : Bool) (digits : Nat) (exponent : Int) : Binary :=
  let magnitude := decimalSize digits + exponent
  if digits = 0 || magnitude < -400 then zero isNegative
  else if 400 < magnitude then .infinite isNegative
  else
    let (numerator, denominator) := scale 10 digits 1 exponent
    ofFraction isNegative numerator denominator

def ofDigits (isNegative : Bool) (whole fraction : List Char) (exponent : Int) : Binary :=
  ofDecimal isNegative (Text.natOf (whole ++ fraction)) (exponent - fraction.length)

def fraction? : Binary → Option (Nat × Nat)
  | .finite _ significand exponent => some (scale 2 significand 1 exponent)
  | _ => none

def whole? : Binary → Option Int
  | .finite isNegative significand exponent =>
    let (numerator, unit) := scale 2 significand 1 exponent
    if numerator % unit = 0 then
      let size : Int := (numerator / unit : Nat)
      some (if isNegative then -size else size)
    else none
  | _ => none

def negate : Binary → Binary
  | .finite isNegative significand exponent => .finite (!isNegative) significand exponent
  | .infinite isNegative => .infinite !isNegative
  | .undefined => .undefined

/-! ## Spelling -/

/-- The power of ten just above a fraction: the least one that is greater.  No
double but zero is as small as 10^-400. -/
def placeAbove (numerator denominator : Nat) : Int :=
  let (scaled, unit) := scale 10 numerator denominator 400
  decimalSize (scaled / unit) - 400

/-- The two neighbours of a fraction among the multiples of a power of ten, by
their smaller factor, and which is nearer. -/
def neighbours (numerator denominator : Nat) (exponent : Int) : Nat × Ordering :=
  let (scaled, unit) := scale 10 numerator denominator (-exponent)
  let lower := scaled / unit
  (lower, compare (2 * (scaled % unit)) unit)

/-- Of two neighbours that name a double the nearer one, and at the same
distance the even one. -/
def choose (lower : Nat) (order : Ordering) (namesLower namesUpper : Bool) : Option Nat :=
  match namesLower, namesUpper with
  | false, false => none
  | true, false => some lower
  | false, true => some (lower + 1)
  | true, true =>
    match order with
    | .lt => some lower
    | .gt => some (lower + 1)
    | .eq => some (if lower % 2 = 0 then lower else lower + 1)

/-- The decimal with a given exponent that names a positive double, if there is
one. -/
def decimalAt? (number : Binary) (numerator denominator : Nat) (exponent : Int) :
    Option (Nat × Int) :=
  let (lower, order) := neighbours numerator denominator exponent
  let names (digits : Nat) : Bool := ofDecimal false digits exponent = number
  (choose lower order (names lower) (names (lower + 1))).map (·, exponent)

/-- The shortest digits of a positive fraction that name its double, and their
exponent.  Seventeen digits always do. -/
def shortest (number : Binary) (numerator denominator : Nat) : Nat × Int :=
  let place := placeAbove numerator denominator
  let found := (List.range 17).findSome? fun (index : Nat) =>
    decimalAt? number numerator denominator (place - index - 1)
  found.getD ((neighbours numerator denominator (place - 17)).1, place - 17)

def dropZeros (digits : List Char) : List Char :=
  (digits.reverse.dropWhile (· = '0')).reverse

def zeros (count : Int) : List Char :=
  List.replicate count.toNat '0'

/-- An exponent with its sign and at least two digits. -/
def renderExponent (exponent : Int) : List Char :=
  let digits := Nat.toDigits 10 exponent.natAbs
  (if exponent < 0 then '-' else '+') :: (zeros (2 - digits.length) ++ digits)

/-- Digits with a point after the first `place` of them, or with an exponent. -/
def layOut (digits : List Char) (place : Int) : List Char :=
  let size : Int := digits.length
  if -4 < place && place ≤ 16 then
    if place ≤ 0 then '0' :: '.' :: (zeros (-place) ++ digits)
    else if size ≤ place then digits ++ zeros (place - size) ++ ['.', '0']
    else digits.take place.toNat ++ '.' :: digits.drop place.toNat
  else
    let others := digits.drop 1
    let fraction := if others.isEmpty then [] else '.' :: others
    digits.take 1 ++ fraction ++ 'e' :: renderExponent (place - 1)

def renderSize (significand : Nat) (exponent : Int) : List Char :=
  if significand = 0 then ['0', '.', '0']
  else
    let (numerator, denominator) := scale 2 significand 1 exponent
    let (digits, exponent) :=
      shortest (.finite false significand exponent) numerator denominator
    let spelled := Nat.toDigits 10 digits
    layOut (dropZeros spelled) (spelled.length + exponent)

def render : Binary → String
  | .finite isNegative significand exponent =>
    String.ofList ((if isNegative then ['-'] else []) ++ renderSize significand exponent)
  | .infinite isNegative => if isNegative then "-inf" else "inf"
  | .undefined => "nan"

end Binary

end Restyle
