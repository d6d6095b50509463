import Restyle.Text

/-!
Contract: dates, and dates with a time of day.

Owns: `Moment`, its reading from a text, its place in the calendar, and the two
ways it is shown.

A date alone has two digits for its month and its day; before a time of day one
is enough.  The time may have a fraction of a second and a zone.
-/

namespace Restyle

/-- A time of day: down to the millionth of a second, and in a zone the minutes
by which it is ahead. -/
structure Moment.Clock where
  hour : Nat
  minute : Nat
  second : Nat
  micro : Nat
  zone : Option Int
deriving DecidableEq, Repr

/-- A date, and perhaps a time of day. -/
structure Moment where
  year : Nat
  month : Nat
  day : Nat
  clock : Option Moment.Clock
deriving DecidableEq, Repr

namespace Moment

/-! ## The calendar -/

def isLeap (year : Nat) : Bool :=
  (year % 4 = 0 && year % 100 ≠ 0) || year % 400 = 0

def daysIn (year month : Nat) : Nat :=
  if month = 2 then (if isLeap year then 29 else 28)
  else if [4, 6, 9, 11].contains month then 30
  else 31

/-- Whether there is such a time of day.  A zone is less than a day ahead or
behind. -/
def Clock.isReal (clock : Clock) : Bool :=
  clock.hour < 24 && clock.minute < 60 && clock.second < 60 &&
    clock.zone.all fun minutes => minutes.natAbs < 24 * 60

/-- Whether the calendar has such a moment.  It begins with the year one. -/
def isReal (moment : Moment) : Bool :=
  1 ≤ moment.year && 1 ≤ moment.month && moment.month ≤ 12 && 1 ≤ moment.day &&
    moment.day ≤ daysIn moment.year moment.month && moment.clock.all Clock.isReal

/-! ## Reading -/

/-- A number of at least and at most so many digits, and what follows it. -/
def number? (least most : Nat) (text : List Char) : Option (Nat × List Char) :=
  let digits := text.takeWhile Char.isDigit
  if least ≤ digits.length && digits.length ≤ most then
    some (Text.natOf digits, text.drop digits.length)
  else none

def numberAfter? (mark : Char) (least most : Nat) : List Char → Option (Nat × List Char)
  | c :: rest => if c = mark then number? least most rest else none
  | [] => none

def isGap (c : Char) : Bool :=
  c = ' ' || c = '\t'

def microOf (digits : List Char) : Nat :=
  Text.natOf ((digits ++ List.replicate 6 '0').take 6)

def zone? : List Char → Option Int
  | ['Z'] => some 0
  | sign :: rest => do
    guard (sign = '+' || sign = '-')
    let (hours, rest) ← number? 1 2 rest
    let (minutes, rest) ← if rest.isEmpty then some (0, []) else numberAfter? ':' 2 2 rest
    guard rest.isEmpty
    let ahead : Int := (hours * 60 + minutes : Nat)
    return if sign = '-' then -ahead else ahead
  | [] => none

def clock? (text : List Char) : Option Clock := do
  let (hour, rest) ← number? 1 2 text
  let (minute, rest) ← numberAfter? ':' 2 2 rest
  let (second, rest) ← numberAfter? ':' 2 2 rest
  let digits := if rest.head? = some '.' then (rest.drop 1).takeWhile Char.isDigit else []
  let rest := if rest.head? = some '.' then rest.drop (1 + digits.length) else rest
  let zone ← if rest.isEmpty then some none else (zone? (rest.dropWhile isGap)).map some
  return ⟨hour, minute, second, microOf digits, zone⟩

/-- The moment that a text spells, whether or not the calendar has it. -/
def ofChars? (text : List Char) : Option Moment := do
  let (year, rest) ← number? 4 4 text
  let (month, afterMonth) ← numberAfter? '-' 1 2 rest
  let (day, afterDay) ← numberAfter? '-' 1 2 afterMonth
  match afterDay with
  | [] =>
    guard (text.length = 10)
    return ⟨year, month, day, none⟩
  | c :: rest =>
    guard (c = 'T' || c = 't' || isGap c)
    let clock ← clock? (if isGap c then rest.dropWhile isGap else rest)
    return ⟨year, month, day, some clock⟩

/-! ## Showing -/

def padded (width number : Nat) : String :=
  let digits := Nat.toDigits 10 number
  String.ofList (List.replicate (width - digits.length) '0' ++ digits)

def renderZone (minutes : Int) : String :=
  let size := minutes.natAbs
  (if minutes < 0 then "-" else "+") ++ padded 2 (size / 60) ++ ":" ++ padded 2 (size % 60)

def Clock.render (clock : Clock) : String :=
  let seconds := s!"{padded 2 clock.hour}:{padded 2 clock.minute}:{padded 2 clock.second}"
  let fraction := if clock.micro = 0 then "" else "." ++ padded 6 clock.micro
  seconds ++ fraction ++ (clock.zone.map renderZone).getD ""

def render (moment : Moment) : String :=
  let date := s!"{padded 4 moment.year}-{padded 2 moment.month}-{padded 2 moment.day}"
  match moment.clock with
  | none => date
  | some clock => date ++ " " ++ clock.render

/-- A zone as it stands in a quoted moment, where a part of a day counts
forwards from its beginning. -/
def quoteZone (minutes : Int) : String :=
  if minutes = 0 then "datetime.timezone.utc"
  else
    let days := if minutes < 0 then "days=-1, " else ""
    let seconds := padded 1 (60 * (minutes % (24 * 60)).toNat)
    s!"datetime.timezone(datetime.timedelta({days}seconds={seconds}))"

/-- The numbers of a time of day, without a millionth or second of zero at the
end. -/
def Clock.numbers (clock : Clock) : List Nat :=
  if clock.micro ≠ 0 then [clock.hour, clock.minute, clock.second, clock.micro]
  else if clock.second ≠ 0 then [clock.hour, clock.minute, clock.second]
  else [clock.hour, clock.minute]

def quote (moment : Moment) : String :=
  let listed (numbers : List Nat) := ", ".intercalate (numbers.map (padded 1))
  let date := [moment.year, moment.month, moment.day]
  match moment.clock with
  | none => s!"datetime.date({listed date})"
  | some clock =>
    let zone := (clock.zone.map fun minutes => ", tzinfo=" ++ quoteZone minutes).getD ""
    s!"datetime.datetime({listed (date ++ clock.numbers)}{zone})"

end Moment

end Restyle
