import Restyle.Binary
import Restyle.Moment
import Restyle.Text
import Restyle.Text.Printable

/-!
Contract: the dynamic values that manifests and settings are written in.

Owns: the value type, look-up and replacement by key, truth of a value, and
`Value.Key`, what a value is as the key of a mapping; `Value.quote`, the
spelling of a value inside another one in messages, and `Value.display`, which
differs from it for a text, shown on its own without quotes, and for a moment.

Does not own: reading values from text (`Value.Json`, `Yaml`).
-/

namespace Restyle

/-- A value of a data format.  A mapping keeps its entries in the order of
their first appearance. -/
inductive Value where
  | null
  | bool (value : Bool)
  | integer (value : Int)
  | real (value : Binary)
  | moment (value : Moment)
  | text (value : String)
  | list (items : List Value)
  | mapping (entries : List (Value × Value))

namespace Value

/-- What a value is as the key of a mapping. -/
inductive Key where
  | null
  | whole (value : Int)
  | real (value : Binary)
  | moment (value : Moment)
  | text (value : String)
deriving DecidableEq, Repr

/-- The key that a value is; lists and mappings are none.  A truth value is the
key of its number, one or zero, and a whole number is the same key in all its
types. -/
def key? : Value → Option Key
  | .null => some .null
  | .bool value => some (.whole (if value then 1 else 0))
  | .integer value => some (.whole value)
  | .real value => some (value.whole?.elim (.real value) .whole)
  | .moment value => some (.moment value)
  | .text value => some (.text value)
  | .list _ | .mapping _ => none

def isKey (value : Value) : Bool :=
  value.key?.isSome

def sameKey (left right : Value) : Bool :=
  left.key?.any fun key => right.key? = some key

def whole? : Value → Option Int
  | .integer value => some value
  | .real value => value.whole?
  | _ => none

/-- Whether a value counts as true: everything but null, false, zero and the
empty text, list and mapping. -/
def isTrue : Value → Bool
  | .null => false
  | .bool value => value
  | .integer value => value ≠ 0
  | .real value => value.whole? ≠ some 0
  | .moment _ => true
  | .text value => value ≠ ""
  | .list items => !items.isEmpty
  | .mapping entries => !entries.isEmpty

def find? (key : Value) (entries : List (Value × Value)) : Option Value :=
  (entries.find? fun entry => entry.1.sameKey key).map (·.2)

/-- The entries with a key set: a known key keeps its place and spelling and
takes the new value, a new key comes last. -/
def put (key value : Value) : List (Value × Value) → List (Value × Value)
  | [] => [(key, value)]
  | entry :: rest =>
    if entry.1.sameKey key then (entry.1, value) :: rest else entry :: put key value rest

/-- The value at a text key; `none` if there is none or the value is no mapping. -/
def get? (value : Value) (key : String) : Option Value :=
  match value with
  | .mapping entries => find? (.text key) entries
  | _ => none

def text? : Value → Option String
  | .text value => some value
  | _ => none

def integer? : Value → Option Int
  | .integer value => some value
  | _ => none

def list? : Value → Option (List Value)
  | .list items => some items
  | _ => none

end Value

end Restyle

/-! ## In messages -/

namespace Restyle.Value

open Restyle.Text

def escapeChar (c : Char) : String :=
  if c.toNat ≤ 0xff then "\\x" ++ hex 2 c.toNat
  else if c.toNat ≤ 0xffff then "\\u" ++ hex 4 c.toNat
  else "\\U" ++ hex 8 c.toNat

def quoteChar (quote c : Char) : String :=
  if c = quote || c = '\\' then String.ofList ['\\', c]
  else if c = '\n' then "\\n"
  else if c = '\r' then "\\r"
  else if c = '\t' then "\\t"
  else if isPrintable c then String.singleton c
  else escapeChar c

/-- A text in quotes: single ones, unless it holds single quotes and no double
ones. -/
def quoteText (text : String) : String :=
  let quote := if text.toList.contains '\'' && !text.toList.contains '"' then '"' else '\''
  String.singleton quote ++ String.join (text.toList.map (quoteChar quote)) ++
    String.singleton quote

mutual

def quote : Value → String
  | .null => "None"
  | .bool value => if value then "True" else "False"
  | .integer value => decimal value
  | .real value => value.render
  | .moment value => value.quote
  | .text value => quoteText value
  | .list items => "[" ++ ", ".intercalate (quoteItems items) ++ "]"
  | .mapping entries => "\x7b" ++ ", ".intercalate (quoteEntries entries) ++ "\x7d"

def quoteItems : List Value → List String
  | [] => []
  | item :: rest => quote item :: quoteItems rest

def quoteEntries : List (Value × Value) → List String
  | [] => []
  | (key, value) :: rest => (quote key ++ ": " ++ quote value) :: quoteEntries rest

end

def display : Value → String
  | .text value => value
  | .moment value => value.render
  | value => quote value

end Restyle.Value
