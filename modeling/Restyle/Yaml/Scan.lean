import Restyle.Yaml.Block
import Restyle.Yaml.Scalar

/-!
Contract: cutting a YAML text into tokens.

Owns: `Yaml.Scanner`, what is known at a place of the text, one function per
token, and `Yaml.tokensOf`.

A scalar or a flow collection may turn out to be a key only when a colon
follows it on its line.  The scanner remembers such a place for each flow
collection it is in, and puts the mark of the key there when the colon comes.

Tags and directives are not read.
-/

namespace Restyle.Yaml

/-- A place where a key may begin: the number of tokens before it, whether it
has to be one, and its offset, line and column. -/
structure PossibleKey where
  tokenCount : Nat
  isRequired : Bool
  offset : Nat
  line : Nat
  column : Nat

/-- What is known at a place of the text. -/
structure Scanner where
  cursor : Cursor
  /-- For each open block collection, innermost first, the least column of what
  is inside it. -/
  margins : List Nat
  /-- For each open flow collection, innermost first, and last for the block
  around them all, the place where a key may begin. -/
  keys : List (Option PossibleKey)
  /-- Whether a key may begin here. -/
  allowsKey : Bool
  tokens : List Token

namespace Scanner

def initial (text : List Char) : Scanner :=
  ⟨⟨text, 0, 0, 0⟩, [], [none], true, []⟩

def inFlow (scanner : Scanner) : Bool :=
  scanner.keys.length ≠ 1

/-- The least column of what is inside the innermost block collection. -/
def margin (scanner : Scanner) : Nat :=
  scanner.margins.headD 0

def emit (scanner : Scanner) (tokens : List Token) : Scanner :=
  { scanner with tokens := scanner.tokens ++ tokens }

def advance (scanner : Scanner) (count : Nat) : Scanner :=
  { scanner with cursor := scanner.cursor.skip count }

def allowKey (scanner : Scanner) (allowsKey : Bool) : Scanner :=
  { scanner with allowsKey }

/-! ## Blanks -/

/-- The place after spaces, comments and line ends.  Outside flow collections a
key may begin after a line end. -/
def skipBlanks : Nat → Scanner → Scanner
  | 0, scanner => scanner
  | fuel + 1, scanner =>
    let rest := scanner.cursor.rest
    let spaces := (rest.takeWhile (· = ' ')).length
    let comment :=
      if (rest.drop spaces).head? = some '#' then
        ((rest.drop spaces).takeWhile (!isBreak ·)).length
      else 0
    let scanner := scanner.advance (spaces + comment)
    if scanner.cursor.rest.head?.any isBreak then
      let scanner := scanner.advance 1
      skipBlanks fuel (scanner.allowKey (scanner.allowsKey || !scanner.inFlow))
    else scanner

/-! ## Possible keys -/

/-- A possible key if it may still be one at a place.  One that has to be a key
may not be given up. -/
def keepKey (cursor : Cursor) : Option PossibleKey → Reading (Option PossibleKey)
  | none => return none
  | some key =>
    if key.line = cursor.line && cursor.offset - key.offset ≤ 1024 then return some key
    else if key.isRequired then malformed
    else return none

/-- Gives up the places that are too far away to be keys. -/
def dropStaleKeys (scanner : Scanner) : Reading Scanner := do
  let keys ← scanner.keys.mapM (keepKey scanner.cursor)
  return { scanner with keys }

/-- Gives up the possible key of the innermost collection. -/
def dropKey (scanner : Scanner) : Reading Scanner :=
  match scanner.keys with
  | some key :: outer =>
    if key.isRequired then malformed else return { scanner with keys := none :: outer }
  | _ => return scanner

/-- Remembers the place as a possible key. -/
def saveKey (scanner : Scanner) : Reading Scanner :=
  if scanner.allowsKey then do
    let scanner ← scanner.dropKey
    let cursor := scanner.cursor
    let isRequired := !scanner.inFlow && scanner.margin = cursor.column + 1
    let key : PossibleKey :=
      ⟨scanner.tokens.length, isRequired, cursor.offset, cursor.line, cursor.column⟩
    return { scanner with keys := some key :: scanner.keys.tail }
  else return scanner

/-! ## Block collections -/

/-- Closes the block collections that a column lies outside of. -/
def closeBlocks (column : Nat) : List Nat → List Nat × List Token
  | [] => ([], [])
  | margin :: outer =>
    if margin > column then
      let (margins, tokens) := closeBlocks column outer
      (margins, .blockEnd :: tokens)
    else (margin :: outer, [])

/-- Closes the block collections that end before a column, given one too high.
Flow collections close none. -/
def unindent (bound : Nat) (scanner : Scanner) : Scanner :=
  if scanner.inFlow then scanner
  else
    let (margins, tokens) := closeBlocks bound scanner.margins
    ({ scanner with margins }).emit tokens

/-- Opens a block collection at a column, unless it is in one already.  Its mark
is put at a place among the tokens. -/
def indent (column place : Nat) (mark : Token) (scanner : Scanner) : Scanner :=
  if scanner.margin ≤ column then
    { scanner with
      margins := (column + 1) :: scanner.margins
      tokens := scanner.tokens.insertIdx place mark }
  else scanner

/-! ## Tokens -/

def openFlow (mark : Token) (scanner : Scanner) : Reading Scanner := do
  let scanner ← scanner.saveKey
  let scanner := { scanner with keys := none :: scanner.keys }
  return ((scanner.allowKey true).emit [mark]).advance 1

/-- The closing of a flow collection; outside of one it may not stand. -/
def closeFlow (mark : Token) (scanner : Scanner) : Reading Scanner := do
  let scanner ← scanner.dropKey
  if !scanner.inFlow then malformed
  let scanner := { scanner with keys := scanner.keys.tail }
  return ((scanner.allowKey false).emit [mark]).advance 1

def flowEntry (scanner : Scanner) : Reading Scanner := do
  let scanner ← (scanner.allowKey true).dropKey
  return (scanner.emit [.flowEntry]).advance 1

def blockEntry (scanner : Scanner) : Reading Scanner := do
  if scanner.inFlow || !scanner.allowsKey then malformed
  let scanner := scanner.indent scanner.cursor.column scanner.tokens.length .blockSequence
  let scanner ← (scanner.allowKey true).dropKey
  return (scanner.emit [.blockEntry]).advance 1

/-- A mark that stands where a key or value may: outside flow collections it
opens a block mapping. -/
def mappingMark (mark : Token) (scanner : Scanner) : Reading Scanner := do
  if !scanner.inFlow && !scanner.allowsKey then malformed
  let scanner :=
    if scanner.inFlow then scanner
    else scanner.indent scanner.cursor.column scanner.tokens.length .blockMapping
  let scanner ← (scanner.allowKey !scanner.inFlow).dropKey
  return (scanner.emit [mark]).advance 1

/-- The colon before a value.  What stands before it on the line becomes its
key. -/
def colon (scanner : Scanner) : Reading Scanner :=
  match scanner.keys with
  | some key :: outer =>
    let place := key.tokenCount
    let scanner := { scanner with
      keys := none :: outer
      tokens := scanner.tokens.insertIdx place .key }
    let scanner :=
      if scanner.inFlow then scanner else scanner.indent key.column place .blockMapping
    return ((scanner.allowKey false).emit [.value]).advance 1
  | _ => scanner.mappingMark .value

def quotedScalar (isDouble : Bool) (scanner : Scanner) : Reading Scanner := do
  let scanner ← scanner.saveKey
  let body := scanner.cursor.rest.drop 1
  let (codes, after) ← quotedFrom isDouble (body.length + 1) body
  let length := scanner.cursor.rest.length - after.length
  let text := String.ofList (textOfCodes codes)
  return ((scanner.allowKey false).emit [.scalar false text]).advance length

/-- A scalar in a block.  A key may follow it. -/
def blockText (isFolded : Bool) (scanner : Scanner) : Reading Scanner := do
  let scanner ← (scanner.allowKey true).dropKey
  let (text, cursor) ← blockScalar isFolded scanner.margin scanner.cursor.next
  return ({ scanner with cursor }).emit [.scalar false (String.ofList text)]

def isNameChar (c : Char) : Bool :=
  c.isAlphanum || c = '-' || c = '_'

/-- The mark of an anchor or of a reference to it, with its name. -/
def anchorMark (mark : String → Token) (scanner : Scanner) : Reading Scanner := do
  let scanner ← scanner.saveKey
  let body := scanner.cursor.rest.drop 1
  let name := body.takeWhile isNameChar
  let ends := (body.drop name.length).head?.all fun c =>
    isSeparator c || "?:,]\x7d%@`".toList.contains c
  if name.isEmpty || !ends then malformed
  return ((scanner.allowKey false).emit [mark (String.ofList name)]).advance (1 + name.length)

def plainScalar (scanner : Scanner) : Reading Scanner := do
  let scanner ← scanner.saveKey
  let start : Plain := ⟨[], scanner.cursor, false⟩
  let read := plainFrom scanner.inFlow scanner.margin (scanner.cursor.rest.length + 1) start
  let scanner := { scanner with cursor := read.cursor, allowsKey := read.crossesLine }
  return scanner.emit [.scalar true (String.ofList read.text)]

def startsPlain (inFlow : Bool) (text : List Char) : Bool :=
  match text with
  | [] => false
  | c :: rest =>
    if isSeparator c then false
    else if "-?:,[]\x7b\x7d#&*!|>'\"%@`".toList.contains c then
      !isSeparated rest && (c = '-' || (!inFlow && (c = '?' || c = ':')))
    else true

def documentMark (mark : Token) (scanner : Scanner) : Reading Scanner := do
  let scanner := if scanner.inFlow then scanner else
    ({ scanner with margins := [] }).emit (scanner.margins.map fun _ => .blockEnd)
  let scanner ← scanner.dropKey
  return ((scanner.allowKey false).emit [mark]).advance 3

def step (scanner : Scanner) : Reading Scanner :=
  let text := scanner.cursor.rest
  match text with
  | [] => malformed
  | c :: rest =>
    if scanner.cursor.column = 0 && isDocumentMark text then
      scanner.documentMark (if c = '-' then .documentStart else .documentEnd)
    else if c = '[' then scanner.openFlow .flowSequence
    else if c = '\x7b' then scanner.openFlow .flowMapping
    else if c = ']' then scanner.closeFlow .flowSequenceEnd
    else if c = '\x7d' then scanner.closeFlow .flowMappingEnd
    else if c = ',' then scanner.flowEntry
    else if c = '-' && isSeparated rest then scanner.blockEntry
    else if c = '?' && (scanner.inFlow || isSeparated rest) then scanner.mappingMark .key
    else if c = ':' && (scanner.inFlow || isSeparated rest) then scanner.colon
    else if c = '*' then scanner.anchorMark .reference
    else if c = '&' then scanner.anchorMark .anchor
    else if c = '|' && !scanner.inFlow then scanner.blockText false
    else if c = '>' && !scanner.inFlow then scanner.blockText true
    else if c = '\'' then scanner.quotedScalar false
    else if c = '"' then scanner.quotedScalar true
    else if startsPlain scanner.inFlow text then scanner.plainScalar
    else malformed

/-- The end of the text, which closes all block collections. -/
def finish (scanner : Scanner) : Reading (List Token) := do
  let scanner := if scanner.inFlow then scanner else
    ({ scanner with margins := [] }).emit (scanner.margins.map fun _ => .blockEnd)
  return (← scanner.dropKey).tokens

/-- The place before the next token, after the block collections that end there. -/
def settle (scanner : Scanner) : Reading Scanner := do
  let scanner := skipBlanks (scanner.cursor.rest.length + 1) scanner
  let scanner ← scanner.dropStaleKeys
  return scanner.unindent (scanner.cursor.column + 1)

/-- The tokens up to a place where the text is broken. -/
def breakOff (scanner : Scanner) (fault : Fault) : List Token :=
  scanner.tokens ++ [.broken fault]

/-- The tokens of a text, of which some have been cut.  Each token takes a
character, which bounds the fuel. -/
def run : Nat → Scanner → List Token
  | 0, scanner => scanner.breakOff .malformed
  | fuel + 1, scanner =>
    match scanner.settle with
    | .error fault => scanner.breakOff fault
    | .ok settled =>
      if settled.cursor.rest.isEmpty then
        match settled.finish with
        | .ok tokens => tokens
        | .error fault => settled.breakOff fault
      else
        match settled.step with
        | .ok next => run fuel next
        | .error fault => settled.breakOff fault

end Scanner

def tokensOf (text : String) : List Token :=
  let chars := text.toList
  if chars.all isAllowed then
    let body := if chars.head? = some '\ufeff' then chars.tail else chars
    Scanner.run (body.length + 2) (Scanner.initial body)
  else [.broken .malformed]

end Restyle.Yaml
