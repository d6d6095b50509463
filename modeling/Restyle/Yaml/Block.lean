import Restyle.Yaml.Token

/-!
Contract: scalars in blocks of a YAML text.

Owns: `Yaml.blockScalar`, the scalar after its mark.

The lines of a block are those indented by at least its margin, which its header
gives or its first line shows.  Literal blocks keep their line ends; folded ones
turn the line end between two lines that begin with no blank into a space, or
leave it out before blank lines.  What becomes of the line ends after the last
line is up to the header.
-/

namespace Restyle.Yaml

/-- What becomes of the line ends after the last line: one is kept, none, or
all. -/
inductive Chomping where
  | clip
  | strip
  | keep
deriving DecidableEq, Repr

/-- The header of a block: its chomping, and how far it is indented if that is
given. -/
structure Header where
  chomping : Chomping
  increment : Option Nat
deriving DecidableEq, Repr

def chomping? : Char → Option Chomping
  | '+' => some .keep
  | '-' => some .strip
  | _ => none

/-- A header of up to two marks in any order, and how many there are. -/
def headerOf (text : List Char) : Header × Nat :=
  let increment? (c : Option Char) : Option Nat :=
    (c.filter Char.isDigit).map fun digit => digit.toNat - 0x30
  match text.head?.bind chomping?, increment? text.head? with
  | some chomping, _ =>
    let increment := increment? (text.drop 1).head?
    (⟨chomping, increment⟩, if increment.isSome then 2 else 1)
  | none, some increment =>
    match (text.drop 1).head?.bind chomping? with
    | some chomping => (⟨chomping, some increment⟩, 2)
    | none => (⟨.clip, some increment⟩, 1)
  | none, none => (⟨.clip, none⟩, 0)

/-- The place after the rest of a header's line, which holds at most a comment
after a space. -/
def afterHeader (cursor : Cursor) : Reading Cursor :=
  if !cursor.rest.head?.all fun c => c = ' ' || isBreak c then malformed
  else
    let blank := cursor.skip (cursor.rest.takeWhile (· = ' ')).length
    let comment :=
      if blank.rest.head? = some '#' then (blank.rest.takeWhile (!isBreak ·)).length else 0
    let cursor := blank.skip comment
    if cursor.rest.head?.all isBreak then return cursor.next else malformed

/-- The place after spaces before a column. -/
def skipIndent (margin : Nat) (cursor : Cursor) : Cursor :=
  cursor.skip (min (margin - cursor.column) (cursor.rest.takeWhile (· = ' ')).length)

/-- The line ends of blank lines inside a margin, and the place after the
indentation that follows them. -/
def blockBreaks (margin : Nat) : Nat → Cursor → List Char × Cursor
  | 0, cursor => ([], cursor)
  | fuel + 1, cursor =>
    let cursor := skipIndent margin cursor
    match cursor.rest with
    | c :: _ =>
      if isBreak c then
        let (breaks, after) := blockBreaks margin fuel cursor.next
        (breakText c :: breaks, after)
      else ([], cursor)
    | [] => ([], cursor)

/-- The line ends of the blank lines before a block, the place after the spaces
that follow them, and the greatest column reached. -/
def leadingBreaks : Nat → Cursor → List Char × Cursor × Nat
  | 0, cursor => ([], cursor, 0)
  | fuel + 1, cursor =>
    let cursor := cursor.skip (cursor.rest.takeWhile (· = ' ')).length
    match cursor.rest with
    | c :: _ =>
      if isBreak c then
        let (breaks, after, column) := leadingBreaks fuel cursor.next
        (breakText c :: breaks, after, max cursor.column column)
      else ([], cursor, cursor.column)
    | [] => ([], cursor, cursor.column)

/-- The lines of a block, the line end of the last one, those of the blank lines
after it, and the place after them. -/
structure BlockLines where
  text : List Char
  lineBreak : List Char
  breaks : List Char
  cursor : Cursor

def startsLine (margin : Nat) (cursor : Cursor) : Bool :=
  cursor.column = margin && !cursor.rest.isEmpty

def startsFull (text : List Char) : Bool :=
  !text.head?.any fun c => c = ' ' || c = '\t'

/-- The lines of a block from a place on, after some blank lines. -/
def blockLines (isFolded : Bool) (margin : Nat) : Nat → List Char → Cursor → BlockLines
  | 0, breaks, cursor => ⟨[], [], breaks, cursor⟩
  | fuel + 1, breaks, cursor =>
    if startsLine margin cursor then
      let line := cursor.rest.takeWhile (!isBreak ·)
      let stop := cursor.skip line.length
      let lineBreak := (stop.rest.take 1).map breakText
      let (further, next) := blockBreaks margin (stop.rest.length + 1) stop.next
      let lead := breaks ++ line
      if startsLine margin next then
        let joint :=
          if isFolded && lineBreak = ['\n'] && startsFull line && startsFull next.rest then
            if further.isEmpty then [' '] else []
          else lineBreak
        let others := blockLines isFolded margin fuel further next
        { others with text := lead ++ joint ++ others.text }
      else ⟨lead, lineBreak, further, next⟩
    else ⟨[], [], breaks, cursor⟩

/-- The scalar in a block and the place after it.  What is inside the block
around it is indented by `outer`. -/
def blockScalar
    (isFolded : Bool)
    (outer : Nat)
    (start : Cursor) : Reading (List Char × Cursor) := do
  let (header, length) := headerOf start.rest
  if header.increment = some 0 then malformed
  let first ← afterHeader (start.skip length)
  let fuel := first.rest.length + 1
  let least := max 1 outer
  let (margin, breaks, cursor) := match header.increment with
    | some increment =>
      let margin := least + increment - 1
      (margin, blockBreaks margin fuel first)
    | none =>
      let (breaks, cursor, column) := leadingBreaks fuel first
      (max least column, breaks, cursor)
  let lines := blockLines isFolded margin fuel breaks cursor
  let ending := match header.chomping with
    | .clip => lines.lineBreak
    | .strip => []
    | .keep => lines.lineBreak ++ lines.breaks
  return (lines.text ++ ending, lines.cursor)

end Restyle.Yaml
