import Restyle.Text
import Restyle.Yaml.Token

/-!
Contract: plain and quoted scalars of a YAML text.

Owns: their reading, with the folding of line ends and the escapes.

Line ends inside a scalar fold: a single one becomes a space, and of several
all but the first are kept.

Does not own: scalars in blocks (`Yaml.Block`), and the values that plain
scalars denote (`Yaml.Plain`).
-/

namespace Restyle.Yaml

/-- Line ends after a first one, folded. -/
def foldBreaks (first : Char) (others : List Char) : List Char :=
  if breakText first ≠ '\n' then breakText first :: others
  else if others.isEmpty then [' ']
  else others

/-! ## Plain scalars -/

/-- The length of a run without separators.  A colon ends it before a separator,
and so do the marks of flow collections inside them. -/
def plainRun (inFlow : Bool) : List Char → Nat
  | [] => 0
  | c :: rest =>
    if isSeparator c then 0
    else if c = ':' && (isSeparated rest ||
        inFlow && rest.head?.any fun d => ",[]\x7b\x7d".toList.contains d) then 0
    else if inFlow && ",?[]\x7b\x7d".toList.contains c then 0
    else 1 + plainRun inFlow rest

/-- The line ends of blank lines and the indentation after them: how many
characters they take, and the line ends, `none` if a document ends there. -/
def blankLines : List Char → Nat × Option (List Char)
  | [] => (0, some [])
  | c :: rest =>
    if c = ' ' then
      let (length, breaks) := blankLines rest
      (length + 1, breaks)
    else if isBreak c then
      if isDocumentMark rest then (1, none)
      else
        let (length, breaks) := blankLines rest
        (length + 1, breaks.map (breakText c :: ·))
    else (0, some [])

/-- What stands between two runs of a plain scalar. -/
structure Gap where
  length : Nat
  /-- What it contributes if a run follows, `none` if the scalar ends here. -/
  text : Option (List Char)
  crossesLine : Bool

/-- The gap at the head of a text. -/
def gapOf (text : List Char) : Gap :=
  let spaces := text.takeWhile (· = ' ')
  match text.drop spaces.length with
  | c :: rest =>
    if isBreak c then
      if isDocumentMark rest then ⟨spaces.length + 1, none, true⟩
      else
        let (length, breaks) := blankLines rest
        ⟨spaces.length + 1 + length, breaks.map (foldBreaks c), true⟩
    else ⟨spaces.length, if spaces.isEmpty then none else some spaces, false⟩
  | [] => ⟨spaces.length, if spaces.isEmpty then none else some spaces, false⟩

/-- A plain scalar, the place after it, and whether a line was crossed since its
last run. -/
structure Plain where
  text : List Char
  cursor : Cursor
  crossesLine : Bool

/-- The runs of a plain scalar from a place on, which outside flow collections
have to be indented by `margin`.  The fuel bounds the number of runs. -/
def plainFrom (inFlow : Bool) (margin : Nat) : Nat → Plain → Plain
  | 0, sofar => sofar
  | fuel + 1, sofar =>
    let start := sofar.cursor
    let length := if start.rest.head? = some '#' then 0 else plainRun inFlow start.rest
    if length = 0 then { sofar with text := [] }
    else
      let run := start.rest.take length
      let gap := gapOf (start.rest.drop length)
      let stop := start.skip (length + gap.length)
      match gap.text with
      | none => ⟨run, stop, gap.crossesLine⟩
      | some between =>
        if stop.rest.head? = some '#' || (!inFlow && stop.column < margin) then
          ⟨run, stop, gap.crossesLine⟩
        else
          let further := plainFrom inFlow margin fuel ⟨[], stop, gap.crossesLine⟩
          if further.text.isEmpty then { further with text := run }
          else { further with text := run ++ between ++ further.text }

/-! ## Quoted scalars -/

/-- The line ends of blank lines in a quoted scalar and what follows them.  No
document may end there. -/
def quotedBreaks : Nat → List Char → Reading (List Char × List Char)
  | 0, _ => malformed
  | fuel + 1, text =>
    if isDocumentMark text then malformed
    else
      match text.dropWhile fun c => c = ' ' || c = '\t' with
      | c :: rest =>
        if isBreak c then do
          let (breaks, after) ← quotedBreaks fuel rest
          return (breakText c :: breaks, after)
        else return ([], c :: rest)
      | [] => return ([], [])

/-- The characters that short escapes stand for. -/
def escapes : List (Char × Char) :=
  [('0', '\x00'), ('a', '\x07'), ('b', '\x08'), ('t', '\t'), ('\t', '\t'), ('n', '\n'),
    ('v', '\x0b'), ('f', '\x0c'), ('r', '\r'), ('e', '\x1b'), (' ', ' '), ('"', '"'),
    ('\\', '\\'), ('/', '/'), ('N', '\x85'), ('_', '\xa0'), ('L', '\u2028'), ('P', '\u2029')]

/-- The number of hexadecimal digits after the mark of a long escape. -/
def escapeWidth? (mark : Char) : Option Nat :=
  [('x', 2), ('u', 4), ('U', 8)].lookup mark

/-- The number that hexadecimal digits spell, `none` if one is none. -/
def hexNumber? (digits : List Char) : Option Nat :=
  digits.foldlM (fun value c => (Text.hexValue? c).map (value * 16 + ·)) 0

/-- The code that a long escape gives, if it may be one. -/
def escapedCode (width : Nat) (text : List Char) : Reading Nat :=
  match hexNumber? (text.take width) with
  | some code =>
    if text.length < width then malformed
    else if 0x7fffffff < code then .error (.scalar .hugeCode)
    else if 0x10ffff < code then .error (.scalar .noCharacter)
    else return code
  | none => malformed

/-- The text of a list of codes.  Two halves of a surrogate pair are one
character, and a half on its own is the replacement character. -/
def textOfCodes : List Nat → List Char
  | [] => []
  | high :: low :: rest =>
    if 0xd800 ≤ high && high ≤ 0xdbff && 0xdc00 ≤ low && low ≤ 0xdfff then
      Char.ofNat (0x10000 + (high - 0xd800) * 0x400 + (low - 0xdc00)) :: textOfCodes rest
    else charOfCode high :: textOfCodes (low :: rest)
  | [code] => [charOfCode code]
where
  /-- The character of a code on its own. -/
  charOfCode (code : Nat) : Char :=
    if 0xd800 ≤ code && code ≤ 0xdfff then '\ufffd' else Char.ofNat code

/-- The codes of a quoted scalar after its opening quote, and what follows its
closing one.  Only double quotes have escapes; in single ones a quote is written
twice. -/
def quotedFrom (isDouble : Bool) : Nat → List Char → Reading (List Nat × List Char)
  | 0, _ => malformed
  | fuel + 1, text =>
    let further (lead : List Char) (rest : List Char) : Reading (List Nat × List Char) := do
      let (more, after) ← quotedFrom isDouble fuel rest
      return (lead.map Char.toNat ++ more, after)
    let spaces := text.takeWhile fun c => c = ' ' || c = '\t'
    match text.drop spaces.length with
    | [] => malformed
    | c :: rest =>
      if isBreak c then do
        let (breaks, after) ← quotedBreaks fuel rest
        further (foldBreaks c breaks) after
      else if !spaces.isEmpty then further spaces (c :: rest)
      else if isDouble then
        if c = '"' then return ([], rest)
        else if c = '\\' then
          match rest with
          | [] => malformed
          | mark :: after =>
            if isBreak mark then do
              let (breaks, after) ← quotedBreaks fuel after
              further breaks after
            else
              match escapes.lookup mark, escapeWidth? mark with
              | some meant, _ => further [meant] after
              | none, some width => do
                let code ← escapedCode width after
                let (more, after) ← quotedFrom isDouble fuel (after.drop width)
                return (code :: more, after)
              | none, none => malformed
        else further [c] rest
      else if c = '\'' then
        match rest with
        | '\'' :: after => further ['\''] after
        | _ => return ([], rest)
      else further [c] rest

end Restyle.Yaml
