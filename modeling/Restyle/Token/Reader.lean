import Restyle.Fault
import Restyle.Lexeme.Scan
import Restyle.Token

/-!
Contract: grouping the lexemes of a module into tokens.

Owns: `Token.Reader`, the tokens read so far and the templates still open, its
step on a lexeme, and `Token.readAll`.

Blanks and comments are dropped.  The reader keeps step with the scanner: it is
in code exactly when the scanner is, and its open templates are the nest.
-/

namespace Restyle.Token

/-- A template whose closing mark is still to come: where it began, and its
finished pairs of chunk and hole, the latest first. -/
structure OpenTemplate where
  start : Nat
  parts : List (Template.Chunk × Span)

/-- The code being read: the module's own, or that of a hole in an open
template, which stands in outer code.  Tokens are kept latest first. -/
inductive OpenCode where
  | module (tokens : List Token)
  | hole
      (template : OpenTemplate)
      (chunk : Template.Chunk)
      (start : Nat)
      (tokens : List Token)
      (outer : OpenCode)

/-- Whether the reader is in code or in the text of a template, whose current
chunk began at an offset. -/
inductive Reader where
  | code (current : OpenCode)
  | text (template : OpenTemplate) (chunkStart : Nat) (outer : OpenCode)

def OpenCode.push (token : Token) : OpenCode → OpenCode
  | .module tokens => .module (token :: tokens)
  | .hole template chunk start tokens outer =>
    .hole template chunk start (token :: tokens) outer

/-- The template made of its finished pairs, the latest first, and its last
chunk. -/
def templateOf (last : Template.Chunk) (parts : List (Template.Chunk × Span)) : Template :=
  parts.foldl
    (fun template part => ⟨part.1, ⟨part.2, template.head⟩ :: template.rest⟩)
    ⟨last, []⟩

def chunkOf (source : List Char) (start stop : Nat) : Template.Chunk :=
  ⟨String.ofList (Text.slice source start stop), start⟩

def kindOf : Lexeme.Kind → Kind
  | .keyword => .keyword
  | .identifier => .identifier
  | .pattern => .pattern
  | .doubleQuoted | .singleQuoted => .string
  | .number => .number
  | .punctuator => .punctuator
  | .operator => .operator
  | _ => .stray

def ofLexeme (source : List Char) (lexeme : Lexeme) : Token where
  text := lexeme.text
  start := lexeme.start
  location := Location.origin.advance source lexeme.start
  body := .atom (kindOf lexeme.kind)

def ofTemplate (source : List Char) (template : OpenTemplate) (chunkStart close : Nat) : Token where
  text := String.ofList (Text.slice source template.start (close + 1))
  start := template.start
  location := Location.origin.advance source template.start
  body := .template (templateOf (chunkOf source chunkStart close) template.parts)

/-- The reader after a further lexeme.  In the text of a template only its own
parts can stand; anything else there is a stray character. -/
def Reader.push (source : List Char) : Reader → Lexeme → Except Fault Reader
  | .code current, lexeme =>
    match lexeme.kind with
    | .blank | .lineComment | .blockComment => .ok (.code current)
    | .templateOpen => .ok (.text ⟨lexeme.start, []⟩ (lexeme.start + 1) current)
    | .holeClose =>
      match current with
      | .hole template chunk start tokens outer =>
        let hole : Span := ⟨tokens.reverse, start, lexeme.start⟩
        .ok (.text ⟨template.start, (chunk, hole) :: template.parts⟩ (lexeme.start + 1) outer)
      | .module _ => .error .strayInTemplate
    | _ => .ok (.code (current.push (ofLexeme source lexeme)))
  | .text template chunkStart outer, lexeme =>
    match lexeme.kind with
    | .blank | .lineComment | .blockComment | .templateText =>
      .ok (.text template chunkStart outer)
    | .holeOpen =>
      let chunk := chunkOf source chunkStart lexeme.start
      .ok (.code (.hole template chunk (lexeme.start + 2) [] outer))
    | .templateClose =>
      .ok (.code (outer.push (ofTemplate source template chunkStart lexeme.start)))
    | _ => .error .strayInTemplate

/-- The start of the outermost open template around some code, given that of
the innermost one seen so far. -/
def OpenCode.outermost (innermost : Nat) : OpenCode → Nat
  | .module _ => innermost
  | .hole template _ _ _ outer => outer.outermost template.start

/-- The tokens of a module once its lexemes are read.  A template that is still
open is a problem at the start of the outermost one. -/
def Reader.finish : Reader → Except Fault (List Token)
  | .code (.module tokens) => .ok tokens.reverse
  | .code (.hole template _ _ _ outer) =>
    .error (.problem .unterminatedTemplate (outer.outermost template.start))
  | .text template _ outer =>
    .error (.problem .unterminatedTemplate (outer.outermost template.start))

def readAll (source : String) : Except Fault (List Token) := do
  let reader ← (Lexeme.scan source).foldlM (Reader.push source.toList) (.code (.module []))
  reader.finish

end Restyle.Token
