import Restyle.Text

/-!
Contract: the significant parts of a module, with template literals as trees,
and what stands around each.

Owns: `Token`, `Template`, `Span`, their derived offsets, and `weight`, the
number of tokens at every depth, by which recursion into a tree ends; `Site`, a
token with the tokens before and after it in its own list, and `Site.all`, the
sites of a module at every depth.

Does not own: how tokens are read from text (`Token.Reader`).

A template keeps its first chunk and then pairs of a hole and a chunk, so it
has one chunk more than holes by construction.  Ends of tokens and chunks are
derived from their text.
-/

namespace Restyle

/-- What an undivided token is. -/
inductive Token.Kind where
  | identifier
  | keyword
  | punctuator
  | operator
  | string
  | number
  | pattern
  | stray
deriving DecidableEq, Repr

/-- Literal text of a template, as written. -/
structure Template.Chunk where
  raw : String
  start : Nat
deriving DecidableEq, Repr

mutual

/-- A part of a module that is neither blank nor comment. -/
structure Token where
  text : String
  start : Nat
  location : Location
  body : Token.Body

/-- A token is undivided, or a template literal. -/
inductive Token.Body where
  | atom (kind : Token.Kind)
  | template (literal : Template)

/-- A template literal: a chunk of text, then holes each followed by a chunk. -/
structure Template where
  head : Template.Chunk
  rest : List Template.Link

/-- A hole of a template and the chunk after it. -/
structure Template.Link where
  hole : Span
  chunk : Template.Chunk

/-- An expression of the module: its tokens, and the offsets between which it
stands, blanks and comments included. -/
structure Span where
  tokens : List Token
  start : Nat
  stop : Nat

end

def Template.Chunk.stop (chunk : Template.Chunk) : Nat :=
  chunk.start + chunk.raw.length

namespace Template

def chunks (template : Template) : List Chunk :=
  template.head :: template.rest.map (·.chunk)

def holes (template : Template) : List Span :=
  template.rest.map (·.hole)

end Template

namespace Token

def stop (token : Token) : Nat :=
  token.start + token.text.length

def template? (token : Token) : Option Template :=
  match token.body with
  | .atom _ => none
  | .template literal => some literal

/-- Whether a token is undivided and of a kind. -/
def is (token : Token) (kind : Kind) : Bool :=
  match token.body with
  | .atom own => own = kind
  | .template _ => false

def isTemplate (token : Token) : Bool :=
  token.template?.isSome

/-- Whether a token may be a property name: an identifier or a keyword. -/
def isName (token : Token) : Bool :=
  token.is .identifier || token.is .keyword

end Token

/-! ## Weight -/

mutual

/-- The number of tokens in a token at every depth, itself included. -/
def Token.weight : Token → Nat
  | ⟨_, _, _, body⟩ => body.weight + 1

def Token.Body.weight : Token.Body → Nat
  | .atom _ => 0
  | .template literal => literal.weight

def Template.weight : Template → Nat
  | ⟨_, rest⟩ => Template.restWeight rest

def Template.restWeight : List Template.Link → Nat
  | [] => 0
  | link :: rest => link.weight + Template.restWeight rest

def Template.Link.weight : Template.Link → Nat
  | ⟨hole, _⟩ => hole.weight

def Span.weight : Span → Nat
  | ⟨tokens, _, _⟩ => Token.listWeight tokens

def Token.listWeight : List Token → Nat
  | [] => 0
  | token :: rest => token.weight + Token.listWeight rest

end

/-- Weights add up over a concatenation. -/
@[simp]
theorem Token.listWeight_append (left right : List Token) :
    Token.listWeight (left ++ right) = Token.listWeight left + Token.listWeight right := by
  induction left with
  | nil => simp [Token.listWeight]
  | cons token rest inductionHypothesis =>
    simp only [List.cons_append, Token.listWeight, inductionHypothesis]
    omega

/-- A token weighs something. -/
theorem Token.weight_pos (token : Token) : 0 < token.weight := by
  cases token
  simp [Token.weight]

/-- A hole weighs no more than the links of a template that it is in. -/
theorem Template.hole_weight_le_restWeight
    {links : List Template.Link}
    {link : Template.Link}
    (member : link ∈ links) :
    link.hole.weight ≤ Template.restWeight links := by
  induction links with
  | nil => simp at member
  | cons first others inductionHypothesis =>
    simp only [Template.restWeight]
    rcases List.mem_cons.mp member with rfl | later
    · obtain ⟨hole, chunk⟩ := link
      simp [Template.Link.weight]
    · have := inductionHypothesis later
      omega

/-! ## Sites -/

/-- A token and its surroundings in one list: the tokens before it, the nearest
first, and the tokens after it. -/
structure Site where
  before : List Token
  token : Token
  after : List Token

namespace Site

def previous? (site : Site) : Option Token :=
  site.before.head?

def next? (site : Site) : Option Token :=
  site.after.head?

/-- Whether the token directly before has one of some spellings. -/
def follows (site : Site) (spellings : List String) : Bool :=
  site.previous?.any fun token => spellings.contains token.text

/-- Whether the token directly after has one of some spellings. -/
def precedes (site : Site) (spellings : List String) : Bool :=
  site.next?.any fun token => spellings.contains token.text

mutual

/-- The sites of a list of tokens whose earlier part is given nearest first,
and the sites in the holes of its templates. -/
def allFrom (before : List Token) : List Token → List Site
  | [] => []
  | token :: after => ⟨before, token, after⟩ :: inToken token ++ allFrom (token :: before) after

def inToken : Token → List Site
  | ⟨_, _, _, body⟩ => inBody body

def inBody : Token.Body → List Site
  | .atom _ => []
  | .template literal => inTemplate literal

def inTemplate : Template → List Site
  | ⟨_, rest⟩ => inLinks rest

def inLinks : List Template.Link → List Site
  | [] => []
  | link :: rest => inLink link ++ inLinks rest

def inLink : Template.Link → List Site
  | ⟨hole, _⟩ => inSpan hole

def inSpan : Span → List Site
  | ⟨tokens, _, _⟩ => allFrom [] tokens

end

def all (tokens : List Token) : List Site :=
  allFrom [] tokens

end Site

end Restyle
