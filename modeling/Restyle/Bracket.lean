import Restyle.Token

/-!
Contract: which brackets belong together in a list of tokens.

Owns: the search for the bracket that closes some open ones, the search
backwards for the innermost bracket left open, the search backwards for the
brace that a closing brace belongs to, and the same three by index.

The three kinds of brackets share one depth, so any closer closes any opener;
only `openingBrace?` looks at braces alone.  A template is one token, hence
brackets inside it are never seen.
-/

namespace Restyle.Bracket

def isPunctuator (spellings : List String) (token : Token) : Bool :=
  token.is .punctuator && spellings.contains token.text

def opens (token : Token) : Bool :=
  isPunctuator ["(", "[", "\x7b"] token

def closes (token : Token) : Bool :=
  isPunctuator [")", "]", "\x7d"] token

/-- A list of tokens cut at one of them. -/
structure Cut where
  before : List Token
  token : Token
  after : List Token

/-- The tokens cut at the bracket that closes the outermost of `depth + 1` open
ones. -/
def close? (depth : Nat) : List Token → Option Cut
  | [] => none
  | token :: rest =>
    let further (next : Nat) : Option Cut :=
      (close? next rest).map fun cut => { cut with before := token :: cut.before }
    if opens token then further (depth + 1)
    else if closes token then
      match depth with
      | 0 => some ⟨[], token, rest⟩
      | depth + 1 => further depth
    else further depth

/-- A cut loses nothing. -/
theorem eq_of_close?
    {depth : Nat}
    {tokens : List Token}
    {cut : Cut}
    (found : close? depth tokens = some cut) :
    tokens = cut.before ++ cut.token :: cut.after := by
  induction tokens generalizing depth cut with
  | nil => simp [close?] at found
  | cons token rest inductionHypothesis =>
    have further : ∀ next,
        (close? next rest).map (fun cut => { cut with before := token :: cut.before }) = some cut →
        token :: rest = cut.before ++ cut.token :: cut.after := by
      intro next found
      obtain ⟨inner, innerFound, rfl⟩ := Option.map_eq_some_iff.mp found
      simpa using inductionHypothesis innerFound
    simp only [close?] at found
    split at found
    · exact further _ found
    · split at found
      · cases depth with
        | zero =>
          simp only [Option.some.injEq] at found
          simp [← found]
        | succ depth => exact further _ found
      · exact further _ found

/-- The innermost bracket left open by some tokens, given latest first, and the
tokens before it.  The depth counts the closers seen on the way. -/
def innermost? (depth : Nat) : List Token → Option (Token × List Token)
  | [] => none
  | token :: rest =>
    if closes token then innermost? (depth + 1) rest
    else if opens token then
      match depth with
      | 0 => some (token, rest)
      | depth + 1 => innermost? depth rest
    else innermost? depth rest

/-- The tokens, given latest first, cut at the brace that opens the outermost of
`depth + 1` braces closed after them; the part between is put in order. -/
def openingBrace? (depth : Nat) (between : List Token) : List Token → Option Cut
  | [] => none
  | token :: rest =>
    if isPunctuator ["\x7d"] token then openingBrace? (depth + 1) (token :: between) rest
    else if isPunctuator ["\x7b"] token then
      match depth with
      | 0 => some ⟨rest, token, between⟩
      | depth + 1 => openingBrace? depth (token :: between) rest
    else openingBrace? depth (token :: between) rest

/-! ## By index -/

def closerIndex? (tokens : List Token) (index : Nat) : Option Nat :=
  (close? 0 (tokens.drop (index + 1))).map fun cut => index + 1 + cut.before.length

/-- The index of the innermost bracket left open before an index. -/
def openerIndex? (tokens : List Token) (index : Nat) : Option Nat :=
  (innermost? 0 (tokens.take index).reverse).map fun found => found.2.length

/-- The index of the brace that the closing brace at an index belongs to. -/
def braceIndex? (tokens : List Token) (index : Nat) : Option Nat :=
  (openingBrace? 0 [] (tokens.take index).reverse).map fun cut => cut.before.length

end Restyle.Bracket
