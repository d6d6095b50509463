import Restyle.Proofs.Template.Inert
import Restyle.Proofs.Text
import Restyle.Token.Reader

/-!
Contract: the tokens of a module stand in its text where they say they do.

Owns: `Token.Placed`, `Template.Placed` and `Token.ListPlaced`, by which a tree
of tokens lies in the source: undivided tokens are lexemes of its scan, the
tokens of a list follow each other between two offsets, and a template is its
backtick, inert chunks with holes between them, and its closing backtick.

Does not own: that reading gives such a tree (`Proofs.Token.Reading`).
-/

namespace Restyle

/-- Some inert text, then the mark that opens a hole. -/
structure Template.HoleOpens (source : List Char) (start stop : Nat) : Prop where
  ordered : start ≤ stop
  inert : Template.isInert (Text.slice source start stop)
  dollar : source[stop]? = some '$'
  brace : source[stop + 1]? = some '{'

mutual

/-- A token is a lexeme of the source, or a template literal in it. -/
inductive Token.Placed (source : List Char) : Token → Prop where
  | atom {lexeme : Lexeme}
      (member : lexeme ∈ Lexeme.scanFrom .initial 0 source)
      (isAtom : lexeme.kind.isAtom) :
      Token.Placed source (Token.ofLexeme source lexeme)
  | template {start close : Nat} {literal : Template}
      (opening : source[start]? = some '`')
      (inner : Template.Placed source (start + 1) close literal.head literal.rest) :
      Token.Placed source
        ⟨String.ofList (Text.slice source start (close + 1)), start,
          Location.origin.advance source start, .template literal⟩

/-- A chunk at an offset, then holes and chunks, up to the backtick that closes
the template. -/
inductive Template.Placed (source : List Char) :
    Nat → Nat → Template.Chunk → List Template.Link → Prop where
  | last {start close : Nat}
      (ordered : start ≤ close)
      (inert : Template.isInert (Text.slice source start close))
      (closing : source[close]? = some '`') :
      Template.Placed source start close (Token.chunkOf source start close) []
  | hole {start stop close : Nat} {hole : Span} {chunk : Template.Chunk}
      {links : List Template.Link}
      (opens : Template.HoleOpens source start stop)
      (begins : hole.start = stop + 2)
      (tokens : Token.ListPlaced source hole.start hole.stop hole.tokens)
      (closing : source[hole.stop]? = some '}')
      (later : Template.Placed source (hole.stop + 1) close chunk links) :
      Template.Placed source start close (Token.chunkOf source start stop)
        (⟨hole, chunk⟩ :: links)

/-- Tokens that follow each other between two offsets. -/
inductive Token.ListPlaced (source : List Char) : Nat → Nat → List Token → Prop where
  | nil {start stop : Nat} (ordered : start ≤ stop) : Token.ListPlaced source start stop []
  | cons {start stop : Nat} {token : Token} {rest : List Token}
      (ordered : start ≤ token.start)
      (own : Token.Placed source token)
      (later : Token.ListPlaced source token.stop stop rest) :
      Token.ListPlaced source start stop (token :: rest)

end

/-! ## Offsets -/

/-- The offset of a character lies in the text. -/
theorem Text.lt_length_of_getElem?
    {text : List Char}
    {offset : Nat}
    {c : Char}
    (stands : text[offset]? = some c) :
    offset < text.length :=
  (List.getElem?_eq_some_iff.mp stands).1

mutual

/-- A token is not empty and lies in the source. -/
theorem Token.Placed.bounds
    {source : List Char}
    {token : Token}
    (placed : Token.Placed source token) :
    token.start < token.stop ∧ token.stop ≤ source.length :=
  match placed with
  | .atom member _ => (Lexeme.slice_of_mem_scanFrom member).2
  | .template _ inner => by
    have bounds := inner.bounds
    have inside := Text.lt_length_of_getElem? bounds.2
    simp only [Token.stop, String.length_ofList, Text.length_slice (Nat.succ_le_of_lt inside)]
    omega

/-- A template closes at a backtick after it begins. -/
theorem Template.Placed.bounds
    {source : List Char}
    {start close : Nat}
    {chunk : Template.Chunk}
    {links : List Template.Link}
    (placed : Template.Placed source start close chunk links) :
    start ≤ close ∧ source[close]? = some '`' :=
  match placed with
  | .last ordered _ closing => ⟨ordered, closing⟩
  | .hole opens begins tokens _ later => by
    have inner := later.bounds
    have ordered := tokens.bounds
    have early := opens.ordered
    exact ⟨by omega, inner.2⟩

/-- The offsets of a list are in order. -/
theorem Token.ListPlaced.bounds
    {source : List Char}
    {start stop : Nat}
    {tokens : List Token}
    (placed : Token.ListPlaced source start stop tokens) :
    start ≤ stop :=
  match placed with
  | .nil ordered => ordered
  | .cons ordered own later => by
    have inner := own.bounds
    have rest := later.bounds
    omega

end

/-- A template token ends just after its closing backtick. -/
theorem Token.Placed.stop_of_template
    {source : List Char}
    {start close : Nat}
    {literal : Template}
    (inner : Template.Placed source (start + 1) close literal.head literal.rest) :
    Token.stop ⟨String.ofList (Text.slice source start (close + 1)), start,
      Location.origin.advance source start, .template literal⟩ = close + 1 := by
  have bounds := inner.bounds
  have inside := Text.lt_length_of_getElem? bounds.2
  simp only [Token.stop, String.length_ofList, Text.length_slice (Nat.succ_le_of_lt inside)]
  omega

/-- The text of a token is what stands in the source between its offsets. -/
theorem Token.Placed.text_eq
    {source : List Char}
    {token : Token}
    (placed : Token.Placed source token) :
    token.text.toList = Text.slice source token.start token.stop := by
  cases placed with
  | atom member _ => exact (Lexeme.slice_of_mem_scanFrom member).1.symm
  | template _ inner =>
    rw [Token.Placed.stop_of_template inner]
    exact String.toList_ofList

/-! ## Longer lists -/

/-- Tokens stay placed when the end of their list moves on. -/
theorem Token.ListPlaced.extend
    {source : List Char}
    {start stop further : Nat}
    {tokens : List Token}
    (placed : Token.ListPlaced source start stop tokens)
    (later : stop ≤ further) :
    Token.ListPlaced source start further tokens := by
  induction tokens generalizing start with
  | nil =>
    have ordered := placed.bounds
    exact .nil (by omega)
  | cons token rest inductionHypothesis =>
    cases placed with
    | cons ordered own others => exact .cons ordered own (inductionHypothesis others)

/-- A further token at the end of a list. -/
theorem Token.ListPlaced.append
    {source : List Char}
    {start stop : Nat}
    {tokens : List Token}
    {token : Token}
    (placed : Token.ListPlaced source start stop tokens)
    (ordered : stop ≤ token.start)
    (own : Token.Placed source token) :
    Token.ListPlaced source start token.stop (tokens ++ [token]) := by
  induction tokens generalizing start with
  | nil =>
    have bounds := placed.bounds
    exact .cons (by omega) own (.nil (Nat.le_refl _))
  | cons first rest inductionHypothesis =>
    cases placed with
    | cons early head others => exact .cons early head (inductionHypothesis others)

/-- What follows the first token of a list begins where the token stops. -/
theorem Token.ListPlaced.first
    {source : List Char}
    {start stop : Nat}
    {token : Token}
    {rest : List Token}
    (placed : Token.ListPlaced source start stop (token :: rest)) :
    start ≤ token.start ∧ Token.Placed source token ∧
      Token.ListPlaced source token.stop stop rest := by
  cases placed with
  | cons early own later => exact ⟨early, own, later⟩

/-- What follows a token of a list begins where the token stops. -/
theorem Token.ListPlaced.after
    {source : List Char}
    {start stop : Nat}
    {left right : List Token}
    {token : Token}
    (placed : Token.ListPlaced source start stop (left ++ token :: right)) :
    start ≤ token.start ∧ Token.Placed source token ∧
      Token.ListPlaced source token.stop stop right := by
  induction left generalizing start with
  | nil => exact placed.first
  | cons first rest inductionHypothesis =>
    cases placed with
    | cons early own later =>
      obtain ⟨ordered, others⟩ := inductionHypothesis later
      have bounds := own.bounds
      exact ⟨by omega, others⟩

/-- The tokens of a list do not overlap. -/
theorem Token.ListPlaced.pairwise
    {source : List Char}
    {start stop : Nat}
    {tokens : List Token}
    (placed : Token.ListPlaced source start stop tokens) :
    tokens.Pairwise (·.stop ≤ ·.start) := by
  induction tokens generalizing start with
  | nil => exact .nil
  | cons token rest inductionHypothesis =>
    cases placed with
    | cons early own later =>
      refine List.pairwise_cons.mpr ⟨fun other member => ?_, inductionHypothesis later⟩
      obtain ⟨left, right, rfl⟩ := List.append_of_mem member
      exact later.after.1

/-- Two tokens of a list are the same, or one comes after the other. -/
theorem Token.ListPlaced.apart
    {source : List Char}
    {start stop : Nat}
    {tokens : List Token}
    {one other : Token}
    (placed : Token.ListPlaced source start stop tokens)
    (isOne : one ∈ tokens)
    (isOther : other ∈ tokens) :
    one = other ∨ one.stop ≤ other.start ∨ other.stop ≤ one.start := by
  induction tokens generalizing start with
  | nil => simp at isOne
  | cons token rest inductionHypothesis =>
    have ordered := List.pairwise_cons.mp placed.pairwise
    cases placed with
    | cons _ _ later =>
      rcases List.mem_cons.mp isOne with rfl | oneLater <;>
        rcases List.mem_cons.mp isOther with rfl | otherLater
      · exact .inl rfl
      · exact .inr (.inl (ordered.1 other otherLater))
      · exact .inr (.inr (ordered.1 one oneLater))
      · exact inductionHypothesis later oneLater otherLater

end Restyle
