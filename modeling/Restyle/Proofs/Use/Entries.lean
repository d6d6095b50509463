import Restyle.Proofs.Token.Everywhere
import Restyle.Proofs.Use.Extent

/-!
Contract: the expressions that a use holds, and where they stand.

Owns: `Role.entries`, the factory argument and the holes of a role with the way
in which each is entered; that their tokens are among those that the role
covers; and that an identifier that a role covers stands in one of them, the
name of a member apart.
-/

namespace Restyle.Use

open Restyle.Token

/-- How an expression is entered: it is searched for uses, or it is a hole of
content, which a use may fill as a whole and then is spliced. -/
inductive Entry where
  | searched
  | hole
deriving DecidableEq

def Part.hole? : Part → Option Span
  | .literal _ => none
  | .hole span => some span

def Content.holes (content : Content) : List Span :=
  content.parts.filterMap Part.hole?

def Receiver.arguments : Receiver → List Span
  | .factory argument => [argument]
  | _ => []

/-- The expressions that a role holds, in source order. -/
def Role.entries : Role → List (Entry × Span)
  | .invocation _ receiver content =>
    receiver.arguments.map (Entry.searched, ·) ++ content.holes.map (Entry.hole, ·)
  | _ => []

/-- The tokens of the expressions that a role holds, at every depth. -/
def Role.held (role : Role) : List Token :=
  role.entries.flatMap fun entry => everywhere entry.2.tokens

/-! ## Tokens of lists -/

private theorem everywhere_sublist {left right : List Token} (sublist : left.Sublist right) :
    (everywhere left).Sublist (everywhere right) := by
  induction sublist with
  | slnil => exact .slnil
  | cons token _ inductionHypothesis =>
    rw [everywhere_cons]
    exact inductionHypothesis.trans (List.sublist_append_right _ _)
  | cons_cons token _ inductionHypothesis =>
    rw [everywhere_cons, everywhere_cons]
    exact .append_left inductionHypothesis _

private theorem everywhere_flatMap {α : Type} (items : List α) (tokensOf : α → List Token) :
    everywhere (items.flatMap tokensOf) = items.flatMap fun item => everywhere (tokensOf item) := by
  induction items with
  | nil => simp
  | cons item rest inductionHypothesis => simp [inductionHypothesis]

/-- What the holes of some tokens hold is part of what the tokens are. -/
theorem flatMap_inside_sublist (tokens : List Token) :
    (tokens.flatMap inside).Sublist (everywhere tokens) := by
  induction tokens with
  | nil => simp
  | cons token rest inductionHypothesis =>
    rw [List.flatMap_cons, everywhere_cons, List.cons_append]
    exact .cons _ (.append_left inductionHypothesis _)

/-! ## Holes of content -/

theorem holes_templateParts (literal : Template) :
    (templateParts literal).filterMap Part.hole? = literal.holes := by
  simp only [templateParts, Template.holes, List.filterMap_cons, Part.hole?]
  induction literal.rest with
  | nil => rfl
  | cons link links inductionHypothesis =>
    rw [List.flatMap_cons, List.filterMap_append, inductionHypothesis]
    rfl

private theorem holes_tokenParts (token : Token) :
    ((tokenParts token).filterMap Part.hole?).flatMap (everywhere ·.tokens) = inside token := by
  unfold tokenParts
  split
  · rename_i literal isTemplate
    rw [holes_templateParts, inside_of_template isTemplate]
  · rename_i isAtom
    rw [inside_of_atom isAtom]
    rfl

private theorem flatMap_holes_tokenParts (tokens : List Token) :
    ((tokens.flatMap tokenParts).filterMap Part.hole?).flatMap (everywhere ·.tokens) =
      tokens.flatMap inside := by
  induction tokens with
  | nil => rfl
  | cons token rest inductionHypothesis =>
    rw [List.flatMap_cons, List.filterMap_append, List.flatMap_append, inductionHypothesis,
      holes_tokenParts, List.flatMap_cons]

/-- Arguments that are read like a template hold what their tokens hold. -/
theorem holes_of_stringLike
    {spans : List Span}
    {stop : Nat}
    (stringLike : isStringLike spans) :
    (Content.arguments spans stop).holes.flatMap (everywhere ·.tokens) =
      (spans.flatMap (·.tokens)).flatMap inside := by
  rw [Content.holes, Content.parts, if_pos stringLike]
  exact flatMap_holes_tokenParts _

/-- Other arguments are the holes. -/
theorem holes_of_not_stringLike
    {spans : List Span}
    {stop : Nat}
    (notStringLike : ¬ isStringLike spans) :
    (Content.arguments spans stop).holes = spans := by
  rw [Content.holes, Content.parts, if_neg notStringLike, List.filterMap_map]
  exact List.filterMap_some

/-! ## Arguments -/

theorem splitArguments_sublist (depth : Nat) (tokens : List Token) :
    (splitArguments depth tokens).flatten.Sublist tokens := by
  induction tokens generalizing depth with
  | nil => simp [splitArguments]
  | cons token rest inductionHypothesis =>
    simp only [splitArguments]
    split
    · exact .cons _ (inductionHypothesis 0)
    · generalize (if Bracket.opens token then depth + 1
        else if Bracket.closes token then depth - 1 else depth) = inner
      have below := inductionHypothesis inner
      cases parts : splitArguments inner rest with
      | nil => simp
      | cons first others =>
        rw [parts] at below
        exact .cons_cons _ below

private theorem mem_splitArguments
    {token : Token}
    {tokens : List Token}
    (depth : Nat)
    (member : token ∈ tokens)
    (noComma : ¬ Bracket.isPunctuator [","] token) :
    ∃ part ∈ splitArguments depth tokens, token ∈ part := by
  induction tokens generalizing depth with
  | nil => simp at member
  | cons first rest inductionHypothesis =>
    simp only [splitArguments]
    split
    · rename_i isCut
      simp only [Bool.and_eq_true] at isCut
      rcases List.mem_cons.mp member with rfl | later
      · exact absurd isCut.2 noComma
      · obtain ⟨part, isPart, inPart⟩ := inductionHypothesis 0 later
        exact ⟨part, List.mem_cons_of_mem _ isPart, inPart⟩
    · generalize (if Bracket.opens first then depth + 1
        else if Bracket.closes first then depth - 1 else depth) = inner
      cases parts : splitArguments inner rest with
      | nil =>
        rcases List.mem_cons.mp member with rfl | later
        · exact ⟨[token], by simp, by simp⟩
        · obtain ⟨part, isPart, _⟩ := inductionHypothesis inner later
          simp [parts] at isPart
      | cons front others =>
        rcases List.mem_cons.mp member with rfl | later
        · exact ⟨token :: front, by simp, by simp⟩
        · obtain ⟨part, isPart, inPart⟩ := inductionHypothesis inner later
          rw [parts] at isPart
          rcases List.mem_cons.mp isPart with rfl | inOthers
          · exact ⟨first :: part, by simp, List.mem_cons_of_mem _ inPart⟩
          · exact ⟨part, List.mem_cons_of_mem _ inOthers, inPart⟩

theorem tokens_of_argument?
    {tokens : List Token}
    {span : Span}
    (isArgument : argument? tokens = some span) :
    span.tokens = tokens := by
  unfold argument? at isArgument
  split at isArgument
  · simp only [Option.some.injEq] at isArgument
    rw [← isArgument]
  · simp at isArgument

theorem exists_argument? {tokens : List Token} (nonempty : tokens ≠ []) :
    ∃ span, argument? tokens = some span := by
  obtain ⟨first, rest, rfl⟩ := List.exists_cons_of_ne_nil nonempty
  exact ⟨⟨first :: rest, first.start, (rest.getLast?.getD first).stop⟩, by
    simp [argument?, List.getLast?_cons]⟩

/-- The arguments between parentheses are among the tokens there. -/
theorem argumentsOf_sublist (tokens : List Token) :
    ((argumentsOf tokens).flatMap (·.tokens)).Sublist tokens := by
  refine List.Sublist.trans ?_ (splitArguments_sublist 0 tokens)
  unfold argumentsOf
  induction splitArguments 0 tokens with
  | nil => simp
  | cons part parts inductionHypothesis =>
    rw [List.flatten_cons]
    cases isArgument : argument? part with
    | none =>
      rw [List.filterMap_cons_none isArgument]
      exact inductionHypothesis.trans (List.sublist_append_right _ _)
    | some span =>
      rw [List.filterMap_cons_some isArgument, List.flatMap_cons, tokens_of_argument? isArgument]
      exact .append_left inductionHypothesis _

/-- A token between parentheses that is no comma stands in an argument. -/
theorem mem_argumentsOf
    {token : Token}
    {tokens : List Token}
    (member : token ∈ tokens)
    (noComma : ¬ Bracket.isPunctuator [","] token) :
    ∃ span ∈ argumentsOf tokens, token ∈ span.tokens := by
  obtain ⟨part, isPart, inPart⟩ := mem_splitArguments 0 member noComma
  obtain ⟨span, isArgument⟩ := exists_argument? (List.ne_nil_of_mem inPart)
  refine ⟨span, List.mem_filterMap.mpr ⟨part, isPart, isArgument⟩, ?_⟩
  rwa [tokens_of_argument? isArgument]

/-! ## What a role covers -/

/-- The holes of content hold tokens that it covers, in their order. -/
theorem Content.Covers.holes_sublist
    {content : Content}
    {covered : List Token}
    (covers : content.Covers covered) :
    (content.holes.flatMap (everywhere ·.tokens)).Sublist (everywhere covered) := by
  cases covers with
  | template isTemplate =>
    rw [Content.holes, Content.parts, holes_templateParts, ← inside_of_template isTemplate]
    exact (List.flatMap_singleton inside _).symm ▸ flatMap_inside_sublist _
  | @call openParen closer inner isAtom opens closes =>
    have within : ((argumentsOf inner).flatMap fun span => span.tokens).Sublist
        (openParen :: inner ++ [closer]) :=
      .cons _ ((argumentsOf_sublist inner).trans (List.sublist_append_left _ _))
    refine List.Sublist.trans ?_ (everywhere_sublist within)
    by_cases stringLike : isStringLike (argumentsOf inner)
    · rw [holes_of_stringLike stringLike]
      exact flatMap_inside_sublist _
    · rw [holes_of_not_stringLike stringLike]
      exact (everywhere_flatMap (argumentsOf inner) (·.tokens)).symm ▸ .refl _

/-- A role holds tokens that it covers, in their order. -/
theorem Role.Covers.held_sublist
    {role : Role}
    {covered : List Token}
    (covers : role.Covers covered) :
    role.held.Sublist (everywhere covered) := by
  have holesOnly : ∀ content : Content,
      (content.holes.map (Entry.hole, ·)).flatMap (fun entry => everywhere entry.2.tokens) =
        content.holes.flatMap (everywhere ·.tokens) := by
    intro content
    rw [List.flatMap_map]
  unfold Role.held
  cases covers with
  | passThrough => exact List.nil_sublist _
  | bareValue => exact List.nil_sublist _
  | direct own =>
    simp only [Role.entries, Receiver.arguments, List.map_nil, List.nil_append]
    rw [holesOnly]
    exact own.holes_sublist
  | member isAtom isPoint isName own =>
    simp only [Role.entries, Receiver.arguments, List.map_nil, List.nil_append]
    rw [holesOnly]
    exact own.holes_sublist.trans (everywhere_sublist (.cons _ (.cons _ (.refl _))))
  | factory isAtom opens nonempty closes own =>
    simp only [Role.entries, Receiver.arguments, List.map_cons, List.map_nil, List.cons_append,
      List.nil_append, List.flatMap_cons]
    rw [holesOnly, everywhere_cons, everywhere_append]
    refine .cons _ (List.Sublist.trans ?_ (List.sublist_append_right _ _))
    exact .append (.refl _) (own.holes_sublist.trans (everywhere_sublist (.cons _ (.refl _))))

/-! ## Identifiers that a role covers -/

/-- A token of a kind is undivided. -/
theorem template?_of_is {token : Token} {kind : Kind} (isKind : token.is kind) :
    token.template? = none := by
  obtain ⟨text, start, location, body⟩ := token
  cases body with
  | atom own => rfl
  | template literal => simp [Token.is] at isKind

theorem kind_unique {token : Token} {one other : Kind} (isOne : token.is one)
    (isOther : token.is other) : one = other := by
  obtain ⟨text, start, location, body⟩ := token
  cases body with
  | atom own =>
    simp only [Token.is, decide_eq_true_eq] at isOne isOther
    rw [← isOne, isOther]
  | template literal => simp [Token.is] at isOne

private theorem is_punctuator_of_closes {token : Token} (closes : Bracket.closes token) :
    token.is .punctuator := by
  simp only [Bracket.closes, Bracket.isPunctuator, Bool.and_eq_true] at closes
  exact closes.1

/-- An identifier of the source is not spelled like a parenthesis or a point. -/
theorem text_ne_of_identifier
    {source : List Char}
    {token : Token}
    (placed : Token.Placed source token)
    (isIdentifier : token.is .identifier) :
    token.text ≠ "(" ∧ token.text ≠ "." := by
  cases placed with
  | template => simp [Token.is] at isIdentifier
  | @atom lexeme member isAtom =>
    have isKind : lexeme.kind = .identifier := by
      simp only [Token.is, ofLexeme, decide_eq_true_eq] at isIdentifier
      cases kind : lexeme.kind <;> simp [kind, kindOf] at isIdentifier
      rfl
    obtain ⟨first, more, spelled, starts, _⟩ := Lexeme.spelling_of_identifier member isKind
    constructor
    all_goals
      intro isText
      have isFirst := congrArg String.toList (show lexeme.text = _ from isText)
      rw [spelled] at isFirst
      have same : first = _ := (List.cons.inj isFirst).1
      rw [same] at starts
      revert starts
      decide

/-- A call that is read like a template has no argument, or one string or template
for its only one. -/
theorem tokens_of_stringLike
    {spans : List Span}
    (stringLike : isStringLike spans) :
    spans.flatMap (·.tokens) = [] ∨
      ∃ token, spans.flatMap (·.tokens) = [token] ∧ (token.is .string ∨ token.isTemplate) := by
  unfold isStringLike at stringLike
  split at stringLike
  · exact .inl rfl
  · rename_i span
    split at stringLike
    · rename_i token isTokens
      exact .inr ⟨token, by simp [isTokens], by simpa using stringLike⟩
    · simp at stringLike
  · simp at stringLike

private theorem not_identifier_of_stringLike
    {spans : List Span}
    {span : Span}
    {token : Token}
    (stringLike : isStringLike spans)
    (isArgument : span ∈ spans)
    (member : token ∈ span.tokens) :
    ¬ token.is .identifier := by
  intro isIdentifier
  have inSpans : token ∈ spans.flatMap (·.tokens) := List.mem_flatMap.mpr ⟨span, isArgument, member⟩
  rcases tokens_of_stringLike stringLike with isNone | ⟨only, isOne, isKind⟩
  · simp [isNone] at inSpans
  · rw [isOne, List.mem_singleton] at inSpans
    rw [← inSpans] at isKind
    rcases isKind with isString | isTemplate
    · simpa using kind_unique isIdentifier isString
    · simp [Token.isTemplate, template?_of_is isIdentifier] at isTemplate

/-- An identifier that content covers stands in a hole of it. -/
theorem Content.Covers.identifier_in_hole
    {content : Content}
    {covered : List Token}
    {token : Token}
    (covers : content.Covers covered)
    (member : token ∈ covered)
    (isIdentifier : token.is .identifier)
    (noParen : token.text ≠ "(") :
    ∃ span ∈ content.holes, token ∈ everywhere span.tokens := by
  cases covers with
  | template isTemplate =>
    rw [List.mem_singleton] at member
    subst member
    simp [template?_of_is isIdentifier] at isTemplate
  | @call openParen closer inner isAtom opens closes =>
    simp only [List.cons_append, List.mem_cons, List.mem_append, List.not_mem_nil,
      or_false] at member
    rcases member with rfl | inInner | rfl
    · exact absurd opens noParen
    · have noComma : ¬ Bracket.isPunctuator [","] token := by
        intro isComma
        simp only [Bracket.isPunctuator, Bool.and_eq_true] at isComma
        simpa using kind_unique isIdentifier isComma.1
      obtain ⟨span, isArgument, inSpan⟩ := mem_argumentsOf inInner noComma
      have notStringLike : ¬ isStringLike (argumentsOf inner) := fun stringLike =>
        not_identifier_of_stringLike stringLike isArgument inSpan isIdentifier
      rw [holes_of_not_stringLike notStringLike]
      exact ⟨span, isArgument, subset_everywhere _ inSpan⟩
    · simpa using kind_unique isIdentifier (is_punctuator_of_closes closes)

/-- What stands in the holes of a covered token stands in a hole of the content. -/
theorem Content.Covers.inside_in_hole
    {content : Content}
    {covered : List Token}
    {outer token : Token}
    (covers : content.Covers covered)
    (isOuter : outer ∈ covered)
    (member : token ∈ inside outer) :
    ∃ span ∈ content.holes, token ∈ everywhere span.tokens := by
  cases covers with
  | template isTemplate =>
    rw [List.mem_singleton] at isOuter
    subst isOuter
    rw [inside_of_template isTemplate, List.mem_flatMap] at member
    rwa [Content.holes, Content.parts, holes_templateParts]
  | @call openParen closer inner isAtom opens closes =>
    have isTemplate : outer.template? ≠ none := by
      intro isNone
      simp [inside_of_atom isNone] at member
    simp only [List.cons_append, List.mem_cons, List.mem_append, List.not_mem_nil,
      or_false] at isOuter
    rcases isOuter with rfl | inInner | rfl
    · exact absurd isAtom isTemplate
    · have noComma : ¬ Bracket.isPunctuator [","] outer := by
        intro isComma
        simp only [Bracket.isPunctuator, Bool.and_eq_true] at isComma
        exact isTemplate (template?_of_is isComma.1)
      obtain ⟨span, isArgument, inSpan⟩ := mem_argumentsOf inInner noComma
      by_cases stringLike : isStringLike (argumentsOf inner)
      · rw [← List.mem_flatMap, holes_of_stringLike stringLike]
        exact List.mem_flatMap.mpr
          ⟨outer, List.mem_flatMap.mpr ⟨span, isArgument, inSpan⟩, member⟩
      · rw [holes_of_not_stringLike stringLike]
        exact ⟨span, isArgument, mem_everywhere_iff.mpr (.inr ⟨outer, inSpan, member⟩)⟩
    · exact absurd (template?_of_is (is_punctuator_of_closes closes)) isTemplate

/-- A hole of the content is an entry of the role. -/
theorem Role.mem_entries_of_hole
    {spec : Spec}
    {receiver : Receiver}
    {content : Content}
    {span : Span}
    (isHole : span ∈ content.holes) :
    (Entry.hole, span) ∈ (Role.invocation spec receiver content).entries :=
  List.mem_append_right _ (List.mem_map.mpr ⟨span, isHole, rfl⟩)

/-- An identifier that a role covers stands in an entry of it, or directly after
a point. -/
theorem Role.Covers.identifier_in_entry
    {role : Role}
    {left right : List Token}
    {token : Token}
    (covers : role.Covers (left ++ token :: right))
    (isIdentifier : token.is .identifier)
    (noParen : token.text ≠ "(")
    (noPoint : token.text ≠ ".") :
    (∃ entry ∈ role.entries, token ∈ everywhere entry.2.tokens) ∨
      ∃ front point, left = front ++ [point] ∧ point.text = "." := by
  generalize isCovered : left ++ token :: right = covered at covers
  have member : token ∈ covered := by simp [← isCovered]
  cases covers with
  | passThrough => simp at member
  | bareValue => simp at member
  | direct own =>
    obtain ⟨span, isHole, inSpan⟩ := own.identifier_in_hole member isIdentifier noParen
    exact .inl ⟨_, mem_entries_of_hole isHole, inSpan⟩
  | @member spec content point name tokens isAtom isPoint isName own =>
    cases left with
    | nil => exact absurd ((List.cons.inj isCovered).1 ▸ isPoint) noPoint
    | cons first others =>
      obtain ⟨rfl, isOthers⟩ := List.cons.inj isCovered
      cases others with
      | nil => exact .inr ⟨[], first, rfl, isPoint⟩
      | cons second others =>
        have inContent : token ∈ tokens := by
          rw [← (List.cons.inj isOthers).2]
          simp
        obtain ⟨span, isHole, inSpan⟩ := own.identifier_in_hole inContent isIdentifier noParen
        exact .inl ⟨_, mem_entries_of_hole isHole, inSpan⟩
  | @factory spec content openParen closer inner tokens isAtom opens nonempty closes own =>
    refine .inl ?_
    simp only [List.cons_append, List.mem_cons, List.mem_append] at member
    rcases member with rfl | inInner | rfl | inContent
    · exact absurd opens noParen
    · exact ⟨_, List.mem_append_left _ (List.mem_singleton.mpr rfl), subset_everywhere _ inInner⟩
    · simpa using kind_unique isIdentifier (is_punctuator_of_closes closes)
    · obtain ⟨span, isHole, inSpan⟩ := own.identifier_in_hole inContent isIdentifier noParen
      exact ⟨_, mem_entries_of_hole isHole, inSpan⟩

/-- What stands in the holes of a covered token stands in an entry of the role. -/
theorem Role.Covers.inside_in_entry
    {role : Role}
    {covered : List Token}
    {outer token : Token}
    (covers : role.Covers covered)
    (isOuter : outer ∈ covered)
    (member : token ∈ inside outer) :
    ∃ entry ∈ role.entries, token ∈ everywhere entry.2.tokens := by
  have isTemplate : outer.template? ≠ none := by
    intro isNone
    simp [inside_of_atom isNone] at member
  cases covers with
  | passThrough => simp at isOuter
  | bareValue => simp at isOuter
  | direct own =>
    obtain ⟨span, isHole, inSpan⟩ := own.inside_in_hole isOuter member
    exact ⟨_, mem_entries_of_hole isHole, inSpan⟩
  | @member spec content point name tokens isAtom isPoint isName own =>
    simp only [List.mem_cons] at isOuter
    rcases isOuter with rfl | rfl | inContent
    · exact absurd isAtom isTemplate
    · have isKind : outer.is .identifier ∨ outer.is .keyword := by
        simpa [Token.isName] using isName
      rcases isKind with isKind | isKind
      · exact absurd (template?_of_is isKind) isTemplate
      · exact absurd (template?_of_is isKind) isTemplate
    · obtain ⟨span, isHole, inSpan⟩ := own.inside_in_hole inContent member
      exact ⟨_, mem_entries_of_hole isHole, inSpan⟩
  | @factory spec content openParen closer inner tokens isAtom opens nonempty closes own =>
    simp only [List.cons_append, List.mem_cons, List.mem_append] at isOuter
    rcases isOuter with rfl | inInner | rfl | inContent
    · exact absurd isAtom isTemplate
    · exact ⟨_, List.mem_append_left _ (List.mem_singleton.mpr rfl),
        mem_everywhere_iff.mpr (.inr ⟨outer, inInner, member⟩)⟩
    · exact absurd (template?_of_is (is_punctuator_of_closes closes)) isTemplate
    · obtain ⟨span, isHole, inSpan⟩ := own.inside_in_hole inContent member
      exact ⟨_, mem_entries_of_hole isHole, inSpan⟩

end Restyle.Use
