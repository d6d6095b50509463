import Restyle.Proofs.Lexeme.Context
import Restyle.Proofs.Token.Everywhere
import Restyle.Proofs.Token.Reading

/-!
Contract: the lexemes from which the tokens of a list are made.

Owns: `Stands`, `ListStands` and `TextStands`, by which a token, a list of
tokens and the holes of a template are read from the lexemes between two offsets
of a source, with the meaning of a slash at both ends; that reading a text gives
tokens that stand in it from its beginning to its end.
-/

namespace Restyle

namespace Lexeme

/-- A lexeme of code at an offset of a source: its characters, its kind, and
what a slash means before and after it. -/
structure StandsAt (source : List Char) (offset : Nat) (slash : Slash) (first : Char)
    (body : List Char) (kind : Kind) (next : Slash) : Prop where
  isText : source.drop offset = first :: (body ++ source.drop (offset + body.length + 1))
  isStep : ∃ nest inner, Comes .initial source (.code nest slash) (source.drop offset) ∧
    codeStep nest slash first (body ++ source.drop (offset + body.length + 1)) =
      ⟨kind, body.length, .code inner next⟩

/-- A piece of the text of a template at an offset of a source. -/
structure TextAt (source : List Char) (offset : Nat) (first : Char) (body : List Char) : Prop where
  isText : source.drop offset = first :: (body ++ source.drop (offset + body.length + 1))
  isStep : ∃ nest, templateStep nest first (body ++ source.drop (offset + body.length + 1)) =
    ⟨.templateText, body.length, .template nest⟩

end Lexeme

open Lexeme

mutual

/-- A token read from the lexemes between two offsets of a source. -/
inductive Token.Stands (source : List Char) : Slash → Nat → Token → Slash → Nat → Prop where
  | atom {slash next : Slash} {offset : Nat} {first : Char} {body : List Char}
      {kind : Lexeme.Kind}
      (lexeme : StandsAt source offset slash first body kind next)
      (isAtom : kind.isAtom) :
      Token.Stands source slash offset
        (Token.ofLexeme source ⟨kind, String.ofList (first :: body), offset⟩) next
        (offset + body.length + 1)
  | template {slash : Slash} {offset close : Nat} {token : Token}
      (isTemplate : token.isTemplate)
      (begins : token.start = offset)
      (ends : token.stop = close + 1)
      (opening : source[offset]? = some '`')
      (inside : Token.TextStands source (offset + 1) token.holes close)
      (closing : source[close]? = some '`') :
      Token.Stands source slash offset token .divides (close + 1)

/-- A list of tokens read between two offsets of a source. -/
inductive Token.ListStands (source : List Char) :
    Slash → Nat → List Token → Slash → Nat → Prop where
  | nil {slash : Slash} {offset : Nat} : Token.ListStands source slash offset [] slash offset
  | trivia {slash last : Slash} {offset stop : Nat} {first : Char} {body : List Char}
      {kind : Lexeme.Kind} {tokens : List Token}
      (lexeme : StandsAt source offset slash first body kind slash)
      (isTrivia : kind.isTrivia)
      (later : Token.ListStands source slash (offset + body.length + 1) tokens last stop) :
      Token.ListStands source slash offset tokens last stop
  | cons {slash next last : Slash} {offset middle stop : Nat} {token : Token}
      {tokens : List Token}
      (own : Token.Stands source slash offset token next middle)
      (later : Token.ListStands source next middle tokens last stop) :
      Token.ListStands source slash offset (token :: tokens) last stop

/-- The holes of a template read between two offsets of its text. -/
inductive Token.TextStands (source : List Char) : Nat → List Span → Nat → Prop where
  | nil {offset : Nat} : Token.TextStands source offset [] offset
  | text {offset stop : Nat} {first : Char} {body : List Char} {holes : List Span}
      (lexeme : TextAt source offset first body)
      (later : Token.TextStands source (offset + body.length + 1) holes stop) :
      Token.TextStands source offset holes stop
  | hole {offset stop : Nat} {last : Slash} {hole : Span} {holes : List Span}
      (dollar : source[offset]? = some '$')
      (brace : source[offset + 1]? = some '\x7b')
      (begins : hole.start = offset + 2)
      (inside : Token.ListStands source .opensPattern (offset + 2) hole.tokens last hole.stop)
      (closing : source[hole.stop]? = some '\x7d')
      (later : Token.TextStands source (hole.stop + 1) holes stop) :
      Token.TextStands source offset (hole :: holes) stop

end

namespace Token

mutual

theorem Stands.lt
    {source : List Char}
    {slash next : Slash}
    {offset stop : Nat}
    {token : Token}
    (stands : Stands source slash offset token next stop) :
    offset < stop :=
  match stands with
  | .atom _ _ => by omega
  | .template _ _ _ _ inside _ => by
    have := inside.le
    omega

theorem ListStands.le
    {source : List Char}
    {slash last : Slash}
    {offset stop : Nat}
    {tokens : List Token}
    (stands : ListStands source slash offset tokens last stop) :
    offset ≤ stop :=
  match stands with
  | .nil => Nat.le_refl _
  | .trivia _ _ later => by
    have := later.le
    omega
  | .cons own later => by
    have := own.lt
    have := later.le
    omega

theorem TextStands.le
    {source : List Char}
    {offset stop : Nat}
    {holes : List Span}
    (stands : TextStands source offset holes stop) :
    offset ≤ stop :=
  match stands with
  | .nil => Nat.le_refl _
  | .text _ later => by
    have := later.le
    omega
  | .hole _ _ _ inside _ later => by
    have := inside.le
    have := later.le
    omega

end

theorem Stands.bounds
    {source : List Char}
    {slash next : Slash}
    {offset stop : Nat}
    {token : Token}
    (stands : Stands source slash offset token next stop) :
    token.start = offset ∧ token.stop = stop := by
  cases stands with
  | atom lexeme _ =>
    refine ⟨rfl, ?_⟩
    rw [Token.stop, ofLexeme, String.length_ofList, List.length_cons]
    rfl
  | template _ begins ends _ _ _ => exact ⟨begins, ends⟩

theorem Stands.inside
    {source : List Char}
    {slash next : Slash}
    {offset stop : Nat}
    {token : Token}
    (stands : Stands source slash offset token next stop) :
    stop ≤ source.length := by
  cases stands with
  | atom lexeme _ =>
    have size := congrArg List.length lexeme.isText
    simp only [List.length_drop, List.length_cons, List.length_append] at size
    omega
  | template _ _ _ _ _ closing => exact (List.getElem?_eq_some_iff.mp closing).1

/-! ## Lists one after the other -/

theorem ListStands.append
    {source : List Char}
    {slash middle last : Slash}
    {offset between stop : Nat}
    {left right : List Token}
    (first : ListStands source slash offset left middle between)
    (second : ListStands source middle between right last stop) :
    ListStands source slash offset (left ++ right) last stop :=
  match first with
  | .nil => second
  | .trivia lexeme isTrivia later => .trivia lexeme isTrivia (later.append second)
  | .cons own later => .cons own (later.append second)

theorem TextStands.append
    {source : List Char}
    {offset between stop : Nat}
    {left right : List Span}
    (first : TextStands source offset left between)
    (second : TextStands source between right stop) :
    TextStands source offset (left ++ right) stop :=
  match first with
  | .nil => second
  | .text lexeme later => .text lexeme (later.append second)
  | .hole dollar brace begins inside closing later =>
    .hole dollar brace begins inside closing (later.append second)

/-- A list that stands somewhere is cut where one of its parts ends. -/
theorem ListStands.split
    {source : List Char}
    {slash last : Slash}
    {offset stop : Nat}
    {tokens : List Token}
    (stands : ListStands source slash offset tokens last stop)
    (left right : List Token)
    (isTokens : tokens = left ++ right) :
    ∃ middle between, ListStands source slash offset left middle between ∧
      ListStands source middle between right last stop :=
  match left, stands with
  | [], stands => ⟨slash, offset, .nil, by subst isTokens; exact stands⟩
  | token :: left, .trivia lexeme isTrivia later =>
    let ⟨middle, between, first, second⟩ := later.split (token :: left) right isTokens
    ⟨middle, between, .trivia lexeme isTrivia first, second⟩
  | token :: left, .cons own later => by
    obtain ⟨rfl, isRest⟩ := List.cons.inj isTokens
    obtain ⟨middle, between, first, second⟩ := later.split left right isRest
    exact ⟨middle, between, .cons own first, second⟩

/-- What stands before the first token of a list, the token, and what follows. -/
theorem ListStands.uncons
    {source : List Char}
    {slash last : Slash}
    {offset stop : Nat}
    {all : List Token}
    (stands : ListStands source slash offset all last stop)
    (token : Token)
    (tokens : List Token)
    (isAll : all = token :: tokens) :
    ∃ begins next ends, ListStands source slash offset [] slash begins ∧
      Stands source slash begins token next ends ∧
      ListStands source next ends tokens last stop :=
  match stands with
  | .nil => by simp at isAll
  | .trivia lexeme isTrivia later =>
    let ⟨begins, next, ends, gap, own, rest⟩ := later.uncons token tokens isAll
    ⟨begins, next, ends, .trivia lexeme isTrivia gap, own, rest⟩
  | .cons own later => by
    obtain ⟨rfl, rfl⟩ := List.cons.inj isAll
    exact ⟨offset, _, _, .nil, own, later⟩

/-- The text before the first hole of a template, the hole, and what follows. -/
theorem TextStands.uncons
    {source : List Char}
    {offset stop : Nat}
    {all : List Span}
    (stands : TextStands source offset all stop)
    (hole : Span)
    (holes : List Span)
    (isAll : all = hole :: holes) :
    ∃ opens last, TextStands source offset [] opens ∧ source[opens]? = some '$' ∧
      source[opens + 1]? = some '\x7b' ∧ hole.start = opens + 2 ∧
      ListStands source .opensPattern (opens + 2) hole.tokens last hole.stop ∧
      source[hole.stop]? = some '\x7d' ∧ TextStands source (hole.stop + 1) holes stop :=
  match stands with
  | .nil => by simp at isAll
  | .text lexeme later =>
    let ⟨opens, last, before, rest⟩ := later.uncons hole holes isAll
    ⟨opens, last, .text lexeme before, rest⟩
  | .hole dollar brace begins inside closing later => by
    obtain ⟨rfl, rfl⟩ := List.cons.inj isAll
    exact ⟨offset, _, .nil, dollar, brace, begins, inside, closing, later⟩

/-- The tokens of a list lie between its offsets. -/
theorem ListStands.bounds_of_mem
    {source : List Char}
    {slash last : Slash}
    {offset stop : Nat}
    {tokens : List Token}
    (stands : ListStands source slash offset tokens last stop)
    {token : Token}
    (member : token ∈ tokens) :
    offset ≤ token.start ∧ token.start < token.stop ∧ token.stop ≤ stop := by
  induction tokens generalizing slash offset with
  | nil => simp at member
  | cons first tokens inductionHypothesis =>
    obtain ⟨begins, next, ends, gap, own, rest⟩ := stands.uncons first tokens rfl
    have early := gap.le
    have positive := own.lt
    have late := rest.le
    obtain ⟨isStart, isStop⟩ := own.bounds
    rcases List.mem_cons.mp member with rfl | isLater
    · omega
    · have later := inductionHypothesis rest isLater
      omega

theorem ListStands.nil_of_self
    {source : List Char}
    {slash last : Slash}
    {offset : Nat}
    {tokens : List Token}
    (stands : ListStands source slash offset tokens last offset) :
    tokens = [] ∧ last = slash := by
  cases stands with
  | nil => exact ⟨rfl, rfl⟩
  | trivia _ _ later =>
    have := later.le
    omega
  | cons own later =>
    have := own.lt
    have := later.le
    omega

/-! ## What the reader has collected -/

/-- The holes of an open template that are finished, in order. -/
def OpenTemplate.holes (template : OpenTemplate) : List Span :=
  (template.parts.map (·.2)).reverse

/-- The code being read stands in the source up to an offset. -/
inductive OpenCode.Stands (source : List Char) : Slash → Nat → OpenCode → Prop where
  | module {slash : Slash} {offset : Nat} {tokens : List Token}
      (inside : Token.ListStands source .divides 0 tokens.reverse slash offset) :
      OpenCode.Stands source slash offset (.module tokens)
  | hole {slash around : Slash} {offset stop : Nat} {template : OpenTemplate}
      {chunk : Template.Chunk} {tokens : List Token} {outer : OpenCode}
      (opening : source[template.start]? = some '`')
      (earlier : TextStands source (template.start + 1) template.holes stop)
      (dollar : source[stop]? = some '$')
      (brace : source[stop + 1]? = some '\x7b')
      (inside : Token.ListStands source .opensPattern (stop + 2) tokens.reverse slash offset)
      (outside : OpenCode.Stands source around template.start outer) :
      OpenCode.Stands source slash offset (.hole template chunk (stop + 2) tokens outer)

/-- What the reader has collected stands in the source up to an offset. -/
inductive Reader.Stands (source : List Char) (offset : Nat) : State → Reader → Prop where
  | code {nest : Nest} {slash : Slash} {current : OpenCode}
      (stands : OpenCode.Stands source slash offset current) :
      Reader.Stands source offset (.code nest slash) (.code current)
  | text {nest : Nest} {around : Slash} {template : OpenTemplate} {chunkStart : Nat}
      {outer : OpenCode}
      (opening : source[template.start]? = some '`')
      (earlier : TextStands source (template.start + 1) template.holes offset)
      (outside : OpenCode.Stands source around template.start outer) :
      Reader.Stands source offset (.template nest) (.text template chunkStart outer)

theorem holes_templateOf (last : Template.Chunk) (parts : List (Template.Chunk × Span)) :
    (templateOf last parts).holes = (parts.map (·.2)).reverse := by
  have general : ∀ template : Template,
      (parts.foldl (fun template part =>
          (⟨part.1, ⟨part.2, template.head⟩ :: template.rest⟩ : Template)) template).holes =
        (parts.map (·.2)).reverse ++ template.holes := by
    induction parts with
    | nil => intro template; rfl
    | cons part parts inductionHypothesis =>
      intro template
      rw [List.foldl_cons, inductionHypothesis]
      simp [Template.holes]
  rw [templateOf, general]
  simp [Template.holes]

/-- Code that stands up to an offset and further tokens after it. -/
theorem OpenCode.Stands.push
    {source : List Char}
    {slash next : Slash}
    {offset stop : Nat}
    {current : OpenCode}
    {token : Token}
    (stands : OpenCode.Stands source slash offset current)
    (own : Token.ListStands source slash offset [token] next stop) :
    OpenCode.Stands source next stop (current.push token) := by
  cases stands with
  | module inside =>
    refine .module ?_
    rw [List.reverse_cons]
    exact inside.append own
  | hole opening earlier dollar brace inside outside =>
    refine .hole opening earlier dollar brace ?_ outside
    rw [List.reverse_cons]
    exact inside.append own

theorem OpenCode.Stands.extend
    {source : List Char}
    {slash next : Slash}
    {offset stop : Nat}
    {current : OpenCode}
    (stands : OpenCode.Stands source slash offset current)
    (blank : Token.ListStands source slash offset [] next stop) :
    OpenCode.Stands source next stop current := by
  cases stands with
  | module inside =>
    refine .module ?_
    rw [← List.append_nil (List.reverse _)]
    exact inside.append blank
  | hole opening earlier dollar brace inside outside =>
    refine .hole opening earlier dollar brace ?_ outside
    rw [← List.append_nil (List.reverse _)]
    exact inside.append blank

/-! ## A further lexeme -/

section Push

variable
  {source : List Char}
  {offset : Nat}
  {first : Char}
  {rest : List Char}
  (isRest : source.drop offset = first :: rest)

include isRest

private theorem drop_after {tail : Nat} (fits : tail ≤ rest.length) :
    first :: rest = first :: (rest.take tail ++ source.drop (offset + (rest.take tail).length + 1)) ∧
      source.drop (offset + (rest.take tail).length + 1) = rest.drop tail := by
  have beyond : source.drop (offset + tail + 1) = rest.drop tail := by
    rw [Nat.add_assoc, ← List.drop_drop, isRest, List.drop_succ_cons]
  rw [List.length_take, Nat.min_eq_left fits, beyond, List.take_append_drop]
  exact ⟨rfl, rfl⟩

private theorem standsAt_of_step
    {nest inner : Nest}
    {slash next : Slash}
    {taken : Step}
    (comes : Comes .initial source (.code nest slash) (first :: rest))
    (isStep : codeStep nest slash first rest = taken)
    (isNext : taken.next = .code inner next) :
    StandsAt source offset slash first (rest.take taken.tail) taken.kind next := by
  have fits : taken.tail ≤ rest.length := by
    rw [← isStep]
    exact (codeStep_spec nest slash first rest).tail_le
  obtain ⟨isText, beyond⟩ := drop_after isRest fits
  refine ⟨isRest.trans isText, nest, inner, by rwa [isRest], ?_⟩
  rw [beyond, List.take_append_drop, isStep, List.length_take, Nat.min_eq_left fits, ← isNext]

omit isRest in
/-- Trivia is blank or a comment, and leaves the meaning of a slash as it is. -/
theorem cases_of_trivia
    {nest : Nest}
    {slash : Slash}
    {taken : Step}
    (spec : CodeStep nest slash first rest taken)
    (isTrivia : taken.kind.isTrivia) :
    taken.next = .code nest slash ∧
      (Text.isBlank first ∧ taken.kind = .blank ∧
          taken.tail = (rest.takeWhile Text.isBlank).length ∨
        comment? first rest = some (taken.kind, taken.tail)) := by
  cases spec with
  | blank blank => exact ⟨rfl, .inl ⟨blank, rfl, rfl⟩⟩
  | comment _ found => exact ⟨rfl, .inr found⟩
  | pattern => simp [Lexeme.Kind.isTrivia] at isTrivia
  | templateOpen => simp [Lexeme.Kind.isTrivia] at isTrivia
  | quoted _ found => rcases (kind_of_quoted? found).1 with rfl | rfl <;> simp [Kind.isTrivia] at isTrivia
  | number => simp [Lexeme.Kind.isTrivia] at isTrivia
  | word _ found =>
    rcases kind_of_word? found with rfl | ⟨rfl, -⟩ <;> simp [Kind.isTrivia] at isTrivia
  | symbol _ found =>
    rcases kind_of_symbol (List.mem_of_find?_eq_some found) with isKind | isKind <;>
      simp [isKind, Kind.isTrivia] at isTrivia
  | brace _ found =>
    rcases cases_of_brace? found with ⟨isKind, -⟩ | ⟨_, _, _, rfl⟩
    · simp [isKind, Kind.isTrivia] at isTrivia
    · simp [Kind.isTrivia] at isTrivia
  | stray => simp [Kind.isTrivia] at isTrivia

/-- A lexeme keeps what has been read standing in the source. -/
theorem Reader.Stands.push
    {state : State}
    {reader next : Reader}
    (comes : Comes .initial source state (first :: rest))
    (stands : Reader.Stands source offset state reader)
    (pushed : Pushed source offset first rest (step state first rest) state reader next) :
    Reader.Stands source (offset + (first :: rest.take (step state first rest).tail).length)
      (step state first rest).next next := by
  have stood := Text.getElem?_of_drop_eq_cons isRest
  generalize isStep : step state first rest = taken at pushed ⊢
  cases pushed with
  | @trivia nest slash _ _ isTrivia isNext =>
    cases stands with
    | code stands =>
      have lexeme := standsAt_of_step isRest comes isStep isNext
      have spec := codeStep_spec nest slash first rest
      rw [show codeStep nest slash first rest = taken from isStep] at spec
      obtain rfl := (State.code.inj ((cases_of_trivia spec isTrivia).1.symm.trans isNext)).2
      rw [isNext]
      exact .code (stands.extend (.trivia lexeme isTrivia .nil))
  | atom isAtom isNext =>
    cases stands with
    | code stands =>
      have lexeme := standsAt_of_step isRest comes isStep isNext
      rw [isNext]
      exact .code (stands.push (.cons (.atom lexeme isAtom) .nil))
  | templateOpen marks isTaken =>
    subst isTaken marks
    cases stands with
    | code stands => exact .text stood .nil stands
  | holeClose marks isTaken =>
    subst isTaken marks
    cases stands with
    | code stands =>
      cases stands with
      | hole opening earlier dollar brace inside outside =>
        refine .text opening ?_ outside
        rw [OpenTemplate.holes, List.map_cons, List.reverse_cons]
        exact earlier.append (.hole dollar brace rfl inside stood .nil)
  | @templateClose _ template chunkStart _ marks isTaken =>
    subst isTaken marks
    cases stands with
    | text opening earlier outside =>
      have inside : TextStands source (template.start + 1)
          (ofTemplate source template chunkStart offset).holes offset := by
        rw [Token.holes, template?, ofTemplate, Option.map_some, Option.getD_some,
          holes_templateOf]
        exact earlier
      have ends : (ofTemplate source template chunkStart offset).stop = offset + 1 := by
        have begins := earlier.le
        have fits := Text.lt_length_of_getElem? stood
        rw [Token.stop, ofTemplate, String.length_ofList, Text.length_slice (by omega)]
        show template.start + _ = _
        omega
      exact .code (outside.push (.cons (.template rfl rfl ends opening inside stood) .nil))
  | holeOpen marks isBrace isTaken =>
    subst isTaken marks
    cases stands with
    | text opening earlier outside =>
      obtain ⟨more, rfl⟩ := List.head?_eq_some_iff.mp isBrace
      have brace : source[offset + 1]? = some '\x7b' :=
        Text.getElem?_of_drop_eq_cons
          (by rw [← List.drop_drop, isRest, List.drop_one, List.tail_cons])
      exact .code (.hole opening earlier stood brace .nil outside)
  | @text nest template _ _ isText isNext =>
    cases stands with
    | text opening earlier outside =>
      have fits : taken.tail ≤ rest.length := by
        rw [← isStep]
        exact templateStep_tail_le nest first rest
      obtain ⟨isSplit, beyond⟩ := drop_after isRest fits
      have lexeme : TextAt source offset first (rest.take taken.tail) := by
        refine ⟨isRest.trans isSplit, nest, ?_⟩
        rw [beyond, List.take_append_drop, List.length_take, Nat.min_eq_left fits, ← isNext,
          ← isText]
        exact isStep
      rw [isNext]
      refine .text opening ?_ outside
      rw [← List.append_nil template.holes]
      exact earlier.append (.text lexeme .nil)

end Push

/-! ## Reading -/

/-- The tokens of a text stand in it from its beginning to its end. -/
theorem stands_of_readAll
    {source : String}
    {tokens : List Token}
    (read : readAll source = .ok tokens) :
    ∃ last, ListStands source.toList .divides 0 tokens last source.length := by
  obtain ⟨_, stands⟩ := exists_of_readAll
    (fun state offset reader => Reader.Stands source.toList offset state reader) read
    (.code (.module .nil)) fun isRest comes stands pushed => stands.push isRest comes pushed
  cases stands with
  | code stands =>
    cases stands with
    | module inside =>
      rw [List.reverse_reverse] at inside
      exact ⟨_, inside⟩

end Token

end Restyle
