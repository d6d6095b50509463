import Restyle.Proofs.Module.Parsed
import Restyle.Proofs.Token.Braces
import Restyle.Proofs.Use.Standing

/-!
Contract: the tokens of a module reproduce its text.

Owns: `Lexeme.Separates`, offsets with only blanks and comments of the scan
between them; `Token.Spaced`, a list of tokens with nothing else before, between
and after them; `Template.Spells`, by which the chunks and holes of a template
literal fill it; and that a parsed module has all three at every depth.

Does not own: how the tokens are read (`Proofs.Token.Reading`,
`Proofs.Token.Standing`).
-/

namespace Restyle

open Lexeme

/-- Blanks and comments of a text's scan fill it from one offset to another. -/
inductive Lexeme.Separates (source : String) : Nat → Nat → Prop where
  | nil {offset : Nat} : Lexeme.Separates source offset offset
  | cons {lexeme : Lexeme} {stop : Nat}
      (member : lexeme ∈ Lexeme.scan source)
      (isTrivia : lexeme.kind.isTrivia)
      (later : Lexeme.Separates source lexeme.stop stop) :
      Lexeme.Separates source lexeme.start stop

/-- Between two offsets there are the tokens of a list, and blanks and comments
before, between and after them. -/
inductive Token.Spaced (source : String) : Nat → List Token → Nat → Prop where
  | nil {start stop : Nat} (gap : Separates source start stop) : Token.Spaced source start [] stop
  | cons {start stop : Nat} {token : Token} {rest : List Token}
      (gap : Separates source start token.start)
      (later : Token.Spaced source token.stop rest stop) :
      Token.Spaced source start (token :: rest) stop

namespace Template

/-- The text between the backticks of a template: its chunks, and between them
what the source has in its holes. -/
def spelling (source : List Char) (template : Template) : List Char :=
  template.head.raw.toList ++ template.rest.flatMap fun link =>
    '$' :: '\x7b' :: Text.slice source link.hole.start link.hole.stop ++
      '\x7d' :: link.chunk.raw.toList

/-- The chunks and holes of a template literal meet at the marks between them,
and with its backticks they are its text. -/
structure Spells (source : List Char) (token : Token) (template : Template) : Prop where
  counts : template.chunks.length = template.holes.length + 1
  begins : template.head.start = token.start + 1
  opens : ∀ (index : Nat) (hole : Span) (chunk : Chunk),
    template.holes[index]? = some hole → template.chunks[index]? = some chunk →
      hole.start = chunk.stop + 2
  closes : ∀ (index : Nat) (hole : Span) (chunk : Chunk),
    template.holes[index]? = some hole → template.chunks[index + 1]? = some chunk →
      chunk.start = hole.stop + 1
  ends : ∀ chunk, template.chunks.getLast? = some chunk → token.stop = chunk.stop + 1
  raws : ∀ chunk ∈ template.chunks, chunk.raw.toList = Text.slice source chunk.start chunk.stop
  text : token.text.toList = '`' :: template.spelling source ++ ['`']

end Template

/-! ## Blanks and comments -/

namespace Lexeme

theorem Separates.le
    {source : String}
    {start stop : Nat}
    (separates : Separates source start stop) :
    start ≤ stop := by
  induction separates with
  | nil => exact Nat.le_refl _
  | cons _ _ _ inductionHypothesis => exact Nat.le_trans (Nat.le_add_right _ _) inductionHypothesis

/-- A lexeme that stands in a source is one of its scan. -/
theorem StandsAt.mem_scanFrom
    {source : List Char}
    {offset : Nat}
    {slash next : Slash}
    {first : Char}
    {body : List Char}
    {kind : Kind}
    (stands : StandsAt source offset slash first body kind next) :
    ⟨kind, String.ofList (first :: body), offset⟩ ∈ scanFrom .initial 0 source := by
  obtain ⟨nest, inner, comes, isStep⟩ := stands.isStep
  rw [stands.isText] at comes
  have member := comes.mem_scanFrom stands.isText
  have isLexeme : (State.code nest slash).lexeme offset first
      (body ++ source.drop (offset + body.length + 1)) =
        ⟨kind, String.ofList (first :: body), offset⟩ := by
    simp only [State.lexeme, step, isStep, List.take_left]
  rwa [isLexeme] at member

end Lexeme

namespace Token

/-- A blank or a comment before spaced tokens is one more lexeme between offsets. -/
theorem Spaced.lead
    {source : String}
    {slash next : Slash}
    {offset stop : Nat}
    {first : Char}
    {body : List Char}
    {kind : Lexeme.Kind}
    {tokens : List Token}
    (later : Spaced source (offset + body.length + 1) tokens stop)
    (lexeme : StandsAt source.toList offset slash first body kind next)
    (isTrivia : kind.isTrivia) :
    Spaced source offset tokens stop := by
  have member := lexeme.mem_scanFrom
  have isStop : (⟨kind, String.ofList (first :: body), offset⟩ : Lexeme).stop =
      offset + body.length + 1 := by
    rw [Lexeme.stop, String.length_ofList, List.length_cons, Nat.add_assoc]
  cases later with
  | nil gap => exact .nil (.cons member isTrivia (isStop ▸ gap))
  | cons gap rest => exact .cons (.cons member isTrivia (isStop ▸ gap)) rest

/-- Tokens that are read from a text are spaced in it. -/
theorem ListStands.spaced
    {source : String}
    {slash last : Slash}
    {offset stop : Nat}
    {tokens : List Token}
    (stands : ListStands source.toList slash offset tokens last stop) :
    Spaced source offset tokens stop :=
  match stands with
  | .nil => .nil .nil
  | .trivia lexeme isTrivia later => later.spaced.lead lexeme isTrivia
  | .cons own later => by
    obtain ⟨begins, ends⟩ := own.bounds
    exact .cons (begins ▸ .nil) (ends ▸ later.spaced)

/-- Spaced tokens that are not empty follow each other between the offsets. -/
theorem Spaced.ordered
    {source : String}
    {start stop : Nat}
    {tokens : List Token}
    (spaced : Spaced source start tokens stop)
    (filled : ∀ token ∈ tokens, token.start < token.stop) :
    start ≤ stop ∧
      tokens.Pairwise (fun one other => one.start < other.start ∧ one.stop ≤ other.start) ∧
      ∀ token ∈ tokens, start ≤ token.start ∧ token.stop ≤ stop := by
  induction spaced with
  | nil gap => exact ⟨gap.le, .nil, by simp⟩
  | @cons start stop token rest gap _ inductionHypothesis =>
    obtain ⟨own, filled⟩ := List.forall_mem_cons.mp filled
    obtain ⟨later, ordered, between⟩ := inductionHypothesis filled
    have early := gap.le
    refine ⟨by omega, List.pairwise_cons.mpr ⟨fun other member => ?_, ordered⟩, ?_⟩
    · have := (between other member).1
      omega
    · refine List.forall_mem_cons.mpr ⟨⟨early, later⟩, fun other member => ?_⟩
      have := between other member
      omega

theorem ListStands.filled
    {source : List Char}
    {slash last : Slash}
    {offset stop : Nat}
    {tokens : List Token}
    (stands : ListStands source slash offset tokens last stop) :
    ∀ token ∈ tokens, token.start < token.stop := by
  intro token member
  obtain ⟨_, _, _, _, own⟩ := stands.exists_stands member
  obtain ⟨rfl, rfl⟩ := own.bounds
  exact own.lt

mutual

/-- The holes of a token that stands, and those in them, stand in the source. -/
theorem Stands.inner_stands
    {source : List Char}
    {slash next : Slash}
    {offset stop : Nat}
    {token : Token}
    (stands : Stands source slash offset token next stop) :
    ∀ hole ∈ token.holes.flatMap withInner, hole.Stands source :=
  match stands with
  | .atom _ _ => by simp [Token.holes, Token.template?, ofLexeme]
  | .template _ _ _ _ inside _ => inside.inner_stands

private theorem ListStands.inner_stands
    {source : List Char}
    {slash last : Slash}
    {offset stop : Nat}
    {tokens : List Token}
    (stands : ListStands source slash offset tokens last stop) :
    ∀ hole ∈ holesIn tokens, hole.Stands source :=
  match stands with
  | .nil => by simp [holesIn]
  | .trivia _ _ later => later.inner_stands
  | .cons own later => by
    intro hole member
    rcases mem_holesIn_cons.mp member with inOwn | inLater
    · exact own.inner_stands hole inOwn
    · exact later.inner_stands hole inLater

private theorem TextStands.inner_stands
    {source : List Char}
    {offset stop : Nat}
    {holes : List Span}
    (stands : TextStands source offset holes stop) :
    ∀ hole ∈ holes.flatMap withInner, hole.Stands source :=
  match stands with
  | .nil => by simp
  | .text _ later => later.inner_stands
  | .hole _ _ begins inside closing later => by
    intro hole member
    rw [List.flatMap_cons, withInner, List.cons_append, List.mem_cons, List.mem_append] at member
    rcases member with rfl | inHole | inLater
    · exact ⟨⟨_, begins ▸ inside⟩, Nat.le_of_lt (Text.lt_length_of_getElem? closing)⟩
    · exact inside.inner_stands hole inHole
    · exact later.inner_stands hole inLater

end

end Token

/-! ## Template literals -/

namespace Template

private theorem Chunk.stop_chunkOf
    {source : List Char}
    {start stop : Nat}
    (ordered : start ≤ stop)
    (inside : stop ≤ source.length) :
    (Token.chunkOf source start stop).stop = stop := by
  rw [Chunk.stop, Token.chunkOf, String.length_ofList, Text.length_slice inside]
  exact Nat.add_sub_cancel' ordered

theorem HoleOpens.inside
    {source : List Char}
    {start stop : Nat}
    (opens : HoleOpens source start stop) :
    stop ≤ source.length :=
  Nat.le_of_lt (Text.lt_length_of_getElem? opens.dollar)

namespace Placed

variable
  {source : List Char}
  {start close : Nat}
  {chunk : Chunk}
  {links : List Link}

private theorem head_start
    (placed : Placed source start close chunk links) :
    chunk.start = start := by
  cases placed <;> rfl

private theorem getLast_stop (placed : Placed source start close chunk links) :
    ∀ last, (chunks ⟨chunk, links⟩).getLast? = some last → last.stop = close := by
  induction links generalizing start chunk with
  | nil =>
    cases placed with
    | last ordered _ closing =>
      have inside := Nat.le_of_lt (Text.lt_length_of_getElem? closing)
      simpa [chunks] using Chunk.stop_chunkOf ordered inside
  | cons link links inductionHypothesis =>
    cases placed with
    | hole _ _ _ _ later =>
      intro last isLast
      refine inductionHypothesis later last ?_
      rwa [chunks, List.map_cons, List.getLast?_cons_cons] at isLast

private theorem chunk_raw (placed : Placed source start close chunk links) :
    ∀ own ∈ chunks ⟨chunk, links⟩, own.raw.toList = Text.slice source own.start own.stop := by
  have isSlice {start stop : Nat} (ordered : start ≤ stop) (inside : stop ≤ source.length) :
      (Token.chunkOf source start stop).raw.toList = Text.slice source
        (Token.chunkOf source start stop).start (Token.chunkOf source start stop).stop := by
    rw [Chunk.stop_chunkOf ordered inside]
    exact String.toList_ofList
  induction links generalizing start chunk with
  | nil =>
    cases placed with
    | last ordered _ closing =>
      have inside := Nat.le_of_lt (Text.lt_length_of_getElem? closing)
      simpa [chunks] using isSlice ordered inside
  | cons link links inductionHypothesis =>
    cases placed with
    | hole opens _ _ _ later =>
      intro own member
      rcases List.mem_cons.mp member with rfl | member
      · exact isSlice opens.ordered opens.inside
      · exact inductionHypothesis later own member

private theorem hole_opens
    (placed : Placed source start close chunk links)
    {index : Nat}
    {hole : Span}
    {own : Chunk}
    (isHole : (holes ⟨chunk, links⟩)[index]? = some hole)
    (isChunk : (chunks ⟨chunk, links⟩)[index]? = some own) :
    hole.start = own.stop + 2 := by
  induction links generalizing start chunk index with
  | nil => simp [holes] at isHole
  | cons link links inductionHypothesis =>
    cases placed with
    | hole opens begins _ _ later =>
      cases index with
      | zero =>
        obtain rfl := Option.some.inj isHole
        obtain rfl := Option.some.inj isChunk
        rw [Chunk.stop_chunkOf opens.ordered opens.inside]
        exact begins
      | succ index => exact inductionHypothesis later isHole isChunk

private theorem hole_closes
    (placed : Placed source start close chunk links)
    {index : Nat}
    {hole : Span}
    {own : Chunk}
    (isHole : (holes ⟨chunk, links⟩)[index]? = some hole)
    (isChunk : (chunks ⟨chunk, links⟩)[index + 1]? = some own) :
    own.start = hole.stop + 1 := by
  induction links generalizing start chunk index with
  | nil => simp [holes] at isHole
  | cons link links inductionHypothesis =>
    cases placed with
    | hole _ _ _ _ later =>
      cases index with
      | zero =>
        obtain rfl := Option.some.inj isHole
        obtain rfl := Option.some.inj isChunk
        exact later.head_start
      | succ index => exact inductionHypothesis later isHole isChunk

/-- The chunks, the holes and the marks between them are the text up to the
closing backtick. -/
theorem slice_eq_spelling (placed : Placed source start close chunk links) :
    Text.slice source start close = spelling source ⟨chunk, links⟩ := by
  induction links generalizing start chunk with
  | nil =>
    cases placed with
    | last => simp [spelling, Token.chunkOf]
  | cons link links inductionHypothesis =>
    cases placed with
    | @hole _ stop _ hole next _ opens begins tokens closing later =>
      have ordered := opens.ordered
      have inHole := tokens.bounds
      have inLater := later.bounds.1
      have following := inductionHypothesis later
      calc Text.slice source start close
          = Text.slice source start stop ++ (Text.slice source stop (stop + 1) ++
              (Text.slice source (stop + 1) (stop + 2) ++
                (Text.slice source (stop + 2) hole.stop ++
                  (Text.slice source hole.stop (hole.stop + 1) ++
                    Text.slice source (hole.stop + 1) close)))) := by
            repeat rw [Text.slice_append_slice source (by omega) (by omega)]
        _ = spelling source ⟨Token.chunkOf source start stop, ⟨hole, next⟩ :: links⟩ := by
            rw [Text.slice_succ opens.dollar, Text.slice_succ opens.brace, Text.slice_succ closing,
              following, ← begins]
            simp [spelling, Token.chunkOf]

end Placed

private theorem spells_of_placed
    {source : List Char}
    {token : Token}
    {template : Template}
    (placed : Token.Placed source token)
    (isTemplate : token.template? = some template) :
    Spells source token template := by
  cases placed with
  | atom => simp [Token.template?, Token.ofLexeme] at isTemplate
  | @template start close literal opening inner =>
    obtain rfl := Option.some.inj isTemplate
    have stops := Token.Placed.stop_of_template inner
    have ordered := inner.bounds
    have spelled : Text.slice source (start + 1) close = literal.spelling source :=
      inner.slice_eq_spelling
    exact
      { counts := by simp [chunks, holes]
        begins := inner.head_start
        opens := fun _ _ _ isHole isChunk => inner.hole_opens isHole isChunk
        closes := fun _ _ _ isHole isChunk => inner.hole_closes isHole isChunk
        ends := fun last isLast => by rw [stops, inner.getLast_stop last isLast]
        raws := inner.chunk_raw
        text := by
          calc (String.ofList (Text.slice source start (close + 1))).toList
              = Text.slice source start (start + 1) ++ (Text.slice source (start + 1) close ++
                  Text.slice source close (close + 1)) := by
                rw [Text.slice_append_slice source (by omega) (by omega),
                  Text.slice_append_slice source (by omega) (by omega), String.toList_ofList]
            _ = '`' :: literal.spelling source ++ ['`'] := by
                rw [Text.slice_succ opening, Text.slice_succ ordered.2, spelled]
                rfl }

end Template

namespace Module

/-- The tokens of a module reproduce its text.  The module's own list and the
list of every hole are spaced between their offsets, their tokens one after the
other; every token is what stands between its offsets; and every template
literal is spelled by its chunks and holes. -/
theorem tokens_reproduce_source
    {source : String}
    {module : Module}
    (isModule : parse source = .ok module) :
    (∀ span ∈ Token.withInner ⟨module.tokens, 0, source.length⟩,
      Token.Spaced source span.start span.tokens span.stop ∧ span.stop ≤ source.length ∧
        span.tokens.Pairwise (fun one other => one.start < other.start ∧ one.stop ≤ other.start) ∧
        ∀ token ∈ span.tokens, span.start ≤ token.start ∧ token.stop ≤ span.stop) ∧
      ∀ token ∈ Token.everywhere module.tokens,
        token.text.toList = Text.slice source.toList token.start token.stop ∧
          token.start < token.stop ∧
          ∀ template, token.template? = some template →
            template.Spells source.toList token := by
  obtain ⟨tokens, isTokens, isRest⟩ := exists_of_bind_ok isModule
  obtain ⟨declarations, -, isAll⟩ := exists_of_bind_ok isRest
  obtain rfl := Except.ok.inj isAll
  obtain ⟨last, stands⟩ := Token.stands_of_readAll isTokens
  have placed := (Token.placed_of_readAll isTokens).everywhere_ordered.between
  refine ⟨fun span isSpan => ?_, fun token isToken => ?_⟩
  · obtain ⟨⟨slash, last, reads⟩, inside⟩ :
        (∃ slash last, Token.ListStands source.toList slash span.start span.tokens last span.stop) ∧
          span.stop ≤ source.length := by
      rcases List.mem_cons.mp isSpan with rfl | isHole
      · exact ⟨⟨_, _, stands⟩, Nat.le_refl _⟩
      · obtain ⟨⟨last, reads⟩, inside⟩ := stands.inner_stands span isHole
        exact ⟨⟨_, _, reads⟩, inside⟩
    exact ⟨reads.spaced, inside, (reads.spaced.ordered reads.filled).2⟩
  · have own := (placed token isToken).1
    exact ⟨own.text_eq, own.bounds.1, fun _ => Template.spells_of_placed own⟩

/-- A template literal in the hole of another, with comments around both. -/
def layeredSample : String :=
  "f(/* a */ `x$\x7b g(`y`) /* b */ \x7dz`) // c"

/-- The outer literal of the sample and its hole are reproduced. -/
theorem tokens_reproduce_layeredSample :
    ∃ module token template hole,
      parse layeredSample = .ok module ∧ token ∈ Token.everywhere module.tokens ∧
      token.template? = some template ∧ hole ∈ template.holes ∧ hole.tokens.length = 4 ∧
      template.Spells layeredSample.toList token ∧
      Token.Spaced layeredSample hole.start hole.tokens hole.stop := by
  have evaluates : ((parse layeredSample).toOption.any fun module =>
      (Token.everywhere module.tokens).any fun token =>
        token.template?.any fun template =>
          template.holes.any (·.tokens.length = 4)) = true := by
    decide +kernel
  obtain ⟨module, parses, evaluates⟩ := (Option.any_eq_true _ _).mp evaluates
  obtain ⟨token, isToken, evaluates⟩ := List.any_eq_true.mp evaluates
  obtain ⟨template, isTemplate, evaluates⟩ := (Option.any_eq_true _ _).mp evaluates
  obtain ⟨hole, isHole, four⟩ := List.any_eq_true.mp evaluates
  have isModule := ok_of_toOption parses
  obtain ⟨spaced, spelled⟩ := tokens_reproduce_source isModule
  have inner : hole ∈ Token.withInner ⟨module.tokens, 0, layeredSample.length⟩ := by
    refine List.mem_cons_of_mem _ (List.mem_flatMap.mpr ⟨token, isToken, ?_⟩)
    rw [Token.holes, isTemplate]
    exact isHole
  exact ⟨module, token, template, hole, isModule, isToken, isTemplate, isHole,
    of_decide_eq_true four, (spelled token isToken).2.2 template isTemplate, (spaced hole inner).1⟩

end Module

end Restyle
