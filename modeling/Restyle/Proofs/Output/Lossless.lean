import Restyle.Proofs.Edit.Substitution
import Restyle.Proofs.Module.Parsed
import Restyle.Proofs.Output.Outline
import Restyle.Registry.Packaged

/-!
Contract: the content of an invocation keeps the text of its source.

Owns: `Template.Marked`, how a template lies in the source, and
`Template.filled`, its text there with other texts in place of its holes;
`Use.Joined`, the text of content with what is spliced in place and numbered
placeholders for the other holes; and that written content joins to that text.
-/

namespace Restyle

/-! ## Templates with their holes filled -/

/-- The edit that puts a text in place of a hole and its marks. -/
def Template.holeEdit (hole : Span) (text : List Char) : Edit :=
  ⟨(hole.start : Int) - 2, hole.stop + 1, String.ofList text⟩

/-- The edits that put some texts in place of some holes. -/
def Template.holeEdits (holes : List Span) (texts : List (List Char)) : List Edit :=
  (holes.zip texts).map fun pair => Template.holeEdit pair.1 pair.2

/-- What stands between the backticks of a template that lies between two offsets
of a source, with some texts in place of its holes. -/
def Template.filled
    (source : List Char)
    (start stop : Nat)
    (holes : List Span)
    (texts : List (List Char)) : List Char :=
  Edit.substituteFrom (Template.holeEdits holes texts) (start + 1)
    (Text.slice source (start + 1) (stop - 1))

/-- A hole of a template stands between its marks, which lie between two offsets
of a source. -/
structure Span.Marked (source : List Char) (start stop : Nat) (hole : Span) : Prop where
  early : start + 2 ≤ hole.start
  ordered : hole.start ≤ hole.stop
  late : hole.stop < stop
  dollar : source[hole.start - 2]? = some '$'
  brace : source[hole.start - 1]? = some '{'
  closing : source[hole.stop]? = some '}'

/-- A template lies between two offsets of a source: backticks, with its holes and
their marks between them in order. -/
structure Template.Marked (source : List Char) (start stop : Nat) (holes : List Span) : Prop where
  opening : source[start]? = some '`'
  closing : source[stop - 1]? = some '`'
  marks : ∀ hole ∈ holes, hole.Marked source (start + 1) (stop - 1)
  apart : holes.Pairwise fun left right => left.stop + 1 + 2 ≤ right.start

namespace Use

/-- The parts of content as text, with some texts in place of its holes. -/
def fillParts : List Part → List (List Char) → List Char
  | [], _ => []
  | .literal text :: rest, texts => text.toList ++ fillParts rest texts
  | .hole _ :: rest, [] => fillParts rest []
  | .hole _ :: rest, text :: texts => text ++ fillParts rest texts

/-- Content of a source with some texts in place of its holes: what stands
between the backticks of a template, the text of a string, or one text for each
argument. -/
def Content.filled (source : List Char) (texts : List (List Char)) : Content → List Char
  | .template literal start stop => Template.filled source start stop literal.holes texts
  | .arguments spans _ =>
    if isStringLike spans then
      (spans.flatMap (·.tokens)).flatMap fun token =>
        match token.template? with
        | some literal => Template.filled source token.start token.stop literal.holes texts
        | none => (Text.templateRaw token.text).toList
    else texts.flatten

mutual

/-- The text of content and the number after its last slot, given the number of
its first. -/
inductive Joined (scope : Scope) (source : List Char) (placeholder : Nat → String) :
    Nat → Content → List Char → Nat → Prop where
  | intro {index last : Nat} {content : Content} {texts : List (List Char)}
      (holes : HolesJoined scope source placeholder index content.holes texts last) :
      Joined scope source placeholder index content (content.filled source texts) last

/-- The texts of holes: the text of the content that is spliced from a hole, or
the placeholder of the next slot. -/
inductive HolesJoined (scope : Scope) (source : List Char) (placeholder : Nat → String) :
    Nat → List Span → List (List Char) → Nat → Prop where
  | nil {index : Nat} : HolesJoined scope source placeholder index [] [] index
  | spliced {index middle last : Nat} {hole : Span} {holes : List Span} {text : List Char}
      {texts : List (List Char)} {use : Use} {content : Content}
      (isNested : nested? scope hole = .ok (some (use, content)))
      (own : Joined scope source placeholder index content text middle)
      (later : HolesJoined scope source placeholder middle holes texts last) :
      HolesJoined scope source placeholder index (hole :: holes) (text :: texts) last
  | slot {index last : Nat} {hole : Span} {holes : List Span} {texts : List (List Char)}
      (notNested : nested? scope hole = .ok none)
      (later : HolesJoined scope source placeholder (index + 1) holes texts last) :
      HolesJoined scope source placeholder index (hole :: holes)
        ((placeholder index).toList :: texts) last

end

mutual

/-- The text of content is one, and so is the number after its last slot. -/
theorem Joined.unique
    {scope : Scope}
    {source : List Char}
    {placeholder : Nat → String}
    {index last otherLast : Nat}
    {content : Content}
    {text otherText : List Char}
    (joined : Joined scope source placeholder index content text last)
    (other : Joined scope source placeholder index content otherText otherLast) :
    text = otherText ∧ last = otherLast :=
  match joined, other with
  | .intro holes, .intro otherHoles => by
    obtain ⟨sameTexts, sameLast⟩ := holes.unique otherHoles
    exact ⟨by rw [sameTexts], sameLast⟩

theorem HolesJoined.unique
    {scope : Scope}
    {source : List Char}
    {placeholder : Nat → String}
    {index last otherLast : Nat}
    {holes : List Span}
    {texts otherTexts : List (List Char)}
    (joined : HolesJoined scope source placeholder index holes texts last)
    (other : HolesJoined scope source placeholder index holes otherTexts otherLast) :
    texts = otherTexts ∧ last = otherLast := by
  match joined with
  | .nil =>
    cases other
    exact ⟨rfl, rfl⟩
  | .spliced isNested own later =>
    cases other with
    | spliced otherNested otherOwn otherLater =>
      obtain ⟨rfl, rfl⟩ : _ = _ ∧ _ = _ := by simpa using isNested.symm.trans otherNested
      obtain ⟨sameText, sameMiddle⟩ := own.unique otherOwn
      rw [← sameMiddle] at otherLater
      obtain ⟨sameTexts, sameLast⟩ := later.unique otherLater
      exact ⟨by rw [sameText, sameTexts], sameLast⟩
    | slot notNested => simp [isNested] at notNested
  | .slot notNested later =>
    cases other with
    | spliced otherNested => simp [notNested] at otherNested
    | slot _ otherLater =>
      obtain ⟨sameTexts, sameLast⟩ := later.unique otherLater
      exact ⟨by rw [sameTexts], sameLast⟩

end

private theorem Joined.exists_holes
    {scope : Scope}
    {source : List Char}
    {placeholder : Nat → String}
    {index last : Nat}
    {content : Content}
    {text : List Char}
    (joined : Joined scope source placeholder index content text last) :
    ∃ texts, HolesJoined scope source placeholder index content.holes texts last := by
  cases joined with
  | intro holes => exact ⟨_, holes⟩

private theorem HolesJoined.length_eq
    {scope : Scope}
    {source : List Char}
    {placeholder : Nat → String}
    {index last : Nat}
    {holes : List Span}
    {texts : List (List Char)}
    (joined : HolesJoined scope source placeholder index holes texts last) :
    texts.length = holes.length := by
  induction holes generalizing index texts with
  | nil =>
    cases joined
    rfl
  | cons hole holes inductionHypothesis =>
    cases joined with
    | spliced _ _ later => rw [List.length_cons, List.length_cons, inductionHypothesis later]
    | slot _ later => rw [List.length_cons, List.length_cons, inductionHypothesis later]

end Use

/-! ## Filled templates as parts -/

/-- The holes after a chunk stand between their marks. -/
theorem Template.Placed.hole_marked
    {source : List Char}
    {start close : Nat}
    {chunk : Template.Chunk}
    {links : List Template.Link}
    (placed : Template.Placed source start close chunk links)
    {hole : Span}
    (isHole : hole ∈ links.map (·.hole)) :
    hole.Marked source start close := by
  induction links generalizing start chunk with
  | nil => simp at isHole
  | cons link links inductionHypothesis =>
    cases placed with
    | @hole _ stop _ first _ _ opens begins tokens closing later =>
      have early := opens.ordered
      have inner := tokens.bounds
      have bounds := later.bounds
      rcases List.mem_cons.mp isHole with rfl | isLater
      · refine ⟨by omega, inner, by omega, ?_, ?_, closing⟩
        · rw [begins]
          exact opens.dollar
        · rw [begins]
          exact opens.brace
      · have marked := inductionHypothesis later isLater
        have := marked.early
        exact { marked with early := by omega }

private theorem Template.Placed.holes_apart
    {source : List Char}
    {start close : Nat}
    {chunk : Template.Chunk}
    {links : List Template.Link}
    (placed : Template.Placed source start close chunk links) :
    (links.map (·.hole)).Pairwise fun left right => left.stop + 1 + 2 ≤ right.start := by
  induction links generalizing start chunk with
  | nil => exact .nil
  | cons link links inductionHypothesis =>
    cases placed with
    | hole opens begins tokens closing later =>
      exact List.pairwise_cons.mpr
        ⟨fun other isOther => (later.hole_marked isOther).early, inductionHypothesis later⟩

private theorem Token.Placed.marked
    {source : List Char}
    {token : Token}
    {literal : Template}
    (placed : Token.Placed source token)
    (isTemplate : token.template? = some literal) :
    Template.Marked source token.start token.stop literal.holes := by
  cases placed with
  | atom => simp [Token.template?, Token.ofLexeme] at isTemplate
  | template opening inner =>
    simp only [Token.template?, Option.some.injEq] at isTemplate
    subst isTemplate
    rw [Token.Placed.stop_of_template inner]
    exact ⟨opening, inner.bounds.2, fun hole isHole => inner.hole_marked isHole, inner.holes_apart⟩

/-- A template in the source with its holes filled is its chunks with the texts
between them. -/
theorem Template.Placed.substituteFrom_holes
    {source : List Char}
    {start close : Nat}
    {chunk : Template.Chunk}
    {links : List Template.Link}
    {texts : List (List Char)}
    (placed : Template.Placed source start close chunk links)
    (size : texts.length = links.length) :
    Edit.substituteFrom (Template.holeEdits (links.map (·.hole)) texts) start
        (Text.slice source start close) =
      Use.fillParts (.literal chunk.raw ::
        links.flatMap fun link => [.hole link.hole, .literal link.chunk.raw]) texts := by
  induction links generalizing start chunk texts with
  | nil =>
    cases placed with
    | last ordered inert closing =>
      rw [List.map_nil, Template.holeEdits, List.zip_nil_left, List.map_nil,
        Edit.substituteFrom_nil]
      simp [Use.fillParts, Token.chunkOf]
  | cons link links inductionHypothesis =>
    obtain ⟨text, texts, rfl⟩ := List.exists_cons_of_length_eq_add_one size
    cases placed with
    | @hole _ stop _ hole next _ opens begins tokens closing later =>
      have early := opens.ordered
      have inner := tokens.bounds
      have bounds := later.bounds
      have inside := Text.lt_length_of_getElem? bounds.2
      have gapLength : (Text.slice source start stop).length = stop - start :=
        Text.length_slice (by omega)
      have regionLength : (Text.slice source stop (hole.stop + 1)).length = hole.stop + 1 - stop :=
        Text.length_slice (by omega)
      have split : Text.slice source start close = Text.slice source start stop ++
          (Text.slice source stop (hole.stop + 1) ++ Text.slice source (hole.stop + 1) close) := by
        rw [Text.slice_append_slice source (by omega) bounds.1,
          Text.slice_append_slice source (by omega) (by omega)]
      have others : ∀ other ∈ Template.holeEdits (links.map (·.hole)) texts,
          (Template.holeEdit hole text).stop ≤ other.start := by
        intro other member
        obtain ⟨pair, isPair, rfl⟩ := List.mem_map.mp member
        have := (later.hole_marked (List.of_mem_zip isPair).1).early
        simp only [Template.holeEdit]
        omega
      rw [split, List.map_cons, Template.holeEdits, List.zip_cons_cons, List.map_cons,
        ← Template.holeEdits, Edit.substituteFrom_edit (by simp only [Template.holeEdit]; omega)
          (by simp only [Template.holeEdit]; omega)
          (List.ne_nil_of_length_pos (by omega)) others,
        gapLength, regionLength, show start + (stop - start) + (hole.stop + 1 - stop) =
          hole.stop + 1 by omega, inductionHypothesis later (by simpa using size)]
      simp [Use.fillParts, Token.chunkOf, Template.holeEdit]

/-- A template token with its holes filled is its parts with the texts between
them. -/
theorem Token.Placed.filled_eq
    {source : List Char}
    {token : Token}
    {literal : Template}
    {texts : List (List Char)}
    (placed : Token.Placed source token)
    (isTemplate : token.template? = some literal)
    (size : texts.length = literal.holes.length) :
    Template.filled source token.start token.stop literal.holes texts =
      Use.fillParts (Use.templateParts literal) texts := by
  cases placed with
  | atom => simp [Token.template?, Token.ofLexeme] at isTemplate
  | template opening inner =>
    simp only [Token.template?, Option.some.injEq] at isTemplate
    subst isTemplate
    rw [Token.Placed.stop_of_template inner]
    exact inner.substituteFrom_holes (by simpa [Template.holes] using size)

namespace Use

private theorem fillParts_holes {spans : List Span} {texts : List (List Char)}
    (size : texts.length = spans.length) :
    fillParts (spans.map .hole) texts = texts.flatten := by
  induction spans generalizing texts with
  | nil =>
    rw [List.length_nil, List.length_eq_zero_iff] at size
    simp [size, fillParts]
  | cons span spans inductionHypothesis =>
    obtain ⟨text, texts, rfl⟩ := List.exists_cons_of_length_eq_add_one size
    rw [List.map_cons, fillParts, inductionHypothesis (by simpa using size), List.flatten_cons]

/-- Content with its holes filled is its parts with the texts in place. -/
theorem Content.Covers.filled_eq
    {source : List Char}
    {content : Content}
    {covered : List Token}
    {texts : List (List Char)}
    (covers : content.Covers covered)
    (placed : ∀ token ∈ covered, Token.Placed source token)
    (size : texts.length = content.holes.length) :
    content.filled source texts = fillParts content.parts texts := by
  cases covers with
  | @template token literal isTemplate =>
    have isHoles : (Content.template literal token.start token.stop).holes = literal.holes :=
      holes_templateParts literal
    rw [isHoles] at size
    exact (placed token (List.mem_singleton.mpr rfl)).filled_eq isTemplate size
  | @call openParen closer inner isAtom opens closes =>
    simp only [Content.filled, Content.parts]
    by_cases stringLike : isStringLike (argumentsOf inner)
    · rw [if_pos stringLike, if_pos stringLike]
      have inCovered : ∀ token ∈ (argumentsOf inner).flatMap (·.tokens),
          Token.Placed source token := fun token member =>
        placed token (List.mem_cons_of_mem _
          (List.mem_append_left _ ((argumentsOf_sublist inner).subset member)))
      rw [Content.holes, Content.parts, if_pos stringLike] at size
      rcases tokens_of_stringLike stringLike with isNone | ⟨token, isOne, _⟩
      · rw [isNone]
        rfl
      · rw [isOne] at inCovered size ⊢
        rw [List.flatMap_singleton, List.flatMap_singleton]
        rw [List.flatMap_singleton] at size
        unfold tokenParts at size ⊢
        cases isTemplate : token.template? with
        | none => simp [fillParts]
        | some literal =>
          simp only [isTemplate, holes_templateParts] at size
          exact (inCovered token (List.mem_singleton.mpr rfl)).filled_eq isTemplate size
    · rw [if_neg stringLike, if_neg stringLike]
      rw [holes_of_not_stringLike stringLike] at size
      exact (fillParts_holes size).symm

/-! ## The text of planned content -/

/-- Planned content has the text that joining its source gives. -/
def Joins (scope : Scope) (source : List Char) (placeholder : Nat → String)
    (content : Content) : Prop :=
  ∀ index finished, Plan.piecesTrace (Plan.ofContent scope content) = .ok finished →
    Joined scope source placeholder index content
      (Plan.outlineText placeholder index (Plan.outline (Plan.ofContent scope content)))
      (index + Plan.slotCount (Plan.outline (Plan.ofContent scope content)))

private theorem exists_holesJoined
    {scope : Scope}
    {source : List Char}
    {placeholder : Nat → String}
    (parts : List Part)
    (nested : ∀ span ∈ parts.filterMap Part.hole?, ∀ use content,
      nested? scope span = .ok (some (use, content)) → Joins scope source placeholder content)
    (index : Nat)
    {finished : List Use}
    (traced : Plan.piecesTrace (parts.map (Plan.ofPart scope)) = .ok finished) :
    ∃ texts,
      HolesJoined scope source placeholder index (parts.filterMap Part.hole?) texts
        (index + Plan.slotCount (Plan.outline (parts.map (Plan.ofPart scope)))) ∧
      Plan.outlineText placeholder index (Plan.outline (parts.map (Plan.ofPart scope))) =
        fillParts parts texts := by
  induction parts generalizing index finished with
  | nil => exact ⟨[], .nil, rfl⟩
  | cons part parts inductionHypothesis =>
    rw [List.map_cons, Plan.piecesTrace] at traced
    obtain ⟨first, isFirst, isRest⟩ := exists_of_bind_ok traced
    obtain ⟨others, isOthers, _⟩ := exists_of_bind_ok isRest
    rw [List.map_cons, Plan.outline, Plan.outlineText_append, Plan.slotCount_append]
    cases part with
    | literal text =>
      obtain ⟨texts, joined, isText⟩ := inductionHypothesis
        (fun span member => nested span member) index isOthers
      refine ⟨texts, ?_, ?_⟩
      · rw [List.filterMap_cons_none rfl]
        simpa [Plan.ofPart, Plan.Piece.outline, Plan.slotCount] using joined
      · simp [Plan.ofPart, Plan.Piece.outline, Plan.outlineText, Plan.slotCount, isText, fillParts]
    | hole span =>
      have later := fun span member => nested span (List.mem_cons_of_mem _ member)
      rw [Plan.ofPart] at isFirst
      cases isNested : nested? scope span with
      | error fault => simp [Plan.ofHole_of_fault isNested, Plan.Piece.trace] at isFirst
      | ok result =>
        cases result with
        | none =>
          obtain ⟨texts, joined, isText⟩ := inductionHypothesis later (index + 1) isOthers
          rw [Plan.ofPart, Plan.ofHole_of_not_nested? isNested, Plan.Piece.outline]
          refine ⟨(placeholder index).toList :: texts, .slot isNested ?_, ?_⟩
          · simpa [Plan.slotCount, Nat.add_assoc] using joined
          · simp [Plan.outlineText, Plan.slotCount, isText, fillParts]
        | some pair =>
          obtain ⟨use, content⟩ := pair
          rw [Plan.ofHole_of_nested? isNested, Plan.Piece.trace] at isFirst
          have own := nested span List.mem_cons_self use content isNested index first isFirst
          obtain ⟨texts, joined, isText⟩ := inductionHypothesis later
            (index + Plan.slotCount (Plan.outline (Plan.ofContent scope content))) isOthers
          rw [Plan.ofPart, Plan.ofHole_of_nested? isNested, Plan.Piece.outline]
          refine ⟨_ :: texts, .spliced isNested own ?_, ?_⟩
          · rwa [← Nat.add_assoc]
          · rw [isText, fillParts]

/-- Planned content whose tokens stand in a source has the text that joining the
source gives. -/
theorem joins_of_covers
    {scope : Scope}
    {source : List Char}
    {placeholder : Nat → String}
    {content : Content}
    {covered : List Token}
    (covers : content.Covers covered)
    (placed : ∀ token ∈ covered, Token.Placed source token) :
    Joins scope source placeholder content := by
  apply content_induction scope source _ covers placed
  intro content covered covers placed nested index finished traced
  rw [Plan.ofContent_eq] at traced ⊢
  obtain ⟨texts, joined, isText⟩ := exists_holesJoined content.parts nested index traced
  rw [isText, ← covers.filled_eq placed joined.length_eq]
  exact .intro joined

/-! ## Content that is a template -/

/-- The template that content is, and the offsets between which it stands: a
template after the macro, or the only argument of a call. -/
def Content.template? : Content → Option (Template × Nat × Nat)
  | .template literal start stop => some (literal, start, stop)
  | .arguments [⟨[token], _, _⟩] _ =>
    token.template?.map fun literal => (literal, token.start, token.stop)
  | _ => none

/-- Content that is a template is the template of a token that it is read from,
and has the holes and the text of that template. -/
theorem Content.Covers.exists_template
    {content : Content}
    {covered : List Token}
    {literal : Template}
    {start stop : Nat}
    (covers : content.Covers covered)
    (isTemplate : content.template? = some (literal, start, stop)) :
    ∃ token ∈ covered, token.template? = some literal ∧ token.start = start ∧
      token.stop = stop ∧ content.holes = literal.holes ∧ ∀ source texts,
        content.filled source texts = Template.filled source start stop literal.holes texts := by
  cases covers with
  | @template token own isOwn =>
    simp only [Content.template?, Option.some.injEq, Prod.mk.injEq] at isTemplate
    obtain ⟨rfl, rfl, rfl⟩ := isTemplate
    exact ⟨token, List.mem_singleton.mpr rfl, isOwn, rfl, rfl, holes_templateParts own,
      fun _ _ => rfl⟩
  | @call openParen closer inner isAtom opens closes =>
    generalize isSpans : argumentsOf inner = spans at isTemplate ⊢
    unfold Content.template? at isTemplate
    split at isTemplate
    · rename_i isContent
      exact nomatch isContent
    · rename_i token spanStart spanStop callStop isContent
      obtain ⟨rfl, -⟩ := Content.arguments.inj isContent
      obtain ⟨own, isOwn, isParts⟩ := Option.map_eq_some_iff.mp isTemplate
      simp only [Prod.mk.injEq] at isParts
      obtain ⟨rfl, rfl, rfl⟩ := isParts
      have stringLike : isStringLike [⟨[token], spanStart, spanStop⟩] = true := by
        simp [isStringLike, Token.isTemplate, isOwn]
      have inInner : token ∈ inner := by
        refine (argumentsOf_sublist inner).subset ?_
        rw [isSpans]
        exact List.mem_singleton.mpr rfl
      refine ⟨token, ?_, isOwn, rfl, rfl, ?_, fun source texts => ?_⟩
      · exact List.mem_cons_of_mem _ (List.mem_append_left _ inInner)
      · simp [Content.holes, Content.parts, stringLike, tokenParts, isOwn, holes_templateParts]
      · simp [Content.filled, stringLike, isOwn]
    · simp at isTemplate

open Output.Writer in
/-- Written content that is a template joins to what stands between its backticks
in the source, with each hole that is spliced replaced by the text of what it
holds, and each other hole by the placeholder of its number among all those that
are left.  The use may be found at any site whose later tokens are the module's,
at any depth. -/
theorem template_content_is_kept
    {source : String}
    {module : Module}
    {scope : Scope}
    {site : Site}
    {found : Match}
    {spec : Spec}
    {receiver : Receiver}
    {content : Content}
    {literal : Template}
    {start stop : Nat}
    {frame : Output.Frame}
    {before after : Output.Progress}
    {fragments : Fragments}
    (isModule : Module.parse source = .ok module)
    (inModule : ∀ token ∈ site.after, token ∈ Token.everywhere module.tokens)
    (isMatch : matchAt scope site = .ok (some found))
    (isInvocation : found.use.role = .invocation spec receiver content)
    (isTemplate : content.template? = some (literal, start, stop))
    (gives : Gives (Output.ofPieces frame (Plan.ofContent scope content)) before fragments after)
    (placeholder : Nat → String) :
    Template.Marked source.toList start stop literal.holes ∧
      (∃ texts last, HolesJoined scope source.toList placeholder 0 literal.holes texts last) ∧
      ∀ texts last, HolesJoined scope source.toList placeholder 0 literal.holes texts last →
        fragments.join placeholder =
          String.ofList (Template.filled source.toList start stop literal.holes texts) := by
  obtain ⟨isSource, parsed⟩ := Module.parsed_of_parse isModule
  have covers := (foundAt_of_matchAt isMatch).covers.covers
  rw [isInvocation] at covers
  obtain ⟨own, contentCovers, inCovered⟩ := covers.exists_content
  have placed : ∀ token ∈ own, Token.Placed source.toList token := by
    intro token member
    rw [← isSource]
    exact parsed.placed_everywhere (inModule token (List.mem_of_mem_take (inCovered member)))
  obtain ⟨token, isToken, isOwn, rfl, rfl, sameHoles, sameText⟩ :=
    contentCovers.exists_template isTemplate
  obtain ⟨made, _, traced⟩ := Output.wrote_ofPieces _ gives
  have joins : Joins scope source.toList placeholder content := joins_of_covers contentCovers placed
  have joined := joins 0 _ traced
  refine ⟨(placed token isToken).marked isOwn, ?_, fun texts last otherHoles => ?_⟩
  · obtain ⟨texts, holes⟩ := joined.exists_holes
    rw [sameHoles] at holes
    exact ⟨texts, _, holes⟩
  · rw [← sameHoles] at otherHoles
    have isFilled := (joined.unique (.intro otherHoles)).1
    rw [← sameText, ← isFilled, ← Output.join_ofContent gives, String.ofList_toList]

/-- A template with a hole that is spliced and one that is left. -/
def splicedSample : String :=
  "import \x7b css \x7d from './macro'\na = css`x$\x7bcss`y`\x7d$\x7bb\x7d`"

def sampleScope (module : Module) : Scope :=
  ⟨module, Registry.packaged,
    Binding.Table.ofList (Binding.listOf {} Registry.packaged module)⟩

/-- The site of a token of the module's own list. -/
def siteAt? (module : Module) (index : Nat) : Option Site :=
  match module.tokens.drop index with
  | [] => none
  | token :: after => some ⟨(module.tokens.take index).reverse, token, after⟩

private theorem after_of_siteAt?
    {module : Module}
    {index : Nat}
    {site : Site}
    (isSite : siteAt? module index = some site) :
    ∀ token ∈ site.after, token ∈ Token.everywhere module.tokens := by
  intro token member
  unfold siteAt? at isSite
  split at isSite
  · simp at isSite
  · rename_i first after isRest
    rw [← Option.some.inj isSite] at member
    apply Token.subset_everywhere
    apply List.mem_of_mem_drop (i := index)
    rw [isRest]
    exact List.mem_cons_of_mem _ member

/-- What is written for the content of the use at a site, if it is a template. -/
def fragmentsAt? (scope : Scope) (site : Site) : Option Fragments :=
  match matchAt scope site with
  | .ok (some ⟨⟨_, _, _, .invocation _ _ content⟩, _⟩) =>
    if content.template?.isSome then
      (ExceptT.run (Output.ofPieces ⟨scope.module.source, "", {}⟩ (Plan.ofContent scope content))
        ⟨.ofTaken [], []⟩).1.toOption
    else none
  | _ => none

open Output.Writer in
/-- The sample joins to its text with one placeholder. -/
theorem splicedSample_is_kept :
    ∃ (module : Module) (content : Content) (literal : Template) (start stop : Nat)
        (fragments : Fragments) (texts : List (List Char)) (last : Nat),
      Module.parse splicedSample = .ok module ∧
      content.template? = some (literal, start, stop) ∧
      HolesJoined (sampleScope module) splicedSample.toList toString 0 literal.holes texts last ∧
      fragments.join toString = "xy0" ∧
      fragments.join toString =
        String.ofList (Template.filled splicedSample.toList start stop literal.holes texts) := by
  have evaluates : (Module.parse splicedSample).toOption.any (fun module =>
      ((siteAt? module 8).bind (fragmentsAt? (sampleScope module))).any
        (·.join toString = "xy0")) := by
    decide +kernel
  obtain ⟨module, parses, evaluates⟩ := (Option.any_eq_true _ _).mp evaluates
  have isModule := ok_of_toOption parses
  obtain ⟨fragments, isWritten, isJoined⟩ := (Option.any_eq_true _ _).mp evaluates
  obtain ⟨site, isSite, isFragments⟩ := Option.bind_eq_some_iff.mp isWritten
  unfold fragmentsAt? at isFragments
  split at isFragments
  · rename_i isMatch
    split at isFragments
    · rename_i content _ isTemplate
      obtain ⟨⟨literal, start, stop⟩, isTemplate⟩ := Option.isSome_iff_exists.mp isTemplate
      obtain ⟨progress, gives, _⟩ := exists_gives (ok_of_toOption isFragments)
      obtain ⟨-, ⟨texts, last, holes⟩, isKept⟩ := template_content_is_kept isModule
        (after_of_siteAt? isSite) isMatch rfl isTemplate gives toString
      exact ⟨module, content, literal, start, stop, fragments, texts, last, isModule, isTemplate,
        holes, of_decide_eq_true isJoined, isKept texts last holes⟩
    · simp at isFragments
  · simp at isFragments

end Use

end Restyle
