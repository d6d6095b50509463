import Restyle.Proofs.Expansion.Accounts
import Restyle.Proofs.Template.Reread
import Restyle.Proofs.Token.Ends

/-!
Contract: which literal texts of an expansion stay text between backticks.

Owns: that each text an expansion puts together comes from texts that are read
back as they are; `OpensHole`, by which a dollar sign and a brace of two such
texts meet; and that a text of an output is read back exactly when they do not.
-/

namespace Restyle

open Restyle.Token

/-! ## Texts of content -/

private theorem Template.Placed.chunk_inert
    {source : List Char}
    {start close : Nat}
    {chunk : Template.Chunk}
    {links : List Template.Link}
    (placed : Template.Placed source start close chunk links) :
    ∀ own ∈ chunk :: links.map (·.chunk), Template.isInert own.raw.toList := by
  induction links generalizing start chunk with
  | nil =>
    intro own isOwn
    cases placed with
    | last ordered inert closing =>
      rw [List.mem_singleton.mp isOwn]
      simpa [Token.chunkOf] using inert
  | cons link links inductionHypothesis =>
    intro own isOwn
    cases placed with
    | hole opens begins tokens closing later =>
      rcases List.mem_cons.mp isOwn with rfl | isLater
      · simpa [Token.chunkOf] using opens.inert
      · exact inductionHypothesis later own isLater

namespace Use

private theorem exists_chunk_of_templateParts
    {literal : Template}
    {text : String}
    (member : .literal text ∈ templateParts literal) :
    ∃ chunk ∈ literal.chunks, chunk.raw = text := by
  simp only [templateParts, List.mem_cons, Part.literal.injEq, List.mem_flatMap, reduceCtorEq,
    List.not_mem_nil, or_false, false_or] at member
  rcases member with rfl | ⟨link, isLink, rfl⟩
  · exact ⟨literal.head, List.mem_cons_self, rfl⟩
  · exact ⟨link.chunk, List.mem_cons_of_mem _ (List.mem_map_of_mem isLink), rfl⟩

/-- The texts of a string or a template that stands in a source are inert. -/
theorem inert_of_tokenParts
    {source : List Char}
    {token : Token}
    {text : String}
    (placed : Token.Placed source token)
    (isKind : token.is .string ∨ token.isTemplate)
    (member : .literal text ∈ tokenParts token) :
    Template.isInert text.toList := by
  unfold tokenParts at member
  cases isTemplate : token.template? with
  | some literal =>
    simp only [isTemplate] at member
    obtain ⟨chunk, isChunk, rfl⟩ := exists_chunk_of_templateParts member
    cases placed with
    | atom => simp [Token.template?, Token.ofLexeme] at isTemplate
    | template opening inner =>
      simp only [Token.template?, Option.some.injEq] at isTemplate
      subst isTemplate
      exact inner.chunk_inert chunk isChunk
  | none =>
    simp only [isTemplate, List.mem_singleton, Part.literal.injEq] at member
    have isString : token.is .string := by
      simpa [Token.isTemplate, isTemplate] using isKind
    obtain ⟨quote, body, _, spelled, whole⟩ := placed.spelling_of_string isString
    have isBody : (Text.unquote token.text).toList = body := by
      simp [Text.unquote, spelled]
    rw [member, Text.templateRaw, isBody, String.toList_ofList]
    exact Template.isInert_templateRawChars whole

private theorem Content.Covers.literal_inert
    {source : List Char}
    {content : Content}
    {covered : List Token}
    {text : String}
    (covers : content.Covers covered)
    (placed : ∀ token ∈ covered, Token.Placed source token)
    (member : .literal text ∈ content.parts) :
    Template.isInert text.toList := by
  cases covers with
  | @template token literal isTemplate =>
    have isPart : .literal text ∈ tokenParts token := by
      simpa [Content.parts, tokenParts, isTemplate] using member
    apply inert_of_tokenParts (placed token (List.mem_singleton.mpr rfl)) _ isPart
    exact .inr (by simp [Token.isTemplate, isTemplate])
  | @call openParen closer inner isAtom opens closes =>
    by_cases stringLike : isStringLike (argumentsOf inner)
    · rw [Content.parts, if_pos stringLike] at member
      rcases tokens_of_stringLike stringLike with isNone | ⟨token, isOne, isKind⟩
      · simp [isNone] at member
      · rw [isOne, List.flatMap_singleton] at member
        have isToken : token ∈ (argumentsOf inner).flatMap (·.tokens) := by simp [isOne]
        have isCovered : token ∈ openParen :: inner ++ [closer] := List.mem_cons_of_mem _
          (List.mem_append_left _ ((argumentsOf_sublist inner).subset isToken))
        exact inert_of_tokenParts (placed token isCovered) isKind member
    · rw [Content.parts, if_neg stringLike] at member
      simp at member

private theorem cases_of_mem_outline
    {scope : Scope}
    {text : String}
    {parts : List Part}
    (member : some text ∈ Plan.outline (parts.map (Plan.ofPart scope))) :
    .literal text ∈ parts ∨ ∃ span ∈ parts.filterMap Part.hole?, ∃ use content,
      nested? scope span = .ok (some (use, content)) ∧
        some text ∈ Plan.outline (Plan.ofContent scope content) := by
  induction parts with
  | nil => simp [Plan.outline] at member
  | cons part parts inductionHypothesis =>
    rw [List.map_cons, Plan.outline] at member
    rcases List.mem_append.mp member with isOwn | isLater
    · cases part with
      | literal own =>
        simp only [Plan.ofPart, Plan.Piece.outline, List.mem_singleton, Option.some.injEq] at isOwn
        rw [isOwn]
        exact .inl List.mem_cons_self
      | hole span =>
        rw [Plan.ofPart] at isOwn
        cases isNested : nested? scope span with
        | error fault => simp [Plan.ofHole_of_fault isNested, Plan.Piece.outline] at isOwn
        | ok result =>
          cases result with
          | none => simp [Plan.ofHole_of_not_nested? isNested, Plan.Piece.outline] at isOwn
          | some pair =>
            rw [Plan.ofHole_of_nested? isNested, Plan.Piece.outline] at isOwn
            exact .inr ⟨span, List.mem_cons_self, pair.1, pair.2, isNested, isOwn⟩
    · rcases inductionHypothesis isLater with isLiteral | ⟨span, isHole, nested⟩
      · exact .inl (List.mem_cons_of_mem _ isLiteral)
      · refine .inr ⟨span, ?_, nested⟩
        cases part with
        | literal => exact isHole
        | hole => exact List.mem_cons_of_mem _ isHole

private theorem inert_of_outline
    {scope : Scope}
    {source : List Char}
    {content : Content}
    {covered : List Token}
    (covers : content.Covers covered)
    (placed : ∀ token ∈ covered, Token.Placed source token) :
    ∀ text, some text ∈ Plan.outline (Plan.ofContent scope content) →
      Template.isInert text.toList := by
  apply content_induction scope source _ covers placed
  intro content covered covers placed nested text member
  rw [Plan.ofContent_eq] at member
  rcases cases_of_mem_outline member with isLiteral | ⟨span, isHole, use, inner, isNested, isInner⟩
  · exact covers.literal_inert placed isLiteral
  · exact nested span isHole use inner isNested text isInner

end Use

namespace Expansion

/-! ## Texts of outputs -/

/-- Where two of some texts meet, a bare dollar sign stands before a brace. -/
def OpensHole (segment : List String) : Prop :=
  ∃ left right, segment = left ++ right ∧
    Template.endsInDollar (String.join left).toList ∧
      Template.beginsWithBrace (String.join right).toList

theorem toList_join (segment : List String) :
    (String.join segment).toList = (segment.map String.toList).flatten := by
  rw [String.toList_join, List.flatMap_def]

private theorem readsAsText_join_iff
    {segment : List String}
    (inert : ∀ text ∈ segment, Template.isInert text.toList) :
    Template.ReadsAsText (String.join segment) ↔ ¬ OpensHole segment := by
  have eachInert : ∀ text ∈ segment.map String.toList, Template.isInert text := by
    intro text member
    obtain ⟨own, isOwn, rfl⟩ := List.mem_map.mp member
    exact inert own isOwn
  rw [Template.readsAsText_iff, toList_join, Template.isInert_flatten_iff eachInert]
  constructor
  · rintro seams ⟨left, right, rfl, isDollar, isBrace⟩
    apply seams (left.map String.toList) (right.map String.toList)
    · rw [List.map_append]
    · rw [← toList_join, ← toList_join]
      exact ⟨isDollar, isBrace⟩
  · intro closed left right split
    obtain ⟨leftTexts, rightTexts, rfl, rfl, rfl⟩ := List.map_eq_append_iff.mp split
    rintro ⟨isDollar, isBrace⟩
    apply closed
    refine ⟨leftTexts, rightTexts, rfl, ?_, ?_⟩
    · rwa [toList_join]
    · rwa [toList_join]

/-- A literal text of an output is put together from texts of its use's content,
and of what is spliced into it, that are read back from between backticks.  The
whole is read back exactly when no bare dollar sign at the end of some of them
meets a brace at the beginning of the others. -/
theorem literal_reads_back_iff
    {settings : Settings}
    {registry : Registry}
    {filename source : String}
    {module : Module}
    {expansion : Expansion}
    {output : Output}
    {fragments : Fragments}
    {text : String}
    (isModule : Module.parse source = .ok module)
    (expanded : ofSource settings registry filename source = .ok expansion)
    (isOutput : output ∈ expansion.outputs)
    (isFragments : output.fragments = some fragments)
    (isLiteral : .literal text ∈ fragments.items) :
    ∃ spec receiver content segment,
      output.use.role = .invocation spec receiver content ∧
      segment ∈ segments
        (Plan.outline (Plan.ofContent (scopeOf settings registry module) content)) ∧
      text = String.join segment ∧
      (∀ part ∈ segment, Template.ReadsAsText part) ∧
      (Template.ReadsAsText text ↔ ¬ OpensHole segment) := by
  obtain ⟨_, parsed⟩ := Module.parsed_of_parse isModule
  rcases cases_of_ofSource isModule expanded with ⟨_, rfl⟩ | ⟨uses, topmost, progress, written⟩
  · simp [unchanged] at isOutput
  obtain ⟨spec, receiver, content, isRole, isTexts⟩ :=
    written.outlined isOutput fragments isFragments
  rw [runs_eq_segments] at isTexts
  have isText := Fragments.mem_texts_of_item isLiteral
  rw [isTexts] at isText
  obtain ⟨segment, isSegment, rfl⟩ := List.mem_map.mp isText
  have isUse : output.use ∈ usesOf (scopeOf settings registry module) expansion.outputs :=
    List.mem_append_left _ (List.mem_map_of_mem isOutput)
  obtain ⟨_, site, length, found, among⟩ := written.found isUse
  have covers := found.covers.covers
  rw [isRole] at covers
  obtain ⟨covered, contentCovers, inCovered⟩ := covers.exists_content
  have placed : ∀ token ∈ covered, Token.Placed module.source.toList token := by
    intro token isToken
    exact parsed.placed_everywhere (among (List.mem_of_mem_take (inCovered isToken)))
  have inert : ∀ part ∈ segment, Template.isInert part.toList := by
    intro part isPart
    exact Use.inert_of_outline contentCovers placed part (mem_of_mem_segments isSegment isPart)
  refine ⟨spec, receiver, content, segment, isRole, isSegment, rfl, ?_, readsAsText_join_iff inert⟩
  intro part isPart
  exact (Template.readsAsText_iff part).mpr (inert part isPart)

/-- A dollar sign before a hole that is spliced and begins with a brace. -/
def seamSample : String :=
  "import \x7b css \x7d from './macro'\nconst a = css`a$$\x7bcss`\x7bb\x7d`\x7dc`"

/-- The texts of the sample open a hole that none of its templates has. -/
theorem seamSample_opens_hole :
    ∃ expansion output fragments segment,
      ofSource {} Registry.packaged "" seamSample = .ok expansion ∧
      output ∈ expansion.outputs ∧ output.fragments = some fragments ∧
      .literal "a$\x7bb\x7dc" ∈ fragments.items ∧
      String.join segment = "a$\x7bb\x7dc" ∧ (∀ part ∈ segment, Template.ReadsAsText part) ∧
      OpensHole segment ∧ ¬ Template.ReadsAsText "a$\x7bb\x7dc" := by
  have parses : (Module.parse seamSample).toOption.isSome := by decide +kernel
  have evaluates : (ofSource {} Registry.packaged "" seamSample).toOption.any (fun expansion =>
      expansion.outputs.any fun output => output.fragments.any fun fragments =>
        fragments.items.any (· = .literal "a$\x7bb\x7dc")) := by
    decide +kernel
  obtain ⟨module, isModule⟩ := Option.isSome_iff_exists.mp parses
  obtain ⟨expansion, isExpansion, evaluates⟩ := (Option.any_eq_true _ _).mp evaluates
  have expanded := ok_of_toOption isExpansion
  obtain ⟨output, isOutput, evaluates⟩ := List.any_eq_true.mp evaluates
  obtain ⟨fragments, isFragments, evaluates⟩ := (Option.any_eq_true _ _).mp evaluates
  obtain ⟨item, isItem, isText⟩ := List.any_eq_true.mp evaluates
  rw [of_decide_eq_true isText] at isItem
  obtain ⟨_, _, _, segment, _, _, joins, parts, exactly⟩ :=
    literal_reads_back_iff (ok_of_toOption isModule) expanded isOutput isFragments isItem
  have bare : ¬ Template.ReadsAsText "a$\x7bb\x7dc" := by
    rw [Template.readsAsText_iff]
    decide
  have opens : OpensHole segment := by
    apply Classical.not_not.mp
    intro closed
    exact bare (exactly.mpr closed)
  exact ⟨expansion, output, fragments, segment, expanded, isOutput, isFragments, isItem,
    joins.symm, parts, opens, bare⟩

end Expansion

end Restyle
