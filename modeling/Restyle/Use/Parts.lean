import Restyle.Text
import Restyle.Use.Weight

/-!
Contract: the content of an invocation as text and holes, and which holes are
spliced.

Owns: `Use.Content.parts` and `Use.nested?`, with the weights of what they
give.
-/

namespace Restyle.Use

/-- A part of content: literal text, or an expression. -/
inductive Part where
  | literal (text : String)
  | hole (span : Span)

def templateParts (literal : Template) : List Part :=
  .literal literal.head.raw ::
    literal.rest.flatMap fun link => [.hole link.hole, .literal link.chunk.raw]

def tokenParts (token : Token) : List Part :=
  match token.template? with
  | some literal => templateParts literal
  | none => [.literal (Text.templateRaw token.text)]

/-- The parts of content.  A call with at most one string or template is read
like a template; otherwise each argument is an expression. -/
def Content.parts : Content → List Part
  | .template literal _ _ => templateParts literal
  | .arguments spans _ =>
    if isStringLike spans then (spans.flatMap (·.tokens)).flatMap tokenParts
    else spans.map .hole

/-- The invocation that fills a whole span, with its content, if its macro is
spliced into the content around it. -/
def nested? (scope : Scope) (span : Span) : Except Fault (Option (Use × Content)) :=
  match span.tokens with
  | [] => .ok none
  | token :: after => do
    match ← matchAt scope ⟨[], token, after⟩ with
    | none => return none
    | some found =>
      match found.use.role with
      | .invocation spec .direct content =>
        if found.length = after.length && spec.inlinesNested.isTrue then
          return some (found.use, content)
        else return none
      | _ => return none

/-! ## Weights -/

/-- A hole of a template weighs no more than the template. -/
theorem hole_weight_le_of_templateParts
    {literal : Template}
    {span : Span}
    (member : .hole span ∈ templateParts literal) :
    span.weight ≤ literal.weight := by
  obtain ⟨head, rest⟩ := literal
  simp only [templateParts, List.mem_cons, reduceCtorEq, List.mem_flatMap, false_or,
    Part.hole.injEq, List.not_mem_nil, or_false] at member
  obtain ⟨link, linkMember, rfl⟩ := member
  have bound := Template.hole_weight_le_restWeight linkMember
  simp only [Template.weight]
  omega

private theorem hole_weight_le_of_tokenParts
    {token : Token}
    {span : Span}
    (member : .hole span ∈ tokenParts token) :
    span.weight ≤ token.weight := by
  simp only [tokenParts] at member
  split at member
  · rename_i literal isTemplate
    have inner := hole_weight_le_of_templateParts member
    have outer := template_weight_lt isTemplate
    omega
  · simp at member

private theorem weight_le_listWeight
    {token : Token}
    {tokens : List Token}
    (member : token ∈ tokens) :
    token.weight ≤ Token.listWeight tokens := by
  induction tokens with
  | nil => simp at member
  | cons first rest inductionHypothesis =>
    simp only [Token.listWeight]
    rcases List.mem_cons.mp member with rfl | later
    · omega
    · have := inductionHypothesis later
      omega

/-- A span weighs no more than some spans that hold it. -/
theorem weight_le_spansWeight
    {span : Span}
    {spans : List Span}
    (member : span ∈ spans) :
    span.weight ≤ spansWeight spans := by
  induction spans with
  | nil => simp at member
  | cons first rest inductionHypothesis =>
    simp only [spansWeight]
    rcases List.mem_cons.mp member with rfl | later
    · omega
    · have := inductionHypothesis later
      omega

/-- A hole of content weighs no more than the content. -/
theorem hole_weight_le_of_parts
    {content : Content}
    {span : Span}
    (member : .hole span ∈ content.parts) :
    span.weight ≤ content.weight := by
  cases content with
  | template literal start stop => exact hole_weight_le_of_templateParts member
  | arguments spans stop =>
    simp only [Content.parts] at member
    simp only [Content.weight]
    split at member
    · simp only [List.mem_flatMap] at member
      obtain ⟨token, ⟨argument, argumentMember, tokenMember⟩, partMember⟩ := member
      have inner := hole_weight_le_of_tokenParts partMember
      have middle := weight_le_listWeight tokenMember
      have outer := weight_le_spansWeight argumentMember
      have same : argument.weight = Token.listWeight argument.tokens := by
        cases argument
        rfl
      omega
    · simp only [List.mem_map, Part.hole.injEq, exists_eq_right] at member
      exact weight_le_spansWeight member

/-- The content of a spliced invocation weighs less than its span. -/
theorem content_weight_lt_of_nested?
    {scope : Scope}
    {span : Span}
    {use : Use}
    {content : Content}
    (isNested : nested? scope span = .ok (some (use, content))) :
    content.weight < span.weight := by
  obtain ⟨tokens, start, stop⟩ := span
  simp only [nested?] at isNested
  split at isNested
  · simp at isNested
  · rename_i token after
    cases matched : matchAt scope ⟨[], token, after⟩ with
    | error fault => simp [matched, bind, Except.bind] at isNested
    | ok result =>
      simp only [matched, bind, Except.bind] at isNested
      cases result with
      | none => simp [pure, Except.pure] at isNested
      | some found =>
        have bound := weight_lt_of_matchAt matched
        simp only at isNested
        split at isNested
        · rename_i spec inner isRole
          split at isNested
          · simp only [pure, Except.pure, Except.ok.injEq, Option.some.injEq,
              Prod.mk.injEq] at isNested
            simp only [isRole, Role.weight, Receiver.weight] at bound
            simp only [← isNested.2, Span.weight]
            omega
          · simp [pure, Except.pure] at isNested
        · simp [pure, Except.pure] at isNested

end Restyle.Use
