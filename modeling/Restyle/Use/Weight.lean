import Restyle.Use.Roles

/-!
Contract: what a use holds weighs less than the tokens it was found in.

Owns: the bounds on the weight of arguments, content and roles, and
`Use.weight_lt_of_scan` and `Use.weight_lt_of_matchAt`, by which the expansion
of nested uses ends.
-/

namespace Restyle.Use

private theorem splitArguments_weight (depth : Nat) (tokens : List Token) :
    Token.listWeight (splitArguments depth tokens).flatten ≤ Token.listWeight tokens := by
  induction tokens generalizing depth with
  | nil => simp [splitArguments, Token.listWeight]
  | cons token rest inductionHypothesis =>
    simp only [splitArguments]
    split
    · have bound := inductionHypothesis 0
      simp only [List.flatten_cons, List.nil_append, Token.listWeight]
      omega
    · generalize innerDepth : (if Bracket.opens token then depth + 1
        else if Bracket.closes token then depth - 1 else depth) = inner
      have bound := inductionHypothesis inner
      cases parts : splitArguments inner rest with
      | nil => simp [Token.listWeight]
      | cons first others =>
        simp only [parts, List.flatten_cons, List.cons_append, Token.listWeight] at bound ⊢
        omega

private theorem weight_of_argument?
    {tokens : List Token}
    {span : Span}
    (isArgument : argument? tokens = some span) :
    span.weight = Token.listWeight tokens := by
  simp only [argument?] at isArgument
  split at isArgument
  · simp only [Option.some.injEq] at isArgument
    simp [← isArgument, Span.weight]
  · simp at isArgument

/-- Arguments weigh no more than the tokens between the parentheses. -/
theorem argumentsOf_weight (tokens : List Token) :
    spansWeight (argumentsOf tokens) ≤ Token.listWeight tokens := by
  refine Nat.le_trans ?_ (splitArguments_weight 0 tokens)
  simp only [argumentsOf]
  induction splitArguments 0 tokens with
  | nil => simp [spansWeight]
  | cons part parts inductionHypothesis =>
    simp only [List.flatten_cons, Token.listWeight_append]
    cases isArgument : argument? part with
    | none =>
      simp only [List.filterMap_cons, isArgument]
      omega
    | some span =>
      simp only [List.filterMap_cons, isArgument, spansWeight, weight_of_argument? isArgument]
      omega

/-- A template weighs less than its token. -/
theorem template_weight_lt
    {token : Token}
    {literal : Template}
    (isTemplate : token.template? = some literal) :
    literal.weight < token.weight := by
  obtain ⟨text, start, location, body⟩ := token
  cases body with
  | atom _ => simp [Token.template?] at isTemplate
  | template own =>
    simp only [Token.template?, Option.some.injEq] at isTemplate
    simp [← isTemplate, Token.weight, Token.Body.weight]

/-- The parts of a cut weigh what the tokens weigh. -/
theorem closeParen_weight
    {openParen : Token}
    {after : List Token}
    {cut : Bracket.Cut}
    (closed : closeParen openParen after = .ok cut) :
    Token.listWeight cut.before + cut.token.weight + Token.listWeight cut.after =
      Token.listWeight after := by
  simp only [closeParen] at closed
  split at closed
  · rename_i found isFound
    simp only [Except.ok.injEq] at closed
    subst closed
    rw [Bracket.eq_of_close? isFound]
    simp only [Token.listWeight_append, Token.listWeight]
    omega
  · simp at closed

/-- Content weighs less than the tokens it is read from. -/
theorem contentAt_weight
    {token : Token}
    {after : List Token}
    {content : Content}
    {length : Nat}
    (isContent : contentAt token after = .ok (content, length)) :
    content.weight < token.weight + Token.listWeight after := by
  simp only [contentAt] at isContent
  split at isContent
  · rename_i literal isTemplate
    simp only [Except.ok.injEq, Prod.mk.injEq] at isContent
    have bound := template_weight_lt isTemplate
    simp only [← isContent.1, Content.weight]
    omega
  · cases closed : closeParen token after with
    | error fault => simp [closed, bind, Except.bind] at isContent
    | ok cut =>
      simp only [closed, bind, Except.bind, pure, Except.pure, Except.ok.injEq,
        Prod.mk.injEq] at isContent
      have total := closeParen_weight closed
      have bound := argumentsOf_weight cut.before
      have positive := cut.token.weight_pos
      simp only [← isContent.1, Content.weight]
      omega

/-- The role of an imported macro holds no more than the tokens after it. -/
theorem ImportedRole.weight_le
    {spec : Spec}
    {site : Site}
    {role : Role}
    {length : Nat}
    (shape : ImportedRole spec site role length) :
    role.weight ≤ Token.listWeight site.after := by
  cases shape with
  | bareValue => simp [Role.weight]
  | template isAfter isTemplate =>
    have bound := template_weight_lt isTemplate
    simp only [isAfter, Role.weight, Receiver.weight, Content.weight, Token.listWeight]
    omega
  | @call _ _ cut isAfter _ _ closed =>
    have total := closeParen_weight closed
    have bound := argumentsOf_weight cut.before
    simp only [isAfter, Role.weight, Receiver.weight, Content.weight, Token.listWeight]
    omega
  | factory isAfter _ _ closed _ isRest _ isContent =>
    have total := closeParen_weight closed
    have bound := contentAt_weight isContent
    simp only [isRest, Token.listWeight] at total
    simp only [isAfter, Role.weight, Receiver.weight, Span.weight, Token.listWeight]
    omega
  | member isAfter _ _ _ _ isContent =>
    have bound := contentAt_weight isContent
    simp only [isAfter, Role.weight, Receiver.weight, Token.listWeight]
    omega

/-- The role at a site holds no more than the tokens after it. -/
theorem BoundRole.weight_le
    {scope : Scope}
    {binding : Binding}
    {site : Site}
    {role : Role}
    {length : Nat}
    (isRole : BoundRole scope binding site role length) :
    role.weight ≤ Token.listWeight site.after := by
  cases isRole with
  | unknown => simp [Role.weight]
  | dynamic => simp [Role.weight]
  | imported _ _ _ _ shape => exact shape.weight_le

/-- A use found at a site holds less than the tokens from the site on. -/
theorem weight_lt_of_matchAt
    {scope : Scope}
    {site : Site}
    {found : Match}
    (isMatch : matchAt scope site = .ok (some found)) :
    found.use.role.weight < Token.listWeight (site.token :: site.after) := by
  simp only [matchAt] at isMatch
  split at isMatch
  · split at isMatch
    · simp at isMatch
    · rename_i binding _
      cases isRole : roleAt scope binding site with
      | error fault => simp [isRole, bind, Except.bind] at isMatch
      | ok result =>
        simp only [isRole, bind, Except.bind, pure, Except.pure, Except.ok.injEq,
          Option.some.injEq] at isMatch
        have bound := (boundRole_of_roleAt isRole).weight_le
        have positive := site.token.weight_pos
        simp only [← isMatch, Token.listWeight]
        omega
  · simp at isMatch

/-! ## Scans -/

mutual

/-- A use found in a list of tokens holds less than the list. -/
theorem weight_lt_of_scanFrom
    {scope : Scope}
    {before : List Token}
    {skip : Nat}
    {uses : List Use}
    (tokens : List Token)
    (scanned : scanFrom scope before skip tokens = .ok uses) :
    ∀ use ∈ uses, use.role.weight < Token.listWeight tokens :=
  match tokens, skip with
  | [], _ => by
    simp only [scanFrom, Except.ok.injEq] at scanned
    simp [← scanned]
  | token :: after, skip + 1 => by
    intro use member
    have bound := weight_lt_of_scanFrom after scanned use member
    simp only [Token.listWeight]
    omega
  | token :: after, 0 => by
    intro use member
    simp only [scanFrom] at scanned
    have positive := token.weight_pos
    split at scanned
    · have bound := weight_lt_of_scanFrom after scanned use member
      simp only [Token.listWeight]
      omega
    · cases matched : matchAt scope ⟨before, token, after⟩ with
      | error fault => simp [matched, bind, Except.bind] at scanned
      | ok result =>
        simp only [matched, bind, Except.bind] at scanned
        cases result with
        | some found =>
          simp only at scanned
          cases isRest : scanFrom scope (token :: before) found.length after with
          | error fault => simp [isRest] at scanned
          | ok others =>
            simp only [isRest, pure, Except.pure, Except.ok.injEq] at scanned
            subst scanned
            rcases List.mem_cons.mp member with rfl | later
            · exact weight_lt_of_matchAt matched
            · have bound := weight_lt_of_scanFrom after isRest use later
              simp only [Token.listWeight]
              omega
        | none =>
          simp only at scanned
          cases isInner : scanToken scope token with
          | error fault => simp [isInner] at scanned
          | ok inner =>
            simp only [isInner] at scanned
            cases isRest : scanFrom scope (token :: before) 0 after with
            | error fault => simp [isRest] at scanned
            | ok others =>
              simp only [isRest, pure, Except.pure, Except.ok.injEq] at scanned
              subst scanned
              simp only [Token.listWeight]
              rcases List.mem_append.mp member with first | later
              · have bound := weight_lt_of_scanToken token isInner use first
                omega
              · have bound := weight_lt_of_scanFrom after isRest use later
                omega

private theorem weight_lt_of_scanToken
    {scope : Scope}
    {uses : List Use}
    (token : Token)
    (scanned : scanToken scope token = .ok uses) :
    ∀ use ∈ uses, use.role.weight < token.weight :=
  match token with
  | ⟨_, _, _, body⟩ => by
    intro use member
    have bound := weight_lt_of_scanBody body scanned use member
    simp only [Token.weight]
    omega

private theorem weight_lt_of_scanBody
    {scope : Scope}
    {uses : List Use}
    (body : Token.Body)
    (scanned : scanBody scope body = .ok uses) :
    ∀ use ∈ uses, use.role.weight < body.weight :=
  match body with
  | .atom _ => by
    simp only [scanBody, Except.ok.injEq] at scanned
    simp [← scanned]
  | .template literal => weight_lt_of_scanTemplate literal scanned

private theorem weight_lt_of_scanTemplate
    {scope : Scope}
    {uses : List Use}
    (literal : Template)
    (scanned : scanTemplate scope literal = .ok uses) :
    ∀ use ∈ uses, use.role.weight < literal.weight :=
  match literal with
  | ⟨_, rest⟩ => weight_lt_of_scanLinks rest scanned

/-- A use found in the holes of some links holds less than the links. -/
theorem weight_lt_of_scanLinks
    {scope : Scope}
    {uses : List Use}
    (links : List Template.Link)
    (scanned : scanLinks scope links = .ok uses) :
    ∀ use ∈ uses, use.role.weight < Template.restWeight links :=
  match links with
  | [] => by
    simp only [scanLinks, Except.ok.injEq] at scanned
    simp [← scanned]
  | link :: rest => by
    intro use member
    simp only [scanLinks] at scanned
    cases isFirst : scanLink scope link with
    | error fault => simp [isFirst, bind, Except.bind] at scanned
    | ok first =>
      cases isRest : scanLinks scope rest with
      | error fault => simp [isFirst, isRest, bind, Except.bind] at scanned
      | ok others =>
        simp only [isFirst, isRest, bind, Except.bind, pure, Except.pure,
          Except.ok.injEq] at scanned
        subst scanned
        simp only [Template.restWeight]
        rcases List.mem_append.mp member with early | later
        · have bound := weight_lt_of_scanLink link isFirst use early
          omega
        · have bound := weight_lt_of_scanLinks rest isRest use later
          omega

private theorem weight_lt_of_scanLink
    {scope : Scope}
    {uses : List Use}
    (link : Template.Link)
    (scanned : scanLink scope link = .ok uses) :
    ∀ use ∈ uses, use.role.weight < link.weight :=
  match link with
  | ⟨hole, _⟩ => weight_lt_of_scanSpan hole scanned

private theorem weight_lt_of_scanSpan
    {scope : Scope}
    {uses : List Use}
    (span : Span)
    (scanned : scanSpan scope span = .ok uses) :
    ∀ use ∈ uses, use.role.weight < span.weight :=
  match span with
  | ⟨tokens, _, _⟩ => weight_lt_of_scanFrom tokens scanned

end

/-- A use found in a list of tokens holds less than the list. -/
theorem weight_lt_of_scan
    {scope : Scope}
    {tokens : List Token}
    {uses : List Use}
    (scanned : scan scope tokens = .ok uses) :
    ∀ use ∈ uses, use.role.weight < Token.listWeight tokens :=
  weight_lt_of_scanFrom tokens scanned

end Restyle.Use
