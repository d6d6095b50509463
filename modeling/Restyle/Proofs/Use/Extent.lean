import Restyle.Proofs.Outcome
import Restyle.Use.Parts

/-!
Contract: which tokens a use covers.

Owns: `Content.Covers` and `Role.Covers`, the shapes of the tokens that content
and a role are read from, and `FoundAt`, what is known of a use that is found at
a site: it covers the tokens that follow up to its length.

Proofs about uses take the shape of a use from here and never open the
functions that recognise it.
-/

namespace Restyle.Use

/-- The tokens that content is read from: a template, or what stands from a
parenthesis to its closing bracket. -/
inductive Content.Covers : Content → List Token → Prop where
  | template {token : Token} {literal : Template}
      (isTemplate : token.template? = some literal) :
      Content.Covers (.template literal token.start token.stop) [token]
  | call {openParen closer : Token} {inner : List Token}
      (isAtom : openParen.template? = none)
      (opens : openParen.text = "(")
      (closes : Bracket.closes closer) :
      Content.Covers (.arguments (argumentsOf inner) closer.stop) (openParen :: inner ++ [closer])

/-- The tokens after its name that a role is read from. -/
inductive Role.Covers : Role → List Token → Prop where
  | passThrough {spec : Option Spec} : Role.Covers (.passThrough spec) []
  | bareValue {spec : Spec} {position : Position} : Role.Covers (.bareValue spec position) []
  | direct {spec : Spec} {content : Content} {tokens : List Token}
      (own : content.Covers tokens) :
      Role.Covers (.invocation spec .direct content) tokens
  | member {spec : Spec} {content : Content} {point name : Token} {tokens : List Token}
      (isAtom : point.template? = none)
      (isPoint : point.text = ".")
      (isName : name.isName)
      (own : content.Covers tokens) :
      Role.Covers (.invocation spec (.member name.text) content) (point :: name :: tokens)
  | factory {spec : Spec} {content : Content} {openParen closer : Token}
      {inner tokens : List Token}
      (isAtom : openParen.template? = none)
      (opens : openParen.text = "(")
      (nonempty : inner ≠ [])
      (closes : Bracket.closes closer)
      (own : content.Covers tokens) :
      Role.Covers (.invocation spec (.factory ⟨inner, openParen.stop, closer.start⟩) content)
        (openParen :: inner ++ closer :: tokens)

/-- The content of an invocation is read from some of the tokens that it covers. -/
theorem Role.Covers.exists_content
    {spec : Spec}
    {receiver : Receiver}
    {content : Content}
    {covered : List Token}
    (covers : Role.Covers (.invocation spec receiver content) covered) :
    ∃ own, content.Covers own ∧ own ⊆ covered := by
  cases covers with
  | direct own => exact ⟨covered, own, List.Subset.refl _⟩
  | member _ _ _ own =>
    exact ⟨_, own, List.subset_cons_of_subset _ (List.subset_cons_self _ _)⟩
  | factory _ _ _ _ own =>
    exact ⟨_, own, List.subset_append_of_subset_right _ (List.subset_cons_self _ _)⟩

/-- What is covered is the beginning of what follows. -/
structure Role.CoversHead (role : Role) (length : Nat) (after : List Token) : Prop where
  covers : role.Covers (after.take length)
  fits : length ≤ after.length

theorem Role.CoversHead.of_append
    {role : Role}
    {covered : List Token}
    (covers : role.Covers covered)
    (rest : List Token) :
    role.CoversHead covered.length (covered ++ rest) :=
  ⟨by rwa [List.take_left], by simp⟩

/-! ## Brackets -/

theorem closes_of_close?
    {depth : Nat}
    {tokens : List Token}
    {cut : Bracket.Cut}
    (found : Bracket.close? depth tokens = some cut) :
    Bracket.closes cut.token := by
  induction tokens generalizing depth cut with
  | nil => simp [Bracket.close?] at found
  | cons token rest inductionHypothesis =>
    have further : ∀ next,
        (Bracket.close? next rest).map
          (fun cut => { cut with before := token :: cut.before }) = some cut →
        Bracket.closes cut.token := by
      intro next mapped
      obtain ⟨inner, innerFound, rfl⟩ := Option.map_eq_some_iff.mp mapped
      have closed := inductionHypothesis innerFound
      exact closed
    simp only [Bracket.close?] at found
    split at found
    · exact further _ found
    · split at found
      · cases depth with
        | zero =>
          simp only [Option.some.injEq] at found
          rwa [← found]
        | succ depth => exact further _ found
      · exact further _ found

private theorem cut_of_closeParen
    {openParen : Token}
    {after : List Token}
    {cut : Bracket.Cut}
    (closed : closeParen openParen after = .ok cut) :
    after = cut.before ++ cut.token :: cut.after ∧ Bracket.closes cut.token := by
  unfold closeParen at closed
  split at closed
  · rename_i found
    simp only [Except.ok.injEq] at closed
    subst closed
    exact ⟨Bracket.eq_of_close? found, closes_of_close? found⟩
  · simp at closed

/-! ## Content and roles -/

private theorem contentAt_covers
    {token : Token}
    {after : List Token}
    {content : Content}
    {length : Nat}
    (opens : opensContent token)
    (isContent : contentAt token after = .ok (content, length)) :
    ∃ covered rest, token :: after = covered ++ rest ∧ covered.length = length ∧
      content.Covers covered := by
  unfold contentAt at isContent
  split at isContent
  · rename_i literal isTemplate
    simp only [Except.ok.injEq, Prod.mk.injEq] at isContent
    rw [← isContent.1, ← isContent.2]
    exact ⟨[token], after, rfl, rfl, .template isTemplate⟩
  · rename_i isAtom
    have isParen : token.text = "(" := by
      simpa [opensContent, Token.isTemplate, isAtom] using opens
    obtain ⟨cut, closed, isResult⟩ := exists_of_bind_ok isContent
    simp only [pure, Except.pure, Except.ok.injEq, Prod.mk.injEq] at isResult
    obtain ⟨isAfter, closes⟩ := cut_of_closeParen closed
    rw [← isResult.1, ← isResult.2]
    refine ⟨token :: cut.before ++ [cut.token], cut.after, ?_, ?_, .call isAtom isParen closes⟩
    · rw [isAfter]
      simp
    · simp

/-- A shape covers the tokens that it is read from. -/
theorem ImportedRole.coversHead
    {spec : Spec}
    {site : Site}
    {role : Role}
    {length : Nat}
    (shape : ImportedRole spec site role length) :
    role.CoversHead length site.after := by
  cases shape with
  | bareValue => exact .of_append .bareValue _
  | template isAfter isTemplate =>
    rw [isAfter]
    exact .of_append (.direct (.template isTemplate)) _
  | @call openParen _ cut isAfter isAtom opens closed =>
    obtain ⟨isInner, closes⟩ := cut_of_closeParen closed
    have whole : Role.Covers
        (.invocation spec .direct (.arguments (argumentsOf cut.before) cut.token.stop))
        (openParen :: cut.before ++ [cut.token]) :=
      .direct (.call isAtom opens closes)
    rw [isAfter, isInner]
    simpa using Role.CoversHead.of_append whole cut.after
  | @factory openParen _ _ _ cut content _ isAfter isAtom opens closed nonempty isRest begins
      isContent =>
    obtain ⟨isInner, closes⟩ := cut_of_closeParen closed
    obtain ⟨covered, others, split, size, covers⟩ := contentAt_covers begins isContent
    have whole : Role.Covers
        (.invocation spec (.factory ⟨cut.before, openParen.stop, cut.token.start⟩) content)
        (openParen :: cut.before ++ cut.token :: covered) :=
      .factory isAtom opens nonempty closes covers
    rw [isAfter, isInner, isRest, split, ← size]
    simpa [Nat.add_assoc, Nat.add_comm, Nat.add_left_comm] using
      Role.CoversHead.of_append whole others
  | @member point name _ _ content _ isAfter isAtom isPoint isName begins isContent =>
    obtain ⟨covered, others, split, size, covers⟩ := contentAt_covers begins isContent
    have whole : Role.Covers (.invocation spec (.member name.text) content)
        (point :: name :: covered) :=
      .member isAtom isPoint isName covers
    rw [isAfter, split, ← size]
    simpa [Nat.add_assoc, Nat.add_comm, Nat.add_left_comm] using
      Role.CoversHead.of_append whole others

private theorem BoundRole.coversHead
    {scope : Scope}
    {binding : Binding}
    {site : Site}
    {role : Role}
    {length : Nat}
    (isRole : BoundRole scope binding site role length) :
    role.CoversHead length site.after := by
  cases isRole with
  | unknown => exact .of_append .passThrough _
  | dynamic => exact .of_append .passThrough _
  | imported _ _ _ _ shape => exact shape.coversHead

/-! ## The use at a site -/

/-- What is known of a use that is found at a site. -/
structure FoundAt (scope : Scope) (site : Site) (found : Match) : Prop where
  isIdentifier : site.token.is .identifier
  isReference : isReference site
  isHead : found.use.head = site.token
  isBound : scope.bindings.find? site.token.text = some found.use.binding
  hasRole : roleAt scope found.use.binding site = .ok (found.use.role, found.length)

theorem foundAt_of_matchAt
    {scope : Scope}
    {site : Site}
    {found : Match}
    (isMatch : matchAt scope site = .ok (some found)) :
    FoundAt scope site found := by
  unfold matchAt at isMatch
  split at isMatch
  · rename_i admitted
    simp only [Bool.and_eq_true] at admitted
    split at isMatch
    · simp at isMatch
    · rename_i binding isBound
      obtain ⟨role, isRole, isResult⟩ := exists_of_bind_ok isMatch
      simp only [pure, Except.pure, Except.ok.injEq, Option.some.injEq] at isResult
      subst isResult
      exact ⟨admitted.1, admitted.2, rfl, isBound, isRole⟩
  · simp at isMatch

/-- A use has one of the roles of its binding. -/
theorem FoundAt.boundRole
    {scope : Scope}
    {site : Site}
    {found : Match}
    (isFound : FoundAt scope site found) :
    BoundRole scope found.use.binding site found.use.role found.length :=
  boundRole_of_roleAt isFound.hasRole

/-- A use covers what follows its head up to its length. -/
theorem FoundAt.covers
    {scope : Scope}
    {site : Site}
    {found : Match}
    (isFound : FoundAt scope site found) :
    found.use.role.CoversHead found.length site.after :=
  isFound.boundRole.coversHead

/-- A use that is not left alone is of a known macro that an import statement
binds. -/
theorem FoundAt.module_of_not_passThrough
    {scope : Scope}
    {site : Site}
    {found : Match}
    (isFound : FoundAt scope site found)
    (notLeft : ¬ found.use.isPassThrough) :
    found.use.binding.mechanism = .module ∧ found.use.binding.isUnknown = false := by
  have isRole := isFound.boundRole
  unfold isPassThrough at notLeft
  generalize found.use.role = role at isRole notLeft
  generalize found.length = length at isRole
  cases isRole with
  | unknown => simp at notLeft
  | dynamic => simp at notLeft
  | imported isKnown isModule => exact ⟨isModule, by simp [Binding.isUnknown, isKnown]⟩

/-- A site that refers to a binding is a use or a fault. -/
theorem exists_match_of_reference
    {scope : Scope}
    {site : Site}
    {binding : Binding}
    {result : Option Match}
    (isIdentifier : site.token.is .identifier)
    (refers : isReference site)
    (isBound : scope.bindings.find? site.token.text = some binding)
    (isMatch : matchAt scope site = .ok result) :
    ∃ found, result = some found := by
  unfold matchAt at isMatch
  rw [isIdentifier, refers, isBound] at isMatch
  obtain ⟨role, _, isResult⟩ := exists_of_bind_ok isMatch
  simp only [pure, Except.pure, Except.ok.injEq] at isResult
  exact ⟨_, isResult.symm⟩

end Restyle.Use
