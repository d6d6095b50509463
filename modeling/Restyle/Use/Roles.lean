import Restyle.Proofs.Outcome
import Restyle.Use.Match

/-!
Contract: which role a macro is given at a site, and from which tokens.

Owns: `ImportedRole`, the shapes in which a macro that an import statement binds
is used, each with what it is read from; `BoundRole`, the roles of what a binding
stands for; and that a role that is found is one of them.

What follows from the role of a use is told by cases on these two, and the
functions that recognise it are opened here only.
-/

namespace Restyle.Use

/-! ## The shapes of an imported macro -/

/-- The roles of an imported macro at a site, with the tokens after its name that
each is read from and how many these are. -/
inductive ImportedRole (spec : Spec) (site : Site) : Role → Nat → Prop where
  | bareValue
      (allowed : spec.allows .bareValue)
      (alone : spec.isInvocable → ¬ site.next?.any opensContent) :
      ImportedRole spec site (.bareValue spec (positionOf site)) 0
  | template {token : Token} {after : List Token} {literal : Template}
      (isAfter : site.after = token :: after)
      (isTemplate : token.template? = some literal)
      (allowed : spec.allows .taggedTemplate) :
      ImportedRole spec site
        (.invocation spec .direct (.template literal token.start token.stop)) 1
  | call {openParen : Token} {after : List Token} {cut : Bracket.Cut}
      (isAfter : site.after = openParen :: after)
      (isAtom : openParen.template? = none)
      (opens : openParen.text = "(")
      (closed : closeParen openParen after = .ok cut)
      (allowed : spec.allows .call) :
      ImportedRole spec site
        (.invocation spec .direct (.arguments (argumentsOf cut.before) cut.token.stop))
        (cut.before.length + 2)
  | factory {openParen first : Token} {after rest : List Token} {cut : Bracket.Cut}
      {content : Content} {length : Nat}
      (isAfter : site.after = openParen :: after)
      (isAtom : openParen.template? = none)
      (opens : openParen.text = "(")
      (closed : closeParen openParen after = .ok cut)
      (nonempty : cut.before ≠ [])
      (isRest : cut.after = first :: rest)
      (begins : opensContent first)
      (isContent : contentAt first rest = .ok (content, length))
      (allowed : spec.allows .memberFactory) :
      ImportedRole spec site
        (.invocation spec (.factory ⟨cut.before, openParen.stop, cut.token.start⟩) content)
        (cut.before.length + 2 + length)
  | member {point name first : Token} {rest : List Token} {content : Content} {length : Nat}
      (isAfter : site.after = point :: name :: first :: rest)
      (isAtom : point.template? = none)
      (isPoint : point.text = ".")
      (isName : name.isName)
      (begins : opensContent first)
      (isContent : contentAt first rest = .ok (content, length))
      (allowed : spec.allows .memberFactory) :
      ImportedRole spec site (.invocation spec (.member name.text) content) (2 + length)

private theorem importedRole_of_bareValueAt
    {binding : Binding}
    {spec : Spec}
    {site : Site}
    {role : Role}
    {length : Nat}
    (isRole : bareValueAt binding spec site = .ok (role, length)) :
    ImportedRole spec site role length := by
  unfold bareValueAt at isRole
  split at isRole
  · rename_i admitted
    simp only [Bool.and_eq_true, Bool.not_eq_true', Bool.and_eq_false_imp] at admitted
    simp only [Except.ok.injEq, Prod.mk.injEq] at isRole
    obtain ⟨rfl, rfl⟩ := isRole
    exact .bareValue admitted.1 fun isInvocable => by simp [admitted.2 isInvocable]
  · simp at isRole

private theorem importedRole_of_calledRoleAt
    {binding : Binding}
    {spec : Spec}
    {site : Site}
    {openParen : Token}
    {after : List Token}
    {cut : Bracket.Cut}
    {role : Role}
    {length : Nat}
    (isAfter : site.after = openParen :: after)
    (isAtom : openParen.template? = none)
    (opens : openParen.text = "(")
    (closed : closeParen openParen after = .ok cut)
    (isRole : calledRoleAt binding spec site cut = .ok (role, length)) :
    ImportedRole spec site role length := by
  unfold calledRoleAt at isRole
  split at isRole
  · rename_i allowed
    simp only [Except.ok.injEq, Prod.mk.injEq] at isRole
    obtain ⟨rfl, rfl⟩ := isRole
    exact .call isAfter isAtom opens closed allowed
  · exact importedRole_of_bareValueAt isRole

private theorem contentAt_of_template?
    {token : Token}
    {literal : Template}
    (isTemplate : token.template? = some literal)
    (after : List Token) :
    contentAt token after = .ok (.template literal token.start token.stop, 1) := by
  rw [contentAt, isTemplate]

/-- The role that an imported macro is given is one of its shapes. -/
theorem importedRole_of_importedRoleAt
    {binding : Binding}
    {spec : Spec}
    {site : Site}
    {role : Role}
    {length : Nat}
    (isRole : importedRoleAt binding spec site = .ok (role, length)) :
    ImportedRole spec site role length := by
  unfold importedRoleAt at isRole
  split at isRole
  · exact importedRole_of_bareValueAt isRole
  rename_i next after isAfter
  split at isRole
  · -- A template directly after the name.
    rename_i isTemplate
    split at isRole
    · rename_i allowed
      obtain ⟨literal, isLiteral⟩ := Option.isSome_iff_exists.mp isTemplate
      rw [contentAt_of_template? isLiteral] at isRole
      cases isRole
      exact .template isAfter isLiteral allowed
    · exact importedRole_of_bareValueAt isRole
  rename_i noTemplate
  have isAtom : next.template? = none := by simpa [Token.isTemplate] using noTemplate
  split at isRole
  · -- A parenthesis: a factory call if that is allowed and content follows.
    rename_i opens
    obtain ⟨cut, closed, isFurther⟩ := exists_of_bind_ok isRole
    split at isFurther
    · rename_i first rest isLater
      obtain ⟨allowed, isRest⟩ : spec.allows .memberFactory ∧ cut.after = first :: rest := by
        split at isLater
        · exact ⟨‹_›, isLater⟩
        · simp at isLater
      split at isFurther
      · rename_i begins
        split at isFurther
        · simp [throw, throwThe, MonadExceptOf.throw, bind, Except.bind] at isFurther
        · rename_i nonempty
          obtain ⟨found, isContent, isResult⟩ := exists_of_bind_ok isFurther
          cases isResult
          exact .factory isAfter isAtom opens closed (by simpa using nonempty) isRest begins
            isContent allowed
      · exact importedRole_of_calledRoleAt isAfter isAtom opens closed isFurther
    · exact importedRole_of_calledRoleAt isAfter isAtom opens closed isFurther
  · split at isRole
    · -- A point: a member if that is allowed, and a name and content follow.
      rename_i isPoint
      split at isRole
      · rename_i name first rest
        split at isRole
        · rename_i admitted
          simp only [Bool.and_eq_true] at admitted
          obtain ⟨found, isContent, isResult⟩ := exists_of_bind_ok isRole
          cases isResult
          exact .member isAfter isAtom isPoint admitted.1.1 admitted.2 isContent admitted.1.2
        · exact importedRole_of_bareValueAt isRole
      · exact importedRole_of_bareValueAt isRole
    · exact importedRole_of_bareValueAt isRole

/-! ## The roles of a binding -/

/-- The roles of what a binding stands for at a site: what is unknown or bound by
a call is left alone, and a known macro of an import statement has a shape. -/
inductive BoundRole (scope : Scope) (binding : Binding) (site : Site) : Role → Nat → Prop where
  | unknown
      (isUnknown : binding.exported = none) :
      BoundRole scope binding site (.passThrough none) 0
  | dynamic {exported : String} {spec : Spec}
      (isKnown : binding.exported = some exported)
      (isDynamic : binding.mechanism = .dynamic)
      (isSpec : scope.registry.find? exported = some spec)
      (notRequired : ¬ spec.requiresImport.isTrue) :
      BoundRole scope binding site (.passThrough (some spec)) 0
  | imported {exported : String} {spec : Spec} {role : Role} {length : Nat}
      (isKnown : binding.exported = some exported)
      (isModule : binding.mechanism = .module)
      (notReassigned : binding.localName ∉ scope.module.reassigned)
      (isSpec : scope.registry.find? exported = some spec)
      (shape : ImportedRole spec site role length) :
      BoundRole scope binding site role length

/-- The role at a site is one of the roles of its binding. -/
theorem boundRole_of_roleAt
    {scope : Scope}
    {binding : Binding}
    {site : Site}
    {role : Role}
    {length : Nat}
    (isRole : roleAt scope binding site = .ok (role, length)) :
    BoundRole scope binding site role length := by
  unfold roleAt at isRole
  split at isRole
  · rename_i isUnknown
    cases isRole
    exact .unknown isUnknown
  rename_i exported isKnown
  split at isRole
  · rename_i isDynamic
    split at isRole
    · simp at isRole
    · rename_i spec isSpec
      split at isRole
      · simp at isRole
      · rename_i notRequired
        cases isRole
        exact .dynamic isKnown isDynamic isSpec notRequired
  · rename_i isModule
    split at isRole
    · simp at isRole
    · rename_i notReassigned
      split at isRole
      · rename_i spec isSpec
        exact .imported isKnown isModule (by simpa using notReassigned) isSpec
          (importedRole_of_importedRoleAt isRole)
      · simp at isRole

end Restyle.Use
