import Restyle.Proofs.Output.Lossless
import Restyle.Proofs.Use.Faults
import Restyle.Proofs.Use.Scanned

/-!
Contract: uses and the shapes that their macros allow.

Owns: `Scope.Imports`, a known macro that an import statement binds; `Role.Admitted`,
the roles such a macro may have at a site, and `Conforms`, what a use of it shows of
them; `Misplaced`, a site at which a macro meets content in a shape that it does not
allow; that every use of an imported macro conforms, whether it is matched or found by
a scan; and that a macro that is misplaced is a problem of malformed text.
-/

namespace Restyle

/-- An import statement binds a macro that the registry knows. -/
structure Scope.Imports (scope : Scope) (binding : Binding) (spec : Spec) : Prop where
  isModule : binding.mechanism = .module
  isKnown : ∃ exported, binding.exported = some exported ∧
    scope.registry.find? exported = some spec

/-- An outcome is a problem of text that cannot be analysed. -/
def IsMalformed {α : Type} (outcome : Except Fault α) : Prop :=
  ∃ problem offset, outcome = .error (.problem problem offset) ∧ problem.family = .malformed

theorem IsMalformed.bind
    {α β : Type}
    {first : Except Fault α}
    (malformed : IsMalformed first)
    (next : α → Except Fault β) :
    IsMalformed (first >>= next) := by
  obtain ⟨problem, offset, rfl, isFamily⟩ := malformed
  exact ⟨problem, offset, rfl, isFamily⟩

namespace Use

/-! ## Roles -/

/-- The roles that a macro may have at a site: each needs the shape that it stands
for, a factory needs an argument, and a plain value of a macro that takes content is
not followed by any. -/
inductive Role.Admitted (spec : Spec) (site : Site) : Role → Prop where
  | template {literal : Template} {start stop : Nat}
      (allowed : spec.allows .taggedTemplate) :
      Role.Admitted spec site (.invocation spec .direct (.template literal start stop))
  | call {spans : List Span} {stop : Nat}
      (allowed : spec.allows .call) :
      Role.Admitted spec site (.invocation spec .direct (.arguments spans stop))
  | member {name : String} {content : Content}
      (allowed : spec.allows .memberFactory) :
      Role.Admitted spec site (.invocation spec (.member name) content)
  | factory {argument : Span} {content : Content}
      (allowed : spec.allows .memberFactory)
      (nonempty : argument.tokens ≠ []) :
      Role.Admitted spec site (.invocation spec (.factory argument) content)
  | bareValue {position : Position}
      (allowed : spec.allows .bareValue)
      (alone : spec.isInvocable → ¬ site.next?.any opensContent) :
      Role.Admitted spec site (.bareValue spec position)

/-- A shape is admitted at its site. -/
theorem ImportedRole.admitted
    {spec : Spec}
    {site : Site}
    {role : Role}
    {length : Nat}
    (shape : ImportedRole spec site role length) :
    role.Admitted spec site := by
  cases shape with
  | bareValue allowed alone => exact .bareValue allowed alone
  | template _ _ allowed => exact .template allowed
  | call _ _ _ _ allowed => exact .call allowed
  | factory _ _ _ _ nonempty _ _ _ allowed => exact .factory allowed nonempty
  | member _ _ _ _ _ _ allowed => exact .member allowed

/-- An imported macro that nothing reassigns is looked at closely. -/
theorem roleAt_of_imports
    {scope : Scope}
    {binding : Binding}
    {spec : Spec}
    (imports : scope.Imports binding spec)
    (site : Site) :
    roleAt scope binding site =
      if scope.module.reassigned.contains binding.localName then
        .error (.problem (.reassignedMacro binding.localName) site.token.start)
      else importedRoleAt binding spec site := by
  obtain ⟨exported, isExported, isSpec⟩ := imports.isKnown
  simp only [roleAt, isExported, imports.isModule, isSpec]

/-! ## Uses -/

def member? (use : Use) : Option String :=
  match use.role with
  | .invocation _ (.member name) _ => some name
  | _ => none

def factory? (use : Use) : Option Span :=
  match use.role with
  | .invocation _ (.factory argument) _ => some argument
  | _ => none

/-- The template that the content of a use is. -/
def template? (use : Use) : Option Template :=
  match use.role with
  | .invocation _ _ (.template literal _ _) => some literal
  | _ => none

/-- What a use of a macro shows of the shapes that the macro allows. -/
structure Conforms (spec : Spec) (site : Site) (use : Use) : Prop where
  isSpec : use.spec? = some spec
  isClassified : use.form ≠ .passThrough
  taggedTemplate : use.form = .taggedTemplate → spec.allows .taggedTemplate
  call : use.form = .callStringLike ∨ use.form = .callObject → spec.allows .call
  memberOrFactory : use.form = .memberOrFactory →
    spec.allows .memberFactory ∧
    ((∃ name, use.member? = some name ∧ use.factory? = none) ∨
      ∃ argument, use.member? = none ∧ use.factory? = some argument ∧ argument.tokens ≠ []) ∧
    (use.contentForm = .taggedTemplate ↔ use.template?.isSome)
  bareValue : use.form = .bareValue →
    spec.allows .bareValue ∧
    (spec.isInvocable → ∀ next, site.next? = some next → ¬ next.isTemplate ∧ next.text ≠ "(")

private theorem form_arguments (spans : List Span) (stop : Nat) :
    (Content.arguments spans stop).form = .callStringLike ∨
      (Content.arguments spans stop).form = .callObject := by
  by_cases stringLike : isStringLike spans
  · exact .inl (if_pos stringLike)
  · exact .inr (if_neg stringLike)

/-- Content has the form of a template just if it is one. -/
theorem contentForm_iff_template?
    {use : Use}
    {spec : Spec}
    {receiver : Receiver}
    {content : Content}
    (isRole : use.role = .invocation spec receiver content) :
    use.contentForm = .taggedTemplate ↔ use.template?.isSome := by
  cases content with
  | template literal start stop => simp [contentForm, template?, isRole, Content.form]
  | arguments spans stop =>
    rcases form_arguments spans stop with isForm | isForm <;>
      simp [contentForm, template?, isRole, isForm]

private theorem Role.Admitted.conforms
    {spec : Spec}
    {site : Site}
    {use : Use}
    (admitted : use.role.Admitted spec site) :
    use.Conforms spec site := by
  generalize isRole : use.role = role at admitted
  cases admitted with
  | template allowed =>
    constructor <;> simp [Use.spec?, Use.form, Content.form, isRole, allowed]
  | @call spans stop allowed =>
    rcases form_arguments spans stop with isForm | isForm <;>
      constructor <;> simp [Use.spec?, Use.form, isRole, isForm, allowed]
  | member allowed =>
    have isForm : use.form = .memberOrFactory := by simp [Use.form, isRole]
    constructor <;>
      simp [isForm, Use.spec?, member?, factory?, isRole, allowed, contentForm_iff_template? isRole]
  | factory allowed nonempty =>
    have isForm : use.form = .memberOrFactory := by simp [Use.form, isRole]
    constructor <;>
      simp [isForm, Use.spec?, member?, factory?, isRole, allowed, nonempty,
        contentForm_iff_template? isRole]
  | bareValue allowed alone =>
    have isForm : use.form = .bareValue := by simp [Use.form, isRole]
    refine ⟨by simp [Use.spec?, isRole], by simp [isForm], by simp [isForm], by simp [isForm],
      by simp [isForm], fun _ => ⟨allowed, fun isInvocable next isNext => ?_⟩⟩
    simpa [isNext, opensContent] using alone isInvocable

/-- A use of an imported macro that is found at a site conforms. -/
theorem FoundAt.conforms
    {scope : Scope}
    {site : Site}
    {found : Match}
    {spec : Spec}
    (isFound : FoundAt scope site found)
    (imports : scope.Imports found.use.binding spec) :
    found.use.Conforms spec site := by
  have hasRole := isFound.hasRole
  rw [roleAt_of_imports imports] at hasRole
  split at hasRole
  · simp at hasRole
  · exact (importedRole_of_importedRoleAt hasRole).admitted.conforms

/-! ## Macros out of place -/

/-- A macro meets content in a shape that it does not allow: a template, or a call
that is no factory call either. -/
inductive Misplaced (spec : Spec) (site : Site) : Prop where
  | template {next : Token}
      (isNext : site.next? = some next)
      (isTemplate : next.isTemplate)
      (refused : ¬ spec.allows .taggedTemplate)
  | call {next : Token} {after : List Token}
      (isAfter : site.after = next :: after)
      (isAtom : ¬ next.isTemplate)
      (opens : next.text = "(")
      (refused : ¬ spec.allows .call)
      (noFactory : ¬ (spec.allows .memberFactory ∧
        ((Bracket.close? 0 after).bind (·.after.head?)).any opensContent))

section Spec

variable
  {spec : Spec}
  {site : Site}
  (isInvocable : spec.isInvocable)
  (hasExamples : ∀ sample ∈ spec.examples, sample.text?.isSome)

include isInvocable hasExamples

private theorem isMalformed_bareValueAt
    (opens : site.next?.any opensContent)
    (binding : Binding) :
    IsMalformed (bareValueAt binding spec site) := by
  obtain ⟨texts, areTexts⟩ := exists_texts hasExamples
  have isMisuse : bareValueAt binding spec site = .error (misuse binding spec site.token) :=
    if_neg (by simp [isInvocable, opens])
  rw [isMisuse, misuse, areTexts]
  exact ⟨_, _, rfl, rfl⟩

/-- A macro that takes content is never left in place before content that it does not
allow. -/
theorem Misplaced.isMalformed_importedRoleAt
    (misplaced : Misplaced spec site)
    (binding : Binding) :
    IsMalformed (importedRoleAt binding spec site) := by
  have bare (opens : site.next?.any opensContent) :=
    isMalformed_bareValueAt isInvocable hasExamples opens
  unfold importedRoleAt
  cases misplaced with
  | template isNext isTemplate refused =>
    obtain ⟨after, isAfter⟩ := List.head?_eq_some_iff.mp isNext
    rw [isAfter]
    simp only [isTemplate, refused, Bool.false_eq_true, if_false, if_true]
    exact bare (by simp [isNext, opensContent, isTemplate]) binding
  | @call next after isAfter isAtom opens refused noFactory =>
    have isBare : IsMalformed (bareValueAt binding spec site) :=
      bare (by simp [Site.next?, isAfter, opensContent, opens]) binding
    rw [isAfter]
    simp only [isAtom, Bool.false_eq_true, if_false, opens, if_true]
    cases isClosed : Bracket.close? 0 after with
    | none =>
      -- A parenthesis that is never closed is malformed by itself.
      refine IsMalformed.bind ?_ _
      rw [closeParen, isClosed]
      exact ⟨_, _, rfl, rfl⟩
    | some cut =>
      have closed : closeParen next after = .ok cut := by rw [closeParen, isClosed]
      have called : IsMalformed (calledRoleAt binding spec site cut) := by
        rwa [calledRoleAt, if_neg refused]
      simp only [closed, bind, Except.bind]
      generalize isLater : (if spec.allows .memberFactory then cut.after else []) = later
      cases later with
      | nil => exact called
      | cons content rest =>
        have notOpen : ¬ opensContent content := by
          intro isOpen
          split at isLater
          · rename_i allowed
            exact noFactory ⟨allowed, by simp [isClosed, isLater, isOpen]⟩
          · simp at isLater
        simpa only [if_neg notOpen] using called

end Spec

/-- Every use of an imported macro, matched at a site or found by a scan at one of the
sites of the tokens, shows only shapes that the macro allows.  A reference to such a
macro that takes content is a problem of malformed text before content in a shape that
the macro does not allow. -/
theorem uses_respect_shapes (scope : Scope) (spec : Spec) :
    (∀ site found,
      matchAt scope site = .ok (some found) →
      scope.Imports found.use.binding spec →
      found.use.Conforms spec site) ∧
    (∀ tokens uses,
      scan scope tokens = .ok uses →
      ∀ use ∈ uses, scope.Imports use.binding spec →
      ∃ site ∈ Site.all tokens, use.head = site.token ∧ use.Conforms spec site) ∧
    ∀ site binding,
      site.token.is .identifier →
      isReference site →
      scope.bindings.find? site.token.text = some binding →
      scope.Imports binding spec →
      binding.localName ∉ scope.module.reassigned →
      spec.isInvocable →
      (∀ sample ∈ spec.examples, sample.text?.isSome) →
      Misplaced spec site →
      ∃ problem offset,
        matchAt scope site = .error (.problem problem offset) ∧ problem.family = .malformed := by
  refine ⟨fun site found isMatch imports => (foundAt_of_matchAt isMatch).conforms imports,
    fun tokens uses scanned use member imports => ?_, ?_⟩
  · obtain ⟨_, site, isSite, length, found, _⟩ := (scanned_of_scan scanned).exists_site member
    exact ⟨site, isSite, found.isHead, found.conforms imports⟩
  · intro site binding isIdentifier refers isBound imports unchanged isInvocable hasExamples
      misplaced
    change IsMalformed (matchAt scope site)
    rw [matchAt, isIdentifier, refers, isBound]
    refine IsMalformed.bind ?_ _
    rw [roleAt_of_imports imports, if_neg (by simpa using unchanged)]
    exact misplaced.isMalformed_importedRoleAt isInvocable hasExamples binding

/-- A macro before a template that it allows, and one before a template that it does
not. -/
def shapesSample : String :=
  "import styled, \x7b css \x7d from './macro'\na = css`x`\nb = styled`y`"

/-- The binding of the name at a site with its macro, if a known one is imported. -/
def importedAt? (scope : Scope) (site : Site) : Option (Binding × Spec) := do
  let binding ← scope.bindings.find? site.token.text
  let exported ← binding.exported
  let spec ← scope.registry.find? exported
  if binding.mechanism = .module then some (binding, spec) else none

private theorem imports_of_importedAt?
    {scope : Scope}
    {site : Site}
    {binding : Binding}
    {spec : Spec}
    (isImported : importedAt? scope site = some (binding, spec)) :
    scope.bindings.find? site.token.text = some binding ∧ scope.Imports binding spec := by
  obtain ⟨own, isBound, isRest⟩ := Option.bind_eq_some_iff.mp isImported
  obtain ⟨exported, isExported, isRest⟩ := Option.bind_eq_some_iff.mp isRest
  obtain ⟨known, isKnown, isRest⟩ := Option.bind_eq_some_iff.mp isRest
  split at isRest
  · rename_i isModule
    simp only [Option.some.injEq, Prod.mk.injEq] at isRest
    obtain ⟨rfl, rfl⟩ := isRest
    exact ⟨isBound, isModule, exported, isExported, isKnown⟩
  · simp at isRest

/-- The sample's first macro is used in a shape that it allows, the second one is a
problem. -/
theorem shapesSample_respects_shapes :
    ∃ (module : Module) (used refused : Site) (found : Match) (spec other : Spec),
      Module.parse shapesSample = .ok module ∧
      matchAt (sampleScope module) used = .ok (some found) ∧
      found.use.form = .taggedTemplate ∧
      found.use.Conforms spec used ∧
      Misplaced other refused ∧
      ∃ problem offset,
        matchAt (sampleScope module) refused = .error (.problem problem offset) ∧
          problem.family = .malformed := by
  have evaluates : (Module.parse shapesSample).toOption.any (fun module =>
      ((siteAt? module 10).any fun site =>
        (importedAt? (sampleScope module) site).isSome &&
          (matchAt (sampleScope module) site).toOption.join.any
            (·.use.form = .taggedTemplate)) &&
      (siteAt? module 14).any fun site =>
        site.token.is .identifier && isReference site &&
          (importedAt? (sampleScope module) site).any fun (binding, spec) =>
            binding.localName ∉ module.reassigned && spec.isInvocable &&
              spec.examples.all (·.text?.isSome) && !spec.allows .taggedTemplate &&
              site.next?.any (·.isTemplate)) := by
    decide +kernel
  obtain ⟨module, parses, evaluates⟩ := (Option.any_eq_true _ _).mp evaluates
  obtain ⟨isUsed, isRefused⟩ := Bool.and_eq_true_iff.mp evaluates
  obtain ⟨used, _, isUsed⟩ := (Option.any_eq_true _ _).mp isUsed
  obtain ⟨isImported, isMatched⟩ := Bool.and_eq_true_iff.mp isUsed
  obtain ⟨⟨binding, spec⟩, isImported⟩ := Option.isSome_iff_exists.mp isImported
  obtain ⟨found, isMatched, isForm⟩ := (Option.any_eq_true _ _).mp isMatched
  have isMatch := ok_of_toOption (Option.join_eq_some_iff.mp isMatched)
  obtain ⟨isBound, imports⟩ := imports_of_importedAt? isImported
  have sameBinding : binding = found.use.binding :=
    Option.some.inj (isBound.symm.trans (foundAt_of_matchAt isMatch).isBound)
  obtain ⟨refused, _, isRefused⟩ := (Option.any_eq_true _ _).mp isRefused
  simp only [Bool.and_eq_true] at isRefused
  obtain ⟨⟨isIdentifier, refers⟩, isRefused⟩ := isRefused
  obtain ⟨⟨other, otherSpec⟩, otherImported, isRefused⟩ := (Option.any_eq_true _ _).mp isRefused
  simp only [Bool.and_eq_true, decide_eq_true_eq, List.all_eq_true, Bool.not_eq_true'] at isRefused
  obtain ⟨⟨⟨⟨unchanged, isInvocable⟩, hasExamples⟩, notAllowed⟩, isNext⟩ := isRefused
  obtain ⟨next, isNext, isTemplate⟩ := (Option.any_eq_true _ _).mp isNext
  obtain ⟨otherBound, otherImports⟩ := imports_of_importedAt? otherImported
  have misplaced : Misplaced otherSpec refused :=
    .template isNext isTemplate (by simp [notAllowed])
  refine ⟨module, used, refused, found, spec, otherSpec, ok_of_toOption parses, isMatch,
    of_decide_eq_true isForm, ?_, misplaced, ?_⟩
  · exact (uses_respect_shapes _ spec).1 used found isMatch (sameBinding ▸ imports)
  · exact (uses_respect_shapes _ otherSpec).2.2 refused other isIdentifier refers otherBound
      otherImports unchanged isInvocable hasExamples misplaced

end Use

end Restyle
