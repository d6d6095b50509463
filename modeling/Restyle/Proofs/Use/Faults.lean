import Restyle.Proofs.Declaration.Extent
import Restyle.Use.Parts

/-!
Contract: what can go wrong when declarations and uses are looked for.

Owns: `ProblemAmong`, a problem reported where one of some tokens begins;
`Use.Fails`, the faults that a search for uses can meet among some tokens, and
that every search meets one of them or gives uses of described macros; and
`Scope.Complete`, a scope in which every macro that is bound is described, with
examples and an export that can be named, so that nothing but problems is met.
-/

namespace Restyle

/-- A problem reported where one of some tokens begins. -/
def ProblemAmong (tokens : List Token) (fault : Fault) : Prop :=
  ∃ problem, ∃ token ∈ tokens, fault = .problem problem token.start

private theorem problemAmong_of_mem
    {tokens : List Token}
    {token : Token}
    (member : token ∈ tokens)
    (problem : Problem) :
    ProblemAmong tokens (.problem problem token.start) :=
  ⟨problem, token, member, rfl⟩

theorem ProblemAmong.of_subset
    {tokens others : List Token}
    {fault : Fault}
    (among : ProblemAmong tokens fault)
    (subset : tokens ⊆ others) :
    ProblemAmong others fault := by
  obtain ⟨problem, token, member, isFault⟩ := among
  exact ⟨problem, token, subset member, isFault⟩

/-! ## Declarations -/

namespace Declaration

private theorem within_readClause (tokens : List Token) :
    Within (ProblemAmong tokens) (fun _ => True) (readClause tokens) := by
  -- A clause goes on among tokens that follow.
  have goesOn : ∀ {later tokens : List Token} {specifiers : List Specifier},
      later ⊆ tokens → Within (ProblemAmong later) (fun _ => True) (readClause later) →
      Within (ProblemAmong tokens) (fun _ => True)
        ((readClause later).map (·.cons specifiers)) := fun subset within =>
    (within.mono fun _ among => among.of_subset subset).map fun _ _ => trivial
  fun_induction readClause tokens with
  | case1 => exact .ok trivial
  | case2 => exact .ok trivial
  | case3 => exact .error (problemAmong_of_mem List.mem_cons_self _)
  | case4 token rest _ _ cut found inductionHypothesis =>
    refine goesOn ?_ inductionHypothesis
    rw [Bracket.eq_of_close? found]
    intro other isOther
    simp [isOther]
  | case5 token _ _ _ _ name after _ inductionHypothesis =>
    exact goesOn (fun other isOther => by simp [isOther]) inductionHypothesis
  | case6 => exact .error (problemAmong_of_mem List.mem_cons_self _)
  | case7 => exact .error (problemAmong_of_mem List.mem_cons_self _)
  | case8 => exact .ok trivial
  | case9 token rest _ _ _ _ _ inductionHypothesis =>
    exact goesOn (List.subset_cons_self _ _) inductionHypothesis
  | case10 token rest _ _ _ _ _ inductionHypothesis =>
    exact inductionHypothesis.mono fun _ among => among.of_subset (List.subset_cons_self _ _)

private theorem within_readImport (keyword : Token) (tokens : List Token) :
    Within (ProblemAmong (keyword :: tokens)) (fun _ => True) (readImport keyword tokens) := by
  have atKeyword := problemAmong_of_mem (List.mem_cons_self (a := keyword) (l := tokens))
  unfold readImport
  apply ((within_readClause tokens).mono fun _ among =>
    among.of_subset (List.subset_cons_self keyword tokens)).bind
  intro clause _
  split
  · split
    · exact .ok trivial
    · exact .error (atKeyword _)
  · exact .error (atKeyword _)

private theorem within_readFrom (tokens before : List Token) (skip : Nat) :
    Within (ProblemAmong tokens) (fun _ => True) (readFrom before skip tokens) := by
  induction tokens generalizing before skip with
  | nil => exact .ok trivial
  | cons token after inductionHypothesis =>
    have later : ∀ skip, Within (ProblemAmong (token :: after)) (fun _ => True)
        (readFrom (token :: before) skip after) := fun skip =>
      (inductionHypothesis (token :: before) skip).mono fun _ among =>
        among.of_subset (List.subset_cons_self token after)
    cases skip with
    | succ skip => exact later skip
    | zero =>
      rw [readFrom]
      split
      · apply (within_readImport token after).bind
        intro found _
        exact (later found.2).bind fun _ _ => .ok trivial
      · exact (later 0).bind fun _ _ => .ok trivial

/-- The declarations of any tokens are found, or there is a problem at one of the
tokens. -/
theorem within_readAll (tokens : List Token) :
    Within (ProblemAmong tokens) (fun _ => True) (readAll tokens) :=
  (within_readFrom tokens [] 0).bind fun _ _ => .ok trivial

end Declaration

/-! ## Scopes -/

/-- Every macro that is bound is described, its examples are texts, and its
runtime export can be named. -/
structure Scope.Complete (scope : Scope) : Prop where
  isDescribed : ∀ name binding exported, scope.bindings.find? name = some binding →
    binding.exported = some exported → ∃ spec, scope.registry.find? exported = some spec
  hasExamples : ∀ spec ∈ scope.registry.specs, ∀ sample ∈ spec.examples, sample.text?.isSome
  isNamed : ∀ spec ∈ scope.registry.specs, spec.runtimeExport.isKey

namespace Use

/-- The macro whose runtime export takes the place of a use. -/
def Role.callee? : Role → Option Spec
  | .passThrough _ => none
  | .bareValue spec _ => some spec
  | .invocation spec _ _ => some spec

/-- The macro that a use calls is one of the registry's. -/
def Described (scope : Scope) (use : Use) : Prop :=
  ∀ spec, use.role.callee? = some spec → spec ∈ scope.registry.specs

/-- The faults that a search for uses can meet among some tokens: a problem at one
of them, a macro that is bound and not described, and one whose examples are no
texts. -/
inductive Fails (scope : Scope) (tokens : List Token) : Fault → Prop where
  | problem {fault : Fault}
      (among : ProblemAmong tokens fault) :
      Fails scope tokens fault
  | undescribed {name exported : String} {binding : Binding}
      (isBound : scope.bindings.find? name = some binding)
      (isKnown : binding.exported = some exported)
      (isMissing : scope.registry.find? exported = none) :
      Fails scope tokens (.undefinedExport exported)
  | notTexts {spec : Spec}
      (isListed : spec ∈ scope.registry.specs)
      (notTexts : ¬ ∀ sample ∈ spec.examples, sample.text?.isSome) :
      Fails scope tokens (.exampleNotText spec.name)

theorem Fails.of_subset
    {scope : Scope}
    {tokens others : List Token}
    {fault : Fault}
    (fails : Fails scope tokens fault)
    (subset : tokens ⊆ others) :
    Fails scope others fault := by
  cases fails with
  | problem among => exact .problem (among.of_subset subset)
  | undescribed isBound isKnown isMissing => exact .undescribed isBound isKnown isMissing
  | notTexts isListed notTexts => exact .notTexts isListed notTexts

/-- In a complete scope nothing but problems is met. -/
theorem Fails.problemAmong
    {scope : Scope}
    {tokens : List Token}
    {fault : Fault}
    (fails : Fails scope tokens fault)
    (complete : scope.Complete) :
    ProblemAmong tokens fault := by
  cases fails with
  | problem among => exact among
  | undescribed isBound isKnown isMissing =>
    obtain ⟨spec, isSpec⟩ := complete.isDescribed _ _ _ isBound isKnown
    simp [isMissing] at isSpec
  | notTexts isListed notTexts => exact absurd (complete.hasExamples _ isListed) notTexts

/-! ## The use at a site -/

private theorem within_closeParen (openParen : Token) (after : List Token) :
    Within (ProblemAmong [openParen]) (fun cut => after = cut.before ++ cut.token :: cut.after)
      (closeParen openParen after) := by
  unfold closeParen
  split
  · rename_i cut found
    exact .ok (Bracket.eq_of_close? found)
  · exact .error (problemAmong_of_mem (List.mem_singleton_self openParen) _)

private theorem within_contentAt (token : Token) (after : List Token) :
    Within (ProblemAmong [token]) (fun _ => True) (contentAt token after) := by
  unfold contentAt
  split
  · exact .ok trivial
  · exact (within_closeParen token after).bind fun _ _ => .ok trivial

theorem exists_texts
    {values : List Value}
    (areTexts : ∀ value ∈ values, value.text?.isSome) :
    ∃ texts, values.mapM Value.text? = some texts := by
  induction values with
  | nil => exact ⟨[], rfl⟩
  | cons value values inductionHypothesis =>
    obtain ⟨text, isText⟩ := Option.isSome_iff_exists.mp (areTexts value List.mem_cons_self)
    obtain ⟨texts, isRest⟩ := inductionHypothesis fun other isOther =>
      areTexts other (List.mem_cons_of_mem _ isOther)
    exact ⟨text :: texts, by simp [List.mapM_cons, isText, isRest]⟩

/-- The tokens of a site from its own on. -/
def ahead (site : Site) : List Token :=
  site.token :: site.after

section Spec

variable
  {scope : Scope}
  {spec : Spec}
  (isListed : spec ∈ scope.registry.specs)

include isListed

private theorem fails_misuse (binding : Binding) (site : Site) :
    Fails scope (ahead site) (misuse binding spec site.token) := by
  unfold misuse
  split
  · exact .problem (problemAmong_of_mem List.mem_cons_self _)
  · rename_i notRead
    refine .notTexts isListed fun areTexts => ?_
    obtain ⟨texts, isRead⟩ := exists_texts areTexts
    simp [isRead] at notRead

private theorem within_bareValueAt (binding : Binding) (site : Site) :
    Within (Fails scope (ahead site)) (·.1.callee? = some spec)
      (bareValueAt binding spec site) := by
  unfold bareValueAt
  split
  · exact .ok rfl
  · exact .error (fails_misuse isListed binding site)

private theorem within_calledRoleAt (binding : Binding) (site : Site) (cut : Bracket.Cut) :
    Within (Fails scope (ahead site)) (·.1.callee? = some spec)
      (calledRoleAt binding spec site cut) := by
  unfold calledRoleAt
  split
  · exact .ok rfl
  · exact within_bareValueAt isListed binding site

private theorem within_importedRoleAt (binding : Binding) (site : Site) :
    Within (Fails scope (ahead site)) (·.1.callee? = some spec)
      (importedRoleAt binding spec site) := by
  have bare := within_bareValueAt isListed binding site
  unfold importedRoleAt
  split
  · exact bare
  · rename_i next after isAfter
    have fails : ∀ {token : Token}, token ∈ next :: after →
        ∀ fault, ProblemAmong [token] fault → Fails scope (ahead site) fault := by
      intro token member fault among
      refine .problem (among.of_subset (List.cons_subset.mpr ⟨?_, List.nil_subset _⟩))
      exact List.mem_cons_of_mem _ (isAfter ▸ member)
    split
    · split
      · exact ((within_contentAt next after).mono (fails List.mem_cons_self)).bind
          fun _ _ => .ok rfl
      · exact bare
    · split
      · apply ((within_closeParen next after).mono (fails List.mem_cons_self)).bind
        intro cut isWhole
        split
        · rename_i content rest isRest
          have isContent : content ∈ next :: after := by
            split at isRest
            · rw [isWhole, isRest]
              simp
            · simp at isRest
          split
          · split
            · exact .error (.problem (problemAmong_of_mem List.mem_cons_self _))
            · exact ((within_contentAt content rest).mono (fails isContent)).bind
                fun _ _ => .ok rfl
          · exact within_calledRoleAt isListed binding site cut
        · exact within_calledRoleAt isListed binding site cut
      · split
        · split
          · rename_i member content rest
            split
            · exact ((within_contentAt content rest).mono (fails (by simp))).bind
                fun _ _ => .ok rfl
            · exact bare
          · exact bare
        · exact bare

end Spec

private theorem fails_undefinedFault
    {scope : Scope}
    {name exported : String}
    {binding : Binding}
    (isBound : scope.bindings.find? name = some binding)
    (isKnown : binding.exported = some exported)
    (isMissing : scope.registry.find? exported = none)
    (site : Site) :
    Fails scope (ahead site) (undefinedFault exported site) := by
  have undescribed : Fails scope (ahead site) (.undefinedExport exported) :=
    .undescribed isBound isKnown isMissing
  unfold undefinedFault
  split
  · rename_i next after isAfter
    split
    · have within := within_closeParen next after
      split
      · rename_i fault failed
        rw [failed] at within
        refine .problem (within.of_error.of_subset (List.cons_subset.mpr ⟨?_, List.nil_subset _⟩))
        simp [ahead, isAfter]
      · exact undescribed
    · exact undescribed
  · exact undescribed

theorem within_roleAt
    {scope : Scope}
    {name : String}
    {binding : Binding}
    (isBound : scope.bindings.find? name = some binding)
    (site : Site) :
    Within (Fails scope (ahead site))
      (fun found => ∀ spec, found.1.callee? = some spec → spec ∈ scope.registry.specs)
      (roleAt scope binding site) := by
  have here : ∀ problem, Fails scope (ahead site) (.problem problem site.token.start) :=
    fun problem => .problem (problemAmong_of_mem List.mem_cons_self problem)
  unfold roleAt
  split
  · exact .ok (by simp [Role.callee?])
  · rename_i exported isKnown
    split
    · split
      · rename_i isMissing
        exact .error (.undescribed isBound isKnown isMissing)
      · split
        · exact .error (here _)
        · exact .ok (by simp [Role.callee?])
    · split
      · exact .error (here _)
      · split
        · rename_i spec isSpec
          have isListed : spec ∈ scope.registry.specs := List.mem_of_find?_eq_some isSpec
          have within := within_importedRoleAt isListed binding site
          generalize importedRoleAt binding spec site = outcome at within
          cases within with
          | error isOne => exact .error isOne
          | ok isCallee =>
            refine .ok fun other isOther => ?_
            rw [isCallee, Option.some.injEq] at isOther
            exact isOther ▸ isListed
        · rename_i isMissing
          exact .error (fails_undefinedFault isBound isKnown isMissing site)

private theorem within_matchAt (scope : Scope) (site : Site) :
    Within (Fails scope (ahead site))
      (fun result => ∀ found, result = some found → found.use.Described scope)
      (matchAt scope site) := by
  unfold matchAt
  split
  · split
    · exact .ok (by simp)
    · rename_i binding isBound
      apply (within_roleAt isBound site).bind
      intro role described
      refine .ok fun found isFound => ?_
      rw [← Option.some.inj isFound]
      exact described
  · exact .ok (by simp)

theorem within_nested? (scope : Scope) (span : Span) :
    Within (Fails scope span.tokens) (fun _ => True) (nested? scope span) := by
  unfold nested?
  split
  · exact .ok trivial
  · rename_i token after isTokens
    rw [isTokens]
    apply (within_matchAt scope ⟨[], token, after⟩).bind
    intro found _
    split
    · exact .ok trivial
    · split
      · split <;> exact .ok trivial
      · exact .ok trivial

/-! ## All uses -/

/-- Every use of some is of a described macro. -/
def AllDescribed (scope : Scope) (uses : List Use) : Prop :=
  ∀ use ∈ uses, use.Described scope

theorem AllDescribed.nil {scope : Scope} : AllDescribed scope [] := by
  simp [AllDescribed]

theorem AllDescribed.append
    {scope : Scope}
    {uses others : List Use}
    (first : AllDescribed scope uses)
    (later : AllDescribed scope others) :
    AllDescribed scope (uses ++ others) := by
  intro use member
  rcases List.mem_append.mp member with early | late
  · exact first use early
  · exact later use late

/-- A search meets what can go wrong among some tokens, or gives uses of described
macros. -/
def Searches (scope : Scope) (tokens : List Token) (outcome : Except Fault (List Use)) : Prop :=
  Within (Fails scope tokens) (AllDescribed scope) outcome

theorem Searches.of_subset
    {scope : Scope}
    {tokens others : List Token}
    {outcome : Except Fault (List Use)}
    (searches : Searches scope tokens outcome)
    (subset : tokens ⊆ others) :
    Searches scope others outcome :=
  searches.mono fun _ fails => fails.of_subset subset

/-- Two searches one after the other, whose uses come in the same order. -/
theorem Searches.append
    {scope : Scope}
    {tokens others : List Token}
    {first second : Except Fault (List Use)}
    (searches : Searches scope tokens first)
    (later : Searches scope others second) :
    Searches scope (tokens ++ others) (do
      let uses ← first
      let more ← second
      return uses ++ more) :=
  (searches.of_subset (List.subset_append_left _ _)).bind fun _ described =>
    (later.of_subset (List.subset_append_right _ _)).bind fun _ areDescribed =>
      .ok (described.append areDescribed)

mutual

private theorem searches_scanFrom (scope : Scope) (tokens before : List Token) (skip : Nat) :
    Searches scope (Token.everywhere tokens) (scanFrom scope before skip tokens) :=
  match tokens, skip with
  | [], _ => by
    rw [scanFrom]
    exact .ok .nil
  | token :: after, skip + 1 => by
    rw [Token.everywhere_cons]
    exact (searches_scanFrom scope after (token :: before) skip).of_subset
      (List.subset_append_right _ _)
  | token :: after, 0 => by
    rw [scanFrom, Token.everywhere_cons]
    have later : ∀ skip, Searches scope (token :: Token.inside token ++ Token.everywhere after)
        (scanFrom scope (token :: before) skip after) := fun skip =>
      (searches_scanFrom scope after (token :: before) skip).of_subset
        (List.subset_append_right _ _)
    split
    · exact later 0
    · have here : ahead ⟨before, token, after⟩ ⊆
          token :: Token.inside token ++ Token.everywhere after :=
        List.cons_subset.mpr ⟨List.mem_cons_self, fun other isOther =>
          List.mem_append_right _ (Token.subset_everywhere after isOther)⟩
      apply ((within_matchAt scope ⟨before, token, after⟩).mono
        fun _ fails => fails.of_subset here).bind
      intro result described
      cases result with
      | some found =>
        apply (later found.length).bind
        intro others areDescribed
        exact .ok (List.forall_mem_cons.mpr ⟨described found rfl, areDescribed⟩)
      | none =>
        have inner := searches_scanToken scope token
        exact (inner.append (searches_scanFrom scope after (token :: before) 0)).of_subset
          (List.subset_cons_self _ _)

private theorem searches_scanToken (scope : Scope) (token : Token) :
    Searches scope (Token.inside token) (scanToken scope token) :=
  match token with
  | ⟨_, _, _, body⟩ => searches_scanBody scope body

private theorem searches_scanBody (scope : Scope) (body : Token.Body) :
    Searches scope ((Site.inBody body).map (·.token)) (scanBody scope body) :=
  match body with
  | .atom _ => .ok .nil
  | .template literal => searches_scanTemplate scope literal

private theorem searches_scanTemplate (scope : Scope) (literal : Template) :
    Searches scope ((Site.inTemplate literal).map (·.token)) (scanTemplate scope literal) :=
  match literal with
  | ⟨_, rest⟩ => searches_scanLinks scope rest

private theorem searches_scanLinks (scope : Scope) (links : List Template.Link) :
    Searches scope ((Site.inLinks links).map (·.token)) (scanLinks scope links) :=
  match links with
  | [] => .ok .nil
  | link :: rest => by
    rw [Site.inLinks, List.map_append]
    exact (searches_scanLink scope link).append (searches_scanLinks scope rest)

private theorem searches_scanLink (scope : Scope) (link : Template.Link) :
    Searches scope ((Site.inLink link).map (·.token)) (scanLink scope link) :=
  match link with
  | ⟨hole, _⟩ => searches_scanSpan scope hole

private theorem searches_scanSpan (scope : Scope) (span : Span) :
    Searches scope ((Site.inSpan span).map (·.token)) (scanSpan scope span) :=
  match span with
  | ⟨tokens, _, _⟩ => searches_scanFrom scope tokens [] 0

end

/-- The uses in any tokens are found and of described macros, or something goes
wrong at one of the tokens, at whatever depth. -/
theorem searches_scan (scope : Scope) (tokens : List Token) :
    Searches scope (Token.everywhere tokens) (scan scope tokens) :=
  searches_scanFrom scope tokens [] 0

end Use

end Restyle
