import Restyle.Proofs.Expansion.Written
import Restyle.Proofs.Output.Outline
import Restyle.Registry.Packaged

/-!
Contract: no use of a macro is lost, expanded twice, or escapes the checks.

Owns: `Use.Admitted`, what is checked of a use; `Expansion.HeadsOneUse`, by
which an identifier begins one output or one spliced use; that each identifier
that refers to a macro does, at whatever depth it stands; and that the content of
a spliced use stands in the fragments of its output.
-/

namespace Restyle

open Restyle.Token

/-! ## Checks -/

/-- What is checked of a use of a known macro: an import statement binds it and
nothing assigns to its name, or it may be required and is left alone. -/
def Use.Admitted (scope : Scope) (use : Use) : Prop :=
  ∀ exported, use.binding.exported = some exported →
    use.binding.mechanism = .module ∧ use.binding.localName ∉ scope.module.reassigned ∨
      use.binding.mechanism = .dynamic ∧ use.isPassThrough ∧
        ∃ spec, scope.registry.find? exported = some spec ∧ ¬ spec.requiresImport.isTrue

theorem Use.FoundAt.admitted
    {scope : Scope}
    {site : Site}
    {found : Use.Match}
    (isFound : Use.FoundAt scope site found) :
    found.use.Admitted scope := by
  have isRole := isFound.boundRole
  unfold Use.Admitted Use.isPassThrough
  generalize found.use.role = role at isRole ⊢
  generalize found.length = length at isRole
  cases isRole with
  | unknown isUnknown => simp [isUnknown]
  | dynamic isKnown isDynamic isSpec notRequired =>
    intro exported isExported
    cases isKnown.symm.trans isExported
    exact .inr ⟨isDynamic, rfl, _, isSpec, notRequired⟩
  | imported isKnown isModule notReassigned =>
    exact fun _ _ => .inl ⟨isModule, notReassigned⟩

namespace Expansion

/-! ## Counting heads -/

private theorem countP_le_one_of_ascending
    {α : Type}
    (offsetOf : α → Nat)
    {items : List α}
    (ascending : items.Pairwise (offsetOf · < offsetOf ·))
    (offset : Nat) :
    items.countP (offsetOf · = offset) ≤ 1 := by
  induction items with
  | nil => simp
  | cons item rest inductionHypothesis =>
    obtain ⟨later, others⟩ := List.pairwise_cons.mp ascending
    rw [List.countP_cons]
    by_cases here : offsetOf item = offset
    · have none : rest.countP (offsetOf · = offset) = 0 := by
        refine List.countP_eq_zero.mpr fun other member => ?_
        have := later other member
        simp only [decide_eq_true_eq]
        omega
      simp [none, here]
    · simpa [here] using inductionHypothesis others

/-- The uses that some outputs stand for, and those that are spliced into them. -/
def usesOf (scope : Scope) (outputs : List Output) : List Use :=
  outputs.map (·.use) ++ outputs.flatMap (·.use.spliced scope)

/-- An identifier begins one output and no spliced use, or one spliced use and no
output. -/
def HeadsOneUse (scope : Scope) (outputs : List Output) (token : Token) : Prop :=
  let begun := outputs.countP (·.start = token.start)
  let spliced := (outputs.flatMap (·.use.spliced scope)).countP (·.start = token.start)
  begun = 1 ∧ spliced = 0 ∨ begun = 0 ∧ spliced = 1

private theorem headsOneUse_of_countP
    {scope : Scope}
    {outputs : List Output}
    {token : Token}
    (once : (usesOf scope outputs).countP (·.start = token.start) = 1) :
    HeadsOneUse scope outputs token := by
  have begun : (outputs.map (·.use)).countP (·.start = token.start) =
      outputs.countP (·.start = token.start) := by
    rw [List.countP_map]
    rfl
  rw [usesOf, List.countP_append, begun] at once
  simp only [HeadsOneUse]
  omega

/-! ## Accounts of an expansion -/

variable
  {settings : Settings}
  {registry : Registry}
  {filename : String}
  {module : Module}
  {expansion : Expansion}
  {uses : List Use}
  {topmost : List Output}
  {progress : Output.Progress}

/-- The outputs of an expansion are those of all uses in the module that are not
spliced, and no fault is met in any of them. -/
theorem Written.accounted
    (written : Written settings registry filename module expansion uses topmost progress) :
    let scope := scopeOf settings registry module
    Use.Sound scope .searched (wholeSpan module) ∧
      (Use.allIn scope .searched (wholeSpan module)).Perm (usesOf scope expansion.outputs) := by
  intro scope
  obtain ⟨made, isMade, traced⟩ := (Output.wrote_ofPlans _ written.gives).1
  have isPlan := Plan.ofSpan_of_scan (wholeSpan module) written.scanned
  have account := Plan.hasAccount scope .searched (wholeSpan module) (made.map (·.use))
    (by rw [isPlan]; exact traced)
  refine ⟨account.sound, account.balanced.trans ?_⟩
  have sorted : made.Perm expansion.outputs := by
    rw [written.isResult]
    simp only [assemble, isMade, initialProgress, List.nil_append]
    exact (List.mergeSort_perm _ _).symm
  rw [List.nil_append, List.flatMap_map]
  exact (sorted.map _).append (sorted.flatMap_right _)

private theorem surveyed_of_parsed (scope : Scope) (parsed : scope.module.Parsed) :
    Use.Surveyed scope scope.module.source.toList scope.module.tokens :=
  ⟨fun _ member => parsed.placed_everywhere member,
    fun _ isOuter declares _ inOuter => parsed.declares_inside isOuter declares inOuter⟩

/-- Each use of an expansion begins where one token of the module does. -/
theorem Written.ascending
    (written : Written settings registry filename module expansion uses topmost progress)
    (parsed : module.Parsed) :
    ∀ offset, (usesOf (scopeOf settings registry module) expansion.outputs).countP
      (·.start = offset) ≤ 1 := by
  intro offset
  have heads := Use.heads_sublist (scopeOf settings registry module) .searched (wholeSpan module)
  have ascending := parsed.placed.everywhere_ordered.ascending.sublist heads
  rw [List.pairwise_map] at ascending
  rw [← written.accounted.2.countP_eq]
  exact countP_le_one_of_ascending Use.start ascending offset

/-- Every use of an expansion was found at an identifier of the module, among its
tokens. -/
theorem Written.found
    (written : Written settings registry filename module expansion uses topmost progress)
    {use : Use}
    (isUse : use ∈ usesOf (scopeOf settings registry module) expansion.outputs) :
    use.head ∈ everywhere module.tokens ∧
      Use.FoundAmong (scopeOf settings registry module) (everywhere module.tokens) use := by
  rw [← written.accounted.2.mem_iff] at isUse
  exact ⟨(Use.heads_sublist _ _ _).subset (List.mem_map_of_mem isUse),
    Use.foundAmong_of_allIn isUse⟩

/-- Every identifier of a module, at any depth and outside all declarations,
whose name is bound is looked at in an innermost list of tokens.  If it refers
to its binding there, then it begins exactly one use: one output of the
expansion, or one use that is spliced into one output.  That use has the
binding of the name, and if its macro is known then an import statement binds it
and nothing assigns to it, or it may be required and is left alone. -/
theorem every_reference_heads_one_use
    {settings : Settings}
    {registry : Registry}
    {filename source : String}
    {module : Module}
    {expansion : Expansion}
    (isModule : Module.parse source = .ok module)
    (expanded : ofSource settings registry filename source = .ok expansion)
    {token : Token}
    (isToken : token ∈ everywhere module.tokens)
    (isIdentifier : token.is .identifier)
    (undeclared : ¬ module.declares token)
    (isBound : ((scopeOf settings registry module).bindings.find? token.text).isSome) :
    let scope := scopeOf settings registry module
    (∃ site, site.token = token ∧ Use.Innermost scope .searched (wholeSpan module) site) ∧
      ∀ site, site.token = token → Use.Innermost scope .searched (wholeSpan module) site →
        Use.isReference site →
          HeadsOneUse scope expansion.outputs token ∧
            ∀ use ∈ usesOf scope expansion.outputs, use.start = token.start →
              use.head = token ∧ scope.bindings.find? token.text = some use.binding ∧
                use.Admitted scope := by
  intro scope
  have parsed := (Module.parsed_of_parse isModule).2
  rcases cases_of_ofSource isModule expanded with ⟨isEmpty, _⟩ | ⟨uses, topmost, progress, written⟩
  · simp [isEmpty, Binding.Table.find?] at isBound
  · obtain ⟨sound, same⟩ := written.accounted
    refine ⟨sound.exists_innermost isToken, ?_⟩
    rintro site rfl innermost refers
    constructor
    · have due : Use.Due scope site := ⟨isIdentifier, undeclared, isBound, refers⟩
      obtain ⟨use, isUse, isHead⟩ := innermost.exists_use (surveyed_of_parsed scope parsed) due
      rw [same.mem_iff] at isUse
      have some : 0 < (usesOf scope expansion.outputs).countP (·.start = site.token.start) :=
        List.countP_pos_iff.mpr ⟨use, isUse, by simp [Use.start, isHead]⟩
      have atMost := written.ascending parsed site.token.start
      exact headsOneUse_of_countP (Nat.le_antisymm atMost some)
    · intro use isUse starts
      obtain ⟨isHead, other, length, found, _⟩ := written.found isUse
      have isSame : use.head = site.token :=
        parsed.placed.everywhere_ordered.eq_of_start isHead isToken starts
      refine ⟨isSame, ?_, found.admitted⟩
      rw [← isSame, found.isHead]
      exact found.isBound

/-- A use in the hole of another one. -/
def nestedSample : String :=
  "import \x7b css \x7d from './macro'\na = css`x$\x7bcss`y`\x7d`"

/-- The identifier in the hole is looked at there, refers to the macro, and begins
one use. -/
theorem reference_in_hole_heads_one_use :
    ∃ module expansion site,
      Module.parse nestedSample = .ok module ∧
      ofSource {} Registry.packaged "" nestedSample = .ok expansion ∧
      site.token.start = 41 ∧
      Use.Innermost (scopeOf {} Registry.packaged module) .searched (wholeSpan module) site ∧
      Use.isReference site ∧
      HeadsOneUse (scopeOf {} Registry.packaged module) expansion.outputs site.token := by
  have looked : ((Module.parse nestedSample).toOption.any fun module =>
      let scope := scopeOf {} Registry.packaged module
      (Use.foundIn scope .searched (wholeSpan module)).toOption.any fun uses =>
        uses.any fun use => use.role.entries.any fun inner =>
          (Use.foundIn scope inner.1 inner.2).toOption.any fun deeper =>
            (Site.all inner.2.tokens).any fun site =>
              site.token.start = 41 && site.token.is .identifier && !module.declares site.token &&
                (scope.bindings.find? site.token.text).isSome && Use.isReference site &&
                deeper.all fun use => use.role.entries.all fun held =>
                  (everywhere held.2.tokens).all (·.start ≠ 41)) = true := by
    decide +kernel
  have expands : (ofSource {} Registry.packaged "" nestedSample).toOption.isSome := by
    decide +kernel
  obtain ⟨module, parses, looked⟩ := (Option.any_eq_true _ _).mp looked
  obtain ⟨uses, isFound, looked⟩ := (Option.any_eq_true _ _).mp looked
  obtain ⟨use, isUse, looked⟩ := List.any_eq_true.mp looked
  obtain ⟨inner, isInner, looked⟩ := List.any_eq_true.mp looked
  obtain ⟨deeper, isDeeper, looked⟩ := (Option.any_eq_true _ _).mp looked
  obtain ⟨site, isSite, looked⟩ := List.any_eq_true.mp looked
  simp only [Bool.and_eq_true, decide_eq_true_eq, Bool.not_eq_true', List.all_eq_true] at looked
  obtain ⟨⟨⟨⟨⟨starts, isIdentifier⟩, undeclared⟩, isBound⟩, refers⟩, outside⟩ := looked
  obtain ⟨expansion, isExpansion⟩ := Option.isSome_iff_exists.mp expands
  have isModule := ok_of_toOption parses
  have expanded := ok_of_toOption isExpansion
  have isFound := ok_of_toOption isFound
  have inInner : site.token ∈ everywhere inner.2.tokens := List.mem_map_of_mem isSite
  have innermost : Use.Innermost (scopeOf {} Registry.packaged module) .searched
      (wholeSpan module) site :=
    .within isFound isUse isInner (.here (ok_of_toOption isDeeper) isSite
      fun other isOther held isHeld inHeld =>
        outside other isOther held isHeld site.token inHeld starts)
  have once := (every_reference_heads_one_use isModule expanded
    (Use.everywhere_entry_subset isFound isUse isInner inInner) isIdentifier
    (by simp [undeclared]) isBound).2 site rfl innermost refers
  exact ⟨module, expansion, site, isModule, expanded, starts, innermost, refers, once.1⟩

/-! ## Content of spliced uses -/

theorem Written.outlined
    (written : Written settings registry filename module expansion uses topmost progress)
    {output : Output}
    (isOutput : output ∈ expansion.outputs) :
    output.Outlined (scopeOf settings registry module) := by
  have adds := (Output.usesYield_of_gives written.gives).relates (Output.kept_addsOutlined _ _)
  rw [written.isResult] at isOutput
  rcases adds output (List.mem_mergeSort.mp isOutput) with early | outlined
  · simp [initialProgress] at early
  · exact outlined

/-- The content of a direct invocation stands as a whole in an outline. -/
def StandsIn (scope : Scope) (outline : List (Option String)) (use : Use) : Prop :=
  ∃ spec content, use.role = .invocation spec .direct content ∧
    Plan.outline (Plan.ofContent scope content) <:+: outline

private theorem standsIn_of_hole
    {scope : Scope}
    {span : Span}
    {content : Use.Content}
    {use : Use}
    (isHole : span ∈ content.holes)
    (inHole : StandsIn scope (Plan.ofHole scope span).outline use) :
    StandsIn scope (Plan.outline (Plan.ofContent scope content)) use := by
  obtain ⟨spec, inner, isRole, within⟩ := inHole
  obtain ⟨part, isPart, isSpan⟩ := List.mem_filterMap.mp isHole
  refine ⟨spec, inner, isRole, within.trans (Plan.outline_infix ?_)⟩
  rw [Plan.ofContent_eq]
  cases part with
  | literal text => simp [Use.Part.hole?] at isSpan
  | hole own =>
    obtain rfl : own = span := by simpa [Use.Part.hole?] using isSpan
    exact List.mem_map_of_mem (f := Plan.ofPart scope) isPart

private theorem standsIn_of_splicedIn
    {scope : Scope}
    {entry : Use.Entry}
    {span : Span}
    (isHole : entry = .hole) :
    ∀ use ∈ Use.splicedIn scope span, StandsIn scope (Plan.ofHole scope span).outline use := by
  induction entry, span using Use.entry_induction scope with
  | step entry span inductionHypothesis =>
    subst isHole
    intro use isSpliced
    rw [Use.splicedIn] at isSpliced
    split at isSpliced
    · rename_i outer content isNested
      obtain ⟨spec, isRole, _⟩ := (Use.fills_of_nested? isNested).isDirect
      rw [Plan.ofHole_of_nested? isNested, Plan.Piece.outline]
      rcases List.mem_cons.mp isSpliced with rfl | deeper
      · exact ⟨spec, content, isRole, List.infix_rfl⟩
      · rw [Use.Content.spliced_eq] at deeper
        obtain ⟨hole, isInner, inHole⟩ := List.mem_flatMap.mp deeper
        have isEntry : (.hole, hole) ∈ outer.role.entries := by
          rw [isRole]
          exact Use.Role.mem_entries_of_hole isInner
        exact standsIn_of_hole isInner (inductionHypothesis [outer]
          (Use.foundIn_hole_of_nested? isNested) outer (List.mem_singleton.mpr rfl) _ isEntry rfl
          use inHole)
    · simp at isSpliced

/-- The texts of an output's fragments are the runs of the outline of its content, in
which the content of every use that is spliced into its own stands as a whole. -/
theorem spliced_content_stands_in_fragments
    {settings : Settings}
    {registry : Registry}
    {filename source : String}
    {module : Module}
    {expansion : Expansion}
    {output : Output}
    {fragments : Fragments}
    (isModule : Module.parse source = .ok module)
    (expanded : ofSource settings registry filename source = .ok expansion)
    (isOutput : output ∈ expansion.outputs)
    (isFragments : output.fragments = some fragments) :
    let scope := scopeOf settings registry module
    ∃ spec receiver content, output.use.role = .invocation spec receiver content ∧
      fragments.texts = runs (Plan.outline (Plan.ofContent scope content)) ∧
      ∀ use ∈ output.use.spliced scope,
        StandsIn scope (Plan.outline (Plan.ofContent scope content)) use := by
  intro scope
  rcases cases_of_ofSource isModule expanded with ⟨_, rfl⟩ | ⟨uses, topmost, progress, written⟩
  · simp [unchanged] at isOutput
  · obtain ⟨spec, receiver, content, isRole, areTexts⟩ :=
      written.outlined isOutput fragments isFragments
    refine ⟨spec, receiver, content, isRole, areTexts, fun use isSpliced => ?_⟩
    rw [Use.spliced, isRole] at isSpliced
    simp only [Use.Content.spliced_eq] at isSpliced
    obtain ⟨span, isHole, inHole⟩ := List.mem_flatMap.mp isSpliced
    exact standsIn_of_hole isHole (standsIn_of_splicedIn rfl use inHole)

end Expansion

end Restyle
