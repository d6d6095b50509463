import Restyle.Proofs.Expansion.Imports
import Restyle.Proofs.Expansion.Written
import Restyle.Proofs.Output.Stops
import Restyle.Proofs.Token.Faults
import Restyle.Registry.Packaged

/-!
Contract: an expansion fails for problems of the module only, with one exception.

Owns: that the expansion of a module stops at nothing but what its own tokens
give; that a registry read from a manifest gives complete scopes, where these are
problems; and that an expansion is refused for a stray character exactly where a
template ends in a lone backslash.
-/

namespace Restyle

/-! ## Registries of manifests -/

namespace Registry

private theorem defaultExport_of_registerEntry
    {registry later : Registry}
    {entry : Value × Value}
    (registered : registerEntry registry entry = .ok later) :
    later.defaultExport = registry.defaultExport := by
  unfold registerEntry at registered
  cases isSpec : Spec.ofEntry entry.1.display (if entry.2.isTrue then entry.2 else .mapping []) with
  | error fault => simp [isSpec, bind, Except.bind] at registered
  | ok spec =>
    simp only [isSpec, bind, Except.bind, pure, Except.pure, Except.ok.injEq] at registered
    rw [← registered]
    rfl

private theorem defaultExport_of_foldlM
    {registry later : Registry}
    {entries : List (Value × Value)}
    (registered : entries.foldlM registerEntry registry = .ok later) :
    later.defaultExport = registry.defaultExport := by
  induction entries generalizing registry with
  | nil =>
    simp only [List.foldlM_nil, pure, Except.pure, Except.ok.injEq] at registered
    rw [registered]
  | cons entry entries inductionHypothesis =>
    rw [List.foldlM_cons] at registered
    cases isNext : registerEntry registry entry with
    | error fault => simp [isNext, bind, Except.bind] at registered
    | ok next =>
      simp only [isNext, bind, Except.bind] at registered
      rw [inductionHypothesis registered, defaultExport_of_registerEntry isNext]

/-- The default export of a manifest is one of its macros. -/
theorem has_defaultExport_of_ofManifest
    {path : String}
    {manifest : Value}
    {registry : Registry}
    (loaded : ofManifest path manifest = .ok registry) :
    registry.has registry.defaultExport := by
  unfold ofManifest at loaded
  split at loaded
  · rename_i entries _
    generalize (manifest.get? "default_export").getD (.text usualDefault) = chosen at loaded
    cases registered : entries.foldlM registerEntry (empty chosen.display) with
    | error fault => simp [registered, bind, Except.bind] at loaded
    | ok own =>
      have isDefault := defaultExport_of_foldlM registered
      simp only [registered, bind, Except.bind] at loaded
      split at loaded
      · simp [throw, throwThe, MonadExceptOf.throw] at loaded
      · split at loaded
        · rename_i isKnown
          simp only [pure, Except.pure, Except.ok.injEq] at loaded
          subst loaded
          obtain ⟨name, isName, has⟩ := (Option.any_eq_true _ _).mp isKnown
          rw [isDefault]
          cases chosen <;> simp [Value.text?] at isName
          rw [← isName] at has
          exact has
        · simp [throw, throwThe, MonadExceptOf.throw] at loaded
  · simp [throw, throwThe, MonadExceptOf.throw] at loaded

private theorem has_of_exportOf
    {registry : Registry}
    {imported exported : String}
    (hasDefault : registry.has registry.defaultExport)
    (isExport : Binding.exportOf registry imported = some exported) :
    registry.has exported := by
  unfold Binding.exportOf at isExport
  have isName := (Option.filter_eq_some_iff.mp isExport).1
  split at isName
  · rw [← Option.some.inj isName]
    exact hasDefault
  · split at isName
    · rename_i isKnown
      rw [← Option.some.inj isName]
      exact isKnown
    · simp at isName

/-- The default export is a macro, and the runtime exports and examples of the
macros are texts. -/
structure Sound (registry : Registry) : Prop where
  hasDefault : registry.has registry.defaultExport
  areTexts : ∀ spec ∈ registry.specs, spec.runtimeExport.text?.isSome ∧
    ∀ sample ∈ spec.examples, sample.text?.isSome

end Registry

namespace Expansion

private theorem isKey_of_text? {value : Value} (isText : value.text?.isSome) : value.isKey := by
  cases value <;> simp [Value.text?] at isText
  rfl

/-- A macro that is bound in a module is one of the registry's. -/
theorem exists_spec_of_bound
    {settings : Settings}
    {registry : Registry}
    {module : Module}
    {name exported : String}
    {binding : Binding}
    (hasDefault : registry.has registry.defaultExport)
    (isBound : (scopeOf settings registry module).bindings.find? name = some binding)
    (isKnown : binding.exported = some exported) :
    ∃ spec, registry.find? exported = some spec := by
  have declared := mem_of_mem_ofList (List.mem_of_find?_eq_some isBound)
  simp only [Binding.listOf, List.mem_flatMap, List.mem_filter, Binding.ofDeclaration,
    List.mem_map] at declared
  obtain ⟨declaration, _, specifier, _, rfl⟩ := declared
  exact Option.isSome_iff_exists.mp (Registry.has_of_exportOf hasDefault isKnown)

private theorem complete_scopeOf
    {registry : Registry}
    (sound : registry.Sound)
    (settings : Settings)
    (module : Module) :
    (scopeOf settings registry module).Complete :=
  ⟨fun _ _ _ isBound isKnown => exists_spec_of_bound sound.hasDefault isBound isKnown,
    fun spec isSpec => (sound.areTexts spec isSpec).2,
    fun spec isSpec => isKey_of_text? (sound.areTexts spec isSpec).1⟩

/-- A module that has been read is expanded, or something goes wrong at one of its
tokens. -/
theorem within_run
    (settings : Settings)
    (registry : Registry)
    (filename : String)
    (module : Module) :
    Within (Output.Stops (scopeOf settings registry module) (Token.everywhere module.tokens))
      (fun _ => True) (run settings registry filename module).result := by
  unfold run
  simp only
  split
  · exact .ok trivial
  · have stops : (writeOutputs ⟨module.source, filename, settings⟩
        (Plan.ofSpan (scopeOf settings registry module) (wholeSpan module))).StopsAt
          (Output.Stops (scopeOf settings registry module) (Token.everywhere module.tokens)) := by
      have searches := Use.searches_scan (scopeOf settings registry module) module.tokens
      cases scanned : Use.scan (scopeOf settings registry module) module.tokens with
      | error fault =>
        rw [scanned] at searches
        rw [Plan.ofSpan_of_fault (wholeSpan module) scanned]
        exact .throw (.search searches.of_error)
      | ok uses =>
        rw [scanned] at searches
        rw [Plan.ofSpan_of_scan (wholeSpan module) scanned]
        have found : Use.foundIn (scopeOf settings registry module) .searched
            (wholeSpan module) = .ok uses := scanned
        refine Output.stopsAt_ofUses _ uses searches.of_ok fun use isUse inner isInner => ?_
        exact (Output.writes _ inner.1 inner.2).of_subset
          (Use.everywhere_entry_subset found isUse isInner)
    exact (stops (initialProgress module)).map fun _ _ => trivial

/-- With a sound registry, a module that has been read is expanded, or there is a
problem. -/
theorem judged_run
    {registry : Registry}
    (sound : registry.Sound)
    (settings : Settings)
    (filename : String)
    (module : Module) :
    Judged (fun _ => True) (run settings registry filename module).result :=
  (within_run settings registry filename module).judged fun fault stops => by
    obtain ⟨problem, token, _, isFault⟩ :=
      stops.problemAmong (complete_scopeOf sound settings module)
    exact ⟨problem, token.start, isFault⟩

/-- A text is not read for a stray character, or it is read or has a problem. -/
theorem cases_of_parse (source : String) :
    Lexeme.EndsInEscape source.toList ∧ Module.parse source = .error .strayInTemplate ∨
      ¬ Lexeme.EndsInEscape source.toList ∧ Judged (fun _ => True) (Module.parse source) := by
  rcases Token.readAll_cases source with ⟨escapes, fails⟩ | ⟨noEscape, judged⟩
  · refine .inl ⟨escapes, ?_⟩
    rw [Module.parse, fails]
    rfl
  · refine .inr ⟨noEscape, ?_⟩
    apply judged.bind
    intro tokens _
    have declares := (Declaration.within_readAll tokens).judged fun fault among => by
      obtain ⟨problem, token, _, isFault⟩ := among
      exact ⟨problem, token.start, isFault⟩
    exact declares.bind fun _ _ => .ok trivial

private theorem judged_ofSource
    {registry : Registry}
    {source : String}
    (sound : registry.Sound)
    (settings : Settings)
    (filename : String)
    (judged : Judged (fun _ => True) (Module.parse source)) :
    Judged (fun _ => True) (ofSource settings registry filename source) :=
  judged.bind fun module _ => judged_run sound settings filename module

private theorem tokens_ne_nil_of_argument
    {tokens : List Token}
    {span : Span}
    (isArgument : span ∈ Use.argumentsOf tokens) :
    span.tokens ≠ [] := by
  obtain ⟨part, _, isSpan⟩ := List.mem_filterMap.mp isArgument
  rw [Use.tokens_of_argument? isSpan]
  intro isEmpty
  simp [isEmpty, Use.argument?] at isSpan

/-- With a registry read from a manifest whose runtime exports and examples are
texts, an expansion of whatever text is refused for a stray character exactly if
the scanner meets, in a template, a backslash that is the last character; and
otherwise it succeeds or reports a problem of the module.  Every name bound by a
macro import is found in the table of bindings, every known macro there in the
registry, and no argument of a call is empty. -/
theorem refused_for_stray_iff
    {path : String}
    {manifest : Value}
    {registry : Registry}
    (loaded : Registry.ofManifest path manifest = .ok registry)
    (areTexts : ∀ spec ∈ registry.specs, spec.runtimeExport.text?.isSome ∧
      ∀ sample ∈ spec.examples, sample.text?.isSome)
    (settings : Settings)
    (filename source : String) :
    (ofSource settings registry filename source = .error .strayInTemplate ↔
      Lexeme.EndsInEscape source.toList) ∧
    (¬ Lexeme.EndsInEscape source.toList →
      (∃ expansion, ofSource settings registry filename source = .ok expansion) ∨
        ∃ problem offset,
          ofSource settings registry filename source = .error (.problem problem offset)) ∧
    ∀ module, Module.parse source = .ok module →
      (∀ declaration ∈ module.declarations, settings.isMacroPath declaration.path →
        ∀ specifier ∈ declaration.specifiers,
          ((scopeOf settings registry module).bindings.find? specifier.localName).isSome) ∧
      (∀ name binding exported,
        (scopeOf settings registry module).bindings.find? name = some binding →
          binding.exported = some exported → (registry.find? exported).isSome) ∧
      ∀ tokens, ∀ span ∈ Use.argumentsOf tokens, span.tokens ≠ [] := by
  have sound : registry.Sound := ⟨Registry.has_defaultExport_of_ofManifest loaded, areTexts⟩
  refine ⟨?_, ?_, fun module _ => ⟨?_, ?_, ?_⟩⟩
  · rcases cases_of_parse source with ⟨escapes, fails⟩ | ⟨noEscape, judged⟩
    · simp [ofSource, fails, escapes, bind, Except.bind]
    · simp only [noEscape, iff_false]
      intro isStray
      cases isStray ▸ judged_ofSource sound settings filename judged
  · intro noEscape
    rcases cases_of_parse source with ⟨escapes, _⟩ | ⟨_, judged⟩
    · exact absurd escapes noEscape
    · have outcome := judged_ofSource sound settings filename judged
      generalize ofSource settings registry filename source = result at outcome
      cases outcome with
      | ok _ => exact .inl ⟨_, rfl⟩
      | problem problem offset => exact .inr ⟨problem, offset, rfl⟩
  · intro declaration isDeclaration isMacroPath specifier isSpecifier
    exact isSome_find?_of_specifier isDeclaration isMacroPath isSpecifier
  · intro name binding exported isBound isKnown
    exact Option.isSome_iff_exists.mpr (exists_spec_of_bound sound.hasDefault isBound isKnown)
  · intro tokens span isArgument
    exact tokens_ne_nil_of_argument isArgument

/-- A manifest with one macro, and no more said of it than the shape of its uses. -/
def sampleManifest : Value :=
  .mapping [(.text "macros",
    .mapping [(.text "styled", .mapping [(.text "shapes", .list [.text "bare-value"])])])]

/-- A text that is nothing but the beginning of a template and a backslash is
refused for a stray character. -/
theorem lone_escape_is_refused :
    ∃ registry, Registry.ofManifest "" sampleManifest = .ok registry ∧
      (∀ spec ∈ registry.specs, spec.runtimeExport.text?.isSome ∧
        ∀ sample ∈ spec.examples, sample.text?.isSome) ∧
      Lexeme.EndsInEscape "`\\".toList ∧
      ofSource {} registry "" "`\\" = .error .strayInTemplate := by
  have loads : ((Registry.ofManifest "" sampleManifest).toOption.any fun registry =>
      registry.specs.all fun spec => spec.runtimeExport.text?.isSome &&
        spec.examples.all fun sample => sample.text?.isSome) = true := by
    decide +kernel
  have escapes : Lexeme.EndsInEscape "`\\".toList := by
    refine ⟨.module, ?_⟩
    show Lexeme.Comes .initial ['`', '\\'] (.template .module) ['\\']
    exact .after .here
  cases loaded : Registry.ofManifest "" sampleManifest with
  | error fault => simp [loaded, Except.toOption] at loads
  | ok registry =>
    simp only [loaded, Except.toOption, Option.any_some, List.all_eq_true, Bool.and_eq_true]
      at loads
    exact ⟨registry, rfl, loads, escapes,
      (refused_for_stray_iff loaded loads {} "" "`\\").1.mpr escapes⟩

end Expansion

end Restyle
