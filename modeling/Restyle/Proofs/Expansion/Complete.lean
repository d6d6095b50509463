import Restyle.Proofs.Expansion.Written
import Restyle.Proofs.Output.Aliased
import Restyle.Proofs.Output.Complete

/-!
Contract: every output of an expansion is read as what it is written for.

Owns: `expressions`, what the uses of a module hold at any depth; `Legible`, what
is asked of them and of the texts of the outputs, and a way to compute it; and
that the outputs of a legible expansion are complete.
-/

namespace Restyle

open Token Lexeme Restyle.Bracket

private theorem Use.prepared_of_fit
    {scope : Scope}
    {source : List Char}
    {single : Prop}
    (entry : Use.Entry)
    (span : Span)
    (stands : span.Stands source)
    (holesBalanced : Output.HolesBalanced span.tokens)
    (own : Use.Fit scope source single entry span)
    (named : ∀ use ∈ Use.allIn scope entry span, Output.isName use.binding.localName)
    (inside : ∀ use ∈ Use.allIn scope entry span, ∀ inner ∈ use.role.entries,
      Use.Fit scope source single inner.1 inner.2) :
    Use.Prepared scope source single entry span := by
  induction entry, span using Use.entry_induction scope with
  | step entry span inductionHypothesis =>
    have isHead : ∀ uses, Use.foundIn scope entry span = .ok uses → ∀ use ∈ uses,
        use ∈ Use.allIn scope entry span := by
      intro uses found use isUse
      rw [Use.allIn_of_foundIn found]
      exact List.mem_flatMap.mpr ⟨use, isUse, List.mem_cons_self⟩
    refine .intro stands holesBalanced own ?_ ?_
    · intro uses found use isUse
      exact named use (isHead uses found use isUse)
    · intro uses found use isUse inner isInner
      have deeper : ∀ other ∈ Use.allIn scope inner.1 inner.2, other ∈ Use.allIn scope entry span := by
        intro other isOther
        rw [Use.allIn_of_foundIn found]
        refine List.mem_flatMap.mpr ⟨use, isUse, List.mem_cons_of_mem _ ?_⟩
        exact List.mem_flatMap.mpr ⟨inner, isInner, isOther⟩
      apply inductionHypothesis uses found use isUse inner isInner
      · exact Use.entries_stand_of_foundIn found stands use isUse inner isInner
      · exact holesBalanced.of_subset (Use.everywhere_entry_subset found isUse isInner)
      · exact inside use (isHead uses found use isUse) inner isInner
      · exact fun other isOther => named other (deeper other isOther)
      · exact fun other isOther => inside other (deeper other isOther)

namespace Expansion

/-- The expressions that the uses of a module hold, at any depth. -/
def expressions (scope : Scope) : List (Use.Entry × Span) :=
  (Use.allIn scope .searched (wholeSpan scope.module)).flatMap (·.role.entries)

/-- What is asked of a module and the outputs of its expansion.  The holes, the
arguments and the factory arguments are balanced; those of them that are copied are
complete in themselves and end in no line comment; and the literal texts are read
back from between backticks. -/
structure Legible (scope : Scope) (outputs : List Output) : Prop where
  holesBalanced : Output.HolesBalanced scope.module.tokens
  isBalanced : ∀ entry ∈ expressions scope, balanced entry.2.tokens
  copyable : ∀ entry ∈ expressions scope, Use.IsCopied scope entry.1 entry.2 →
    entry.2.Copyable scope.module.source.toList
  readBack : ∀ output ∈ outputs, ∀ fragments, output.fragments = some fragments →
    ∀ text, .literal text ∈ fragments.items → Template.ReadsAsText text

theorem mem_expressions
    {scope : Scope}
    {use : Use}
    {entry : Use.Entry × Span}
    (isUse : use ∈ Use.allIn scope .searched (wholeSpan scope.module))
    (isEntry : entry ∈ use.role.entries) :
    entry ∈ expressions scope :=
  List.mem_flatMap.mpr ⟨use, isUse, isEntry⟩

/-- The name by which a macro is used is an identifier. -/
theorem isName_of_allIn
    {scope : Scope}
    (parsed : scope.module.Parsed)
    {use : Use}
    (isUse : use ∈ Use.allIn scope .searched (wholeSpan scope.module)) :
    Output.isName use.binding.localName := by
  obtain ⟨site, length, found, -⟩ := Use.foundAmong_of_allIn isUse
  have isHead : use.head = site.token := found.isHead
  have member : site.token ∈ everywhere scope.module.tokens := by
    rw [← isHead]
    exact (Use.heads_sublist _ _ _).subset (List.mem_map_of_mem isUse)
  have isLocal : use.binding.localName = site.token.text := by
    simpa using List.find?_some found.isBound
  rw [isLocal]
  exact Output.isName_of_identifier (parsed.placed_everywhere member) found.isIdentifier

/-- The tokens of a module stand in its text from the beginning to the end. -/
theorem stands_of_parse
    {source : String}
    {module : Module}
    (isModule : Module.parse source = .ok module) :
    ∃ last, ListStands module.source.toList .divides 0 module.tokens last module.source.length := by
  obtain ⟨tokens, isTokens, isRest⟩ := exists_of_bind_ok isModule
  obtain ⟨declarations, -, isAll⟩ := exists_of_bind_ok isRest
  obtain rfl := Except.ok.inj isAll
  exact stands_of_readAll isTokens

variable
  {settings : Settings}
  {registry : Registry}
  {filename source : String}
  {module : Module}
  {expansion : Expansion}
  {uses : List Use}
  {topmost : List Output}
  {progress : Output.Progress}
  {single : Prop}

private theorem Written.mem_outputs_iff
    (written : Written settings registry filename module expansion uses topmost progress)
    {output : Output} :
    output ∈ expansion.outputs ↔ output ∈ progress.outputs := by
  rw [written.isResult]
  exact List.mem_mergeSort

/-- What the uses of a module hold is prepared where it is fit. -/
theorem Written.prepared
    (written : Written settings registry filename module expansion uses topmost progress)
    (isModule : Module.parse source = .ok module)
    (holesBalanced : Output.HolesBalanced module.tokens)
    (fit : ∀ entry ∈ expressions (scopeOf settings registry module),
      Use.Fit (scopeOf settings registry module) module.source.toList single entry.1 entry.2) :
    ∀ use ∈ uses, Output.isName use.binding.localName ∧ ∀ inner ∈ use.role.entries,
      Use.Prepared (scopeOf settings registry module) module.source.toList single
        inner.1 inner.2 := by
  have found : Use.foundIn (scopeOf settings registry module) .searched (wholeSpan module) =
      .ok uses := written.scanned
  obtain ⟨-, parsed⟩ := Module.parsed_of_parse isModule
  obtain ⟨last, stands⟩ := stands_of_parse isModule
  have isTop : ∀ use ∈ uses, ∀ other,
      other = use ∨ other ∈ use.role.allIn (scopeOf settings registry module) →
        other ∈ Use.allIn (scopeOf settings registry module) .searched (wholeSpan module) := by
    intro use isUse other isOther
    rw [Use.allIn_of_foundIn found]
    exact List.mem_flatMap.mpr ⟨use, isUse, List.mem_cons.mpr isOther⟩
  intro use isUse
  refine ⟨isName_of_allIn parsed (isTop use isUse use (.inl rfl)), fun inner isInner => ?_⟩
  have deeper : ∀ other ∈ Use.allIn (scopeOf settings registry module) inner.1 inner.2,
      other ∈ Use.allIn (scopeOf settings registry module) .searched (wholeSpan module) :=
    fun other isOther => isTop use isUse other
      (.inr (List.mem_flatMap.mpr ⟨inner, isInner, isOther⟩))
  apply Use.prepared_of_fit
  · exact (Use.scanned_of_scan written.scanned).entries_stand stands use isUse inner isInner
  · exact holesBalanced.of_subset (Use.everywhere_entry_subset found isUse isInner)
  · exact fit inner (mem_expressions (isTop use isUse use (.inl rfl)) isInner)
  · exact fun other isOther => isName_of_allIn parsed (deeper other isOther)
  · exact fun other isOther own isOwn => fit own (mem_expressions (deeper other isOther) isOwn)

/-- The outputs of a legible expansion are complete. -/
theorem Written.complete
    (written : Written settings registry filename module expansion uses topmost progress)
    (isModule : Module.parse source = .ok module)
    (legible : Legible (scopeOf settings registry module) expansion.outputs)
    (isSingle : single → ∀ span, (.hole, span) ∈ expressions (scopeOf settings registry module) →
      Use.IsCopied (scopeOf settings registry module) .hole span →
        Bracket.isSingle (span.tokens.map Token.face))
    (named : ∀ output ∈ expansion.outputs, output.isPassThrough = false → ∀ name,
      output.alias? = some name → Output.isName name) :
    ∀ output ∈ expansion.outputs, output.Complete single := by
  have fit : ∀ entry ∈ expressions (scopeOf settings registry module),
      Use.Fit (scopeOf settings registry module) module.source.toList single
        entry.1 entry.2 := by
    rintro ⟨entry, span⟩ isEntry
    refine ⟨legible.isBalanced _ isEntry, legible.copyable _ isEntry, ?_⟩
    rintro own rfl isCopied
    exact isSingle own span isEntry isCopied
  have clean : ∀ output ∈ expansion.outputs, output.Clean := by
    intro output isOutput
    refine ⟨named output isOutput, fun fragments isFragments text isText => ?_⟩
    apply (Template.readsAsText_iff text).mp
    exact legible.readBack output isOutput fragments isFragments text isText
  have prepared := written.prepared isModule legible.holesBalanced fit
  obtain ⟨completes, -⟩ := (Output.usesYield_of_gives written.gives).complete
    (fun use isUse => (prepared use isUse).1) (fun use isUse => (prepared use isUse).2)
    (fun output member => clean output (written.mem_outputs_iff.mpr member))
  intro output isOutput
  rcases completes output (written.mem_outputs_iff.mp isOutput) with early | complete
  · simp [initialProgress] at early
  · exact complete

/-! ## Expansions that are seen to be legible -/

/-- Whether the literal texts of some fragments stay text between backticks. -/
def areInert (fragments : Fragments) : Bool :=
  fragments.items.all fun item =>
    match item with
    | .literal own => Template.isInert own.toList
    | .slot _ _ => true

/-- Whether a module and some outputs are legible, each expression ending plainly. -/
def isLegible (scope : Scope) (outputs : List Output) : Bool :=
  decide (Output.HolesBalanced scope.module.tokens) &&
    (expressions scope).all (fun entry => balanced entry.2.tokens &&
      entry.2.endsPlainly scope.module.source.toList) &&
    settledFrom .initial scope.module.source.toList && outputs.all (·.fragments.all areInert)

theorem legible_of_isLegible
    {scope : Scope}
    {outputs : List Output}
    (checked : isLegible scope outputs) :
    Legible scope outputs := by
  simp only [isLegible, Bool.and_eq_true, decide_eq_true_eq, List.all_eq_true] at checked
  obtain ⟨⟨⟨holesBalanced, each⟩, whole⟩, inert⟩ := checked
  refine ⟨holesBalanced, fun entry isEntry => (each entry isEntry).1, ?_, ?_⟩
  · intro entry isEntry _
    exact Span.copyable_of_endsPlainly whole (each entry isEntry).2
  · intro output isOutput fragments isFragments text isText
    have own := inert output isOutput
    rw [isFragments] at own
    exact (Template.readsAsText_iff text).mpr (List.all_eq_true.mp own _ isText)

/-- The outputs of an expansion are those that its run finishes. -/
theorem mem_outputs_iff_finished
    (isModule : Module.parse source = .ok module)
    (expanded : ofSource settings registry filename source = .ok expansion)
    {output : Output} :
    output ∈ expansion.outputs ↔ output ∈ (run settings registry filename module).finished := by
  rw [ofSource_of_parse isModule] at expanded
  simp only [run] at expanded ⊢
  split at expanded
  · rw [← Except.ok.inj expanded, if_pos ‹_›]
    rfl
  · obtain ⟨topmost, -, rfl⟩ := exists_of_map_ok expanded
    rw [if_neg ‹_›]
    exact List.mem_mergeSort

/-- Whether a module is expanded legibly, with an output of a certain kind. -/
def runsLegibly
    (settings : Settings)
    (registry : Registry)
    (filename : String)
    (isOwn : Output → Bool)
    (module : Module) : Bool :=
  let attempt := run settings registry filename module
  attempt.result.toOption.isSome &&
    isLegible (scopeOf settings registry module) attempt.finished && attempt.finished.any isOwn

/-- A module that is expanded legibly. -/
theorem exists_of_runsLegibly
    {isOwn : Output → Bool}
    (checked : ((Module.parse source).toOption.any
      (runsLegibly settings registry filename isOwn)) = true) :
    ∃ module expansion output, Module.parse source = .ok module ∧
      ofSource settings registry filename source = .ok expansion ∧
      Legible (scopeOf settings registry module) expansion.outputs ∧
      output ∈ expansion.outputs ∧ isOwn output := by
  obtain ⟨module, isModule, runs⟩ := (Option.any_eq_true _ _).mp checked
  have isModule := ok_of_toOption isModule
  simp only [runsLegibly, Bool.and_eq_true] at runs
  obtain ⟨⟨succeeds, legible⟩, called⟩ := runs
  obtain ⟨expansion, isExpansion⟩ := Option.isSome_iff_exists.mp succeeds
  have expanded := (ofSource_of_parse isModule).trans (ok_of_toOption isExpansion)
  obtain ⟨output, isFinished, own⟩ := List.any_eq_true.mp called
  have legible := legible_of_isLegible legible
  have outputs : ∀ {output}, output ∈ expansion.outputs ↔
      output ∈ (run settings registry filename module).finished :=
    mem_outputs_iff_finished isModule expanded
  refine ⟨module, expansion, output, isModule, expanded, ?_, outputs.mpr isFinished, own⟩
  exact ⟨legible.holesBalanced, legible.isBalanced, legible.copyable,
    fun output isOutput => legible.readBack output (outputs.mp isOutput)⟩

end Expansion

end Restyle
