import Mathlib.Data.List.Forall2
import Restyle.Proofs.Expansion.Fidelity
import Restyle.Proofs.Output.Aliased

/-!
Contract: there is one runtime import, and it lists what is called.

Owns: `Expansion.Listed`, by which the aliases of an expansion are those that its
outputs call; `Expansion.ImportPlaced`, by which the runtime import takes the
place of the first import statement that binds a macro; and that both hold of
every expansion, whose runtime import lists its aliases.
-/

namespace Restyle.Expansion

/-! ## Where the runtime import stands -/

/-- The declarations of a module are in source order. -/
theorem sorted_declarations
    {source : String}
    {module : Module}
    (isModule : Module.parse source = .ok module) :
    module.declarations.Pairwise (·.start ≤ ·.start) := by
  obtain ⟨tokens, _, isRest⟩ := exists_of_bind_ok isModule
  obtain ⟨declarations, isDeclarations, isAll⟩ := exists_of_bind_ok isRest
  obtain ⟨found, _, isSorted⟩ := exists_of_bind_ok isDeclarations
  simp only [pure, Except.pure, Except.ok.injEq] at isAll isSorted
  rw [← isAll, ← isSorted]
  have sorted : (found.mergeSort fun left right => decide (left.start ≤ right.start)).Pairwise
      fun left right => decide (left.start ≤ right.start) = true := by
    apply List.pairwise_mergeSort
    · intro left middle right first later
      simp only [decide_eq_true_eq] at first later ⊢
      omega
    · intro left right
      simp only [Bool.or_eq_true, decide_eq_true_eq]
      omega
  exact sorted.imp fun ordered => by simpa using ordered

/-- What is left of a declaration. -/
def residual (bindings : Binding.Table) (declaration : Declaration) : List String :=
  (residualImport? declaration (unknownNames bindings declaration)).toList

/-- The runtime import takes the place of the first import statement that binds a
macro, in front of what is left of it; of the other ones nothing but what is left
of them is written.  No edit is an insertion. -/
structure ImportPlaced (settings : Settings) (module : Module) (bindings : Binding.Table)
    (statement : String) (edits : List Edit) : Prop where
  placed : ∃ first others firstEdit otherEdits,
    edits = firstEdit :: otherEdits ∧
    (∀ declaration, declaration ∈ first :: others ↔
      declaration ∈ module.declarations ∧ BindsMacro settings bindings declaration) ∧
    (∀ other ∈ others, first.stop ≤ other.start) ∧
    firstEdit = ⟨first.start, first.stop, ("\n" ++ indentAt module.source first.start).intercalate
      (statement :: residual bindings first)⟩ ∧
    others.Forall₂ (fun declaration edit =>
      Rewrites module.source declaration (residual bindings declaration) edit) otherEdits
  noInsertion : ∀ edit ∈ edits, edit.start < edit.stop

variable
  {settings : Settings}
  {registry : Registry}
  {filename source : String}
  {module : Module}
  {expansion : Expansion}

/-- Of the import statements that bind a macro the first in the list is the first
in the source. -/
theorem first_of_losesName
    {bindings : Binding.Table}
    {first : Declaration}
    {others : List Declaration}
    (isModule : Module.parse source = .ok module)
    (isFilter : module.declarations.filter (losesName settings bindings) = first :: others) :
    ∀ other ∈ others, first.stop ≤ other.start := by
  intro other isOther
  have parsed := (Module.parsed_of_parse isModule).2
  have apart := statements_apart parsed settings bindings
  have sorted := (sorted_declarations isModule).filter (losesName settings bindings)
  rw [isFilter] at apart sorted
  have later := (List.pairwise_cons.mp sorted).1 other isOther
  have lost : other ∈ module.declarations ∧ losesName settings bindings other := by
    rw [← List.mem_filter, isFilter]
    exact List.mem_cons_of_mem _ isOther
  have framed := framed_of_statement parsed lost.1 (isModule_of_losesName lost.2)
  have nonempty := framed.nonempty
  rcases (List.pairwise_cons.mp apart).1 other isOther with ordered | reversed
  · exact ordered
  · omega

private theorem importPlaced_of_filter
    {statement : String}
    {first : Declaration}
    {others : List Declaration}
    (isModule : Module.parse source = .ok module)
    (isFilter : module.declarations.filter
      (losesName settings (scopeOf settings registry module).bindings) = first :: others) :
    ImportPlaced settings module (scopeOf settings registry module).bindings statement
      (declarationEdit module.source (scopeOf settings registry module).bindings [statement] first ::
        others.map (declarationEdit module.source (scopeOf settings registry module).bindings
          [])) := by
  have parsed := (Module.parsed_of_parse isModule).2
  have lost : ∀ declaration, declaration ∈ first :: others ↔
      declaration ∈ module.declarations ∧
        losesName settings (scopeOf settings registry module).bindings declaration := by
    intro declaration
    rw [← isFilter, List.mem_filter]
  have framed : ∀ declaration ∈ first :: others,
      Text.Framed module.source.toList declaration.start declaration.stop := fun declaration member =>
    framed_of_statement parsed ((lost declaration).mp member).1
      (isModule_of_losesName ((lost declaration).mp member).2)
  constructor
  · refine ⟨first, others, _, _, rfl, fun declaration => ?_, first_of_losesName isModule isFilter,
      rfl, ?_⟩
    · rw [lost]
      exact and_congr_right fun isDeclaration => losesName_iff_bindsMacro isDeclaration
    · rw [List.forall₂_map_right_iff, List.forall₂_same]
      intro declaration isOther
      exact declarationEdit_rewrites _ [] (framed declaration (List.mem_cons_of_mem _ isOther))
  · intro edit member
    have isEdit : ∃ declaration ∈ first :: others, ∃ leading, edit =
        declarationEdit module.source (scopeOf settings registry module).bindings leading
          declaration := by
      rcases List.mem_cons.mp member with rfl | later
      · exact ⟨first, List.mem_cons_self, _, rfl⟩
      · obtain ⟨declaration, isOther, rfl⟩ := List.mem_map.mp later
        exact ⟨declaration, List.mem_cons_of_mem _ isOther, _, rfl⟩
    obtain ⟨declaration, isOne, leading, rfl⟩ := isEdit
    have own := framed declaration isOne
    obtain ⟨start, stop, begins, ends, widened⟩ :=
      (declarationEdit_rewrites (scopeOf settings registry module).bindings leading own).widened own
    have nonempty := own.nonempty
    have lower := widened.lower
    have upper := widened.upper
    omega

/-! ## What the runtime import lists -/

/-- The aliases are those that the outputs call: an output that is not left alone
calls the alias of its macro's runtime export, and each alias is called for its
export.  No export has two. -/
structure Listed (outputs : List Output) (aliases : Aliases) : Prop where
  isNamed : ∀ output ∈ outputs, output.isPassThrough = false → ∃ exported name,
    output.Calls exported name ∧ aliases.find? exported = some name
  isCalled : ∀ entry ∈ aliases.names, ∃ output ∈ outputs, output.Calls entry.1 entry.2
  distinct : aliases.Distinct

theorem Listed.names_eq_nil_iff
    {outputs : List Output}
    {aliases : Aliases}
    (listed : Listed outputs aliases) :
    aliases.names = [] ↔ ∀ output ∈ outputs, output.isPassThrough := by
  constructor
  · intro isEmpty output isOutput
    by_contra notLeft
    obtain ⟨exported, name, _, isName⟩ :=
      listed.isNamed output isOutput (by simpa using notLeft)
    simp [Aliases.find?, isEmpty] at isName
  · intro leftAlone
    by_contra isNamed
    obtain ⟨entry, isEntry⟩ := List.exists_mem_of_ne_nil _ isNamed
    obtain ⟨output, isOutput, calls⟩ := listed.isCalled entry isEntry
    have isLeft := leftAlone output isOutput
    rw [calls.notLeftAlone] at isLeft
    contradiction

theorem Written.listed
    {uses : List Use}
    {topmost : List Output}
    {progress : Output.Progress}
    (written : Written settings registry filename module expansion uses topmost progress) :
    Listed expansion.outputs progress.aliases := by
  have allots := (Output.usesYield_of_gives written.gives).relates (Output.kept_allots _ _)
  obtain ⟨made, given, isMade, isGiven, calls, called⟩ := allots.added
  have isOutput : ∀ output, output ∈ expansion.outputs ↔ output ∈ made := by
    intro output
    rw [written.isResult]
    simp only [assemble, List.mem_mergeSort, isMade, initialProgress, List.nil_append]
  refine ⟨fun output member => calls output ((isOutput output).mp member), fun entry isEntry => ?_,
    allots.distinct List.Pairwise.nil⟩
  rw [isGiven] at isEntry
  obtain ⟨output, isMember, isCall⟩ := called entry isEntry
  exact ⟨output, (isOutput output).mpr isMember, isCall⟩

/-- The aliases of an expansion are exactly those that its outputs call, at
whatever depth they stand, each for the runtime export of its macro.  If an
output is not left alone, then the runtime import is written once, in place of
the first import statement that binds a macro; else no import is touched. -/
theorem runtime_import_lists_what_is_called
    (isModule : Module.parse source = .ok module)
    (expanded : ofSource settings registry filename source = .ok expansion) :
    let bindings := (scopeOf settings registry module).bindings
    ∃ topmost aliases,
      topmost ⊆ expansion.outputs ∧
      aliases.names = expansion.aliases ∧
      expansion.code =
        Edit.applyAll module.source (editsOf settings module bindings topmost aliases) 0 ∧
      Listed expansion.outputs aliases ∧
      ((∀ output ∈ expansion.outputs, output.isPassThrough) →
        importEdits settings module bindings aliases = []) ∧
      ((∃ output ∈ expansion.outputs, output.isPassThrough = false) →
        ∃ statement, aliases.importStatement? settings.runtimeModule = some statement ∧
          ImportsNames settings.runtimeModule aliases.names statement ∧
          ImportPlaced settings module bindings statement
            (importEdits settings module bindings aliases)) := by
  intro bindings
  have parsed := (Module.parsed_of_parse isModule).2
  rcases cases_of_ofSource isModule expanded with
    ⟨isEmpty, rfl⟩ | ⟨uses, topmost, progress, written⟩
  · have rewriting : Rewriting settings registry module (unchanged module) [] [] ⟨[], []⟩ :=
      rewriting_of_no_bindings parsed isEmpty
    refine ⟨[], ⟨[], []⟩, List.nil_subset _, rfl, rewriting.isApplied, ⟨?_, ?_, .nil⟩, ?_, ?_⟩
    · simp [unchanged]
    · simp
    · simp [importEdits, Aliases.importStatement?]
    · simp [unchanged]
  · have listed := written.listed
    have kept := (Output.wrote_ofPlans _ written.gives).2.2
    refine ⟨topmost, progress.aliases, fun output member => ?_, ?_, ?_, listed, ?_, ?_⟩
    · rw [written.isResult]
      exact List.mem_mergeSort.mpr (kept member)
    · rw [written.isResult]
      rfl
    · rw [written.isResult]
      rfl
    · intro leftAlone
      have noNames := listed.names_eq_nil_iff.mpr leftAlone
      simp [importEdits, Aliases.importStatement?, noNames]
    · rintro ⟨output, isOutput, notLeft⟩
      rcases (written.importsRewritten parsed).edits with
        ⟨noNames, _⟩ | ⟨statement, first, others, isStatement, lists, isFilter, isEdits⟩
      · have isLeft := listed.names_eq_nil_iff.mp noNames output isOutput
        rw [notLeft] at isLeft
        contradiction
      · refine ⟨statement, isStatement, lists, ?_⟩
        rw [isEdits]
        exact importPlaced_of_filter isModule isFilter

/-- The runtime import of the sample lists one alias and takes the place of its
macro import. -/
theorem runtime_import_of_importSample :
    ∃ module expansion,
      Module.parse importSample = .ok module ∧
      ofSource {} Registry.packaged "" importSample = .ok expansion ∧
      expansion.aliases.map (·.2) = ["_css"] ∧
      ∃ statement edits,
        ImportsNames (Settings.runtimeModule {}) expansion.aliases statement ∧
        ImportPlaced {} module (scopeOf {} Registry.packaged module).bindings statement edits := by
  have expands : ((ofSource {} Registry.packaged "" importSample).toOption.any fun expansion =>
      expansion.aliases.map (·.2) = ["_css"] &&
        expansion.outputs.any fun output => !output.isPassThrough) = true := by
    decide +kernel
  have parses : (Module.parse importSample).toOption.isSome = true := by
    decide +kernel
  obtain ⟨expansion, isExpansion, called⟩ := (Option.any_eq_true _ _).mp expands
  obtain ⟨module, isModule⟩ := Option.isSome_iff_exists.mp parses
  obtain ⟨isNamed, called⟩ := (Bool.and_eq_true _ _).mp called
  obtain ⟨output, isOutput, notLeft⟩ := List.any_eq_true.mp called
  have isModule := ok_of_toOption isModule
  have expanded := ok_of_toOption isExpansion
  obtain ⟨topmost, aliases, _, areAliases, _, _, _, imports⟩ :=
    runtime_import_lists_what_is_called isModule expanded
  obtain ⟨statement, _, lists, placed⟩ := imports ⟨output, isOutput, by simpa using notLeft⟩
  exact ⟨module, expansion, isModule, expanded, of_decide_eq_true isNamed, statement, _,
    areAliases ▸ lists, placed⟩

end Restyle.Expansion
