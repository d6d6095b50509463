import Mathlib.Data.List.Nodup
import Restyle.Proofs.Expansion.LeftAlone
import Restyle.Proofs.Expansion.Remade

/-!
Contract: an expanded module is expanded to what it is.

Owns: `TakesNone`, by which an import statement takes no macro from a macro
module; that the import statements of an expanded module do so; `Repeatable`, what
is asked of a module for the code of its expansion to be read again; and that a
second expansion of such a module changes nothing.

Does not own: how the code is put together and read (`Expansion.Remade`), and the
expansion of a module in which nothing is to be done (`Expansion.LeftAlone`).
-/

namespace Restyle

open Token Lexeme Restyle.Bracket Declaration

private theorem Binding.Table.find?_of_nodup
    {bindings : List Binding}
    (distinct : (bindings.map (·.localName)).Nodup)
    {binding : Binding}
    (member : binding ∈ bindings) :
    (ofList bindings).find? binding.localName = some binding := by
  obtain ⟨other, isBound⟩ := Option.isSome_iff_exists.mp (Expansion.isSome_find?_of_mem member)
  have isOther := Expansion.mem_of_mem_ofList (List.mem_of_find?_eq_some isBound)
  have sameName : other.localName = binding.localName := by simpa using List.find?_some isBound
  rw [isBound, List.inj_on_of_nodup_map distinct isOther member sameName]

namespace Expansion

open Output

/-! ## What is left of the imports -/

/-- No macro is taken from a macro module. -/
def TakesNone (settings : Settings) (registry : Registry) (path : String)
    (specifiers : List Specifier) : Prop :=
  settings.isMacroPath path →
    ∀ specifier ∈ specifiers, Binding.exportOf registry specifier.imported = none

section Imports

variable
  {settings : Settings}
  {registry : Registry}
  {module : Module}
  {declaration : Declaration}

/-- A name that is bound to no macro in effect is declared for none. -/
theorem exportOf_eq_none
    (distinct : ((Binding.listOf settings registry module).map (·.localName)).Nodup)
    (isDeclaration : declaration ∈ module.declarations)
    (isMacro : settings.isMacroPath declaration.path)
    {specifier : Specifier}
    (isSpecifier : specifier ∈ declaration.specifiers)
    (unknown : ((scopeOf settings registry module).bindings.find? specifier.localName).any
      (·.isUnknown)) :
    Binding.exportOf registry specifier.imported = none := by
  have isBound := Binding.Table.find?_of_nodup distinct
    (mem_listOf isDeclaration isMacro isSpecifier registry)
  rw [scopeOf, isBound] at unknown
  simpa [Binding.isUnknown] using unknown

private theorem takesNone_of_keeps
    (distinct : ((Binding.listOf settings registry module).map (·.localName)).Nodup)
    (isDeclaration : declaration ∈ module.declarations)
    (isStatement : declaration.mechanism = .module)
    (keeps : losesName settings (scopeOf settings registry module).bindings declaration = false) :
    TakesNone settings registry declaration.path declaration.specifiers := by
  intro isMacro specifier isSpecifier
  have same : (unknownNames (scopeOf settings registry module).bindings declaration).length =
      declaration.specifiers.length := by
    simpa [losesName, isStatement, isMacro] using keeps
  rw [unknownNames, List.length_map] at same
  exact exportOf_eq_none distinct isDeclaration isMacro isSpecifier
    (List.length_filter_eq_length_iff.mp same specifier isSpecifier)

private theorem takesNone_of_residual
    (distinct : ((Binding.listOf settings registry module).map (·.localName)).Nodup)
    (isDeclaration : declaration ∈ module.declarations) :
    TakesNone settings registry declaration.path
      (residualSpecifiers (scopeOf settings registry module).bindings declaration) := by
  intro isMacro specifier isLeft
  have isKept : specifier ∈ declaration.specifiers.filter fun specifier =>
      (unknownNames (scopeOf settings registry module).bindings declaration).contains
        specifier.localName := by
    unfold residualSpecifiers at isLeft
    simp only at isLeft
    split at isLeft
    · rename_i whole isWhole
      rw [List.mem_singleton.mp isLeft]
      exact List.mem_of_find?_eq_some isWhole
    · exact isLeft
  rw [filter_unknownNames] at isKept
  obtain ⟨isSpecifier, isUnknown⟩ := List.mem_filter.mp isKept
  exact exportOf_eq_none distinct isDeclaration isMacro isSpecifier isUnknown

/-- The import statements that lose a name are the same in the order of the tokens and
in that of the module. -/
theorem filter_losesName
    {source : String}
    {found : List Declaration}
    (isModule : Module.parse source = .ok module)
    (isFound : readFrom [] 0 module.tokens = .ok found)
    (same : found.Perm module.declarations)
    (settings : Settings)
    (bindings : Binding.Table) :
    (found.filter (·.mechanism = .module)).filter (losesName settings bindings) =
      module.declarations.filter (losesName settings bindings) := by
  obtain ⟨-, parsed⟩ := Module.parsed_of_parse isModule
  have declared := declared_of_readFrom (Nat.zero_le _) isFound
  obtain ⟨ascending, stated⟩ := declared.stated parsed.placed
  have areStatements : (found.filter (·.mechanism = .module)).filter (losesName settings bindings) =
      found.filter (losesName settings bindings) := by
    rw [List.filter_filter]
    refine List.filter_congr fun declaration _ => ?_
    rw [Bool.eq_iff_iff, Bool.and_eq_true, decide_eq_true_eq]
    exact ⟨And.left, fun loses => ⟨loses, isModule_of_losesName loses⟩⟩
  have framed : ∀ declaration ∈ module.declarations.filter (losesName settings bindings),
      declaration.start < declaration.stop := by
    intro declaration member
    obtain ⟨isDeclaration, loses⟩ := List.mem_filter.mp member
    exact (framed_of_statement parsed isDeclaration (isModule_of_losesName loses)).nonempty
  have sorted : (module.declarations.filter (losesName settings bindings)).Pairwise
      (·.stop ≤ ·.start) := by
    have apart := statements_apart parsed settings bindings
    refine (apart.and ((sorted_declarations isModule).filter _)).imp_of_mem ?_
    rintro left right isLeft isRight ⟨either, ordered⟩
    have nonempty := framed right isRight
    omega
  refine List.Perm.eq_of_pairwise ?_ (ascending.sublist List.filter_sublist) sorted ?_
  · intro left right isLeft isRight before after
    have nonempty := framed right isRight
    have isStatement := (stated left (List.mem_filter.mp isLeft).1).1.nonempty
    omega
  · rw [areStatements]
    exact same.filter _

end Imports

/-! ## Reading the code again -/

/-- A text with the faces of an expanded module is a module in which no name stands
for a macro. -/
theorem exists_parse_of_echoes
    {settings : Settings}
    {registry : Registry}
    {text : String}
    {last : Slash}
    {loose : List Token}
    {faces : List Face}
    (run : CodeRun .module .divides text.toList faces .module last [])
    (echoes : Echoes settings (TakesNone settings registry) loose faces)
    (none : requiresNone settings (loose.map Token.face)) :
    ∃ module, Module.parse text = .ok module ∧ (scopeOf settings registry module).IsInert := by
  obtain ⟨tokens, areTokens, areFaces⟩ := run.readAll
  obtain ⟨found, isFound, takesNone⟩ := (echoes.orderly none).exists_readFrom [] areFaces
  refine ⟨⟨text, tokens, found.mergeSort fun left right => left.start ≤ right.start⟩, ?_, ?_⟩
  · simp only [Module.parse, areTokens, bind, Except.bind, Declaration.readAll, isFound]
    rfl
  · intro binding isBound
    have declared := mem_of_mem_ofList isBound
    simp only [Binding.listOf, List.mem_flatMap, List.mem_filter, Binding.ofDeclaration,
      List.mem_map, List.mem_mergeSort] at declared
    obtain ⟨declaration, ⟨isDeclaration, isMacro⟩, specifier, isSpecifier, rfl⟩ := declared
    have unknown := takesNone declaration isDeclaration isMacro isMacro specifier isSpecifier
    simp [Binding.isInert, Binding.isUnknown, unknown]

/-! ## Expanding twice -/

/-- What is asked of a module for the code of its expansion to be read again.  Every
lexeme and every bracket of it is complete, and what is copied may be; no import
statement begins inside a use, and none is copied into an output; no macro module
is required, and no name is bound twice; and the imports that are rewritten may
be. -/
structure Repeatable (settings : Settings) (registry : Registry) (module : Module)
    (expansion : Expansion) : Prop where
  isSettled : SettledBetween module.source.toList 0 module.source.length
  isBalanced : balanced module.tokens
  legible : Legible (scopeOf settings registry module) expansion.outputs
  outside : ∀ uses, Use.scan (scopeOf settings registry module) module.tokens = .ok uses →
    ImportsOutside module uses
  declares : ∀ output ∈ expansion.outputs, output.isPassThrough = false →
    ∀ tokens, Token.readAll output.code = .ok tokens →
      declaresNone settings (tokens.map Token.face)
  requiresNone : requiresNone settings ((looseFrom 0 module.tokens).map Token.face)
  distinct : ((Binding.listOf settings registry module).map (·.localName)).Nodup
  amendable : ∀ declaration ∈ module.declarations,
    losesName settings (scopeOf settings registry module).bindings declaration →
      Amendable module.source.toList module.tokens (scopeOf settings registry module).bindings
        declaration

section Repeatable

variable
  {filename source : String}
  {module : Module}
  {expansion : Expansion}
  {uses : List Use}
  {topmost : List Output}
  {progress : Progress}

/-- The tokens of a module from the beginning on, with outputs in place of the uses. -/
theorem Repeatable.reached
    (repeatable : Repeatable {} Registry.packaged module expansion)
    (isModule : Module.parse source = .ok module)
    (written : Written {} Registry.packaged filename module expansion uses topmost progress)
    (areUses : topmost.map (·.use) = uses)
    (areOutputs : topmost ⊆ expansion.outputs) :
    Reached {} module.source module.tokens [] module.tokens .divides 0 (replacing topmost) [] := by
  obtain ⟨-, parsed⟩ := Module.parsed_of_parse isModule
  obtain ⟨last, stands⟩ := stands_of_parse isModule
  have closes : awaited true [] (module.tokens.map Token.face) = some [] := by
    simpa [balanced] using repeatable.isBalanced
  have complete := @Written.complete _ _ _ _ _ _ _ _ _ False written isModule repeatable.legible
    False.elim (fun output isOutput notLeft name => written.alias_isName rfl isOutput notLeft)
  have entriesBalanced : ∀ use ∈ uses, ∀ entry ∈ use.role.entries, balanced entry.2.tokens := by
    intro use isUse entry isEntry
    have found : Use.foundIn (scopeOf {} Registry.packaged module) .searched (wholeSpan module) =
        .ok uses := written.scanned
    refine repeatable.legible.isBalanced entry (mem_expressions ?_ isEntry)
    rw [scopeOf] at found ⊢
    rw [Use.allIn_of_foundIn found]
    exact List.mem_flatMap.mpr ⟨use, isUse, List.mem_cons_self⟩
  have woven := woven_of_scanned (Use.scanned_of_scan written.scanned) stands closes
    repeatable.legible.holesBalanced entriesBalanced areUses
    (fun output member => (complete output (areOutputs member)).regular)
  refine ⟨rfl, by simp, .inl rfl, ⟨last, stands⟩, repeatable.isSettled, fun token member =>
    parsed.placed_everywhere (subset_everywhere _ member), woven, ⟨[], closes⟩, ?_⟩
  intro output isReplacing own reads
  obtain ⟨isTopmost, notLeft⟩ := List.mem_filter.mp isReplacing
  have run := reads.runs .module .divides [] (fun _ => rfl)
  rw [List.append_nil] at run
  obtain ⟨tokens, areTokens, rfl⟩ := run.readAll
  exact repeatable.declares output (areOutputs isTopmost) (by simpa using notLeft) tokens areTokens

/-- The import statements of the module may be rewritten as they are. -/
theorem Repeatable.admits
    {settings : Settings}
    {registry : Registry}
    (repeatable : Repeatable settings registry module expansion)
    (parsed : module.Parsed)
    {declaration : Declaration}
    (isDeclaration : declaration ∈ module.declarations)
    (isStatement : declaration.mechanism = .module) :
    Admits settings (scopeOf settings registry module).bindings (TakesNone settings registry)
      module.source module.tokens declaration where
  framed := framed_of_statement parsed isDeclaration isStatement
  amendable := repeatable.amendable declaration isDeclaration
  residual _ := takesNone_of_residual repeatable.distinct isDeclaration
  kept := takesNone_of_keeps repeatable.distinct isDeclaration isStatement

/-- The code of an expansion with aliases is a module in which no name stands for a
macro. -/
theorem Repeatable.exists_parse
    (repeatable : Repeatable {} Registry.packaged module expansion)
    (isModule : Module.parse source = .ok module)
    (written : Written {} Registry.packaged filename module expansion uses topmost progress)
    (named : progress.aliases.names ≠ []) :
    ∃ again, Module.parse expansion.code = .ok again ∧
      (scopeOf {} Registry.packaged again).IsInert := by
  obtain ⟨-, parsed⟩ := Module.parsed_of_parse isModule
  have outside := repeatable.outside uses written.scanned
  have rewriting := written.rewriting parsed outside
  obtain ⟨statement, first, others, isStatement, -, isFilter, isEdits⟩ :=
    rewriting.imports.edits.resolve_left fun unnamed => named unnamed.1
  obtain ⟨found, isFound, same⟩ := Module.exists_found isModule
  have isLost := (filter_losesName isModule isFound same {}
    (scopeOf {} Registry.packaged module).bindings).trans isFilter
  have areStatements : ∀ declaration ∈ found.filter (·.mechanism = .module),
      declaration ∈ module.declarations ∧ declaration.mechanism = .module := by
    intro declaration member
    obtain ⟨isFound, isModule⟩ := List.mem_filter.mp member
    exact ⟨same.mem_iff.mp isFound, by simpa using isModule⟩
  have areEdits : editsOf {} module (scopeOf {} Registry.packaged module).bindings topmost
      progress.aliases = (replacing topmost).map edit ++ amendments {} module.source
        (scopeOf {} Registry.packaged module).bindings [statement]
          (found.filter (·.mechanism = .module)) := by
    rw [editsOf, isEdits, amendments_of_filter isLost]
    rfl
  have announced : ∀ text ∈ [statement], Announced (TakesNone {} Registry.packaged) text := by
    intro text member
    obtain ⟨covered, specifiers, announces⟩ :=
      written.announces rfl (by decide) (List.mem_singleton.mp member ▸ isStatement)
    refine ⟨covered, _, specifiers, announces, fun isMacro => ?_⟩
    exact absurd isMacro (by decide)
  have apart : ∀ output ∈ replacing topmost, ∀ declaration ∈ found.filter (·.mechanism = .module),
      output.stop ≤ declaration.start ∨ declaration.stop ≤ output.start := by
    intro output isReplacing declaration member
    obtain ⟨isDeclaration, isModule⟩ := areStatements declaration member
    have isUse : output.use ∈ uses := by
      rw [← rewriting.areUses]
      exact List.mem_map_of_mem (List.mem_filter.mp isReplacing).1
    exact use_apart_statement written.scanned outside isUse isDeclaration isModule
  have editsApart := rewriting.apart
  rw [areEdits] at editsApart
  obtain ⟨edits, faces, remade⟩ := exists_remade (sectioned_of_readFrom isFound)
    (repeatable.reached isModule written rewriting.areUses rewriting.areOutputs)
    (fun declaration member => repeatable.admits parsed (areStatements declaration member).1
      (areStatements declaration member).2) announced apart editsApart
  obtain ⟨text, last, spliced, run, -⟩ := remade.recasts
  have isText : expansion.code.toList = text := by
    have isSpliced := spliced.eq_substituteFrom
    rw [List.drop_zero] at isSpliced
    rw [rewriting.isSubstituted, areEdits, ← isSpliced]
    refine Edit.substituteFrom_perm remade.same.symm editsApart (fun edit member => ?_) _ _
    exact (rewriting.within edit (areEdits ▸ member)).nonempty
  exact exists_parse_of_echoes (isText ▸ run) remade.echoes repeatable.requiresNone

end Repeatable

/-- The code of an expansion is expanded to itself, with the default settings and the
packaged macros, if no alias was given or the module is repeatable. -/
theorem second_expansion_changes_nothing
    {filename source : String}
    {module : Module}
    {expansion : Expansion}
    (isModule : Module.parse source = .ok module)
    (expanded : ofSource {} Registry.packaged filename source = .ok expansion)
    (unnamedOrRepeatable : expansion.aliases = [] ∨
      Repeatable {} Registry.packaged module expansion) :
    ∃ again, ofSource {} Registry.packaged filename expansion.code = .ok again ∧
      again.code = expansion.code ∧ again.changed = false := by
  have isSource := (Module.parsed_of_parse isModule).1
  rcases cases_of_ofSource isModule expanded with ⟨-, rfl⟩ | ⟨uses, topmost, progress, written⟩
  · refine ⟨unchanged module, ?_, rfl, rfl⟩
    rw [← expanded, ← isSource]
    rfl
  · have isNames : expansion.aliases = progress.aliases.names := by
      rw [written.isResult]
      rfl
    by_cases unnamed : progress.aliases.names = []
    · obtain ⟨isCode, same⟩ :=
        written.unchanged_of_passThrough (written.listed.names_eq_nil_iff.mp unnamed)
      refine ⟨expansion, ?_, rfl, same⟩
      rw [isCode, isSource, expanded]
    · have repeatable := unnamedOrRepeatable.resolve_left (isNames ▸ unnamed)
      obtain ⟨again, isAgain, inert⟩ := repeatable.exists_parse isModule written unnamed
      obtain ⟨again, isResult, isCode, same, _⟩ := exists_unchanged isAgain inert
      exact ⟨again, isResult, isCode, same⟩

/-! ## Expansions that are seen to be repeatable -/

/-- Whether an import statement may be rewritten. -/
def isAmendable (source : List Char) (tokens : List Token) (bindings : Binding.Table)
    (declaration : Declaration) : Bool :=
  (match residualSpecifiers bindings declaration with
    | [] => declaration.start = 0 || source[declaration.start - 1]?.all Text.isBlank
    | kept => Text.isPlainPath declaration.path && areReadBack kept) &&
    !(tokens.find? (declaration.stop ≤ ·.start)).any (·.face.isSlashed)

private theorem amendable_of_isAmendable
    {source : List Char}
    {tokens : List Token}
    {bindings : Binding.Table}
    {declaration : Declaration}
    (checked : isAmendable source tokens bindings declaration) :
    Amendable source tokens bindings declaration := by
  unfold isAmendable at checked
  rw [Bool.and_eq_true, Bool.not_eq_true'] at checked
  obtain ⟨own, unslashed⟩ := checked
  cases isLeft : residualSpecifiers bindings declaration with
  | nil =>
    simp only [isLeft, Bool.or_eq_true, decide_eq_true_eq, Option.all_eq_true] at own
    refine ⟨fun someLeft => absurd isLeft someLeft, fun _ => own.imp_right ?_, unslashed⟩
    rintro blank ⟨c, stands, inked⟩
    exact inked (blank c stands)
  | cons specifier others =>
    simp only [isLeft, Bool.and_eq_true] at own
    exact ⟨fun _ => isLeft ▸ own, fun noneLeft => by simp [isLeft] at noneLeft, unslashed⟩

/-- Whether a module with some outputs is repeatable, each expression ending plainly. -/
def isRepeatable (settings : Settings) (registry : Registry) (module : Module)
    (outputs : List Output) : Bool :=
  let scope := scopeOf settings registry module
  isLegible scope outputs && balanced module.tokens &&
    (Use.scan scope module.tokens).toOption.all (fun uses =>
      module.declarations.all fun declaration => uses.all fun use =>
        !(use.start ≤ declaration.start && declaration.start < use.stop)) &&
    outputs.all (fun output => (Token.readAll output.code).toOption.all fun tokens =>
      declaresNone settings (tokens.map Token.face)) &&
    requiresNone settings ((looseFrom 0 module.tokens).map Token.face) &&
    ((Binding.listOf settings registry module).map (·.localName)).Nodup &&
    module.declarations.all fun declaration => !losesName settings scope.bindings declaration ||
      isAmendable module.source.toList module.tokens scope.bindings declaration

private theorem repeatable_of_isRepeatable
    {settings : Settings}
    {registry : Registry}
    {module : Module}
    {expansion : Expansion}
    {outputs : List Output}
    (checked : isRepeatable settings registry module outputs)
    (same : ∀ output ∈ expansion.outputs, output ∈ outputs) :
    Repeatable settings registry module expansion := by
  simp only [isRepeatable, Bool.and_eq_true, decide_eq_true_eq, List.all_eq_true,
    Option.all_eq_true, Bool.or_eq_true, Bool.not_eq_true'] at checked
  obtain ⟨⟨⟨⟨⟨⟨isLegible, isBalanced⟩, outside⟩, declares⟩, requiresNone⟩, distinct⟩, amendable⟩ :=
    checked
  have legible := legible_of_isLegible isLegible
  simp only [Expansion.isLegible, Bool.and_eq_true] at isLegible
  constructor
  · exact settledBetween_of_settledFrom isLegible.1.2 _ _
  · exact isBalanced
  · exact ⟨legible.holesBalanced, legible.isBalanced, legible.copyable,
      fun output isOutput => legible.readBack output (same output isOutput)⟩
  · intro uses scanned declaration isDeclaration _ use isUse
    have apart := outside uses (by rw [scanned]; rfl) declaration isDeclaration use isUse
    simpa using apart
  · intro output isOutput _ tokens areTokens
    exact declares output (same output isOutput) tokens (by rw [areTokens]; rfl)
  · exact requiresNone
  · exact distinct
  · intro declaration isDeclaration loses
    refine amendable_of_isAmendable ((amendable declaration isDeclaration).resolve_left ?_)
    simp [loses]

/-- Two macro imports, of which one keeps a name and nothing is left of the other. -/
def repeatedSample : String :=
  "import \x7b css, b \x7d from './macro'\nimport \x7b flush \x7d from './macro'\n" ++
    "flush(css`x$\x7bb\x7d`)"

/-- The sample is expanded, and its code is expanded to itself. -/
theorem repeatedSample_is_repeated :
    ∃ module expansion again,
      Module.parse repeatedSample = .ok module ∧
      ofSource {} Registry.packaged "" repeatedSample = .ok expansion ∧
      Repeatable {} Registry.packaged module expansion ∧ expansion.aliases ≠ [] ∧
      ofSource {} Registry.packaged "" expansion.code = .ok again ∧
      again.code = expansion.code ∧ again.changed = false := by
  have evaluates : (Token.readAll repeatedSample).toOption.any (fun tokens =>
      (Declaration.readFrom [] 0 tokens).toOption.any fun found =>
        let module : Module := ⟨repeatedSample, tokens, found⟩
        let attempt := run {} Registry.packaged "" module
        decide (found.Pairwise fun left right => decide (left.start ≤ right.start) = true) &&
        attempt.result.toOption.any (!·.aliases.isEmpty) &&
        isRepeatable {} Registry.packaged module attempt.finished) = true := by
    decide +kernel
  obtain ⟨tokens, reads, evaluates⟩ := (Option.any_eq_true _ _).mp evaluates
  obtain ⟨found, finds, evaluates⟩ := (Option.any_eq_true _ _).mp evaluates
  simp only [Bool.and_eq_true] at evaluates
  obtain ⟨⟨ordered, expands⟩, checked⟩ := evaluates
  have isModule := Module.parse_of_ordered (ok_of_toOption reads) (ok_of_toOption finds)
    (of_decide_eq_true ordered)
  obtain ⟨expansion, expands, named⟩ := (Option.any_eq_true _ _).mp expands
  have expanded := (ofSource_of_parse isModule).trans (ok_of_toOption expands)
  have repeatable := repeatable_of_isRepeatable checked fun output =>
    (mem_outputs_iff_finished isModule expanded).mp
  obtain ⟨again, isAgain, isCode, unchanged⟩ :=
    second_expansion_changes_nothing isModule expanded (.inr repeatable)
  exact ⟨_, expansion, again, isModule, expanded, repeatable, by simpa using named, isAgain, isCode,
    unchanged⟩

end Expansion

end Restyle
