import Mathlib.Data.List.Induction
import Restyle.Proofs.Expansion.Calls
import Restyle.Proofs.Expansion.RuntimeImport

/-!
Contract: what happens to the references to a name that its import loses.

Owns: that the binding in effect for a name is the last one declared; which uses
are left alone; `Expansion.residualSpecifiers`, what the import that is left of a
declaration binds; `Expansion.Drops`, by which a rewritten import statement no
longer binds a name; and when a reference to such a name is left alone.

Whether a name is kept is looked up in the table of bindings, where a declaration
further down in the module may have replaced the binding of the import statement.
A required module that binds the name once more is enough to take it out of that
statement and, at once, to leave its references alone.
-/

namespace Restyle

private theorem Binding.Table.find?_ofList (bindings : List Binding) (name : String) :
    (Table.ofList bindings).find? name =
      (bindings.filter fun binding => binding.localName = name).getLast? := by
  induction bindings using List.reverseRecOn with
  | nil => rfl
  | append_singleton earlier last inductionHypothesis =>
    have grows : Table.ofList (earlier ++ [last]) = (Table.ofList earlier).put last := by
      simp [Table.ofList]
    rw [grows, Expansion.find?_put, List.filter_append]
    by_cases isName : last.localName = name
    · simp [isName]
    · rw [if_neg isName]
      simpa [isName] using inductionHypothesis

/-- Declarations that are found in the order in which they begin are those of the
module. -/
theorem Module.parse_of_ordered
    {source : String}
    {tokens : List Token}
    {found : List Declaration}
    (isRead : Token.readAll source = .ok tokens)
    (isFound : Declaration.readFrom [] 0 tokens = .ok found)
    (ordered : found.Pairwise fun left right => decide (left.start ≤ right.start) = true) :
    parse source = .ok ⟨source, tokens, found⟩ := by
  have isSorted : found.mergeSort (fun left right => decide (left.start ≤ right.start)) = found :=
    List.mergeSort_of_pairwise ordered
  simp [parse, isRead, Declaration.readAll, isFound, isSorted, bind, Except.bind, pure, Except.pure]

namespace Use

/-- A use is left alone exactly if its macro is unknown or comes from a required
module. -/
theorem FoundAt.isPassThrough_iff
    {scope : Scope}
    {site : Site}
    {found : Match}
    (isFound : FoundAt scope site found) :
    found.use.isPassThrough ↔
      found.use.binding.isUnknown ∨ found.use.binding.mechanism = .dynamic := by
  constructor
  · have isRole := isFound.boundRole
    unfold isPassThrough
    generalize found.use.role = role at isRole ⊢
    generalize found.length = length at isRole
    cases isRole with
    | unknown isUnknown => exact fun _ => .inl (by simp [Binding.isUnknown, isUnknown])
    | dynamic _ isDynamic => exact fun _ => .inr isDynamic
    | imported _ _ _ _ shape =>
      -- a macro in one of its shapes is not left alone
      cases shape <;> simp
  · intro either
    by_contra notLeft
    obtain ⟨isModule, isKnown⟩ := isFound.module_of_not_passThrough notLeft
    simp [isModule, isKnown] at either

end Use

namespace Expansion

/-! ## Names that an import loses -/

/-- The specifiers of the import that is left of a declaration: those without a
macro, or the first of them that takes the module as a whole. -/
def residualSpecifiers (bindings : Binding.Table) (declaration : Declaration) :
    List Declaration.Specifier :=
  let kept := declaration.specifiers.filter fun specifier =>
    (unknownNames bindings declaration).contains specifier.localName
  match kept.find? (·.imported = "*") with
  | some specifier => [specifier]
  | none => kept

/-- The import that is left of a declaration is written from these specifiers
alone. -/
theorem residualImport?_residualSpecifiers (bindings : Binding.Table) (declaration : Declaration) :
    residualImport? { declaration with specifiers := residualSpecifiers bindings declaration }
        (unknownNames bindings declaration) =
      residualImport? declaration (unknownNames bindings declaration) := by
  unfold residualSpecifiers residualImport?
  simp only
  cases isWhole : (declaration.specifiers.filter fun specifier =>
      (unknownNames bindings declaration).contains specifier.localName).find?
      (·.imported = "*") with
  | some whole =>
    have isKept := List.mem_of_find?_eq_some isWhole
    have only : [whole].filter (fun specifier =>
        (unknownNames bindings declaration).contains specifier.localName) = [whole] :=
      List.filter_eq_self.mpr (by simpa using (List.mem_filter.mp isKept).2)
    have first : [whole].find? (·.imported = "*") = some whole := by
      simpa using List.find?_some isWhole
    simp only [only, first, List.isEmpty_cons,
      List.isEmpty_eq_false_iff.mpr (List.ne_nil_of_mem isKept)]
  | none => simp only [List.filter_filter, Bool.and_self, isWhole]

/-- An import statement is rewritten, and what is left of it does not bind one of
its names. -/
structure Drops (settings : Settings) (module : Module) (expansion : Expansion)
    (declaration : Declaration) (name : String) : Prop where
  hasAliases : expansion.aliases ≠ []
  isRewritten : declaration ∈
    module.declarations.filter (losesName settings expansion.bindings)
  isBound : ∃ specifier ∈ declaration.specifiers, specifier.localName = name
  notLeft : ∀ specifier ∈ residualSpecifiers expansion.bindings declaration,
    specifier.localName ≠ name

/-- A name without a macro is lost only beside a module that is imported as a
whole. -/
theorem exists_namespace_of_unknown
    {bindings : Binding.Table}
    {declaration : Declaration}
    {specifier : Declaration.Specifier}
    {binding : Binding}
    (isSpecifier : specifier ∈ declaration.specifiers)
    (isBound : bindings.find? specifier.localName = some binding)
    (isUnknown : binding.isUnknown)
    (notLeft : ∀ other ∈ residualSpecifiers bindings declaration,
      other.localName ≠ specifier.localName) :
    ∃ whole ∈ declaration.specifiers,
      whole.imported = "*" ∧ whole.localName ≠ specifier.localName := by
  have isKept : specifier ∈ declaration.specifiers.filter fun other =>
      (unknownNames bindings declaration).contains other.localName := by
    rw [filter_unknownNames]
    exact List.mem_filter.mpr ⟨isSpecifier, by simp [isBound, isUnknown]⟩
  unfold residualSpecifiers at notLeft
  simp only at notLeft
  split at notLeft
  · rename_i whole isWhole
    refine ⟨whole, (List.mem_filter.mp (List.mem_of_find?_eq_some isWhole)).1, ?_,
      notLeft whole List.mem_cons_self⟩
    simpa using List.find?_some isWhole
  · exact absurd rfl (notLeft specifier isKept)

/-! ## References to a lost name -/

/-- If a rewritten import statement no longer binds a name, then the references to
the name are replaced, or left alone, all alike, as the last declaration of the
name in the module has it: they are left alone exactly if it is a required module,
or if its name is unknown.  Of the unknown names only those are lost that stand
beside a module imported as a whole. -/
theorem dropped_name_is_left_iff
    {settings : Settings}
    {filename source : String}
    {module : Module}
    {expansion : Expansion}
    {declaration : Declaration}
    {name : String}
    (isModule : Module.parse source = .ok module)
    (expanded : ofSource settings Registry.packaged filename source = .ok expansion)
    (dropped : Drops settings module expansion declaration name) :
    ∃ last,
      ((Binding.listOf settings Registry.packaged module).filter fun binding =>
        binding.localName = name).getLast? = some last ∧
      (∀ output ∈ expansion.outputs, output.use.binding.localName = name →
        (output.isPassThrough ↔ last.isUnknown ∨ last.mechanism = .dynamic)) ∧
      (last.isUnknown → ∃ whole ∈ declaration.specifiers,
        whole.imported = "*" ∧ whole.localName ≠ name) := by
  rcases cases_of_ofSource isModule expanded with ⟨_, rfl⟩ | ⟨uses, topmost, progress, written⟩
  · exact absurd rfl dropped.hasAliases
  · have isTable : expansion.bindings = (scopeOf settings Registry.packaged module).bindings := by
      rw [written.isResult]
      rfl
    obtain ⟨specifier, isSpecifier, isName⟩ := dropped.isBound
    obtain ⟨isDeclaration, loses⟩ := List.mem_filter.mp dropped.isRewritten
    have bound : ((scopeOf settings Registry.packaged module).bindings.find? name).isSome := by
      rw [← isName]
      rw [isTable, losesName_iff_bindsMacro isDeclaration] at loses
      exact isSome_find?_of_specifier isDeclaration loses.isMacroPath isSpecifier
    obtain ⟨last, isLast⟩ := Option.isSome_iff_exists.mp bound
    refine ⟨last, ?_, fun output isOutput ofName => ?_, fun isUnknown => ?_⟩
    · rw [← Binding.Table.find?_ofList]
      exact isLast
    · have isUse : output.use ∈ usesOf (scopeOf settings Registry.packaged module)
          expansion.outputs :=
        List.mem_append_left _ (List.mem_map_of_mem isOutput)
      obtain ⟨_, site, length, found, _⟩ := written.found isUse
      have isBinding : output.use.binding = last := by
        have own := found.isBound
        have ownName : output.use.binding.localName = site.token.text := by
          simpa using List.find?_some own
        rw [← ownName, ofName, isLast] at own
        exact (Option.some.inj own).symm
      rw [← isBinding]
      exact found.isPassThrough_iff
    · subst isName
      have notLeft := dropped.notLeft
      rw [isTable] at notLeft
      exact exists_namespace_of_unknown isSpecifier isLast isUnknown notLeft

/-- A required module binds, in a function, a name that is imported above it. -/
def shadowedSample : String :=
  "import \x7b theme, flush \x7d from './macro'\n" ++
    "function reset() \x7b const \x7b hydrate: theme \x7d = require('./macro'); theme() \x7d\n" ++
    "flush()\nexport default theme\n"

/-- The import statement loses the name, and the reference at the end of the module
is left alone. -/
theorem shadowedSample_leaves_reference :
    ∃ module expansion declaration,
      Module.parse shadowedSample = .ok module ∧
      ofSource {} Registry.packaged "" shadowedSample = .ok expansion ∧
      Drops {} module expansion declaration "theme" ∧
      ∃ output ∈ expansion.outputs, output.start = 138 ∧
        output.use.binding.localName = "theme" ∧ output.isPassThrough := by
  have evaluates : (Token.readAll shadowedSample).toOption.any (fun tokens =>
      (Declaration.readFrom [] 0 tokens).toOption.any fun found =>
        let module : Module := ⟨shadowedSample, tokens, found⟩
        let attempt := run {} Registry.packaged "" module
        decide (found.Pairwise fun left right => decide (left.start ≤ right.start) = true) &&
        attempt.result.toOption.any (fun expansion =>
          (found.filter (losesName {} expansion.bindings)).any fun declaration =>
            !expansion.aliases.isEmpty &&
              declaration.specifiers.any (·.localName = "theme") &&
              (residualSpecifiers expansion.bindings declaration).all (·.localName ≠ "theme")) &&
        ((Binding.listOf {} Registry.packaged module).filter fun binding =>
          binding.localName = "theme").getLast?.any (·.mechanism = .dynamic) &&
        attempt.finished.any fun output =>
          output.start = 138 && output.use.binding.localName = "theme") = true := by
    decide +kernel
  obtain ⟨tokens, reads, evaluates⟩ := (Option.any_eq_true _ _).mp evaluates
  obtain ⟨found, finds, evaluates⟩ := (Option.any_eq_true _ _).mp evaluates
  simp only [Bool.and_eq_true] at evaluates
  obtain ⟨⟨⟨ordered, drops⟩, rebinds⟩, leaves⟩ := evaluates
  have isModule := Module.parse_of_ordered (ok_of_toOption reads) (ok_of_toOption finds)
    (of_decide_eq_true ordered)
  obtain ⟨expansion, expands, drops⟩ := (Option.any_eq_true _ _).mp drops
  have expanded := (ofSource_of_parse isModule).trans (ok_of_toOption expands)
  obtain ⟨declaration, isRewritten, drops⟩ := List.any_eq_true.mp drops
  obtain ⟨last, isLast, isDynamic⟩ := (Option.any_eq_true _ _).mp rebinds
  obtain ⟨output, isFinished, here⟩ := List.any_eq_true.mp leaves
  simp only [Bool.and_eq_true, Bool.not_eq_true', List.isEmpty_eq_false_iff, List.any_eq_true,
    decide_eq_true_eq, List.all_eq_true] at drops isDynamic here
  have dropped : Drops {} ⟨shadowedSample, tokens, found⟩ expansion declaration "theme" :=
    ⟨drops.1.1, isRewritten, drops.1.2, drops.2⟩
  obtain ⟨other, isOther, isLeft, _⟩ := dropped_name_is_left_iff isModule expanded dropped
  have isSame : last = other := Option.some.inj (isLast.symm.trans isOther)
  have isOutput := (mem_outputs_iff_finished isModule expanded).mpr isFinished
  exact ⟨_, expansion, declaration, isModule, expanded, dropped, output, isOutput, here.1,
    here.2, (isLeft output isOutput here.2).mpr (.inr (isSame ▸ isDynamic))⟩

end Expansion

end Restyle
