import Restyle.Expansion
import Restyle.Proofs.Module.Parsed
import Restyle.Proofs.Output.Writing

/-!
Contract: what a successful expansion went through.

Owns: `Expansion.scopeOf`, what the names of a module mean in an expansion, and
`Expansion.Written`, the scan and the writing behind an expansion that does not
leave its module as it is.
-/

namespace Restyle.Expansion

open Output.Writer

/-- What the names of a module mean. -/
def scopeOf (settings : Settings) (registry : Registry) (module : Module) : Scope :=
  ⟨module, registry, Binding.Table.ofList (Binding.listOf settings registry module)⟩

def initialProgress (module : Module) : Output.Progress :=
  ⟨Aliases.ofTaken module.identifiers, []⟩

/-- An expansion is assembled from the outputs of the uses in the module. -/
structure Written (settings : Settings) (registry : Registry) (filename : String)
    (module : Module) (expansion : Expansion) (uses : List Use) (topmost : List Output)
    (progress : Output.Progress) : Prop where
  scanned : Use.scan (scopeOf settings registry module) module.tokens = .ok uses
  gives : Gives
    (Output.ofPlans ⟨module.source, filename, settings⟩
      (uses.map (Plan.ofUse (scopeOf settings registry module))))
    (initialProgress module) topmost progress
  isResult : expansion =
    assemble settings module (scopeOf settings registry module).bindings topmost progress

section Run

variable
  {settings : Settings}
  {registry : Registry}
  {filename source : String}
  {module : Module}

/-- The expansion of a text is the result of the run on its module. -/
theorem ofSource_of_parse (isModule : Module.parse source = .ok module) :
    ofSource settings registry filename source =
      (run settings registry filename module).result := by
  rw [ofSource, isModule]
  rfl

/-- A module that binds no macro is left as it is. -/
theorem ofSource_of_isEmpty
    (isModule : Module.parse source = .ok module)
    (isEmpty : (Binding.listOf settings registry module).isEmpty) :
    ofSource settings registry filename source = .ok (unchanged module) := by
  rw [ofSource_of_parse isModule, run, if_pos isEmpty]

end Run

/-- A successful expansion leaves a module without macros as it is, or is
written. -/
theorem cases_of_ofSource
    {settings : Settings}
    {registry : Registry}
    {filename source : String}
    {expansion : Expansion}
    {module : Module}
    (isModule : Module.parse source = .ok module)
    (expanded : ofSource settings registry filename source = .ok expansion) :
    (scopeOf settings registry module).bindings = [] ∧ expansion = unchanged module ∨
      ∃ uses topmost progress,
        Written settings registry filename module expansion uses topmost progress := by
  rw [ofSource_of_parse isModule, run] at expanded
  split at expanded
  · rename_i isEmpty
    refine .inl ⟨?_, (Except.ok.inj expanded).symm⟩
    rw [scopeOf, List.isEmpty_iff.mp isEmpty]
    rfl
  · refine .inr ?_
    obtain ⟨topmost, isTopmost, isResult⟩ := exists_of_map_ok expanded
    obtain ⟨progress, gives, isProgress⟩ := exists_gives isTopmost
    rw [← isProgress] at isResult
    change Gives
      (writeOutputs ⟨module.source, filename, settings⟩
        (Plan.ofSpan (scopeOf settings registry module) (wholeSpan module)))
      (initialProgress module) topmost progress at gives
    cases scanned : Use.scan (scopeOf settings registry module) module.tokens with
    | error fault =>
      rw [Plan.ofSpan_of_fault (wholeSpan module) scanned] at gives
      exact absurd gives not_gives_throw
    | ok uses =>
      rw [Plan.ofSpan_of_scan (wholeSpan module) scanned] at gives
      exact ⟨uses, topmost, progress, scanned, gives, isResult.symm⟩

end Restyle.Expansion
