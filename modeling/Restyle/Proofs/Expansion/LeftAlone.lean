import Restyle.Proofs.Expansion.Complete
import Restyle.Proofs.Expansion.RuntimeImport

/-!
Contract: an expansion that has nothing to do changes nothing.

Owns: that an expansion without aliases has the text of its module;
`Scope.IsInert`, by which no name of a module stands for a macro that is to be
expanded; and that a module with such names is expanded, whatever follows them,
to what it is.

The search for uses does not look beyond a name that is left alone: what follows
it is searched like all other tokens, and its brackets are never counted.
-/

namespace Restyle

/-- Whether nothing is to be done for a name: it stands for no known macro, or for
one that a required module may provide and does. -/
def Binding.isInert (registry : Registry) (binding : Binding) : Bool :=
  binding.isUnknown ||
    binding.mechanism = .dynamic &&
      (binding.exported.bind registry.find?).any fun spec => !spec.requiresImport.isTrue

/-- Nothing is to be done for any name. -/
def Scope.IsInert (scope : Scope) : Prop :=
  ∀ binding ∈ scope.bindings, binding.isInert scope.registry

namespace Use

/-! ## Searching -/

/-- A search succeeds, and all uses that it finds are left alone. -/
def FindsInert (outcome : Except Fault (List Use)) : Prop :=
  ∃ uses, outcome = .ok uses ∧ ∀ use ∈ uses, use.isPassThrough

theorem FindsInert.nothing : FindsInert (.ok []) :=
  ⟨[], rfl, by simp⟩

theorem FindsInert.append
    {first later : Except Fault (List Use)}
    (inFirst : FindsInert first)
    (inLater : FindsInert later) :
    FindsInert (do
      let uses ← first
      let others ← later
      return uses ++ others) := by
  obtain ⟨uses, rfl, areLeft⟩ := inFirst
  obtain ⟨others, rfl, othersLeft⟩ := inLater
  refine ⟨uses ++ others, rfl, fun use member => ?_⟩
  rcases List.mem_append.mp member with early | late
  · exact areLeft use early
  · exact othersLeft use late

theorem FindsInert.cons
    {later : Except Fault (List Use)}
    {use : Use}
    (isLeft : use.isPassThrough)
    (inLater : FindsInert later) :
    FindsInert (do
      let others ← later
      return use :: others) := by
  obtain ⟨others, rfl, othersLeft⟩ := inLater
  exact ⟨use :: others, rfl, List.forall_mem_cons.mpr ⟨isLeft, othersLeft⟩⟩

private theorem roleAt_of_inert
    {scope : Scope}
    {binding : Binding}
    (inert : binding.isInert scope.registry)
    (site : Site) :
    ∃ spec, roleAt scope binding site = .ok (.passThrough spec, 0) := by
  unfold roleAt
  cases isKnown : binding.exported with
  | none => exact ⟨none, rfl⟩
  | some exported =>
    simp only [Binding.isInert, Binding.isUnknown, isKnown, Option.isNone_some, Bool.false_or,
      Bool.and_eq_true, decide_eq_true_eq, Option.bind_some, Option.any_eq_true,
      Bool.not_eq_true'] at inert
    obtain ⟨isDynamic, spec, isSpec, notRequired⟩ := inert
    refine ⟨some spec, ?_⟩
    simp only [isDynamic, isSpec]
    exact if_neg (by simp [notRequired])

private theorem matchAt_of_inert
    {scope : Scope}
    (inert : scope.IsInert)
    (site : Site) :
    matchAt scope site = .ok none ∨
      ∃ use : Use, use.isPassThrough ∧ matchAt scope site = .ok (some ⟨use, 0⟩) := by
  unfold matchAt
  split
  · split
    · exact .inl rfl
    · rename_i binding isBound
      obtain ⟨spec, isRole⟩ := roleAt_of_inert (inert binding (List.mem_of_find?_eq_some isBound)) site
      rw [isRole]
      exact .inr ⟨_, rfl, rfl⟩
  · exact .inl rfl

mutual

/-- In an inert scope every list of tokens is searched without a fault. -/
theorem scanFrom_of_inert
    {scope : Scope}
    (inert : scope.IsInert)
    (before : List Token)
    (skip : Nat)
    (tokens : List Token) :
    FindsInert (scanFrom scope before skip tokens) :=
  match tokens, skip with
  | [], _ => by
    rw [scanFrom]
    exact .nothing
  | token :: after, skip + 1 => scanFrom_of_inert inert (token :: before) skip after
  | token :: after, 0 => by
    have later := scanFrom_of_inert inert (token :: before) 0 after
    have inner := scanToken_of_inert inert token
    rw [scanFrom]
    split
    · exact later
    · rcases matchAt_of_inert inert ⟨before, token, after⟩ with noUse | ⟨use, isLeft, isUse⟩
      · rw [noUse]
        exact inner.append later
      · rw [isUse]
        exact .cons isLeft later

private theorem scanToken_of_inert
    {scope : Scope}
    (inert : scope.IsInert)
    (token : Token) :
    FindsInert (scanToken scope token) :=
  match token with
  | ⟨_, _, _, .atom _⟩ => by
    rw [scanToken, scanBody]
    exact .nothing
  | ⟨_, _, _, .template ⟨_, rest⟩⟩ => scanLinks_of_inert inert rest

private theorem scanLinks_of_inert
    {scope : Scope}
    (inert : scope.IsInert)
    (links : List Template.Link) :
    FindsInert (scanLinks scope links) :=
  match links with
  | [] => by
    rw [scanLinks]
    exact .nothing
  | ⟨⟨tokens, _, _⟩, _⟩ :: rest => by
    rw [scanLinks, scanLink, scanSpan]
    exact (scanFrom_of_inert inert [] 0 tokens).append (scanLinks_of_inert inert rest)

end

end Use

namespace Output

open Writer

/-! ## Writing -/

theorem Writer.Gives.bind
    {α β : Type}
    {first : Writer α}
    {next : α → Writer β}
    {before between after : Progress}
    {middle : α}
    {value : β}
    (isFirst : Gives first before middle between)
    (isNext : Gives (next middle) between value after) :
    Gives (first >>= next) before value after := by
  unfold Gives at isFirst isNext ⊢
  rw [ExceptT.run_bind]
  simp only [Bind.bind, StateT.bind, isFirst]
  exact isNext

/-- The output that leaves a use as it stands in the text. -/
def leaving (source : String) (use : Use) : Output :=
  ⟨use, Text.cut source use.start use.stop, none, none⟩

/-- Uses that are left alone are written as they stand, and no alias is asked
for. -/
theorem gives_leaving
    (frame : Frame)
    (scope : Scope)
    {uses : List Use}
    (leftAlone : ∀ use ∈ uses, use.isPassThrough)
    (before : Progress) :
    Gives (ofPlans frame (uses.map (Plan.ofUse scope))) before (uses.map (leaving frame.source))
      { before with outputs := before.outputs ++ uses.map (leaving frame.source) } := by
  induction uses generalizing before with
  | nil =>
    show Gives (pure []) before [] { before with outputs := before.outputs ++ [] }
    rw [List.append_nil]
    rfl
  | cons use uses inductionHypothesis =>
    have own := leftAlone use List.mem_cons_self
    have later := inductionHypothesis
      (fun other member => leftAlone other (List.mem_cons_of_mem _ member))
      { before with outputs := before.outputs ++ [leaving frame.source use] }
    have isPlan : Plan.ofUse scope use = .passThrough use := by
      rw [Plan.ofUse_eq]
      unfold Use.isPassThrough at own
      split at own
      · rename_i isRole
        rw [isRole]
      · simp at own
    rw [List.map_cons, List.map_cons, isPlan]
    rw [List.append_assoc] at later
    have isFirst : Gives (ofPlan frame (.passThrough use)) before (leaving frame.source use)
        { before with outputs := before.outputs ++ [leaving frame.source use] } := rfl
    exact isFirst.bind (later.bind rfl)

end Output

namespace Expansion

open Output.Writer

/-! ## Expanding -/

variable
  {settings : Settings}
  {registry : Registry}
  {filename source : String}
  {module : Module}
  {expansion : Expansion}

/-- An expansion whose outputs are all left alone has the text of its module. -/
theorem Written.unchanged_of_passThrough
    {uses : List Use}
    {topmost : List Output}
    {progress : Output.Progress}
    (written : Written settings registry filename module expansion uses topmost progress)
    (leftAlone : ∀ output ∈ expansion.outputs, output.isPassThrough) :
    expansion.code = module.source ∧ expansion.changed = false := by
  have noNames := written.listed.names_eq_nil_iff.mpr leftAlone
  have noImports : importEdits settings module (scopeOf settings registry module).bindings
      progress.aliases = [] := by
    simp [importEdits, Aliases.importStatement?, noNames]
  have noOutputs : Output.edits topmost = [] := by
    have kept := (Output.wrote_ofPlans _ written.gives).2.2
    have areLeft : topmost.filter (!·.isPassThrough) = [] := by
      apply List.filter_eq_nil_iff.mpr
      intro output isTopmost
      have isOutput : output ∈ expansion.outputs := by
        rw [written.isResult]
        exact List.mem_mergeSort.mpr (kept isTopmost)
      simp [leftAlone output isOutput]
    rw [Output.edits, areLeft, List.map_nil]
  have same : Edit.applyAll module.source [] 0 = module.source := by
    rw [← String.toList_inj, Edit.applyAll_eq_substituteFrom .nil (by simp),
      Edit.substituteFrom_nil]
  have isCode : expansion.code = module.source := by
    rw [written.isResult]
    simp only [assemble, noImports, noOutputs, List.append_nil, same]
  refine ⟨isCode, ?_⟩
  rw [written.isResult] at isCode ⊢
  simpa [assemble] using isCode

private theorem ofSource_of_gives
    {uses : List Use}
    {topmost : List Output}
    {progress : Output.Progress}
    (isModule : Module.parse source = .ok module)
    (isBound : (Binding.listOf settings registry module).isEmpty = false)
    (scanned : Use.scan (scopeOf settings registry module) module.tokens = .ok uses)
    (gives : Gives
      (Output.ofPlans ⟨module.source, filename, settings⟩
        (uses.map (Plan.ofUse (scopeOf settings registry module))))
      (initialProgress module) topmost progress) :
    ofSource settings registry filename source =
      .ok (assemble settings module (scopeOf settings registry module).bindings topmost
        progress) := by
  have isPlan := Plan.ofSpan_of_scan (wholeSpan module) scanned
  have isWritten : Gives
      (writeOutputs ⟨module.source, filename, settings⟩
        (Plan.ofSpan (scopeOf settings registry module) (wholeSpan module)))
      (initialProgress module) topmost progress := by
    rw [isPlan]
    exact gives
  unfold Gives at isWritten
  rw [ofSource_of_parse isModule, run, if_neg (by simp [isBound])]
  exact congrArg (fun written => written.1.map fun topmost =>
    assemble settings module (scopeOf settings registry module).bindings topmost written.2) isWritten

/-- A module in which nothing is to be done is expanded to what it is. -/
theorem exists_unchanged
    (isModule : Module.parse source = .ok module)
    (inert : (scopeOf settings registry module).IsInert) :
    ∃ expansion, ofSource settings registry filename source = .ok expansion ∧
      expansion.code = source ∧ expansion.changed = false ∧
      ∀ output ∈ expansion.outputs, output.isPassThrough ∧
        output.code = Text.cut source output.start output.stop := by
  have isSource := (Module.parsed_of_parse isModule).1
  cases isBound : (Binding.listOf settings registry module).isEmpty with
  | true =>
    exact ⟨unchanged module, ofSource_of_isEmpty isModule isBound, isSource, rfl,
      by simp [unchanged]⟩
  | false =>
    obtain ⟨uses, scanned, leftAlone⟩ := Use.scanFrom_of_inert inert [] 0 module.tokens
    have gives := Output.gives_leaving ⟨module.source, filename, settings⟩
      (scopeOf settings registry module) leftAlone (initialProgress module)
    have written : Written settings registry filename module _ uses _ _ := ⟨scanned, gives, rfl⟩
    have same := written.unchanged_of_passThrough (written.listed.names_eq_nil_iff.mp rfl)
    refine ⟨_, ofSource_of_gives isModule isBound scanned gives, same.1.trans isSource, same.2,
      fun output isOutput => ?_⟩
    obtain ⟨use, isUse, rfl⟩ := List.mem_map.mp (List.mem_mergeSort.mp isOutput)
    rw [← isSource]
    exact ⟨leftAlone use isUse, rfl⟩

/-- An expansion gives out no alias exactly if all its outputs are left alone, and
then its code is the text of the module.  A module in which nothing is to be done
for any name is always expanded, whatever stands around its names: every output
is the text of its use, and the code is the text of the module. -/
theorem left_alone_is_unchanged
    (settings : Settings)
    (registry : Registry)
    (filename source : String) :
    (∀ expansion, ofSource settings registry filename source = .ok expansion →
      (expansion.aliases = [] ↔ ∀ output ∈ expansion.outputs, output.isPassThrough) ∧
      (expansion.aliases = [] → expansion.code = source ∧ expansion.changed = false)) ∧
    ∀ module, Module.parse source = .ok module →
      (scopeOf settings registry module).IsInert →
        ∃ expansion, ofSource settings registry filename source = .ok expansion ∧
          expansion.code = source ∧ expansion.changed = false ∧
          ∀ output ∈ expansion.outputs, output.isPassThrough ∧
            output.code = Text.cut source output.start output.stop := by
  have unaltered : ∀ expansion, ofSource settings registry filename source = .ok expansion →
      (expansion.aliases = [] ↔ ∀ output ∈ expansion.outputs, output.isPassThrough) ∧
      (expansion.aliases = [] → expansion.code = source ∧ expansion.changed = false) := by
    intro expansion expanded
    obtain ⟨module, isModule, -⟩ := exists_of_bind_ok expanded
    have isSource := (Module.parsed_of_parse isModule).1
    rcases cases_of_ofSource isModule expanded with
      ⟨_, rfl⟩ | ⟨uses, topmost, progress, written⟩
    · exact ⟨by simp [unchanged], fun _ => ⟨isSource, rfl⟩⟩
    · have isNames : expansion.aliases = progress.aliases.names := by
        rw [written.isResult]
        rfl
      rw [isNames, written.listed.names_eq_nil_iff, ← isSource]
      exact ⟨Iff.rfl, written.unchanged_of_passThrough⟩
  exact ⟨unaltered, fun module isModule inert => exists_unchanged isModule inert⟩

/-- Names from a required module, reassigned, before a template, and with brackets
after them that are never closed. -/
def inertSample : String :=
  "const \x7b hydrate, other \x7d = require('./macro')\n" ++
    "hydrate = other.a`x$\x7bhydrate(]\x7d` + other((hydrate`y`"

/-- The sample is expanded to what it is. -/
theorem inertSample_is_unchanged :
    ∃ module expansion,
      Module.parse inertSample = .ok module ∧
      (scopeOf {} Registry.packaged module).IsInert ∧
      ofSource {} Registry.packaged "" inertSample = .ok expansion ∧
      expansion.outputs ≠ [] ∧ expansion.code = inertSample := by
  have evaluates : (Module.parse inertSample).toOption.any (fun module =>
      (scopeOf {} Registry.packaged module).bindings.all (·.isInert Registry.packaged) &&
        !(run {} Registry.packaged "" module).finished.isEmpty) = true := by
    decide +kernel
  obtain ⟨module, parses, evaluates⟩ := (Option.any_eq_true _ _).mp evaluates
  rw [Bool.and_eq_true, List.all_eq_true, Bool.not_eq_true', List.isEmpty_eq_false_iff] at evaluates
  obtain ⟨inert, finished⟩ := evaluates
  have isModule := ok_of_toOption parses
  obtain ⟨expansion, expanded, isCode, -⟩ :=
    (left_alone_is_unchanged {} Registry.packaged "" inertSample).2 module isModule inert
  obtain ⟨output, isFinished⟩ := List.exists_mem_of_ne_nil _ finished
  have isOutput := (mem_outputs_iff_finished isModule expanded).mpr isFinished
  exact ⟨module, expansion, isModule, inert, expanded, List.ne_nil_of_mem isOutput, isCode⟩

end Expansion

end Restyle
