import Mathlib.Data.List.Nodup
import Restyle.Proofs.Run.Recorded

/-!
Contract: a run accounts for each of its modules, and for each one alone.

Owns: that no stage changes the options of a run; `Run.Setup`, what a run finds before it
comes to its modules; `Run.Accounts`, what it has done with them; that a run whose modules
can be read, expanded or refused, and written, accounts for them all; and that what
becomes of a module is the same in any two such runs that read the same file for it.

Does not own: runs that a module stops (`Proofs.Run.Recorded`).
-/

namespace Restyle.Run

/-! ## The options of a run -/

namespace Job

/-- Where a part of a run ends well, its value has a property. -/
def Leaves {α : Type} (job : Job α) (property : α → Prop) : Prop :=
  ∀ before value after, Ends job before (.ok value) after → property value

section Leaves

variable
  {α β : Type}
  {first : Job α}
  {next : α → Job β}
  {property : α → Prop}
  {further : β → Prop}

private theorem Ends.exists_of_bind
    {before after : World}
    {value : β}
    (ends : Ends (first >>= next) before (.ok value) after) :
    ∃ middle between, Ends first before (.ok middle) between ∧
      Ends (next middle) between (.ok value) after := by
  unfold Ends at ends ⊢
  rw [ExceptT.run_bind] at ends
  simp only [Bind.bind, StateT.bind] at ends
  cases isFirst : ExceptT.run first before with
  | mk outcome between =>
    rw [isFirst] at ends
    cases outcome with
    | error stop => exact nomatch congrArg Prod.fst ends
    | ok middle => exact ⟨middle, between, rfl, ends⟩

private theorem leaves_any (job : Job α) : Leaves job fun _ => True :=
  fun _ _ _ _ => trivial

private theorem leaves_throw (stop : Stop) : Leaves (throw stop : Job α) property :=
  fun _ _ _ ends => nomatch congrArg Prod.fst ends

private theorem leaves_pure
    {value : α}
    (holds : property value) :
    Leaves (pure value) property := by
  intro _ own _ ends
  obtain rfl := Except.ok.inj (congrArg Prod.fst ends)
  exact holds

theorem Leaves.bind
    (leaves : Leaves first property)
    (later : ∀ value, property value → Leaves (next value) further) :
    Leaves (first >>= next) further := by
  intro before value after ends
  obtain ⟨middle, between, isFirst, isNext⟩ := ends.exists_of_bind
  exact later middle (leaves before middle between isFirst) between value after isNext

/-- After a part of a run of which nothing matters. -/
theorem leaves_after (later : ∀ value, Leaves (next value) further) :
    Leaves (first >>= next) further :=
  (leaves_any first).bind fun value _ => later value

end Leaves

end Job

open Job

def HasOptions (options : Options) (run : Run) : Prop :=
  run.options = options

section Options

variable
  {options : Options}
  {run : Run}
  (has : HasOptions options run)

include has

private theorem leaves_expandModule
    (settings : Settings)
    (registry : Registry)
    (source : List String) :
    Leaves (Stage.expandModule settings registry run source) (HasOptions options) := by
  refine leaves_after fun _ => leaves_after fun tree => leaves_after fun _ => ?_
  split
  · exact leaves_after fun _ => leaves_pure has
  · exact leaves_after fun _ => leaves_after fun _ => leaves_pure has
  · exact leaves_throw _
  · exact leaves_after fun _ => leaves_after fun _ => leaves_after fun _ => leaves_pure has

private theorem leaves_expandModules
    (settings : Settings)
    (registry : Registry)
    (sources : List (List String)) :
    Leaves (sources.foldlM (Stage.expandModule settings registry) run) (HasOptions options) := by
  induction sources generalizing run with
  | nil => exact leaves_pure has
  | cons source rest inductionHypothesis =>
    exact (leaves_expandModule has settings registry source).bind fun _ => inductionHypothesis

private theorem leaves_perform (context : Context) (stage : Stage) :
    Leaves (stage.perform context run) (HasOptions options) := by
  cases stage with
  | checkDirectories =>
    refine leaves_after fun _ => leaves_after fun tree => ?_
    split
    · exact leaves_after fun _ => leaves_throw _
    · refine leaves_after fun _ => ?_
      split
      · exact leaves_after fun _ => leaves_after fun _ => leaves_pure has
      · exact leaves_throw _
  | collectSources =>
    simp only [Stage.perform, Stage.runCollectSources]
    split
    · exact leaves_after fun _ => leaves_after fun _ => leaves_after fun _ => leaves_pure has
    · exact leaves_throw _
  | expandModules =>
    have hasStill : HasOptions options { run with results := [], failures := [] } := has
    refine leaves_after fun tree => ?_
    split
    · split
      · exact leaves_after fun _ => leaves_throw _
      · exact leaves_throw _
    · exact leaves_after fun _ => leaves_expandModules hasStill _ _ _
  | reportResults =>
    refine leaves_after fun _ => ?_
    split
    · exact leaves_pure has
    · exact leaves_after fun _ => leaves_after fun _ => leaves_throw _

end Options

/-! ## The report -/

private theorem exists_ends_complaints (names : List String) (world : World) :
    ∃ after, Ends (names.forM fun name => complain s!"  {name}") world (.ok ()) after ∧
      after.tree = world.tree := by
  induction names generalizing world with
  | nil => exact ⟨world, rfl, rfl⟩
  | cons name rest inductionHypothesis =>
    obtain ⟨after, ends, sameTree⟩ := inductionHypothesis
      { world with complaints := world.complaints ++ linesOf s!"  {name}" }
    have isFirst : Ends (complain s!"  {name}") world (.ok ())
        { world with complaints := world.complaints ++ linesOf s!"  {name}" } := rfl
    exact ⟨after, isFirst.bind ends, sameTree⟩

/-- The report ends a run with exit code one exactly if a module has failed, and changes no
file. -/
theorem exists_ends_report (run : Run) (world : World) :
    ∃ after, Ends (Stage.runReportResults run) world
        (if run.failures = [] then .ok run else .error (.exit 1)) after ∧
      after.tree = world.tree := by
  let noted : World := { world with log := world.log ++ Stage.closingEntries run }
  have notes : Ends (note (Stage.closingEntries run)) world (.ok ()) noted := rfl
  cases isFailed : run.failures with
  | nil =>
    refine ⟨noted, notes.bind ?_, rfl⟩
    rw [isFailed]
    rfl
  | cons name rest =>
    let begun : World := { noted with
      complaints := noted.complaints ++ linesOf s!"Error: {run.failures.length} module(s) failed:" }
    have begins : Ends (complain s!"Error: {run.failures.length} module(s) failed:") noted (.ok ())
        begun := rfl
    obtain ⟨after, ends, sameTree⟩ := exists_ends_complaints run.failures begun
    refine ⟨after, notes.bind ?_, sameTree⟩
    rw [if_neg (by simp [isFailed])]
    exact begins.bind (ends.bind rfl)

/-! ## What a run finds -/

/-- What a run finds in a tree before it comes to its modules: its input directory, a
directory to write to that can be made, a pattern for modules, and a registry. -/
structure Setup (context : Context) (run : Run) (registry : Registry) (tree : FileTree) where
  input : Path
  subdirectory : String
  glob : Glob
  /-- The files once the directory to write to is made. -/
  made : FileTree
  isInput : run.options.input = some input
  isDirectory : tree.isDirectory input
  isSubdirectory : run.options.subdirectory = some subdirectory
  isGlob : Glob.ofString run.options.pattern = .ok glob
  makes : tree.makeDirectories (run.options.output.join (Path.ofString subdirectory)) = .ok made
  loaded : context.registry made (run.options.apply context.settings) = .ok registry

/-- The text of a selected module, if its file can be read as one. -/
def textOf? (run : Run) (tree : FileTree) (source : List String) : Option String :=
  ((tree.read? (run.inputOf source)).bind String.fromUTF8?).map Text.unifyNewlines

namespace Setup

variable
  {context : Context}
  {run : Run}
  {registry : Registry}
  {tree : FileTree}

def sources (setup : Setup context run registry tree) : List (List String) :=
  setup.glob.files setup.made setup.input

def checked (setup : Setup context run registry tree) : Run :=
  { run with
    ready := true
    destination := run.options.output.join (Path.ofString setup.subdirectory) }

def selected (setup : Setup context run registry tree) : Run :=
  { setup.checked with sources := setup.sources }

def begun (setup : Setup context run registry tree) : Run :=
  { setup.selected with results := [], failures := [] }

/-- What becomes of the text of a module. -/
def expansionOf
    (_ : Setup context run registry tree)
    (source : List String)
    (text : String) : Except Fault Expansion :=
  Expansion.ofSource (run.options.apply context.settings) registry (nameOf source) text

/-- Each module is selected once, can be read and written without another one in its way,
and is expanded or has a problem, if it is a text at all. -/
structure Orderly (setup : Setup context run registry tree) : Prop where
  eachOnce : (setup.sources.map nameOf).Nodup
  unobstructed : Unobstructed setup.made setup.begun setup.sources
  settled : ∀ source ∈ setup.sources, ∀ text ∈ textOf? setup.begun setup.made source,
    Judged (fun _ => True) (setup.expansionOf source text)

end Setup

def Stage.working : List Stage :=
  [.checkDirectories, .collectSources, .expandModules]

def performWorking (context : Context) (run : Run) : Job Run :=
  Stage.working.foldlM (fun run stage => stage.perform context run) run

section Working

variable
  {context : Context}
  {run : Run}
  {registry : Registry}
  {world : World}

private theorem exists_ends_checkDirectories (setup : Setup context run registry world.tree) :
    ∃ after, Ends (Stage.runCheckDirectories run) world (.ok setup.checked) after ∧
      after.tree = setup.made ∧ after.complaints = world.complaints := by
  have isFound : run.options.input.filter world.tree.isDirectory = some setup.input := by
    simp [setup.isInput, setup.isDirectory]
  let begun : World := { world with
    log := world.log ++ [⟨.module, "Checking environment..."⟩] ++
      [⟨.module, s!"Input directory: {setup.input.render}"⟩] }
  let after : World := { begun with
    tree := setup.made
    log := begun.log ++ [⟨.module, s!"Output directory: {setup.checked.destination.render}"⟩] }
  have makes : Ends
      (change (·.makeDirectories (run.options.output.join (Path.ofString setup.subdirectory))))
      begun (.ok ()) { begun with tree := setup.made } :=
    ends_change setup.makes
  refine ⟨after, (ends_log _ _).bind (ends_tree.bind ?_), rfl, rfl⟩
  simp only [isFound, setup.isSubdirectory]
  exact (ends_log _ _).bind (makes.bind ((ends_log _ _).bind rfl))

private theorem exists_ends_collectSources
    (setup : Setup context run registry world.tree)
    {middle : World}
    (isMade : middle.tree = setup.made) :
    ∃ after, Ends (Stage.runCollectSources setup.checked) middle (.ok setup.selected) after ∧
      after.tree = setup.made ∧ after.complaints = middle.complaints := by
  let after : World := { middle with
    log := middle.log ++ [⟨.summary,
      s!"Found {setup.sources.length} module(s) matching '{run.options.pattern}'"⟩] }
  have isRead : Ends (orStop .pattern (.ok setup.glob)) middle (.ok setup.glob) middle := rfl
  refine ⟨after, ?_, isMade, rfl⟩
  simp only [Stage.runCollectSources, Setup.checked, setup.isInput, setup.isGlob]
  refine isRead.bind (ends_tree.bind ?_)
  rw [isMade]
  exact (ends_log _ _).bind rfl

/-- What becomes of a module by the expansion of its text. -/
theorem verdict_eq
    (settings : Settings)
    (registry : Registry)
    (run : Run)
    (tree : FileTree)
    (source : List String) :
    (trialOf settings registry run tree source).verdict =
      match textOf? run tree source with
      | none => .unreadable
      | some text =>
        match Expansion.ofSource settings registry (nameOf source) text with
        | .ok expansion => .expanded expansion
        | .error fault => Trial.ofFault (nameOf source) text fault := by
  simp only [trialOf, textOf?]
  cases tree.read? (run.inputOf source) with
  | none => rfl
  | some bytes =>
    simp only [Trial.ofBytes, Option.bind_some]
    cases String.fromUTF8? bytes with
    | none => rfl
    | some text =>
      simp only [Option.map_some, Trial.ofText, Expansion.ofSource]
      cases Module.parse (Text.unifyNewlines text) with
      | error fault => rfl
      | ok module =>
        simp only [bind, Except.bind]
        cases (Expansion.run settings registry (nameOf source) module).result <;> rfl

private theorem exists_text_of_expanded
    {settings : Settings}
    {tree : FileTree}
    {source : List String}
    {expansion : Expansion}
    (isVerdict : (trialOf settings registry run tree source).verdict = .expanded expansion) :
    ∃ text, textOf? run tree source = some text ∧
      Expansion.ofSource settings registry (nameOf source) text = .ok expansion := by
  rw [verdict_eq] at isVerdict
  cases isText : textOf? run tree source with
  | none => simp [isText] at isVerdict
  | some text =>
    cases isOutcome : Expansion.ofSource settings registry (nameOf source) text with
    | error fault => cases fault <;> simp [isText, isOutcome, Trial.ofFault] at isVerdict
    | ok own =>
      simp only [isText, isOutcome, Verdict.expanded.injEq] at isVerdict
      exact ⟨text, rfl, isVerdict ▸ isOutcome⟩

theorem Setup.Orderly.goesOn
    {tree : FileTree}
    {setup : Setup context run registry tree}
    (orderly : setup.Orderly)
    {source : List String}
    (member : source ∈ setup.sources) :
    (trialOf (run.options.apply context.settings) registry setup.begun setup.made
      source).verdict.GoesOn := by
  have settled := orderly.settled source member
  rw [verdict_eq]
  cases isText : textOf? setup.begun setup.made source with
  | none => exact .unreadable
  | some text =>
    have judged := settled text isText
    simp only
    unfold Setup.expansionOf at judged
    generalize Expansion.ofSource (run.options.apply context.settings) registry (nameOf source)
      text = outcome at judged
    cases judged with
    | ok _ => exact .expanded _
    | problem problem offset => exact .refused _

private theorem exists_ends_working
    (setup : Setup context run registry world.tree)
    (orderly : setup.Orderly) :
    ∃ begun after : World, begun.tree = setup.made ∧ begun.complaints = world.complaints ∧
      Ends (performWorking context run) world
        (.ok (recorded (run.options.apply context.settings) registry setup.begun setup.made
          setup.sources)) after ∧
      Carried (run.options.apply context.settings) registry setup.begun setup.sources [] begun
        after := by
  obtain ⟨checked, checks, isMade, sameComplaints⟩ := exists_ends_checkDirectories setup
  obtain ⟨collected, collects, stillMade, stillSame⟩ := exists_ends_collectSources setup isMade
  let begun : World := { collected with
    log := collected.log ++ [⟨.module, s!"Loaded {registry.describe}"⟩] }
  have unobstructed : Unobstructed begun.tree setup.begun (setup.sources ++ []) := by
    rw [List.append_nil]
    exact stillMade ▸ orderly.unobstructed
  have goesOn : ∀ source ∈ setup.sources, (trialOf (run.options.apply context.settings) registry
      setup.begun begun.tree source).verdict.GoesOn := by
    intro source member
    exact stillMade ▸ orderly.goesOn member
  obtain ⟨after, ends, carried⟩ := exists_recorded_of_goesOn begun unobstructed goesOn
  have loaded : context.registry collected.tree
      (setup.selected.options.apply context.settings) = .ok registry :=
    stillMade ▸ setup.loaded
  have isTree : begun.tree = setup.made := stillMade
  rw [isTree] at ends
  have expands := ends_runExpandModules loaded ends
  refine ⟨begun, after, stillMade, stillSame.trans sameComplaints, ?_, carried⟩
  exact checks.bind (collects.bind (expands.bind rfl))

end Working

/-! ## Results and failures -/

section Recorded

variable
  {settings : Settings}
  {registry : Registry}
  {run : Run}
  {tree : FileTree}
  {sources : List (List String)}
  {source : List String}

private theorem exists_of_resultOf
    {entry : String × Summary}
    (isResult : resultOf settings registry run tree source = some entry) :
    ∃ expansion, (trialOf settings registry run tree source).verdict = .expanded expansion ∧
      entry = run.reportOf source expansion := by
  unfold resultOf at isResult
  split at isResult
  · rename_i expansion isVerdict
    exact ⟨expansion, isVerdict, (Option.some.inj isResult).symm⟩
  · simp at isResult

private theorem names_of_results :
    (sources.filterMap (resultOf settings registry run tree)).map Prod.fst =
      (sources.filter fun source => (resultOf settings registry run tree source).isSome).map
        nameOf := by
  induction sources with
  | nil => rfl
  | cons source rest inductionHypothesis =>
    rw [List.filterMap_cons, List.filter_cons]
    cases isResult : resultOf settings registry run tree source with
    | none => simpa using inductionHypothesis
    | some entry =>
      obtain ⟨expansion, -, rfl⟩ := exists_of_resultOf isResult
      simpa [reportOf] using inductionHypothesis

/-- Results and failures are the modules, each once. -/
theorem results_and_failures_perm :
    ((sources.filterMap (resultOf settings registry run tree)).map Prod.fst ++
      (sources.filter fun source => (resultOf settings registry run tree source).isNone).map
        nameOf).Perm (sources.map nameOf) := by
  have isFailure : (fun source => (resultOf settings registry run tree source).isNone) =
      fun source => !(resultOf settings registry run tree source).isSome := by
    funext source
    simp
  rw [names_of_results, isFailure, ← List.map_append]
  exact (List.filter_append_perm _ sources).map nameOf

private theorem nameOf_mem_iff
    (eachOnce : (sources.map nameOf).Nodup)
    (member : source ∈ sources)
    (test : List String → Bool) :
    nameOf source ∈ (sources.filter test).map nameOf ↔ test source := by
  rw [List.mem_map]
  constructor
  · rintro ⟨other, isOther, sameName⟩
    obtain ⟨inSources, passes⟩ := List.mem_filter.mp isOther
    rwa [List.inj_on_of_nodup_map eachOnce inSources member sameName] at passes
  · exact fun passes => ⟨source, List.mem_filter.mpr ⟨member, passes⟩, rfl⟩

private theorem mem_results_iff
    (eachOnce : (sources.map nameOf).Nodup)
    (member : source ∈ sources)
    (summary : Summary) :
    (nameOf source, summary) ∈ sources.filterMap (resultOf settings registry run tree) ↔
      resultOf settings registry run tree source = some (nameOf source, summary) := by
  rw [List.mem_filterMap]
  constructor
  · rintro ⟨other, inSources, isResult⟩
    obtain ⟨expansion, -, isEntry⟩ := exists_of_resultOf isResult
    have sameName : nameOf other = nameOf source := (congrArg Prod.fst isEntry).symm
    rwa [List.inj_on_of_nodup_map eachOnce inSources member sameName] at isResult
  · exact fun isResult => ⟨source, member, isResult⟩

end Recorded

section Accounts

variable
  {context : Context}
  {run : Run}
  {registry : Registry}
  {tree : FileTree}

/-- An orderly module that is no result is no text or has a problem. -/
theorem Setup.Orderly.fails
    {setup : Setup context run registry tree}
    (orderly : setup.Orderly)
    {source : List String}
    (member : source ∈ setup.sources)
    (isFailure : (resultOf (run.options.apply context.settings) registry setup.begun setup.made
      source).isNone) :
    textOf? setup.begun setup.made source = none ∨
      ∃ text problem offset, textOf? setup.begun setup.made source = some text ∧
        setup.expansionOf source text = .error (.problem problem offset) := by
  have settled := orderly.settled source member
  rw [resultOf, verdict_eq] at isFailure
  cases isText : textOf? setup.begun setup.made source with
  | none => exact .inl rfl
  | some text =>
    have judged := settled text isText
    simp only [isText] at isFailure
    unfold Setup.expansionOf at judged ⊢
    generalize isOutcome : Expansion.ofSource (run.options.apply context.settings) registry
      (nameOf source) text = outcome at judged
    cases judged with
    | ok _ => simp [isOutcome] at isFailure
    | problem problem offset => exact .inr ⟨text, problem, offset, rfl, isOutcome⟩

/-- What a run has done with its modules: each is a result or a failure, not both, in the
order in which they were selected; the expansion of its text alone is written for a result,
and for nothing else; and each failure is complained of. -/
structure Accounts (before : World) (setup : Setup context run registry before.tree)
    (final : Run) (after : World) : Prop where
  isOptions : final.options = run.options
  isSources : final.sources = setup.sources
  isDestination : final.destination = run.options.output.join (Path.ofString setup.subdirectory)
  resultsInOrder : (final.results.map Prod.fst).Sublist (final.sources.map nameOf)
  failuresInOrder : final.failures.Sublist (final.sources.map nameOf)
  partition : (final.results.map Prod.fst ++ final.failures).Perm (final.sources.map nameOf)
  eachOnce : (final.results.map Prod.fst ++ final.failures).Nodup
  results : ∀ source ∈ final.sources, ∀ summary, (nameOf source, summary) ∈ final.results →
    ∃ text expansion, textOf? final setup.made source = some text ∧
      setup.expansionOf source text = .ok expansion ∧
      (nameOf source, summary) = final.reportOf source expansion ∧
      after.tree.read? (final.outputOf source) = some expansion.code.toUTF8
  failures : ∀ source ∈ final.sources, nameOf source ∈ final.failures →
    textOf? final setup.made source = none ∨
      ∃ text problem offset, textOf? final setup.made source = some text ∧
        setup.expansionOf source text = .error (.problem problem offset)
  untouched : ∀ place, (∀ source ∈ final.sources, nameOf source ∈ final.results.map Prod.fst →
      place ≠ setup.made.target (final.outputOf source)) →
    after.tree.contents? place = before.tree.contents? place
  complaints : after.complaints = before.complaints ++
    final.sources.flatMap (complaintsOf (run.options.apply context.settings) registry final
      setup.made)

theorem Setup.Orderly.accounts
    {before after begun : World}
    {setup : Setup context run registry before.tree}
    (orderly : setup.Orderly)
    (isMade : begun.tree = setup.made)
    (sameComplaints : begun.complaints = before.complaints)
    (carried : Carried (run.options.apply context.settings) registry setup.begun setup.sources []
      begun after) :
    Accounts before setup
      (recorded (run.options.apply context.settings) registry setup.begun setup.made setup.sources)
      after where
  isOptions := rfl
  isSources := rfl
  isDestination := rfl
  resultsInOrder := by
    change ((setup.sources.filterMap _).map Prod.fst).Sublist _
    rw [names_of_results]
    exact List.filter_sublist.map nameOf
  failuresInOrder := List.filter_sublist.map nameOf
  partition := results_and_failures_perm
  eachOnce := results_and_failures_perm.nodup_iff.mpr orderly.eachOnce
  results := by
    intro source member summary isResult
    obtain ⟨expansion, isVerdict, isEntry⟩ :=
      exists_of_resultOf ((mem_results_iff orderly.eachOnce member summary).mp isResult)
    obtain ⟨text, isText, isExpansion⟩ := exists_text_of_expanded isVerdict
    rw [← isMade] at isVerdict
    exact ⟨text, expansion, isText, isExpansion, isEntry,
      carried.written source member expansion isVerdict⟩
  failures := by
    intro source member isFailure
    exact orderly.fails member ((nameOf_mem_iff orderly.eachOnce member _).mp isFailure)
  untouched := by
    intro place elsewhere
    have advanced := carried.advanced
    rw [isMade] at advanced
    rw [advanced.contents place, FileTree.contents?, FileTree.files_of_makeDirectories setup.makes]
    · rfl
    · rw [List.mem_flatMap]
      rintro ⟨source, member, isPlace⟩
      unfold placesOf at isPlace
      split at isPlace
      · rename_i expansion isVerdict
        have isEntry : resultOf (run.options.apply context.settings) registry setup.begun setup.made
            source = some (setup.begun.reportOf source expansion) := by
          rw [resultOf, isVerdict]
        have isResult := List.mem_filterMap.mpr ⟨source, member, isEntry⟩
        exact elsewhere source member (List.mem_map_of_mem isResult) (List.mem_singleton.mp isPlace)
      · simp at isPlace
  complaints := by
    rw [carried.complained, sameComplaints, isMade]
    rfl

/-- The stages up to the report account for every module. -/
theorem Setup.Orderly.exists_accounts
    {world : World}
    {setup : Setup context run registry world.tree}
    (orderly : setup.Orderly) :
    ∃ final after, Ends (performWorking context run) world (.ok final) after ∧
      Accounts world setup final after := by
  obtain ⟨begun, after, isMade, sameComplaints, ends, carried⟩ := exists_ends_working setup orderly
  exact ⟨_, after, ends, orderly.accounts isMade sameComplaints carried⟩

/-! ## Two runs -/

/-- Two runs deal alike with a module: it is the same result in both, or a failure with the
same complaints, and the same is written for it. -/
structure DealsAlike {one other : FileTree} (first : Setup context run registry one)
    (second : Setup context run registry other) (source : List String) (final otherFinal : Run)
    (after otherAfter : World) : Prop where
  results : ∀ summary,
    (nameOf source, summary) ∈ final.results ↔ (nameOf source, summary) ∈ otherFinal.results
  failures : nameOf source ∈ final.failures ↔ nameOf source ∈ otherFinal.failures
  complaints :
    complaintsOf (run.options.apply context.settings) registry final first.made source =
      complaintsOf (run.options.apply context.settings) registry otherFinal second.made source
  written : nameOf source ∈ final.results.map Prod.fst →
    after.tree.read? (final.outputOf source) = otherAfter.tree.read? (otherFinal.outputOf source)

section TwoRuns

variable
  {before other after otherAfter : World}
  {first : Setup context run registry before.tree}
  {second : Setup context run registry other.tree}
  {final otherFinal : Run}
  {source : List String}

private theorem Accounts.result_or_failure
    (accounts : Accounts before first final after)
    (member : source ∈ final.sources) :
    (∃ summary, (nameOf source, summary) ∈ final.results) ∨ nameOf source ∈ final.failures := by
  have isName := accounts.partition.mem_iff.mpr (List.mem_map_of_mem (f := nameOf) member)
  rcases List.mem_append.mp isName with isResult | isFailure
  · obtain ⟨⟨name, summary⟩, isEntry, rfl⟩ := List.mem_map.mp isResult
    exact .inl ⟨summary, isEntry⟩
  · exact .inr isFailure

private theorem Accounts.not_failure_of_result
    (accounts : Accounts before first final after)
    {summary : Summary}
    (isResult : (nameOf source, summary) ∈ final.results) :
    nameOf source ∉ final.failures :=
  fun isFailure => (List.nodup_append.mp accounts.eachOnce).2.2 _
    (List.mem_map_of_mem (f := Prod.fst) isResult) _ isFailure rfl

/-- A result of one run is the same result of another one that reads the same text for the
module. -/
theorem Accounts.result_of_sameText
    (accounts : Accounts before first final after)
    (otherAccounts : Accounts other second otherFinal otherAfter)
    (member : source ∈ final.sources)
    (otherMember : source ∈ otherFinal.sources)
    (sameText : textOf? otherFinal second.made source = textOf? final first.made source)
    (sameOutput : otherFinal.outputOf = final.outputOf)
    {summary : Summary}
    (isResult : (nameOf source, summary) ∈ final.results) :
    (nameOf source, summary) ∈ otherFinal.results ∧
      after.tree.read? (final.outputOf source) = otherAfter.tree.read? (otherFinal.outputOf source) := by
  obtain ⟨text, expansion, isText, isExpansion, isEntry, isWritten⟩ :=
    accounts.results source member summary isResult
  rw [← sameText] at isText
  rcases otherAccounts.result_or_failure otherMember with ⟨otherSummary, isOther⟩ | isFailure
  · obtain ⟨otherText, otherExpansion, isOtherText, isOtherExpansion, isOtherEntry, isOtherWritten⟩ :=
      otherAccounts.results source otherMember otherSummary isOther
    obtain rfl := Option.some.inj (isText.symm.trans isOtherText)
    obtain rfl := Except.ok.inj (isExpansion.symm.trans isOtherExpansion)
    have sameEntry : (nameOf source, summary) = (nameOf source, otherSummary) := by
      rw [isEntry, isOtherEntry, reportOf, reportOf, sameOutput]
    exact ⟨sameEntry ▸ isOther, isWritten.trans isOtherWritten.symm⟩
  · rcases otherAccounts.failures source otherMember isFailure with
      isNone | ⟨otherText, problem, offset, isOtherText, fails⟩
    · simp [isText] at isNone
    · obtain rfl := Option.some.inj (isText.symm.trans isOtherText)
      have isFault := isExpansion.symm.trans fails
      simp at isFault

theorem Accounts.sameOutput
    (accounts : Accounts before first final after)
    (otherAccounts : Accounts other second otherFinal otherAfter) :
    otherFinal.outputOf = final.outputOf := by
  have sameSubdirectory : second.subdirectory = first.subdirectory :=
    Option.some.inj (second.isSubdirectory.symm.trans first.isSubdirectory)
  funext source
  rw [outputOf, outputOf, accounts.isDestination, otherAccounts.isDestination, sameSubdirectory]

/-- What becomes of a module does not depend on the others: two runs that read the same file
for it deal with it alike. -/
theorem Accounts.dealsAlike
    (accounts : Accounts before first final after)
    (otherAccounts : Accounts other second otherFinal otherAfter)
    (member : source ∈ final.sources)
    (otherMember : source ∈ otherFinal.sources)
    (sameFile : second.made.read? (otherFinal.inputOf source) =
      first.made.read? (final.inputOf source)) :
    DealsAlike first second source final otherFinal after otherAfter := by
  have sameInput : otherFinal.inputOf source = final.inputOf source := by
    rw [inputOf, inputOf, accounts.isOptions, otherAccounts.isOptions]
  have sameText : textOf? otherFinal second.made source = textOf? final first.made source := by
    rw [textOf?, textOf?, sameFile]
  have sameOutput := accounts.sameOutput otherAccounts
  have forth {summary : Summary} (isResult : (nameOf source, summary) ∈ final.results) :=
    accounts.result_of_sameText otherAccounts member otherMember sameText sameOutput isResult
  have back {summary : Summary} (isResult : (nameOf source, summary) ∈ otherFinal.results) :=
    otherAccounts.result_of_sameText accounts otherMember member sameText.symm sameOutput.symm
      isResult
  constructor
  · exact fun summary => ⟨fun isResult => (forth isResult).1, fun isResult => (back isResult).1⟩
  · constructor
    · intro isFailure
      refine (otherAccounts.result_or_failure otherMember).resolve_left ?_
      rintro ⟨summary, isResult⟩
      exact accounts.not_failure_of_result (back isResult).1 isFailure
    · intro isFailure
      refine (accounts.result_or_failure member).resolve_left ?_
      rintro ⟨summary, isResult⟩
      exact otherAccounts.not_failure_of_result (forth isResult).1 isFailure
  · simp only [complaintsOf, trialOf, sameInput] at sameFile ⊢
    rw [sameFile]
  · intro isName
    obtain ⟨⟨name, summary⟩, isEntry, rfl⟩ := List.mem_map.mp isName
    exact (forth isEntry).2

end TwoRuns

end Accounts

private theorem exists_ends_perform
    {context : Context}
    {run final : Run}
    {world after : World}
    (ends : Ends (performWorking context run) world (.ok final) after) :
    ∃ ending, Ends (perform context run) world
        (if final.failures = [] then .ok final else .error (.exit 1)) ending ∧
      ending.tree = after.tree := by
  obtain ⟨ending, reports, sameTree⟩ := exists_ends_report final after
  refine ⟨ending, ?_, sameTree⟩
  have isSplit : Stage.all = Stage.working ++ [.reportResults] := rfl
  rw [perform, isSplit, List.foldlM_append]
  refine ends.bind ?_
  by_cases noFailure : final.failures = []
  · rw [if_pos noFailure] at reports ⊢
    exact reports.bind rfl
  · rw [if_neg noFailure] at reports ⊢
    exact reports.stop

/-- A run that finds its directories, its pattern and its registry, and whose modules are
orderly, goes through all stages up to the report and accounts for each module: its name is
a result or a failure, and just for a result is a file written, with the expansion of its
text alone.  In another such run over other files, a module with the same file fares the
same.  The report ends the run with exit code one exactly if there is a failure, and no
stage of any run changes its options. -/
theorem modules_are_accounted_for
    (context : Context)
    (run : Run)
    {registry : Registry}
    (world : World)
    (setup : Setup context run registry world.tree)
    (orderly : setup.Orderly) :
    (∃ final after, Ends (performWorking context run) world (.ok final) after ∧
      Accounts world setup final after ∧
      (∃ ending, Ends (perform context run) world
        (if final.failures = [] then .ok final else .error (.exit 1)) ending ∧
          ending.tree = after.tree) ∧
      ∀ (other : World) (otherSetup : Setup context run registry other.tree), otherSetup.Orderly →
        ∃ otherFinal otherAfter, Ends (performWorking context run) other (.ok otherFinal)
            otherAfter ∧
          Accounts other otherSetup otherFinal otherAfter ∧
          ∀ source ∈ final.sources, source ∈ otherFinal.sources →
            otherSetup.made.read? (otherFinal.inputOf source) =
                setup.made.read? (final.inputOf source) →
              DealsAlike setup otherSetup source final otherFinal after otherAfter) ∧
    ∀ stage (state : Run) before ended later,
      Ends (Stage.perform context stage state) before (.ok ended) later →
        ended.options = state.options := by
  constructor
  · obtain ⟨final, after, ends, accounts⟩ := orderly.exists_accounts
    refine ⟨final, after, ends, accounts, exists_ends_perform ends, ?_⟩
    intro other otherSetup otherOrderly
    obtain ⟨otherFinal, otherAfter, otherEnds, otherAccounts⟩ := otherOrderly.exists_accounts
    exact ⟨otherFinal, otherAfter, otherEnds, otherAccounts, fun source member otherMember =>
      accounts.dealsAlike otherAccounts member otherMember⟩
  · intro stage state before ended later ends
    have has : HasOptions state.options state := rfl
    exact leaves_perform has context stage before ended later ends

/-- A directory with a module that is expanded, one with a template that is not closed, and
one that is no text. -/
def mixedTree : FileTree :=
  ((((FileTree.ofCurrent []).withDirectory ["out"]).withFile ["in", "a.js"] "x".toUTF8).withFile
    ["in", "b.js"] "`a".toUTF8).withFile ["in", "c.js"] ⟨#[255]⟩

/-- A run over the modules of the mixed directory. -/
def mixedRun : Run where
  options := { input := some ⟨"", ["in"]⟩, output := ⟨"", ["out"]⟩, pattern := "*.js" }

/-- The names that end in `.js`. -/
def scriptNames : Glob.Name :=
  [.anyText, .fixed '.', .fixed 'j', .fixed 's']

/-- What the run over the mixed directory finds. -/
def mixedSetup : Setup {} mixedRun Registry.packaged mixedTree where
  input := ⟨"", ["in"]⟩
  subdirectory := "."
  glob := ⟨[.fitting scriptNames], false⟩
  made := mixedTree
  isInput := rfl
  isDirectory := by decide +kernel
  isSubdirectory := rfl
  isGlob := by with_unfolding_all rfl
  makes := by with_unfolding_all rfl
  loaded := rfl

private theorem sources_mixedSetup : mixedSetup.sources = [["a.js"], ["b.js"], ["c.js"]] := by
  have areNames : mixedTree.names (Glob.below ⟨"", ["in"]⟩ []) = ["a.js", "b.js", "c.js"] := by
    decide +kernel
  have areWays : Glob.ways mixedTree ⟨"", ["in"]⟩ false [.fitting scriptNames] [] =
      [["a.js"], ["b.js"], ["c.js"]] := by
    simp [Glob.ways, areNames, scriptNames, Glob.Name.accepts, Glob.Name.acceptsChars,
      Glob.Atom.accepts]
  have areFiles : [["a.js"], ["b.js"], ["c.js"]].filter
      (fun way => mixedTree.isFile (Glob.below ⟨"", ["in"]⟩ way)) =
        [["a.js"], ["b.js"], ["c.js"]] := by
    decide +kernel
  have isDirectory : mixedTree.isDirectory ⟨"", ["in"]⟩ := by decide +kernel
  change (Glob.mk [.fitting scriptNames] false).files mixedTree ⟨"", ["in"]⟩ = _
  rw [Glob.files, if_pos isDirectory, areWays, areFiles,
    List.mergeSort_of_pairwise (by decide +kernel)]

private theorem textOf?_mixedSetup :
    textOf? mixedSetup.begun mixedTree ["a.js"] = some "x" ∧
    textOf? mixedSetup.begun mixedTree ["b.js"] = some "`a" ∧
    textOf? mixedSetup.begun mixedTree ["c.js"] = none := by
  decide +kernel

private theorem expansionOf_mixedSetup :
    (∃ expansion, mixedSetup.expansionOf ["a.js"] "x" = .ok expansion) ∧
    mixedSetup.expansionOf ["b.js"] "`a" = .error (.problem .unterminatedTemplate 0) :=
  ⟨⟨Expansion.unchanged ⟨"x", [⟨"x", 0, ⟨1, 1⟩, .atom .identifier⟩], []⟩, by
    with_unfolding_all rfl⟩, by with_unfolding_all rfl⟩

/-- The run over the mixed directory goes on to its report, which ends it with exit code
one, since the second module is a failure. -/
theorem mixedRun_reports_failure :
    mixedSetup.Orderly ∧
    ∃ final after, Ends (performWorking {} mixedRun) ⟨mixedTree, [], []⟩ (.ok final) after ∧
      Accounts ⟨mixedTree, [], []⟩ mixedSetup final after ∧
      "b.js" ∈ final.failures ∧
      ∃ ending, Ends (perform {} mixedRun) ⟨mixedTree, [], []⟩ (.error (.exit 1)) ending := by
  obtain ⟨textA, textB, textC⟩ := textOf?_mixedSetup
  obtain ⟨⟨expansion, expandsA⟩, failsB⟩ := expansionOf_mixedSetup
  have orderly : mixedSetup.Orderly := by
    constructor
    · rw [sources_mixedSetup]
      decide +kernel
    · rw [sources_mixedSetup]
      constructor <;> decide +kernel
    · rw [sources_mixedSetup]
      change ∀ source ∈ _, ∀ text ∈ textOf? mixedSetup.begun mixedTree source, _
      simp only [List.forall_mem_cons, textA, textB, textC, Option.mem_some_iff, forall_eq',
        expandsA, failsB]
      exact ⟨.ok trivial, .problem _ _, by simp, by simp⟩
  obtain ⟨final, after, ends, accounts, ⟨ending, reports, -⟩, -⟩ :=
    (modules_are_accounted_for {} mixedRun ⟨mixedTree, [], []⟩ mixedSetup orderly).1
  have member : ["b.js"] ∈ final.sources := by
    rw [accounts.isSources, sources_mixedSetup]
    decide
  have isFailure : "b.js" ∈ final.failures := by
    refine (accounts.result_or_failure member).resolve_left ?_
    rintro ⟨summary, isResult⟩
    obtain ⟨text, own, isText, isExpansion, -, -⟩ :=
      accounts.results ["b.js"] member summary isResult
    rw [textOf?, inputOf, accounts.isOptions] at isText
    obtain rfl := Option.some.inj (textB.symm.trans isText)
    simp [failsB] at isExpansion
  rw [if_neg (List.ne_nil_of_mem isFailure)] at reports
  exact ⟨orderly, final, after, ends, accounts, isFailure, ending, reports⟩

end Restyle.Run
