import Restyle.Proofs.Expansion.Imports
import Restyle.Proofs.Expansion.Written
import Restyle.Proofs.Run.Recorded

/-!
Contract: a module without macros is copied, but for its line ends.

Owns: which texts have line ends that are kept; `Run.verdict_of_noBindings`; and that a
run writes such a module as its text with line feeds for its line ends, so that the file
is copied exactly if it has no carriage return.

Does not own: what the other modules of the run are recorded as (`Proofs.Run.Recorded`).
-/

namespace Restyle

/-! ## Line ends -/

namespace Text

private theorem not_mem_unifyNewlineChars (chars : List Char) : '\r' ∉ unifyNewlineChars chars := by
  fun_induction unifyNewlineChars chars with
  | case1 => simp
  | case2 rest inductionHypothesis | case3 rest _ inductionHypothesis => simpa
  | case4 c rest _ notReturn inductionHypothesis =>
    have isOther : c ≠ '\r' := fun isReturn => notReturn isReturn
    simpa using ⟨isOther.symm, inductionHypothesis⟩

private theorem unifyNewlineChars_of_not_mem
    {chars : List Char}
    (noReturn : '\r' ∉ chars) :
    unifyNewlineChars chars = chars := by
  fun_induction unifyNewlineChars chars with
  | case1 => rfl
  | case2 rest _ | case3 rest _ _ => simp at noReturn
  | case4 c rest _ _ inductionHypothesis =>
    rw [List.mem_cons, not_or] at noReturn
    rw [inductionHypothesis noReturn.2]

private theorem unifyNewlines_eq_self_iff (text : String) :
    unifyNewlines text = text ↔ '\r' ∉ text.toList := by
  constructor
  · intro isSame
    rw [← isSame, unifyNewlines, String.toList_ofList]
    exact not_mem_unifyNewlineChars text.toList
  · intro noReturn
    rw [unifyNewlines, unifyNewlineChars_of_not_mem noReturn, String.ofList_toList]

private theorem toUTF8_of_fromUTF8?
    {bytes : ByteArray}
    {text : String}
    (isText : String.fromUTF8? bytes = some text) :
    text.toUTF8 = bytes := by
  unfold String.fromUTF8? at isText
  split at isText
  · rw [← Option.some.inj isText]
    rfl
  · simp at isText

end Text

/-! ## Modules without macros -/

namespace Run

open Job

section Verbatim

variable
  {settings : Settings}
  {registry : Registry}
  {module : Module}
  {text : String}

private theorem listOf_of_noBindings
    (noBindings : (Expansion.scopeOf settings registry module).bindings = []) :
    Binding.listOf settings registry module = [] := by
  cases isList : Binding.listOf settings registry module with
  | nil => rfl
  | cons first rest =>
    have member : first ∈ first :: rest := List.mem_cons_self
    have isBound := Expansion.isSome_find?_of_mem member
    rw [← isList, show Binding.Table.ofList (Binding.listOf settings registry module) = [] from
      noBindings] at isBound
    simp [Binding.Table.find?] at isBound

/-- A file whose module has no bindings is expanded to its text. -/
theorem verdict_of_noBindings
    {run : Run}
    {tree : FileTree}
    {source : List String}
    {bytes : ByteArray}
    (isFile : tree.read? (run.inputOf source) = some bytes)
    (isText : String.fromUTF8? bytes = some text)
    (parses : Module.parse (Text.unifyNewlines text) = .ok module)
    (noBindings : (Expansion.scopeOf settings registry module).bindings = []) :
    (trialOf settings registry run tree source).verdict =
      .expanded ⟨Text.unifyNewlines text, [], [], [], false⟩ := by
  have isUnchanged : (Expansion.run settings registry (nameOf source) module).result =
      .ok ⟨Text.unifyNewlines text, [], [], [], false⟩ := by
    rw [Expansion.run, listOf_of_noBindings noBindings, ← (Module.parsed_of_parse parses).1]
    rfl
  simp only [trialOf, isFile, Trial.ofBytes, isText, Trial.ofText, parses, isUnchanged]

/-- A module that a run comes to and expands is written, and stands there in the end, whatever
modules follow; if the run goes through, it is among the results. -/
theorem exists_written
    {run : Run}
    (world : World)
    {early late : List (List String)}
    {source : List String}
    {expansion : Expansion}
    (unobstructed : Unobstructed world.tree run (early ++ source :: late))
    (goesOn : ∀ other ∈ early, (trialOf settings registry run world.tree other).verdict.GoesOn)
    (isVerdict : (trialOf settings registry run world.tree source).verdict = .expanded expansion) :
    ∃ outcome after,
      Ends ((early ++ source :: late).foldlM (Stage.expandModule settings registry) run) world
        outcome after ∧
      after.tree.read? (run.outputOf source) = some expansion.code.toUTF8 ∧
      ∀ final, outcome = .ok final → run.reportOf source expansion ∈ final.results := by
  rw [List.append_cons] at unobstructed ⊢
  have goOn : ∀ other ∈ early ++ [source],
      (trialOf settings registry run world.tree other).verdict.GoesOn :=
    List.forall_mem_append.mpr
      ⟨goesOn, List.forall_mem_singleton.mpr (isVerdict ▸ .expanded expansion)⟩
  obtain ⟨middle, ends, carried⟩ := exists_recorded_of_goesOn world unobstructed goOn
  let recordedRun := recorded settings registry run world.tree (early ++ [source])
  obtain ⟨outcome, after, others, advanced, isRecorded⟩ :=
    exists_outcome settings registry recordedRun middle (carried.unobstructed.congr rfl rfl)
  refine ⟨outcome, after, ?_, ?_, fun final isFinal => ?_⟩
  · rw [List.foldlM_append]
    exact ends.bind others
  · refine advanced.read? (carried.written source (by simp) expansion isVerdict) ?_
    rw [List.mem_map]
    rintro ⟨other, member, isSame⟩
    rw [carried.advanced.target, carried.advanced.target] at isSame
    exact ((List.pairwise_append.mp unobstructed.distinct).2.2 source (by simp) other member).1
      isSame.symm
  · have isResult : resultOf settings registry run world.tree source =
        some (run.reportOf source expansion) := by
      rw [resultOf, isVerdict]
    rw [isRecorded final isFinal]
    simp [recordedRun, recorded, isResult]

end Verbatim

/-- A run that comes to a file whose text parses to a module without bindings writes the
text, unchanged but for line feeds in place of its line ends.  Whatever modules follow, it
stands there in the end, as a result without change if the run goes through.  The file is
copied byte for byte exactly if its text has no carriage return. -/
theorem module_without_macros_keeps_bytes_iff
    (context : Context)
    (run : Run)
    (world : World)
    {registry : Registry}
    (loaded : context.registry world.tree (run.options.apply context.settings) = .ok registry)
    (unobstructed : Unobstructed world.tree run run.sources)
    {early late : List (List String)}
    {source : List String}
    (isSource : run.sources = early ++ source :: late)
    (goesOn : ∀ other ∈ early,
      (trialOf (run.options.apply context.settings) registry run world.tree other).verdict.GoesOn)
    {bytes : ByteArray}
    {text : String}
    {module : Module}
    (isFile : world.tree.read? (run.inputOf source) = some bytes)
    (isText : String.fromUTF8? bytes = some text)
    (parses : Module.parse (Text.unifyNewlines text) = .ok module)
    (noBindings :
      (Expansion.scopeOf (run.options.apply context.settings) registry module).bindings = []) :
    ∃ outcome after, Ends (Stage.runExpandModules context run) world outcome after ∧
      after.tree.read? (run.outputOf source) = some (Text.unifyNewlines text).toUTF8 ∧
      (after.tree.read? (run.outputOf source) = some bytes ↔ '\r' ∉ text.toList) ∧
      ∀ final, outcome = .ok final →
        (nameOf source, ⟨false, 0, [], run.outputOf source⟩) ∈ final.results := by
  let cleared : Run := { run with results := [], failures := [] }
  let begun : World :=
    { world with log := world.log ++ [⟨.module, s!"Loaded {registry.describe}"⟩] }
  have isVerdict := verdict_of_noBindings isFile isText parses noBindings
  have isClear : Unobstructed begun.tree cleared (early ++ source :: late) :=
    isSource ▸ unobstructed.congr rfl rfl
  obtain ⟨outcome, after, ends, isWritten, isResult⟩ :=
    exists_written begun isClear goesOn isVerdict
  rw [← isSource] at ends
  have isCopy : after.tree.read? (run.outputOf source) =
      some (Text.unifyNewlines text).toUTF8 := isWritten
  refine ⟨outcome, after, ends_runExpandModules loaded ends, isCopy, ?_, isResult⟩
  rw [isCopy, Option.some.injEq, ← Text.toUTF8_of_fromUTF8? isText,
    ← Text.unifyNewlines_eq_self_iff]
  exact String.toByteArray_inj

/-- A directory with a module that has a carriage return. -/
def returnTree : FileTree :=
  (((FileTree.ofCurrent []).withDirectory ["in"]).withDirectory ["out"]).withFile ["in", "a.js"]
    "x\r\n".toUTF8

/-- The module with a carriage return is written without it. -/
theorem returnTree_loses_carriage_return :
    Unobstructed returnTree (sampleRun [["a.js"]]) [["a.js"]] ∧
    ∃ outcome after, Ends (Stage.runExpandModules {} (sampleRun [["a.js"]])) ⟨returnTree, [], []⟩
        outcome after ∧
      after.tree.read? ⟨"", ["out", "a.js"]⟩ = some "x\n".toUTF8 ∧
      after.tree.read? ⟨"", ["out", "a.js"]⟩ ≠ some "x\r\n".toUTF8 := by
  have unobstructed : Unobstructed returnTree (sampleRun [["a.js"]]) [["a.js"]] := by
    constructor <;> decide +kernel
  let token : Token := ⟨"x", 0, ⟨1, 1⟩, .atom .identifier⟩
  have parses : Module.parse (Text.unifyNewlines "x\r\n") = .ok ⟨"x\n", [token], []⟩ := by
    with_unfolding_all rfl
  have loaded : Context.registry {} returnTree
      ((sampleRun [["a.js"]]).options.apply {}) = .ok Registry.packaged := rfl
  have isSource : (sampleRun [["a.js"]]).sources = [] ++ ["a.js"] :: [] := rfl
  have isFile : returnTree.read? ((sampleRun [["a.js"]]).inputOf ["a.js"]) =
      some "x\r\n".toUTF8 := by
    decide +kernel
  have isText : String.fromUTF8? "x\r\n".toUTF8 = some "x\r\n" := by decide +kernel
  obtain ⟨outcome, after, ends, isWritten, keeps, -⟩ :=
    module_without_macros_keeps_bytes_iff {} (sampleRun [["a.js"]]) ⟨returnTree, [], []⟩ loaded
      unobstructed isSource (by simp) isFile isText parses rfl
  have isUnified : Text.unifyNewlines "x\r\n" = "x\n" := by decide +kernel
  rw [isUnified] at isWritten
  exact ⟨unobstructed, outcome, after, ends, isWritten, fun isSame =>
    keeps.mp isSame (by decide +kernel)⟩

end Run

end Restyle
