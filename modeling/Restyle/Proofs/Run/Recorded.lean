import Mathlib.Data.List.Basic
import Restyle.Proofs.Expansion.Faults
import Restyle.Proofs.FileTree.Writing
import Restyle.Run.Stage

/-!
Contract: which files can end a run over a directory.

Owns: `Job.Ends`, how a part of a run ends in a world; `Run.trialOf`, what becomes of
a selected module; `Run.Unobstructed`, files and directories that keep no module from
being read and written; that the modules of such a run are all recorded and written,
unless one of them has a backslash for its last character, in a template, which ends
the run.

Does not own: what an expansion does with a text (`Proofs.Expansion.Faults`).
-/

namespace Restyle.Run

/-! ## Parts of a run -/

namespace Job

/-- A part of a run ends in a world with an outcome and leaves another world. -/
def Ends {α : Type} (job : Job α) (before : World) (outcome : Except Stop α) (after : World) :
    Prop :=
  ExceptT.run job before = (outcome, after)

section Ends

variable
  {α β : Type}
  {first : Job α}
  {next : α → Job β}
  {before between after : World}

theorem Ends.bind
    {value : α}
    {outcome : Except Stop β}
    (isFirst : Ends first before (.ok value) between)
    (isNext : Ends (next value) between outcome after) :
    Ends (first >>= next) before outcome after := by
  unfold Ends at isFirst isNext ⊢
  rw [ExceptT.run_bind]
  simp only [Bind.bind, StateT.bind, isFirst]
  exact isNext

theorem Ends.stop
    {stop : Stop}
    (isFirst : Ends first before (.error stop) after) :
    Ends (first >>= next) before (.error stop) after := by
  unfold Ends at isFirst ⊢
  rw [ExceptT.run_bind]
  simp only [Bind.bind, StateT.bind, isFirst]
  rfl

private theorem ends_note (entries : List Log.Entry) :
    Ends (note entries) before (.ok ()) { before with log := before.log ++ entries } :=
  rfl

theorem ends_log (level : Log.Level) (message : String) :
    Ends (log level message) before (.ok ())
      { before with log := before.log ++ [⟨level, message⟩] } :=
  rfl

theorem ends_tree : Ends tree before (.ok before.tree) before :=
  rfl

theorem ends_change
    {action : FileTree → Except FileTree.Obstacle FileTree}
    {tree : FileTree}
    (succeeds : action before.tree = .ok tree) :
    Ends (change action) before (.ok ()) { before with tree } := by
  refine ends_tree.bind ?_
  rw [succeeds]
  rfl

end Ends

end Job

open Job

/-! ## One module -/

def inputOf (run : Run) (source : List String) : Path :=
  Glob.below (run.options.input.getD ⟨"", []⟩) source

def outputOf (run : Run) (source : List String) : Path :=
  Glob.below run.destination source

def trialOf
    (settings : Settings)
    (registry : Registry)
    (run : Run)
    (tree : FileTree)
    (source : List String) : Trial :=
  match tree.read? (run.inputOf source) with
  | some bytes => Trial.ofBytes settings registry (nameOf source) bytes
  | none => ⟨[], .unreadable⟩

/-- What is reported of a selected module once it is written. -/
def reportOf (run : Run) (source : List String) (expansion : Expansion) : String × Summary :=
  (nameOf source, ⟨expansion.changed, Trial.countExpanded expansion.outputs, expansion.aliases,
    run.outputOf source⟩)

def resultOf
    (settings : Settings)
    (registry : Registry)
    (run : Run)
    (tree : FileTree)
    (source : List String) : Option (String × Summary) :=
  match (trialOf settings registry run tree source).verdict with
  | .expanded expansion => some (run.reportOf source expansion)
  | _ => none

/-- The lines that a text takes among the complaints. -/
def linesOf (text : String) : List String :=
  (splitWhere (· = '\n') text.toList).map String.ofList

def complaintsOf
    (settings : Settings)
    (registry : Registry)
    (run : Run)
    (tree : FileTree)
    (source : List String) : List String :=
  match (trialOf settings registry run tree source).verdict with
  | .unreadable => linesOf s!"Error reading {(run.inputOf source).render}"
  | .refused report => linesOf s!"Macro error: {report}"
  | _ => []

def placesOf
    (settings : Settings)
    (registry : Registry)
    (run : Run)
    (tree : FileTree)
    (source : List String) : List FileTree.Place :=
  match (trialOf settings registry run tree source).verdict with
  | .expanded _ => [tree.target (run.outputOf source)]
  | _ => []

def succeed (run : Run) (source : List String) (expansion : Expansion) : Run :=
  { run with results := run.results ++ [run.reportOf source expansion] }

section Module

variable
  {settings : Settings}
  {registry : Registry}
  {run : Run}
  {world : World}
  {source : List String}

def carryOut (run : Run) (source : List String) : Verdict → Job Run
  | .unreadable => do
    complain s!"Error reading {(run.inputOf source).render}"
    return Stage.fail run (nameOf source)
  | .refused report => do
    log .error s!"{nameOf source}: {Text.firstLine report}"
    complain s!"Macro error: {report}"
    return Stage.fail run (nameOf source)
  | .stopped fault => throw (.module fault)
  | .expanded expansion => Stage.writeModule run source expansion

/-- A module is tried, with no change to the files and no complaint, and then its verdict
is carried out. -/
theorem exists_ends_expandModule
    {outcome : Except Stop Run}
    {property : World → Prop}
    (carried : ∀ middle : World, middle.tree = world.tree → middle.complaints = world.complaints →
      ∃ after, Ends (carryOut run source (trialOf settings registry run world.tree source).verdict)
        middle outcome after ∧ property after) :
    ∃ after, Ends (Stage.expandModule settings registry run source) world outcome after ∧
      property after := by
  let trial := trialOf settings registry run world.tree source
  let middle : World := { world with
    log := world.log ++ [⟨.module, s!"Transforming {nameOf source}..."⟩] ++ trial.log }
  obtain ⟨after, ends, holds⟩ := carried middle rfl rfl
  exact ⟨after, (ends_log _ _).bind (ends_tree.bind ((ends_note _).bind ends)), holds⟩

private theorem exists_stop
    {fault : Fault}
    (isVerdict : (trialOf settings registry run world.tree source).verdict = .stopped fault) :
    ∃ after, Ends (Stage.expandModule settings registry run source) world
      (.error (.module fault)) after ∧ after.tree = world.tree := by
  refine exists_ends_expandModule fun middle isTree _ => ?_
  rw [isVerdict]
  exact ⟨middle, rfl, isTree⟩

private theorem exists_failure
    (isVerdict : (trialOf settings registry run world.tree source).verdict = .unreadable ∨
      ∃ report, (trialOf settings registry run world.tree source).verdict = .refused report) :
    ∃ after, Ends (Stage.expandModule settings registry run source) world
      (.ok (Stage.fail run (nameOf source))) after ∧ after.tree = world.tree ∧
      after.complaints =
        world.complaints ++ complaintsOf settings registry run world.tree source := by
  refine exists_ends_expandModule fun middle isTree areComplaints => ?_
  rw [complaintsOf, ← areComplaints]
  rcases isVerdict with isVerdict | ⟨report, isVerdict⟩
  · rw [isVerdict]
    exact ⟨_, rfl, isTree, rfl⟩
  · rw [isVerdict]
    exact ⟨_, rfl, isTree, rfl⟩

private theorem exists_success
    {expansion : Expansion}
    {made written : FileTree}
    (isVerdict : (trialOf settings registry run world.tree source).verdict = .expanded expansion)
    (makes : world.tree.makeDirectories
      { run.outputOf source with parts := (run.outputOf source).parts.dropLast } = .ok made)
    (writes : made.write (run.outputOf source) expansion.code.toUTF8 = .ok written) :
    ∃ after, Ends (Stage.expandModule settings registry run source) world
      (.ok (run.succeed source expansion)) after ∧ after.tree = written ∧
      after.complaints = world.complaints := by
  refine exists_ends_expandModule fun middle isTree areComplaints => ?_
  rw [isVerdict]
  rw [← isTree] at makes
  let after : World := { middle with
    tree := written, log := middle.log ++ [⟨.detail, s!"Wrote {(run.outputOf source).render}"⟩] }
  exact ⟨after, (ends_change makes).bind ((ends_change writes).bind ((ends_log _ _).bind rfl)), rfl,
    areComplaints⟩

end Module

/-! ## Verdicts -/

/-- The text of a selected module ends, in a template, with a backslash. -/
def Escapes (run : Run) (tree : FileTree) (source : List String) : Prop :=
  ∃ bytes text, tree.read? (run.inputOf source) = some bytes ∧ String.fromUTF8? bytes = some text ∧
    Lexeme.EndsInEscape (Text.unifyNewlines text).toList

/-- A verdict that lets the run go on. -/
inductive Verdict.GoesOn : Verdict → Prop where
  | unreadable : Verdict.GoesOn .unreadable
  | refused (report : String) : Verdict.GoesOn (.refused report)
  | expanded (expansion : Expansion) : Verdict.GoesOn (.expanded expansion)

private theorem Trial.verdict_ofText
    {registry : Registry}
    (sound : registry.Sound)
    (settings : Settings)
    (name source : String) :
    Lexeme.EndsInEscape source.toList ∧
        (Trial.ofText settings registry name source).verdict = .stopped .strayInTemplate ∨
      ¬ Lexeme.EndsInEscape source.toList ∧
        (Trial.ofText settings registry name source).verdict.GoesOn := by
  unfold Trial.ofText
  rcases Expansion.cases_of_parse source with ⟨escapes, fails⟩ | ⟨noEscape, judged⟩
  · exact .inl ⟨escapes, by rw [fails]; rfl⟩
  · refine .inr ⟨noEscape, ?_⟩
    generalize Module.parse source = parsed at judged
    cases judged with
    | problem problem offset => exact .refused _
    | @ok module _ =>
      have outcome := Expansion.judged_run sound settings name module
      simp only
      generalize (Expansion.run settings registry name module).result = result at outcome
      cases outcome with
      | ok _ => exact .expanded _
      | problem problem offset => exact .refused _

/-- With a sound registry, a module stops the run exactly if it ends so. -/
theorem verdict_cases
    {registry : Registry}
    (sound : registry.Sound)
    (settings : Settings)
    (run : Run)
    (tree : FileTree)
    (source : List String) :
    run.Escapes tree source ∧
        (trialOf settings registry run tree source).verdict = .stopped .strayInTemplate ∨
      ¬ run.Escapes tree source ∧
        (trialOf settings registry run tree source).verdict.GoesOn := by
  unfold trialOf Escapes
  cases isFile : tree.read? (run.inputOf source) with
  | none => exact .inr ⟨by simp, .unreadable⟩
  | some bytes =>
    simp only [Trial.ofBytes]
    cases isText : String.fromUTF8? bytes with
    | none => exact .inr ⟨by simp [isText], .unreadable⟩
    | some text =>
      have cases := Trial.verdict_ofText sound settings (nameOf source) (Text.unifyNewlines text)
      simpa [isText] using cases

/-! ## All modules -/

/-- Files and directories that keep no selected module from being read and written:
each can be read; on the way to where one is written there is no file and in its place
no directory; none is written on the way to another; and none is written where another
one is written or a later one is read. -/
structure Unobstructed (tree : FileTree) (run : Run) (sources : List (List String)) : Prop where
  readable : ∀ source ∈ sources, tree.isFile (run.inputOf source)
  named : ∀ source ∈ sources, FileTree.hasInvalidName (run.outputOf source) = false
  clear : ∀ source ∈ sources, ∀ place ∈ tree.way (run.outputOf source), tree.contents? place = none
  free : ∀ source ∈ sources, ¬ tree.hasDirectory (tree.target (run.outputOf source))
  aside : ∀ one ∈ sources, ∀ other ∈ sources,
    tree.target (run.outputOf one) ∉ tree.way (run.outputOf other)
  distinct : sources.Pairwise fun earlier later =>
    tree.target (run.outputOf earlier) ≠ tree.target (run.outputOf later) ∧
      tree.target (run.outputOf earlier) ≠ tree.target (run.inputOf later)

/-- The run with the verdict on a module recorded. -/
def record (run : Run) (source : List String) : Verdict → Run
  | .expanded expansion => run.succeed source expansion
  | _ => Stage.fail run (nameOf source)

section Modules

variable
  {settings : Settings}
  {registry : Registry}
  {run : Run}
  {world : World}
  {source : List String}
  {rest : List (List String)}

theorem Unobstructed.tail
    {tree : FileTree}
    (unobstructed : Unobstructed tree run (source :: rest)) :
    Unobstructed tree run rest where
  readable other member := unobstructed.readable other (List.mem_cons_of_mem _ member)
  named other member := unobstructed.named other (List.mem_cons_of_mem _ member)
  clear other member := unobstructed.clear other (List.mem_cons_of_mem _ member)
  free other member := unobstructed.free other (List.mem_cons_of_mem _ member)
  aside one isOne other isOther := unobstructed.aside one (List.mem_cons_of_mem _ isOne) other
    (List.mem_cons_of_mem _ isOther)
  distinct := (List.pairwise_cons.mp unobstructed.distinct).2

/-- Once a module is written, the later ones are as unobstructed as before. -/
theorem Unobstructed.wrote
    {tree after : FileTree}
    {bytes : ByteArray}
    (unobstructed : Unobstructed tree run (source :: rest))
    (wrote : FileTree.Wrote tree after (tree.way (run.outputOf source))
      (tree.target (run.outputOf source)) bytes) :
    Unobstructed after run rest := by
  have later := unobstructed.tail
  have apart := (List.pairwise_cons.mp unobstructed.distinct).1
  have isWay := wrote.advanced.way
  have isTarget := wrote.advanced.target
  constructor
  · intro other member
    obtain ⟨own, isFile⟩ := Option.isSome_iff_exists.mp (later.readable other member)
    have elsewhere : tree.target (run.inputOf other) ∉ [tree.target (run.outputOf source)] := by
      simpa using (apart other member).2.symm
    exact Option.isSome_iff_exists.mpr ⟨own, wrote.advanced.read? isFile elsewhere⟩
  · exact later.named
  · intro other member place onWay
    rw [isWay] at onWay
    have notHere : place ≠ tree.target (run.outputOf source) := by
      rintro rfl
      exact unobstructed.aside source List.mem_cons_self other (List.mem_cons_of_mem _ member) onWay
    rw [wrote.contents, if_neg notHere]
    exact later.clear other member place onWay
  · intro other member
    rw [isTarget, wrote.directories]
    rintro (there | onWay)
    · exact later.free other member there
    · exact unobstructed.aside other (List.mem_cons_of_mem _ member) source List.mem_cons_self onWay
  · intro one isOne other isOther
    rw [isTarget, isWay]
    exact later.aside one isOne other isOther
  · simpa only [isTarget] using later.distinct

/-- A later module is read as if the earlier one had not been written. -/
theorem Unobstructed.read?_later
    {tree after : FileTree}
    {places : List FileTree.Place}
    {later : List String}
    (unobstructed : Unobstructed tree run (source :: rest))
    (advanced : FileTree.Advanced tree after places)
    (areOwn : places ⊆ [tree.target (run.outputOf source)])
    (member : later ∈ rest) :
    after.read? (run.inputOf later) = tree.read? (run.inputOf later) := by
  obtain ⟨bytes, isFile⟩ := Option.isSome_iff_exists.mp
    (unobstructed.readable later (List.mem_cons_of_mem _ member))
  have apart := ((List.pairwise_cons.mp unobstructed.distinct).1 later member).2
  rw [isFile]
  exact advanced.read? isFile fun isPlace => apart (List.mem_singleton.mp (areOwn isPlace)).symm

private theorem placesOf_subset (tree : FileTree) :
    placesOf settings registry run tree source ⊆ [tree.target (run.outputOf source)] := by
  unfold placesOf
  split <;> simp

/-- What a step of the run leaves behind: the later modules unobstructed, other files as
they were, an expanded module written, and complaints of one that fails. -/
structure Stepped (settings : Settings) (registry : Registry) (run : Run) (source : List String)
    (rest : List (List String)) (world after : World) : Prop where
  unobstructed : Unobstructed after.tree run rest
  advanced : FileTree.Advanced world.tree after.tree
    (placesOf settings registry run world.tree source)
  written : ∀ expansion,
    (trialOf settings registry run world.tree source).verdict = .expanded expansion →
      after.tree.read? (run.outputOf source) = some expansion.code.toUTF8
  complained : after.complaints =
    world.complaints ++ complaintsOf settings registry run world.tree source

private theorem exists_step
    (unobstructed : Unobstructed world.tree run (source :: rest))
    (goesOn : (trialOf settings registry run world.tree source).verdict.GoesOn) :
    ∃ after, Ends (Stage.expandModule settings registry run source) world
      (.ok (run.record source (trialOf settings registry run world.tree source).verdict)) after ∧
      Stepped settings registry run source rest world after := by
  have failed : ∀ after : World, after.tree = world.tree ∧ after.complaints =
        world.complaints ++ complaintsOf settings registry run world.tree source →
      (∀ expansion, (trialOf settings registry run world.tree source).verdict ≠
        .expanded expansion) →
      Stepped settings registry run source rest world after := by
    rintro after ⟨same, complained⟩ notExpanded
    constructor
    · exact same ▸ unobstructed.tail
    · exact same ▸ .refl _ _
    · exact fun expansion isVerdict => absurd isVerdict (notExpanded expansion)
    · exact complained
  generalize isVerdict : (trialOf settings registry run world.tree source).verdict = verdict
    at goesOn
  cases goesOn with
  | unreadable =>
    obtain ⟨after, ends, leaves⟩ := exists_failure (.inl isVerdict)
    exact ⟨after, ends, failed after leaves (by simp [isVerdict])⟩
  | refused report =>
    obtain ⟨after, ends, leaves⟩ := exists_failure (.inr ⟨report, isVerdict⟩)
    exact ⟨after, ends, failed after leaves (by simp [isVerdict])⟩
  | expanded expansion =>
    obtain ⟨made, written, makes, writes, wrote⟩ := FileTree.exists_wrote
      expansion.code.toUTF8 (unobstructed.named source List.mem_cons_self)
      (unobstructed.clear source List.mem_cons_self) (unobstructed.free source List.mem_cons_self)
      (unobstructed.aside source List.mem_cons_self source List.mem_cons_self)
    obtain ⟨after, ends, rfl, complained⟩ := exists_success isVerdict makes writes
    refine ⟨after, ends, unobstructed.wrote wrote, ?_, fun other isOther => ?_, ?_⟩
    · rw [placesOf, isVerdict]
      exact wrote.advanced
    · rw [isVerdict, Verdict.expanded.injEq] at isOther
      rw [← isOther]
      exact wrote.read?_own
    · rw [complaintsOf, isVerdict, complained, List.append_nil]

end Modules

/-- The run with all selected modules recorded, each as a result or as a failure. -/
def recorded
    (settings : Settings)
    (registry : Registry)
    (run : Run)
    (tree : FileTree)
    (sources : List (List String)) : Run :=
  let failed := sources.filter fun source => (resultOf settings registry run tree source).isNone
  { run with
    results := run.results ++ sources.filterMap (resultOf settings registry run tree)
    failures := run.failures ++ failed.map nameOf }

section Runs

variable
  {settings : Settings}
  {registry : Registry}
  {run : Run}
  {source : List String}
  {rest : List (List String)}

private theorem inputOf_record (verdict : Verdict) :
    (run.record source verdict).inputOf = run.inputOf := by
  cases verdict <;> rfl

private theorem outputOf_record (verdict : Verdict) :
    (run.record source verdict).outputOf = run.outputOf := by
  cases verdict <;> rfl

/-- What becomes of a module depends on its file alone. -/
theorem trialOf_record
    {tree after : FileTree}
    {later : List String}
    (verdict : Verdict)
    (same : after.read? (run.inputOf later) = tree.read? (run.inputOf later)) :
    trialOf settings registry (run.record source verdict) after later =
      trialOf settings registry run tree later := by
  simp only [trialOf, inputOf_record, same]

private theorem resultOf_record
    {tree after : FileTree}
    {later : List String}
    (verdict : Verdict)
    (same : after.read? (run.inputOf later) = tree.read? (run.inputOf later)) :
    resultOf settings registry (run.record source verdict) after later =
      resultOf settings registry run tree later := by
  simp only [resultOf, trialOf_record verdict same, reportOf, outputOf_record]

private theorem complaintsOf_record
    {tree after : FileTree}
    {later : List String}
    (verdict : Verdict)
    (same : after.read? (run.inputOf later) = tree.read? (run.inputOf later)) :
    complaintsOf settings registry (run.record source verdict) after later =
      complaintsOf settings registry run tree later := by
  simp only [complaintsOf, trialOf_record verdict same, inputOf_record]

private theorem placesOf_record
    {tree after : FileTree}
    {later : List String}
    (verdict : Verdict)
    (same : after.read? (run.inputOf later) = tree.read? (run.inputOf later))
    (sameTarget : after.target (run.outputOf later) = tree.target (run.outputOf later)) :
    placesOf settings registry (run.record source verdict) after later =
      placesOf settings registry run tree later := by
  simp only [placesOf, trialOf_record verdict same, outputOf_record, sameTarget]

private theorem recorded_cons
    {tree after : FileTree}
    (same : ∀ later ∈ rest, after.read? (run.inputOf later) = tree.read? (run.inputOf later)) :
    recorded settings registry
        (run.record source (trialOf settings registry run tree source).verdict) after rest =
      recorded settings registry run tree (source :: rest) := by
  have own : ∀ later ∈ rest, resultOf settings registry
      (run.record source (trialOf settings registry run tree source).verdict) after later =
        resultOf settings registry run tree later :=
    fun later member => resultOf_record _ (same later member)
  have results := List.filterMap_congr own
  have failures := List.filter_congr fun later member => congrArg Option.isNone (own later member)
  simp only [recorded, results, failures, List.filterMap_cons, List.filter_cons]
  rw [resultOf]
  cases (trialOf settings registry run tree source).verdict <;>
    simp [record, succeed, Stage.fail]

theorem Unobstructed.congr
    {tree : FileTree}
    {other : Run}
    (unobstructed : Unobstructed tree run rest)
    (sameInput : other.inputOf = run.inputOf)
    (sameOutput : other.outputOf = run.outputOf) :
    Unobstructed tree other rest := by
  obtain ⟨readable, named, clear, free, aside, distinct⟩ := unobstructed
  constructor
  all_goals simpa only [sameInput, sameOutput]

private theorem Unobstructed.of_record
    {tree : FileTree}
    (unobstructed : Unobstructed tree run rest)
    (verdict : Verdict) :
    Unobstructed tree (run.record source verdict) rest :=
  unobstructed.congr (inputOf_record verdict) (outputOf_record verdict)

/-- What a part of a run leaves behind: the later modules unobstructed and read as before,
other files as they were, the expanded modules written, and complaints of those that
fail. -/
structure Carried (settings : Settings) (registry : Registry) (run : Run)
    (sources rest : List (List String)) (world after : World) : Prop where
  unobstructed : Unobstructed after.tree run rest
  reads : ∀ later ∈ rest, after.tree.read? (run.inputOf later) = world.tree.read? (run.inputOf later)
  advanced : FileTree.Advanced world.tree after.tree
    (sources.flatMap (placesOf settings registry run world.tree))
  written : ∀ source ∈ sources, ∀ expansion,
    (trialOf settings registry run world.tree source).verdict = .expanded expansion →
      after.tree.read? (run.outputOf source) = some expansion.code.toUTF8
  complained : after.complaints =
    world.complaints ++ sources.flatMap (complaintsOf settings registry run world.tree)

/-- A module and then others: none is read or written where the first one is. -/
theorem Stepped.carried
    {sources : List (List String)}
    {world middle after : World}
    {verdict : Verdict}
    (unobstructed : Unobstructed world.tree run (source :: (sources ++ rest)))
    (stepped : Stepped settings registry run source (sources ++ rest) world middle)
    (others : Carried settings registry (run.record source verdict) sources rest middle after) :
    Carried settings registry run (source :: sources) rest world after := by
  have same : ∀ later ∈ sources ++ rest,
      middle.tree.read? (run.inputOf later) = world.tree.read? (run.inputOf later) :=
    fun later member => unobstructed.read?_later stepped.advanced (placesOf_subset _) member
  have sameRest : ∀ later ∈ rest,
      middle.tree.read? (run.inputOf later) = world.tree.read? (run.inputOf later) :=
    fun later member => same later (List.mem_append_right _ member)
  have sameOwn : ∀ later ∈ sources,
      middle.tree.read? (run.inputOf later) = world.tree.read? (run.inputOf later) :=
    fun later member => same later (List.mem_append_left _ member)
  obtain ⟨stillFree, reads, advanced, written, complained⟩ := others
  have places : sources.flatMap
      (placesOf settings registry (run.record source verdict) middle.tree) =
        sources.flatMap (placesOf settings registry run world.tree) :=
    List.flatMap_congr fun later member =>
      placesOf_record verdict (sameOwn later member) (stepped.advanced.target _)
  have complaints : sources.flatMap
      (complaintsOf settings registry (run.record source verdict) middle.tree) =
        sources.flatMap (complaintsOf settings registry run world.tree) :=
    List.flatMap_congr fun later member => complaintsOf_record verdict (sameOwn later member)
  rw [places] at advanced
  simp only [inputOf_record, outputOf_record] at reads written
  constructor
  · exact stillFree.congr (inputOf_record verdict).symm (outputOf_record verdict).symm
  · exact fun later member => (reads later member).trans (sameRest later member)
  · exact stepped.advanced.trans advanced
  · refine List.forall_mem_cons.mpr ⟨fun expansion isVerdict => ?_, fun other member expansion => ?_⟩
    · refine advanced.read? (stepped.written expansion isVerdict) ?_
      rw [stepped.advanced.target, List.mem_flatMap]
      rintro ⟨other, member, isPlace⟩
      have isSame := List.mem_singleton.mp (placesOf_subset _ isPlace)
      exact ((List.pairwise_cons.mp unobstructed.distinct).1 other
        (List.mem_append_left _ member)).1 isSame
    · intro isVerdict
      refine written other member expansion ?_
      rwa [trialOf_record verdict (sameOwn other member)]
  · rw [complained, stepped.complained, complaints, List.flatMap_cons, List.append_assoc]

/-- Modules that do not stop the run are all recorded, and those that are expanded are
written. -/
theorem exists_recorded_of_goesOn
    {sources : List (List String)}
    (world : World)
    (unobstructed : Unobstructed world.tree run (sources ++ rest))
    (goesOn : ∀ source ∈ sources,
      (trialOf settings registry run world.tree source).verdict.GoesOn) :
    ∃ after, Ends (sources.foldlM (Stage.expandModule settings registry) run) world
        (.ok (recorded settings registry run world.tree sources)) after ∧
      Carried settings registry run sources rest world after := by
  induction sources generalizing run world with
  | nil =>
    refine ⟨world, ?_, unobstructed, fun _ _ => rfl, .refl _ _, by simp, by simp⟩
    simp [recorded]
    rfl
  | cons source sources inductionHypothesis =>
    obtain ⟨here, later⟩ := List.forall_mem_cons.mp goesOn
    rw [List.cons_append] at unobstructed
    obtain ⟨middle, ends, stepped⟩ := exists_step unobstructed here
    let verdict := (trialOf settings registry run world.tree source).verdict
    have same : ∀ later ∈ sources,
        middle.tree.read? (run.inputOf later) = world.tree.read? (run.inputOf later) :=
      fun later member => unobstructed.read?_later stepped.advanced (placesOf_subset _)
        (List.mem_append_left _ member)
    have stillGoesOn : ∀ other ∈ sources,
        (trialOf settings registry (run.record source verdict) middle.tree other).verdict.GoesOn := by
      intro other member
      rw [trialOf_record verdict (same other member)]
      exact later other member
    obtain ⟨after, others, carried⟩ := inductionHypothesis middle
      (stepped.unobstructed.of_record verdict) stillGoesOn
    rw [recorded_cons same] at others
    exact ⟨after, ends.bind others, stepped.carried unobstructed carried⟩

/-- A run in which no module ends so records them all, and writes those that are
expanded. -/
theorem exists_recorded
    (sound : registry.Sound)
    {sources : List (List String)}
    (world : World)
    (unobstructed : Unobstructed world.tree run sources)
    (noEscape : ∀ source ∈ sources, ¬ run.Escapes world.tree source) :
    ∃ after, Ends (sources.foldlM (Stage.expandModule settings registry) run) world
        (.ok (recorded settings registry run world.tree sources)) after ∧
      FileTree.Advanced world.tree after.tree
        (sources.flatMap (placesOf settings registry run world.tree)) ∧
      ∀ source ∈ sources, ∀ expansion,
        (trialOf settings registry run world.tree source).verdict = .expanded expansion →
          after.tree.read? (run.outputOf source) = some expansion.code.toUTF8 := by
  have goesOn : ∀ source ∈ sources,
      (trialOf settings registry run world.tree source).verdict.GoesOn := by
    intro source member
    rcases verdict_cases sound settings run world.tree source with ⟨escapes, _⟩ | ⟨_, goesOn⟩
    · exact absurd escapes (noEscape source member)
    · exact goesOn
  have alone : Unobstructed world.tree run (sources ++ []) := by rwa [List.append_nil]
  obtain ⟨after, ends, carried⟩ := exists_recorded_of_goesOn world alone goesOn
  exact ⟨after, ends, carried.advanced, carried.written⟩

variable (settings registry run) in
/-- Either no module stops the run, or there is a first one that does. -/
theorem goesOn_or_stops (tree : FileTree) (sources : List (List String)) :
    (∀ source ∈ sources, (trialOf settings registry run tree source).verdict.GoesOn) ∨
    ∃ early source late fault, sources = early ++ source :: late ∧
      (∀ other ∈ early, (trialOf settings registry run tree other).verdict.GoesOn) ∧
      (trialOf settings registry run tree source).verdict = .stopped fault := by
  induction sources with
  | nil => exact .inl (by simp)
  | cons source rest inductionHypothesis =>
    have goesOn : (trialOf settings registry run tree source).verdict.GoesOn ∨
        ∃ fault, (trialOf settings registry run tree source).verdict = .stopped fault := by
      cases (trialOf settings registry run tree source).verdict with
      | unreadable => exact .inl .unreadable
      | refused report => exact .inl (.refused report)
      | stopped fault => exact .inr ⟨fault, rfl⟩
      | expanded expansion => exact .inl (.expanded expansion)
    rcases goesOn with here | ⟨fault, stops⟩
    · rcases inductionHypothesis with all | ⟨early, stopper, late, fault, rfl, before, stops⟩
      · exact .inl (List.forall_mem_cons.mpr ⟨here, all⟩)
      · exact .inr ⟨source :: early, stopper, late, fault, rfl,
          List.forall_mem_cons.mpr ⟨here, before⟩, stops⟩
    · exact .inr ⟨[], source, rest, fault, rfl, by simp, stops⟩

/-- A run stops at the first module that stops it, with those before it carried out. -/
theorem exists_stopped_at
    {early late : List (List String)}
    {fault : Fault}
    (world : World)
    (unobstructed : Unobstructed world.tree run (early ++ source :: late))
    (goesOn : ∀ other ∈ early, (trialOf settings registry run world.tree other).verdict.GoesOn)
    (stops : (trialOf settings registry run world.tree source).verdict = .stopped fault) :
    ∃ after, Ends ((early ++ source :: late).foldlM (Stage.expandModule settings registry) run) world
        (.error (.module fault)) after ∧
      FileTree.Advanced world.tree after.tree
        (early.flatMap (placesOf settings registry run world.tree)) := by
  obtain ⟨middle, ends, carried⟩ := exists_recorded_of_goesOn world unobstructed goesOn
  have isVerdict : (trialOf settings registry
      (recorded settings registry run world.tree early) middle.tree source).verdict =
        .stopped fault := by
    rw [← stops, trialOf, trialOf, ← carried.reads source List.mem_cons_self]
    rfl
  obtain ⟨after, stopped, sameTree⟩ := exists_stop isVerdict
  refine ⟨after, ?_, sameTree ▸ carried.advanced⟩
  rw [List.foldlM_append]
  exact ends.bind stopped.stop

variable (settings registry run) in
/-- Whatever the modules are, a run writes to none but their places, and records them all
if it goes through. -/
theorem exists_outcome
    {sources : List (List String)}
    (world : World)
    (unobstructed : Unobstructed world.tree run sources) :
    ∃ outcome after, Ends (sources.foldlM (Stage.expandModule settings registry) run) world
        outcome after ∧
      FileTree.Advanced world.tree after.tree
        (sources.map fun source => world.tree.target (run.outputOf source)) ∧
      ∀ final, outcome = .ok final → final = recorded settings registry run world.tree sources := by
  have amongTargets (part : List (List String)) (isPart : part ⊆ sources) :
      part.flatMap (placesOf settings registry run world.tree) ⊆
        sources.map fun source => world.tree.target (run.outputOf source) := by
    intro place member
    obtain ⟨source, isSource, isPlace⟩ := List.mem_flatMap.mp member
    exact List.mem_map.mpr
      ⟨source, isPart isSource, (List.mem_singleton.mp (placesOf_subset _ isPlace)).symm⟩
  rcases goesOn_or_stops settings registry run world.tree sources with
    goesOn | ⟨early, stopper, late, fault, rfl, goesOn, stops⟩
  · have alone : Unobstructed world.tree run (sources ++ []) := by rwa [List.append_nil]
    obtain ⟨after, ends, carried⟩ := exists_recorded_of_goesOn world alone goesOn
    refine ⟨_, after, ends, carried.advanced.mono (amongTargets _ (List.Subset.refl _)), ?_⟩
    exact fun final isFinal => (Except.ok.inj isFinal).symm
  · obtain ⟨after, ends, advanced⟩ := exists_stopped_at world unobstructed goesOn stops
    exact ⟨_, after, ends, advanced.mono (amongTargets _ (List.subset_append_left _ _)), by simp⟩

private theorem exists_stopped
    (sound : registry.Sound)
    {sources : List (List String)}
    (world : World)
    (unobstructed : Unobstructed world.tree run sources)
    (escapes : ∃ source ∈ sources, run.Escapes world.tree source) :
    ∃ after, Ends (sources.foldlM (Stage.expandModule settings registry) run) world
      (.error (.module .strayInTemplate)) after := by
  rcases goesOn_or_stops settings registry run world.tree sources with
    all | ⟨early, stopper, late, fault, rfl, goesOn, stops⟩
  · obtain ⟨source, member, escapes⟩ := escapes
    have goesOn := all source member
    rcases verdict_cases sound settings run world.tree source with ⟨_, stops⟩ | ⟨noEscape, _⟩
    · rw [stops] at goesOn
      nomatch goesOn
    · exact absurd escapes noEscape
  · obtain ⟨after, ends, -⟩ := exists_stopped_at world unobstructed goesOn stops
    rcases verdict_cases sound settings run world.tree stopper with ⟨_, isStray⟩ | ⟨_, goesOn⟩
    · rw [stops, Verdict.stopped.injEq] at isStray
      exact ⟨after, isStray ▸ ends⟩
    · rw [stops] at goesOn
      nomatch goesOn

end Runs

private theorem Context.has_defaultExport
    {context : Context}
    {tree : FileTree}
    {settings : Settings}
    {registry : Registry}
    (loaded : context.registry tree settings = .ok registry) :
    registry.has registry.defaultExport := by
  unfold Context.registry at loaded
  split at loaded
  · exact Registry.has_defaultExport_of_ofManifest loaded
  · unfold Registry.ofSettings at loaded
    split at loaded
    · unfold Registry.ofFile Registry.ofManifestText at loaded
      repeat' split at loaded
      all_goals first
        | exact Registry.has_defaultExport_of_ofManifest loaded
        | simp at loaded
    · obtain rfl := Except.ok.inj loaded
      decide +kernel

/-- Once the registry is loaded, the selected modules are expanded one after the other. -/
theorem ends_runExpandModules
    {context : Context}
    {run : Run}
    {world : World}
    {registry : Registry}
    (loaded : context.registry world.tree (run.options.apply context.settings) = .ok registry)
    {outcome : Except Stop Run}
    {after : World}
    (ends : Ends
      (run.sources.foldlM (Stage.expandModule (run.options.apply context.settings) registry)
        { run with results := [], failures := [] })
      { world with log := world.log ++ [⟨.module, s!"Loaded {registry.describe}"⟩] }
      outcome after) :
    Ends (Stage.runExpandModules context run) world outcome after := by
  refine ends_tree.bind ?_
  rw [loaded]
  exact (ends_log _ _).bind ends

/-- A run whose registry is loaded, with texts for runtime exports and examples, and
whose modules can be read and written, goes through all of them unless one ends, in a
template, with a backslash.  If none does, each selected module is recorded as a result
or a failure, whatever the others are, and every one that is expanded is written.  If
one does, the run ends there for a stray character, and no module is recorded. -/
theorem recorded_unless_escaping
    (context : Context)
    (run : Run)
    (world : World)
    {registry : Registry}
    (loaded : context.registry world.tree (run.options.apply context.settings) = .ok registry)
    (areTexts : ∀ spec ∈ registry.specs, spec.runtimeExport.text?.isSome ∧
      ∀ sample ∈ spec.examples, sample.text?.isSome)
    (unobstructed : Unobstructed world.tree run run.sources) :
    let settings := run.options.apply context.settings
    ((∀ source ∈ run.sources, ¬ run.Escapes world.tree source) →
      ∃ after, Ends (Stage.runExpandModules context run) world
          (.ok (recorded settings registry { run with results := [], failures := [] } world.tree
            run.sources)) after ∧
        ∀ source ∈ run.sources, ∀ expansion,
          (trialOf settings registry run world.tree source).verdict = .expanded expansion →
            after.tree.read? (run.outputOf source) = some expansion.code.toUTF8) ∧
    ((∃ source ∈ run.sources, run.Escapes world.tree source) →
      ∃ after, Ends (Stage.runExpandModules context run) world
        (.error (.module .strayInTemplate)) after) := by
  intro settings
  have sound : registry.Sound := ⟨Context.has_defaultExport loaded, areTexts⟩
  let cleared : Run := { run with results := [], failures := [] }
  have isClear : Unobstructed world.tree cleared run.sources := unobstructed.congr rfl rfl
  let begun : World :=
    { world with log := world.log ++ [⟨.module, s!"Loaded {registry.describe}"⟩] }
  constructor
  · intro noEscape
    obtain ⟨after, others, -, written⟩ := exists_recorded sound begun isClear noEscape
    exact ⟨after, ends_runExpandModules loaded others, written⟩
  · intro escapes
    obtain ⟨after, others⟩ := exists_stopped sound begun isClear escapes
    exact ⟨after, ends_runExpandModules loaded others⟩

/-- A directory with a module that ends, in a template, with a backslash, and another
one. -/
def sampleTree : FileTree :=
  ((((FileTree.ofCurrent []).withDirectory ["in"]).withDirectory ["out"]).withFile ["in", "a.js"]
    "`\\".toUTF8).withFile ["in", "b.js"] "x".toUTF8

/-- A run over modules of the sample directory. -/
def sampleRun (sources : List (List String)) : Run where
  options := { input := some ⟨"", ["in"]⟩, output := ⟨"", ["out"]⟩ }
  ready := true
  destination := ⟨"", ["out"]⟩
  sources

/-- With both modules the sample run ends early; with the second alone it is recorded and
written. -/
theorem sampleRun_ends_at_escape :
    (Unobstructed sampleTree (sampleRun [["a.js"], ["b.js"]]) [["a.js"], ["b.js"]] ∧
      ∃ after, Ends (Stage.runExpandModules {} (sampleRun [["a.js"], ["b.js"]])) ⟨sampleTree, [], []⟩
        (.error (.module .strayInTemplate)) after) ∧
    Unobstructed sampleTree (sampleRun [["b.js"]]) [["b.js"]] ∧
      ∃ final after, Ends (Stage.runExpandModules {} (sampleRun [["b.js"]])) ⟨sampleTree, [], []⟩
        (.ok final) after ∧ final.failures = [] ∧ final.results.length = 1 ∧
        after.tree.read? ⟨"", ["out", "b.js"]⟩ = some "x".toUTF8 := by
  have areTexts : ∀ spec ∈ Registry.packaged.specs, spec.runtimeExport.text?.isSome ∧
      ∀ sample ∈ spec.examples, sample.text?.isSome := by
    decide +kernel
  have both : Unobstructed sampleTree (sampleRun [["a.js"], ["b.js"]]) [["a.js"], ["b.js"]] := by
    constructor <;> decide +kernel
  have second : Unobstructed sampleTree (sampleRun [["b.js"]]) [["b.js"]] := by
    constructor <;> decide +kernel
  have escapes : (sampleRun [["a.js"], ["b.js"]]).Escapes sampleTree ["a.js"] := by
    refine ⟨"`\\".toUTF8, "`\\", by decide +kernel, by decide +kernel, .module, ?_⟩
    rw [show (Text.unifyNewlines "`\\").toList = ['`', '\\'] by decide +kernel]
    exact .after .here
  have isFile : sampleTree.read? ((sampleRun [["b.js"]]).inputOf ["b.js"]) = some "x".toUTF8 := by
    decide +kernel
  have isText : String.fromUTF8? "x".toUTF8 = some "x" := by decide +kernel
  have noEscape : ¬ (sampleRun [["b.js"]]).Escapes sampleTree ["b.js"] := by
    rintro ⟨bytes, text, isOther, isOtherText, escapes⟩
    obtain rfl := Option.some.inj (isFile.symm.trans isOther)
    obtain rfl := Option.some.inj (isText.symm.trans isOtherText)
    rcases Expansion.cases_of_parse (Text.unifyNewlines "x") with ⟨_, fails⟩ | ⟨noEscape, _⟩
    · have parses : (Module.parse (Text.unifyNewlines "x")).toOption.isSome = true := by
        decide +kernel
      simp [fails, Except.toOption] at parses
    · exact noEscape escapes
  let world : World := ⟨sampleTree, [], []⟩
  have stops := (recorded_unless_escaping {} (sampleRun [["a.js"], ["b.js"]]) world rfl areTexts
    both).2 ⟨["a.js"], by decide, escapes⟩
  obtain ⟨after, ends, written⟩ := (recorded_unless_escaping {} (sampleRun [["b.js"]]) world rfl
    areTexts second).1 (by simpa [sampleRun] using noEscape)
  have evaluates : (match (trialOf ((sampleRun [["b.js"]]).options.apply {}) Registry.packaged
      (sampleRun [["b.js"]]) sampleTree ["b.js"]).verdict with
      | .expanded expansion => decide (expansion.code = "x")
      | _ => false) = true := by
    decide +kernel
  split at evaluates
  · rename_i expansion isVerdict
    have isWritten := written ["b.js"] (by decide) expansion isVerdict
    rw [of_decide_eq_true evaluates] at isWritten
    exact ⟨⟨both, stops⟩, second, _, after, ends, by decide +kernel, by decide +kernel, isWritten⟩
  · simp at evaluates

end Restyle.Run
