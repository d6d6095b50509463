import Restyle.Run

/-!
Contract: the stages of a run, and what becomes of one file.

Owns: `Run.Verdict`, `Run.Trial`, a verdict with what the log says on the way to
it, and `Run.Trial.ofBytes`, which depends on nothing but the file, its name, the
settings and the registry; `Run.Stage`, the four stages in their order,
`Run.Stage.perform`, and `Run.perform`, all of them.

A module that cannot be read or expanded is noted as a failure, and the others
are still written; the last stage then ends the run with exit code one.
-/

namespace Restyle.Run

/-- What becomes of a file: it is no text, it has a problem, it stops the whole
run, or it is expanded. -/
inductive Verdict where
  | unreadable
  | refused (report : String)
  | stopped (fault : Fault)
  | expanded (expansion : Expansion)

/-- A verdict and the log on the way to it. -/
structure Trial where
  log : List Log.Entry
  verdict : Verdict

namespace Trial

def ofFault (name source : String) : Fault → Verdict
  | .problem problem offset => .refused (problem.report source name offset)
  | fault => .stopped fault

/-- What the log says of a binding. -/
def bindingEntry (binding : Binding) : Log.Entry where
  level := .module
  message :=
    s!"Binding {binding.localName} -> {binding.exportShown} " ++
      s!"({binding.mechanism.name} import of '{binding.path}')"

/-- What the log says of a finished output. -/
def outputEntry (name : String) (output : Output) : Log.Entry where
  level := .detail
  message :=
    s!"{name}:{output.use.location.render} {output.use.form.name} " ++
      s!"'{output.use.binding.localName}' -> {output.code}"

/-- How many outputs expand their use. -/
def countExpanded (outputs : List Output) : Nat :=
  outputs.countP (!·.isPassThrough)

/-- What the log says of an expanded module. -/
def closingEntry (name : String) (attempt : Expansion.Attempt) : Log.Entry where
  level := .module
  message :=
    if attempt.bindings.isEmpty then s!"{name}: no macro imports"
    else
      let expanded := countExpanded attempt.finished
      let passed := attempt.finished.length - expanded
      s!"{name}: {expanded} invocation(s) expanded, {passed} passed through"

def ofText (settings : Settings) (registry : Registry) (name source : String) : Trial :=
  match Module.parse source with
  | .error fault => ⟨[], ofFault name source fault⟩
  | .ok module =>
    let attempt := Expansion.run settings registry name module
    let log := attempt.bindings.map bindingEntry ++ attempt.finished.map (outputEntry name)
    match attempt.result with
    | .error fault => ⟨log, ofFault name source fault⟩
    | .ok expansion => ⟨log ++ [closingEntry name attempt], .expanded expansion⟩

/-- The trial of a file with these bytes, of which all line ends count as line
feeds. -/
def ofBytes
    (settings : Settings)
    (registry : Registry)
    (name : String)
    (bytes : ByteArray) : Trial :=
  match String.fromUTF8? bytes with
  | some text => ofText settings registry name (Text.unifyNewlines text)
  | none => ⟨[], .unreadable⟩

end Trial

/-! ## Stages -/

/-- A stage of a run. -/
inductive Stage where
  | checkDirectories
  | collectSources
  | expandModules
  | reportResults
deriving DecidableEq, Repr

namespace Stage

def all : List Stage :=
  [.checkDirectories, .collectSources, .expandModules, .reportResults]

/-- Looks for the input directory and makes the one to write to. -/
def runCheckDirectories (run : Run) : Job Run := do
  Job.log .module "Checking environment..."
  let tree ← Job.tree
  match run.options.input.filter tree.isDirectory with
  | none =>
    Job.complain s!"Error: Input directory not found: {shownInput run.options.input}"
    throw (.exit 1)
  | some input =>
    Job.log .module s!"Input directory: {input.render}"
    let some subdirectory := run.options.subdirectory | throw .noSubdirectory
    let destination := run.options.output.join (Path.ofString subdirectory)
    Job.change (·.makeDirectories destination)
    Job.log .module s!"Output directory: {destination.render}"
    return { run with ready := true, destination }

def runCollectSources (run : Run) : Job Run := do
  let some input := run.options.input | throw .noInput
  let glob ← Job.orStop .pattern (Glob.ofString run.options.pattern)
  let sources := glob.files (← Job.tree) input
  Job.log .summary
    s!"Found {sources.length} module(s) matching '{run.options.pattern}'"
  return { run with sources }

def fail (run : Run) (name : String) : Run :=
  { run with failures := run.failures ++ [name] }

def writeModule (run : Run) (source : List String) (expansion : Expansion) : Job Run := do
  let output := Glob.below run.destination source
  Job.change (·.makeDirectories { output with parts := output.parts.dropLast })
  Job.change (·.write output expansion.code.toUTF8)
  Job.log .detail s!"Wrote {output.render}"
  let summary : Summary :=
    ⟨expansion.changed, Trial.countExpanded expansion.outputs, expansion.aliases, output⟩
  return { run with results := run.results ++ [(nameOf source, summary)] }

def expandModule
    (settings : Settings)
    (registry : Registry)
    (run : Run)
    (source : List String) : Job Run := do
  let name := nameOf source
  let path := Glob.below (run.options.input.getD ⟨"", []⟩) source
  Job.log .module s!"Transforming {name}..."
  let trial := match (← Job.tree).read? path with
    | some bytes => Trial.ofBytes settings registry name bytes
    | none => ⟨[], .unreadable⟩
  Job.note trial.log
  match trial.verdict with
  | .unreadable =>
    Job.complain s!"Error reading {path.render}"
    return fail run name
  | .refused report =>
    Job.log .error s!"{name}: {Text.firstLine report}"
    Job.complain s!"Macro error: {report}"
    return fail run name
  | .stopped fault => throw (.module fault)
  | .expanded expansion => writeModule run source expansion

def runExpandModules (context : Context) (run : Run) : Job Run := do
  let settings := run.options.apply context.settings
  match context.registry (← Job.tree) settings with
  | .error fault =>
    match fault.message? with
    | some message =>
      Job.complain s!"Error: {message}"
      throw (.exit 1)
    | none => throw (.manifest fault)
  | .ok registry =>
    Job.log .module s!"Loaded {registry.describe}"
    run.sources.foldlM (expandModule settings registry) { run with results := [], failures := [] }

/-- What the log says in the end. -/
def closingEntries (run : Run) : List Log.Entry :=
  let changed := run.results.filter (·.2.changed)
  let expanded := run.results.foldl (fun total result => total + result.2.expanded) 0
  [⟨.summary, s!"Transformed {run.results.length} module(s), {changed.length} changed"⟩,
    ⟨.summary, s!"  Invocations expanded: {expanded}"⟩,
    ⟨.summary, s!"  Output: {run.destination.render}"⟩] ++
    changed.map fun result => ⟨.module, s!"    {result.1}: {result.2.expanded} expanded"⟩

/-- Reports on the run, which has failed if a module has. -/
def runReportResults (run : Run) : Job Run := do
  Job.note (closingEntries run)
  if run.failures.isEmpty then return run
  Job.complain s!"Error: {run.failures.length} module(s) failed:"
  run.failures.forM fun name => Job.complain s!"  {name}"
  throw (.exit 1)

def perform (context : Context) : Stage → Run → Job Run
  | .checkDirectories => runCheckDirectories
  | .collectSources => runCollectSources
  | .expandModules => runExpandModules context
  | .reportResults => runReportResults

end Stage

def perform (context : Context) (run : Run) : Job Run :=
  Stage.all.foldlM (fun run stage => stage.perform context run) run

end Restyle.Run
