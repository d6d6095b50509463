import Restyle.Expansion
import Restyle.Glob
import Restyle.Registry.Packaged

/-!
Contract: a run over the modules of a directory.

Owns: `Log.Entry`, a message with its level, which entries are shown at a
verbosity, and how they are written; `Run.Options`, what is asked for; `Run`,
how far a run has come; `Run.World`, what it has done; `Run.Stop`, why it can end
early; and `Run.Job`, the computations it consists of.

Does not own: what happens to one module and the stages (`Run.Stage`).

Verbosity one shows the summary of a run, two also what happens to each module,
and three also every expanded use and every written file.  Errors are always
shown.
-/

namespace Restyle.Log

/-- What a message is about. -/
inductive Level where
  | error
  | summary
  | module
  | detail
deriving DecidableEq, Repr

/-- A message of a run. -/
structure Entry where
  level : Level
  message : String
deriving DecidableEq, Repr

def Level.isShown (verbosity : Int) : Level → Bool
  | .error => true
  | .summary => 1 ≤ verbosity
  | .module => 2 ≤ verbosity
  | .detail => 3 ≤ verbosity

def Level.word : Level → String
  | .error => "ERROR"
  | _ => "DEBUG"

def Entry.render (entry : Entry) : String :=
  entry.level.word ++ " " ++ entry.message

def shown (verbosity : Int) (entries : List Entry) : List String :=
  (entries.filter (·.level.isShown verbosity)).map Entry.render

end Restyle.Log

/-! ## Runs -/

namespace Restyle

/-- What is asked for: where modules are read and written, which ones, and how
they are expanded. -/
structure Run.Options where
  input : Option Path
  output : Path
  /-- Selects the modules under the input directory. -/
  pattern : String := "**/*.js"
  /-- Where modules are written, seen from the output directory. -/
  subdirectory : Option String := some "."
  /-- The runtime module to be used instead of the configured one. -/
  runtimeModule : Option String := none
  /-- Whether calls carry the place of the use, even if not so configured. -/
  emitLocations : Bool := false
  verbosity : Int := 1
deriving DecidableEq, Repr

/-- What is reported of a written module. -/
structure Run.Summary where
  changed : Bool
  /-- How many uses were expanded. -/
  expanded : Nat
  aliases : List (Value × String)
  output : Path

/-- How far a run has come.  Modules are named by the way to them from the input
directory. -/
structure Run where
  options : Run.Options
  /-- Whether the directories have been found in order. -/
  ready : Bool := false
  /-- Where modules are written. -/
  destination : Path := ⟨"/", []⟩
  /-- The selected modules. -/
  sources : List (List String) := []
  /-- The modules written, with their summaries. -/
  results : List (String × Run.Summary) := []
  /-- The modules that could not be read or expanded. -/
  failures : List String := []

/-- What a run has done: files as they are now, its log, and the lines it has
written to the standard error stream. -/
structure Run.World where
  tree : FileTree
  log : List Log.Entry := []
  complaints : List String := []

/-- What a run depends on besides its options: the settings, and a manifest in
place of the one that they name. -/
structure Run.Context where
  settings : Settings := {}
  manifest : Option Value := none

/-- Why a run ends early: with an exit code of its own, or because it cannot go
on. -/
inductive Run.Stop where
  | exit (code : Nat)
  | noInput
  | noSubdirectory
  | pattern (fault : Glob.Fault)
  | manifest (fault : Registry.Fault)
  | module (fault : Fault)
  | file (obstacle : FileTree.Obstacle)

/-- A part of a run.  What has been done stays done when it ends early. -/
abbrev Run.Job := ExceptT Run.Stop (StateM Run.World)

namespace Run

def Context.registry
    (context : Context)
    (tree : FileTree)
    (settings : Settings) : Except Registry.Fault Registry :=
  match context.manifest with
  | some manifest => Registry.ofManifest Settings.packagedManifest manifest
  | none => Registry.ofSettings tree settings

/-- The settings for a run: those configured, as far as the options leave them. -/
def Options.apply (options : Options) (settings : Settings) : Settings :=
  { settings with
    runtimeModule := (options.runtimeModule.filter (· ≠ "")).getD settings.runtimeModule
    emitLocations := options.emitLocations || settings.emitLocations }

/-- How a path is shown that may be missing. -/
def shownInput : Option Path → String
  | some path => path.render
  | none => "None"

def nameOf (way : List String) : String :=
  Path.render ⟨"", way⟩

namespace Job

def note (entries : List Log.Entry) : Job Unit :=
  modify fun world => { world with log := world.log ++ entries }

def log (level : Log.Level) (message : String) : Job Unit :=
  note [⟨level, message⟩]

def complain (text : String) : Job Unit :=
  modify fun world =>
    { world with
      complaints :=
        world.complaints ++ (splitWhere (· = '\n') text.toList).map String.ofList }

def tree : Job FileTree :=
  return (← get).tree

/-- Changes files, or ends the run at an obstacle. -/
def change (action : FileTree → Except FileTree.Obstacle FileTree) : Job Unit := do
  match action (← tree) with
  | .ok tree => modify fun world => { world with tree }
  | .error obstacle => throw (.file obstacle)

/-- A result, or the end of the run. -/
def orStop {ε α : Type} (stop : ε → Stop) : Except ε α → Job α
  | .ok value => return value
  | .error fault => throw (stop fault)

end Job

end Run

end Restyle
