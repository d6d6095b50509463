import Restyle.Run
import Restyle.Run.Stage
import Restyle.Text

/-!
Contract: the command: what its arguments ask for, and what it does.

Owns: `CommandLine.Switch` with its spellings; `CommandLine.Word`, what one
argument is, and `CommandLine.words?`; `CommandLine.Request` and
`CommandLine.Request.ofArguments`; `CommandLine.Outcome` and
`CommandLine.execute`.

Whatever follows the first double hyphen is an operand.  Before it, an argument
that starts with a hyphen is a switch, unless it is a hyphen alone, a negative
number, or has a blank and spells no switch.  A long switch may be cut short as
long as one switch only begins like it, and may carry a value after an equals
sign.  Short switches may share a hyphen, and all after the first have to be
known then.

The words are taken from left to right.  The two operands that are no values of
switches are the input and the output directory.  Asking for the version or for
help ends the reading; unknown switches and further operands are refused only
when the end is reached.  A separator belongs to a directory beside it and is no
part of it, so that a directory that is itself spelled like a separator, and has
no other one beside it, has no name.  In the same way a switch that carries the
spelling of a separator has no value.

The output directory is made if it is not there, then the input directory is
looked for, and then all stages of the run are performed.
-/

namespace Restyle.CommandLine

/-- A switch that takes no value. -/
inductive Flag where
  | emitLocations
  | verbosity
  | saveInput
  | saveOutput
  | version
  | help
deriving DecidableEq, Repr

/-- A switch that takes a value. -/
inductive Field where
  | pattern
  | runtimeModule
  | subdirectory
deriving DecidableEq, Repr

/-- A switch. -/
inductive Switch where
  | flag (name : Flag)
  | field (name : Field)
deriving DecidableEq, Repr

/-- What an argument is.  A switch is misused if it takes no value and has one,
or shares its hyphen with an unknown one. -/
inductive Word where
  | operand (text : String)
  | separator
  | field (name : Field) (value : Option String)
  | flags (names : List Flag)
  | misused
  | unknown
deriving DecidableEq, Repr

def longSpellings : List (String × Switch) :=
  [("--help", .flag .help), ("--pattern", .field .pattern),
    ("--runtimeModule", .field .runtimeModule), ("--emitSourceLocations", .flag .emitLocations),
    ("--outputSubdir", .field .subdirectory), ("--verbosity", .flag .verbosity),
    ("--version", .flag .version), ("--saveinputmeta", .flag .saveInput),
    ("--saveoutputmeta", .flag .saveOutput)]

/-- The short spellings of flags, without their hyphen. -/
def shortSpellings : List (Char × Flag) :=
  [('h', .help), ('v', .verbosity), ('V', .version)]

/-- The word of a switch in its long spelling, with the value it carries. -/
def Word.ofSwitch : Switch → Option String → Word
  | .field name, value => .field name value
  | .flag name, none => .flags [name]
  | .flag _, some _ => .misused

/-- The word of a short switch and the letters that share its hyphen, which an
equals sign may set apart from it. -/
def Word.ofLetters (first : Flag) (letters : List Char) : Word :=
  if letters = ['='] then .misused
  else
    let others := if letters.head? = some '=' then letters.drop 1 else letters
    match others.mapM fun letter => shortSpellings.lookup letter with
    | some names => .flags (first :: names)
    | none => .misused

/-- Whether characters spell a number without a sign: digits, with or without a
point and digits after it.  A line feed at the end does not count. -/
def isNumber (text : List Char) : Bool :=
  let text := if text.getLast? = some '\n' then text.dropLast else text
  match text.dropWhile Text.isDigit with
  | [] => !text.isEmpty
  | '.' :: decimals => !decimals.isEmpty && decimals.all Text.isDigit
  | _ => false

/-- What an argument is that spells no switch. -/
def Word.ofOther (text : String) (afterHyphen : List Char) : Word :=
  if isNumber afterHyphen || text.toList.contains ' ' then .operand text else .unknown

def cutEquals (text : List Char) : List Char × Option String :=
  match text.dropWhile (· ≠ '=') with
  | [] => (text, none)
  | _ :: value => (text.takeWhile (· ≠ '='), some (String.ofList value))

/-- What an argument with two hyphens is, or nothing if it begins more than one
switch. -/
def Word.ofLong? (text : String) : Option Word :=
  let (name, value) := cutEquals text.toList
  match longSpellings.lookup (String.ofList name) with
  | some switch => some (.ofSwitch switch value)
  | none =>
    match longSpellings.filter fun entry => name.isPrefixOf entry.1.toList with
    | [] => some (.ofOther text (text.toList.drop 1))
    | [entry] => some (.ofSwitch entry.2 value)
    | _ => none

/-- What an argument is that starts with one hyphen and a letter. -/
def Word.ofShort (text : String) (letter : Char) (others : List Char) : Word :=
  match shortSpellings.lookup letter with
  | some flag => .ofLetters flag others
  | none => .ofOther text (letter :: others)

/-- What an argument is, the separator apart. -/
def Word.ofString? (text : String) : Option Word :=
  match text.toList with
  | '-' :: '-' :: _ => Word.ofLong? text
  | '-' :: letter :: rest => some (.ofShort text letter rest)
  | _ => some (.operand text)

/-- What the arguments are, or nothing if one of them begins more than one
switch. -/
def words? : List String → Option (List Word)
  | [] => some []
  | "--" :: rest => some (.separator :: rest.map .operand)
  | text :: rest => do
    let word ← Word.ofString? text
    return word :: (← words? rest)

/-! ## Requests -/

/-- What a command asks for.  It is refused if its words do not fit together,
and nameless if a directory has no name. -/
inductive Request where
  | run (options : Run.Options)
  | version
  | help
  | refused
  | nameless
deriving DecidableEq, Repr

/-- What has been read of a command. -/
structure Draft where
  options : Run.Options := { input := none, output := ⟨"", []⟩ }
  /-- The directories, at most two, with the names they have. -/
  directories : List (Option String) := []
  /-- Whether there are words that have no place. -/
  hasSurplus : Bool := false

namespace Draft

def isFull (draft : Draft) : Bool :=
  2 ≤ draft.directories.length

/-- The draft with a word that may have a place or not. -/
def takeOperand (draft : Draft) (name : Option String) : Draft :=
  if draft.isFull then { draft with hasSurplus := true }
  else { draft with directories := draft.directories ++ [name] }

/-- The draft with a word that has no place. -/
def withSurplus (draft : Draft) : Draft :=
  { draft with hasSurplus := true }

/-- The draft with a value, or with none.  No pattern counts as an empty one. -/
def setField (draft : Draft) (name : Field) (value : Option String) : Draft :=
  { draft with
    options := match name with
      | .pattern => { draft.options with pattern := value.getD "" }
      | .runtimeModule => { draft.options with runtimeModule := value }
      | .subdirectory => { draft.options with subdirectory := value } }

/-- The draft with a flag, or the request that it makes at once. -/
def setFlag (draft : Draft) : Flag → Except Request Draft
  | .emitLocations => .ok { draft with options := { draft.options with emitLocations := true } }
  | .verbosity =>
    .ok { draft with
      options := { draft.options with verbosity := draft.options.verbosity + 1 } }
  | .saveInput => .ok draft
  | .saveOutput => .ok draft
  | .version => .error .version
  | .help => .error .help

def request (draft : Draft) : Request :=
  match draft.hasSurplus, draft.directories with
  | false, [some input, some output] =>
    .run { draft.options with
      input := some (Path.ofString input)
      output := Path.ofString output }
  | false, [_, _] => .nameless
  | _, _ => .refused

end Draft

namespace Request

def separatorText : String :=
  "--"

/-- What a text names; the spelling of a separator names nothing. -/
def named? (text : String) : Option String :=
  if text = separatorText then none else some text

def ofWords : List Word → Draft → Request
  | [], draft => draft.request
  | .operand text :: .separator :: rest, draft => ofWords rest (draft.takeOperand (some text))
  | .operand text :: rest, draft =>
    ofWords rest (draft.takeOperand (named? text))
  | .separator :: .operand text :: rest, draft => ofWords rest (draft.takeOperand (some text))
  | .separator :: rest, draft => ofWords rest draft.withSurplus
  | .field name (some value) :: rest, draft =>
    ofWords rest (draft.setField name (named? value))
  | .field name none :: .operand value :: rest, draft =>
    ofWords rest (draft.setField name (some value))
  | .field _ none :: _, _ => .refused
  | .flags names :: rest, draft =>
    match names.foldlM Draft.setFlag draft with
    | .ok draft => ofWords rest draft
    | .error ended => ended
  | .misused :: _, _ => .refused
  | .unknown :: rest, draft => ofWords rest draft.withSurplus

def ofArguments (arguments : List String) : Request :=
  match words? arguments with
  | some words => ofWords words {}
  | none => .refused

end Request

/-! ## Execution -/

/-- How a command ends: with an exit code, because its arguments are refused or
name no directory, or because the run cannot go on. -/
inductive Ending where
  | exit (code : Nat)
  | refused
  | nameless
  | broken (stop : Run.Stop)

/-- How a command ends, what it writes to the standard output stream, and what
else it has done.  The log is shown at this verbosity. -/
structure Outcome where
  ending : Ending
  output : String := ""
  world : Run.World
  verbosity : Int := 1

def Ending.code : Ending → Nat
  | .exit code => code
  | .refused => 2
  | .nameless => 1
  | .broken _ => 1

def Outcome.log (outcome : Outcome) : List String :=
  Log.shown outcome.verbosity outcome.world.log

def versionText : String :=
  "stylemacro 1.0.0\n"

def helpText : String :=
  "usage: stylemacro [switches] inputdir outputdir\n\n" ++
    "  --pattern PATTERN        selects the modules under inputdir\n" ++
    "  --runtimeModule MODULE   where the runtime is imported from\n" ++
    "  --emitSourceLocations    add the place of each use\n" ++
    "  --outputSubdir PATH      where to write, seen from outputdir\n" ++
    "  -v, --verbosity          say more\n" ++
    "  -V, --version            show the version\n" ++
    "  -h, --help               show this text\n"

/-- Ends the run unless a path leads to a directory. -/
def requireDirectory (path : Path) : Run.Job Unit := do
  if !(← Run.Job.tree).isDirectory path then
    Run.Job.complain s!"Not a directory: {path.render}"
    throw (.exit 1)

/-- Makes the output directory, if nothing is there, and looks for both. -/
def prepare (options : Run.Options) : Run.Job Unit := do
  if !(← Run.Job.tree).isAny options.output then
    Run.Job.change (·.createDirectories options.output)
  requireDirectory options.output
  options.input.forM requireDirectory

def execute (context : Run.Context) (tree : FileTree) (arguments : List String) : Outcome :=
  match Request.ofArguments arguments with
  | .run options =>
    let job := do
      prepare options
      Run.perform context { options }
    let (result, world) := job.run { tree }
    let ending := match result with
      | .ok _ => .exit 0
      | .error (.exit code) => .exit code
      | .error stop => .broken stop
    { ending, world, verbosity := options.verbosity }
  | .version => { ending := .exit 0, output := versionText, world := { tree } }
  | .help => { ending := .exit 0, output := helpText, world := { tree } }
  | .refused => { ending := .refused, world := { tree } }
  | .nameless => { ending := .nameless, world := { tree } }

end Restyle.CommandLine
