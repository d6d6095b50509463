import Restyle.Split

/-!
Contract: files and directories, and the paths that lead to them.

Owns: `Path`, reading and showing one, joining two, and the order of paths by
their components; `FileTree`, the directories and files with a working
directory; finding, reading and listing by path; making directories and writing
files, with the `FileTree.Obstacle` that prevents it.

A path has a normal form: empty components and single points mean nothing and
are dropped, double points are kept, and exactly two leading slashes are a root
of their own.  It is followed name by name through directories that exist; a
double point leads to the directory above, and from the topmost one to itself.

Does not own: links, permissions and times, which it does not know.
-/

namespace Restyle

/-- A path: what it starts from (nothing, `/` or `//`) and its components. -/
structure Path where
  root : String
  parts : List String
deriving DecidableEq, Repr

namespace Path

def partsOf (text : String) : List String :=
  ((splitWhere (· = '/') text.toList).map String.ofList).filter fun part => part ≠ "" && part ≠ "."

def ofString (text : String) : Path where
  root :=
    match (text.toList.takeWhile (· = '/')).length with
    | 0 => ""
    | 2 => "//"
    | _ => "/"
  parts := partsOf text

/-- The spelling of a path; a path without components is a single point. -/
def render (path : Path) : String :=
  let text := path.root ++ "/".intercalate path.parts
  if text.isEmpty then "." else text

def name (path : Path) : String :=
  path.parts.getLastD ""

def isAbsolute (path : Path) : Bool :=
  path.root ≠ ""

def join (base path : Path) : Path :=
  if path.isAbsolute then path else { base with parts := base.parts ++ path.parts }

def partsLe : List String → List String → Bool
  | [], _ => true
  | _ :: _, [] => false
  | left :: lefts, right :: rights =>
    left < right || left = right && partsLe lefts rights

end Path

/-! ## Trees -/

/-- The names on the way from the topmost directory to a file or directory. -/
abbrev FileTree.Place := List String

/-- Directories and files by place, and where relative paths start. -/
structure FileTree where
  current : FileTree.Place
  directories : List FileTree.Place
  files : List (FileTree.Place × ByteArray)

/-- Why a path cannot be followed, or nothing be put there: a directory on the
way is missing, a file is in the way, there is a file or a directory already, or
a name is none. -/
inductive FileTree.Obstacle where
  | missing
  | notDirectory
  | occupied
  | isDirectory
  | invalidName
deriving DecidableEq, Repr

namespace FileTree

/-- A place and all places above it, the topmost first. -/
def above (place : Place) : List Place :=
  (List.range (place.length + 1)).map fun count => place.take count

def hasDirectory (tree : FileTree) (place : Place) : Bool :=
  tree.directories.contains place

def contents? (tree : FileTree) (place : Place) : Option ByteArray :=
  tree.files.lookup place

/-- The tree with a directory and all directories above it. -/
def withDirectory (tree : FileTree) (place : Place) : FileTree :=
  { tree with
    directories := tree.directories ++ (above place).filter fun other => !tree.hasDirectory other }

def putIn (place : Place) (bytes : ByteArray) :
    List (Place × ByteArray) → List (Place × ByteArray)
  | [] => [(place, bytes)]
  | file :: rest =>
    if file.1 = place then (place, bytes) :: rest else file :: putIn place bytes rest

def put (tree : FileTree) (place : Place) (bytes : ByteArray) : FileTree :=
  { tree with files := putIn place bytes tree.files }

/-- The tree with a file and all directories above it. -/
def withFile (tree : FileTree) (place : Place) (bytes : ByteArray) : FileTree :=
  (tree.withDirectory place.dropLast).put place bytes

def ofCurrent (current : Place) : FileTree :=
  ⟨current, above current, []⟩

/-! ## Following paths -/

def origin (tree : FileTree) (path : Path) : Place :=
  if path.isAbsolute then [] else tree.current

def step (place : Place) (name : String) : Place :=
  if name = ".." then place.dropLast else place ++ [name]

def walk (tree : FileTree) : Place → List String → Except Obstacle Place
  | place, [] => .ok place
  | place, name :: rest =>
    let next := step place name
    if tree.hasDirectory next then walk tree next rest
    else if (tree.contents? next).isSome then .error .notDirectory
    else .error .missing

/-- The place that a path leads to, where there may be nothing yet. -/
def place (tree : FileTree) (path : Path) : Except Obstacle Place := do
  let directory ← tree.walk (tree.origin path) path.parts.dropLast
  match path.parts.getLast? with
  | some name => return step directory name
  | none => return directory

def isDirectory (tree : FileTree) (path : Path) : Bool :=
  match tree.place path with
  | .ok place => tree.hasDirectory place
  | .error _ => false

def read? (tree : FileTree) (path : Path) : Option ByteArray :=
  match tree.place path with
  | .ok place => tree.contents? place
  | .error _ => none

def isFile (tree : FileTree) (path : Path) : Bool :=
  (tree.read? path).isSome

def isAny (tree : FileTree) (path : Path) : Bool :=
  tree.isDirectory path || tree.isFile path

/-! ## Listing -/

def childName? (directory place : Place) : Option String :=
  if place.dropLast = directory then place.getLast? else none

def names (tree : FileTree) (path : Path) : List String :=
  match tree.place path with
  | .ok place => (tree.directories ++ tree.files.map (·.1)).filterMap (childName? place)
  | .error _ => []

/-- The way from one place to another one at or below it. -/
def wayDown? (start place : Place) : Option (List String) :=
  if start.isPrefixOf place then some (place.drop start.length) else none

/-- The ways from the directory that a path leads to down to all directories
under it, itself included. -/
def directoriesUnder (tree : FileTree) (path : Path) : List (List String) :=
  match tree.place path with
  | .ok place => tree.directories.filterMap (wayDown? place)
  | .error _ => []

/-- The files under the directory that a path leads to, with the ways to them. -/
def filesUnder (tree : FileTree) (path : Path) : List (List String × ByteArray) :=
  match tree.place path with
  | .ok place => tree.files.filterMap fun file => (wayDown? place file.1).map (·, file.2)
  | .error _ => []

/-! ## Making and writing -/

/-- The tree with a new directory where a path leads to.  The directory above it
must exist, and nothing may be there. -/
def createDirectory (tree : FileTree) (path : Path) : Except Obstacle FileTree := do
  let place ← tree.place path
  if tree.hasDirectory place || (tree.contents? place).isSome then throw .occupied
  return { tree with directories := tree.directories ++ [place] }

/-- The tree with the directory that a path leads to, new if it is not there. -/
def makeDirectory (tree : FileTree) (path : Path) : Except Obstacle FileTree := do
  let place ← tree.place path
  if tree.hasDirectory place then return tree
  tree.createDirectory path

/-- The tree with a directory and, where they are missing, those before it on
the path.  The names come last first. -/
def makeWay (root : String) : List String → FileTree → Except Obstacle FileTree
  | [], tree => .ok tree
  | name :: before, tree =>
    let path : Path := ⟨root, (name :: before).reverse⟩
    match tree.makeDirectory path with
    | .error .missing => do
      let tree ← makeWay root before tree
      tree.makeDirectory path
    | result => result

def hasInvalidName (path : Path) : Bool :=
  path.parts.any fun name => name.toList.contains '\x00'

def makeDirectories (tree : FileTree) (path : Path) : Except Obstacle FileTree :=
  if hasInvalidName path then .error .invalidName
  else makeWay path.root path.parts.reverse tree

/-- The tree with the directory that a path spells and those on the way, of which
the last has to be new. -/
def createDirectories (tree : FileTree) (path : Path) : Except Obstacle FileTree :=
  if hasInvalidName path then .error .invalidName
  else
    match tree.createDirectory path with
    | .error .missing => do
      let tree ← makeWay path.root path.parts.dropLast.reverse tree
      tree.createDirectory path
    | result => result

/-- The tree with a file written.  Its directory must exist. -/
def write (tree : FileTree) (path : Path) (bytes : ByteArray) : Except Obstacle FileTree := do
  let place ← tree.place path
  if tree.hasDirectory place then throw .isDirectory
  return tree.put place bytes

/-! ## What is written can be read -/

private theorem lookup_putIn
    (place other : Place)
    (bytes : ByteArray)
    (files : List (Place × ByteArray)) :
    (putIn place bytes files).lookup other =
      if other = place then some bytes else files.lookup other := by
  induction files with
  | nil =>
    by_cases same : other = place
    · simp [putIn, same]
    · simp [putIn, List.lookup_cons, same, beq_eq_false_iff_ne.mpr same]
  | cons file rest inductionHypothesis =>
    obtain ⟨name, old⟩ := file
    by_cases found : name = place
    · subst found
      by_cases same : other = name
      · simp [putIn, same]
      · simp [putIn, List.lookup_cons, same, beq_eq_false_iff_ne.mpr same]
    · by_cases reached : other = name
      · simp [putIn, reached, found]
      · simp [putIn, List.lookup_cons, found, beq_eq_false_iff_ne.mpr reached,
          inductionHypothesis]

/-- A file that is put is there, and the others stay as they are. -/
@[simp]
theorem contents?_put (tree : FileTree) (place other : Place) (bytes : ByteArray) :
    (tree.put place bytes).contents? other =
      if other = place then some bytes else tree.contents? other :=
  lookup_putIn place other bytes tree.files

end FileTree

end Restyle
