import Restyle.FileTree

/-!
Contract: patterns for the paths of files.

Owns: `Glob.Name`, a pattern for one name as a list of atoms, and the names that
it accepts; `Glob`, a pattern for paths as a list of components; `Glob.Fault`,
why a text is no pattern; `Glob.ofString`; and `Glob.files`, the files that a
pattern selects under a directory, in the order of their components.

In the pattern of a name a star stands for any text, a question mark for any
character, and brackets for one character of a class.  A class lists characters
and ranges; an exclamation mark in front makes it the class of all others.  A
closing bracket in front belongs to the class, and brackets that are not closed
stand for themselves.  Ranges that run backwards are left out.

A component is a fixed name, a pattern for a name, or a pair of stars for any
number of directories.  A fixed name may be a double point, and then stands so in
the paths found.  A slash at the end selects directories only.
-/

namespace Restyle.Glob

/-- A member of a class: one character, or all from one to another. -/
inductive Member where
  | single (expected : Char)
  | range (low high : Char)
deriving DecidableEq, Repr

/-- A part of a pattern. -/
inductive Atom where
  | fixed (expected : Char)
  | anyChar
  | anyText
  | oneOf (members : List Member)
  | noneOf (members : List Member)
deriving DecidableEq, Repr

abbrev Name := List Atom

def Member.accepts : Member → Char → Bool
  | .single expected, c => c = expected
  | .range low high, c => low ≤ c && c ≤ high

def Atom.accepts : Atom → Char → Bool
  | .fixed expected, c => c = expected
  | .anyChar, _ => true
  | .anyText, _ => true
  | .oneOf members, c => members.any (·.accepts c)
  | .noneOf members, c => !members.any (·.accepts c)

namespace Name

/-! ## Reading -/

/-- The members that a class lists.  A hyphen between two characters makes a
range of them, unless the first one already ends a range. -/
def members : List Char → List Member
  | low :: '-' :: high :: rest => .range low high :: members rest
  | c :: rest => .single c :: members rest
  | [] => []

/-- Whether a member is no range that runs backwards. -/
def isForward : Member → Bool
  | .single _ => true
  | .range low high => low ≤ high

/-- The atom of a class.  An exclamation mark that comes first only when ranges
have been left out negates the class as well, and what it started as a range is
then two members and a hyphen. -/
def classAtom (body : List Char) : Atom :=
  match body with
  | '!' :: rest => .noneOf ((members rest).filter isForward)
  | _ =>
    match (members body).filter isForward with
    | .single '!' :: others => .noneOf others
    | .range '!' high :: others => .noneOf (.single '-' :: .single high :: others)
    | listed => .oneOf listed

/-- How many characters at the front of a class cannot close it. -/
def classFront : List Char → Nat
  | '!' :: ']' :: _ => 2
  | '!' :: _ => 1
  | ']' :: _ => 1
  | _ => 0

/-- What stands in brackets, and what comes after them. -/
def cutClass? (text : List Char) : Option (List Char × List Char) :=
  let front := classFront text
  match (text.drop front).dropWhile (· ≠ ']') with
  | [] => none
  | _ :: rest => some (text.take front ++ (text.drop front).takeWhile (· ≠ ']'), rest)

private theorem length_lt_of_cutClass?
    {text body rest : List Char}
    (found : cutClass? text = some (body, rest)) :
    rest.length < text.length := by
  have bound := (List.dropWhile_suffix (l := text.drop (classFront text)) (· ≠ ']')).length_le
  simp only [cutClass?] at found
  split at found
  · cases found
  · next first others shape =>
    obtain ⟨-, rfl⟩ := Prod.mk.inj (Option.some.inj found)
    rw [shape] at bound
    simp only [List.length_cons, List.length_drop] at bound
    omega

def ofChars : List Char → Name
  | [] => []
  | '*' :: rest => .anyText :: ofChars rest
  | '?' :: rest => .anyChar :: ofChars rest
  | '[' :: rest =>
    match found : cutClass? rest with
    | some (body, after) =>
      have := length_lt_of_cutClass? found
      classAtom body :: ofChars after
    | none => .fixed '[' :: ofChars rest
  | c :: rest => .fixed c :: ofChars rest
termination_by text => text.length

/-! ## Accepting -/

def acceptsChars : Name → List Char → Bool
  | [], text => text.isEmpty
  | .anyText :: rest, [] => acceptsChars rest []
  | .anyText :: rest, c :: text =>
    acceptsChars rest (c :: text) || acceptsChars (.anyText :: rest) text
  | _ :: _, [] => false
  | atom :: rest, c :: text => atom.accepts c && acceptsChars rest text
termination_by pattern text => (pattern.length, text.length)

def accepts (pattern : Name) (name : String) : Bool :=
  acceptsChars pattern name.toList

end Name

end Restyle.Glob

/-! ## Paths -/

namespace Restyle

/-- A component of a pattern. -/
inductive Glob.Component where
  | fixed (name : String)
  | fitting (pattern : Glob.Name)
  | anyDepth
deriving DecidableEq, Repr

/-- A pattern for paths.  The last component selects directories only, if so
marked. -/
structure Glob where
  components : List Glob.Component
  directoriesOnly : Bool
deriving DecidableEq, Repr

/-- Why a text is no pattern: it is empty, starts at a root, has no component
(with or without a slash at its end), or has a pair of stars beside other
characters. -/
inductive Glob.Fault where
  | empty
  | absolute
  | noComponent
  | noComponentSlash
  | starsInName (component : String)
deriving DecidableEq, Repr

namespace Glob

def hasTwoStars : List Char → Bool
  | '*' :: '*' :: _ => true
  | _ :: rest => hasTwoStars rest
  | [] => false

def Component.ofString (text : String) : Except Fault Component :=
  if text = "**" then .ok .anyDepth
  else if hasTwoStars text.toList then .error (.starsInName text)
  else if text.toList.any fun c => c = '*' || c = '?' || c = '[' then
    .ok (.fitting (Name.ofChars text.toList))
  else .ok (.fixed text)

def ofString (text : String) : Except Fault Glob := do
  if text.isEmpty then throw .empty
  let path := Path.ofString text
  if path.isAbsolute then throw .absolute
  let directoriesOnly := text.toList.getLast? = some '/'
  if path.parts.isEmpty then throw (if directoriesOnly then .noComponentSlash else .noComponent)
  let components ← path.parts.mapM Component.ofString
  return ⟨components, directoriesOnly⟩

def below (base : Path) (way : List String) : Path :=
  { base with parts := base.parts ++ way }

/-- The ways that components select, from what has been gone already.  What is
not the end of the way must be a directory. -/
def ways
    (tree : FileTree)
    (base : Path)
    (directoriesOnly : Bool) : List Component → List String → List (List String)
  | [], gone => [gone]
  | .fixed name :: rest, gone =>
    let path := below base (gone ++ [name])
    let isThere :=
      if directoriesOnly || !rest.isEmpty then tree.isDirectory path else tree.isAny path
    if isThere then ways tree base directoriesOnly rest (gone ++ [name]) else []
  | .fitting pattern :: rest, gone =>
    let isOpen (name : String) : Bool :=
      !(directoriesOnly || !rest.isEmpty) || tree.isDirectory (below base (gone ++ [name]))
    ((tree.names (below base gone)).filter fun name => pattern.accepts name && isOpen name).flatMap
      fun name => ways tree base directoriesOnly rest (gone ++ [name])
  | .anyDepth :: rest, gone =>
    ((tree.directoriesUnder (below base gone)).flatMap fun way =>
      ways tree base directoriesOnly rest (gone ++ way)).eraseDups

def files (glob : Glob) (tree : FileTree) (base : Path) : List (List String) :=
  if tree.isDirectory base then
    ((ways tree base glob.directoriesOnly glob.components []).filter fun way =>
      tree.isFile (below base way)).mergeSort Path.partsLe
  else []

end Glob

end Restyle
