import Restyle.Text

/-!
Contract: what can be configured.

Owns: `Settings` with their defaults, the test for paths of the macro module,
and the placeholders that stand for slots in joined text.

Does not own: settings given as dynamic values (`Settings.Reader`).
-/

namespace Restyle

/-- The configuration of an expansion. -/
structure Settings where
  /-- Paths with one of these endings name the macro module. -/
  macroSuffixes : List String := ["/macro"]
  /-- A manifest to be used instead of the packaged one. -/
  macroManifest : Option String := none
  /-- The module from which the runtime is imported. -/
  runtimeModule : String := "emotion"
  /-- What the local names of runtime exports begin with. -/
  aliasHead : String := "_"
  /-- Whether calls carry the name of the declaration around them. -/
  emitLabels : Bool := true
  /-- Whether calls carry the place of the use. -/
  emitLocations : Bool := false
  /-- What a placeholder begins with. -/
  placeholderHead : String := "\x00SLOT_"
  /-- What a placeholder ends with. -/
  placeholderTail : String := "\x00"
deriving DecidableEq, Repr

namespace Settings

/-- Endings of file names that a path of the macro module may carry. -/
def sourceExtensions : List String :=
  [".js", ".mjs", ".cjs", ".jsx", ".ts", ".tsx"]

def dropExtension (path : String) : String :=
  match sourceExtensions.find? fun ending => Text.hasTail path ending with
  | some ending => String.ofList (path.toList.take (path.length - ending.length))
  | none => path

/-- Whether a path names the macro module: without its source extension it has
one of the suffixes, or is a suffix without its leading slashes. -/
def isMacroPath (settings : Settings) (path : String) : Bool :=
  let path := dropExtension path
  settings.macroSuffixes.any fun suffix =>
    Text.hasTail path suffix || path = String.ofList (suffix.toList.dropWhile (· = '/'))

def placeholder (settings : Settings) (slot : Int) : String :=
  settings.placeholderHead ++ Text.decimal slot ++ settings.placeholderTail

/-- The slot that a text is the placeholder of.  The text between head and tail
may be empty or cut short where they overlap; without a tail nothing is left
between them. -/
def slotOf? (settings : Settings) (text : String) : Option Int :=
  if Text.hasHead text settings.placeholderHead && Text.hasTail text settings.placeholderTail then
    let stop :=
      if settings.placeholderTail.isEmpty then 0
      else text.length - settings.placeholderTail.length
    Text.readInteger? (Text.cut text settings.placeholderHead.length stop)
  else none

end Settings

end Restyle
