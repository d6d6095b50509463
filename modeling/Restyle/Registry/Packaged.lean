import Restyle.FileTree
import Restyle.Registry
import Restyle.Settings.Reader
import Restyle.Text

/-!
Contract: which registry is in use.

Owns: `Registry.packaged`, the macros of the style runtime, in use when no
manifest is given; `Registry.ofFile`, the registry that a manifest file
describes; and `Registry.ofSettings`, the one that settings ask for.
-/

namespace Restyle.Registry

/-- A macro whose uses take content and which only import statements provide. -/
def contentMacro
    (name description : String)
    (shapes : List Shape)
    (examples : List String) : Spec where
  name := name
  description := .text description
  shapes := shapes
  runtimeExport := .text name
  requiresImport := .bool true
  inlinesNested := .bool false
  examples := examples.map .text

/-- A macro that is a plain value and which required modules provide too. -/
def valueMacro (name description : String) : Spec where
  name := name
  description := .text description
  shapes := [.bareValue]
  runtimeExport := .text name
  requiresImport := .bool false
  inlinesNested := .bool false
  examples := []

/-- The shapes of a macro that a block of style rules follows. -/
def styleShapes : List Shape :=
  [.taggedTemplate, .call, .bareValue]

/-- The macros of the style runtime. -/
def packaged : Registry where
  defaultExport := usualDefault
  specs :=
    [contentMacro "styled"
        "Styled component factory (styled.div`...`, styled('div')(\x7b...\x7d))"
        [.memberFactory, .bareValue]
        ["styled.div`display: flex;`", "styled('div')(\x7b display: 'flex' \x7d)"],
      { contentMacro "css" "Class name for a block of style rules" styleShapes
          ["css`color: blue;`", "css(\x7b display: 'flex' \x7d)"] with
        inlinesNested := .bool true },
      contentMacro "keyframes" "Animation name for a keyframes block" styleShapes
        ["keyframes`from \x7b opacity: 0; \x7d to \x7b opacity: 1; \x7d`"],
      contentMacro "fontFace" "Global @font-face rule" styleShapes
        ["fontFace`font-family: MyHelvetica;`"],
      contentMacro "injectGlobal" "Global style rules" styleShapes
        ["injectGlobal`body \x7b margin: 0; \x7d`"],
      valueMacro "hydrate" "Rehydrate server-rendered class names",
      valueMacro "flush" "Remove all injected styles"]

/-! ## Choice -/

def ofFile (tree : FileTree) (path : Path) : Except Fault Registry :=
  match tree.read? path with
  | some bytes =>
    match String.fromUTF8? bytes with
    | some text => ofManifestText path.render (Text.unifyNewlines text)
    | none => .error (.notText path.render)
  | none => .error (if tree.isDirectory path then .notFile path.render else .missing path.render)

def ofSettings (tree : FileTree) (settings : Settings) : Except Fault Registry :=
  match settings.manifest? with
  | some path => ofFile tree path
  | none => .ok packaged

end Restyle.Registry
