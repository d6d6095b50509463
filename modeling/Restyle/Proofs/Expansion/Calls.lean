import Restyle.Proofs.Expansion.Accounts
import Restyle.Proofs.Expansion.Complete
import Restyle.Proofs.Expansion.Faults
import Restyle.Proofs.Expansion.RuntimeImport
import Restyle.Registry.Packaged

/-!
Contract: a generated call is a complete call.

Owns: that the aliases of the packaged macros are identifiers; `Token.IsCall`,
tokens that are a name and its whole argument list; and that the code of every
output with content is read as such a call, where the expressions copied into it
are complete in themselves and end in no line comment.
-/

namespace Restyle

open Token Lexeme Restyle.Bracket

/-! ## Aliases of the packaged macros -/

namespace Expansion

/-- The macro that a use of an expansion calls is one of the registry's. -/
theorem Written.described
    {settings : Settings}
    {registry : Registry}
    {filename : String}
    {module : Module}
    {expansion : Expansion}
    {uses : List Use}
    {topmost : List Output}
    {progress : Output.Progress}
    (written : Written settings registry filename module expansion uses topmost progress)
    {output : Output}
    (isOutput : output ∈ expansion.outputs) :
    output.use.Described (scopeOf settings registry module) := by
  have isUse : output.use ∈ usesOf (scopeOf settings registry module) expansion.outputs :=
    List.mem_append_left _ (List.mem_map_of_mem isOutput)
  obtain ⟨-, site, length, found, -⟩ := written.found isUse
  have within := Use.within_roleAt found.isBound site
  rw [found.hasRole] at within
  exact within.of_ok

/-- The runtime exports of the packaged macros are spelled with characters that may
continue a name. -/
theorem packaged_spelled :
    ∀ spec ∈ Registry.packaged.specs, ∀ c ∈ spec.runtimeExport.display.toList,
      Text.isIdentifierPart c := by
  have spelled : ∀ spec ∈ Registry.packaged.specs,
      spec.runtimeExport.display.toList.all Text.isIdentifierPart := by
    decide +kernel
  intro spec isListed
  exact List.all_eq_true.mp (spelled spec isListed)

section Written

variable
  {settings : Settings}
  {filename : String}
  {module : Module}
  {expansion : Expansion}
  {uses : List Use}
  {topmost : List Output}
  {progress : Output.Progress}

/-- An alias is given for the runtime export of a packaged macro. -/
theorem Written.exists_export
    (written : Written settings Registry.packaged filename module expansion uses topmost progress)
    {entry : Value × String}
    (isGiven : entry ∈ progress.aliases.names) :
    ∃ spec ∈ Registry.packaged.specs, spec.runtimeExport = entry.1 := by
  obtain ⟨caller, isCaller, called⟩ := written.listed.isCalled entry isGiven
  obtain ⟨spec, isSpec, isExport⟩ := Option.map_eq_some_iff.mp called.isExport
  refine ⟨spec, written.described isCaller spec ?_, isExport⟩
  have notLeftAlone := called.notLeftAlone
  cases isRole : caller.use.role with
  | passThrough => simp [Output.isPassThrough, Use.isPassThrough, isRole] at notLeftAlone
  | bareValue => simpa [Use.spec?, isRole, Use.Role.callee?] using isSpec
  | invocation => simpa [Use.spec?, isRole, Use.Role.callee?] using isSpec

/-- With an underscore for their head the aliases of the packaged macros are names. -/
theorem Written.isName_of_entry
    (written : Written settings Registry.packaged filename module expansion uses topmost progress)
    (isHead : settings.aliasHead = "_")
    {entry : Value × String}
    (isGiven : entry ∈ progress.aliases.names) :
    Output.isName entry.2 := by
  have areFresh : progress.aliases.Fresh settings.aliasHead :=
    (Output.usesYield_of_gives written.gives).relates (Output.kept_fresh _ _)
      (by simp [Aliases.Fresh, initialProgress, Aliases.ofTaken])
  obtain ⟨spec, isListed, isExport⟩ := written.exists_export isGiven
  obtain ⟨taken, isFresh⟩ := areFresh entry isGiven
  rw [isFresh, isHead, ← isExport]
  exact Output.isName_fresh (packaged_spelled spec isListed) taken

/-- What an output calls is a name. -/
theorem Written.alias_isName
    (written : Written settings Registry.packaged filename module expansion uses topmost progress)
    (isHead : settings.aliasHead = "_")
    {output : Output}
    (isOutput : output ∈ expansion.outputs)
    (notLeft : output.isPassThrough = false)
    {name : String}
    (isAlias : output.alias? = some name) :
    Output.isName name := by
  obtain ⟨exported, own, calls, isNamed⟩ := written.listed.isNamed output isOutput notLeft
  obtain rfl := Option.some.inj (isAlias.symm.trans calls.isAlias)
  obtain ⟨entry, isEntry, rfl⟩ := Option.map_eq_some_iff.mp isNamed
  exact written.isName_of_entry isHead (List.mem_of_find?_eq_some isEntry)

end Written

end Expansion

/-! ## Whole calls -/

private theorem Token.is_of_face
    {token : Token}
    {kind : Token.Kind}
    {text : String}
    (isFace : token.face = ⟨some kind, text⟩) :
    token.is kind ∧ token.text = text := by
  unfold face at isFace
  split at isFace
  · rename_i own isBody
    obtain ⟨isKind, isText⟩ := Face.mk.inj isFace
    exact ⟨by simpa [Token.is, isBody] using isKind, isText⟩
  · simp at isFace

/-- Tokens that are a name and the whole of its arguments. -/
structure Token.IsCall (name : String) (tokens : List Token) : Prop where
  callee : ∃ token, tokens[0]? = some token ∧ token.is .identifier ∧ token.text = name
  opening : ∃ token, tokens[1]? = some token ∧ isPunctuator ["("] token
  closing : closerIndex? tokens 1 = some (tokens.length - 1)

private theorem Token.isCall_of_faces
    {name : String}
    {tokens : List Token}
    {inner : List Face}
    (isClosed : awaited true [] inner = some [])
    (areFaces : tokens.map Token.face =
      ⟨some .identifier, name⟩ :: Output.markFace '(' :: (inner ++ [Output.markFace ')'])) :
    Token.IsCall name tokens := by
  obtain ⟨callee, rest, rfl, isCallee, areRest⟩ := List.map_eq_cons_iff.mp areFaces
  obtain ⟨opening, rest, rfl, isOpening, areRest⟩ := List.map_eq_cons_iff.mp areRest
  obtain ⟨between, last, rfl, areInner, isLast⟩ := List.map_eq_append_iff.mp areRest
  obtain ⟨closing, nothing, rfl, isClosing, isNothing⟩ := List.map_eq_cons_iff.mp isLast
  obtain rfl := List.map_eq_nil_iff.mp isNothing
  refine ⟨⟨callee, rfl, is_of_face isCallee⟩, ⟨opening, rfl, ?_⟩, ?_⟩
  · rw [← faceIs_face, isOpening]
    decide
  · have isCloser : closes closing := by
      rw [closes_eq, isClosing]
      decide
    have found := closerIndex?_of_awaited (areInner ▸ isClosed) isCloser [callee] opening []
    simp only [List.singleton_append, List.length_singleton] at found
    rw [found]
    simp only [List.length_cons, List.length_append, List.length_nil, Option.some.injEq]
    omega

/-! ## Import statements -/

/-- Whether an `import` that begins a statement is among some tokens. -/
def Declaration.statesImport : List Token → Bool
  | [] => false
  | token :: after =>
    (token.is .keyword && token.text = "import" && followsImport after) || statesImport after

/-- Tokens without an import statement have declarations. -/
theorem Declaration.exists_readFrom
    {tokens : List Token}
    (none : statesImport tokens = false)
    (before : List Token) :
    ∃ declarations, readFrom before 0 tokens = .ok declarations := by
  induction tokens generalizing before with
  | nil => exact ⟨[], rfl⟩
  | cons token after inductionHypothesis =>
    obtain ⟨notImport, later⟩ := (Bool.or_eq_false_iff.mp none)
    obtain ⟨others, areOthers⟩ := inductionHypothesis later (token :: before)
    rw [readFrom, if_neg (by simp [notImport]), areOthers]
    exact ⟨_, rfl⟩

theorem Module.exists_parse
    {text : String}
    {tokens : List Token}
    (areTokens : Token.readAll text = .ok tokens)
    (none : Declaration.statesImport tokens = false) :
    ∃ declarations, Module.parse text = .ok ⟨text, tokens, declarations⟩ := by
  obtain ⟨found, isFound⟩ := Declaration.exists_readFrom none []
  refine ⟨found.mergeSort fun left right => left.start ≤ right.start, ?_⟩
  simp only [Module.parse, areTokens, bind, Except.bind, Declaration.readAll, isFound]
  rfl

namespace Expansion

/-- The code of an output with content is a whole call of its alias, where the module
is legible: what is copied from the source swallows none of the marks after it.
Such a code is a module of its own unless an import statement was copied into it. -/
theorem generated_call_is_complete
    {settings : Settings}
    {filename source : String}
    {module : Module}
    {expansion : Expansion}
    {output : Output}
    {fragments : Fragments}
    (isHead : settings.aliasHead = "_")
    (isModule : Module.parse source = .ok module)
    (expanded : ofSource settings Registry.packaged filename source = .ok expansion)
    (legible : Legible (scopeOf settings Registry.packaged module) expansion.outputs)
    (isOutput : output ∈ expansion.outputs)
    (isFragments : output.fragments = some fragments) :
    ∃ name tokens, output.alias? = some name ∧ Token.readAll output.code = .ok tokens ∧
      Token.IsCall name tokens ∧
      (Declaration.statesImport tokens = false →
        ∃ declarations, Module.parse output.code = .ok ⟨output.code, tokens, declarations⟩) := by
  rcases cases_of_ofSource isModule expanded with ⟨-, rfl⟩ | ⟨uses, topmost, progress, written⟩
  · simp [unchanged] at isOutput
  · have complete := written.complete isModule legible False.elim
      (fun other isOther notLeft name => written.alias_isName isHead isOther notLeft)
      output isOutput
    obtain ⟨name, inner, isAlias, isClosed, readsAs⟩ := complete.call fragments isFragments
    have run := readsAs.runs .module .divides [] (fun isBare => by simp [isFragments] at isBare)
    rw [List.append_nil] at run
    obtain ⟨tokens, areTokens, areFaces⟩ := run.readAll
    exact ⟨name, tokens, isAlias, areTokens, Token.isCall_of_faces isClosed areFaces,
      Module.exists_parse areTokens⟩

/-- A hole with a line comment and a use inside it. -/
def commentSample : String :=
  "import \x7b css \x7d from './macro'\nconst a = css`x$\x7bb // c\n + css`z`\x7dy`"

def commentCode : String :=
  "_css([`x`, b // c\n + _css([`z`]), `y`], \x7b label: \"a\" \x7d)"

/-- The sample's call holds the comment and the call of the use inside. -/
theorem commentSample_is_complete :
    ∃ module expansion output fragments name tokens,
      Module.parse commentSample = .ok module ∧
      ofSource {} Registry.packaged "" commentSample = .ok expansion ∧
      Legible (scopeOf {} Registry.packaged module) expansion.outputs ∧
      output ∈ expansion.outputs ∧ output.fragments = some fragments ∧
      output.code = commentCode ∧
      Token.readAll output.code = .ok tokens ∧ Token.IsCall name tokens := by
  have checked : ((Module.parse commentSample).toOption.any
      (runsLegibly {} Registry.packaged "" fun output =>
        output.fragments.isSome && output.code = commentCode)) = true := by
    decide +kernel
  obtain ⟨module, expansion, output, isModule, expanded, legible, isOutput, own⟩ :=
    exists_of_runsLegibly checked
  simp only [Bool.and_eq_true, decide_eq_true_eq] at own
  obtain ⟨fragments, isFragments⟩ := Option.isSome_iff_exists.mp own.1
  obtain ⟨name, tokens, -, areTokens, isCall, -⟩ :=
    generated_call_is_complete rfl isModule expanded legible isOutput isFragments
  exact ⟨module, expansion, output, fragments, name, tokens, isModule, expanded, legible, isOutput,
    isFragments, own.2, areTokens, isCall⟩

end Expansion

end Restyle
