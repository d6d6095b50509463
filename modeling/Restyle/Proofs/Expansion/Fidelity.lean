import Restyle.Proofs.Edit.Substitution
import Restyle.Proofs.Expansion.Imports
import Restyle.Proofs.Expansion.Written
import Restyle.Proofs.Use.Layout
import Restyle.Registry.Packaged

/-!
Contract: an expansion changes nothing but its uses and its imports.

Owns: `Edit.Over`, an edit of a piece of text with its margins;
`Expansion.UsesReplaced`, the edits of outputs; `Expansion.BindsMacro`, the import
statements that bind a macro, `Expansion.ImportsNames`, the runtime import, and
`Expansion.LeavesImport`, the import that is left of one; that the edits of an
expansion are over its topmost uses and its macro imports and do not overlap; and
that the code is the source with those parts replaced.
-/

namespace Restyle

/-! ## Edits over pieces of text -/

/-- An edit replaces a piece of a text, from ink to ink, and at most the margins
around it. -/
structure Edit.Over (text : List Char) (start stop : Nat) (edit : Edit) : Prop where
  framed : Text.Framed text start stop
  widened : ∃ outerStart outerStop : Nat, edit.start = outerStart ∧ edit.stop = outerStop ∧
    Text.Widened text start stop outerStart outerStop

theorem Edit.Over.within
    {text : List Char}
    {start stop : Nat}
    {edit : Edit}
    (isOver : edit.Over text start stop) :
    Edit.Within 0 text.length edit := by
  obtain ⟨outerStart, outerStop, begins, ends, widened⟩ := isOver.widened
  have nonempty := isOver.framed.nonempty
  have lower := widened.lower
  have upper := widened.upper
  have inside := widened.inside
  exact ⟨by omega, by omega, by omega⟩

/-- Edits over pieces that do not overlap do not overlap. -/
theorem Edit.Over.apart
    {text : List Char}
    {start stop otherStart otherStop : Nat}
    {edit other : Edit}
    (isOver : edit.Over text start stop)
    (otherOver : other.Over text otherStart otherStop)
    (ordered : stop ≤ otherStart ∨ otherStop ≤ start) :
    Edit.Apart edit other := by
  obtain ⟨_, _, begins, ends, widened⟩ := isOver.widened
  obtain ⟨_, _, otherBegins, otherEnds, otherWidened⟩ := otherOver.widened
  rcases ordered with ordered | ordered
  · have := widened.apart isOver.framed otherOver.framed ordered otherWidened
    exact .inl (by omega)
  · have := otherWidened.apart otherOver.framed isOver.framed ordered widened
    exact .inr (by omega)

namespace Expansion

/-- The edits that make the code of an expansion: those of the topmost outputs,
and those of the imports. -/
def editsOf
    (settings : Settings)
    (module : Module)
    (bindings : Binding.Table)
    (topmost : List Output)
    (aliases : Aliases) : List Edit :=
  Output.edits topmost ++ importEdits settings module bindings aliases

/-- The edits of some outputs, in order: a use that is left alone has none, every
other one is replaced from its start to its stop by the code of its output. -/
inductive UsesReplaced : List Output → List Edit → Prop where
  | nil : UsesReplaced [] []
  | leftAlone {output : Output} {outputs : List Output} {edits : List Edit} {spec : Option Spec}
      (isRole : output.use.role = .passThrough spec)
      (others : UsesReplaced outputs edits) :
      UsesReplaced (output :: outputs) edits
  | replaced {output : Output} {outputs : List Output} {edits : List Edit}
      (notLeft : ∀ spec, output.use.role ≠ .passThrough spec)
      (others : UsesReplaced outputs edits) :
      UsesReplaced (output :: outputs)
        (⟨output.use.head.start, output.use.stop, output.code⟩ :: edits)

/-- An import statement of the macro module with a name that stands for a macro. -/
structure BindsMacro (settings : Settings) (bindings : Binding.Table)
    (declaration : Declaration) : Prop where
  isStatement : declaration.mechanism = .module
  isMacroPath : settings.isMacroPath declaration.path
  isKnown : ∃ specifier ∈ declaration.specifiers, ∃ binding,
    bindings.find? specifier.localName = some binding ∧ binding.isUnknown = false

/-- How an export is listed under its name. -/
inductive Specifies : Value × String → String → Prop where
  | same {exported : Value} {name : String} (isText : exported.text? = some name) :
      Specifies (exported, name) name
  | renamed {exported : Value} {name : String} (differs : exported.text? ≠ some name) :
      Specifies (exported, name) (exported.display ++ " as " ++ name)

/-- A text imports some exports, each under its name and no others, from a module. -/
def ImportsNames (path : String) (names : List (Value × String)) (text : String) : Prop :=
  ∃ specifiers, names.Forall₂ Specifies specifiers ∧
    text = "import \x7b " ++ ", ".intercalate specifiers ++ " \x7d from '" ++ path ++ "';"

/-- How a specifier is listed in an import statement. -/
inductive ListedAs : Declaration.Specifier → String → Prop where
  | same {name : String} : ListedAs ⟨name, name⟩ name
  | renamed {imported localName : String} (differs : imported ≠ localName) :
      ListedAs ⟨imported, localName⟩ (imported ++ " as " ++ localName)

/-- What is left of an import from a path when some specifiers are kept: nothing if
there are none, else the first that takes the module as a whole, and if none does, all
of them. -/
inductive LeavesImport (path : String) : List Declaration.Specifier → Option String → Prop where
  | nothing : LeavesImport path [] none
  | whole {earlier later : List Declaration.Specifier} {specifier : Declaration.Specifier}
      (isWhole : specifier.imported = "*")
      (isFirst : ∀ other ∈ earlier, other.imported ≠ "*") :
      LeavesImport path (earlier ++ specifier :: later)
        (some ("import * as " ++ specifier.localName ++ " from '" ++ path ++ "';"))
  | byName {kept : List Declaration.Specifier} {entries : List String}
      (someKept : kept ≠ [])
      (noneWhole : ∀ specifier ∈ kept, specifier.imported ≠ "*")
      (areListed : kept.Forall₂ ListedAs entries) :
      LeavesImport path kept
        (some ("import \x7b " ++ ", ".intercalate entries ++ " \x7d from '" ++ path ++ "';"))

/-- What becomes of the imports: nothing if no alias was given, else each import of
macros that loses a name is rewritten, the first with the runtime import in front
of what is left of it.  Those that lose a name are the ones that bind a macro, and
the specifiers whose names stand for none are what is left of them. -/
structure ImportsRewritten (settings : Settings) (module : Module) (bindings : Binding.Table)
    (aliases : Aliases) : Prop where
  losing : ∀ declaration ∈ module.declarations,
    losesName settings bindings declaration ↔ BindsMacro settings bindings declaration
  edits : aliases.names = [] ∧ importEdits settings module bindings aliases = [] ∨
    ∃ statement first others,
      aliases.importStatement? settings.runtimeModule = some statement ∧
      ImportsNames settings.runtimeModule aliases.names statement ∧
      module.declarations.filter (losesName settings bindings) = first :: others ∧
      importEdits settings module bindings aliases =
        declarationEdit module.source bindings [statement] first ::
          others.map (declarationEdit module.source bindings [])
  leaves : ∀ declaration ∈ module.declarations, losesName settings bindings declaration →
    LeavesImport declaration.path
      (declaration.specifiers.filter fun specifier =>
        (bindings.find? specifier.localName).any (·.isUnknown))
      (residualImport? declaration (unknownNames bindings declaration))
  rewrites : ∀ declaration ∈ module.declarations, losesName settings bindings declaration →
    ∀ leading, Rewrites module.source declaration
      (leading ++ (residualImport? declaration (unknownNames bindings declaration)).toList)
      (declarationEdit module.source bindings leading declaration)

/-- No import statement begins inside a use. -/
def ImportsOutside (module : Module) (uses : List Use) : Prop :=
  ∀ declaration ∈ module.declarations, declaration.mechanism = .module →
    ∀ use ∈ uses, ¬ (use.start ≤ declaration.start ∧ declaration.start < use.stop)

private theorem importsNames_of_importStatement?
    {aliases : Aliases}
    {path statement : String}
    (isStatement : aliases.importStatement? path = some statement) :
    ImportsNames path aliases.names statement := by
  unfold Aliases.importStatement? at isStatement
  split at isStatement
  · simp at isStatement
  · refine ⟨aliases.names.map Aliases.specifier, ?_, (Option.some.inj isStatement).symm⟩
    rw [List.forall₂_map_right_iff, List.forall₂_same]
    rintro ⟨exported, name⟩ -
    unfold Aliases.specifier
    split
    · exact .same ‹_›
    · exact .renamed ‹_›

private theorem listedAs_specifierText (specifier : Declaration.Specifier) :
    ListedAs specifier (specifierText specifier) := by
  obtain ⟨imported, localName⟩ := specifier
  unfold specifierText
  split
  next same =>
    obtain rfl : imported = localName := same
    exact .same
  next differs => exact .renamed differs

private theorem leavesImport_residualImport?
    {bindings : Binding.Table}
    {declaration : Declaration}
    (isStatement : declaration.mechanism = .module) :
    LeavesImport declaration.path
      (declaration.specifiers.filter fun specifier =>
        (bindings.find? specifier.localName).any (·.isUnknown))
      (residualImport? declaration (unknownNames bindings declaration)) := by
  unfold residualImport?
  simp only [filter_unknownNames, isStatement, ne_eq, not_true_eq_false, decide_false,
    Bool.false_or]
  generalize declaration.specifiers.filter (fun specifier =>
    (bindings.find? specifier.localName).any (·.isUnknown)) = kept
  by_cases isNone : kept = []
  · subst isNone
    exact .nothing
  · rw [if_neg (by simpa using isNone)]
    cases isWhole : kept.find? (·.imported = "*") with
    | some whole =>
      obtain ⟨isStar, earlier, later, rfl, isFirst⟩ := List.find?_eq_some_iff_append.mp isWhole
      have isLeft : LeavesImport declaration.path (earlier ++ whole :: later) _ :=
        .whole (of_decide_eq_true isStar) fun other member => by simpa using isFirst other member
      rw [show "import * as " = "import " ++ "* as " by decide] at isLeft
      simpa only [String.append_assoc] using isLeft
    | none =>
      have noneWhole : ∀ specifier ∈ kept, specifier.imported ≠ "*" := by
        simpa using List.find?_eq_none.mp isWhole
      have areListed : kept.Forall₂ ListedAs (kept.map specifierText) := by
        rw [List.forall₂_map_right_iff, List.forall₂_same]
        exact fun specifier _ => listedAs_specifierText specifier
      have isLeft : LeavesImport declaration.path kept _ := .byName isNone noneWhole areListed
      rw [show "import \x7b " = "import " ++ "\x7b " by decide,
        show " \x7d from '" = " \x7d" ++ " from '" by decide] at isLeft
      simpa only [String.append_assoc] using isLeft

private theorem usesReplaced_edits (outputs : List Output) :
    UsesReplaced outputs (Output.edits outputs) := by
  induction outputs with
  | nil => exact .nil
  | cons output outputs inductionHypothesis =>
    unfold Output.edits at inductionHypothesis ⊢
    cases isLeft : output.isPassThrough with
    | true =>
      rw [List.filter_cons_of_neg (by simp [isLeft])]
      unfold Output.isPassThrough Use.isPassThrough at isLeft
      split at isLeft
      · exact .leftAlone ‹_› inductionHypothesis
      · contradiction
    | false =>
      rw [List.filter_cons_of_pos (by simp [isLeft]), List.map_cons]
      refine .replaced (fun spec isRole => ?_) inductionHypothesis
      simp [Output.isPassThrough, Use.isPassThrough, isRole] at isLeft

/-- The declarations that lose a name are the import statements that bind a
macro. -/
theorem losesName_iff_bindsMacro
    {settings : Settings}
    {registry : Registry}
    {module : Module}
    {declaration : Declaration}
    (isDeclaration : declaration ∈ module.declarations) :
    losesName settings (scopeOf settings registry module).bindings declaration ↔
      BindsMacro settings (scopeOf settings registry module).bindings declaration := by
  simp only [losesName, Bool.and_eq_true, decide_eq_true_eq, unknownNames, List.length_map]
  constructor
  · rintro ⟨⟨isStatement, isMacroPath⟩, fewer⟩
    refine ⟨isStatement, isMacroPath, ?_⟩
    rw [ne_eq, List.length_filter_eq_length_iff] at fewer
    simp only [Classical.not_forall] at fewer
    obtain ⟨specifier, isSpecifier, notUnknown⟩ := fewer
    have bound : ((scopeOf settings registry module).bindings.find? specifier.localName).isSome :=
      isSome_find?_of_specifier isDeclaration isMacroPath isSpecifier
    obtain ⟨binding, isBound⟩ := Option.isSome_iff_exists.mp bound
    refine ⟨specifier, isSpecifier, binding, isBound, ?_⟩
    simpa [isBound] using notUnknown
  · rintro ⟨isStatement, isMacroPath, specifier, isSpecifier, binding, isBound, isKnown⟩
    refine ⟨⟨isStatement, isMacroPath⟩, fun same => ?_⟩
    have unknown := List.length_filter_eq_length_iff.mp same specifier isSpecifier
    simp [isBound, isKnown] at unknown

/-! ## Import statements of a parsed module -/

theorem isModule_of_losesName
    {settings : Settings}
    {bindings : Binding.Table}
    {declaration : Declaration}
    (loses : losesName settings bindings declaration) :
    declaration.mechanism = .module := by
  simp only [losesName, Bool.and_eq_true, decide_eq_true_eq] at loses
  exact loses.1.1

/-- Import statements of a module are from ink to ink. -/
theorem framed_of_statement
    {module : Module}
    (parsed : module.Parsed)
    {declaration : Declaration}
    (isDeclaration : declaration ∈ module.declarations)
    (isModule : declaration.mechanism = .module) :
    Text.Framed module.source.toList declaration.start declaration.stop := by
  obtain ⟨found, declared, same⟩ := parsed.declared
  have isStated := (declared.stated parsed.placed).2 declaration
    (List.mem_filter.mpr ⟨same.mem_iff.mpr isDeclaration, by simp [isModule]⟩)
  obtain ⟨⟨keyword, keywordPlaced, isKeyword, begins⟩, ⟨last, lastPlaced, ends, isLast⟩,
    nonempty⟩ := isStated.1
  refine ⟨nonempty, ?_, ?_⟩
  · rw [begins]
    exact keywordPlaced.inkedAt_start_of_name (by simp [Token.isName, isKeyword])
  · rw [ends]
    refine lastPlaced.inkedAt_last_of_endsInked ?_
    rcases isLast with isString | isSemicolon
    · simp [Token.endsInked, isString]
    · simp [Token.endsInked, isSemicolon]

/-- Import statements of a module do not overlap. -/
theorem statements_apart
    {module : Module}
    (parsed : module.Parsed)
    (settings : Settings)
    (bindings : Binding.Table) :
    (module.declarations.filter (losesName settings bindings)).Pairwise fun left right =>
      left.stop ≤ right.start ∨ right.stop ≤ left.start := by
  obtain ⟨found, declared, same⟩ := parsed.declared
  have ascending := (declared.stated parsed.placed).1
  have apart := (ascending.imp (S := fun left right =>
    left.stop ≤ right.start ∨ right.stop ≤ left.start) Or.inl).perm
    (same.filter fun declaration => declaration.mechanism = .module) Or.symm
  refine apart.sublist ?_
  have refined : module.declarations.filter (losesName settings bindings) =
      (module.declarations.filter fun declaration => declaration.mechanism = .module).filter
        (losesName settings bindings) := by
    rw [List.filter_filter]
    refine List.filter_congr fun declaration _ => ?_
    rw [Bool.eq_iff_iff, Bool.and_eq_true, decide_eq_true_eq]
    exact ⟨fun loses => ⟨loses, isModule_of_losesName loses⟩, And.left⟩
  rw [refined]
  exact List.filter_sublist

private theorem declarationEdit_over
    {settings : Settings}
    {bindings : Binding.Table}
    {module : Module}
    (parsed : module.Parsed)
    {declaration : Declaration}
    (isDeclaration : declaration ∈ module.declarations)
    (loses : losesName settings bindings declaration)
    (leading : List String) :
    (declarationEdit module.source bindings leading declaration).Over module.source.toList
      declaration.start declaration.stop := by
  have framed := framed_of_statement parsed isDeclaration (isModule_of_losesName loses)
  exact ⟨framed, (declarationEdit_rewrites bindings leading framed).widened framed⟩

/-! ## Edits of an expansion -/

section Written

variable
  {settings : Settings}
  {registry : Registry}
  {filename : String}
  {module : Module}
  {expansion : Expansion}
  {uses : List Use}
  {topmost : List Output}
  {progress : Output.Progress}

/-- If an alias was given, then an import loses a name: the runtime import is
never put in front of the module. -/
theorem Written.exists_losesName
    (written : Written settings registry filename module expansion uses topmost progress)
    (isNamed : progress.aliases.names ≠ []) :
    ∃ declaration ∈ module.declarations,
      losesName settings (scopeOf settings registry module).bindings declaration := by
  by_cases leftAlone : ∀ use ∈ uses, use.isPassThrough
  · have same := Output.aliases_of_passThrough leftAlone written.gives
    simp [same, initialProgress, Aliases.ofTaken] at isNamed
  · simp only [Classical.not_forall] at leftAlone
    obtain ⟨use, isUse, notLeft⟩ := leftAlone
    obtain ⟨_, site, length, found, _⟩ := (Use.scanned_of_scan written.scanned).exists_found isUse
    obtain ⟨isModule, isKnown⟩ := found.module_of_not_passThrough notLeft
    exact Expansion.exists_losesName found.isBound isModule isKnown

theorem Written.importsRewritten
    (written : Written settings registry filename module expansion uses topmost progress)
    (parsed : module.Parsed) :
    ImportsRewritten settings module (scopeOf settings registry module).bindings
      progress.aliases := by
  refine ⟨fun _ isDeclaration => losesName_iff_bindsMacro isDeclaration, ?_,
    fun declaration _ loses => leavesImport_residualImport? (isModule_of_losesName loses), ?_⟩
  · by_cases isNamed : progress.aliases.names = []
    · refine .inl ⟨isNamed, ?_⟩
      simp [importEdits, Aliases.importStatement?, isNamed]
    · obtain ⟨declaration, isDeclaration, loses⟩ := written.exists_losesName isNamed
      have isLost := List.mem_filter.mpr ⟨isDeclaration, loses⟩
      obtain ⟨first, others, isFilter⟩ := List.exists_cons_of_ne_nil (List.ne_nil_of_mem isLost)
      have isStatement : ∃ statement,
          progress.aliases.importStatement? settings.runtimeModule = some statement := by
        simp [Aliases.importStatement?, isNamed]
      obtain ⟨statement, isStatement⟩ := isStatement
      refine .inr ⟨statement, first, others, isStatement,
        importsNames_of_importStatement? isStatement, isFilter, ?_⟩
      simp only [importEdits, isStatement, isFilter]
  · intro declaration isDeclaration loses leading
    exact declarationEdit_rewrites _ leading
      (framed_of_statement parsed isDeclaration (isModule_of_losesName loses))

/-- The edits of the imports are over imports that lose a name, and do not
overlap. -/
theorem ImportsRewritten.isOver
    {bindings : Binding.Table}
    {aliases : Aliases}
    (rewritten : ImportsRewritten settings module bindings aliases)
    (parsed : module.Parsed) :
    (importEdits settings module bindings aliases).Pairwise Edit.Apart ∧
      ∀ edit ∈ importEdits settings module bindings aliases,
        ∃ declaration ∈ module.declarations, declaration.mechanism = .module ∧
          edit.Over module.source.toList declaration.start declaration.stop := by
  rcases rewritten.edits with ⟨_, isNone⟩ | ⟨statement, first, others, _, _, isFilter, isEdits⟩
  · rw [isNone]
    exact ⟨.nil, by simp⟩
  · have isLost : ∀ declaration ∈ first :: others,
        declaration ∈ module.declarations ∧ losesName settings bindings declaration := by
      intro declaration member
      rw [← isFilter] at member
      exact List.mem_filter.mp member
    have areOver : ∀ declaration ∈ first :: others, ∀ leading,
        (declarationEdit module.source bindings leading declaration).Over module.source.toList
          declaration.start declaration.stop := fun declaration member leading =>
      declarationEdit_over parsed (isLost declaration member).1 (isLost declaration member).2
        leading
    have apart := statements_apart parsed settings bindings
    rw [isFilter] at apart
    obtain ⟨firstApart, othersApart⟩ := List.pairwise_cons.mp apart
    rw [isEdits]
    constructor
    · refine List.pairwise_cons.mpr ⟨fun edit member => ?_, ?_⟩
      · obtain ⟨declaration, isOther, rfl⟩ := List.mem_map.mp member
        exact (areOver first List.mem_cons_self _).apart
          (areOver declaration (List.mem_cons_of_mem _ isOther) _) (firstApart declaration isOther)
      · refine List.pairwise_map.mpr (othersApart.imp_of_mem fun {left right} isLeft isRight both =>
          (areOver left (List.mem_cons_of_mem _ isLeft) _).apart
            (areOver right (List.mem_cons_of_mem _ isRight) _) both)
    · intro edit member
      have isOver : ∃ declaration ∈ first :: others, ∃ leading,
          edit = declarationEdit module.source bindings leading declaration := by
        rcases List.mem_cons.mp member with rfl | later
        · exact ⟨first, List.mem_cons_self, _, rfl⟩
        · obtain ⟨declaration, isOther, rfl⟩ := List.mem_map.mp later
          exact ⟨declaration, List.mem_cons_of_mem _ isOther, _, rfl⟩
      obtain ⟨declaration, isOne, leading, rfl⟩ := isOver
      exact ⟨declaration, (isLost declaration isOne).1,
        isModule_of_losesName (isLost declaration isOne).2, areOver declaration isOne leading⟩

private theorem outputs_over
    {source : List Char}
    {stop : Nat}
    (areUses : topmost.map (·.use) = uses)
    (laid : Use.Laid source 0 stop uses) :
    (Output.edits topmost).Pairwise Edit.Apart ∧
      ∀ edit ∈ Output.edits topmost, ∃ use ∈ uses, edit.Over source use.start use.stop := by
  subst areUses
  have areOver : ∀ output ∈ topmost, Edit.Over source output.start output.stop
      ⟨output.start, output.stop, output.code⟩ := by
    intro output member
    have framed := (laid.between output.use (List.mem_map_of_mem member)).2.2
    exact ⟨framed, _, _, rfl, rfl, .refl framed⟩
  constructor
  · refine List.pairwise_map.mpr (List.Pairwise.filter _ ?_)
    refine (List.pairwise_map.mp laid.ascending).imp_of_mem ?_
    intro left right isLeft isRight both
    exact (areOver left isLeft).apart (areOver right isRight) (.inl both)
  · intro edit member
    obtain ⟨output, isOutput, rfl⟩ := List.mem_map.mp member
    have isTopmost := (List.mem_filter.mp isOutput).1
    exact ⟨output.use, List.mem_map_of_mem isTopmost, areOver output isTopmost⟩

end Written

/-- The code of an expansion is its source with the topmost uses that are not
left alone replaced by the code of their outputs, and the macro imports
rewritten.  The edits are those of the outputs and those of the imports; they do
not overlap and lie in the source, and every character that none of them covers
stays where it is. -/
structure Rewriting (settings : Settings) (registry : Registry) (module : Module)
    (expansion : Expansion) (uses : List Use) (topmost : List Output) (aliases : Aliases) :
    Prop where
  scanned : Use.scan (scopeOf settings registry module) module.tokens = .ok uses
  areUses : topmost.map (·.use) = uses
  areOutputs : topmost ⊆ expansion.outputs
  areAliases : aliases.names = expansion.aliases
  isApplied : expansion.code = Edit.applyAll module.source
    (editsOf settings module (scopeOf settings registry module).bindings topmost aliases) 0
  apart : (editsOf settings module (scopeOf settings registry module).bindings topmost
    aliases).Pairwise Edit.Apart
  within : ∀ edit ∈ editsOf settings module (scopeOf settings registry module).bindings topmost
    aliases, Edit.Within 0 module.source.length edit
  replaced : UsesReplaced topmost (Output.edits topmost)
  imports : ImportsRewritten settings module (scopeOf settings registry module).bindings aliases
  isSubstituted : expansion.code.toList = Edit.substituteFrom
    (editsOf settings module (scopeOf settings registry module).bindings topmost aliases) 0
    module.source.toList

/-- A module without macros is rewritten by no edits. -/
theorem rewriting_of_no_bindings
    {settings : Settings}
    {registry : Registry}
    {module : Module}
    (parsed : module.Parsed)
    (isEmpty : (scopeOf settings registry module).bindings = []) :
    Rewriting settings registry module (unchanged module) [] [] ⟨[], []⟩ := by
  have noEdits : editsOf settings module (scopeOf settings registry module).bindings [] ⟨[], []⟩ =
      [] := by
    simp [editsOf, Output.edits, importEdits, Aliases.importStatement?]
  have applied : (Edit.applyAll module.source [] 0).toList =
      Edit.substituteFrom [] 0 module.source.toList :=
    Edit.applyAll_eq_substituteFrom .nil (by simp)
  refine ⟨Use.scanFrom_of_no_bindings isEmpty [] 0 module.tokens, rfl, List.nil_subset _, rfl,
    ?_, ?_, ?_, .nil, ?_, ?_⟩
  · rw [noEdits, ← String.toList_inj, applied, Edit.substituteFrom_nil]
    rfl
  · rw [noEdits]
    exact .nil
  · rw [noEdits]
    simp
  · refine ⟨fun _ isDeclaration => losesName_iff_bindsMacro isDeclaration, .inl ⟨rfl, ?_⟩,
      fun declaration _ loses => leavesImport_residualImport? (isModule_of_losesName loses),
      fun declaration isDeclaration loses leading => ?_⟩
    · simp [importEdits, Aliases.importStatement?]
    · exact declarationEdit_rewrites _ leading
        (framed_of_statement parsed isDeclaration (isModule_of_losesName loses))
  · rw [noEdits, Edit.substituteFrom_nil]
    rfl

/-- A use and an import statement do not overlap, if the statement does not
begin inside the use. -/
theorem use_apart_statement
    {scope : Scope}
    {uses : List Use}
    {use : Use}
    {declaration : Declaration}
    (scanned : Use.scan scope scope.module.tokens = .ok uses)
    (outside : ImportsOutside scope.module uses)
    (isUse : use ∈ uses)
    (isDeclaration : declaration ∈ scope.module.declarations)
    (isStatement : declaration.mechanism = .module) :
    use.stop ≤ declaration.start ∨ declaration.stop ≤ use.start := by
  have undeclared := ((Use.scanned_of_scan scanned).exists_found isUse).1
  have notCovered : ¬ declaration.covers use.start := fun covers =>
    undeclared (List.any_eq_true.mpr ⟨declaration, isDeclaration, covers⟩)
  simp only [Declaration.covers, Bool.and_eq_true, decide_eq_true_eq] at notCovered
  have notInside := outside declaration isDeclaration isStatement use isUse
  omega

/-- A written expansion rewrites its uses and its imports. -/
theorem Written.rewriting
    {settings : Settings}
    {registry : Registry}
    {filename : String}
    {module : Module}
    {expansion : Expansion}
    {uses : List Use}
    {topmost : List Output}
    {progress : Output.Progress}
    (written : Written settings registry filename module expansion uses topmost progress)
    (parsed : module.Parsed)
    (outside : ImportsOutside module uses) :
    Rewriting settings registry module expansion uses topmost progress.aliases := by
  obtain ⟨wrote, areUses, areKept⟩ := Output.wrote_ofPlans _ written.gives
  rw [List.map_map, show Plan.use ∘ Plan.ofUse (scopeOf settings registry module) = id from
    funext fun use => Plan.use_ofUse _ use, List.map_id] at areUses
  have laid := (Use.scanned_of_scan written.scanned).laid parsed.placed
  have imports := written.importsRewritten parsed
  obtain ⟨outputsApart, outputsOver⟩ := outputs_over areUses laid
  obtain ⟨importsApart, importsOver⟩ := imports.isOver parsed
  have apart : (editsOf settings module (scopeOf settings registry module).bindings topmost
      progress.aliases).Pairwise Edit.Apart := by
    refine List.pairwise_append.mpr ⟨outputsApart, importsApart, ?_⟩
    intro edit isOutput other isImport
    obtain ⟨use, isUse, isOver⟩ := outputsOver edit isOutput
    obtain ⟨declaration, isDeclaration, isStatement, otherOver⟩ := importsOver other isImport
    exact isOver.apart otherOver
      (use_apart_statement written.scanned outside isUse isDeclaration isStatement)
  have within : ∀ edit ∈ editsOf settings module (scopeOf settings registry module).bindings
      topmost progress.aliases, Edit.Within 0 module.source.length edit := by
    intro edit member
    rw [← String.length_toList]
    rcases List.mem_append.mp member with isOutput | isImport
    · obtain ⟨_, _, isOver⟩ := outputsOver edit isOutput
      exact isOver.within
    · obtain ⟨_, _, _, isOver⟩ := importsOver edit isImport
      exact isOver.within
  have isCode : expansion.code = Edit.applyAll module.source
      (editsOf settings module (scopeOf settings registry module).bindings topmost
        progress.aliases) 0 := by
    rw [written.isResult]
    rfl
  refine ⟨written.scanned, areUses, ?_, ?_, isCode, apart, within, usesReplaced_edits topmost,
    imports, ?_⟩
  · intro output member
    rw [written.isResult]
    exact List.mem_mergeSort.mpr (areKept member)
  · rw [written.isResult]
    rfl
  · rw [isCode]
    exact Edit.applyAll_eq_substituteFrom apart within

/-- An expansion of a module in which no import statement begins inside a use
changes nothing but its uses and its imports. -/
theorem exists_rewriting
    {settings : Settings}
    {registry : Registry}
    {filename source : String}
    {module : Module}
    {expansion : Expansion}
    (isModule : Module.parse source = .ok module)
    (expanded : ofSource settings registry filename source = .ok expansion)
    (outside : ∀ uses, Use.scan (scopeOf settings registry module) module.tokens = .ok uses →
      ImportsOutside module uses) :
    module.source = source ∧ ∃ uses topmost aliases,
      Rewriting settings registry module expansion uses topmost aliases := by
  obtain ⟨isSource, parsed⟩ := Module.parsed_of_parse isModule
  refine ⟨isSource, ?_⟩
  rcases cases_of_ofSource isModule expanded with
    ⟨isEmpty, rfl⟩ | ⟨uses, topmost, progress, written⟩
  · exact ⟨[], [], ⟨[], []⟩, rewriting_of_no_bindings parsed isEmpty⟩
  · exact ⟨uses, topmost, progress.aliases,
      written.rewriting parsed (outside uses written.scanned)⟩

/-- A macro import and a use of the macro. -/
def importSample : String :=
  "import \x7b css \x7d from './macro'\na = css`x`"

/-- The sample is rewritten, and its use is not left alone. -/
theorem exists_rewriting_of_importSample :
    ∃ module expansion uses topmost aliases,
      Module.parse importSample = .ok module ∧
      ofSource {} Registry.packaged "" importSample = .ok expansion ∧
      (∃ use ∈ uses, use.isPassThrough = false) ∧
      Rewriting {} Registry.packaged module expansion uses topmost aliases := by
  have clear : ((Module.parse importSample).toOption.any fun module =>
      (Use.scan (scopeOf {} Registry.packaged module) module.tokens).toOption.any fun uses =>
        uses.any (!·.isPassThrough) &&
        module.declarations.all fun declaration => uses.all fun use =>
          !(use.start ≤ declaration.start && declaration.start < use.stop)) = true := by
    decide +kernel
  have expands : (ofSource {} Registry.packaged "" importSample).toOption.isSome = true := by
    decide +kernel
  obtain ⟨module, parses, clear⟩ := (Option.any_eq_true _ _).mp clear
  obtain ⟨found, scans, clear⟩ := (Option.any_eq_true _ _).mp clear
  obtain ⟨expansion, isExpansion⟩ := Option.isSome_iff_exists.mp expands
  have isModule := ok_of_toOption parses
  have isFound := ok_of_toOption scans
  have expanded := ok_of_toOption isExpansion
  simp only [Bool.and_eq_true, List.any_eq_true, List.all_eq_true, Bool.not_eq_true',
    Bool.and_eq_false_iff, decide_eq_false_iff_not] at clear
  obtain ⟨isReplaced, clear⟩ := clear
  have outside : ∀ uses,
      Use.scan (scopeOf {} Registry.packaged module) module.tokens = .ok uses →
      ImportsOutside module uses := by
    intro uses scanned declaration isDeclaration _ use isUse
    obtain rfl := Except.ok.inj (isFound.symm.trans scanned)
    have apart := clear declaration isDeclaration use isUse
    omega
  obtain ⟨_, uses, topmost, aliases, rewriting⟩ := exists_rewriting isModule expanded outside
  obtain rfl := Except.ok.inj (isFound.symm.trans rewriting.scanned)
  exact ⟨module, expansion, found, topmost, aliases, isModule, expanded, isReplaced, rewriting⟩

end Expansion

end Restyle
