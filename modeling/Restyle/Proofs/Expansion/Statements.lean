import Restyle.Expansion
import Restyle.Proofs.Declaration.Words
import Restyle.Proofs.Expansion.Dropped
import Restyle.Proofs.Output.Elements

/-!
Contract: generated import statements are read as what they are written for.

Owns: `Announces`, by which a text is read wherever it is put as an import of
certain names from a certain module; `isPlain` for names and paths that may stand
in such a text as they are, and `isRestorable` for names that are read back from it;
and that the runtime import and what is left of a macro import are read so.
-/

namespace Restyle

open Token Lexeme Restyle.Bracket Declaration

/-! ## Names and paths -/

/-- Whether a specifier is written with identifiers. -/
def Declaration.Specifier.isNamed (specifier : Declaration.Specifier) : Bool :=
  Output.isName specifier.imported && Output.isName specifier.localName

/-- Whether a specifier is read back as it is written: the word that joins its names
is none of them. -/
def Declaration.Specifier.isPlain (specifier : Declaration.Specifier) : Bool :=
  specifier.isNamed && specifier.imported ≠ "as" && specifier.localName ≠ "as"

/-- Whether a path may stand between single quotes as it is. -/
def Text.isPlainPath (path : String) : Bool :=
  path.toList.all fun c => c ≠ '\'' && c ≠ '\n' && c ≠ '\\'

/-- Whether a specifier with a word for its local name is read back as it is written:
its imported name is a word without quotes, and the word that joins its names is none
of them. -/
def Declaration.Specifier.isRestorable (specifier : Declaration.Specifier) : Bool :=
  isBareWord specifier.imported && specifier.imported ≠ "as" && specifier.localName ≠ "as"

/-- A specifier that is written with words. -/
structure Declaration.Specifier.IsWorded (specifier : Declaration.Specifier) : Prop where
  imported : isBareWord specifier.imported
  localName : isBareWord specifier.localName ∨ isQuoted specifier.localName

private theorem Declaration.Specifier.isWorded_of_isNamed
    {specifier : Declaration.Specifier}
    (named : specifier.isNamed) :
    specifier.IsWorded := by
  obtain ⟨imported, localName⟩ := (Bool.and_eq_true _ _).mp named
  exact ⟨by simp [isBareWord, imported], .inl (by simp [isBareWord, localName])⟩

private theorem Declaration.Specifier.isRestorable_of_isPlain
    {specifier : Declaration.Specifier}
    (plain : specifier.isPlain) :
    specifier.isRestorable := by
  simp only [Specifier.isPlain, Specifier.isNamed, Bool.and_eq_true] at plain
  simp [Specifier.isRestorable, isBareWord, plain]

/-- A plain path ends at the quote after it. -/
theorem Text.endsQuoted_of_isPlainPath {path : String} (plain : Text.isPlainPath path) :
    endsQuoted '\'' (path.toList ++ ['\'']) := by
  rw [Output.endsQuoted_plain _ (by simp)]
  · rfl
  · intro c member
    simpa [and_assoc] using List.all_eq_true.mp plain c member

namespace Expansion

open Output (isName run_name run_blank run_mark run_of_step run_openBrace run_closeBrace markFace
  separated awaited_separated awaited_of_plain)

def importFace : Face :=
  ⟨some .keyword, "import"⟩

def specifierFaces (specifier : Specifier) : List Face :=
  if specifier.imported = specifier.localName then [wordFace specifier.localName]
  else [wordFace specifier.imported, wordFace "as", wordFace specifier.localName]

def pathFace (path : String) : Face :=
  ⟨some .string, "'" ++ path ++ "'"⟩

/-! ## Reading the parts of a statement -/

private theorem stops_blank (rest : List Char) : stops (' ' :: rest) :=
  stops_cons.mpr (by decide)

section Runs

variable
  (nest : Nest)
  (slash : Slash)

private theorem run_import {rest : List Char} (stopped : stops rest) :
    CodeRun nest slash ("import".toList ++ rest) [importFace] nest .opensPattern rest := by
  have isWord : word? 'i' "mport".toList = some (.keyword, "mport".toList.length) := by decide
  have isStep : codeStep nest slash 'i' ("mport".toList ++ rest) =
      ⟨.keyword, "mport".toList.length, .code nest .opensPattern⟩ :=
    codeStep_of_word ((word?_append stopped _ _).trans isWord)
  exact run_of_step "mport".toList isStep rfl

private theorem run_semicolon (rest : List Char) :
    CodeRun nest slash (';' :: rest) [markFace ';'] nest .opensPattern rest :=
  run_of_step [] (codeStep_of_mark (by decide)
    (rfl : symbols.find? (·.heads (';' :: rest)) = some ⟨";", .punctuator, .opensPattern⟩)) rfl

private theorem run_star (rest : List Char) :
    CodeRun nest slash ('*' :: ' ' :: rest) [⟨some .operator, "*"⟩] nest .opensPattern
      (' ' :: rest) :=
  run_of_step [] (codeStep_of_mark (by decide)
    (rfl : symbols.find? (·.heads ('*' :: ' ' :: rest)) = some ⟨"*", .operator, .opensPattern⟩)) rfl

private theorem run_path
    {path : String}
    (ends : endsQuoted '\'' (path.toList ++ ['\'']))
    (rest : List Char) :
    CodeRun nest slash (("'" ++ path ++ "'").toList ++ rest) [pathFace path] nest .divides rest := by
  refine run_quoted ?_ nest slash rest
  simp [isQuoted, isQuote, ends]

private theorem run_specifier
    {specifier : Specifier}
    (worded : specifier.IsWorded)
    {rest : List Char}
    (stopped : stops rest) :
    (((specifierText specifier).toList ++ rest).head?.any Text.isBlank = false) ∧
      ∃ last, CodeRun nest slash ((specifierText specifier).toList ++ rest)
        (specifierFaces specifier) nest last rest := by
  unfold specifierText specifierFaces
  split
  · exact ⟨inked_of_isWord worded.localName rest, run_word worded.localName nest slash stopped⟩
  · have isText : (specifier.imported ++ " as " ++ specifier.localName).toList ++ rest =
        specifier.imported.toList ++ ' ' :: ("as".toList ++ ' ' ::
          (specifier.localName.toList ++ rest)) := by
      simp
    have joins : isBareWord "as" := by decide
    have importedInked := inked_of_isWord (.inl worded.imported)
    rw [isText]
    refine ⟨importedInked _, ?_⟩
    obtain ⟨afterImported, isImported⟩ := run_word (.inl worded.imported) nest slash (stops_blank _)
    obtain ⟨afterJoint, isJoint⟩ := run_word (.inl joins) nest afterImported (stops_blank _)
    obtain ⟨last, isLocal⟩ := run_word worded.localName nest afterJoint stopped
    have later := isJoint.trans (run_blank isLocal (inked_of_isWord worded.localName rest))
    exact ⟨last, isImported.trans (run_blank later (inked_of_isWord (.inl joins) _))⟩

private theorem run_specifiers
    {specifiers : List Specifier}
    (nonempty : specifiers ≠ [])
    (worded : ∀ specifier ∈ specifiers, specifier.IsWorded)
    {rest : List Char}
    (stopped : stops rest) :
    ([',', ' '].intercalate (specifiers.map (specifierText · |>.toList)) ++ rest).head?.any
        Text.isBlank = false ∧
      ∃ last, CodeRun nest slash
        ([',', ' '].intercalate (specifiers.map (specifierText · |>.toList)) ++ rest)
        (separated (specifiers.map specifierFaces)) nest last rest := by
  induction specifiers generalizing slash with
  | nil => exact absurd rfl nonempty
  | cons specifier others inductionHypothesis =>
    have own := worded specifier List.mem_cons_self
    cases others with
    | nil =>
      rw [List.map_singleton, List.intercalate_singleton, separated, List.map_singleton,
        List.intercalate_singleton]
      exact run_specifier nest slash own stopped
    | cons next others =>
      obtain ⟨laterInked, last, later⟩ := inductionHypothesis .opensPattern (by simp)
        (fun specifier member => worded specifier (List.mem_cons_of_mem _ member))
      have isText : [',', ' '].intercalate
            ((specifier :: next :: others).map (specifierText · |>.toList)) ++ rest =
          (specifierText specifier).toList ++ ',' :: ' ' ::
            ([',', ' '].intercalate ((next :: others).map (specifierText · |>.toList)) ++ rest) := by
        rw [List.map_cons, List.map_cons, List.intercalate_cons_cons]
        simp
      have isFaces : separated ((specifier :: next :: others).map specifierFaces) =
          specifierFaces specifier ++ [markFace ','] ++
            separated ((next :: others).map specifierFaces) :=
        List.intercalate_cons_cons
      rw [isText, isFaces]
      obtain ⟨inked, between, run⟩ := run_specifier nest slash own
        (stops_cons.mpr (by decide) : stops (',' :: ' ' ::
          ([',', ' '].intercalate ((next :: others).map (specifierText · |>.toList)) ++ rest)))
      exact ⟨inked, last, (run.trans (run_mark nest between _ (by decide))).trans
        (run_blank later laterInked)⟩

end Runs

/-! ## What the names of a clause are read as -/

private theorem splitWhere_separated
    {lists : List (List Face)}
    (nonempty : lists ≠ [])
    (uncut : ∀ faces ∈ lists, ∀ face ∈ faces, face.text ≠ ",") :
    splitWhere (·.text = ",") (separated lists) = lists := by
  induction lists with
  | nil => exact absurd rfl nonempty
  | cons faces lists inductionHypothesis =>
    obtain ⟨own, others⟩ := List.forall_mem_cons.mp uncut
    have isUncut : ∀ face ∈ faces, decide (face.text = ",") = false := fun face member =>
      decide_eq_false (own face member)
    cases lists with
    | nil =>
      rw [separated, List.intercalate_singleton]
      exact splitWhere_uncut isUncut
    | cons next lists =>
      rw [separated, List.intercalate_cons_cons, List.append_assoc, List.singleton_append,
        splitWhere_append isUncut (by decide)]
      exact congrArg (faces :: ·) (inductionHypothesis (by simp) others)

/-- A specifier is written with words alone. -/
theorem exists_word_of_mem_specifierFaces
    {specifier : Specifier}
    (worded : specifier.IsWorded)
    {face : Face}
    (member : face ∈ specifierFaces specifier) :
    ∃ text, (isBareWord text ∨ isQuoted text) ∧ face = wordFace text := by
  have joins : isBareWord "as" := by decide
  unfold specifierFaces at member
  split at member
  · exact ⟨_, worded.localName, List.mem_singleton.mp member⟩
  · simp only [List.mem_cons, List.not_mem_nil, or_false] at member
    rcases member with rfl | rfl | rfl
    · exact ⟨_, .inl worded.imported, rfl⟩
    · exact ⟨_, .inl joins, rfl⟩
    · exact ⟨_, worded.localName, rfl⟩

private theorem spelledSpecifier?_specifierFaces
    {specifier : Specifier}
    (restorable : specifier.isRestorable) :
    spelledSpecifier? (specifierFaces specifier) = some specifier := by
  simp only [Specifier.isRestorable, Bool.and_eq_true, decide_eq_true_eq] at restorable
  obtain ⟨⟨isImported, importedWord⟩, localWord⟩ := restorable
  obtain ⟨imported, localName⟩ := specifier
  simp only at isImported importedWord localWord
  have kept := trim_of_parts (parts_of_isBareWord isImported).choose_spec.choose_spec.2
  unfold specifierFaces
  split
  · rename_i same
    obtain rfl : imported = localName := same
    simp [spelledSpecifier?, localWord, kept]
  · simp [spelledSpecifier?, importedWord, localWord, kept]

private theorem spelledSpecifiers_separated
    {specifiers : List Specifier}
    (nonempty : specifiers ≠ [])
    (worded : ∀ specifier ∈ specifiers, specifier.IsWorded)
    (restorable : ∀ specifier ∈ specifiers, specifier.isRestorable) :
    spelledSpecifiers (separated (specifiers.map specifierFaces)) = specifiers := by
  rw [spelledSpecifiers, splitWhere_separated (by simpa using nonempty), List.filterMap_map]
  · have readBack : ∀ specifier ∈ specifiers,
        (spelledSpecifier? ∘ specifierFaces) specifier = some specifier := fun specifier member =>
      spelledSpecifier?_specifierFaces (restorable specifier member)
    rw [List.filterMap_congr readBack, List.filterMap_some]
  · intro faces isFaces face isFace
    obtain ⟨specifier, member, rfl⟩ := List.mem_map.mp isFaces
    obtain ⟨text, isWord, rfl⟩ := exists_word_of_mem_specifierFaces (worded specifier member) isFace
    exact ne_of_isWord isWord (by decide) (by decide)

/-! ## Statements -/

/-- A text is read wherever it is put as an import of some names from a module. -/
structure Announces (text : String) (covered : List Face) (path : String)
    (specifiers : List Specifier) : Prop where
  begins : ∃ more, text.toList = 'i' :: more
  starts : beginsImport importFace covered
  states : States covered path specifiers
  runs : ∀ nest slash rest, CodeRun nest slash (text.toList ++ rest) (importFace :: covered) nest
    .opensPattern rest

/-- What stands between the keyword and the path of a statement, read there. -/
structure Enlists (names : String) (own : List Face) (specifiers : List Specifier) : Prop where
  inked : ∀ rest, (names.toList ++ rest).head?.any Text.isBlank = false
  first : ∃ face others, own = face :: others ∧ face.text ≠ "(" ∧ face.text ≠ "."
  clauses : Clauses (own ++ [wordFace "from"]) specifiers
  runs : ∀ nest rest, ∃ last, CodeRun nest .opensPattern (names.toList ++ ' ' :: rest) own nest
    last (' ' :: rest)

/-- A statement is read up to its path. -/
theorem Enlists.runs_path
    {names path : String}
    {own : List Face}
    {specifiers : List Specifier}
    (enlists : Enlists names own specifiers)
    (ends : endsQuoted '\'' (path.toList ++ ['\'']))
    (nest : Nest)
    (slash : Slash)
    (rest : List Char) :
    CodeRun nest slash (("import " ++ names ++ " from '" ++ path ++ "'").toList ++ rest)
      (importFace :: (own ++ [wordFace "from", pathFace path])) nest .divides rest := by
  have isText : ("import " ++ names ++ " from '" ++ path ++ "'").toList ++ rest =
      "import".toList ++ ' ' :: (names.toList ++ ' ' :: ("from".toList ++ ' ' ::
        (("'" ++ path ++ "'").toList ++ rest))) := by
    simp
  have isFaces : importFace :: (own ++ [wordFace "from", pathFace path]) =
      [importFace] ++ (own ++ ([wordFace "from"] ++ [pathFace path])) := by
    simp
  have isFrom : isBareWord "from" := by decide
  obtain ⟨afterNames, listed⟩ := enlists.runs nest ("from".toList ++ ' ' ::
    (("'" ++ path ++ "'").toList ++ rest))
  obtain ⟨afterFrom, joined⟩ := run_word (.inl isFrom) nest afterNames
    (stops_blank (("'" ++ path ++ "'").toList ++ rest))
  have ended := joined.trans (run_blank (run_path nest afterFrom ends rest) (by simp; decide))
  have later := listed.trans (run_blank ended (inked_of_isWord (.inl isFrom) _))
  rw [isText, isFaces]
  exact (run_import nest slash (stops_blank _)).trans (run_blank later (enlists.inked _))

theorem Enlists.announces
    {names path : String}
    {own : List Face}
    {specifiers : List Specifier}
    (enlists : Enlists names own specifiers)
    (ends : endsQuoted '\'' (path.toList ++ ['\''])) :
    Announces ("import " ++ names ++ " from '" ++ path ++ "';")
      (own ++ [wordFace "from", pathFace path, markFace ';']) path specifiers where
  begins := by simp
  starts := by
    obtain ⟨face, others, rfl, notParen, notPoint⟩ := enlists.first
    simp [beginsImport, importFace, notParen, notPoint]
  states := by
    have isPath : Text.unquote (pathFace path).text = path := by
      simp [pathFace, Text.unquote]
    have states := @Clauses.states_semicolon _ _ enlists.clauses (pathFace path) (markFace ';') rfl
      (by decide)
    rwa [isPath, List.append_assoc] at states
  runs nest slash rest := by
    have isText : ("import " ++ names ++ " from '" ++ path ++ "';").toList ++ rest =
        ("import " ++ names ++ " from '" ++ path ++ "'").toList ++ ';' :: rest := by
      simp
    have isFaces : importFace :: (own ++ [wordFace "from", pathFace path, markFace ';']) =
        (importFace :: (own ++ [wordFace "from", pathFace path])) ++ [markFace ';'] := by
      simp
    rw [isText, isFaces]
    exact (enlists.runs_path ends nest slash (';' :: rest)).trans (run_semicolon nest .divides rest)

/-- Specifiers between braces. -/
theorem enlists_braces
    {specifiers : List Specifier}
    (nonempty : specifiers ≠ [])
    (worded : ∀ specifier ∈ specifiers, specifier.IsWorded) :
    Enlists ("\x7b " ++ ", ".intercalate (specifiers.map specifierText) ++ " \x7d")
      (markFace '\x7b' :: (separated (specifiers.map specifierFaces) ++ [markFace '\x7d']))
      (spelledSpecifiers (separated (specifiers.map specifierFaces))) where
  inked rest := by simp; decide
  first := ⟨_, _, rfl, by decide, by decide⟩
  clauses := by
    have passed : Clauses [wordFace "from"] [] :=
      clauses_nil.pass (by decide) (by decide) (fun _ => rfl)
    have closes : ∀ (own : List Token) (bracket : Token) (rest : List Token),
        own.map Token.face = separated (specifiers.map specifierFaces) →
          bracket.face = markFace '\x7d' →
            close? 0 (own ++ bracket :: rest) = some ⟨own, bracket, rest⟩ := by
      intro own bracket rest areFaces isBracket
      refine @close?_of_awaited true [] own ?_ bracket ?_ rest
      · rw [areFaces]
        refine awaited_separated fun faces isFaces => awaited_of_plain (fun face isFace => ?_) true []
        obtain ⟨specifier, member, rfl⟩ := List.mem_map.mp isFaces
        obtain ⟨text, -, rfl⟩ := exists_word_of_mem_specifierFaces (worded specifier member) isFace
        exact kind_wordFace_ne_punctuator text
      · rw [closes_eq, isBracket]
        decide
    have braced := @Clauses.braces (markFace '\x7b') (markFace '\x7d') _ _ _ passed (by decide)
      (by decide) closes
    rw [List.append_nil] at braced
    rw [List.cons_append, List.append_assoc]
    exact braced
  runs nest rest := by
    have isText : ("\x7b " ++ ", ".intercalate (specifiers.map specifierText) ++ " \x7d").toList ++
          ' ' :: rest =
        '\x7b' :: ' ' :: ([',', ' '].intercalate (specifiers.map (specifierText · |>.toList)) ++
          ' ' :: '\x7d' :: ' ' :: rest) := by
      simp [String.toList_intercalate, Function.comp_def]
    obtain ⟨inked, last, listed⟩ := run_specifiers (nest.raise 1) .opensPattern nonempty worded
      (stops_blank ('\x7d' :: ' ' :: rest))
    rw [isText]
    have closed := run_blank (run_closeBrace nest last (' ' :: rest)) (by simp; decide)
    exact ⟨_, (run_openBrace nest .opensPattern _).trans (run_blank (listed.trans closed) inked)⟩

private theorem enlists_star {name : String} (isWord : isBareWord name) :
    Enlists ("* as " ++ name) [⟨some .operator, "*"⟩, wordFace "as", wordFace name]
      [⟨"*", name⟩] where
  inked rest := by simp; decide
  first := ⟨_, _, rfl, by decide, by decide⟩
  clauses := by
    have passed : Clauses [wordFace "from"] [] :=
      clauses_nil.pass (by decide) (by decide) (fun _ => rfl)
    exact @Clauses.star ⟨some .operator, "*"⟩ (wordFace "as") (wordFace name) _ _ passed
      (by decide) rfl (kind_wordFace_of_isBareWord isWord)
  runs nest rest := by
    have isText : ("* as " ++ name).toList ++ ' ' :: rest =
        '*' :: ' ' :: ("as".toList ++ ' ' :: (name.toList ++ ' ' :: rest)) := by
      simp
    have joins : isBareWord "as" := by decide
    obtain ⟨afterJoint, isJoint⟩ := run_word (.inl joins) nest .opensPattern
      (stops_blank (name.toList ++ ' ' :: rest))
    obtain ⟨last, isLast⟩ := run_word (.inl isWord) nest afterJoint (stops_blank rest)
    have joined := isJoint.trans (run_blank isLast (inked_of_isWord (.inl isWord) _))
    rw [isText]
    exact ⟨last, (run_star nest .opensPattern _).trans
      (run_blank joined (inked_of_isWord (.inl joins) _))⟩

/-! ## The runtime import -/

private theorem packaged_named :
    ∀ spec ∈ Registry.packaged.specs, isName spec.runtimeExport.display ∧
      spec.runtimeExport.text? = some spec.runtimeExport.display := by
  decide +kernel

/-- The runtime import is read as an import from the runtime. -/
theorem Written.announces
    {settings : Settings}
    {filename : String}
    {module : Module}
    {expansion : Expansion}
    {uses : List Use}
    {topmost : List Output}
    {progress : Output.Progress}
    (written : Written settings Registry.packaged filename module expansion uses topmost progress)
    (isHead : settings.aliasHead = "_")
    (plain : Text.isPlainPath settings.runtimeModule)
    {statement : String}
    (isStatement : progress.aliases.importStatement? settings.runtimeModule = some statement) :
    ∃ covered specifiers, Announces statement covered settings.runtimeModule specifiers := by
  have isExport : ∀ entry ∈ progress.aliases.names, isName entry.1.display ∧
      entry.1.text? = some entry.1.display := by
    intro entry isEntry
    obtain ⟨spec, isListed, isOwn⟩ := written.exists_export isEntry
    exact isOwn ▸ packaged_named spec isListed
  have isText : progress.aliases.names.map Aliases.specifier =
      (progress.aliases.names.map fun entry => ⟨entry.1.display, entry.2⟩).map specifierText := by
    rw [List.map_map]
    refine List.map_congr_left fun entry isEntry => ?_
    simp only [Aliases.specifier, (isExport entry isEntry).2, Option.some.injEq,
      Function.comp_apply, specifierText]
  unfold Aliases.importStatement? at isStatement
  split at isStatement
  · simp at isStatement
  · rename_i nonempty
    have named : ∀ specifier ∈ progress.aliases.names.map fun entry =>
        (⟨entry.1.display, entry.2⟩ : Specifier), specifier.isNamed := by
      intro specifier member
      obtain ⟨entry, isEntry, rfl⟩ := List.mem_map.mp member
      simp [Specifier.isNamed, (isExport entry isEntry).1, written.isName_of_entry isHead isEntry]
    have announced := (enlists_braces (by simpa using nonempty) fun specifier member =>
      Specifier.isWorded_of_isNamed (named specifier member)).announces
        (Text.endsQuoted_of_isPlainPath plain)
    rw [← isText] at announced
    have isWhole : statement = "import " ++ ("\x7b " ++
        ", ".intercalate (progress.aliases.names.map Aliases.specifier) ++ " \x7d") ++ " from '" ++
          settings.runtimeModule ++ "';" := by
      rw [← Option.some.inj isStatement, ← String.toList_inj]
      simp
    rw [isWhole]
    exact ⟨_, _, announced⟩

/-! ## What is left of an import -/

/-- Whether specifiers are read back from the import that they are written in. -/
def areReadBack (specifiers : List Specifier) : Bool :=
  match specifiers with
  | [⟨"*", name⟩] => isName name
  | _ => specifiers.all (·.isPlain)

/-- Whether specifiers with words for local names are read back from the import that
they are written in. -/
def areRestorable (specifiers : List Specifier) : Bool :=
  match specifiers with
  | [⟨"*", name⟩] => isBareWord name
  | _ => specifiers.all (·.isRestorable)

private theorem areRestorable_of_areReadBack
    {specifiers : List Specifier}
    (readBack : areReadBack specifiers) :
    areRestorable specifiers := by
  unfold areReadBack at readBack
  unfold areRestorable
  split at readBack
  · simp [isBareWord, readBack]
  · rw [List.all_eq_true] at readBack ⊢
    exact fun specifier member => Specifier.isRestorable_of_isPlain (readBack specifier member)

private theorem isWord_of_areReadBack
    {specifiers : List Specifier}
    (readBack : areReadBack specifiers) :
    ∀ specifier ∈ specifiers, isBareWord specifier.localName ∨ isQuoted specifier.localName := by
  intro specifier member
  unfold areReadBack at readBack
  split at readBack
  · rw [List.mem_singleton.mp member]
    exact .inl (by simp [isBareWord, readBack])
  · have own := List.all_eq_true.mp readBack specifier member
    simp only [Specifier.isPlain, Bool.and_eq_true] at own
    exact (Specifier.isWorded_of_isNamed own.1.1).localName

/-- What is left of an import lists what it keeps. -/
theorem enlists_residual
    {bindings : Binding.Table}
    {declaration : Declaration}
    (areWords : ∀ specifier ∈ residualSpecifiers bindings declaration,
      isBareWord specifier.localName ∨ isQuoted specifier.localName)
    (restorable : areRestorable (residualSpecifiers bindings declaration))
    {text : String}
    (isLeft : residualImport? declaration (unknownNames bindings declaration) = some text) :
    ∃ names own, text = "import " ++ names ++ " from '" ++ declaration.path ++ "';" ∧
      Enlists names own (residualSpecifiers bindings declaration) := by
  unfold residualImport? at isLeft
  unfold residualSpecifiers at areWords restorable ⊢
  simp only at isLeft areWords restorable ⊢
  generalize (declaration.specifiers.filter fun specifier =>
    (unknownNames bindings declaration).contains specifier.localName) = kept
    at isLeft areWords restorable ⊢
  split at isLeft
  · simp at isLeft
  · rename_i written
    obtain rfl := Option.some.inj isLeft
    cases isWhole : kept.find? (·.imported = "*") with
    | some whole =>
      obtain ⟨imported, name⟩ := whole
      obtain rfl : imported = "*" := by simpa using List.find?_some isWhole
      simp only [isWhole] at restorable ⊢
      exact ⟨_, _, rfl, enlists_star restorable⟩
    | none =>
      simp only [isWhole] at areWords restorable ⊢
      have nonempty : kept ≠ [] := by
        rintro rfl
        simp at written
      have areOwn : ∀ specifier ∈ kept, specifier.isRestorable := by
        unfold areRestorable at restorable
        split at restorable
        · simp at isWhole
        · exact List.all_eq_true.mp restorable
      have worded : ∀ specifier ∈ kept, specifier.IsWorded := by
        intro specifier member
        have own := areOwn specifier member
        simp only [Specifier.isRestorable, Bool.and_eq_true] at own
        exact ⟨own.1.1, areWords specifier member⟩
      have enlists := enlists_braces nonempty worded
      rw [spelledSpecifiers_separated nonempty worded areOwn] at enlists
      exact ⟨_, _, rfl, enlists⟩

/-- What is left of an import is read as an import of what it keeps. -/
theorem announces_residual
    {bindings : Binding.Table}
    {declaration : Declaration}
    (plain : Text.isPlainPath declaration.path)
    (readBack : areReadBack (residualSpecifiers bindings declaration))
    {text : String}
    (isLeft : residualImport? declaration (unknownNames bindings declaration) = some text) :
    ∃ covered, Announces text covered declaration.path (residualSpecifiers bindings declaration) := by
  obtain ⟨names, own, rfl, enlists⟩ := enlists_residual (isWord_of_areReadBack readBack)
    (areRestorable_of_areReadBack readBack) isLeft
  exact ⟨_, enlists.announces (Text.endsQuoted_of_isPlainPath plain)⟩

end Expansion

end Restyle
