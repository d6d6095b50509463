import Restyle.Proofs.Declaration.Sections
import Restyle.Proofs.Expansion.Statements

/-!
Contract: the faces that are left of a module's tokens when it is expanded.

Owns: `Echoes`, faces that show the tokens outside import statements, with outputs
and import statements in between; that such faces are orderly where the tokens
require no macro module; and that tokens with outputs in place of some of them
have such faces.
-/

namespace Restyle

open Token Lexeme Declaration

/-! ## The first face of an output -/

/-- Whether a face begins with a character that may begin a name. -/
def Token.Face.isLettered (face : Face) : Bool :=
  face.text.toList.head?.any Text.isIdentifierStart

private theorem Token.Face.ne_of_isLettered
    {face : Face}
    (lettered : face.isLettered)
    {text : String}
    (isOther : text.toList.head?.any Text.isIdentifierStart = false) :
    face.text ≠ text := by
  rintro rfl
  simp [isLettered, isOther] at lettered

private theorem Token.Face.not_isSlashed_of_isLettered {face : Face} (lettered : face.isLettered) :
    face.isSlashed = false := by
  unfold isLettered at lettered
  unfold isSlashed
  cases isHead : face.text.toList.head? with
  | none => simp
  | some c =>
    rw [isHead, Option.any_some] at lettered
    have notSlash : c ≠ '/' := by
      rintro rfl
      exact absurd lettered (by decide)
    simpa using notSlash

/-- A word is read from a text that begins with one. -/
theorem Lexeme.exists_word
    {first : Char}
    (starts : Text.isIdentifierStart first)
    (rest : List Char) :
    ∃ kind tail, (kind = .keyword ∨ kind = .identifier) ∧ word? first rest = some (kind, tail) := by
  simp only [word?, starts, if_true]
  split
  · exact ⟨_, _, .inl rfl, rfl⟩
  · exact ⟨_, _, .inr rfl, rfl⟩

/-- The first face of an output is a word. -/
theorem Output.ReadsAs.exists_first
    {output : Output}
    {faces : List Face}
    (reads : output.ReadsAs faces) :
    ∃ first others, faces = first :: others ∧ first.kind ≠ some .string ∧ first.isLettered := by
  obtain ⟨c, more, isCode, starts⟩ := reads.begins
  have run := reads.runs .module .divides [] (fun _ => rfl)
  rw [isCode, List.append_nil] at run
  generalize isText : c :: more = text at run
  cases run with
  | here => exact absurd rfl reads.nonempty
  | trivia isStep isTrivia =>
    obtain ⟨rfl, rfl⟩ := List.cons.inj isText
    obtain ⟨kind, tail, isKind, found⟩ := exists_word starts _
    rw [codeStep_of_word found] at isStep
    rw [← (Step.mk.inj isStep).1] at isTrivia
    rcases isKind with rfl | rfl <;> simp [Lexeme.Kind.isTrivia] at isTrivia
  | atom isStep =>
    obtain ⟨rfl, rfl⟩ := List.cons.inj isText
    obtain ⟨kind, tail, isKind, found⟩ := exists_word starts _
    rw [codeStep_of_word found] at isStep
    refine ⟨_, _, rfl, ?_, ?_⟩
    · rw [← (Step.mk.inj isStep).1]
      rcases isKind with rfl | rfl <;> simp [kindOf]
    · simpa [Face.isLettered] using starts
  | template =>
    obtain ⟨rfl, -⟩ := List.cons.inj isText
    exact absurd starts (by decide)

/-! ## Faces of an expanded module -/

namespace Expansion

/-- Whether nothing among some faces requires a macro module. -/
def requiresNone (settings : Settings) : List Face → Bool
  | [] => true
  | face :: rest => !requiresMacro settings face rest && requiresNone settings rest

/-- Whether faces may begin with the path of a macro module in parentheses, given what
may follow them. -/
def mayNameMacro (settings : Settings) : List Face → Bool
  | [] => true
  | [opener] => opener.text = "("
  | faces => namesMacro settings faces

/-- Whether, whatever follows some faces, none of them begins an import statement or
requires a macro module. -/
def declaresNone (settings : Settings) : List Face → Bool
  | [] => true
  | face :: rest =>
    !(face.kind = some .keyword && face.text = "import" &&
        rest.head?.all fun next => next.text ≠ "(" && next.text ≠ ".") &&
      !(face.kind = some .identifier && face.text = "require" && mayNameMacro settings rest) &&
      declaresNone settings rest

/-- Faces of tokens that belong to no import statement, in their order.  An output
may stand in place of some of them, and between them import statements that take
from their modules what they may. -/
inductive Echoes (settings : Settings) (allowed : String → List Specifier → Prop) :
    List Token → List Face → Prop where
  | nil : Echoes settings allowed [] []
  | keep {token : Token} {tokens : List Token} {face : Face} {faces : List Face}
      (kept : face = token.face ∨ face.kind = none ∧ face.text.toList.head? = some '`')
      (begins : beginsImport face faces = false)
      (later : Echoes settings allowed tokens faces) :
      Echoes settings allowed (token :: tokens) (face :: faces)
  | output {dropped tokens : List Token} {first : Face} {own faces : List Face}
      (notString : first.kind ≠ some .string)
      (lettered : first.isLettered)
      (declares : declaresNone settings (first :: own))
      (later : Echoes settings allowed tokens faces) :
      Echoes settings allowed (dropped ++ tokens) (first :: own ++ faces)
  | statement {tokens : List Token} {covered faces : List Face} {path : String}
      {specifiers : List Specifier}
      (begins : beginsImport importFace covered)
      (states : States covered path specifiers)
      (isAllowed : allowed path specifiers)
      (later : Echoes settings allowed tokens faces) :
      Echoes settings allowed tokens (importFace :: (covered ++ faces))

variable
  {settings : Settings}
  {allowed : String → List Specifier → Prop}
  {source : List Char}
  {tokens loose : List Token}
  {faces : List Face}

/-- No path of a macro module comes to stand in parentheses. -/
theorem Echoes.namesMacro
    (echoes : Echoes settings allowed tokens faces)
    (none : namesMacro settings (tokens.map Token.face) = false) :
    namesMacro settings faces = false := by
  have other : ∀ {face : Face} {rest : List Face}, face.text ≠ "(" →
      Declaration.namesMacro settings (face :: rest) = false := by
    intro face rest notParen
    cases rest <;> simp [Declaration.namesMacro, notParen]
  cases echoes with
  | nil => rfl
  | output _ lettered => exact other (Face.ne_of_isLettered lettered (by decide))
  | statement => exact other (by decide)
  | @keep token tokens face faces kept _ later =>
    rcases kept with rfl | ⟨-, isMark⟩
    · cases later with
      | nil => rfl
      | output notString => simp [Declaration.namesMacro, notString]
      | statement => simp [Declaration.namesMacro, importFace]
      | keep kept =>
        rcases kept with rfl | ⟨noKind, -⟩
        · exact none
        · simp [Declaration.namesMacro, noKind]
    · refine other fun isParen => ?_
      rw [isParen] at isMark
      exact absurd isMark (by decide)

/-- What begins no import statement, whatever follows, begins none before other faces,
and requires no macro module there. -/
theorem declaresNone_append
    {face : Face}
    {own : List Face}
    (declares : declaresNone settings (face :: own))
    (rest : List Face) :
    beginsImport face (own ++ rest) = false ∧ requiresMacro settings face (own ++ rest) = false := by
  rw [declaresNone, Bool.and_eq_true, Bool.and_eq_true, Bool.not_eq_true', Bool.not_eq_true',
    Bool.and_eq_false_iff, Bool.and_eq_false_iff (y := mayNameMacro settings own)] at declares
  obtain ⟨⟨notImport, notRequire⟩, -⟩ := declares
  constructor
  · rw [beginsImport, Bool.and_eq_false_iff]
    refine notImport.imp_right fun notFollowed => ?_
    cases own with
    | nil => simp at notFollowed
    | cons next own => exact notFollowed
  · rw [requiresMacro, Bool.and_eq_false_iff]
    refine notRequire.imp_right fun notNamed => ?_
    cases own with
    | nil => simp [mayNameMacro] at notNamed
    | cons opener own =>
      cases own with
      | nil =>
        have notParen : opener.text ≠ "(" := by simpa [mayNameMacro] using notNamed
        cases rest <;> simp [namesMacro, notParen]
      | cons path own => exact notNamed

private theorem beginsImport_append
    {face : Face}
    {covered : List Face}
    (begins : beginsImport face covered)
    (rest : List Face) :
    beginsImport face (covered ++ rest) := by
  cases covered with
  | nil => simp [beginsImport] at begins
  | cons first covered => exact begins

/-- The faces of an expanded module are orderly, where none of its tokens requires a
macro module. -/
theorem Echoes.orderly
    (echoes : Echoes settings allowed tokens faces)
    (none : requiresNone settings (tokens.map Token.face)) :
    Orderly settings allowed faces := by
  induction echoes with
  | nil => exact .nil
  | @keep token tokens face faces kept begins later inductionHypothesis =>
    rw [List.map_cons, requiresNone, Bool.and_eq_true, Bool.not_eq_true'] at none
    refine .other begins ?_ (inductionHypothesis none.2)
    rcases kept with rfl | ⟨noKind, -⟩
    · unfold requiresMacro at none ⊢
      rw [Bool.and_eq_false_iff] at none ⊢
      exact none.1.imp_right later.namesMacro
    · simp [requiresMacro, noKind]
  | @output dropped tokens first own faces _ _ declares later inductionHypothesis =>
    have laterNone : requiresNone settings (tokens.map Token.face) := by
      rw [List.map_append] at none
      generalize dropped.map Token.face = early at none
      induction early with
      | nil => exact none
      | cons face early droppedHypothesis =>
        rw [List.cons_append, requiresNone, Bool.and_eq_true] at none
        exact droppedHypothesis none.2
    have rest := inductionHypothesis laterNone
    generalize first :: own = all at declares
    induction all with
    | nil => exact rest
    | cons face all ownHypothesis =>
      obtain ⟨notImport, notRequire⟩ := declaresNone_append declares faces
      rw [declaresNone, Bool.and_eq_true] at declares
      exact .other notImport notRequire (ownHypothesis declares.2)
  | statement begins states isAllowed later inductionHypothesis =>
    exact .statement (beginsImport_append begins _) states isAllowed (inductionHypothesis none)

/-! ## Tokens with outputs in place of some of them -/

private theorem not_replaced_of_mark
    {token : Token}
    (placed : Token.Placed source token)
    (isMark : token.text ∈ ["(", "."]) :
    token.is .identifier = false ∧ token.isTemplate = false := by
  constructor
  · by_contra isIdentifier
    have named := Output.isName_of_identifier placed (by simpa using isIdentifier)
    simp only [List.mem_cons, List.not_mem_nil, or_false] at isMark
    rcases isMark with isText | isText <;> exact absurd (isText ▸ named) (by decide)
  · cases placed with
    | atom => rfl
    | template opening inner =>
      exfalso
      have early := inner.bounds.1
      rw [← Text.slice_append_slice source (Nat.le_succ _) (by omega), Text.slice_succ opening]
        at isMark
      simp only [List.mem_cons, List.not_mem_nil, or_false, ofList_eq_iff] at isMark
      rcases isMark with isText | isText <;> simp at isText

private theorem head_of_respelled
    {token : Token}
    {outputs : List Output}
    (respelled : Output.Respelled source (token :: tokens) outputs faces)
    (notName : token.is .identifier = false)
    (notTemplate : token.isTemplate = false) :
    faces.head? = some token.face := by
  cases respelled with
  | keep kept =>
    rcases kept with rfl | ⟨isTemplate, -⟩
    · rfl
    · simp [isTemplate] at notTemplate
  | replace isName => simp [isName] at notName

private theorem beginsImport_of_respelled
    {token : Token}
    {next : List Token}
    {outputs : List Output}
    {rest : List Face}
    (respelled : Output.Respelled source tokens outputs faces)
    (placed : ∀ token ∈ tokens, Token.Placed source token)
    (begins : beginsImport token.face ((tokens ++ next).map Token.face) = false)
    (ended : next = [] → rest = [])
    (stated : ∀ first others, next = first :: others → first.text = "import") :
    beginsImport token.face (faces ++ rest) = false := by
  unfold beginsImport at begins ⊢
  rw [Bool.and_eq_false_iff] at begins ⊢
  refine begins.imp_right fun notFollowed => ?_
  cases tokens with
  | nil =>
    cases respelled
    cases next with
    | nil => rw [ended rfl]; rfl
    | cons first others => simp [Token.text_face, stated first others rfl] at notFollowed
  | cons first others =>
    have isMark : first.text ∈ ["(", "."] := by
      simp only [List.cons_append, List.map_cons, List.head?_cons, Option.any_some,
        Token.text_face] at notFollowed
      simp only [List.mem_cons, List.not_mem_nil, or_false]
      by_contra neither
      simp [not_or.mp neither] at notFollowed
    obtain ⟨notName, notTemplate⟩ := not_replaced_of_mark (placed first List.mem_cons_self) isMark
    rw [List.head?_append, head_of_respelled respelled notName notTemplate]
    simpa using notFollowed

/-- Tokens between import statements have the faces of an expanded module. -/
theorem echoes_of_respelled
    {segment next : List Token}
    {outputs : List Output}
    {rest : List Face}
    (respelled : Output.Respelled source segment outputs faces)
    (placed : ∀ token ∈ segment, Token.Placed source token)
    (free : Free next segment)
    (declares : ∀ output ∈ outputs, ∀ own, output.ReadsAs own → declaresNone settings own)
    (ended : next = [] → rest = [])
    (stated : ∀ first others, next = first :: others → first.text = "import")
    (later : Echoes settings allowed loose rest) :
    Echoes settings allowed (segment ++ loose) (faces ++ rest) := by
  induction respelled with
  | nil => exact later
  | @keep token tokens inner others face faces kept respelled inductionHypothesis =>
    obtain ⟨-, placed⟩ := List.forall_mem_cons.mp placed
    cases free with
    | cons begins free =>
      have further := inductionHypothesis placed free
        (fun output member => declares output (List.mem_append_right _ member))
      rcases kept with rfl | ⟨-, own, rfl, -⟩
      · exact .keep (.inl rfl) (beginsImport_of_respelled respelled placed begins ended stated)
          further
      · exact .keep (.inr ⟨rfl, by simp⟩) rfl further
  | @replace token covered after output own faces others isName reads respelled
      inductionHypothesis =>
    have further := inductionHypothesis (fun token member => placed token (by simp [member]))
      (@Free.of_append next (token :: covered) after free)
      (fun output member => declares output (List.mem_cons_of_mem _ member))
    obtain ⟨first, others, rfl, notString, lettered⟩ := reads.exists_first
    have declaresOwn := declares output List.mem_cons_self _ reads
    have isAll : token :: (covered ++ after) ++ loose = (token :: covered) ++ (after ++ loose) := by
      simp
    rw [isAll, List.append_assoc]
    exact .output notString lettered declaresOwn further

/-- The first face begins with a slash only if the first token does. -/
theorem not_isSlashed_of_respelled
    {outputs : List Output}
    (respelled : Output.Respelled source tokens outputs faces)
    (unslashed : tokens.head?.any (·.face.isSlashed) = false) :
    faces.head?.any (·.isSlashed) = false := by
  cases respelled with
  | nil => rfl
  | keep kept =>
    rcases kept with rfl | ⟨-, own, rfl, -⟩
    · simpa using unslashed
    · simp [Face.isSlashed]
  | replace isName reads =>
    obtain ⟨first, others, rfl, -, lettered⟩ := reads.exists_first
    simpa using Face.not_isSlashed_of_isLettered lettered

end Expansion

end Restyle
