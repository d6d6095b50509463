import Restyle.Proofs.Bracket.Balance
import Restyle.Proofs.Declaration.Extent
import Restyle.Settings

/-!
Contract: declarations as they are spelled.

Owns: that the reading of declarations looks at the faces of tokens alone;
`Clauses` and `States`, by which faces are read as the clause of an import
statement and as the rest of one, whatever follows; `Orderly`, faces of which
every import statement is known and that require no macro module; and that tokens
with such faces declare nothing else.
-/

namespace Restyle

open Token (Face)

/-! ## Faces of tokens -/

/-- The bracket that closes an open one is found again among tokens with the same
faces, whatever follows it. -/
theorem Bracket.close?_of_faces
    {depth : Nat}
    {before after : List Token}
    {closer : Token}
    (found : close? depth (before ++ closer :: after) = some ⟨before, closer, after⟩)
    {others : List Token}
    {other : Token}
    (same : others.map Token.face = before.map Token.face)
    (sameCloser : other.face = closer.face)
    (rest : List Token) :
    close? depth (others ++ other :: rest) = some ⟨others, other, rest⟩ := by
  have isOpener {token own : Token} (same : own.face = token.face) : opens own = opens token := by
    rw [opens_eq, opens_eq, same]
  have isCloser {token own : Token} (same : own.face = token.face) : closes own = closes token := by
    rw [closes_eq, closes_eq, same]
  induction before generalizing depth others with
  | nil =>
    obtain rfl := List.map_eq_nil_iff.mp same
    simp only [List.nil_append, close?] at found ⊢
    rw [isOpener sameCloser, isCloser sameCloser]
    split at found
    · obtain ⟨cut, -, isCut⟩ := Option.map_eq_some_iff.mp found
      simp at isCut
    · rename_i notOpener
      rw [if_neg notOpener]
      split at found
      · rename_i closes
        rw [if_pos closes]
        cases depth with
        | zero => rfl
        | succ depth =>
          obtain ⟨cut, -, isCut⟩ := Option.map_eq_some_iff.mp found
          simp at isCut
      · obtain ⟨cut, -, isCut⟩ := Option.map_eq_some_iff.mp found
        simp at isCut
  | cons token before inductionHypothesis =>
    obtain ⟨first, others, rfl, sameFirst, same⟩ := List.map_eq_cons_iff.mp same
    have further : ∀ next,
        (close? next (before ++ closer :: after)).map
            (fun cut => { cut with before := token :: cut.before }) =
          some ⟨token :: before, closer, after⟩ →
        (close? next (others ++ other :: rest)).map
            (fun cut => { cut with before := first :: cut.before }) =
          some ⟨first :: others, other, rest⟩ := by
      intro next found
      obtain ⟨⟨own, bracket, left⟩, isFound, isCut⟩ := Option.map_eq_some_iff.mp found
      simp only [Cut.mk.injEq, List.cons.injEq, true_and] at isCut
      obtain ⟨rfl, rfl, rfl⟩ := isCut
      rw [inductionHypothesis isFound same]
      rfl
    simp only [List.cons_append, close?] at found ⊢
    rw [isOpener sameFirst, isCloser sameFirst]
    split at found
    · rw [if_pos ‹_›]
      exact further _ found
    · rw [if_neg ‹_›]
      split at found
      · rw [if_pos ‹_›]
        cases depth with
        | zero => simp at found
        | succ depth => exact further _ found
      · rw [if_neg ‹_›]
        exact further _ found

namespace Declaration

/-! ## Specifiers -/

/-- Whether a face may be a name of a specifier. -/
def isSpecifierName (face : Face) : Bool :=
  (face.kind = some .identifier || face.kind = some .keyword || face.kind = some .string) &&
    face.text ≠ "as"

def spelledSpecifier? (entry : List Face) : Option Specifier :=
  let names := entry.filter isSpecifierName
  match names.head?, names.getLast? with
  | some first, some last => some ⟨Text.trim isQuote first.text, last.text⟩
  | _, _ => none

def spelledSpecifiers (faces : List Face) : List Specifier :=
  (splitWhere (·.text = ",") faces).filterMap spelledSpecifier?

private theorem specifier?_eq_spelled (entry : List Token) :
    specifier? entry = spelledSpecifier? (entry.map Token.face) := by
  have isName : (fun token : Token => (token.isName || token.is .string) && token.text ≠ "as") =
      isSpecifierName ∘ Token.face := by
    funext token
    simp [isSpecifierName, Token.isName, Token.is_eq_face, Token.text_face]
  unfold specifier? spelledSpecifier?
  simp only [isName, List.filter_map, List.head?_map, List.getLast?_map]
  cases (entry.filter (isSpecifierName ∘ Token.face)).head? with
  | none => rfl
  | some first =>
    cases (entry.filter (isSpecifierName ∘ Token.face)).getLast? with
    | none => rfl
    | some last => simp [Token.text_face]

theorem specifiersOf_eq_spelled (tokens : List Token) :
    specifiersOf tokens = spelledSpecifiers (tokens.map Token.face) := by
  have isCut : (fun token : Token => decide (token.text = ",")) =
      fun token => decide (token.face.text = ",") := by
    funext token
    rw [Token.text_face]
  have spelled : specifier? = spelledSpecifier? ∘ List.map Token.face :=
    funext specifier?_eq_spelled
  rw [specifiersOf, spelledSpecifiers, isCut,
    ← map_splitWhere Token.face (fun face => decide (face.text = ",")) tokens,
    List.filterMap_map, spelled]

/-! ## Import statements -/

/-- Faces are read as the clause of an import statement, whatever path follows. -/
def Clauses (faces : List Face) (specifiers : List Specifier) : Prop :=
  ∀ (tokens : List Token) (path : Token) (rest : List Token), tokens.map Token.face = faces →
    path.is .string → readClause (tokens ++ path :: rest) = .ok ⟨specifiers, path :: rest⟩

/-- Faces are read as what follows the keyword of an import statement.  A semicolon
after them may be taken, too. -/
def States (faces : List Face) (path : String) (specifiers : List Specifier) : Prop :=
  ∀ (keyword : Token) (tokens after : List Token), tokens.map Token.face = faces →
    ∃ declaration length, readImport keyword (tokens ++ after) = .ok (declaration, length) ∧
      declaration.path = path ∧ declaration.specifiers = specifiers ∧
      declaration.mechanism = .module ∧
      (length = tokens.length ∨ ∃ next more, after = next :: more ∧ next.text = ";" ∧
        length = tokens.length + 1)

theorem clauses_nil : Clauses [] [] := by
  intro tokens path rest isFaces isString
  obtain rfl := List.map_eq_nil_iff.mp isFaces
  exact readClause_of_string isString rest

/-- Names between braces before the rest of a clause. -/
theorem Clauses.braces
    {opener closer : Face}
    {names faces : List Face}
    {specifiers : List Specifier}
    (later : Clauses faces specifiers)
    (notString : opener.kind ≠ some .string)
    (isOpener : opener.text = "\x7b")
    (closes : ∀ (own : List Token) (bracket : Token) (rest : List Token),
      own.map Token.face = names → bracket.face = closer →
        Bracket.close? 0 (own ++ bracket :: rest) = some ⟨own, bracket, rest⟩) :
    Clauses (opener :: (names ++ closer :: faces)) (spelledSpecifiers names ++ specifiers) := by
  intro tokens path rest isFaces isString
  obtain ⟨first, tokens, rfl, isFirst, isFaces⟩ := List.map_eq_cons_iff.mp isFaces
  obtain ⟨own, tokens, rfl, isOwn, isFaces⟩ := List.map_eq_append_iff.mp isFaces
  obtain ⟨bracket, tokens, rfl, isBracket, isFaces⟩ := List.map_eq_cons_iff.mp isFaces
  have found := closes own bracket (tokens ++ path :: rest) isOwn isBracket
  have after := later tokens path rest isFaces isString
  have notPath : ¬ first.is .string := by simp [Token.is_eq_face, isFirst, notString]
  have isBrace : first.text = "\x7b" := by rw [← Token.text_face, isFirst, isOpener]
  rw [List.cons_append, List.append_assoc, List.cons_append,
    readClause_brace notPath isBrace found]
  simp only [after, Except.map, Clause.cons, specifiersOf_eq_spelled, isOwn]

/-- A name for the module as a whole before the rest of a clause. -/
theorem Clauses.star
    {star word name : Face}
    {faces : List Face}
    {specifiers : List Specifier}
    (later : Clauses faces specifiers)
    (notString : star.kind ≠ some .string)
    (isStar : star.text = "*")
    (isName : name.kind = some .identifier ∨ name.kind = some .keyword) :
    Clauses (star :: word :: name :: faces) (⟨"*", name.text⟩ :: specifiers) := by
  intro tokens path rest isFaces isString
  obtain ⟨first, tokens, rfl, isFirst, isFaces⟩ := List.map_eq_cons_iff.mp isFaces
  obtain ⟨second, tokens, rfl, -, isFaces⟩ := List.map_eq_cons_iff.mp isFaces
  obtain ⟨third, tokens, rfl, isThird, isFaces⟩ := List.map_eq_cons_iff.mp isFaces
  have after := later tokens path rest isFaces isString
  have notPath : ¬ first.is .string := by simp [Token.is_eq_face, isFirst, notString]
  have isText : first.text = "*" := by rw [← Token.text_face, isFirst, isStar]
  have named : third.isName := by simpa [Token.isName, Token.is_eq_face, isThird] using isName
  have isLocal : third.text = name.text := by rw [← Token.text_face, isThird]
  rw [List.cons_append, List.cons_append, List.cons_append, readClause_star notPath isText,
    if_pos named]
  simp only [after, Except.map, Clause.cons, isLocal, List.singleton_append]

/-- A default name before the rest of a clause. -/
theorem Clauses.named
    {name : Face}
    {faces : List Face}
    {specifiers : List Specifier}
    (later : Clauses faces specifiers)
    (isName : name.kind = some .identifier)
    (isOther : name.text ∉ ["\x7b", "*", ";", "from"]) :
    Clauses (name :: faces) (⟨"default", name.text⟩ :: specifiers) := by
  intro tokens path rest isFaces isString
  obtain ⟨first, tokens, rfl, isFirst, isFaces⟩ := List.map_eq_cons_iff.mp isFaces
  have after := later tokens path rest isFaces isString
  have isText : first.text = name.text := by rw [← Token.text_face, isFirst]
  rw [← isText] at isOther ⊢
  simp only [List.mem_cons, List.not_mem_nil, or_false, not_or] at isOther
  have notPath : ¬ first.is .string := by simp [Token.is_eq_face, isFirst, isName]
  have isDefault : (first.is .identifier && first.text ≠ "from") = true := by
    simp [Token.is_eq_face, isFirst, isName, isOther]
  rw [List.cons_append, readClause_named notPath (by simp [isOther]) isDefault, after]
  rfl

/-- What is neither a name nor a mark of a clause is passed over. -/
theorem Clauses.pass
    {face : Face}
    {faces : List Face}
    {specifiers : List Specifier}
    (later : Clauses faces specifiers)
    (notString : face.kind ≠ some .string)
    (isOther : face.text ∉ ["\x7b", "*", ";"])
    (noName : face.kind = some .identifier → face.text = "from") :
    Clauses (face :: faces) specifiers := by
  intro tokens path rest isFaces isString
  obtain ⟨first, tokens, rfl, isFirst, isFaces⟩ := List.map_eq_cons_iff.mp isFaces
  have isText : first.text = face.text := by rw [← Token.text_face, isFirst]
  rw [← isText] at isOther noName
  have notPath : ¬ first.is .string := by simp [Token.is_eq_face, isFirst, notString]
  have notDefault : ¬ (first.is .identifier && first.text ≠ "from") := by
    simpa [Token.is_eq_face, isFirst] using noName
  rw [List.cons_append, readClause_pass notPath isOther notDefault]
  exact later tokens path rest isFaces isString

private theorem clauses_of_readClause
    {tokens : List Token}
    {clause : Clause}
    (isClause : readClause tokens = .ok clause)
    {front after : List Token}
    {path : Token}
    (isRest : clause.rest = path :: after)
    (isFront : tokens = front ++ path :: after)
    (isString : path.is .string) :
    Clauses (front.map Token.face) clause.specifiers := by
  -- The first token of a clause that goes on is no path, so it is in front of one.
  have uncons {token : Token} {rest : List Token} {front : List Token}
      (isAll : token :: rest = front ++ path :: after) (notString : ¬ token.is .string) :
      ∃ more, front = token :: more ∧ rest = more ++ path :: after := by
    cases front with
    | nil =>
      obtain ⟨rfl, -⟩ := List.cons.inj isAll
      exact absurd isString notString
    | cons first more =>
      obtain ⟨rfl, isMore⟩ := List.cons.inj isAll
      exact ⟨more, rfl, isMore⟩
  fun_induction readClause tokens generalizing clause front with
  | case1 => simp at isFront
  | case2 token rest ends =>
    simp only [Except.ok.injEq] at isClause
    subst isClause
    have isRest : token :: rest = [] ++ path :: after := isRest
    rw [← List.append_cancel_right (isRest.symm.trans isFront)]
    exact clauses_nil
  | case3 | case6 | case7 => simp at isClause
  | case4 token rest notString isBrace cut found inductionHypothesis =>
    obtain ⟨inner, isInner, rfl⟩ := exists_of_map_ok isClause
    obtain ⟨more, rfl, isMore⟩ := uncons isFront notString
    obtain ⟨between, isBetween⟩ := suffix_of_readClause isInner
    have isRest : inner.rest = path :: after := isRest
    rw [isRest] at isBetween
    obtain rfl : more = cut.before ++ cut.token :: between := by
      rw [Bracket.eq_of_close? found, ← isBetween, ← List.cons_append, ← List.append_assoc] at isMore
      exact (List.append_cancel_right isMore).symm
    have later := inductionHypothesis isInner isRest isBetween.symm
    have isCut : Bracket.close? 0 (cut.before ++ cut.token :: cut.after) =
        some ⟨cut.before, cut.token, cut.after⟩ := by
      rw [← Bracket.eq_of_close? found]
      exact found
    rw [List.map_cons, List.map_append, List.map_cons, Clause.cons, specifiersOf_eq_spelled]
    refine later.braces (by simpa [Token.is_eq_face] using notString)
      (by rw [Token.text_face, isBrace]) ?_
    intro own bracket rest isOwn isBracket
    exact Bracket.close?_of_faces isCut isOwn isBracket rest
  | case5 token notString _ isStar word name rest isName inductionHypothesis =>
    obtain ⟨inner, isInner, rfl⟩ := exists_of_map_ok isClause
    obtain ⟨between, isBetween⟩ := suffix_of_readClause isInner
    have isRest : inner.rest = path :: after := isRest
    rw [isRest] at isBetween
    obtain rfl : front = token :: word :: name :: between := by
      rw [← isBetween] at isFront
      exact (List.append_cancel_right isFront).symm
    have later := inductionHypothesis isInner isRest isBetween.symm
    rw [List.map_cons, List.map_cons, List.map_cons, Clause.cons]
    have starred := @Clauses.star token.face word.face name.face _ _ later
      (by simpa [Token.is_eq_face] using notString) (by rw [Token.text_face, isStar])
      (by simpa [Token.isName, Token.is_eq_face] using isName)
    rwa [Token.text_face] at starred
  | case8 token rest notString =>
    simp only [Except.ok.injEq] at isClause
    subst isClause
    obtain ⟨rfl, -⟩ := List.cons.inj isRest
    exact absurd isString notString
  | case9 token rest notString notBrace notStar notSemicolon isName inductionHypothesis =>
    obtain ⟨inner, isInner, rfl⟩ := exists_of_map_ok isClause
    obtain ⟨more, rfl, isMore⟩ := uncons isFront notString
    have later := inductionHypothesis isInner isRest isMore
    simp only [Bool.and_eq_true, decide_eq_true_eq, Token.is_eq_face] at isName
    have named := later.named isName.1 (by
      simp only [List.mem_cons, List.not_mem_nil, or_false, not_or, Token.text_face]
      exact ⟨notBrace, notStar, notSemicolon, isName.2⟩)
    rwa [Token.text_face] at named
  | case10 token rest notString notBrace notStar notSemicolon noName inductionHypothesis =>
    obtain ⟨more, rfl, isMore⟩ := uncons isFront notString
    refine (inductionHypothesis isClause isRest isMore).pass
      (by simpa [Token.is_eq_face] using notString) ?_ ?_
    · simp only [List.mem_cons, List.not_mem_nil, or_false, not_or, Token.text_face]
      exact ⟨notBrace, notStar, notSemicolon⟩
    · simpa [Token.is_eq_face, Token.text_face] using noName

/-- A clause and a path are read as an import statement, with the semicolon after
them if there is one. -/
theorem Clauses.readImport
    {faces : List Face}
    {specifiers : List Specifier}
    (clauses : Clauses faces specifiers)
    (keyword : Token)
    {front : List Token}
    {path : Token}
    (isFront : front.map Token.face = faces)
    (isString : path.is .string)
    (after : List Token) :
    Declaration.readImport keyword (front ++ path :: after) =
      .ok (⟨Text.unquote path.text, specifiers, .module, keyword.start, closingStop path after,
        keyword.location⟩,
        front.length + 1 + if after.head?.any (·.text = ";") then 1 else 0) := by
  rw [Declaration.readImport, clauses front path after isFront isString]
  show (if path.is .string then _ else _) = _
  rw [if_pos isString]
  cases after with
  | nil =>
    refine congrArg Except.ok (Prod.ext rfl ?_)
    simp
  | cons next more =>
    by_cases isSemicolon : next.text = ";"
    · simp only [isSemicolon, if_true, closingStop]
      refine congrArg Except.ok (Prod.ext rfl ?_)
      simp [isSemicolon]
      omega
    · simp only [isSemicolon, if_false, closingStop]
      refine congrArg Except.ok (Prod.ext rfl ?_)
      simp [isSemicolon]
      omega

/-- A clause and a path are the rest of an import statement. -/
theorem Clauses.states
    {faces : List Face}
    {specifiers : List Specifier}
    (clauses : Clauses faces specifiers)
    {path : Face}
    (isString : path.kind = some .string) :
    States (faces ++ [path]) (Text.unquote path.text) specifiers := by
  intro keyword tokens after isFaces
  obtain ⟨front, ending, rfl, isFront, isEnding⟩ := List.map_eq_append_iff.mp isFaces
  obtain ⟨last, ending, rfl, rfl, isNil⟩ := List.map_eq_cons_iff.mp isEnding
  obtain rfl := List.map_eq_nil_iff.mp isNil
  have isImport := clauses.readImport keyword isFront (by simpa [Token.is_eq_face] using isString)
    after
  rw [List.append_assoc, List.singleton_append, Token.text_face]
  refine ⟨_, _, isImport, rfl, rfl, rfl, ?_⟩
  cases after with
  | nil => exact .inl (by simp)
  | cons next more =>
    by_cases isSemicolon : next.text = ";"
    · exact .inr ⟨next, more, rfl, isSemicolon, by simp [isSemicolon]⟩
    · exact .inl (by simp [isSemicolon])

/-- A clause, a path and a semicolon are the rest of an import statement. -/
theorem Clauses.states_semicolon
    {faces : List Face}
    {specifiers : List Specifier}
    (clauses : Clauses faces specifiers)
    {path semicolon : Face}
    (isString : path.kind = some .string)
    (isSemicolon : semicolon.text = ";") :
    States (faces ++ [path, semicolon]) (Text.unquote path.text) specifiers := by
  intro keyword tokens after isFaces
  obtain ⟨front, ending, rfl, isFront, isEnding⟩ := List.map_eq_append_iff.mp isFaces
  obtain ⟨last, ending, rfl, rfl, isRest⟩ := List.map_eq_cons_iff.mp isEnding
  obtain ⟨mark, ending, rfl, rfl, isNil⟩ := List.map_eq_cons_iff.mp isRest
  obtain rfl := List.map_eq_nil_iff.mp isNil
  have isImport := clauses.readImport keyword isFront (by simpa [Token.is_eq_face] using isString)
    (mark :: after)
  rw [Token.text_face] at isSemicolon
  rw [List.append_assoc, List.cons_append, List.singleton_append, Token.text_face]
  exact ⟨_, _, isImport, rfl, rfl, rfl, .inl (by simp [isSemicolon])⟩

/-- An import statement that has been read is read again from any tokens with its
faces. -/
theorem exists_states
    {keyword : Token}
    {tokens : List Token}
    {declaration : Declaration}
    {length : Nat}
    (isImport : Declaration.readImport keyword tokens = .ok (declaration, length)) :
    ∃ covered after, tokens = covered ++ after ∧ covered.length = length ∧
      States (covered.map Token.face) declaration.path declaration.specifiers := by
  obtain ⟨clause, isClause, isRest⟩ := exists_of_bind_ok isImport
  obtain ⟨front, isFront⟩ := suffix_of_readClause isClause
  cases isPath : clause.rest with
  | nil => simp [isPath, throw, throwThe, MonadExceptOf.throw] at isRest
  | cons path after =>
    by_cases isString : path.is .string
    · rw [isPath] at isFront
      have clauses := clauses_of_readClause isClause isPath isFront.symm isString
      have isKind : path.face.kind = some .string := by simpa [Token.is_eq_face] using isString
      have again := clauses.readImport keyword rfl isString after
      rw [isFront, isImport, Except.ok.injEq, Prod.mk.injEq] at again
      obtain ⟨rfl, rfl⟩ := again
      by_cases ended : after.head?.any (·.text = ";")
      · obtain ⟨next, more, rfl⟩ : ∃ next more, after = next :: more := by
          cases after with
          | nil => simp at ended
          | cons next more => exact ⟨next, more, rfl⟩
        have isSemicolon : next.face.text = ";" := by simpa [Token.text_face] using ended
        refine ⟨front ++ [path, next], more, by simp [← isFront], by rw [if_pos ended]; simp, ?_⟩
        have states := clauses.states_semicolon isKind isSemicolon
        rw [Token.text_face] at states
        simpa using states
      · refine ⟨front ++ [path], after, by simp [← isFront], by simp [ended], ?_⟩
        have states := clauses.states isKind
        rw [Token.text_face] at states
        simpa using states
    · simp [isPath, isString, throw, throwThe, MonadExceptOf.throw] at isRest

/-! ## All declarations -/

/-- Whether a face begins an import statement, given those after it. -/
def beginsImport (face : Face) (after : List Face) : Bool :=
  face.kind = some .keyword && face.text = "import" &&
    after.head?.any fun next => next.text ≠ "(" && next.text ≠ "."

/-- Whether faces begin with the path of a macro module in parentheses. -/
def namesMacro (settings : Settings) : List Face → Bool
  | opener :: path :: _ =>
    opener.text = "(" && path.kind = some .string && settings.isMacroPath (Text.unquote path.text)
  | _ => false

/-- Whether a face begins a call that requires a macro module, given those after
it. -/
def requiresMacro (settings : Settings) (face : Face) (after : List Face) : Bool :=
  face.kind = some .identifier && face.text = "require" && namesMacro settings after

/-- Faces in which each import statement takes from its module what it may, and
nothing requires a macro module. -/
inductive Orderly (settings : Settings) (allowed : String → List Specifier → Prop) :
    List Face → Prop where
  | nil : Orderly settings allowed []
  | other {face : Face} {rest : List Face}
      (begins : beginsImport face rest = false)
      (requires : requiresMacro settings face rest = false)
      (later : Orderly settings allowed rest) :
      Orderly settings allowed (face :: rest)
  | statement {keyword : Face} {covered rest : List Face} {path : String}
      {specifiers : List Specifier}
      (begins : beginsImport keyword (covered ++ rest))
      (states : States covered path specifiers)
      (isAllowed : allowed path specifiers)
      (later : Orderly settings allowed rest) :
      Orderly settings allowed (keyword :: (covered ++ rest))

theorem readFrom_skip (before own after : List Token) :
    readFrom before own.length (own ++ after) = readFrom (own.reverse ++ before) 0 after := by
  induction own generalizing before with
  | nil => rfl
  | cons token own inductionHypothesis =>
    rw [List.cons_append, List.length_cons, readFrom, inductionHypothesis, List.reverse_cons,
      List.append_assoc, List.singleton_append]

theorem begins_eq (token : Token) (after : List Token) :
    (token.is .keyword && token.text = "import" && followsImport after) =
      beginsImport token.face (after.map Token.face) := by
  have isHead : (after.map Token.face).head? = after.head?.map Token.face := List.head?_map
  rw [beginsImport, isHead, Token.is_eq_face, Token.text_face, followsImport]
  cases after.head? with
  | none => rfl
  | some next => simp [Token.text_face]

private theorem not_macro_of_readRequire?
    {settings : Settings}
    {token : Token}
    {before after : List Token}
    (isRequire : token.is .identifier && token.text = "require")
    (calm : requiresMacro settings token.face (after.map Token.face) = false)
    {declaration : Declaration}
    (isRead : readRequire? before after = some declaration) :
    settings.isMacroPath declaration.path = false := by
  obtain ⟨required, isRequired, isRest⟩ := Option.bind_eq_some_iff.mp isRead
  have isPath : declaration.path = required.path := by
    split at isRest
    · split at isRest
      · obtain ⟨_, -, isFront⟩ := Option.bind_eq_some_iff.mp isRest
        obtain ⟨keyword, -, isDeclared⟩ := Option.bind_eq_some_iff.mp isFront
        split at isDeclared
        · rw [← Option.some.inj isDeclared]
        · simp at isDeclared
      · simp at isRest
    · simp at isRest
  rw [isPath]
  unfold required? at isRequired
  split at isRequired
  · rename_i opener path closer rest
    split at isRequired
    · rename_i called
      rw [← Option.some.inj isRequired]
      simp only [Bool.and_eq_true, decide_eq_true_eq, Token.is_eq_face] at isRequire called
      simpa [requiresMacro, namesMacro, Token.text_face, isRequire, called] using calm
    · simp at isRequired
  · simp at isRequired

theorem readFrom_other
    {token : Token}
    {after : List Token}
    (passes : (token.is .keyword && token.text = "import" && followsImport after) = false)
    (before : List Token) :
    readFrom before 0 (token :: after) =
      (readFrom (token :: before) 0 after).map
        ((if token.is .identifier && token.text = "require" then
          (readRequire? before after).toList else []) ++ ·) := by
  rw [readFrom, if_neg (by simp [passes])]
  cases readFrom (token :: before) 0 after <;> rfl

/-- Tokens with orderly faces declare what is allowed, and modules that are no macro
modules. -/
theorem Orderly.exists_readFrom
    {settings : Settings}
    {allowed : String → List Specifier → Prop}
    {faces : List Face}
    (orderly : Orderly settings allowed faces)
    (before : List Token)
    {tokens : List Token}
    (areFaces : tokens.map Token.face = faces) :
    ∃ declarations, readFrom before 0 tokens = .ok declarations ∧
      ∀ declaration ∈ declarations, settings.isMacroPath declaration.path →
        allowed declaration.path declaration.specifiers := by
  induction orderly generalizing before tokens with
  | nil =>
    obtain rfl := List.map_eq_nil_iff.mp areFaces
    exact ⟨[], rfl, by simp⟩
  | other begins requires later inductionHypothesis =>
    obtain ⟨token, after, rfl, rfl, rfl⟩ := List.map_eq_cons_iff.mp areFaces
    obtain ⟨others, isRead, areAllowed⟩ := inductionHypothesis (token :: before) rfl
    rw [readFrom_other ((begins_eq token after).trans begins), isRead]
    refine ⟨_, rfl, fun declaration member isMacro => ?_⟩
    rcases List.mem_append.mp member with own | other
    · split at own
      · rename_i isRequire
        simp [not_macro_of_readRequire? isRequire requires (Option.mem_toList.mp own)] at isMacro
      · simp at own
    · exact areAllowed declaration other isMacro
  | @statement keyword covered rest path specifiers begins states isAllowed later
      inductionHypothesis =>
    obtain ⟨token, tokens, rfl, rfl, areOthers⟩ := List.map_eq_cons_iff.mp areFaces
    obtain ⟨own, after, rfl, isOwn, isAfter⟩ := List.map_eq_append_iff.mp areOthers
    obtain ⟨declaration, length, isImport, rfl, rfl, -, isLength⟩ := states token own after isOwn
    have begins : (token.is .keyword && token.text = "import" && followsImport (own ++ after)) =
        true := by
      rw [begins_eq, List.map_append, isOwn, isAfter]
      exact begins
    -- A semicolon that is taken with the statement declares nothing where it is not.
    obtain ⟨others, isRead, areAllowed⟩ : ∃ others,
        readFrom (token :: before) length (own ++ after) = .ok others ∧
          ∀ declaration ∈ others, settings.isMacroPath declaration.path →
            allowed declaration.path declaration.specifiers := by
      rcases isLength with rfl | ⟨next, more, rfl, isSemicolon, rfl⟩
      · rw [readFrom_skip]
        exact inductionHypothesis _ isAfter
      · obtain ⟨others, isRead, areAllowed⟩ :=
          inductionHypothesis (own.reverse ++ token :: before) isAfter
        rw [readFrom_other (by simp [isSemicolon])] at isRead
        obtain ⟨own', isOwn', rfl⟩ := exists_of_map_ok isRead
        have isSkip : own ++ next :: more = own ++ [next] ++ more := by simp
        have isLength : own.length + 1 = (own ++ [next]).length := by simp
        refine ⟨own', ?_, fun declaration member => areAllowed declaration (by simp [member])⟩
        rw [isSkip, isLength, readFrom_skip]
        simpa using isOwn'
    rw [readFrom, if_pos begins, isImport]
    refine ⟨declaration :: others, ?_, ?_⟩
    · show (do
        let others ← readFrom (token :: before) length (own ++ after)
        return declaration :: others) = _
      rw [isRead]
      rfl
    · intro other member isMacro
      rcases List.mem_cons.mp member with rfl | member
      · exact isAllowed
      · exact areAllowed other member isMacro

end Declaration

end Restyle
