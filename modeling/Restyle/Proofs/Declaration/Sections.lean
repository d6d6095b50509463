import Restyle.Proofs.Declaration.Spelled

/-!
Contract: the tokens of a module between its import statements.

Owns: `looseFrom`, the tokens that belong to no import statement; `Sectioned`, by
which the tokens of a module are such tokens and import statements in turn; and
that what is read as declarations is sectioned.
-/

namespace Restyle.Declaration

/-- The tokens of a list that belong to no import statement.  The first `skip` of
them belong to one that has been read. -/
def looseFrom (skip : Nat) : List Token → List Token
  | [] => []
  | token :: after =>
    match skip with
    | skip + 1 => looseFrom skip after
    | 0 =>
      if token.is .keyword && token.text = "import" && followsImport after then
        looseFrom ((readImport token after).toOption.elim 0 (·.2)) after
      else token :: looseFrom 0 after

/-- Tokens of which none begins an import statement, with those after them. -/
inductive Free (next : List Token) : List Token → Prop where
  | nil : Free next []
  | cons {token : Token} {tokens : List Token}
      (begins : beginsImport token.face ((tokens ++ next).map Token.face) = false)
      (later : Free next tokens) :
      Free next (token :: tokens)

theorem Free.of_append
    {next early late : List Token}
    (free : Free next (early ++ late)) :
    Free next late := by
  induction early with
  | nil => exact free
  | cons token early inductionHypothesis =>
    cases free with
    | cons _ later => exact inductionHypothesis later

/-- Tokens between import statements, with the statements and the tokens that belong
to none of them. -/
inductive Sectioned : List Token → List Declaration → List Token → Prop where
  | last {segment : List Token} (free : Free [] segment) : Sectioned segment [] segment
  | statement {segment covered after loose : List Token} {keyword : Token}
      {declaration : Declaration} {statements : List Declaration}
      (free : Free (keyword :: (covered ++ after)) segment)
      (begins : beginsImport keyword.face ((covered ++ after).map Token.face))
      (states : States (covered.map Token.face) declaration.path declaration.specifiers)
      (own : Statement keyword covered declaration)
      (later : Sectioned after statements loose) :
      Sectioned (segment ++ keyword :: (covered ++ after)) (declaration :: statements)
        (segment ++ loose)

theorem Sectioned.cons
    {token : Token}
    {tokens loose : List Token}
    {statements : List Declaration}
    (sectioned : Sectioned tokens statements loose)
    (begins : beginsImport token.face (tokens.map Token.face) = false) :
    Sectioned (token :: tokens) statements (token :: loose) := by
  cases sectioned with
  | last free => exact .last (.cons (by simpa using begins) free)
  | statement free starts states own later =>
    exact .statement (.cons begins free) starts states own later

/-- The tokens of a list, less those that belong to a statement which has been read,
are sectioned by the import statements among what is declared. -/
theorem sectioned_of_readFrom
    {before tokens : List Token}
    {skip : Nat}
    {declarations : List Declaration}
    (isRead : readFrom before skip tokens = .ok declarations) :
    Sectioned (tokens.drop skip) (declarations.filter (·.mechanism = .module))
      (looseFrom skip tokens) := by
  induction tokens generalizing before skip declarations with
  | nil =>
    obtain rfl : declarations = [] := by simpa [readFrom] using isRead.symm
    rw [List.drop_nil, looseFrom]
    exact .last .nil
  | cons token after inductionHypothesis =>
    cases skip with
    | succ skip => exact inductionHypothesis isRead
    | zero =>
      rw [List.drop_zero, looseFrom]
      cases begins : token.is .keyword && token.text = "import" && followsImport after with
      | true =>
        rw [readFrom, if_pos begins] at isRead
        obtain ⟨⟨declaration, length⟩, isImport, isRest⟩ := exists_of_bind_ok isRead
        obtain ⟨others, isOthers, isAll⟩ := exists_of_bind_ok isRest
        obtain rfl := Except.ok.inj isAll
        have isKeyword : token.is .keyword := by
          rw [Bool.and_eq_true, Bool.and_eq_true] at begins
          exact begins.1.1
        obtain ⟨covered, rest, rfl, rfl, states⟩ := exists_states isImport
        obtain ⟨own, others', isOwn, sameLength, statement⟩ :=
          statement_of_readImport isKeyword isImport
        obtain ⟨rfl, -⟩ := List.append_inj isOwn sameLength.symm
        have later := inductionHypothesis isOthers
        rw [List.drop_left] at later
        have isLength : (readImport token (covered ++ rest)).toOption.elim 0 (·.2) =
            covered.length := by
          rw [isImport]
          rfl
        rw [List.filter_cons_of_pos (by simp [statement.isModule]), if_pos rfl, isLength]
        exact @Sectioned.statement [] _ _ _ _ _ _ .nil ((begins_eq _ _).symm.trans begins) states
          statement later
      | false =>
        rw [readFrom_other begins] at isRead
        obtain ⟨others, isOthers, rfl⟩ := exists_of_map_ok isRead
        have noStatement : (if token.is .identifier && token.text = "require" then
            (readRequire? before after).toList else []).filter (·.mechanism = .module) = [] := by
          refine List.filter_eq_nil_iff.mpr fun declaration member => ?_
          split at member
          · have required := requirement_of_readRequire? (Option.mem_toList.mp member)
            simp [required.isDynamic]
          · simp at member
        rw [List.filter_append, noStatement, List.nil_append, if_neg (by simp)]
        exact (inductionHypothesis isOthers).cons ((begins_eq token after).symm.trans begins)

end Restyle.Declaration
