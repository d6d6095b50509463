import Restyle.Proofs.Declaration.Spelled

/-!
Contract: the reading of declarations, step by step.

Owns: the equations of import statements and lists of declarations, one for each thing
that a token can begin; that a clause and a bracket that end among some tokens end there
whatever follows them.

Later proofs use these equations and do not open the reader.
-/

namespace Restyle

namespace Bracket

/-- Where no bracket of some tokens closes the open ones, what follows them is searched
for it from some depth on. -/
theorem exists_depth_of_unclosed
    {depth : Nat}
    {tokens : List Token}
    (unclosed : close? depth tokens = none) :
    ∃ further, ∀ later, close? depth (tokens ++ later) =
      (close? further later).map fun cut => { cut with before := tokens ++ cut.before } := by
  induction tokens generalizing depth with
  | nil => exact ⟨depth, fun later => by simp⟩
  | cons token rest inductionHypothesis =>
    have step : ∀ next,
        (close? next rest).map (fun cut => { cut with before := token :: cut.before }) = none →
        ∃ further, ∀ later,
          (close? next (rest ++ later)).map (fun cut => { cut with before := token :: cut.before }) =
            (close? further later).map fun cut =>
              { cut with before := token :: (rest ++ cut.before) } := by
      intro next isNone
      obtain ⟨further, goesOn⟩ := inductionHypothesis (Option.map_eq_none_iff.mp isNone)
      refine ⟨further, fun later => ?_⟩
      rw [goesOn later, Option.map_map]
      rfl
    simp only [List.cons_append, close?] at unclosed ⊢
    by_cases isOpener : opens token
    · simp only [isOpener, if_true] at unclosed ⊢
      exact step _ unclosed
    · by_cases isCloser : closes token
      · simp only [isOpener, isCloser, if_true, if_false, Bool.false_eq_true] at unclosed ⊢
        cases depth with
        | zero => simp at unclosed
        | succ depth => exact step _ unclosed
      · simp only [isOpener, isCloser, if_false, Bool.false_eq_true] at unclosed ⊢
        exact step _ unclosed

/-- The bracket that closes the open ones is the same one whatever follows it. -/
theorem close?_append
    {depth : Nat}
    {tokens : List Token}
    {cut : Cut}
    (found : close? depth tokens = some cut)
    (later : List Token) :
    close? depth (tokens ++ later) = some { cut with after := cut.after ++ later } := by
  obtain rfl := eq_of_close? found
  rw [List.append_assoc, List.cons_append]
  exact close?_of_faces found rfl rfl (cut.after ++ later)

end Bracket

namespace Declaration

/-! ## Clauses -/

/-- A clause that stops among some tokens stops there whatever follows them. -/
theorem readClause_append
    {tokens : List Token}
    {clause : Clause}
    (isClause : readClause tokens = .ok clause)
    (stops : clause.rest ≠ [])
    (later : List Token) :
    readClause (tokens ++ later) = .ok ⟨clause.specifiers, clause.rest ++ later⟩ := by
  fun_induction readClause tokens generalizing clause with
  | case1 =>
    rw [← Except.ok.inj isClause] at stops
    exact absurd rfl stops
  | case2 token rest isString =>
    rw [← Except.ok.inj isClause]
    exact readClause_of_string isString (rest ++ later)
  | case3 | case6 | case7 => simp at isClause
  | case4 token rest notString isBrace cut found inductionHypothesis =>
    obtain ⟨inner, isInner, rfl⟩ := exists_of_map_ok isClause
    rw [List.cons_append, readClause_brace notString isBrace (Bracket.close?_append found later),
      inductionHypothesis isInner stops]
    rfl
  | case5 token notString _ isStar word name rest isName inductionHypothesis =>
    obtain ⟨inner, isInner, rfl⟩ := exists_of_map_ok isClause
    rw [List.cons_append, List.cons_append, List.cons_append, readClause_star notString isStar,
      if_pos isName, inductionHypothesis isInner stops]
    rfl
  | case8 token rest notString notBrace notStar isSemicolon =>
    rw [← Except.ok.inj isClause]
    exact readClause_semicolon notString isSemicolon (rest ++ later)
  | case9 token rest notString notBrace notStar notSemicolon isName inductionHypothesis =>
    obtain ⟨inner, isInner, rfl⟩ := exists_of_map_ok isClause
    rw [List.cons_append, readClause_named notString (by simp [notBrace, notStar, notSemicolon])
      isName, inductionHypothesis isInner stops]
    rfl
  | case10 token rest notString notBrace notStar notSemicolon noName inductionHypothesis =>
    rw [List.cons_append, readClause_pass notString (by simp [notBrace, notStar, notSemicolon])
      noName, inductionHypothesis isClause stops]

/-! ## Import statements -/

/-- The tokens after a semicolon that may stand first. -/
def afterSemicolon : List Token → List Token
  | [] => []
  | next :: more => if next.text = ";" then more else next :: more

theorem length_afterSemicolon_le (tokens : List Token) :
    (afterSemicolon tokens).length ≤ tokens.length := by
  cases tokens with
  | nil => exact Nat.le_refl _
  | cons next more =>
    simp only [afterSemicolon]
    split <;> simp

theorem afterSemicolon_append
    {token : Token}
    (notSemicolon : token.text ≠ ";")
    (tokens after : List Token) :
    afterSemicolon (tokens ++ token :: after) = afterSemicolon tokens ++ token :: after := by
  cases tokens with
  | nil => simp [afterSemicolon, notSemicolon]
  | cons next more =>
    simp only [List.cons_append, afterSemicolon]
    split <;> rfl

theorem closingStop_append
    {token : Token}
    (notSemicolon : token.text ≠ ";")
    (last : Token)
    (tokens after : List Token) :
    closingStop last (tokens ++ token :: after) = closingStop last tokens := by
  cases tokens with
  | nil => simp [closingStop, notSemicolon]
  | cons next more => rfl

/-- A clause and a path make an import statement. -/
theorem readImport_of_path
    {opening path : Token}
    {tokens after : List Token}
    {specifiers : List Specifier}
    (isClause : readClause tokens = .ok ⟨specifiers, path :: after⟩)
    (isString : path.is .string) :
    readImport opening tokens =
      .ok (⟨Text.unquote path.text, specifiers, .module, opening.start, closingStop path after,
        opening.location⟩, tokens.length - (afterSemicolon after).length) := by
  rw [readImport, isClause]
  simp only [bind, Except.bind, isString, if_true]
  cases after with
  | nil => rfl
  | cons next more =>
    simp only [afterSemicolon, closingStop]
    split <;> rfl

/-- A clause without a path makes no import statement. -/
theorem readImport_of_no_path
    {opening : Token}
    {tokens rest : List Token}
    {specifiers : List Specifier}
    (isClause : readClause tokens = .ok ⟨specifiers, rest⟩)
    (noPath : ∀ path ∈ rest.head?, ¬ path.is .string) :
    readImport opening tokens = .error (.problem .pathMissing opening.start) := by
  rw [readImport, isClause]
  cases rest with
  | nil => rfl
  | cons path after =>
    simp only [bind, Except.bind, if_neg (noPath path rfl)]
    rfl

theorem readImport_of_fault
    {opening : Token}
    {tokens : List Token}
    {fault : Fault}
    (failed : readClause tokens = .error fault) :
    readImport opening tokens = .error fault := by
  rw [readImport, failed]
  rfl

/-! ## All declarations -/

theorem readFrom_statement
    {token : Token}
    {after : List Token}
    {declaration : Declaration}
    {length : Nat}
    (begins : (token.is .keyword && token.text = "import" && followsImport after) = true)
    (isRead : readImport token after = .ok (declaration, length))
    (before : List Token) :
    readFrom before 0 (token :: after) =
      (readFrom (token :: before) length after).map (declaration :: ·) := by
  rw [readFrom, if_pos begins, isRead]
  simp only [bind, Except.bind]
  cases readFrom (token :: before) length after <;> rfl

theorem readFrom_of_fault
    {token : Token}
    {after : List Token}
    {fault : Fault}
    (begins : (token.is .keyword && token.text = "import" && followsImport after) = true)
    (failed : readImport token after = .error fault)
    (before : List Token) :
    readFrom before 0 (token :: after) = .error fault := by
  rw [readFrom, if_pos begins, failed]
  rfl

/-- Tokens that belong to a statement are passed over. -/
theorem readFrom_beyond (before own after : List Token) (skip : Nat) :
    readFrom before (own.length + skip) (own ++ after) =
      readFrom (own.reverse ++ before) skip after := by
  induction own generalizing before with
  | nil => simp
  | cons token own inductionHypothesis =>
    rw [List.cons_append, List.length_cons, Nat.add_right_comm, readFrom, inductionHypothesis,
      List.reverse_cons, List.append_assoc, List.singleton_append]

private theorem Declared.exists_keyword
    {before tokens : List Token}
    {declarations : List Declaration}
    (declared : Declared before tokens declarations)
    {declaration : Declaration}
    (member : declaration ∈ declarations)
    (isModule : declaration.mechanism = .module) :
    ∃ opening ∈ tokens, opening.is .keyword ∧ declaration.start = opening.start := by
  induction declared with
  | nil => simp at member
  | statement own later inductionHypothesis =>
    rcases List.mem_cons.mp member with rfl | inOthers
    · exact ⟨_, List.mem_cons_self, own.isKeyword, own.begins⟩
    · obtain ⟨opening, isOpening, begins⟩ := inductionHypothesis inOthers
      exact ⟨opening, List.mem_cons_of_mem _ (List.mem_append_right _ isOpening), begins⟩
  | other required later inductionHypothesis =>
    rcases List.mem_append.mp member with inOwn | inOthers
    · simp [(required _ inOwn).isDynamic] at isModule
    · obtain ⟨opening, isOpening, begins⟩ := inductionHypothesis inOthers
      exact ⟨opening, List.mem_cons_of_mem _ isOpening, begins⟩

theorem exists_keyword_of_readAll
    {tokens : List Token}
    {declarations : List Declaration}
    (isRead : readAll tokens = .ok declarations)
    {declaration : Declaration}
    (member : declaration ∈ declarations)
    (isModule : declaration.mechanism = .module) :
    ∃ opening ∈ tokens, opening.is .keyword ∧ declaration.start = opening.start := by
  obtain ⟨found, isFound, isSorted⟩ := exists_of_bind_ok isRead
  obtain rfl := Except.ok.inj isSorted
  exact (declared_of_readFrom (Nat.zero_le _) isFound).exists_keyword
    (List.mem_mergeSort.mp member) isModule

end Declaration

end Restyle
