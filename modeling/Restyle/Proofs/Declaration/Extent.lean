import Restyle.Declaration
import Restyle.Module
import Restyle.Proofs.Outcome
import Restyle.Proofs.Token.Everywhere

/-!
Contract: which tokens of a module its declarations span.

Owns: the equations of `readClause`, one for each thing that a token can begin,
and that a clause leaves the end of what it is read from; `Statement`, the tokens
of an import statement; `Declared`, the shape of a search for declarations; that a
declaration spans whole tokens of the module's own list, and that import statements
do not overlap.

Later proofs use these equations and do not open the reader of clauses; proofs about
declarations are inductions over `Declared` and never open `readFrom`.
-/

namespace Restyle.Declaration

/-! ## Clauses -/

theorem readClause_of_string
    {path : Token}
    (isString : path.is .string)
    (rest : List Token) :
    readClause (path :: rest) = .ok ⟨[], path :: rest⟩ := by
  rw [readClause.eq_def]
  simp only [isString, if_true]

section Inside

variable
  {token : Token}
  (notString : ¬ token.is .string)

include notString

theorem readClause_brace
    {rest : List Token}
    {cut : Bracket.Cut}
    (isBrace : token.text = "\x7b")
    (found : Bracket.close? 0 rest = some cut) :
    readClause (token :: rest) = (readClause cut.after).map (·.cons (specifiersOf cut.before)) := by
  rw [readClause.eq_def]
  simp only [if_neg notString, if_pos isBrace]
  split
  · rename_i missing
    simp [found] at missing
  · rename_i other isOther
    rw [found, Option.some.injEq] at isOther
    rw [isOther]

theorem readClause_unclosed
    {rest : List Token}
    (isBrace : token.text = "\x7b")
    (missing : Bracket.close? 0 rest = none) :
    readClause (token :: rest) = .error (.problem .unterminatedSpecifiers token.start) := by
  rw [readClause.eq_def]
  simp only [if_neg notString, if_pos isBrace]
  split
  · rfl
  · rename_i cut found
    simp [missing] at found

theorem readClause_star
    {word name : Token}
    {after : List Token}
    (isStar : token.text = "*") :
    readClause (token :: word :: name :: after) =
      if name.isName then (readClause after).map (·.cons [⟨"*", name.text⟩])
      else .error (.problem .namespaceUnnamed token.start) := by
  rw [readClause.eq_def]
  simp [notString, isStar]

theorem readClause_semicolon
    (isSemicolon : token.text = ";")
    (rest : List Token) :
    readClause (token :: rest) = .ok ⟨[], token :: rest⟩ := by
  rw [readClause.eq_def]
  simp [notString, isSemicolon]

/-- An identifier is a default name, unless it is the word before the path. -/
theorem readClause_named
    (notMark : token.text ∉ ["\x7b", "*", ";"])
    (isName : (token.is .identifier && token.text ≠ "from") = true)
    (rest : List Token) :
    readClause (token :: rest) = (readClause rest).map (·.cons [⟨"default", token.text⟩]) := by
  simp only [List.mem_cons, List.not_mem_nil, or_false, not_or] at notMark
  rw [readClause.eq_def]
  simp only [if_neg notString, if_neg notMark.1, if_neg notMark.2.1, if_neg notMark.2.2,
    if_pos isName]

/-- What is neither a name nor a mark of a clause is passed over. -/
theorem readClause_pass
    (notMark : token.text ∉ ["\x7b", "*", ";"])
    (noName : ¬ (token.is .identifier && token.text ≠ "from") = true)
    (rest : List Token) :
    readClause (token :: rest) = readClause rest := by
  simp only [List.mem_cons, List.not_mem_nil, or_false, not_or] at notMark
  rw [readClause.eq_def]
  simp only [if_neg notString, if_neg notMark.1, if_neg notMark.2.1, if_neg notMark.2.2,
    if_neg noName]

end Inside

/-- A clause leaves the end of what it is read from. -/
theorem suffix_of_readClause
    {tokens : List Token}
    {clause : Clause}
    (isClause : readClause tokens = .ok clause) :
    clause.rest <:+ tokens := by
  fun_induction readClause tokens generalizing clause with
  | case1 | case2 | case8 =>
    simp only [Except.ok.injEq] at isClause
    subst isClause
    exact List.suffix_refl _
  | case3 | case6 | case7 => simp at isClause
  | case4 token rest _ _ cut found inductionHypothesis =>
    obtain ⟨inner, isInner, rfl⟩ := exists_of_map_ok isClause
    rw [Bracket.eq_of_close? found]
    refine (inductionHypothesis isInner).trans ?_
    exact ⟨token :: (cut.before ++ [cut.token]), by simp⟩
  | case5 token _ _ _ point name after _ inductionHypothesis =>
    obtain ⟨inner, isInner, rfl⟩ := exists_of_map_ok isClause
    exact (inductionHypothesis isInner).trans ⟨[token, point, name], rfl⟩
  | case9 token rest _ _ _ _ _ inductionHypothesis =>
    obtain ⟨inner, isInner, rfl⟩ := exists_of_map_ok isClause
    exact (inductionHypothesis isInner).trans (List.suffix_cons _ _)
  | case10 token rest _ _ _ _ _ inductionHypothesis =>
    exact (inductionHypothesis isClause).trans (List.suffix_cons _ _)

/-! ## Statements -/

/-- An import statement with the keyword that begins it and the tokens after
the keyword that belong to it.  Its last token is its path or a semicolon. -/
structure Statement (keyword : Token) (covered : List Token) (declaration : Declaration) :
    Prop where
  isKeyword : keyword.is .keyword
  isModule : declaration.mechanism = .module
  begins : declaration.start = keyword.start
  ends : ∃ front last, covered = front ++ [last] ∧ declaration.stop = last.stop ∧
    (last.is .string ∨ last.text = ";")

/-- A required module: it spans tokens from before its `require` to after it. -/
structure Requirement (before after : List Token) (declaration : Declaration) : Prop where
  isDynamic : declaration.mechanism = .dynamic
  begins : ∃ first ∈ before, declaration.start = first.start
  ends : ∃ last ∈ after, declaration.stop = last.stop

/-- The declarations of a list of tokens whose earlier part is given latest
first. -/
inductive Declared : List Token → List Token → List Declaration → Prop where
  | nil {before : List Token} : Declared before [] []
  | statement {before covered after : List Token} {keyword : Token} {declaration : Declaration}
      {others : List Declaration}
      (own : Statement keyword covered declaration)
      (later : Declared (covered.reverse ++ keyword :: before) after others) :
      Declared before (keyword :: (covered ++ after)) (declaration :: others)
  | other {before after : List Token} {token : Token} {own others : List Declaration}
      (required : ∀ declaration ∈ own, Requirement before after declaration)
      (later : Declared (token :: before) after others) :
      Declared before (token :: after) (own ++ others)

/-! ## Import statements -/

/-- An import statement takes tokens that follow its keyword. -/
theorem statement_of_readImport
    {keyword : Token}
    {tokens : List Token}
    {declaration : Declaration}
    {length : Nat}
    (isKeyword : keyword.is .keyword)
    (isImport : readImport keyword tokens = .ok (declaration, length)) :
    ∃ covered after, tokens = covered ++ after ∧ covered.length = length ∧
      Statement keyword covered declaration := by
  obtain ⟨clause, isClause, isRest⟩ := exists_of_bind_ok isImport
  obtain ⟨front, isFront⟩ := suffix_of_readClause isClause
  split at isRest
  · rename_i path after isPath
    rw [isPath] at isFront
    split at isRest
    · rename_i isString
      -- The statement ends with its path, or with the semicolon after it.
      have atPath : declaration = ⟨Text.unquote path.text, clause.specifiers, .module,
            keyword.start, path.stop, keyword.location⟩ →
          length = tokens.length - after.length →
          ∃ covered after, tokens = covered ++ after ∧ covered.length = length ∧
            Statement keyword covered declaration := by
        rintro rfl rfl
        refine ⟨front ++ [path], after, by simp [← isFront], ?_,
          isKeyword, rfl, rfl, front, path, rfl, rfl, .inl isString⟩
        simp only [← isFront, List.length_append, List.length_cons, List.length_nil]
        omega
      cases after with
      | nil =>
        simp only [pure, Except.pure, Except.ok.injEq, Prod.mk.injEq] at isRest
        exact atPath isRest.1.symm isRest.2.symm
      | cons next more =>
        simp only at isRest
        split at isRest
        · rename_i isSemicolon
          simp only [pure, Except.pure, Except.ok.injEq, Prod.mk.injEq] at isRest
          obtain ⟨rfl, rfl⟩ := isRest
          refine ⟨front ++ [path, next], more, by simp [← isFront], ?_,
            isKeyword, rfl, rfl, front ++ [path], next, by simp, rfl, .inr isSemicolon⟩
          simp only [← isFront, List.length_append, List.length_cons, List.length_nil]
          omega
        · simp only [pure, Except.pure, Except.ok.injEq, Prod.mk.injEq] at isRest
          exact atPath isRest.1.symm isRest.2.symm
    · simp [throw, throwThe, MonadExceptOf.throw] at isRest
  · simp [throw, throwThe, MonadExceptOf.throw] at isRest

/-! ## Required modules -/

/-- The offset after a token, or after the semicolon that follows it. -/
def closingStop (last : Token) : List Token → Nat
  | next :: _ => if next.text = ";" then next.stop else last.stop
  | [] => last.stop

private theorem exists_closing (last : Token) (rest : List Token) :
    ∃ final ∈ last :: rest, closingStop last rest = final.stop := by
  cases rest with
  | nil => exact ⟨last, by simp, rfl⟩
  | cons next more =>
    by_cases isSemicolon : next.text = ";"
    · exact ⟨next, by simp, by simp [closingStop, isSemicolon]⟩
    · exact ⟨last, by simp, by simp [closingStop, isSemicolon]⟩

/-- A required module stops with a token of its call, with the member taken
from it or with a semicolon. -/
theorem stop_of_required?
    {after : List Token}
    {required : Required}
    (isRequired : required? after = some required) :
    ∃ last ∈ after, required.stop = last.stop := by
  unfold required? at isRequired
  split at isRequired
  · rename_i openParen path closeParen after
    split at isRequired
    · simp only [Option.some.injEq] at isRequired
      rw [← isRequired]
      rcases after with _ | ⟨point, _ | ⟨name, more⟩⟩
      · exact ⟨closeParen, by simp, rfl⟩
      · obtain ⟨final, isFinal, same⟩ := exists_closing closeParen [point]
        exact ⟨final, List.mem_cons_of_mem _ (List.mem_cons_of_mem _ isFinal), same⟩
      · by_cases taken : point.text = "." && name.isName
        · obtain ⟨final, isFinal, same⟩ := exists_closing name more
          simp only [taken, ↓reduceIte]
          exact ⟨final, by simp [List.mem_cons.mp isFinal], same⟩
        · obtain ⟨final, isFinal, same⟩ := exists_closing closeParen (point :: name :: more)
          simp only [taken, Bool.false_eq_true, ↓reduceIte]
          exact ⟨final, List.mem_cons_of_mem _ (List.mem_cons_of_mem _ isFinal), same⟩
    · simp at isRequired
  · simp at isRequired

private theorem suffix_of_openingBrace?
    {depth : Nat}
    {between tokens : List Token}
    {cut : Bracket.Cut}
    (found : Bracket.openingBrace? depth between tokens = some cut) :
    cut.before <:+ tokens := by
  fun_induction Bracket.openingBrace? depth between tokens with
  | case1 => simp at found
  | case2 _ _ token rest _ inductionHypothesis =>
    exact (inductionHypothesis found).trans (List.suffix_cons _ _)
  | case3 between token rest _ _ =>
    simp only [Option.some.injEq] at found
    rw [← found]
    exact List.suffix_cons _ _
  | case4 _ token rest _ _ _ inductionHypothesis =>
    exact (inductionHypothesis found).trans (List.suffix_cons _ _)
  | case5 _ _ token rest _ _ inductionHypothesis =>
    exact (inductionHypothesis found).trans (List.suffix_cons _ _)

private theorem suffix_of_target?
    {member : Option String}
    {tokens before : List Token}
    {specifiers : List Specifier}
    (isTarget : target? member tokens = some (specifiers, before)) :
    before <:+ tokens := by
  unfold target? at isTarget
  split at isTarget
  · split at isTarget
    · simp only [Option.some.injEq, Prod.mk.injEq] at isTarget
      rw [← isTarget.2]
      exact List.suffix_cons _ _
    · split at isTarget
      · obtain ⟨cut, found, isCut⟩ := Option.map_eq_some_iff.mp isTarget
        simp only [Prod.mk.injEq] at isCut
        rw [← isCut.2]
        exact (suffix_of_openingBrace? found).trans (List.suffix_cons _ _)
      · simp at isTarget
  · simp at isTarget

theorem requirement_of_readRequire?
    {before after : List Token}
    {declaration : Declaration}
    (isRequire : readRequire? before after = some declaration) :
    Requirement before after declaration := by
  unfold readRequire? at isRequire
  obtain ⟨required, isRequired, isRest⟩ := Option.bind_eq_some_iff.mp isRequire
  split at isRest
  · rename_i assign earlier
    split at isRest
    · obtain ⟨⟨specifiers, front⟩, isTarget, isFront⟩ := Option.bind_eq_some_iff.mp isRest
      obtain ⟨keyword, isHead, isDeclared⟩ := Option.bind_eq_some_iff.mp isFront
      split at isDeclared
      · simp only [Option.some.injEq] at isDeclared
        rw [← isDeclared]
        have inEarlier := (suffix_of_target? isTarget).subset (List.mem_of_head? isHead)
        exact ⟨rfl, ⟨keyword, List.mem_cons_of_mem _ inEarlier, rfl⟩, stop_of_required? isRequired⟩
      · simp at isDeclared
    · simp at isRest
  · simp at isRest

/-! ## All declarations -/

theorem declared_of_readFrom
    {before tokens : List Token}
    {skip : Nat}
    {declarations : List Declaration}
    (fits : skip ≤ tokens.length)
    (isRead : readFrom before skip tokens = .ok declarations) :
    Declared ((tokens.take skip).reverse ++ before) (tokens.drop skip) declarations := by
  induction tokens generalizing before skip declarations with
  | nil =>
    simp only [readFrom, Except.ok.injEq] at isRead
    simpa [← isRead] using Declared.nil
  | cons token after inductionHypothesis =>
    cases skip with
    | succ skip => simpa using inductionHypothesis (by simpa using fits) isRead
    | zero =>
      change Declared before (token :: after) declarations
      simp only [readFrom] at isRead
      split at isRead
      · rename_i isStatement
        simp only [Bool.and_eq_true] at isStatement
        obtain ⟨⟨declaration, length⟩, isImport, isRest⟩ := exists_of_bind_ok isRead
        obtain ⟨others, isOthers, isAll⟩ := exists_of_bind_ok isRest
        simp only [pure, Except.pure, Except.ok.injEq] at isAll
        obtain ⟨covered, rest, rfl, rfl, own⟩ :=
          statement_of_readImport isStatement.1.1 isImport
        have later := inductionHypothesis (by simp) isOthers
        rw [List.take_left, List.drop_left] at later
        rw [← isAll]
        exact .statement own later
      · obtain ⟨others, isOthers, isAll⟩ := exists_of_bind_ok isRead
        simp only [pure, Except.pure, Except.ok.injEq] at isAll
        rw [← isAll]
        refine .other ?_ (inductionHypothesis (Nat.zero_le _) isOthers)
        intro declaration member
        split at member
        · exact requirement_of_readRequire? (Option.mem_toList.mp member)
        · simp at member

/-! ## Extents -/

/-- A declaration spans whole tokens of some. -/
def Spans (tokens : List Token) (declaration : Declaration) : Prop :=
  (∃ first ∈ tokens, declaration.start = first.start) ∧
    ∃ last ∈ tokens, declaration.stop = last.stop

theorem Declared.spans
    {before tokens : List Token}
    {declarations : List Declaration}
    (declared : Declared before tokens declarations)
    {declaration : Declaration}
    (member : declaration ∈ declarations) :
    Spans (before ++ tokens) declaration := by
  induction declared with
  | nil => simp at member
  | statement own later inductionHypothesis =>
    rcases List.mem_cons.mp member with rfl | inOthers
    · obtain ⟨front, last, rfl, ends, _⟩ := own.ends
      exact ⟨⟨_, by simp, own.begins⟩, last, by simp, ends⟩
    · obtain ⟨⟨first, isFirst, begins⟩, last, isLast, ends⟩ := inductionHypothesis inOthers
      exact ⟨⟨first, by simp at isFirst ⊢; grind, begins⟩, last, by simp at isLast ⊢; grind, ends⟩
  | other required later inductionHypothesis =>
    rcases List.mem_append.mp member with inOwn | inOthers
    · have own := required _ inOwn
      obtain ⟨first, isFirst, begins⟩ := own.begins
      obtain ⟨last, isLast, ends⟩ := own.ends
      exact ⟨⟨first, by simp [isFirst], begins⟩, last, by simp [isLast], ends⟩
    · obtain ⟨⟨first, isFirst, begins⟩, last, isLast, ends⟩ := inductionHypothesis inOthers
      exact ⟨⟨first, by simp at isFirst ⊢; grind, begins⟩, last, by simp at isLast ⊢; grind, ends⟩

/-- An import statement in a source: from a keyword there to a string or a
semicolon there. -/
structure Stated (source : List Char) (declaration : Declaration) : Prop where
  begins : ∃ keyword, Token.Placed source keyword ∧ keyword.is .keyword ∧
    declaration.start = keyword.start
  ends : ∃ last, Token.Placed source last ∧ declaration.stop = last.stop ∧
    (last.is .string ∨ last.text = ";")
  nonempty : declaration.start < declaration.stop

/-- Import statements stand in the source, and none overlaps another. -/
theorem Declared.stated
    {source : List Char}
    {before tokens : List Token}
    {declarations : List Declaration}
    {start stop : Nat}
    (declared : Declared before tokens declarations)
    (placed : Token.ListPlaced source start stop tokens) :
    let statements := declarations.filter (·.mechanism = .module)
    statements.Pairwise (·.stop ≤ ·.start) ∧
      ∀ declaration ∈ statements, Stated source declaration ∧ start ≤ declaration.start := by
  induction declared generalizing start with
  | nil => exact ⟨.nil, by simp⟩
  | @statement before covered after keyword declaration others own later inductionHypothesis =>
    obtain ⟨front, last, rfl, ends, isLast⟩ := own.ends
    obtain ⟨early, isPlaced, rest⟩ := placed.first
    rw [List.append_assoc, List.singleton_append] at rest
    obtain ⟨inOrder, lastPlaced, remaining⟩ := rest.after
    obtain ⟨apart, stated⟩ := inductionHypothesis remaining
    have keywordBounds := isPlaced.bounds
    have lastBounds := lastPlaced.bounds
    have begins := own.begins
    simp only [List.filter_cons, own.isModule, decide_true, ↓reduceIte]
    refine ⟨List.pairwise_cons.mpr ⟨fun other member => ?_, apart⟩, ?_⟩
    · exact ends ▸ (stated other member).2
    · intro other member
      rcases List.mem_cons.mp member with rfl | inOthers
      · exact ⟨⟨⟨keyword, isPlaced, own.isKeyword, begins⟩, ⟨last, lastPlaced, ends, isLast⟩,
          by omega⟩, by omega⟩
      · obtain ⟨isStated, late⟩ := stated other inOthers
        exact ⟨isStated, by omega⟩
  | @other before after token own others required later inductionHypothesis =>
    obtain ⟨early, isPlaced, rest⟩ := placed.first
    obtain ⟨apart, stated⟩ := inductionHypothesis rest
    have bounds := isPlaced.bounds
    have noStatement : own.filter (·.mechanism = .module) = [] := by
      refine List.filter_eq_nil_iff.mpr fun declaration member => ?_
      simp [(required declaration member).isDynamic]
    rw [List.filter_append, noStatement, List.nil_append]
    refine ⟨apart, fun other member => ?_⟩
    obtain ⟨isStated, late⟩ := stated other member
    exact ⟨isStated, by omega⟩

end Restyle.Declaration
