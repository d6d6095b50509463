import Restyle.Proofs.Declaration.Phrases
import Restyle.Proofs.Output.Aliased
import Restyle.Proofs.Token.Ends

/-!
Contract: the words that names in a source are written with.

Owns: `isBareWord` and `isQuoted`, by which a text is an identifier or a keyword, or
a string with its quotes; that a word is read as one token wherever it is put; that
the tokens of a source which may be names are words; and that the path and the local
names of an import statement are taken from such tokens.
-/

namespace Restyle

open Token Lexeme

namespace Declaration

open Output (isName letters_of_isName run_name run_of_step run_endsQuoted)

/-! ## Words -/

def isBareWord (text : String) : Bool :=
  isName text || keywords.contains text

def isQuoted (text : String) : Bool :=
  match text.toList with
  | [] => false
  | quote :: body => isQuote quote && endsQuoted quote body

def wordFace (text : String) : Face :=
  ⟨some (if isQuoted text then .string else if keywords.contains text then .keyword
    else .identifier), text⟩

@[simp]
theorem text_wordFace (text : String) : (wordFace text).text = text :=
  rfl

@[simp]
theorem isSpecifierName_wordFace (text : String) :
    isSpecifierName (wordFace text) = decide (text ≠ "as") := by
  unfold wordFace isSpecifierName
  split
  · simp
  · split <;> simp

theorem kind_wordFace_ne_punctuator (text : String) :
    (wordFace text).kind ≠ some .punctuator := by
  unfold wordFace
  split
  · simp
  · split <;> simp

/-- A keyword is read as one. -/
theorem word?_of_keyword {name : String} (isKeyword : keywords.contains name) :
    ∃ first body, name.toList = first :: body ∧
      word? first body = some (.keyword, body.length) ∧
        ∀ c ∈ first :: body, Text.isIdentifierPart c := by
  have areRead : ∀ name ∈ keywords, (match name.toList with
      | [] => false
      | first :: body => word? first body = some (.keyword, body.length) &&
          (first :: body).all Text.isIdentifierPart) = true := by
    decide +kernel
  have isRead := areRead name (List.contains_iff_mem.mp isKeyword)
  split at isRead
  · simp at isRead
  · rename_i first body isText
    rw [Bool.and_eq_true, decide_eq_true_eq, List.all_eq_true] at isRead
    exact ⟨first, body, isText, isRead⟩

private theorem not_keyword_of_isName {name : String} (named : isName name) :
    keywords.contains name = false := by
  refine Bool.eq_false_iff.mpr fun isKeyword => ?_
  obtain ⟨first, body, isText, isWord, -⟩ := word?_of_keyword isKeyword
  simp [Output.isName, isText, isWord] at named

theorem parts_of_isBareWord {name : String} (isWord : isBareWord name) :
    ∃ first body, name.toList = first :: body ∧ ∀ c ∈ name.toList, Text.isIdentifierPart c := by
  rcases (Bool.or_eq_true _ _).mp isWord with named | isKeyword
  · obtain ⟨first, body, isText, -⟩ := letters_of_isName named
    exact ⟨first, body, isText, parts_of_isName named⟩
  · obtain ⟨first, body, isText, -, parts⟩ := word?_of_keyword isKeyword
    exact ⟨first, body, isText, isText ▸ parts⟩

/-- No identifier and no keyword is a string. -/
theorem not_isQuoted_of_isBareWord {name : String} (isWord : isBareWord name) :
    isQuoted name = false := by
  obtain ⟨first, body, isText, parts⟩ := parts_of_isBareWord isWord
  have isPart := parts first (by rw [isText]; exact List.mem_cons_self)
  have notQuote : isQuote first = false := by
    rw [isQuote, Bool.or_eq_false_iff, decide_eq_false_iff_not, decide_eq_false_iff_not]
    refine ⟨?_, ?_⟩ <;> rintro rfl <;> exact absurd isPart (by decide)
  simp [isQuoted, isText, notQuote]

private theorem wordFace_of_isName {name : String} (named : isName name) :
    wordFace name = ⟨some .identifier, name⟩ := by
  have notQuoted := not_isQuoted_of_isBareWord (by simp [isBareWord, named] : isBareWord name)
  simp only [wordFace, notQuoted, not_keyword_of_isName named, Bool.false_eq_true, if_false]

/-- A keyword or an identifier may name a module as a whole. -/
theorem kind_wordFace_of_isBareWord {name : String} (isWord : isBareWord name) :
    (wordFace name).kind = some .identifier ∨ (wordFace name).kind = some .keyword := by
  simp only [wordFace, not_isQuoted_of_isBareWord isWord, Bool.false_eq_true, if_false]
  split
  · exact .inr rfl
  · exact .inl rfl

/-- A text that is no word differs from those that are. -/
theorem ne_of_isWord
    {text mark : String}
    (isWord : isBareWord text ∨ isQuoted text)
    (notBare : isBareWord mark = false)
    (notQuoted : isQuoted mark = false) :
    text ≠ mark := by
  rintro rfl
  simp [notBare, notQuoted] at isWord

/-! ## Words wherever they are put -/

private theorem quote_cases
    {quote : Char}
    (isQuote : isQuote quote) :
    quote = '"' ∨ quote = '\'' := by
  simpa [Declaration.isQuote, or_comm] using isQuote

/-- A string is read as one whatever follows it. -/
theorem run_quoted
    {text : String}
    (quoted : isQuoted text)
    (nest : Nest)
    (slash : Slash)
    (rest : List Char) :
    CodeRun nest slash (text.toList ++ rest) [⟨some .string, text⟩] nest .divides rest := by
  unfold isQuoted at quoted
  split at quoted
  · simp at quoted
  · rename_i quote body isText
    obtain ⟨isQuote, ends⟩ := (Bool.and_eq_true _ _).mp quoted
    have run := run_endsQuoted (quote_cases isQuote) ends nest slash rest
    rw [← isText, String.ofList_toList] at run
    rw [isText, List.cons_append]
    exact run

/-- A word begins with a character that is not blank. -/
theorem inked_of_isWord
    {text : String}
    (isWord : isBareWord text ∨ isQuoted text)
    (rest : List Char) :
    (text.toList ++ rest).head?.any Text.isBlank = false := by
  rcases isWord with isWord | quoted
  · obtain ⟨first, body, isText, parts⟩ := parts_of_isBareWord isWord
    rw [isText] at parts ⊢
    exact inked_of_isIdentifierPart (parts first List.mem_cons_self)
  · unfold isQuoted at quoted
    split at quoted
    · simp at quoted
    · rename_i quote body isText
      rw [isText]
      rcases quote_cases ((Bool.and_eq_true _ _).mp quoted).1 with rfl | rfl <;> rfl

/-- A word is read as one token wherever it is put before what continues no name. -/
theorem run_word
    {text : String}
    (isWord : isBareWord text ∨ isQuoted text)
    (nest : Nest)
    (slash : Slash)
    {rest : List Char}
    (stopped : stops rest) :
    ∃ last, CodeRun nest slash (text.toList ++ rest) [wordFace text] nest last rest := by
  rcases isWord with isWord | quoted
  · rcases (Bool.or_eq_true _ _).mp isWord with named | isKeyword
    · rw [wordFace_of_isName named]
      exact ⟨_, run_name named nest slash stopped⟩
    · obtain ⟨first, body, isText, isRead, -⟩ := word?_of_keyword isKeyword
      have isFace : wordFace text = ⟨some .keyword, String.ofList (first :: body)⟩ := by
        rw [← isText, String.ofList_toList]
        simp only [wordFace, not_isQuoted_of_isBareWord isWord, isKeyword, Bool.false_eq_true,
          if_false, if_true]
      rw [isText, List.cons_append, isFace]
      exact ⟨_, run_of_step body
        (codeStep_of_word ((word?_append stopped first body).trans isRead)) rfl⟩
  · have isFace : wordFace text = ⟨some .string, text⟩ := by simp only [wordFace, quoted, if_true]
    rw [isFace]
    exact ⟨_, run_quoted quoted nest slash rest⟩

/-! ## Words of a source -/

private theorem keyword_of_word?
    {first : Char}
    {rest : List Char}
    {tail : Nat}
    (found : word? first rest = some (.keyword, tail)) :
    keywords.contains (String.ofList (first :: rest.take tail)) := by
  unfold word? at found
  simp only at found
  split at found
  · rename_i isKeyword
    simp only [Option.some.injEq, Prod.mk.injEq, true_and] at found
    rwa [← found, ← List.prefix_iff_eq_take.mp (List.takeWhile_prefix _)]
  · split at found <;> simp at found

private theorem isBareWord_of_keyword
    {source : List Char}
    {token : Token}
    (placed : Token.Placed source token)
    (isKeyword : token.is .keyword) :
    isBareWord token.text := by
  obtain ⟨nest, slash, first, rest, taken, isStep, sameKind, isText⟩ :=
    placed.exists_codeStep isKeyword (by decide)
  have isKind : taken.kind = .keyword := by
    cases own : taken.kind <;> simp [own, kindOf] at sameKind
    rfl
  have found := isStep.found_of_word (.inr isKind)
  rw [isKind] at found
  have isWhole : token.text = String.ofList (first :: rest.take taken.tail) := by
    rw [← isText, String.ofList_toList]
  rw [isBareWord, isWhole, keyword_of_word? found, Bool.or_true]

/-- The text of a string is one with its quotes. -/
theorem isQuoted_of_string
    {source : List Char}
    {token : Token}
    (placed : Token.Placed source token)
    (isString : token.is .string) :
    isQuoted token.text := by
  obtain ⟨nest, slash, first, rest, taken, isStep, sameKind, isText⟩ :=
    placed.exists_codeStep isString (by decide)
  have isKind : taken.kind = .doubleQuoted ∨ taken.kind = .singleQuoted := by
    cases own : taken.kind <;> simp [own, kindOf] at sameKind
    · exact .inl rfl
    · exact .inr rfl
  obtain ⟨isQuote, found⟩ := isStep.quoted_of_string isKind
  have size : (rest.take taken.tail).length = taken.tail :=
    List.length_take_of_le (quotedExtent?_le found)
  have ends : endsQuoted first (rest.take taken.tail) := by
    rw [← quotedExtent?_append_iff (rest.drop taken.tail), List.take_append_drop, size, found]
  simpa [isQuoted, isText, ends, Declaration.isQuote, or_comm] using isQuote

def isNameToken (token : Token) : Bool :=
  token.isName || token.is .string

theorem isWord_of_placed
    {source : List Char}
    {token : Token}
    (placed : Token.Placed source token)
    (isName : isNameToken token) :
    isBareWord token.text ∨ isQuoted token.text := by
  simp only [isNameToken, Token.isName, Bool.or_eq_true] at isName
  rcases isName with (isIdentifier | isKeyword) | isString
  · exact .inl (by simp [isBareWord, Output.isName_of_identifier placed isIdentifier])
  · exact .inl (isBareWord_of_keyword placed isKeyword)
  · exact .inr (isQuoted_of_string placed isString)

/-! ## Words of an import statement -/

/-- The local names of specifiers are the texts of tokens among some. -/
def Drawn (tokens : List Token) (specifiers : List Specifier) : Prop :=
  ∀ specifier ∈ specifiers, ∃ name ∈ tokens, isNameToken name ∧ specifier.localName = name.text

theorem Drawn.append
    {tokens : List Token}
    {early late : List Specifier}
    (first : Drawn tokens early)
    (second : Drawn tokens late) :
    Drawn tokens (early ++ late) :=
  fun specifier member => (List.mem_append.mp member).elim (first specifier) (second specifier)

theorem Drawn.mono
    {tokens others : List Token}
    {specifiers : List Specifier}
    (drawn : Drawn tokens specifiers)
    (within : tokens ⊆ others) :
    Drawn others specifiers := by
  intro specifier member
  obtain ⟨name, isToken, isName⟩ := drawn specifier member
  exact ⟨name, within isToken, isName⟩

private theorem drawn_singleton
    {tokens : List Token}
    {token : Token}
    (member : token ∈ tokens)
    (isName : isNameToken token)
    (imported : String) :
    Drawn tokens [⟨imported, token.text⟩] := by
  intro specifier isOnly
  rw [List.mem_singleton.mp isOnly]
  exact ⟨token, member, isName, rfl⟩

private theorem drawn_specifiersOf (tokens : List Token) : Drawn tokens (specifiersOf tokens) := by
  intro specifier member
  obtain ⟨entry, isEntry, written⟩ := List.mem_filterMap.mp member
  unfold specifier? at written
  simp only at written
  split at written
  · rename_i first last isFirst isLast
    obtain ⟨isToken, isName⟩ := List.mem_filter.mp (List.mem_of_getLast? isLast)
    rw [← Option.some.inj written]
    exact ⟨last, mem_of_mem_splitWhere isEntry isToken, ((Bool.and_eq_true _ _).mp isName).1, rfl⟩
  · simp at written

private theorem drawn_of_readClause
    {tokens : List Token}
    {clause : Clause}
    (isClause : readClause tokens = .ok clause) :
    Drawn tokens clause.specifiers := by
  fun_induction readClause tokens generalizing clause with
  | case1 | case2 | case8 =>
    rw [← Except.ok.inj isClause]
    simp [Drawn]
  | case3 | case6 | case7 => simp at isClause
  | case4 token rest _ _ cut found inductionHypothesis =>
    obtain ⟨inner, isInner, rfl⟩ := exists_of_map_ok isClause
    have isRest := Bracket.eq_of_close? found
    refine ((drawn_specifiersOf cut.before).mono ?_).append ((inductionHypothesis isInner).mono ?_)
    all_goals
      intro token member
      simp [isRest, member]
  | case5 token _ _ _ word name after isName inductionHypothesis =>
    obtain ⟨inner, isInner, rfl⟩ := exists_of_map_ok isClause
    refine (drawn_singleton (by simp) (by simp [isNameToken, isName]) "*").append
      ((inductionHypothesis isInner).mono fun token member => ?_)
    simp [member]
  | case9 token rest _ _ _ _ isName inductionHypothesis =>
    obtain ⟨inner, isInner, rfl⟩ := exists_of_map_ok isClause
    have isIdentifier := ((Bool.and_eq_true _ _).mp isName).1
    exact (drawn_singleton List.mem_cons_self
      (by simp [isNameToken, Token.isName, isIdentifier]) "default").append
      ((inductionHypothesis isInner).mono (List.subset_cons_self _ _))
  | case10 token rest _ _ _ _ _ inductionHypothesis =>
    exact (inductionHypothesis isClause).mono (List.subset_cons_self _ _)

/-- The path and the local names of an import statement are taken from tokens among
some. -/
structure Sourced (tokens : List Token) (declaration : Declaration) : Prop where
  path : ∃ path ∈ tokens, path.is .string ∧ declaration.path = Text.unquote path.text
  names : Drawn tokens declaration.specifiers

theorem Sourced.mono
    {tokens others : List Token}
    {declaration : Declaration}
    (sourced : Sourced tokens declaration)
    (within : tokens ⊆ others) :
    Sourced others declaration where
  path := by
    obtain ⟨path, member, isPath⟩ := sourced.path
    exact ⟨path, within member, isPath⟩
  names := sourced.names.mono within

private theorem sourced_of_readImport
    {keyword : Token}
    {tokens : List Token}
    {declaration : Declaration}
    {length : Nat}
    (isImport : readImport keyword tokens = .ok (declaration, length)) :
    Sourced tokens declaration := by
  obtain ⟨⟨specifiers, rest⟩, isClause, -⟩ := exists_of_bind_ok isImport
  have within := (suffix_of_readClause isClause).subset
  by_cases isPath : ∃ path after, rest = path :: after ∧ path.is .string
  · obtain ⟨path, after, rfl, isString⟩ := isPath
    rw [readImport_of_path isClause isString, Except.ok.injEq, Prod.mk.injEq] at isImport
    obtain ⟨rfl, -⟩ := isImport
    exact ⟨⟨path, within List.mem_cons_self, isString, rfl⟩, drawn_of_readClause isClause⟩
  · rw [readImport_of_no_path isClause] at isImport
    · simp at isImport
    · intro path isHead isString
      obtain ⟨after, isRest⟩ := List.head?_eq_some_iff.mp isHead
      exact isPath ⟨path, after, isRest, isString⟩

theorem sourced_of_readFrom
    {before tokens : List Token}
    {skip : Nat}
    {declarations : List Declaration}
    (isRead : readFrom before skip tokens = .ok declarations)
    {declaration : Declaration}
    (member : declaration ∈ declarations)
    (isModule : declaration.mechanism = .module) :
    Sourced tokens declaration := by
  induction tokens generalizing before skip declarations with
  | nil =>
    rw [readFrom, Except.ok.injEq] at isRead
    simp [← isRead] at member
  | cons token after inductionHypothesis =>
    have later {skip : Nat} {others : List Declaration}
        (isOthers : readFrom (token :: before) skip after = .ok others)
        (isOther : declaration ∈ others) : Sourced (token :: after) declaration :=
      (inductionHypothesis isOthers isOther).mono (List.subset_cons_self _ _)
    cases skip with
    | succ skip => exact later isRead member
    | zero =>
      rw [readFrom] at isRead
      split at isRead
      · obtain ⟨⟨own, length⟩, isImport, isRest⟩ := exists_of_bind_ok isRead
        obtain ⟨others, isOthers, isAll⟩ := exists_of_bind_ok isRest
        rw [← Except.ok.inj isAll] at member
        rcases List.mem_cons.mp member with rfl | isOther
        · exact (sourced_of_readImport isImport).mono (List.subset_cons_self _ _)
        · exact later isOthers isOther
      · obtain ⟨others, isOthers, isAll⟩ := exists_of_bind_ok isRead
        rw [← Except.ok.inj isAll] at member
        rcases List.mem_append.mp member with isOwn | isOther
        · split at isOwn
          · have isDynamic := (requirement_of_readRequire? (Option.mem_toList.mp isOwn)).isDynamic
            simp [isModule] at isDynamic
          · simp at isOwn
        · exact later isOthers isOther

end Declaration

end Restyle
