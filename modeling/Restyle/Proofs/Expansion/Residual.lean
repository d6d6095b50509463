import Restyle.Proofs.Expansion.Statements
import Restyle.Proofs.Module.Parsed

/-!
Contract: when what is left of a macro import is read back as what it keeps.

Owns: `ReadsBack`, by which a text is one import statement of some names from a path;
`holdsBare`, by which a quote in a text would end it early; and that names which may
stand in a list without quotes are read back exactly if the path holds no bare
apostrophe.
-/

namespace Restyle

open Token Lexeme Declaration
open Output (endsQuoted_bare endsQuoted_escape)

/-! ## Quotes within a path -/

/-- Whether a quote stands in a text without a backslash before it. -/
def Text.holdsBare (quote : Char) : List Char → Bool
  | [] => false
  | [c] => c = quote
  | c :: d :: rest =>
    if c = '\\' then holdsBare quote rest else c = quote || holdsBare quote (d :: rest)

section Quotes

variable
  {quote other : Char}
  {chars : List Char}

variable
  (notSlash : quote ≠ '\\')
  (otherNotSlash : other ≠ '\\')
  (ends : endsQuoted other (chars ++ [other]))

include notSlash otherNotSlash ends

private theorem endsQuoted_of_not_holdsBare (notBare : Text.holdsBare quote chars = false) :
    endsQuoted quote (chars ++ [quote]) := by
  fun_induction Text.holdsBare quote chars with
  | case1 => simp [endsQuoted]
  | case2 c =>
    by_cases isSlash : c = '\\'
    · simp [isSlash, endsQuoted, Ne.symm otherNotSlash] at ends
    · rw [List.singleton_append, endsQuoted_bare isSlash (by simp)] at ends ⊢
      simp_all [endsQuoted]
  | case3 d rest inductionHypothesis =>
    rw [List.cons_append, List.cons_append, endsQuoted_escape otherNotSlash] at ends
    rw [List.cons_append, List.cons_append, endsQuoted_escape notSlash]
    exact inductionHypothesis ends notBare
  | case4 c d rest isPlain inductionHypothesis =>
    rw [List.cons_append, endsQuoted_bare isPlain (by simp)] at ends ⊢
    simp only [Bool.or_eq_false_iff, Bool.and_eq_true, Bool.not_eq_true', decide_eq_false_iff_not]
      at ends notBare ⊢
    exact ⟨⟨notBare.1, ends.1.2⟩, inductionHypothesis ends.2 notBare.2⟩

private theorem exists_early_end (bare : Text.holdsBare quote chars) :
    ∃ front back, chars = front ++ quote :: back ∧ endsQuoted quote (front ++ [quote]) := by
  fun_induction Text.holdsBare quote chars with
  | case1 => simp at bare
  | case2 c =>
    obtain rfl := of_decide_eq_true bare
    exact ⟨[], [], rfl, by simp [endsQuoted]⟩
  | case3 d rest inductionHypothesis =>
    rw [List.cons_append, List.cons_append, endsQuoted_escape otherNotSlash] at ends
    obtain ⟨front, back, rfl, isEnd⟩ := inductionHypothesis ends bare
    refine ⟨'\\' :: d :: front, back, rfl, ?_⟩
    rwa [List.cons_append, List.cons_append, endsQuoted_escape notSlash]
  | case4 c d rest isPlain inductionHypothesis =>
    by_cases isQuote : c = quote
    · exact ⟨[], d :: rest, by rw [isQuote]; rfl, by simp [endsQuoted]⟩
    · rw [List.cons_append, endsQuoted_bare isPlain (by simp)] at ends
      simp only [Bool.and_eq_true, Bool.not_eq_true', decide_eq_false_iff_not] at ends
      simp only [isQuote, decide_false, Bool.false_or] at bare
      obtain ⟨front, back, isRest, isEnd⟩ := inductionHypothesis ends.2 bare
      refine ⟨c :: front, back, by rw [isRest]; rfl, ?_⟩
      rw [List.cons_append, endsQuoted_bare isPlain (by simp)]
      simp [isQuote, ends.1.2, isEnd]

end Quotes

namespace Expansion

/-! ## What is read back -/

/-- A text is read as one import statement, of some specifiers from a path. -/
def ReadsBack (text path : String) (specifiers : List Specifier) : Prop :=
  ∃ module declaration, Module.parse text = .ok module ∧ module.declarations = [declaration] ∧
    declaration.mechanism = .module ∧ declaration.path = path ∧
    declaration.specifiers = specifiers

/-- The specifiers of a declaration that no macro stands for. -/
def unknownSpecifiers (bindings : Binding.Table) (declaration : Declaration) : List Specifier :=
  declaration.specifiers.filter fun specifier =>
    (unknownNames bindings declaration).contains specifier.localName

private theorem residualSpecifiers_of_areRestorable
    {bindings : Binding.Table}
    {declaration : Declaration}
    (restorable : areRestorable (unknownSpecifiers bindings declaration)) :
    residualSpecifiers bindings declaration = unknownSpecifiers bindings declaration := by
  unfold residualSpecifiers
  unfold unknownSpecifiers at restorable ⊢
  simp only at restorable ⊢
  generalize (declaration.specifiers.filter fun specifier =>
    (unknownNames bindings declaration).contains specifier.localName) = kept at restorable ⊢
  cases isWhole : kept.find? (·.imported = "*") with
  | none => rfl
  | some whole =>
    have isStar : whole.imported = "*" := by simpa using List.find?_some isWhole
    have member := List.mem_of_find?_eq_some isWhole
    unfold areRestorable at restorable
    split at restorable
    · rw [List.mem_singleton.mp member]
    · have own := List.all_eq_true.mp restorable whole member
      have notWord : isBareWord "*" = false := by decide
      simp [Specifier.isRestorable, isStar, notWord] at own

/-- An announced import is read back where it stands alone. -/
theorem Announces.readsBack
    {text path : String}
    {covered : List Face}
    {specifiers : List Specifier}
    (announces : Announces text covered path specifiers) :
    ReadsBack text path specifiers := by
  have run := announces.runs .module .divides []
  rw [List.append_nil] at run
  obtain ⟨tokens, isRead, areFaces⟩ := run.readAll
  obtain ⟨keyword, own, rfl, isKeyword, areOwn⟩ := List.map_eq_cons_iff.mp areFaces
  obtain ⟨declaration, length, isImport, isPath, areSpecifiers, isModule, isLength⟩ :=
    announces.states keyword own [] areOwn
  obtain rfl : length = own.length := by
    rcases isLength with isLength | ⟨next, more, isNil, -⟩
    · exact isLength
    · simp at isNil
  rw [List.append_nil] at isImport
  have begins : (keyword.is .keyword && keyword.text = "import" && followsImport own) = true := by
    rw [begins_eq, isKeyword, areOwn]
    exact announces.starts
  have declares : Declaration.readFrom [] 0 (keyword :: own) = .ok [declaration] := by
    have isEnd : Declaration.readFrom [keyword] own.length own = .ok [] := by
      simpa [Declaration.readFrom] using readFrom_skip [keyword] own []
    rw [readFrom_statement begins isImport, isEnd]
    rfl
  refine ⟨⟨text, keyword :: own, [declaration]⟩, declaration, ?_, rfl, isModule, isPath,
    areSpecifiers⟩
  rw [Module.parse, isRead]
  simp only [bind, Except.bind, Declaration.readAll, declares, List.mergeSort_singleton]
  rfl

private theorem Enlists.not_readsBack
    {names path : String}
    {own : List Face}
    {specifiers others : List Specifier}
    (enlists : Enlists names own specifiers)
    {front back : List Char}
    (isPath : path.toList = front ++ '\'' :: back)
    (ends : endsQuoted '\'' (front ++ ['\''])) :
    ¬ ReadsBack ("import " ++ names ++ " from '" ++ path ++ "';") path others := by
  rintro ⟨module, declaration, isModule, isOnly, -, rfl, -⟩
  have isText : ("import " ++ names ++ " from '" ++ declaration.path ++ "';").toList =
      ("import " ++ names ++ " from '" ++ String.ofList front ++ "'").toList ++
        (back ++ ['\'', ';']) := by
    simp [isPath]
  have run := @Enlists.runs_path names (String.ofList front) own specifiers enlists
    (by simpa using ends) .module .divides (back ++ ['\'', ';'])
  rw [← isText] at run
  obtain ⟨found, isFound, same⟩ := Module.exists_found isModule
  obtain ⟨tokens, isRead, isRest⟩ := exists_of_bind_ok isModule
  obtain rfl : module.tokens = tokens := by
    obtain ⟨declarations, -, isAll⟩ := exists_of_bind_ok isRest
    rw [← Except.ok.inj isAll]
  obtain ⟨early, after, isAll, areFaces⟩ := run.exists_prefix isRead
  obtain ⟨keyword, early, rfl, isKeyword, areFaces⟩ := List.map_eq_cons_iff.mp areFaces
  rw [List.append_cons] at areFaces
  obtain ⟨clause, early, rfl, isClause, areFaces⟩ := List.map_eq_append_iff.mp areFaces
  obtain ⟨path, early, rfl, isFace, isNil⟩ := List.map_eq_cons_iff.mp areFaces
  obtain rfl := List.map_eq_nil_iff.mp isNil
  have isString : path.is .string := by rw [is_eq_face, isFace]; rfl
  have isEarly : (Text.unquote path.text).toList = front := by
    rw [← text_face, isFace]
    simp [pathFace, Text.unquote]
  -- The statement is found with the path that ends early.
  have isImport := @readImport_of_path keyword path _ after _
    (enlists.clauses clause path after isClause isString) isString
  have begins : (keyword.is .keyword && keyword.text = "import" &&
      followsImport (clause ++ path :: after)) = true := by
    obtain ⟨face, others, rfl, notParen, notPoint⟩ := enlists.first
    rw [begins_eq, isKeyword, List.map_append, isClause]
    simp [beginsImport, importFace, notParen, notPoint]
  have isTokens : module.tokens = keyword :: (clause ++ path :: after) := by
    rw [isAll]
    simp
  rw [isTokens, readFrom_statement begins isImport] at isFound
  obtain ⟨others, -, rfl⟩ := exists_of_map_ok isFound
  have isDeclaration := same.subset List.mem_cons_self
  rw [isOnly, List.mem_singleton] at isDeclaration
  rw [← isDeclaration, isEarly] at isPath
  simpa using congrArg List.length isPath

/-! ## Imports of a module -/

private theorem exists_quote_of_sourced
    {source : List Char}
    {tokens : List Token}
    {declaration : Declaration}
    (sourced : Sourced tokens declaration)
    (placed : ∀ token ∈ tokens, Token.Placed source token) :
    ∃ quote, quote ≠ '\\' ∧ endsQuoted quote (declaration.path.toList ++ [quote]) := by
  obtain ⟨path, member, isString, isPath⟩ := sourced.path
  obtain ⟨quote, body, isQuote, isText, -⟩ := (placed path member).spelling_of_string isString
  have quoted := isQuoted_of_string (placed path member) isString
  refine ⟨quote, by rcases isQuote with rfl | rfl <;> decide, ?_⟩
  have isInner : declaration.path.toList = body := by
    simp [isPath, Text.unquote, isText]
  rw [isInner]
  simp only [isQuoted, isText, List.cons_append, Bool.and_eq_true] at quoted
  exact quoted.2

/-- What is left of a macro import is read back as an import of what it keeps, where no
kept name needs quotes and `as` is none of them, exactly if its path may stand between
apostrophes. -/
theorem residual_readsBack_iff
    {source : String}
    {module : Module}
    (isModule : Module.parse source = .ok module)
    {declaration : Declaration}
    (declared : declaration ∈ module.declarations)
    {bindings : Binding.Table}
    {text : String}
    (isLeft : residualImport? declaration (unknownNames bindings declaration) = some text)
    (restorable : areRestorable (unknownSpecifiers bindings declaration)) :
    ReadsBack text declaration.path (unknownSpecifiers bindings declaration) ↔
      Text.holdsBare '\'' declaration.path.toList = false := by
  have isStatement : declaration.mechanism = .module := by
    by_contra isOther
    simp [residualImport?, isOther] at isLeft
  have parsed := (Module.parsed_of_parse isModule).2
  obtain ⟨found, isFound, same⟩ := Module.exists_found isModule
  have sourced := sourced_of_readFrom isFound (same.mem_iff.mpr declared) isStatement
  have placed : ∀ token ∈ module.tokens, Token.Placed module.source.toList token :=
    fun token member => parsed.placed_everywhere (subset_everywhere _ member)
  have areAll := residualSpecifiers_of_areRestorable restorable
  have areWords : ∀ specifier ∈ residualSpecifiers bindings declaration,
      isBareWord specifier.localName ∨ isQuoted specifier.localName := by
    intro specifier member
    rw [areAll] at member
    obtain ⟨name, isToken, isName, isLocal⟩ :=
      sourced.names specifier (List.mem_filter.mp member).1
    exact isLocal ▸ isWord_of_placed (placed name isToken) isName
  rw [← areAll] at restorable ⊢
  obtain ⟨names, own, rfl, enlists⟩ := enlists_residual areWords restorable isLeft
  obtain ⟨quote, notSlash, ends⟩ := exists_quote_of_sourced sourced placed
  constructor
  · intro readsBack
    refine Bool.eq_false_iff.mpr fun bare => ?_
    obtain ⟨front, back, isPath, endsEarly⟩ := exists_early_end (by decide) notSlash ends bare
    exact enlists.not_readsBack isPath endsEarly readsBack
  · intro notBare
    exact (enlists.announces (endsQuoted_of_not_holdsBare (by decide) notSlash ends
      notBare)).readsBack

/-- A macro import that loses one of its names, with a path between quotes. -/
def losingSample (quotedPath : String) : String :=
  "import \x7b css, bar as baz \x7d from " ++ quotedPath

/-- What is left of the import in a sample is read back from a plain path, and not from
one with a bare apostrophe. -/
theorem losingSample_readsBack :
    (∃ module declaration, Module.parse (losingSample "'./macro'") = .ok module ∧
      declaration ∈ module.declarations ∧
      ReadsBack "import \x7b bar as baz \x7d from './macro';" declaration.path
        (unknownSpecifiers (Binding.Table.ofList (Binding.listOf {} Registry.packaged module))
          declaration)) ∧
    (∃ module declaration, Module.parse (losingSample "\"./it's/macro\"") = .ok module ∧
      declaration ∈ module.declarations ∧
      ¬ ReadsBack "import \x7b bar as baz \x7d from './it's/macro';" declaration.path
        (unknownSpecifiers (Binding.Table.ofList (Binding.listOf {} Registry.packaged module))
          declaration)) := by
  have evaluates : ([("'./macro'", "import \x7b bar as baz \x7d from './macro';", false),
      ("\"./it's/macro\"", "import \x7b bar as baz \x7d from './it's/macro';", true)].all
      fun (quotedPath, left, bare) =>
        (Module.parse (losingSample quotedPath)).toOption.any fun module =>
          module.declarations.any fun declaration =>
            let bindings := Binding.Table.ofList (Binding.listOf {} Registry.packaged module)
            decide (residualImport? declaration (unknownNames bindings declaration) = some left) &&
              areRestorable (unknownSpecifiers bindings declaration) &&
              Text.holdsBare '\'' declaration.path.toList = bare) = true := by
    decide +kernel
  simp only [List.all_cons, List.all_nil, Bool.and_true, Bool.and_eq_true] at evaluates
  obtain ⟨plain, quoted⟩ := evaluates
  obtain ⟨module, parses, plain⟩ := (Option.any_eq_true _ _).mp plain
  obtain ⟨other, otherParses, quoted⟩ := (Option.any_eq_true _ _).mp quoted
  simp only [List.any_eq_true, Bool.and_eq_true, decide_eq_true_eq] at plain quoted
  obtain ⟨declaration, member, ⟨isLeft, restorable⟩, notBare⟩ := plain
  obtain ⟨another, isOther, ⟨otherLeft, otherRestorable⟩, bare⟩ := quoted
  refine ⟨⟨module, declaration, ok_of_toOption parses, member, ?_⟩,
    ⟨other, another, ok_of_toOption otherParses, isOther, fun readsBack => ?_⟩⟩
  · exact (residual_readsBack_iff (ok_of_toOption parses) member isLeft restorable).mpr notBare
  · have notBare := (residual_readsBack_iff (ok_of_toOption otherParses) isOther otherLeft
      otherRestorable).mp readsBack
    simp [bare] at notBare

end Expansion

end Restyle
