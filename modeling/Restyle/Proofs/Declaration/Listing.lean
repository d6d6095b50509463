import Restyle.Proofs.Declaration.Phrases

/-!
Contract: declarations written in the documented forms are read as they are
written.

Owns: `Phrase`, the tokens of an import statement or of a required module;
`Listing`, phrases with other tokens between them; and that the declarations of a
listing are those of its phrases.

A phrase is read by its form alone.  What stands around it matters only where a
semicolon or a point may follow it.
-/

namespace Restyle.Declaration

open Output (isName)

/-! ## Phrases -/

/-- To what a required module is assigned, with the tokens that take a member from
it. -/
inductive Target : List Token → List Token → List Specifier → Prop where
  | single {name : Token}
      (isPlain : IsPlainName name) :
      Target [name] [] [⟨"default", name.text⟩]
  | member {name point own : Token}
      (isPlain : IsPlainName name)
      (isPoint : IsMark "." point)
      (isMember : IsPlainName own) :
      Target [name] [point, own] [⟨own.text, name.text⟩]
  | pattern {opener closer : Token} {names : List Token} {specifiers : List Specifier}
      (isOpener : IsBracket "\x7b" opener)
      (areNames : Names .dynamic names specifiers)
      (isCloser : IsBracket "\x7d" closer) :
      Target (opener :: (names ++ [closer])) [] specifiers

/-- The tokens of a declaration, its first one apart, with what it takes from which
module. -/
inductive Phrase : Token → List Token → Mechanism → String → List Specifier → Prop where
  | statement {keyword path : Token} {clause ending : List Token} {source : String}
      {specifiers : List Specifier}
      (isKeyword : keyword.is .keyword ∧ keyword.text = "import")
      (isClause : ImportClause clause specifiers)
      (isPath : IsPath path source)
      (ends : Ending ending) :
      Phrase keyword (clause ++ path :: ending) .module source specifiers
  | required {keyword assign require opener path closer : Token}
      {target member ending : List Token} {source : String} {specifiers : List Specifier}
      (isKeyword : keyword.is .keyword ∧ keyword.text ∈ ["const", "let", "var"])
      (isTarget : Target target member specifiers)
      (isAssign : IsMark "=" assign)
      (isRequire : IsWord "require" require)
      (isOpener : IsBracket "(" opener)
      (isPath : IsPath path source)
      (isCloser : IsBracket ")" closer)
      (ends : Ending ending) :
      Phrase keyword
        (target ++ assign :: require :: opener :: path :: closer :: (member ++ ending))
        .dynamic source specifiers

/-- The declaration that spans tokens from a first one to the last of some others. -/
def spanning (first : Token) (others : List Token) (mechanism : Mechanism) (path : String)
    (specifiers : List Specifier) : Declaration :=
  ⟨path, specifiers, mechanism, first.start, (others.getLastD first).stop, first.location⟩

/-- Phrases with other tokens between them, and their declarations.  Other tokens are
no `import` keyword and no `require`; no semicolon and no point follows a phrase. -/
inductive Listing : List Token → List Declaration → Prop where
  | nil : Listing [] []
  | other {token : Token} {rest : List Token} {declarations : List Declaration}
      (notImport : ¬ (token.is .keyword ∧ token.text = "import"))
      (notRequire : ¬ IsWord "require" token)
      (later : Listing rest declarations) :
      Listing (token :: rest) declarations
  | phrase {first : Token} {others rest : List Token} {mechanism : Mechanism} {path : String}
      {specifiers : List Specifier} {declarations : List Declaration}
      (isPhrase : Phrase first others mechanism path specifiers)
      (apart : ∀ next ∈ rest.head?, next.text ≠ ";" ∧ next.text ≠ ".")
      (later : Listing rest declarations) :
      Listing (first :: (others ++ rest))
        (spanning first others mechanism path specifiers :: declarations)

/-! ## Tokens that declare nothing -/

/-- A token before which nothing is declared is passed over. -/
theorem readFrom_pass
    {before after : List Token}
    {token : Token}
    (notImport : ¬ (token.is .keyword ∧ token.text = "import"))
    (notRequired : IsWord "require" token → readRequire? before after = none) :
    readFrom before 0 (token :: after) = readFrom (token :: before) 0 after := by
  rw [readFrom_other (by simp [← Bool.not_eq_true, not_and] at notImport ⊢; tauto)]
  have noOwn : (if token.is .identifier && token.text = "require" then
      (readRequire? before after).toList else []) = [] := by
    split
    · rename_i isRequire
      simp only [Bool.and_eq_true, decide_eq_true_eq] at isRequire
      rw [notRequired isRequire]
      rfl
    · rfl
  rw [noOwn]
  cases readFrom (token :: before) 0 after <;> rfl

private theorem readRequire?_of_unopened
    {after : List Token}
    (unopened : ∀ next ∈ after.head?, next.text ≠ "(")
    (before : List Token) :
    readRequire? before after = none := by
  have notRequired : required? after = none := by
    unfold required?
    split
    · rename_i opener _ _ _
      have isOther := unopened opener rfl
      simp [isOther]
    · rfl
  rw [readRequire?, notRequired]
  rfl

private theorem readRequire?_of_unassigned
    {before : List Token}
    (unassigned : ∀ previous ∈ before.head?, previous.text ≠ "=")
    (after : List Token) :
    readRequire? before after = none := by
  unfold readRequire?
  cases required? after with
  | none => rfl
  | some required =>
    cases before with
    | nil => rfl
    | cons assign before =>
      have isOther := unassigned assign rfl
      simp [isOther]

private theorem readFrom_pass_unopened
    {own after : List Token}
    (notImport : ∀ token ∈ own, ¬ (token.is .keyword ∧ token.text = "import"))
    (unopened : ∀ token ∈ own, token.text ≠ "(")
    (notAfter : ∀ next ∈ after.head?, next.text ≠ "(")
    (before : List Token) :
    readFrom before 0 (own ++ after) = readFrom (own.reverse ++ before) 0 after := by
  induction own generalizing before with
  | nil => rfl
  | cons token own inductionHypothesis =>
    obtain ⟨isOwn, areOthers⟩ := List.forall_mem_cons.mp notImport
    have othersUnopened := (List.forall_mem_cons.mp unopened).2
    have nextUnopened : ∀ next ∈ (own ++ after).head?, next.text ≠ "(" := by
      cases own with
      | nil => exact notAfter
      | cons next own =>
        intro other isOther
        obtain rfl := Option.some.inj isOther
        exact othersUnopened _ List.mem_cons_self
    rw [List.cons_append, readFrom_pass isOwn fun _ => readRequire?_of_unopened nextUnopened before,
      inductionHypothesis areOthers othersUnopened, List.reverse_cons, List.append_assoc,
      List.singleton_append]

/-- Tokens that are no words are passed over. -/
theorem readFrom_pass_unnamed
    {own : List Token}
    (areUnnamed : ∀ token ∈ own, isUnnamed token)
    (before after : List Token) :
    readFrom before 0 (own ++ after) = readFrom (own.reverse ++ before) 0 after := by
  induction own generalizing before with
  | nil => rfl
  | cons token own inductionHypothesis =>
    obtain ⟨isOwn, areOthers⟩ := List.forall_mem_cons.mp areUnnamed
    simp only [isUnnamed, Bool.and_eq_true, Bool.not_eq_true'] at isOwn
    rw [List.cons_append, readFrom_pass (by simp [isOwn.1]) (by simp [IsWord, isOwn.2]),
      inductionHypothesis areOthers, List.reverse_cons, List.append_assoc, List.singleton_append]

/-! ## What phrases are read as -/

private theorem readFrom_importStatement
    {keyword path : Token}
    {clause ending rest : List Token}
    {source : String}
    {specifiers : List Specifier}
    (isKeyword : keyword.is .keyword ∧ keyword.text = "import")
    (isClause : ImportClause clause specifiers)
    (isPath : IsPath path source)
    (ends : Ending ending)
    (apart : ∀ next ∈ rest.head?, next.text ≠ ";")
    (before : List Token) :
    readFrom before 0 (keyword :: (clause ++ path :: ending ++ rest)) =
      (readFrom ((clause ++ path :: ending).reverse ++ keyword :: before) 0 rest).map
        (spanning keyword (clause ++ path :: ending) .module source specifiers :: ·) := by
  have isAll : clause ++ path :: ending ++ rest = clause ++ path :: (ending ++ rest) := by simp
  have begins : (keyword.is .keyword && keyword.text = "import" &&
      followsImport (clause ++ path :: ending ++ rest)) = true := by
    rw [isAll, isClause.followsImport isPath]
    simp [isKeyword]
  have isImport := isClause.clauses.readImport keyword rfl isPath.isString (ending ++ rest)
  rw [ends.closingStop_eq apart, ends.any_semicolon apart, isPath.unquote_eq, ← isAll] at isImport
  have isLength : clause.length + 1 + ending.length = (clause ++ path :: ending).length := by
    simp
    omega
  have isLast : (clause ++ path :: ending).getLastD keyword = ending.getLastD path := by
    cases ends <;> simp
  rw [readFrom_statement begins isImport, isLength, readFrom_skip, spanning, isLast]

private theorem required?_of_call
    {opener path closer : Token}
    {source : String}
    {after : List Token}
    (isOpener : IsBracket "(" opener)
    (isPath : IsPath path source)
    (isCloser : IsBracket ")" closer)
    (noPoint : ∀ next ∈ after.head?, next.text ≠ ".") :
    required? (opener :: path :: closer :: after) =
      some ⟨source, none, closingStop closer after⟩ := by
  have isCall : (opener.text = "(" && path.is .string && closer.text = ")") = true := by
    simp [isOpener.2, isPath.isString, isCloser.2]
  simp only [required?, isCall, if_true, isPath.unquote_eq]
  rcases after with _ | ⟨point, _ | ⟨name, more⟩⟩
  · rfl
  · rfl
  · have isOther := noPoint point rfl
    simp [isOther, closingStop]

private theorem required?_of_member
    {opener path closer point name : Token}
    {source : String}
    (isOpener : IsBracket "(" opener)
    (isPath : IsPath path source)
    (isCloser : IsBracket ")" closer)
    (isPoint : IsMark "." point)
    (isMember : IsPlainName name)
    (after : List Token) :
    required? (opener :: path :: closer :: point :: name :: after) =
      some ⟨source, some name.text, closingStop name after⟩ := by
  have isCall : (opener.text = "(" && path.is .string && closer.text = ")") = true := by
    simp [isOpener.2, isPath.isString, isCloser.2]
  have isTaken : (point.text = "." && name.isName) = true := by
    simp [isPoint.2, Token.isName, isMember.isIdentifier]
  simp only [required?, isCall, isTaken, if_true, isPath.unquote_eq]
  cases after <;> rfl

private theorem Target.areUnopened {target member : List Token} {specifiers : List Specifier}
    (isTarget : Target target member specifiers) :
    ∀ token ∈ target, ¬ (token.is .keyword ∧ token.text = "import") ∧ token.text ≠ "(" := by
  have noParen : isName "(" = false := by decide
  have ofName : ∀ {name : Token}, IsPlainName name →
      ¬ (name.is .keyword ∧ name.text = "import") ∧ name.text ≠ "(" := by
    intro name isPlain
    simp [not_is_of_is isPlain.isIdentifier, isPlain.ne noParen]
  have ofMark : ∀ {text : String} {mark : Token}, IsMark text mark → text ≠ "(" →
      ¬ (mark.is .keyword ∧ mark.text = "import") ∧ mark.text ≠ "(" := by
    intro text mark isMark isOther
    have isUnnamed := isMark.isUnnamed
    simp only [Declaration.isUnnamed, Bool.and_eq_true, Bool.not_eq_true'] at isUnnamed
    simp [isUnnamed, isMark.2, isOther]
  cases isTarget with
  | single isPlain => simpa using ofName isPlain
  | member isPlain => simpa using ofName isPlain
  | pattern isOpener areNames isCloser =>
    intro token member
    rcases List.mem_cons.mp member with rfl | later
    · exact ofMark isOpener.isMark (by decide)
    · rcases List.mem_append.mp later with inNames | isLast
      · exact areNames.forall_mem (fun _ isPlain => ofName isPlain)
          (fun _ joins => ofMark joins (by decide)) (fun _ isComma => ofMark isComma (by decide))
          token inNames
      · exact List.mem_singleton.mp isLast ▸ ofMark isCloser.isMark (by decide)

private theorem Target.target?_eq {target member : List Token} {specifiers : List Specifier}
    (isTarget : Target target member specifiers) (before : List Token) :
    target? (member.getLast?.map (·.text)) (target.reverse ++ before) =
      some (specifiers, before) := by
  cases isTarget with
  | single isPlain => simp [target?, isPlain.isIdentifier]
  | member isPlain => simp [target?, isPlain.isIdentifier]
  | @pattern opener closer names _ isOpener areNames isCloser =>
    have notIdentifier : closer.is .identifier = false := not_is_of_is isCloser.1 (by decide)
    have isOpening := openingBrace?_of_flat areNames.areFlat isOpener [] before
    have isAll : (opener :: (names ++ [closer])).reverse ++ before =
        closer :: (names.reverse ++ opener :: before) := by
      simp
    rw [isAll]
    simp [target?, notIdentifier, isCloser.2, isOpening, areNames.specifiersOf_eq]

private theorem Target.required?_eq
    {target member ending rest : List Token}
    {opener path closer : Token}
    {source : String}
    {specifiers : List Specifier}
    (isTarget : Target target member specifiers)
    (isOpener : IsBracket "(" opener)
    (isPath : IsPath path source)
    (isCloser : IsBracket ")" closer)
    (ends : Ending ending)
    (apart : ∀ next ∈ rest.head?, next.text ≠ ";" ∧ next.text ≠ ".") :
    required? (opener :: path :: closer :: (member ++ ending ++ rest)) =
      some ⟨source, member.getLast?.map (·.text), ((member ++ ending).getLastD closer).stop⟩ := by
  have notSemicolon : ∀ next ∈ rest.head?, next.text ≠ ";" := fun next isNext => (apart next isNext).1
  have noPoint : ∀ next ∈ (ending ++ rest).head?, next.text ≠ "." := by
    cases ends with
    | none => exact fun next isNext => (apart next isNext).2
    | semicolon isMark => simp [isMark.2]
  have noMember := required?_of_call isOpener isPath isCloser noPoint
  rw [ends.closingStop_eq notSemicolon] at noMember
  cases isTarget with
  | single => exact noMember
  | pattern => exact noMember
  | @member name point own isPlain isPoint isMember =>
    have withMember := required?_of_member isOpener isPath isCloser isPoint isMember (ending ++ rest)
    rw [ends.closingStop_eq notSemicolon] at withMember
    have isLast : ([point, own] ++ ending).getLastD closer = ending.getLastD own := by
      cases ends <;> simp
    rw [isLast]
    exact withMember

/-- What follows a call of `require` is passed over: a member of that name is not
assigned. -/
theorem Target.readFrom_member
    {target member ending : List Token}
    {specifiers : List Specifier}
    (isTarget : Target target member specifiers)
    (ends : Ending ending)
    (before after : List Token) :
    readFrom before 0 (member ++ ending ++ after) =
      readFrom ((member ++ ending).reverse ++ before) 0 after := by
  have passed := fun before => readFrom_pass_unnamed ends.areUnnamed before after
  cases isTarget with
  | single => exact passed before
  | pattern => exact passed before
  | @member name point own isPlain isPoint isMember =>
    have isUnnamed := isPoint.isUnnamed
    simp only [Declaration.isUnnamed, Bool.and_eq_true, Bool.not_eq_true'] at isUnnamed
    have unassigned : ∀ previous ∈ (point :: before).head?, previous.text ≠ "=" := by
      simp [isPoint.2]
    simp only [List.cons_append, List.nil_append]
    rw [readFrom_pass (by simp [isUnnamed]) (by simp [IsWord, isUnnamed]),
      readFrom_pass (by simp [not_is_of_is isMember.isIdentifier])
        fun _ => readRequire?_of_unassigned unassigned _,
      passed]
    simp

private theorem readFrom_required
    {keyword assign require opener path closer : Token}
    {target member ending rest : List Token}
    {source : String}
    {specifiers : List Specifier}
    (isKeyword : keyword.is .keyword ∧ keyword.text ∈ ["const", "let", "var"])
    (isTarget : Target target member specifiers)
    (isAssign : IsMark "=" assign)
    (isRequire : IsWord "require" require)
    (isOpener : IsBracket "(" opener)
    (isPath : IsPath path source)
    (isCloser : IsBracket ")" closer)
    (ends : Ending ending)
    (apart : ∀ next ∈ rest.head?, next.text ≠ ";" ∧ next.text ≠ ".")
    (before : List Token) :
    readFrom before 0 (keyword :: (target ++ assign :: require :: opener :: path :: closer ::
        (member ++ ending) ++ rest)) =
      (readFrom ((target ++ assign :: require :: opener :: path :: closer ::
          (member ++ ending)).reverse ++ keyword :: before) 0 rest).map
        (spanning keyword (target ++ assign :: require :: opener :: path :: closer ::
          (member ++ ending)) .dynamic source specifiers :: ·) := by
  have unopened : ∀ token ∈ keyword :: (target ++ [assign]),
      ¬ (token.is .keyword ∧ token.text = "import") ∧ token.text ≠ "(" := by
    intro token isToken
    rcases List.mem_cons.mp isToken with rfl | later
    · have spellings : ∀ text ∈ ["const", "let", "var"], text ≠ "import" ∧ text ≠ "(" := by decide
      have isOther := spellings _ isKeyword.2
      exact ⟨fun isImport => isOther.1 isImport.2, isOther.2⟩
    · rcases List.mem_append.mp later with inTarget | isLast
      · exact isTarget.areUnopened token inTarget
      · obtain rfl := List.mem_singleton.mp isLast
        simp [isAssign.2]
  have isDeclared : readRequire? ((keyword :: (target ++ [assign])).reverse ++ before)
      (opener :: path :: closer :: (member ++ ending ++ rest)) =
      some (spanning keyword (target ++ assign :: require :: opener :: path :: closer ::
        (member ++ ending)) .dynamic source specifiers) := by
    have isBefore : (keyword :: (target ++ [assign])).reverse ++ before =
        assign :: (target.reverse ++ keyword :: before) := by
      simp
    have isLast : (target ++ assign :: require :: opener :: path :: closer ::
        (member ++ ending)).getLastD keyword = (member ++ ending).getLastD closer := by
      simp [List.getLast?_cons]
    have isVariable : variableKeywords.contains keyword.text := by
      simpa [variableKeywords] using isKeyword.2
    rw [readRequire?, isTarget.required?_eq isOpener isPath isCloser ends apart, isBefore]
    simp only [Option.bind_eq_bind, Option.bind_some, isAssign.2, if_true, isTarget.target?_eq,
      List.head?_cons, isVariable, spanning, isLast]
  have isAll : keyword :: (target ++ assign :: require :: opener :: path :: closer ::
      (member ++ ending) ++ rest) =
      keyword :: (target ++ [assign]) ++ require :: ([opener, path, closer] ++
        (member ++ ending ++ rest)) := by
    simp
  have notImport : (require.is .keyword && require.text = "import" &&
      followsImport ([opener, path, closer] ++ (member ++ ending ++ rest))) = false := by
    simp [not_is_of_is isRequire.1]
  have areUnnamed : ∀ token ∈ [opener, path, closer], isUnnamed token := by
    simp [isOpener.isMark.isUnnamed, isPath.isUnnamed, isCloser.isMark.isUnnamed]
  rw [isAll, readFrom_pass_unopened (fun token isToken => (unopened token isToken).1)
      (fun token isToken => (unopened token isToken).2) (by simp [isRequire.2]),
    readFrom_other notImport, readFrom_pass_unnamed areUnnamed,
    isTarget.readFrom_member ends, List.cons_append, List.cons_append, List.cons_append,
    List.nil_append, isDeclared]
  simp [isRequire.1, isRequire.2]

/-- A phrase is read as its declaration, and reading goes on after it. -/
theorem Phrase.readFrom_eq
    {first : Token}
    {others rest : List Token}
    {mechanism : Mechanism}
    {path : String}
    {specifiers : List Specifier}
    (isPhrase : Phrase first others mechanism path specifiers)
    (apart : ∀ next ∈ rest.head?, next.text ≠ ";" ∧ next.text ≠ ".")
    (before : List Token) :
    readFrom before 0 (first :: (others ++ rest)) =
      (readFrom (others.reverse ++ first :: before) 0 rest).map
        (spanning first others mechanism path specifiers :: ·) := by
  cases isPhrase with
  | statement isKeyword isClause isPath ends =>
    have notSemicolon : ∀ next ∈ rest.head?, next.text ≠ ";" :=
      fun next isNext => (apart next isNext).1
    exact readFrom_importStatement isKeyword isClause isPath ends notSemicolon before
  | required isKeyword isTarget isAssign isRequire isOpener isPath isCloser ends =>
    exact readFrom_required isKeyword isTarget isAssign isRequire isOpener isPath isCloser ends
      apart before

/-! ## Listings -/

/-- A listing declares what its phrases declare, in their order. -/
theorem Listing.readFrom_eq
    {tokens : List Token}
    {declarations : List Declaration}
    (isListing : Listing tokens declarations)
    (before : List Token) :
    readFrom before 0 tokens = .ok declarations := by
  induction isListing generalizing before with
  | nil => rfl
  | other notImport notRequire _ inductionHypothesis =>
    rw [readFrom_pass notImport fun isRequire => absurd isRequire notRequire]
    exact inductionHypothesis _
  | phrase isPhrase apart _ inductionHypothesis =>
    rw [isPhrase.readFrom_eq apart, inductionHypothesis]
    rfl

private theorem Listing.starts_sublist
    {tokens : List Token}
    {declarations : List Declaration}
    (isListing : Listing tokens declarations) :
    (declarations.map (·.start)).Sublist (tokens.map (·.start)) := by
  induction isListing with
  | nil => exact .refl _
  | other _ _ _ inductionHypothesis => exact inductionHypothesis.cons _
  | phrase isPhrase _ _ inductionHypothesis =>
    rw [List.map_cons, List.map_cons, List.map_append]
    exact (inductionHypothesis.trans (List.sublist_append_right _ _)).cons_cons _

/-- The reader of declarations accepts the documented forms: of phrases with other
tokens between them it gives their declarations, each once, in the order in which
they begin.  That is the order of the phrases where tokens stand in source order. -/
theorem readAll_of_listing
    {tokens : List Token}
    {declarations : List Declaration}
    (isListing : Listing tokens declarations) :
    readAll tokens =
        .ok (declarations.mergeSort fun left right => left.start ≤ right.start) ∧
      (tokens.Pairwise (·.start ≤ ·.start) → readAll tokens = .ok declarations) := by
  have isRead : readAll tokens =
      .ok (declarations.mergeSort fun left right => left.start ≤ right.start) := by
    rw [readAll, isListing.readFrom_eq]
    rfl
  refine ⟨isRead, fun inOrder => ?_⟩
  have areStarts : (declarations.map (·.start)).Pairwise (· ≤ ·) :=
    (List.pairwise_map.mpr inOrder).sublist isListing.starts_sublist
  have areSorted : declarations.Pairwise
      fun left right => decide (left.start ≤ right.start) = true :=
    (List.pairwise_map.mp areStarts).imp fun ordered => decide_eq_true ordered
  rw [isRead, List.mergeSort_of_pairwise areSorted]

def atom (kind : Token.Kind) (text : String) (start : Nat) : Token :=
  ⟨text, start, ⟨1, start + 1⟩, .atom kind⟩

/-- `import d, { a as b, } from "m"; x; const { p: q } = require("n")`. -/
def sampleListing : List Token :=
  [atom .keyword "import" 0, atom .identifier "d" 7, atom .punctuator "," 8,
    atom .punctuator "\x7b" 10, atom .identifier "a" 12, atom .identifier "as" 14,
    atom .identifier "b" 17, atom .punctuator "," 18, atom .punctuator "\x7d" 20,
    atom .identifier "from" 22, atom .string "\"m\"" 27, atom .punctuator ";" 30,
    atom .identifier "x" 32, atom .punctuator ";" 33,
    atom .keyword "const" 35, atom .punctuator "\x7b" 41, atom .identifier "p" 43,
    atom .operator ":" 44, atom .identifier "q" 46, atom .punctuator "\x7d" 48,
    atom .operator "=" 50, atom .identifier "require" 52, atom .punctuator "(" 59,
    atom .string "\"n\"" 60, atom .punctuator ")" 63]

private theorem isPlainName_atom {text : String} (named : isName text) (notJoin : text ≠ "as")
    (start : Nat) : IsPlainName (atom .identifier text start) :=
  ⟨rfl, named, notJoin⟩

private theorem isMark_atom {kind : Token.Kind} (isKind : kind = .punctuator ∨ kind = .operator)
    (text : String) (start : Nat) : IsMark text (atom kind text start) := by
  rcases isKind with rfl | rfl
  · exact ⟨.inl rfl, rfl⟩
  · exact ⟨.inr rfl, rfl⟩

private theorem sampleListing_declares : Listing sampleListing
    [⟨"m", [⟨"default", "d"⟩, ⟨"a", "b"⟩], .module, 0, 31, ⟨1, 1⟩⟩,
      ⟨"n", [⟨"p", "q"⟩], .dynamic, 35, 64, ⟨1, 36⟩⟩] := by
  have plain : ∀ text ∈ ["a", "b", "d", "p", "q"], isName text ∧ text ≠ "as" := by decide
  have name : ∀ {text : String} {start : Nat}, text ∈ ["a", "b", "d", "p", "q"] →
      IsPlainName (atom .identifier text start) := fun member =>
    isPlainName_atom (plain _ member).1 (plain _ member).2 _
  have isFirst : Phrase (atom .keyword "import" 0) (sampleListing.take 12).tail .module "m"
      [⟨"default", "d"⟩, ⟨"a", "b"⟩] :=
    .statement ⟨rfl, rfl⟩
      (.both (name (by decide)) (by decide) (isMark_atom (.inl rfl) _ _)
        (.named ⟨rfl, rfl⟩
          (.cons (.renamed (name (by decide)) ⟨rfl, rfl⟩ (name (by decide)))
            (isMark_atom (.inl rfl) _ _) .nil) ⟨rfl, rfl⟩) ⟨rfl, rfl⟩)
      ⟨rfl, '"', rfl, by decide⟩ (.semicolon (isMark_atom (.inl rfl) _ _))
  have isTarget : Target ((sampleListing.drop 15).take 5) [] [⟨"p", "q"⟩] :=
    .pattern ⟨rfl, rfl⟩
      (.last (.renamed (name (by decide)) (isMark_atom (.inr rfl) _ _) (name (by decide))))
      ⟨rfl, rfl⟩
  have isLast : Phrase (atom .keyword "const" 35) (sampleListing.drop 15) .dynamic "n"
      [⟨"p", "q"⟩] :=
    .required ⟨rfl, by decide⟩ isTarget (isMark_atom (.inr rfl) _ _) ⟨rfl, rfl⟩ ⟨rfl, rfl⟩
      ⟨rfl, '"', rfl, by decide⟩ ⟨rfl, rfl⟩ .none
  have afterFirst : Listing (sampleListing.drop 12)
      [spanning (atom .keyword "const" 35) (sampleListing.drop 15) .dynamic "n" [⟨"p", "q"⟩]] :=
    .other (by decide) (by simp [IsWord, atom]) (.other (by decide) (by simp [IsWord, atom])
      (.phrase isLast (by simp) .nil))
  exact .phrase isFirst (by simp [atom]) afterFirst

/-- The sample is read as its two declarations. -/
theorem readAll_sampleListing :
    Listing sampleListing
        [⟨"m", [⟨"default", "d"⟩, ⟨"a", "b"⟩], .module, 0, 31, ⟨1, 1⟩⟩,
          ⟨"n", [⟨"p", "q"⟩], .dynamic, 35, 64, ⟨1, 36⟩⟩] ∧
      sampleListing.Pairwise (·.start ≤ ·.start) ∧
      readAll sampleListing =
        .ok [⟨"m", [⟨"default", "d"⟩, ⟨"a", "b"⟩], .module, 0, 31, ⟨1, 1⟩⟩,
          ⟨"n", [⟨"p", "q"⟩], .dynamic, 35, 64, ⟨1, 36⟩⟩] := by
  have inOrder : sampleListing.Pairwise (·.start ≤ ·.start) := by decide
  exact ⟨sampleListing_declares, inOrder, (readAll_of_listing sampleListing_declares).2 inOrder⟩

end Restyle.Declaration
