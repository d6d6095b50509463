import Mathlib.Data.List.Forall2
import Restyle.Proofs.Declaration.Plain
import Restyle.Proofs.Declaration.Reading
import Restyle.Token

/-!
Contract: an `import` that is the name of a property.

Owns: `PropertyImport`, an `import` where the name of a property stands, and what the
search for declarations makes of it.

What stands before it is read first, so the cases are whether that can be read on its
own.  If it can, the search comes to the `import` itself.  If not, the tokens before
end inside an import statement, and the `import` is one of its words.
-/

namespace Restyle

open Token

namespace Declaration

/-! ## The name of a property -/

/-- Whether a name stands where the name of a property does: after a point, or before a
colon where an entry begins. -/
def namesProperty (site : Site) : Bool :=
  site.follows [".", "?."] || site.follows ["\x7b", ","] && site.precedes [":"]

/-- An `import` where the name of a property stands. -/
structure PropertyImport (before : List Token) (keyword : Token) (after : List Token) : Prop where
  isKeyword : keyword.is .keyword
  isImport : keyword.text = "import"
  isProperty : namesProperty ⟨before.reverse, keyword, after⟩

/-- The marks before the name of a property. -/
def propertyMarks : List String :=
  [".", "?.", "\x7b", ","]

section PropertyImport

variable
  {before after : List Token}
  {keyword : Token}

private theorem PropertyImport.exists_mark (property : PropertyImport before keyword after) :
    ∃ mark further, before.reverse = mark :: further ∧ mark.text ∈ propertyMarks := by
  have isProperty := property.isProperty
  cases isBefore : before.reverse with
  | nil => simp [isBefore, namesProperty, Site.follows, Site.previous?] at isProperty
  | cons mark further =>
    refine ⟨mark, further, rfl, ?_⟩
    simp only [isBefore, namesProperty, Site.follows, Site.previous?, List.head?_cons,
      Option.any_some, Bool.or_eq_true, Bool.and_eq_true, List.contains_eq_mem,
      decide_eq_true_eq, List.mem_cons, List.not_mem_nil, or_false] at isProperty
    simp only [propertyMarks, List.mem_cons, List.not_mem_nil, or_false]
    rcases isProperty with (isPoint | isPoint) | ⟨isComma | isBrace, -⟩ <;> simp [*]

end PropertyImport

section Property

variable
  {keyword mark : Token}
  (isKeyword : keyword.is .keyword)
  (isImport : keyword.text = "import")
  (isMark : mark.text ∈ propertyMarks)

include isKeyword

private theorem plain_keyword : keyword.plain = keyword.asIdentifier :=
  plain_of_isName (by simp [Token.isName, isKeyword])

/-- Lists that differ in how the keyword is read are the same but for keywords. -/
theorem plain_append (left right : List Token) :
    (left ++ keyword :: right).map plain =
      (left ++ keyword.asIdentifier :: right).map plain := by
  simp [plain_keyword isKeyword, plain_asIdentifier]

private theorem not_is_of_keyword
    {kind : Kind}
    (isOther : kind ≠ .keyword) :
    keyword.is kind = false := by
  obtain ⟨text, start, location, body⟩ := keyword
  cases body with
  | atom own =>
    obtain rfl : own = .keyword := by simpa [Token.is] using isKeyword
    simpa [Token.is] using isOther.symm
  | template literal => rfl

include isImport isMark

/-- A declaration around a `require` does not depend on how the keyword is read: were it
the variable, no keyword that declares variables would stand before it. -/
theorem readRequire?_property (near further after : List Token) :
    readRequire? (near ++ keyword :: mark :: further) after =
      readRequire? (near ++ keyword.asIdentifier :: mark :: further) after := by
  have notVariable : mark.text ∉ variableKeywords := by
    simp only [propertyMarks, List.mem_cons, List.not_mem_nil, or_false] at isMark
    rcases isMark with isMark | isMark | isMark | isMark <;> rw [isMark] <;> decide
  have notIdentifier : keyword.is .identifier = false := not_is_of_keyword isKeyword (by decide)
  have isIdentifier : keyword.asIdentifier.is .identifier = true := rfl
  have isText : keyword.asIdentifier.text = "import" := isImport
  simp only [readRequire?]
  cases required? after with
  | none => rfl
  | some required =>
    rcases near with _ | ⟨assign, _ | ⟨target, near⟩⟩
    · simp [isImport, isText]
    · by_cases assigns : assign.text = "="
      · simp [assigns, target?, notIdentifier, isIdentifier, isImport, notVariable]
      · simp [assigns]
    · by_cases assigns : assign.text = "="
      · let declared (found : List Specifier × List Token) : Option Declaration := do
          let keyword ← found.2.head?
          if variableKeywords.contains keyword.text then
            some ⟨required.path, found.1, .dynamic, keyword.start, required.stop, keyword.location⟩
          else none
        have indifferent (found? : Option (List Specifier × List Token)) :
            (found?.map fun found => (found.1, found.2.map plain)).bind declared =
              found?.bind declared := by
          rcases found? with _ | ⟨specifiers, _ | ⟨first, others⟩⟩ <;> simp [declared]
        have same := target?_cons required.member target
          (plain_append isKeyword near (mark :: further))
        simp only [List.cons_append, assigns, if_true, Option.bind_eq_bind, Option.bind_some]
        change (target? _ _).bind declared = (target? _ _).bind declared
        rw [← indifferent, same, indifferent]
      · simp [assigns]

/-- Tokens after it are searched alike, however the keyword is read. -/
theorem readFrom_property (near further : List Token) (skip : Nat) (tokens : List Token) :
    readFrom (near ++ keyword :: mark :: further) skip tokens =
      readFrom (near ++ keyword.asIdentifier :: mark :: further) skip tokens := by
  induction tokens generalizing near skip with
  | nil => rfl
  | cons token after inductionHypothesis =>
    have later (skip : Nat) := inductionHypothesis (token :: near) skip
    simp only [List.cons_append] at later
    cases skip with
    | succ skip => exact later skip
    | zero =>
      simp only [readFrom, later, readRequire?_property isKeyword isImport isMark near further after]

end Property

/-! ## Clauses -/

/-- Specifiers as they are, or with a default name `import` more. -/
inductive GainsImport : List Specifier → List Specifier → Prop where
  | same (specifiers : List Specifier) : GainsImport specifiers specifiers
  | more (early late : List Specifier) :
      GainsImport (early ++ late) (early ++ ⟨"default", "import"⟩ :: late)

theorem GainsImport.append
    {own other : List Specifier}
    (gains : GainsImport own other)
    (front : List Specifier) :
    GainsImport (front ++ own) (front ++ other) := by
  cases gains with
  | same => exact .same _
  | more early late => simpa using GainsImport.more (front ++ early) late

/-- Two readings of a clause that goes on beyond some tokens, into those after them: both
fail alike, or the second may have a default name `import` more. -/
inductive ClauseAcross (after : List Token) : Except Fault Clause → Except Fault Clause → Prop where
  | fails (fault : Fault) : ClauseAcross after (.error fault) (.error fault)
  | reads {own other : List Specifier} {rest : List Token}
      (gains : GainsImport own other)
      (beyond : rest <:+ after) :
      ClauseAcross after (.ok ⟨own, rest⟩) (.ok ⟨other, rest⟩)

theorem ClauseAcross.cons
    {after : List Token}
    {first second : Except Fault Clause}
    (across : ClauseAcross after first second)
    (front : List Specifier) :
    ClauseAcross after (first.map (·.cons front)) (second.map (·.cons front)) := by
  cases across with
  | fails fault => exact .fails fault
  | reads gains beyond => exact .reads (gains.append front) beyond

theorem ClauseAcross.beyond
    {after further : List Token}
    {first second : Except Fault Clause}
    (across : ClauseAcross after first second)
    (suffix : after <:+ further) :
    ClauseAcross further first second := by
  cases across with
  | fails fault => exact .fails fault
  | reads gains beyond => exact .reads gains (beyond.trans suffix)

private theorem clauseAcross_self (after : List Token) :
    ClauseAcross after (readClause after) (readClause after) := by
  cases isClause : readClause after with
  | error fault => exact .fails fault
  | ok clause => exact .reads (.same _) (suffix_of_readClause isClause)

/-- A clause that does not stop after its first part does not stop with it. -/
theorem rest_eq_nil_of_cons
    {outcome : Except Fault Clause}
    {specifiers : List Specifier}
    (open' : ∀ clause, outcome.map (·.cons specifiers) = .ok clause → clause.rest = []) :
    ∀ clause, outcome = .ok clause → clause.rest = [] := by
  intro clause isClause
  simpa [Clause.cons] using open' (clause.cons specifiers) (by rw [isClause]; rfl)

section Clauses

variable
  {keyword : Token}
  (isKeyword : keyword.is .keyword)

include isKeyword

/-- A bracket list that goes beyond the keyword is closed at the same place, however the
keyword is read, and has the same specifiers. -/
theorem close?_property (depth : Nat) (tokens after : List Token) :
    (Bracket.close? depth tokens).isSome ∨
    (Bracket.close? depth (tokens ++ keyword :: after) = none ∧
      Bracket.close? depth (tokens ++ keyword.asIdentifier :: after) = none) ∨
    ∃ between closer rest, rest <:+ after ∧
      Bracket.close? depth (tokens ++ keyword :: after) =
        some ⟨tokens ++ keyword :: between, closer, rest⟩ ∧
      Bracket.close? depth (tokens ++ keyword.asIdentifier :: after) =
        some ⟨tokens ++ keyword.asIdentifier :: between, closer, rest⟩ := by
  cases found : Bracket.close? depth tokens with
  | some cut => exact .inl rfl
  | none =>
    refine .inr ?_
    obtain ⟨further, goesOn⟩ := Bracket.exists_depth_of_unclosed found
    have passes (token : Token) (notPunctuator : token.is .punctuator = false) :
        Bracket.close? further (token :: after) =
          (Bracket.close? further after).map fun cut =>
            { cut with before := token :: cut.before } := by
      simp [Bracket.close?, Bracket.opens, Bracket.closes, Bracket.isPunctuator, notPunctuator]
    rw [goesOn, goesOn, passes keyword (not_is_of_keyword isKeyword (by decide)),
      passes keyword.asIdentifier rfl]
    cases closed : Bracket.close? further after with
    | none => exact .inl ⟨rfl, rfl⟩
    | some cut =>
      refine .inr ⟨cut.before, cut.token, cut.after, ?_, rfl, rfl⟩
      exact ⟨cut.before ++ [cut.token], by simp [Bracket.eq_of_close? closed]⟩

/-- A clause that does not stop among some tokens takes the keyword after them for one of
its words: read as an identifier, it may be a default name. -/
theorem clauseAcross_of_property
    (isImport : keyword.text = "import")
    {tokens : List Token}
    (open' : ∀ clause, readClause tokens = .ok clause → clause.rest = [])
    (after : List Token) :
    ClauseAcross after (readClause (tokens ++ keyword :: after))
      (readClause (tokens ++ keyword.asIdentifier :: after)) := by
  have isText : keyword.asIdentifier.text = "import" := isImport
  have isName : keyword.isName := by simp [Token.isName, isKeyword]
  have isIdentifierName : keyword.asIdentifier.isName := rfl
  fun_induction readClause tokens with
  | case1 =>
    have notString : keyword.is .string = false := not_is_of_keyword isKeyword (by decide)
    have notIdentifier : keyword.is .identifier = false := not_is_of_keyword isKeyword (by decide)
    have isWord : keyword.asIdentifier.is .identifier := rfl
    have noPath : keyword.asIdentifier.is .string = false := rfl
    have passed : readClause (keyword :: after) = readClause after :=
      readClause_pass (by simp [notString]) (by simp [isImport]) (by simp [notIdentifier]) after
    have named : readClause (keyword.asIdentifier :: after) =
        (readClause after).map (·.cons [⟨"default", keyword.asIdentifier.text⟩]) :=
      readClause_named (by simp [noPath]) (by simp [isText]) (by simp [isText, isWord]) after
    rw [List.nil_append, List.nil_append, passed, named, isText]
    cases isClause : readClause after with
    | error fault => exact .fails fault
    | ok clause => exact .reads (.more [] clause.specifiers) (suffix_of_readClause isClause)
  | case2 token rest | case8 token rest => simpa using open' _ rfl
  | case3 token rest notString isBrace missing =>
    rw [List.cons_append, List.cons_append]
    rcases close?_property isKeyword 0 rest after with
      found | ⟨unclosed, unclosed'⟩ | ⟨between, closer, later, beyond, closed, closed'⟩
    · simp [missing] at found
    · rw [readClause_unclosed notString isBrace unclosed,
        readClause_unclosed notString isBrace unclosed']
      exact .fails _
    · rw [readClause_brace notString isBrace closed, readClause_brace notString isBrace closed',
        congr_of_plain specifiersOf_plain (plain_append isKeyword rest between)]
      exact ((clauseAcross_self later).beyond beyond).cons _
  | case4 token rest notString isBrace cut found inductionHypothesis =>
    rw [List.cons_append, List.cons_append,
      readClause_brace notString isBrace (Bracket.close?_append found _),
      readClause_brace notString isBrace (Bracket.close?_append found _)]
    exact (inductionHypothesis (rest_eq_nil_of_cons open')).cons _
  | case5 token notString _ isStar word name rest named inductionHypothesis =>
    simp only [List.cons_append, readClause_star notString isStar, if_pos named]
    exact (inductionHypothesis (rest_eq_nil_of_cons open')).cons _
  | case6 token notString _ isStar word name rest notNamed =>
    simp only [List.cons_append, readClause_star notString isStar, if_neg notNamed]
    exact .fails _
  | case7 token rest notString _ isStar short =>
    -- The keyword is one of the two words after the star, and either may be.
    rcases rest with _ | ⟨word, _ | ⟨name, rest⟩⟩
    · cases after with
      | nil =>
        simp only [List.cons_append, List.nil_append, readClause, notString, isStar, if_true,
          Bool.false_eq_true, if_false]
        exact .fails _
      | cons name later =>
        simp only [List.cons_append, List.nil_append, readClause_star notString isStar]
        split
        · have across := (clauseAcross_self later).cons [⟨"*", name.text⟩]
          exact across.beyond (List.suffix_cons name later)
        · exact .fails _
    · simp only [List.cons_append, List.nil_append, readClause_star notString isStar,
        if_pos isName, if_pos isIdentifierName, isImport, isText]
      exact (clauseAcross_self after).cons _
    · exact absurd rfl (short word name rest)
  | case9 token rest notString notBrace notStar notSemicolon named inductionHypothesis =>
    have notMark : token.text ∉ ["\x7b", "*", ";"] := by simp [notBrace, notStar, notSemicolon]
    rw [List.cons_append, List.cons_append, readClause_named notString notMark named,
      readClause_named notString notMark named]
    exact (inductionHypothesis (rest_eq_nil_of_cons open')).cons _
  | case10 token rest notString notBrace notStar notSemicolon noName inductionHypothesis =>
    have notMark : token.text ∉ ["\x7b", "*", ";"] := by simp [notBrace, notStar, notSemicolon]
    rw [List.cons_append, List.cons_append, readClause_pass notString notMark noName,
      readClause_pass notString notMark noName]
    exact inductionHypothesis open'

end Clauses

/-! ## Statements -/

/-- A declaration as it is, or with a default name `import` more. -/
def GainsName (own other : Declaration) : Prop :=
  ∃ specifiers, GainsImport own.specifiers specifiers ∧ other = { own with specifiers }

theorem GainsName.refl (declaration : Declaration) : GainsName declaration declaration :=
  ⟨declaration.specifiers, .same _, rfl⟩

/-- Two readings of an import statement that takes more than a number of tokens: both fail
alike, or the second may have a default name `import` more. -/
inductive StatementAcross (count : Nat) :
    Except Fault (Declaration × Nat) → Except Fault (Declaration × Nat) → Prop where
  | fails (fault : Fault) : StatementAcross count (.error fault) (.error fault)
  | reads {own other : Declaration} {length : Nat}
      (gains : GainsName own other)
      (covers : count < length) :
      StatementAcross count (.ok (own, length)) (.ok (other, length))

section Statements

variable
  {keyword : Token}
  (isKeyword : keyword.is .keyword)
  (isImport : keyword.text = "import")

include isKeyword isImport

/-- An import statement that goes beyond the keyword takes it for one of its words. -/
theorem statementAcross_of_property
    {tokens : List Token}
    (goesOn : ∀ clause, readClause tokens = .ok clause → clause.rest = [])
    (opening : Token)
    (after : List Token) :
    StatementAcross tokens.length (readImport opening (tokens ++ keyword :: after))
      (readImport opening (tokens ++ keyword.asIdentifier :: after)) := by
  have across := clauseAcross_of_property isKeyword isImport goesOn after
  generalize isFirst : readClause (tokens ++ keyword :: after) = first at across
  generalize isSecond : readClause (tokens ++ keyword.asIdentifier :: after) = second at across
  cases across with
  | fails fault =>
    rw [readImport_of_fault isFirst, readImport_of_fault isSecond]
    exact .fails fault
  | @reads own other rest gains beyond =>
    by_cases isPath : ∃ path more, rest = path :: more ∧ path.is .string
    · obtain ⟨path, more, rfl, isString⟩ := isPath
      rw [readImport_of_path isFirst isString, readImport_of_path isSecond isString]
      have sameLength : (tokens ++ keyword.asIdentifier :: after).length =
          (tokens ++ keyword :: after).length := by simp
      rw [sameLength]
      refine .reads ⟨other, gains, rfl⟩ ?_
      have bound := beyond.length_le
      have shorter := length_afterSemicolon_le more
      simp only [List.length_cons, List.length_append] at bound ⊢
      omega
    · have noPath : ∀ path ∈ rest.head?, ¬ path.is .string := by
        intro path isHead isString
        obtain ⟨more, isRest⟩ := List.head?_eq_some_iff.mp isHead
        exact isPath ⟨path, more, isRest, isString⟩
      rw [readImport_of_no_path isFirst noPath, readImport_of_no_path isSecond noPath]
      exact .fails _

/-- An import statement ends before the keyword, and is read without it, or it goes beyond
the keyword. -/
theorem readImport_property (opening : Token) (tokens after : List Token) :
    (∃ declaration length, length ≤ tokens.length ∧
      readImport opening tokens = .ok (declaration, length) ∧
      ∀ token ∈ [keyword, keyword.asIdentifier],
        readImport opening (tokens ++ token :: after) = .ok (declaration, length)) ∨
    (∃ fault, readImport opening tokens = .error fault) ∧
      StatementAcross tokens.length (readImport opening (tokens ++ keyword :: after))
        (readImport opening (tokens ++ keyword.asIdentifier :: after)) := by
  cases isClause : readClause tokens with
  | error fault =>
    exact .inr ⟨⟨fault, readImport_of_fault isClause⟩,
      statementAcross_of_property isKeyword isImport (by simp [isClause]) opening after⟩
  | ok clause =>
    obtain ⟨specifiers, rest⟩ := clause
    rcases rest with _ | ⟨path, more⟩
    · exact .inr ⟨⟨_, readImport_of_no_path isClause (by simp)⟩,
        statementAcross_of_property isKeyword isImport (by simp [isClause]) opening after⟩
    · have further (later : List Token) :
          readClause (tokens ++ later) = .ok ⟨specifiers, path :: (more ++ later)⟩ :=
        readClause_append isClause (by simp) later
      by_cases isString : path.is .string
      · refine .inl ⟨_, _, Nat.sub_le _ _, readImport_of_path isClause isString, ?_⟩
        intro token member
        have notSemicolon : token.text ≠ ";" := by
          simp only [List.mem_cons, List.not_mem_nil, or_false] at member
          rcases member with rfl | rfl <;> simp [asIdentifier, isImport]
        rw [readImport_of_path (further _) isString, closingStop_append notSemicolon,
          afterSemicolon_append notSemicolon]
        simp only [List.length_append, Nat.add_sub_add_right]
      · have noPath : ∀ more : List Token, ∀ own ∈ (path :: more).head?, ¬ own.is .string := by
          simpa using isString
        refine .inr ⟨⟨_, readImport_of_no_path isClause (noPath _)⟩, ?_⟩
        rw [readImport_of_no_path (further _) (noPath _),
          readImport_of_no_path (further _) (noPath _)]
        exact .fails _

end Statements

/-! ## All declarations -/

/-- Two readings of declarations: both fail alike, or they are the same but for a default
name `import` that a statement of the second may have more. -/
inductive Across : Except Fault (List Declaration) → Except Fault (List Declaration) → Prop where
  | fails (fault : Fault) : Across (.error fault) (.error fault)
  | reads {own other : List Declaration} (gains : List.Forall₂ GainsName own other) :
      Across (.ok own) (.ok other)

theorem Across.append
    {first second : Except Fault (List Declaration)}
    (across : Across first second)
    (front : List Declaration) :
    Across (first.map (front ++ ·)) (second.map (front ++ ·)) := by
  cases across with
  | fails fault => exact .fails fault
  | reads gains => exact .reads (List.rel_append (List.forall₂_same.mpr fun own _ => .refl own) gains)

/-- The search for declarations comes to a keyword, with the tokens before it read on their
own; or it fails among them, and a statement goes beyond the keyword. -/
def ComesOrCrosses (keyword : Token) (front after before : List Token) (skip : Nat)
    (tokens : List Token) : Prop :=
  (∃ earlier found, readFrom before skip tokens = .ok earlier ∧
    ∀ token ∈ [keyword, keyword.asIdentifier],
      readFrom before skip (tokens ++ token :: after) =
        (readFrom front 0 (token :: after)).map (found ++ ·)) ∨
  (∃ fault, readFrom before skip tokens = .error fault) ∧
    Across (readFrom before skip (tokens ++ keyword :: after))
      (readFrom before skip (tokens ++ keyword.asIdentifier :: after))

section Steps

variable
  {keyword token : Token}
  {front after before rest : List Token}

private theorem ComesOrCrosses.after_statement
    {declaration : Declaration}
    {length : Nat}
    (begins : (token.is .keyword && token.text = "import" && followsImport rest) = true)
    (isRead : readImport token rest = .ok (declaration, length))
    (beginsOn : ∀ own ∈ [keyword, keyword.asIdentifier],
      (token.is .keyword && token.text = "import" && followsImport (rest ++ own :: after)) = true)
    (isReadOn : ∀ own ∈ [keyword, keyword.asIdentifier],
      readImport token (rest ++ own :: after) = .ok (declaration, length))
    (later : ComesOrCrosses keyword front after (token :: before) length rest) :
    ComesOrCrosses keyword front after before 0 (token :: rest) := by
  have goesOn : ∀ own ∈ [keyword, keyword.asIdentifier],
      readFrom before 0 (token :: rest ++ own :: after) =
        (readFrom (token :: before) length (rest ++ own :: after)).map (declaration :: ·) :=
    fun own member => readFrom_statement (beginsOn own member) (isReadOn own member) before
  rcases later with ⟨earlier, found, isEarlier, laterOn⟩ | ⟨⟨fault, failed⟩, across⟩
  · refine .inl ⟨declaration :: earlier, declaration :: found, ?_, fun own member => ?_⟩
    · rw [readFrom_statement begins isRead, isEarlier]
      rfl
    · rw [goesOn own member, laterOn own member]
      cases readFrom front 0 (own :: after) <;> rfl
  · refine .inr ⟨⟨fault, ?_⟩, ?_⟩
    · rw [readFrom_statement begins isRead, failed]
      rfl
    · rw [goesOn keyword (by simp), goesOn keyword.asIdentifier (by simp)]
      exact across.append [declaration]

private theorem ComesOrCrosses.after_other
    (passes : (token.is .keyword && token.text = "import" && followsImport rest) = false)
    (passesOn : ∀ own ∈ [keyword, keyword.asIdentifier],
      (token.is .keyword && token.text = "import" && followsImport (rest ++ own :: after)) = false)
    (sameRequire : readRequire? before (rest ++ keyword :: after) =
      readRequire? before (rest ++ keyword.asIdentifier :: after))
    (later : ComesOrCrosses keyword front after (token :: before) 0 rest) :
    ComesOrCrosses keyword front after before 0 (token :: rest) := by
  let declared : List Declaration :=
    if token.is .identifier && token.text = "require" then
      (readRequire? before (rest ++ keyword :: after)).toList
    else []
  have goesOn : ∀ own ∈ [keyword, keyword.asIdentifier],
      readFrom before 0 (token :: rest ++ own :: after) =
        (readFrom (token :: before) 0 (rest ++ own :: after)).map (declared ++ ·) := by
    intro own member
    rw [List.cons_append, readFrom_other (passesOn own member)]
    simp only [List.mem_cons, List.not_mem_nil, or_false] at member
    rcases member with rfl | rfl
    · rfl
    · rw [← sameRequire]
  rcases later with ⟨earlier, found, isEarlier, laterOn⟩ | ⟨⟨fault, failed⟩, across⟩
  · refine .inl ⟨_, declared ++ found, by rw [readFrom_other passes, isEarlier]; rfl, ?_⟩
    intro own member
    rw [goesOn own member, laterOn own member]
    cases readFrom front 0 (own :: after) <;> simp [Except.map]
  · refine .inr ⟨⟨fault, ?_⟩, ?_⟩
    · rw [readFrom_other passes, failed]
      rfl
    · rw [goesOn keyword (by simp), goesOn keyword.asIdentifier (by simp)]
      exact across.append declared

end Steps

section Declarations

variable
  {keyword mark : Token}
  (isKeyword : keyword.is .keyword)
  (isImport : keyword.text = "import")
  (isMark : mark.text ∈ propertyMarks)

include isKeyword isImport isMark

private theorem across_of_statement
    {token : Token}
    {before rest further after : List Token}
    (front : rest.reverse ++ token :: before = mark :: further)
    (beginsOn : ∀ own ∈ [keyword, keyword.asIdentifier],
      (token.is .keyword && token.text = "import" && followsImport (rest ++ own :: after)) = true)
    (across : StatementAcross rest.length (readImport token (rest ++ keyword :: after))
      (readImport token (rest ++ keyword.asIdentifier :: after))) :
    Across (readFrom before 0 (token :: rest ++ keyword :: after))
      (readFrom before 0 (token :: rest ++ keyword.asIdentifier :: after)) := by
  have first := beginsOn keyword (by simp)
  have second := beginsOn keyword.asIdentifier (by simp)
  rw [List.cons_append, List.cons_append]
  generalize isFirst : readImport token (rest ++ keyword :: after) = one at across
  generalize isSecond : readImport token (rest ++ keyword.asIdentifier :: after) = two at across
  cases across with
  | fails fault =>
    rw [readFrom_of_fault first isFirst, readFrom_of_fault second isSecond]
    exact .fails fault
  | @reads own other length gains covers =>
    obtain ⟨more, rfl⟩ := Nat.exists_eq_add_of_lt covers
    have same := readFrom_property isKeyword isImport isMark [] further more after
    rw [readFrom_statement first isFirst, readFrom_statement second isSecond, Nat.add_assoc,
      readFrom_beyond, readFrom_beyond, front, readFrom, readFrom]
    simp only [List.nil_append] at same
    rw [same]
    cases readFrom (keyword.asIdentifier :: mark :: further) more after with
    | error fault => exact .fails fault
    | ok others => exact .reads (.cons gains (List.forall₂_same.mpr fun own _ => .refl own))

omit isKeyword isImport in
/-- Whether an import statement begins before the keyword does not depend on what follows
the mark. -/
theorem begins_of_property
    {token : Token}
    {before rest further : List Token}
    (front : rest.reverse ++ token :: before = mark :: further)
    (own : Token)
    (after : List Token) :
    (token.is .keyword && token.text = "import" && followsImport (rest ++ own :: after)) =
      (token.is .keyword && token.text = "import" && followsImport rest) := by
  cases rest with
  | nil =>
    obtain rfl : token = mark := by simpa using (List.cons.inj front).1
    have notImport : token.text ≠ "import" := by
      intro isText
      rw [isText] at isMark
      exact absurd isMark (by decide)
    simp [notImport]
  | cons next rest => rfl

/-- Where the tokens before the keyword can be read on their own, the search comes to the
keyword; otherwise a statement among them goes beyond it. -/
theorem comesOrCrosses
    {tokens before further : List Token}
    {skip : Nat}
    (fits : skip ≤ tokens.length)
    (front : tokens.reverse ++ before = mark :: further)
    (after : List Token) :
    ComesOrCrosses keyword (mark :: further) after before skip tokens := by
  induction tokens generalizing before skip with
  | nil =>
    obtain rfl : skip = 0 := Nat.le_zero.mp fits
    obtain rfl : before = mark :: further := front
    refine .inl ⟨[], [], rfl, fun token _ => ?_⟩
    cases isRead : readFrom (mark :: further) 0 (token :: after) <;> simp [isRead, Except.map]
  | cons token rest inductionHypothesis =>
    have later : rest.reverse ++ token :: before = mark :: further := by simpa using front
    cases skip with
    | succ skip => exact inductionHypothesis (by simpa using fits) later
    | zero =>
      have sameBegins (own : Token) := begins_of_property isMark later own after
      cases begins : token.is .keyword && token.text = "import" && followsImport rest with
      | true =>
        have beginsOn : ∀ own ∈ [keyword, keyword.asIdentifier], _ = true :=
          fun own _ => (sameBegins own).trans begins
        rcases readImport_property isKeyword isImport token rest after with
          ⟨declaration, length, bound, isRead, isReadOn⟩ | ⟨⟨fault, failed⟩, across⟩
        · exact (inductionHypothesis bound later).after_statement begins isRead beginsOn isReadOn
        · exact .inr ⟨⟨fault, readFrom_of_fault begins failed before⟩,
            across_of_statement isKeyword isImport isMark later beginsOn across⟩
      | false =>
        have indifferent (tokens : List Token) :
            readRequire? before (tokens.map plain) = readRequire? before tokens := by
          simp only [readRequire?, required?_plain]
        exact (inductionHypothesis (Nat.zero_le _) later).after_other begins
          (fun own _ => (sameBegins own).trans begins)
          (congr_of_plain indifferent (plain_append isKeyword rest after))

end Declarations

/-- Two lists whose members correspond, with the same keys, correspond when they are
sorted. -/
theorem forall₂_mergeSort
    {relation : Declaration → Declaration → Prop}
    (sameStart : ∀ own other, relation own other → own.start = other.start)
    {owns others : List Declaration}
    (related : List.Forall₂ relation owns others) :
    List.Forall₂ relation
      (owns.mergeSort fun left right => left.start ≤ right.start)
      (others.mergeSort fun left right => left.start ≤ right.start) := by
  have byPairs : ∃ pairs : List (Declaration × Declaration),
      pairs.map Prod.fst = owns ∧ pairs.map Prod.snd = others ∧
        ∀ pair ∈ pairs, relation pair.1 pair.2 := by
    induction related with
    | nil => exact ⟨[], rfl, rfl, by simp⟩
    | @cons own other owns others isRelated _ inductionHypothesis =>
      obtain ⟨pairs, rfl, rfl, areRelated⟩ := inductionHypothesis
      exact ⟨(own, other) :: pairs, rfl, rfl, List.forall_mem_cons.mpr ⟨isRelated, areRelated⟩⟩
  obtain ⟨pairs, rfl, rfl, areRelated⟩ := byPairs
  let earlier (left right : Declaration × Declaration) : Bool := left.1.start ≤ right.1.start
  rw [← List.map_mergeSort (r := earlier) (f := Prod.fst) fun _ _ _ _ => rfl,
    ← List.map_mergeSort (r := earlier) (f := Prod.snd) fun left isLeft right isRight => by
      simp only [earlier, sameStart _ _ (areRelated left isLeft),
        sameStart _ _ (areRelated right isRight)],
    List.forall₂_map_left_iff, List.forall₂_map_right_iff, List.forall₂_same]
  exact fun pair member => areRelated pair (List.mem_mergeSort.mp member)

theorem Across.readAll
    {tokens others : List Token}
    (across : Across (readFrom [] 0 tokens) (readFrom [] 0 others)) :
    Across (Declaration.readAll tokens) (Declaration.readAll others) := by
  simp only [Declaration.readAll]
  generalize readFrom [] 0 tokens = first at across
  generalize readFrom [] 0 others = second at across
  cases across with
  | fails fault => exact .fails fault
  | reads gains =>
    refine .reads (forall₂_mergeSort ?_ gains)
    rintro own other ⟨specifiers, -, rfl⟩
    rfl

/-- A search comes to the name, with some declarations found before it: it goes on alike
from the keyword and from an identifier in its place. -/
structure Reaches (before : List Token) (keyword : Token) (after : List Token)
    (mark : Token) (further : List Token) (found : List Declaration) : Prop where
  isMark : mark.text ∈ propertyMarks
  goesOn : ∀ token ∈ [keyword, keyword.asIdentifier],
    readFrom [] 0 (before ++ token :: after) =
      (readFrom (mark :: further) 0 (token :: after)).map (found ++ ·)

section Reached

variable
  {before after : List Token}
  {keyword : Token}

/-- The search comes to the name exactly if the tokens before it can be read on their
own. -/
theorem PropertyImport.reaches_or_across (property : PropertyImport before keyword after) :
    (∃ earlier mark further found, readAll before = .ok earlier ∧
      Reaches before keyword after mark further found) ∨
    (∃ fault, readAll before = .error fault) ∧
      Across (readAll (before ++ keyword :: after))
        (readAll (before ++ keyword.asIdentifier :: after)) := by
  obtain ⟨mark, further, isBefore, isMark⟩ := property.exists_mark
  rcases comesOrCrosses property.isKeyword property.isImport isMark (Nat.zero_le _)
      ((List.append_nil _).trans isBefore) after with
    ⟨earlier, found, isEarlier, goesOn⟩ | ⟨⟨fault, failed⟩, across⟩
  · exact .inl ⟨_, mark, further, found, by rw [readAll, isEarlier]; rfl, isMark, goesOn⟩
  · exact .inr ⟨⟨fault, by rw [readAll, failed]; rfl⟩, across.readAll⟩

variable
  {mark : Token}
  {further : List Token}
  {found : List Declaration}
  (property : PropertyImport before keyword after)
  (reaches : Reaches before keyword after mark further found)

include property reaches

private theorem Reaches.readAll_of_not_followed (notFollowed : followsImport after = false) :
    readAll (before ++ keyword :: after) = readAll (before ++ keyword.asIdentifier :: after) := by
  have first := reaches.goesOn keyword (by simp)
  have second := reaches.goesOn keyword.asIdentifier (by simp)
  have notIdentifier : keyword.is .identifier = false :=
    not_is_of_keyword property.isKeyword (by decide)
  have notRequire : keyword.asIdentifier.text ≠ "require" := by
    simp [asIdentifier, property.isImport]
  have later := readFrom_property property.isKeyword property.isImport reaches.isMark [] further 0
    after
  simp only [List.nil_append] at later
  rw [readAll, readAll, first, second, readFrom_other (by simp [notFollowed]),
    readFrom_other (by simp [notFollowed]), later]
  simp [notIdentifier, notRequire]

/-- Where it begins a statement that cannot be read, the search fails. -/
theorem Reaches.readAll_of_fault
    {fault : Fault}
    (isFollowed : followsImport after)
    (failed : readImport keyword after = .error fault) :
    readAll (before ++ keyword :: after) = .error fault := by
  have begins : (keyword.is .keyword && keyword.text = "import" && followsImport after) = true := by
    simp [property.isKeyword, property.isImport, isFollowed]
  rw [readAll, reaches.goesOn keyword (by simp), readFrom_of_fault begins failed]
  rfl

private theorem Reaches.exists_declaration
    {declarations : List Declaration}
    (isFollowed : followsImport after)
    (isRead : readAll (before ++ keyword :: after) = .ok declarations) :
    ∃ own ∈ declarations, own.mechanism = .module ∧ own.start = keyword.start := by
  cases isStatement : readImport keyword after with
  | error fault => simp [reaches.readAll_of_fault property isFollowed isStatement] at isRead
  | ok result =>
    obtain ⟨declaration, length⟩ := result
    have begins : (keyword.is .keyword && keyword.text = "import" && followsImport after) = true := by
      simp [property.isKeyword, property.isImport, isFollowed]
    obtain ⟨all, isAll, isSorted⟩ := exists_of_bind_ok isRead
    obtain rfl := Except.ok.inj isSorted
    rw [reaches.goesOn keyword (by simp), readFrom_statement begins isStatement] at isAll
    obtain ⟨later, isLater, rfl⟩ := exists_of_map_ok isAll
    obtain ⟨others, -, rfl⟩ := exists_of_map_ok isLater
    obtain ⟨covered, rest, -, -, statement⟩ :=
      statement_of_readImport property.isKeyword isStatement
    exact ⟨declaration, List.mem_mergeSort.mpr (by simp), statement.isModule, statement.begins⟩

end Reached

/-- With an identifier in place of the name, every import statement begins with another
keyword. -/
theorem exists_other_keyword
    {before after : List Token}
    {keyword : Token}
    {declarations : List Declaration}
    (isRead : readAll (before ++ keyword.asIdentifier :: after) = .ok declarations)
    {own : Declaration}
    (member : own ∈ declarations)
    (isModule : own.mechanism = .module) :
    ∃ other ∈ before ++ after, other.is .keyword ∧ own.start = other.start := by
  obtain ⟨opening, isOpening, isKeyword, begins⟩ := exists_keyword_of_readAll isRead member isModule
  refine ⟨opening, ?_, isKeyword, begins⟩
  rcases List.mem_append.mp isOpening with inBefore | inAfter
  · exact List.mem_append_left _ inBefore
  · rcases List.mem_cons.mp inAfter with rfl | inAfter
    · exact nomatch isKeyword
    · exact List.mem_append_right _ inAfter

/-- An `import` that names a property is passed over like an identifier only where nothing,
a parenthesis or a point follows it.  Any other one is read as the keyword of a statement:
the search fails with it, or finds a declaration that begins with it, which it does not
find where the name is an identifier.  That holds where the tokens before can be read on
their own; where they end inside a statement, the name is one of the statement's words,
which an identifier could be for a default import, too. -/
theorem property_import_is_read_as_statement
    {before after : List Token}
    {keyword : Token}
    (property : PropertyImport before keyword after) :
    (∀ earlier, readAll before = .ok earlier →
      (followsImport after = false →
        readAll (before ++ keyword :: after) = readAll (before ++ keyword.asIdentifier :: after)) ∧
      (followsImport after →
        (∀ fault, readImport keyword after = .error fault →
          readAll (before ++ keyword :: after) = .error fault) ∧
        (∀ declarations, readAll (before ++ keyword :: after) = .ok declarations →
          ∃ own ∈ declarations, own.mechanism = .module ∧ own.start = keyword.start) ∧
        ∀ declarations, readAll (before ++ keyword.asIdentifier :: after) = .ok declarations →
          ∀ own ∈ declarations, own.mechanism = .module →
            ∃ other ∈ before ++ after, other.is .keyword ∧ own.start = other.start)) ∧
    (∀ fault, readAll before = .error fault →
      Across (readAll (before ++ keyword :: after))
        (readAll (before ++ keyword.asIdentifier :: after))) := by
  rcases property.reaches_or_across with
    ⟨earlier, mark, further, found, isEarlier, reaches⟩ | ⟨⟨fault, failed⟩, across⟩
  · refine ⟨fun _ _ => ⟨fun notFollowed => ?_, fun isFollowed => ⟨?_, ?_, ?_⟩⟩, fun fault failed => ?_⟩
    · exact reaches.readAll_of_not_followed property notFollowed
    · exact fun fault => reaches.readAll_of_fault property isFollowed
    · exact fun declarations => reaches.exists_declaration property isFollowed
    · exact fun declarations isRead own => exists_other_keyword isRead
    · simp [isEarlier] at failed
  · refine ⟨fun earlier isEarlier => ?_, fun _ _ => across⟩
    simp [failed] at isEarlier

/-- The tokens of `x.import;` before the `import`. -/
def beforeProperty : List Token :=
  [⟨"x", 0, ⟨1, 1⟩, .atom .identifier⟩, ⟨".", 1, ⟨1, 2⟩, .atom .punctuator⟩]

/-- The `import` of `x.import;`. -/
def propertyKeyword : Token :=
  ⟨"import", 2, ⟨1, 3⟩, .atom .keyword⟩

/-- The tokens of `x.import;` after the `import`. -/
def afterProperty : List Token :=
  [⟨";", 8, ⟨1, 9⟩, .atom .punctuator⟩]

/-- The tokens of `x.import;` have no declaration to be read, since the `import` begins
one; an identifier in its place begins none. -/
theorem property_import_before_semicolon :
    Token.readAll "x.import;" = .ok (beforeProperty ++ propertyKeyword :: afterProperty) ∧
    PropertyImport beforeProperty propertyKeyword afterProperty ∧
    readAll (beforeProperty ++ propertyKeyword :: afterProperty) =
      .error (.problem .pathMissing 2) ∧
    readAll (beforeProperty ++ propertyKeyword.asIdentifier :: afterProperty) = .ok [] := by
  have property : PropertyImport beforeProperty propertyKeyword afterProperty :=
    ⟨rfl, rfl, by decide⟩
  have isRead : readAll beforeProperty = .ok [] := by
    simp [readAll, readFrom, beforeProperty, Token.is]
  have followed := ((property_import_is_read_as_statement property).1 [] isRead).2 rfl
  have isClause : readClause afterProperty = .ok ⟨[], afterProperty⟩ := by
    simp [readClause, afterProperty, Token.is]
  have failed : readImport propertyKeyword afterProperty = .error (.problem .pathMissing 2) :=
    readImport_of_no_path isClause (by simp [afterProperty, Token.is])
  refine ⟨by with_unfolding_all rfl, property, followed.1 _ failed, ?_⟩
  simp [readAll, readFrom, beforeProperty, propertyKeyword, afterProperty, asIdentifier, Token.is]

end Declaration

end Restyle
