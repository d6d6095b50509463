import Mathlib.Data.List.Induction
import Restyle.Proofs.Declaration.Reading
import Restyle.Proofs.Output.Elements

/-!
Contract: the forms in which names are listed and imported.

Owns: the tokens that declarations are made of, by kind and spelling; `Names`,
lists of names between braces; `ImportClause`, what stands between the keyword of
an import statement and its path; and what each of them is read as.

Names are identifiers, so no bracket stands between the braces of a list.
-/

namespace Restyle.Declaration

open Restyle.Bracket
open Output (isName letters_of_isName)

/-! ## Marks and names -/

def IsMark (text : String) (token : Token) : Prop :=
  (token.is .punctuator ∨ token.is .operator) ∧ token.text = text

def IsBracket (text : String) (token : Token) : Prop :=
  token.is .punctuator ∧ token.text = text

def IsWord (text : String) (token : Token) : Prop :=
  token.is .identifier ∧ token.text = text

/-- An identifier that may be a name: any but the word that joins two names. -/
structure IsPlainName (token : Token) : Prop where
  isIdentifier : token.is .identifier
  isSpelled : isName token.text
  notJoin : token.text ≠ "as"

/-- A string in quotes, with the text between them. -/
structure IsPath (token : Token) (path : String) : Prop where
  isString : token.is .string
  isQuoted : ∃ quote, isQuote quote ∧
    token.text = String.singleton quote ++ path ++ String.singleton quote

/-- What may end a statement: nothing, or a semicolon. -/
inductive Ending : List Token → Prop where
  | none : Ending []
  | semicolon {mark : Token} (isMark : IsMark ";" mark) : Ending [mark]

/-! ## Lists of names -/

/-- What stands between the two names of an entry: a word in import statements, a
colon in patterns. -/
def Joins : Mechanism → Token → Prop
  | .module => IsWord "as"
  | .dynamic => IsMark ":"

/-- An entry of a list of names. -/
inductive Entry (mechanism : Mechanism) : List Token → Specifier → Prop where
  | plain {name : Token} (isPlain : IsPlainName name) :
      Entry mechanism [name] ⟨name.text, name.text⟩
  | renamed {imported joint localName : Token}
      (isImported : IsPlainName imported)
      (joins : Joins mechanism joint)
      (isLocal : IsPlainName localName) :
      Entry mechanism [imported, joint, localName] ⟨imported.text, localName.text⟩

/-- The entries between braces, separated by commas; one may stand after the last. -/
inductive Names (mechanism : Mechanism) : List Token → List Specifier → Prop where
  | nil : Names mechanism [] []
  | last {entry : List Token} {specifier : Specifier}
      (isEntry : Entry mechanism entry specifier) :
      Names mechanism entry [specifier]
  | cons {entry others : List Token} {comma : Token} {specifier : Specifier}
      {specifiers : List Specifier}
      (isEntry : Entry mechanism entry specifier)
      (isComma : IsMark "," comma)
      (later : Names mechanism others specifiers) :
      Names mechanism (entry ++ comma :: others) (specifier :: specifiers)

def isFlat (token : Token) : Bool :=
  !opens token && !closes token

/-- A token of a kind is of no other kind. -/
theorem not_is_of_is {token : Token} {kind other : Token.Kind} (isKind : token.is kind)
    (differs : kind ≠ other) : token.is other = false :=
  Bool.eq_false_iff.mpr fun isOther => differs (Use.kind_unique isKind isOther)

private theorem IsMark.isFlat {text : String} {token : Token} (isMark : IsMark text token)
    (notBracket : text ∉ ["(", "[", "\x7b", ")", "]", "\x7d"]) : isFlat token := by
  simp only [List.mem_cons, List.not_mem_nil, or_false, not_or] at notBracket
  simp [Declaration.isFlat, opens, closes, isPunctuator, isMark.2, notBracket]

private theorem isFlat_of_identifier {token : Token} (isIdentifier : token.is .identifier) :
    isFlat token := by
  simp [isFlat, opens, closes, isPunctuator, not_is_of_is isIdentifier]

private theorem Joins.isFlat
    {mechanism : Mechanism}
    {joint : Token}
    (joins : Joins mechanism joint) :
    isFlat joint := by
  cases mechanism with
  | module => exact isFlat_of_identifier joins.1
  | dynamic => exact IsMark.isFlat joins (by decide)

private theorem close?_of_flat {tokens : List Token} (areFlat : ∀ token ∈ tokens, isFlat token)
    {closer : Token} (isCloser : closes closer) (after : List Token) :
    close? 0 (tokens ++ closer :: after) = some ⟨tokens, closer, after⟩ := by
  induction tokens with
  | nil => simp [close?, not_opens_of_closes isCloser, isCloser]
  | cons token tokens inductionHypothesis =>
    obtain ⟨isOwn, areOthers⟩ := List.forall_mem_cons.mp areFlat
    simp only [isFlat, Bool.and_eq_true, Bool.not_eq_true'] at isOwn
    simp [close?, isOwn, inductionHypothesis areOthers]

/-- The brace that a closing one belongs to is found before flat tokens. -/
theorem openingBrace?_of_flat {tokens : List Token} (areFlat : ∀ token ∈ tokens, isFlat token)
    {opener : Token} (isOpener : IsBracket "\x7b" opener) (between before : List Token) :
    openingBrace? 0 between (tokens.reverse ++ opener :: before) =
      some ⟨before, opener, tokens ++ between⟩ := by
  induction tokens using List.reverseRecOn generalizing between with
  | nil => simp [openingBrace?, isPunctuator, isOpener.1, isOpener.2]
  | append_singleton tokens token inductionHypothesis =>
    have isOwn : isFlat token := areFlat token (by simp)
    have noBrace : isPunctuator ["\x7d"] token = false ∧ isPunctuator ["\x7b"] token = false := by
      simp [isFlat, opens, closes, isPunctuator] at isOwn ⊢
      constructor
      · intro isKind
        simp_all
      · intro isKind
        simp_all
    rw [List.reverse_concat, List.cons_append, openingBrace?, if_neg (by simp [noBrace.1]),
      if_neg (by simp [noBrace.2]),
      inductionHypothesis (fun other member => areFlat other (by simp [member]))]
    simp

/-- What holds of names, of the tokens that join them and of commas holds of the
tokens of a list of names. -/
theorem Names.forall_mem
    {mechanism : Mechanism}
    {tokens : List Token}
    {specifiers : List Specifier}
    {holds : Token → Prop}
    (areNames : Names mechanism tokens specifiers)
    (ofName : ∀ token, IsPlainName token → holds token)
    (ofJoint : ∀ token, Joins mechanism token → holds token)
    (ofComma : ∀ token, IsMark "," token → holds token) :
    ∀ token ∈ tokens, holds token := by
  have ofEntry : ∀ {entry : List Token} {specifier : Specifier}, Entry mechanism entry specifier →
      ∀ token ∈ entry, holds token := by
    intro entry specifier isEntry
    cases isEntry with
    | plain isPlain => simpa using ofName _ isPlain
    | renamed isImported joins isLocal =>
      simpa using ⟨ofName _ isImported, ofJoint _ joins, ofName _ isLocal⟩
  induction areNames with
  | nil => simp
  | last isEntry => exact ofEntry isEntry
  | cons isEntry isComma _ inductionHypothesis =>
    exact List.forall_mem_append.mpr ⟨ofEntry isEntry,
      List.forall_mem_cons.mpr ⟨ofComma _ isComma, inductionHypothesis⟩⟩

theorem Names.areFlat {mechanism : Mechanism} {tokens : List Token} {specifiers : List Specifier}
    (areNames : Names mechanism tokens specifiers) : ∀ token ∈ tokens, isFlat token :=
  areNames.forall_mem (fun _ isPlain => isFlat_of_identifier isPlain.isIdentifier)
    (fun _ joins => joins.isFlat) (fun _ isComma => isComma.isFlat (by decide))

/-! ## What lists of names are read as -/

/-- A word made of characters that may continue a name has no quotes around it. -/
theorem trim_of_parts {word : String} (parts : ∀ c ∈ word.toList, Text.isIdentifierPart c) :
    Text.trim isQuote word = word := by
  have quotes : ∀ c ∈ ['\'', '"'], Text.isIdentifierPart c = false :=
    List.all_iff_forall_prop.mp (by decide)
  have unquoted : ∀ c ∈ word.toList, isQuote c = false := by
    intro c member
    have isPart := parts c member
    rw [isQuote, Bool.or_eq_false_iff, decide_eq_false_iff_not, decide_eq_false_iff_not]
    constructor
    · rintro rfl
      simp [quotes '\'' (by simp)] at isPart
    · rintro rfl
      simp [quotes '"' (by simp)] at isPart
  exact Text.trim_eq_self unquoted

theorem parts_of_isName {name : String} (named : isName name) :
    ∀ c ∈ name.toList, Text.isIdentifierPart c := by
  obtain ⟨first, body, isText, starts, parts⟩ := letters_of_isName named
  rw [isText]
  exact List.forall_mem_cons.mpr ⟨Lexeme.isIdentifierPart_of_isIdentifierStart starts, parts⟩

/-- A name has no quotes around it. -/
theorem trim_of_isName {name : String} (named : isName name) : Text.trim isQuote name = name :=
  trim_of_parts (parts_of_isName named)

private theorem ne_of_isName
    {name mark : String}
    (named : isName name)
    (notNamed : isName mark = false) :
    name ≠ mark := by
  rintro rfl
  simp [named] at notNamed

theorem IsPlainName.ne {token : Token} {mark : String} (isPlain : IsPlainName token)
    (notNamed : isName mark = false) : token.text ≠ mark :=
  ne_of_isName isPlain.isSpelled notNamed

/-- The token between two names is none. -/
theorem Joins.noName {mechanism : Mechanism} {joint : Token} (joins : Joins mechanism joint) :
    ((joint.isName || joint.is .string) && joint.text ≠ "as") = false := by
  cases mechanism with
  | module => simp [joins.2]
  | dynamic =>
    rcases joins.1 with isKind | isKind <;>
      simp [Token.isName, not_is_of_is isKind]

private theorem Joins.ne_comma
    {mechanism : Mechanism}
    {joint : Token}
    (joins : Joins mechanism joint) :
    joint.text ≠ "," := by
  cases mechanism with
  | module => simp [joins.2]
  | dynamic => simp [joins.2]

private theorem Entry.specifier?_eq
    {mechanism : Mechanism}
    {entry : List Token}
    {specifier : Specifier}
    (isEntry : Entry mechanism entry specifier) : specifier? entry = some specifier := by
  cases isEntry with
  | @plain name isPlain =>
    simp [specifier?, Token.isName, isPlain.isIdentifier, isPlain.notJoin,
      trim_of_isName isPlain.isSpelled]
  | @renamed imported joint localName isImported joins isLocal =>
    have noName := joins.noName
    simp only [specifier?, List.filter_cons, List.filter_nil, noName]
    simp [Token.isName, isImported.isIdentifier, isImported.notJoin, isLocal.isIdentifier,
      isLocal.notJoin, trim_of_isName isImported.isSpelled]

theorem Entry.uncut {mechanism : Mechanism} {entry : List Token} {specifier : Specifier}
    (isEntry : Entry mechanism entry specifier) :
    ∀ token ∈ entry, decide (token.text = ",") = false := by
  have notComma : isName "," = false := by decide
  cases isEntry with
  | plain isPlain => simp [isPlain.ne notComma]
  | renamed isImported joins isLocal =>
    simp [isImported.ne notComma, joins.ne_comma, isLocal.ne notComma]

/-- A list of names is read as its entries. -/
theorem Names.specifiersOf_eq {mechanism : Mechanism} {tokens : List Token}
    {specifiers : List Specifier} (areNames : Names mechanism tokens specifiers) :
    specifiersOf tokens = specifiers := by
  induction areNames with
  | nil => rfl
  | last isEntry =>
    rw [specifiersOf, splitWhere_uncut isEntry.uncut, List.filterMap_cons_some isEntry.specifier?_eq,
      List.filterMap_nil]
  | cons isEntry isComma _ inductionHypothesis =>
    rw [specifiersOf] at inductionHypothesis
    rw [specifiersOf, splitWhere_append isEntry.uncut (by simp [isComma.2]),
      List.filterMap_cons_some isEntry.specifier?_eq, inductionHypothesis]

/-! ## Words, paths and endings -/

/-- Whether a token is no word. -/
def isUnnamed (token : Token) : Bool :=
  !token.is .keyword && !token.is .identifier

theorem IsMark.isUnnamed {text : String} {token : Token} (isMark : IsMark text token) :
    isUnnamed token := by
  rcases isMark.1 with isKind | isKind <;>
    simp [Declaration.isUnnamed, not_is_of_is isKind]

theorem IsBracket.isMark {text : String} {token : Token} (isBracket : IsBracket text token) :
    IsMark text token :=
  ⟨.inl isBracket.1, isBracket.2⟩

theorem IsPath.isUnnamed {token : Token} {path : String} (isPath : IsPath token path) :
    isUnnamed token := by
  simp [Declaration.isUnnamed, not_is_of_is isPath.isString]

theorem Ending.areUnnamed {ending : List Token} (ends : Ending ending) :
    ∀ token ∈ ending, isUnnamed token := by
  cases ends with
  | none => simp
  | semicolon isMark => simpa using isMark.isUnnamed

theorem IsPath.unquote_eq {token : Token} {path : String} (isPath : IsPath token path) :
    Text.unquote token.text = path := by
  obtain ⟨quote, -, isText⟩ := isPath.isQuoted
  simp [Text.unquote, isText]

theorem IsPath.ne {token : Token} {path mark : String} (isPath : IsPath token path)
    (unquoted : ∀ c ∈ mark.toList, isQuote c = false) : token.text ≠ mark := by
  obtain ⟨quote, isQuoted, isText⟩ := isPath.isQuoted
  rintro rfl
  have isPlain := unquoted quote (by simp [isText])
  simp [isPlain] at isQuoted

/-- A declaration ends with its last token or the semicolon of its ending. -/
theorem Ending.closingStop_eq {ending rest : List Token} (ends : Ending ending)
    (apart : ∀ next ∈ rest.head?, next.text ≠ ";") (last : Token) :
    closingStop last (ending ++ rest) = (ending.getLastD last).stop := by
  cases ends with
  | none =>
    cases rest with
    | nil => rfl
    | cons next more => simp [closingStop, apart next rfl]
  | semicolon isMark => simp [closingStop, isMark.2]

theorem Ending.any_semicolon {ending rest : List Token} (ends : Ending ending)
    (apart : ∀ next ∈ rest.head?, next.text ≠ ";") :
    (if (ending ++ rest).head?.any (·.text = ";") then 1 else 0) = ending.length := by
  cases ends with
  | none =>
    cases rest with
    | nil => rfl
    | cons next more => simp [apart next rfl]
  | semicolon isMark => simp [isMark.2]

/-! ## Import statements -/

/-- What an import statement takes from a module besides its default export: the
module as a whole, or names. -/
inductive Taken : List Token → List Specifier → Prop where
  | whole {star joint name : Token}
      (isStar : IsMark "*" star)
      (joins : IsWord "as" joint)
      (isPlain : IsPlainName name) :
      Taken [star, joint, name] [⟨"*", name.text⟩]
  | named {opener closer : Token} {names : List Token} {specifiers : List Specifier}
      (isOpener : IsBracket "\x7b" opener)
      (areNames : Names .module names specifiers)
      (isCloser : IsBracket "\x7d" closer) :
      Taken (opener :: (names ++ [closer])) specifiers

/-- What may stand between the keyword of an import statement and its path. -/
inductive ImportClause : List Token → List Specifier → Prop where
  | effect : ImportClause [] []
  | byDefault {name source : Token}
      (isPlain : IsPlainName name)
      (isOther : name.text ≠ "from")
      (isSource : IsWord "from" source) :
      ImportClause [name, source] [⟨"default", name.text⟩]
  | taken {tokens : List Token} {source : Token} {specifiers : List Specifier}
      (isTaken : Taken tokens specifiers)
      (isSource : IsWord "from" source) :
      ImportClause (tokens ++ [source]) specifiers
  | both {name comma source : Token} {tokens : List Token} {specifiers : List Specifier}
      (isPlain : IsPlainName name)
      (isOther : name.text ≠ "from")
      (isComma : IsMark "," comma)
      (isTaken : Taken tokens specifiers)
      (isSource : IsWord "from" source) :
      ImportClause (name :: comma :: (tokens ++ [source])) (⟨"default", name.text⟩ :: specifiers)

theorem Clauses.source {faces : List Token.Face} {specifiers : List Specifier} {source : Token}
    (later : Clauses faces specifiers) (isSource : IsWord "from" source) :
    Clauses (source.face :: faces) specifiers := by
  have isText : source.face.text = "from" := by rw [Token.text_face, isSource.2]
  refine later.pass ?_ (by simp [isText]) fun _ => isText
  have isKind := isSource.1
  rw [Token.is_eq_face, decide_eq_true_eq] at isKind
  simp [isKind]

private theorem Clauses.byDefault
    {faces : List Token.Face}
    {specifiers : List Specifier}
    {name : Token}
    (later : Clauses faces specifiers) (isPlain : IsPlainName name) (isOther : name.text ≠ "from") :
    Clauses (name.face :: faces) (⟨"default", name.text⟩ :: specifiers) := by
  have isKind := isPlain.isIdentifier
  rw [Token.is_eq_face, decide_eq_true_eq] at isKind
  have noMark : name.face.text ∉ ["\x7b", "*", ";", "from"] := by
    simp [Token.text_face, isOther, isPlain.ne (by decide : isName "\x7b" = false),
      isPlain.ne (by decide : isName "*" = false), isPlain.ne (by decide : isName ";" = false)]
  have named := later.named isKind noMark
  rwa [Token.text_face] at named

theorem Clauses.comma {faces : List Token.Face} {specifiers : List Specifier} {comma : Token}
    (later : Clauses faces specifiers) (isComma : IsMark "," comma) :
    Clauses (comma.face :: faces) specifiers := by
  have isText : comma.face.text = "," := by rw [Token.text_face, isComma.2]
  have noKind : comma.is .string = false ∧ comma.is .identifier = false := by
    rcases isComma.1 with isKind | isKind <;> simp [not_is_of_is isKind]
  simp only [Token.is_eq_face, decide_eq_false_iff_not] at noKind
  exact later.pass noKind.1 (by simp [isText]) fun isKind => absurd isKind noKind.2

theorem Taken.clauses {tokens : List Token} {taken specifiers : List Specifier}
    {faces : List Token.Face} (isTaken : Taken tokens taken) (later : Clauses faces specifiers) :
    Clauses (tokens.map Token.face ++ faces) (taken ++ specifiers) := by
  cases isTaken with
  | @whole star joint name isStar joins isPlain =>
    have notString : star.is .string = false := by
      rcases isStar.1 with isKind | isKind <;> simp [not_is_of_is isKind]
    have isKind := isPlain.isIdentifier
    rw [Token.is_eq_face, decide_eq_true_eq] at isKind
    rw [Token.is_eq_face, decide_eq_false_iff_not] at notString
    have starred := @Clauses.star star.face joint.face name.face _ _ later notString
      (by rw [Token.text_face, isStar.2]) (.inl isKind)
    rwa [Token.text_face] at starred
  | @named opener closer names _ isOpener areNames isCloser =>
    have notString : opener.is .string = false := not_is_of_is isOpener.1 (by decide)
    rw [Token.is_eq_face, decide_eq_false_iff_not] at notString
    have isClosing : closes closer := by simp [closes, isPunctuator, isCloser.1, isCloser.2]
    have braced := later.braces notString (by rw [Token.text_face, isOpener.2])
      fun own bracket rest areFaces isBracket =>
        close?_of_faces (close?_of_flat areNames.areFlat isClosing []) areFaces isBracket rest
    rw [← specifiersOf_eq_spelled, areNames.specifiersOf_eq] at braced
    simpa using braced

theorem ImportClause.clauses {tokens : List Token} {specifiers : List Specifier}
    (isClause : ImportClause tokens specifiers) : Clauses (tokens.map Token.face) specifiers := by
  cases isClause with
  | effect => exact clauses_nil
  | byDefault isPlain isOther isSource =>
    exact (clauses_nil.source isSource).byDefault isPlain isOther
  | taken isTaken isSource =>
    have clauses := isTaken.clauses (clauses_nil.source isSource)
    rw [List.append_nil] at clauses
    rw [List.map_append]
    exact clauses
  | both isPlain isOther isComma isTaken isSource =>
    have clauses := isTaken.clauses (clauses_nil.source isSource)
    rw [List.append_nil] at clauses
    rw [List.map_cons, List.map_cons, List.map_append]
    exact (clauses.comma isComma).byDefault isPlain isOther

/-- The token after the keyword of an import statement is no parenthesis and no
point. -/
theorem ImportClause.followsImport {clause : List Token} {specifiers : List Specifier}
    (isClause : ImportClause clause specifiers) {path : Token} {source : String}
    (isPath : IsPath path source) (after : List Token) :
    followsImport (clause ++ path :: after) := by
  have ofTaken : ∀ {tokens : List Token} {specifiers : List Specifier}, Taken tokens specifiers →
      ∀ rest, Declaration.followsImport (tokens ++ rest) := by
    intro tokens specifiers isTaken rest
    cases isTaken with
    | whole isStar => simp [Declaration.followsImport, isStar.2]
    | named isOpener => simp [Declaration.followsImport, isOpener.2]
  have noParen : isName "(" = false := by decide
  have noPoint : isName "." = false := by decide
  cases isClause with
  | effect =>
    have notParen : path.text ≠ "(" := isPath.ne (by simp [isQuote])
    have notPoint : path.text ≠ "." := isPath.ne (by simp [isQuote])
    simp [Declaration.followsImport, notParen, notPoint]
  | byDefault isPlain => simp [Declaration.followsImport, isPlain.ne noParen, isPlain.ne noPoint]
  | taken isTaken =>
    rw [List.append_assoc]
    exact ofTaken isTaken _
  | both isPlain => simp [Declaration.followsImport, isPlain.ne noParen, isPlain.ne noPoint]

end Restyle.Declaration
