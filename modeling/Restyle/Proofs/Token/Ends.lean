import Restyle.Bracket
import Restyle.Proofs.Text
import Restyle.Proofs.Token.Placement

/-!
Contract: the characters at which tokens begin and end.

Owns: the step by which a token is read; the spelling of a string; that an
identifier or a keyword begins with a character that is not blank, and that an
identifier, a string, a template, a closing bracket or a semicolon ends with one.
-/

namespace Restyle

/-- An undivided token of a kind is a lexeme of that kind. -/
theorem Token.Placed.exists_lexeme
    {source : List Char}
    {token : Token}
    {kind : Token.Kind}
    (placed : Token.Placed source token)
    (isKind : token.is kind) :
    ∃ lexeme ∈ Lexeme.scanFrom .initial 0 source, lexeme.kind.isAtom ∧
      token = Token.ofLexeme source lexeme ∧ Token.kindOf lexeme.kind = kind := by
  cases placed with
  | template => simp [Token.is] at isKind
  | @atom lexeme member isAtom =>
    exact ⟨lexeme, member, isAtom, rfl, by simpa [Token.is, Token.ofLexeme] using isKind⟩

/-- An undivided token that is not stray is read by a step of the scanner in code. -/
theorem Token.Placed.exists_codeStep
    {source : List Char}
    {token : Token}
    {kind : Token.Kind}
    (placed : Token.Placed source token)
    (isKind : token.is kind)
    (notStray : kind ≠ .stray) :
    ∃ nest slash first rest taken, Lexeme.CodeStep nest slash first rest taken ∧
      Token.kindOf taken.kind = kind ∧ token.text.toList = first :: rest.take taken.tail := by
  obtain ⟨lexeme, member, isAtom, rfl, sameKind⟩ := placed.exists_lexeme isKind
  obtain ⟨_, current, first, rest, -, -, isLexeme, spelled⟩ :=
    Lexeme.exists_step_of_mem_scanFrom member
  rw [isLexeme] at isAtom sameKind
  obtain ⟨nest, slash, isStep⟩ := Lexeme.codeStep_of_kind current first rest isAtom fun isStray =>
    notStray (by rw [← sameKind, isStray]; rfl)
  exact ⟨nest, slash, first, rest, _, isStep, sameKind, spelled⟩

/-- A string token is its quote, a text of whole escapes, and its quote again. -/
theorem Token.Placed.spelling_of_string
    {source : List Char}
    {token : Token}
    (placed : Token.Placed source token)
    (isString : token.is .string) :
    ∃ quote body, (quote = '"' ∨ quote = '\'') ∧
      token.text.toList = quote :: body ++ [quote] ∧ Lexeme.escapesAreWhole body := by
  obtain ⟨lexeme, member, _, isToken, kind⟩ := placed.exists_lexeme isString
  have isKind : lexeme.kind = .doubleQuoted ∨ lexeme.kind = .singleQuoted := by
    cases own : lexeme.kind <;> simp [own, kindOf] at kind
    · exact .inl rfl
    · exact .inr rfl
  rw [isToken]
  exact Lexeme.spelling_of_string member isKind

private theorem Token.Placed.inkedAt_start
    {source more : List Char}
    {token : Token}
    {first : Char}
    (placed : Token.Placed source token)
    (spelled : token.text.toList = first :: more)
    (inked : ¬ Text.isBlank first) :
    Text.InkedAt source token.start := by
  have stands := Text.getElem?_slice source (Nat.le_refl token.start) placed.bounds.1
  rw [← placed.text_eq, spelled, Nat.sub_self] at stands
  exact ⟨first, stands.symm, inked⟩

theorem Token.Placed.inkedAt_last
    {source : List Char}
    {token : Token}
    (placed : Token.Placed source token)
    (front : List Char)
    {last : Char}
    (spelled : token.text.toList = front ++ [last])
    (inked : ¬ Text.isBlank last) :
    Text.InkedAt source (token.stop - 1) := by
  have bounds := placed.bounds
  have size : token.text.length = front.length + 1 := by
    rw [← String.length_toList, spelled]
    simp
  have lower : token.start ≤ token.stop - 1 := by omega
  have upper : token.stop - 1 < token.stop := by omega
  have stands := Text.getElem?_slice source lower upper
  rw [← placed.text_eq, spelled, List.getElem?_append_right (by simp only [Token.stop]; omega),
    show token.stop - 1 - token.start - front.length = 0 by simp only [Token.stop]; omega] at stands
  exact ⟨last, stands.symm, inked⟩

/-- An identifier or a keyword begins with a character that is not blank. -/
theorem Token.Placed.inkedAt_start_of_name
    {source : List Char}
    {token : Token}
    (placed : Token.Placed source token)
    (isName : token.isName) :
    Text.InkedAt source token.start := by
  have isKind : token.is .identifier ∨ token.is .keyword := by
    simpa [Token.isName] using isName
  have lexed : ∃ lexeme ∈ Lexeme.scanFrom .initial 0 source, lexeme.kind.isAtom ∧
      token = Token.ofLexeme source lexeme ∧ lexeme.kind ≠ .stray := by
    rcases isKind with isKind | isKind <;>
      obtain ⟨lexeme, member, isAtom, isToken, kind⟩ := placed.exists_lexeme isKind <;>
      exact ⟨lexeme, member, isAtom, isToken, fun isStray => by simp [isStray, kindOf] at kind⟩
  obtain ⟨lexeme, member, isAtom, isToken, notStray⟩ := lexed
  obtain ⟨first, more, spelled, inked⟩ := Lexeme.inked_of_atom member isAtom notStray
  exact placed.inkedAt_start (by rw [isToken]; exact spelled) inked

/-- Whether a token is of those that end with a character that is not blank. -/
def Token.endsInked (token : Token) : Bool :=
  token.is .identifier || token.is .string || token.isTemplate || Bracket.closes token ||
    token.text = ";"

theorem Token.Placed.inkedAt_last_of_endsInked
    {source : List Char}
    {token : Token}
    (placed : Token.Placed source token)
    (ends : token.endsInked) :
    Text.InkedAt source (token.stop - 1) := by
  simp only [Token.endsInked, Bool.or_eq_true, decide_eq_true_eq] at ends
  rcases ends with (((isIdentifier | isString) | isTemplate) | closes) | isSemicolon
  · obtain ⟨lexeme, member, _, isToken, kind⟩ := placed.exists_lexeme isIdentifier
    have isKind : lexeme.kind = .identifier := by
      cases own : lexeme.kind <;> simp [own, kindOf] at kind
      rfl
    obtain ⟨first, more, spelled, starts, parts⟩ := Lexeme.spelling_of_identifier member isKind
    have isPart : ∀ c ∈ first :: more, Text.isIdentifierPart c := by
      intro c isChar
      rcases List.mem_cons.mp isChar with rfl | later
      · simp only [Text.isIdentifierStart, Text.isIdentifierPart, Bool.or_eq_true,
          Bool.and_eq_true] at starts ⊢
        exact starts.imp id And.left
      · exact parts c later
    have split := List.dropLast_concat_getLast (List.cons_ne_nil first more)
    have isLast := Text.not_isBlank_of_isIdentifierPart
      (isPart _ (List.getLast_mem (List.cons_ne_nil first more)))
    refine placed.inkedAt_last (first :: more).dropLast ?_ isLast
    rw [isToken]
    exact spelled.trans split.symm
  · obtain ⟨quote, body, isQuote, spelled, _⟩ := placed.spelling_of_string isString
    have isInked : ¬ Text.isBlank quote := by
      rcases isQuote with rfl | rfl <;> decide
    exact placed.inkedAt_last (quote :: body) spelled isInked
  · cases placed with
    | atom => simp [Token.isTemplate, Token.template?, Token.ofLexeme] at isTemplate
    | template opening inner =>
      rw [Token.Placed.stop_of_template inner]
      exact ⟨'`', inner.bounds.2, by decide⟩
  · simp only [Bracket.closes, Bracket.isPunctuator, Bool.and_eq_true, List.contains_eq_mem,
      decide_eq_true_eq, List.mem_cons, List.not_mem_nil, or_false] at closes
    rcases closes.2 with isText | isText | isText <;>
      exact placed.inkedAt_last [] (by rw [isText]; rfl) (by decide)
  · exact placed.inkedAt_last [] (by rw [isSemicolon]; rfl) (by decide)

end Restyle
