import Restyle.Proofs.Lexeme.Extent

/-!
Contract: a lexeme of code read in another context.

Owns: for each lexical form, the step that reads it; `settled`, by which a
lexeme is complete in its own text; `Alike`, by which what follows a lexeme in
two texts leaves it the same; and that a settled lexeme is read again from the
other text, whatever holes are around it.
-/

namespace Restyle.Lexeme

open Restyle.Text

variable
  {nest : Nest}
  {slash : Slash}
  {first : Char}
  {rest : List Char}

/-! ## The step of each form -/

theorem codeStep_of_blank (blank : isBlank first) :
    codeStep nest slash first rest =
      ⟨.blank, (rest.takeWhile isBlank).length, .code nest slash⟩ := by
  simp [codeStep, blank]

theorem codeStep_of_comment
    {kind : Kind}
    {tail : Nat}
    (found : comment? first rest = some (kind, tail)) :
    codeStep nest slash first rest = ⟨kind, tail, .code nest slash⟩ := by
  have isSlash : first = '/' := Decidable.byContradiction fun notSlash => by
    simp [comment?, notSlash] at found
  have inked : isBlank '/' = false := by decide
  simp [codeStep, found, isSlash ▸ inked]

private theorem codeStep_of_pattern
    {tail : Nat}
    (noComment : comment? first rest = none)
    (found : pattern? slash first rest = some tail) :
    codeStep nest slash first rest = ⟨.pattern, tail, .code nest .divides⟩ := by
  have isSlash : first = '/' := Decidable.byContradiction fun notSlash => by
    simp [pattern?, notSlash] at found
  have inked : isBlank '/' = false := by decide
  simp [codeStep, noComment, found, isSlash ▸ inked]

theorem codeStep_of_backtick :
    codeStep nest slash '`' rest = ⟨.templateOpen, 0, .template nest⟩ := by
  have inked : isBlank '`' = false := by decide
  simp [codeStep, comment?, pattern?, inked]

theorem codeStep_of_quoted
    {kind : Kind}
    {tail : Nat}
    (found : quoted? first rest = some (kind, tail)) :
    codeStep nest slash first rest = ⟨kind, tail, .code nest .divides⟩ := by
  have isQuote := (kind_of_quoted? found).2.1
  have inked : isBlank '"' = false ∧ isBlank '\'' = false := by decide
  rcases isQuote with rfl | rfl <;> simp [codeStep, comment?, pattern?, found, inked]

/-- What is true of every character that may stand in a name. -/
theorem apart_of_isIdentifierPart
    (slash : Slash)
    (rest : List Char)
    (isPart : isIdentifierPart first) :
    isBlank first = false ∧ comment? first rest = none ∧ pattern? slash first rest = none ∧
      first ≠ '`' ∧ quoted? first rest = none := by
  have inked : isBlank first = false := by simpa using not_isBlank_of_isIdentifierPart isPart
  have apart : ∀ c ∈ ['/', '`', '"', '\''], first ≠ c := by
    rintro c isMark rfl
    have outside : ∀ c ∈ ['/', '`', '"', '\''], isIdentifierPart c = false :=
      List.all_iff_forall_prop.mp (by decide)
    simp [outside first isMark] at isPart
  refine ⟨inked, ?_, ?_, apart _ (by decide), ?_⟩
  · simp [comment?, apart '/' (by decide)]
  · simp [pattern?, apart '/' (by decide)]
  · simp [quoted?, apart '"' (by decide), apart '\'' (by decide)]

private theorem first_of_numberExtent?
    {tail : Nat}
    (found : numberExtent? first rest = some tail) :
    isDigit first ∨ first = '.' ∧ rest.head?.any isDigit := by
  by_cases digit : isDigit first
  · exact .inl digit
  · have notZero : first ≠ '0' := by
      rintro rfl
      exact digit (by decide)
    rw [numberExtent?_eq, if_neg notZero, Option.none_or, decimalExtent?, if_neg digit] at found
    split at found
    · rename_i isNumber
      simp only [Bool.and_eq_true, decide_eq_true_eq] at isNumber
      exact .inr isNumber
    · simp at found

private theorem numberExtent?_of_not_digit
    (notDigit : isDigit first = false)
    (noPoint : first = '.' → rest.head?.any isDigit = false) :
    numberExtent? first rest = none := by
  cases found : numberExtent? first rest with
  | none => rfl
  | some tail =>
    rcases first_of_numberExtent? found with digit | ⟨isPoint, digit⟩
    · simp [notDigit] at digit
    · simp [noPoint isPoint] at digit

theorem codeStep_of_number
    {tail : Nat}
    (found : numberExtent? first rest = some tail) :
    codeStep nest slash first rest = ⟨.number, tail, .code nest .divides⟩ := by
  rcases first_of_numberExtent? found with digit | ⟨rfl, -⟩
  · have apart := apart_of_isIdentifierPart slash rest
      (isIdentifierPart_of_isDigit digit)
    simp [codeStep, apart, found]
  · have inked : isBlank '.' = false := by decide
    simp [codeStep, comment?, pattern?, quoted?, found, inked]

private theorem word?_eq_none
    (notStart : isIdentifierStart first = false) :
    word? first rest = none := by
  have heads : ∀ keyword ∈ keywords, keyword.toList.head?.any isIdentifierStart := by decide
  have notKeyword : ¬ keywords.contains (String.ofList (first :: rest.takeWhile isWord)) := by
    intro isKeyword
    have starts := heads _ (by simpa using isKeyword)
    simp [notStart] at starts
  simp only [word?, if_neg notKeyword, notStart]
  rfl

theorem not_isDigit_of_isIdentifierStart (starts : isIdentifierStart first) :
    isDigit first = false := by
  by_cases isDollar : first = '$'
  · subst isDollar
    decide
  · simp only [isIdentifierStart, isDollar, decide_false, Bool.false_or, Bool.and_eq_true,
      Bool.not_eq_true'] at starts
    exact starts.2

theorem codeStep_of_word
    {kind : Kind}
    {tail : Nat}
    (found : word? first rest = some (kind, tail)) :
    codeStep nest slash first rest =
      ⟨kind, tail, .code nest (if kind = .keyword then .opensPattern else .divides)⟩ := by
  have starts : isIdentifierStart first := Decidable.byContradiction fun notStart => by
    simp [word?_eq_none (by simpa using notStart)] at found
  have apart := apart_of_isIdentifierPart slash rest
    (isIdentifierPart_of_isIdentifierStart starts)
  have notDigit := not_isDigit_of_isIdentifierStart starts
  have notPoint : first = '.' → rest.head?.any isDigit = false := by
    rintro rfl
    exact absurd starts (by decide)
  simp [codeStep, apart, numberExtent?_of_not_digit notDigit notPoint, found]

/-- The characters with which symbols begin. -/
def symbolHeads : List Char :=
  symbols.flatMap fun symbol => symbol.text.toList.head?.toList

private theorem head?_of_find?
    {symbol : Symbol}
    (found : symbols.find? (·.heads (first :: rest)) = some symbol) :
    symbol.text.toList.head? = some first := by
  have heads := List.find?_some found
  have listed := List.mem_of_find?_eq_some found
  simp only [Symbol.heads, Bool.and_eq_true, List.isPrefixOf_iff_prefix] at heads
  have nonempty : ∀ symbol ∈ symbols, symbol.text.toList ≠ [] := by decide
  obtain ⟨c, more, isText⟩ := List.exists_cons_of_ne_nil (nonempty symbol listed)
  have isPrefix := heads.1
  rw [isText, List.cons_prefix_cons] at isPrefix
  rw [isText, List.head?_cons, isPrefix.1]

theorem mem_symbolHeads
    {symbol : Symbol}
    (found : symbols.find? (·.heads (first :: rest)) = some symbol) :
    first ∈ symbolHeads := by
  rw [symbolHeads, List.mem_flatMap]
  exact ⟨symbol, List.mem_of_find?_eq_some found, by simp [head?_of_find? found]⟩

/-- What is true of every character with which a symbol begins. -/
theorem apart_of_mem_symbolHeads (rest : List Char) (isHead : first ∈ symbolHeads) :
    isBlank first = false ∧ isIdentifierPart first = false ∧ first ≠ '`' ∧
      quoted? first rest = none ∧ word? first rest = none ∧ first ≠ '\x7b' ∧ first ≠ '\x7d' := by
  have apart : ∀ c ∈ symbolHeads, isBlank c = false ∧ isIdentifierPart c = false ∧ c ≠ '`' ∧
      c ≠ '"' ∧ c ≠ '\'' ∧ c ≠ '\x7b' ∧ c ≠ '\x7d' := List.all_iff_forall_prop.mp (by decide)
  obtain ⟨inked, outside, notBacktick, notDouble, notSingle, braces⟩ := apart first isHead
  have notStart : isIdentifierStart first = false := Bool.eq_false_iff.mpr fun starts => by
    simp [isIdentifierPart_of_isIdentifierStart starts] at outside
  refine ⟨inked, outside, notBacktick, ?_, word?_eq_none notStart, braces⟩
  simp [quoted?, notDouble, notSingle]

private theorem not_isDigit_of_symbol
    {symbol : Symbol}
    (found : symbols.find? (·.heads (first :: rest)) = some symbol) :
    isDigit first = false := by
  have outside := (apart_of_mem_symbolHeads rest (mem_symbolHeads found)).2.1
  exact Bool.eq_false_iff.mpr fun digit => by
    simp [isIdentifierPart_of_isDigit digit] at outside

private theorem operator_of_slash
    {symbol : Symbol}
    (found : symbols.find? (·.heads (first :: rest)) = some symbol)
    (isSlash : first = '/') :
    symbol.kind = .operator := by
  have operators : ∀ symbol ∈ symbols, symbol.text.toList.head? = some '/' →
      symbol.kind = .operator := by decide
  exact operators symbol (List.mem_of_find?_eq_some found) (by rw [head?_of_find? found, isSlash])

private theorem text_of_find?
    {symbol : Symbol}
    {body rest : List Char}
    (found : symbols.find? (·.heads (first :: (body ++ rest))) = some symbol)
    (size : symbol.text.length - 1 = body.length) :
    symbol.text.toList = first :: body := by
  have listed := List.mem_of_find?_eq_some found
  have heads := List.find?_some found
  simp only [Symbol.heads, Bool.and_eq_true, List.isPrefixOf_iff_prefix] at heads
  have positive : ∀ symbol ∈ symbols, 0 < symbol.text.length := by decide
  have sameLength : symbol.text.toList.length = (first :: body).length := by
    have := positive symbol listed
    rw [List.length_cons, String.length_toList]
    omega
  have own : first :: body <+: first :: (body ++ rest) := ⟨rest, rfl⟩
  exact (List.prefix_of_prefix_length_le heads.1 own (Nat.le_of_eq sameLength)).eq_of_length
    sameLength

theorem not_digit_of_point
    (isPoint : first = '.')
    (noNumber : numberExtent? first rest = none) :
    rest.head?.any isDigit = false := by
  subst isPoint
  have notDigit : isDigit '.' = false := by decide
  have notZero : '.' ≠ '0' := by decide
  rw [numberExtent?_eq, if_neg notZero, Option.none_or] at noNumber
  simpa [decimalExtent?, notDigit] using noNumber

theorem numberExtent?_pos_of_point
    {tail : Nat}
    (found : numberExtent? '.' rest = some tail) :
    0 < tail := by
  have notDigit : ¬ isDigit '.' := by decide
  have notZero : '.' ≠ '0' := by decide
  rcases first_of_numberExtent? found with digit | ⟨-, digit⟩
  · exact absurd digit notDigit
  · rw [numberExtent?_eq, if_neg notZero, Option.none_or, decimalExtent?, if_neg notDigit] at found
    simp only [decide_true, Bool.true_and, digit, if_true, Option.some.injEq] at found
    have bound := le_numberEnd (digitsExtent rest) rest
    cases rest with
    | nil => simp at digit
    | cons c rest =>
      have isDigit : isDigit c := by simpa using digit
      have positive : 0 < digitsExtent (c :: rest) := by
        simp [digitsExtent, isDigitOrUnderscore, isDigit]
      omega

private theorem none_of_symbol
    {symbol : Symbol}
    {tail : Nat}
    {next : State}
    (isTaken : codeStep nest slash first rest = ⟨symbol.kind, tail, next⟩)
    (listed : symbol ∈ symbols) :
    comment? first rest = none ∧ numberExtent? first rest = none := by
  have kinds := kind_of_symbol listed
  constructor
  · cases isComment : comment? first rest with
    | none => rfl
    | some pair =>
      rw [codeStep_of_comment isComment, Step.mk.injEq] at isTaken
      have trivia := isTrivia_of_comment? isComment
      rw [isTaken.1] at trivia
      rcases kinds with isKind | isKind <;> simp [isKind, Kind.isTrivia] at trivia
  · cases isNumber : numberExtent? first rest with
    | none => rfl
    | some tail =>
      rw [codeStep_of_number isNumber, Step.mk.injEq] at isTaken
      rcases kinds with isKind | isKind <;> simp [isKind] at isTaken

private theorem codeStep_of_symbol
    {symbol : Symbol}
    (noComment : comment? first rest = none)
    (noPattern : pattern? slash first rest = none)
    (noNumber : numberExtent? first rest = none)
    (found : symbols.find? (·.heads (first :: rest)) = some symbol) :
    codeStep nest slash first rest =
      ⟨symbol.kind, symbol.text.length - 1, .code nest symbol.slash⟩ := by
  have apart := apart_of_mem_symbolHeads rest (mem_symbolHeads found)
  simp [codeStep, apart, noComment, noPattern, noNumber, found]

/-- A symbol that begins with neither a slash nor a point. -/
theorem codeStep_of_mark
    {symbol : Symbol}
    (plain : first ≠ '/' ∧ first ≠ '.')
    (found : symbols.find? (·.heads (first :: rest)) = some symbol) :
    codeStep nest slash first rest =
      ⟨symbol.kind, symbol.text.length - 1, .code nest symbol.slash⟩ := by
  refine codeStep_of_symbol ?_ ?_ ?_ found
  · simp [comment?, plain.1]
  · simp [pattern?, plain.1]
  · exact numberExtent?_of_not_digit (not_isDigit_of_symbol found)
      fun isPoint => absurd isPoint plain.2

theorem codeStep_of_closeParen :
    codeStep nest slash ')' rest = ⟨.punctuator, 0, .code nest .divides⟩ := by
  have found : symbols.find? (·.heads (')' :: rest)) = some ⟨")", .punctuator, .divides⟩ := rfl
  exact codeStep_of_mark (by decide) found

/-- The marks after which a slash opens a pattern. -/
theorem codeStep_of_opening (isMark : first ∈ ['(', '[', ',']) :
    codeStep nest slash first rest = ⟨.punctuator, 0, .code nest .opensPattern⟩ := by
  simp only [List.mem_cons, List.not_mem_nil, or_false] at isMark
  rcases isMark with rfl | rfl | rfl
  · have found : symbols.find? (·.heads ('(' :: rest)) =
        some ⟨"(", .punctuator, .opensPattern⟩ := rfl
    exact codeStep_of_mark (by decide) found
  · have found : symbols.find? (·.heads ('[' :: rest)) =
        some ⟨"[", .punctuator, .opensPattern⟩ := rfl
    exact codeStep_of_mark (by decide) found
  · have found : symbols.find? (·.heads (',' :: rest)) =
        some ⟨",", .punctuator, .opensPattern⟩ := rfl
    exact codeStep_of_mark (by decide) found

/-- An identifier begins with a character that may begin one, takes all that may
follow, and a slash after it divides. -/
theorem identifier_of_codeStep
    {tail : Nat}
    {inner : Nest}
    {next : Slash}
    (isStep : codeStep nest slash first rest = ⟨.identifier, tail, .code inner next⟩) :
    isIdentifierStart first ∧ (rest.takeWhile isIdentifierPart).length = tail ∧
      next = .divides := by
  have spec := codeStep_spec nest slash first rest
  rw [isStep] at spec
  obtain ⟨starts, isTail⟩ := spec.word_of_identifier rfl
  refine ⟨starts, isTail.symm, ?_⟩
  cases isWord : word? first rest with
  | none =>
    simp only [word?, starts] at isWord
    split at isWord <;> simp at isWord
  | some pair =>
    rw [codeStep_of_word isWord] at isStep
    simp only [Step.mk.injEq, State.code.injEq] at isStep
    simpa [isStep.1] using isStep.2.2.2.symm

theorem codeStep_of_brace
    {taken : Step}
    (found : brace? nest first = some taken) :
    codeStep nest slash first rest = taken := by
  have isBrace : first = '\x7b' ∨ first = '\x7d' := by
    simp only [brace?] at found
    split at found
    · exact .inl ‹_›
    · split at found
      · exact .inr ‹_›
      · simp at found
  have noSymbol : symbols.find? (·.heads (first :: rest)) = none := by
    cases isSymbol : symbols.find? (·.heads (first :: rest)) with
    | none => rfl
    | some symbol =>
      have apart := apart_of_mem_symbolHeads rest (mem_symbolHeads isSymbol)
      rcases isBrace with rfl | rfl
      · exact absurd rfl apart.2.2.2.2.2.1
      · exact absurd rfl apart.2.2.2.2.2.2
  have outside : ∀ c, c = '\x7b' ∨ c = '\x7d' → isBlank c = false ∧ isDigit c = false ∧
      isIdentifierStart c = false := by
    rintro c (rfl | rfl) <;> decide
  obtain ⟨inked, notDigit, notStart⟩ := outside first isBrace
  have noNumber : numberExtent? first rest = none := by
    refine numberExtent?_of_not_digit notDigit ?_
    rintro rfl
    rcases isBrace with isBrace | isBrace <;> simp at isBrace
  have noComment : comment? first rest = none ∧ pattern? slash first rest = none ∧
      first ≠ '`' ∧ quoted? first rest = none := by
    rcases isBrace with rfl | rfl <;> simp [comment?, pattern?, quoted?]
  simp [codeStep, inked, noComment, noNumber, word?_eq_none notStart, noSymbol, found]

private theorem comment?_le
    {kind : Kind}
    {tail : Nat}
    (found : comment? first rest = some (kind, tail)) :
    tail ≤ rest.length := by
  simp only [comment?] at found
  split at found
  · split at found
    · rename_i more
      have := (List.takeWhile_prefix (l := more) (· ≠ '\n')).length_le
      simp only [Option.some.injEq, Prod.mk.injEq] at found
      simp only [List.length_cons]
      omega
    · obtain ⟨extent, isExtent, isPair⟩ := Option.map_eq_some_iff.mp found
      have := blockCommentExtent?_le isExtent
      simp only [Prod.mk.injEq] at isPair
      simp only [List.length_cons]
      omega
    · simp at found
  · simp at found

private theorem word?_le
    {kind : Kind}
    {tail : Nat}
    (found : word? first rest = some (kind, tail)) :
    tail ≤ rest.length := by
  simp only [word?] at found
  split at found
  · simp only [Option.some.injEq, Prod.mk.injEq] at found
    exact found.2 ▸ (List.takeWhile_prefix _).length_le
  · split at found
    · simp only [Option.some.injEq, Prod.mk.injEq] at found
      exact found.2 ▸ (List.takeWhile_prefix _).length_le
    · simp at found

theorem tail_of_brace?
    {taken : Step}
    (found : brace? nest first = some taken) :
    taken.tail = 0 := by
  simp only [brace?] at found
  split at found
  · split at found <;> (cases found; rfl)
  · split at found
    · split at found <;> (cases found; rfl)
    · simp at found

/-- A step takes no more than there is. -/
theorem CodeStep.tail_le
    {taken : Step}
    (isStep : CodeStep nest slash first rest taken) :
    taken.tail ≤ rest.length := by
  cases isStep with
  | blank => exact (List.takeWhile_prefix _).length_le
  | comment _ found => exact comment?_le found
  | pattern _ found =>
    simp only [pattern?] at found
    split at found
    · exact patternExtent?_le rest false found
    · simp at found
  | templateOpen => exact Nat.zero_le _
  | quoted _ found => exact quotedExtent?_le (kind_of_quoted? found).2.2
  | number _ found => exact numberExtent?_le found
  | word _ found => exact word?_le found
  | symbol _ found =>
    have heads := List.find?_some found
    simp only [Symbol.heads, Bool.and_eq_true, List.isPrefixOf_iff_prefix] at heads
    have bound := heads.1.length_le
    rw [String.length_toList, List.length_cons] at bound
    show _ - 1 ≤ rest.length
    omega
  | brace _ found =>
    rw [tail_of_brace? found]
    exact Nat.zero_le _
  | stray => exact Nat.zero_le _

theorem templateStep_tail_le (nest : Nest) (first : Char) (rest : List Char) :
    (templateStep nest first rest).tail ≤ rest.length := by
  unfold templateStep
  split
  · exact Nat.zero_le _
  split
  · split
    · rename_i isBrace
      obtain ⟨more, rfl⟩ := List.head?_eq_some_iff.mp isBrace
      simp
    · exact Nat.zero_le _
  split
  · split
    · exact Nat.zero_le _
    · rename_i nonempty
      cases rest with
      | nil => simp at nonempty
      | cons c more => simp
  · exact (List.takeWhile_prefix _).length_le

/-! ## What follows a lexeme -/

/-- The marks that may be put after a copied piece of code. -/
def separators : List Char :=
  [',', ')', ']']

/-- What follows a lexeme in its own text and in another one: the same
character, the beginnings of two names, a separator in the other text, or
nothing in both. -/
inductive Alike : List Char → List Char → Prop where
  | done : Alike [] []
  | same {c : Char} {more other : List Char}
      (points : c = '.' → other.head? = some '.' → more.head? = some '.')
      (digits : c = '.' → other.head?.any isDigit = more.head?.any isDigit) :
      Alike (c :: more) (c :: other)
  | name {c d : Char} {more other : List Char}
      (starts : isIdentifierStart c)
      (otherStarts : isIdentifierStart d) :
      Alike (c :: more) (d :: other)
  | separator {c : Char} {rest more : List Char}
      (isSeparator : c ∈ separators) :
      Alike rest (c :: more)

theorem Alike.head
    {isOwn : Char → Bool}
    {rest other : List Char}
    (alike : Alike rest other)
    (names : ∀ c, isIdentifierStart c → isOwn c = false)
    (marks : ∀ c ∈ separators, isOwn c = false)
    (stopped : rest.head?.any isOwn = false) :
    other.head?.any isOwn = false := by
  cases alike with
  | done => rfl
  | same => simpa using stopped
  | name _ starts => simp [names _ starts]
  | separator isSeparator => simp [marks _ isSeparator]

theorem Alike.stops
    {rest other : List Char}
    (alike : Alike rest other)
    (stopped : stops rest) :
    Lexeme.stops other := by
  cases alike with
  | done => rfl
  | same => simpa [Lexeme.stops] using stopped
  | name starts =>
    exact absurd rfl (not_head_of_stops stopped (isIdentifierPart_of_isIdentifierStart starts))
  | separator isSeparator =>
    have marks : ∀ c ∈ separators, isIdentifierPart c = false :=
      List.all_iff_forall_prop.mp (by decide)
    exact stops_cons.mpr (marks _ isSeparator)

theorem Alike.ne_of_start
    {rest other more : List Char}
    {c : Char}
    (alike : Alike rest other)
    (notStart : isIdentifierStart c = false)
    (notMark : c ∉ separators)
    (isOther : other = c :: more) :
    rest.head? = some c := by
  cases alike with
  | done => simp at isOther
  | same =>
    obtain ⟨rfl, rfl⟩ := List.cons.inj isOther
    rfl
  | name _ starts =>
    obtain ⟨rfl, rfl⟩ := List.cons.inj isOther
    simp [starts] at notStart
  | separator isSeparator =>
    obtain ⟨rfl, rfl⟩ := List.cons.inj isOther
    exact absurd isSeparator notMark

theorem head?_of_takeWhile
    {isOwn : Char → Bool}
    {body rest : List Char}
    (taken : ((body ++ rest).takeWhile isOwn).length = body.length) :
    rest.head?.any isOwn = false := by
  induction body with
  | nil =>
    cases rest with
    | nil => rfl
    | cons c rest =>
      by_cases own : isOwn c
      · simp [own] at taken
      · simp [own]
  | cons c body inductionHypothesis =>
    rw [List.cons_append, List.takeWhile_cons] at taken
    split at taken
    · exact inductionHypothesis (by simpa using taken)
    · simp at taken

/-! ## Symbols before another text -/

/-- Where a symbol continues another one that is tried later, the next character
tells them apart, apart from points. -/
def toldApart (front : List Symbol) (symbol earlier : Symbol) : Bool :=
  (!earlier.text.toList.isPrefixOf symbol.text.toList || earlier.text ≠ "?.") &&
    (!symbol.text.toList.isPrefixOf earlier.text.toList ||
      match earlier.text.toList.drop symbol.text.toList.length with
      | [] => false
      | c :: _ =>
        !isIdentifierStart c && !separators.contains c &&
          (front.any (fun other =>
              other.text.toList = symbol.text.toList ++ [c] && other.text ≠ "?.") ||
            symbol.text = "." && earlier.text = "..." ||
            symbol.text = "?" && earlier.text = "?."))

private theorem symbols_toldApart :
    ∀ index < symbols.length, ∀ earlier ∈ symbols.take index, ∀ symbol ∈ symbols[index]?,
      toldApart (symbols.take index) symbol earlier := by
  decide +kernel

private theorem toldApart_of_append
    {front back : List Symbol}
    {symbol earlier : Symbol}
    (isSymbols : symbols = front ++ symbol :: back)
    (isEarlier : earlier ∈ front) :
    toldApart front symbol earlier := by
  have isFront : symbols.take front.length = front := by rw [isSymbols, List.take_left]
  have isSymbol : symbols[front.length]? = some symbol := by
    rw [isSymbols, List.getElem?_append_right (Nat.le_refl _), Nat.sub_self]
    rfl
  have inside : front.length < symbols.length := by
    rw [isSymbols, List.length_append, List.length_cons]
    omega
  have told := symbols_toldApart front.length inside earlier (by rwa [isFront]) symbol isSymbol
  rwa [isFront] at told

/-- A symbol that stands at the head of a text and is not the optional chain
before a digit heads the text. -/
theorem heads_of_begins
    {symbol : Symbol}
    {text : List Char}
    (isPrefix : symbol.text.toList <+: text)
    (noDigit : symbol.text = "?." → (text.drop 2).head?.any isDigit = false) :
    symbol.heads text := by
  simp only [Symbol.heads, Bool.and_eq_true, List.isPrefixOf_iff_prefix, Bool.not_eq_true']
  refine ⟨isPrefix, ?_⟩
  by_cases isChain : symbol.text = "?."
  · rw [noDigit isChain, Bool.and_false]
  · rw [decide_eq_false isChain, Bool.false_and]

private theorem not_heads_of_alike
    {front back : List Symbol}
    {symbol earlier : Symbol}
    {rest other : List Char}
    (isSymbols : symbols = front ++ symbol :: back)
    (isEarlier : earlier ∈ front)
    (noneEarlier : ∀ earlier ∈ front, ¬ earlier.heads (symbol.text.toList ++ rest))
    (alike : Alike rest other) :
    ¬ earlier.heads (symbol.text.toList ++ other) := by
  intro heads
  have told := toldApart_of_append isSymbols isEarlier
  simp only [Symbol.heads, Bool.and_eq_true, List.isPrefixOf_iff_prefix, Bool.not_eq_true',
    Bool.and_eq_false_iff, decide_eq_false_iff_not] at heads
  simp only [toldApart, Bool.and_eq_true, Bool.or_eq_true, Bool.not_eq_true',
    decide_eq_true_eq, ← Bool.not_eq_true, List.isPrefixOf_iff_prefix] at told
  rcases List.prefix_or_prefix_of_prefix heads.1 (List.prefix_append _ other) with shorter | longer
  · exact noneEarlier earlier isEarlier (heads_of_begins
      (shorter.trans (List.prefix_append _ rest))
      (fun isChain => absurd isChain (told.1.resolve_left (not_not_intro shorter))))
  · obtain ⟨extra, isExtra⟩ := longer
    have after := told.2.resolve_left (not_not_intro ⟨extra, isExtra⟩)
    rw [← isExtra, List.drop_left] at after
    have isPrefix := heads.1
    rw [← isExtra, List.prefix_append_right_inj] at isPrefix
    cases extra with
    | nil => simp at after
    | cons c more =>
      obtain ⟨beyond, rfl⟩ := isPrefix
      simp only [Bool.and_eq_true, Bool.or_eq_true, Bool.not_eq_true', decide_eq_true_eq,
        List.any_eq_true, List.contains_eq_mem, decide_eq_false_iff_not] at after
      obtain ⟨⟨notStart, notMark⟩, told⟩ := after
      cases alike with
      | name _ starts => simp [starts] at notStart
      | separator isSeparator => exact notMark isSeparator
      | same points digits =>
        rename_i after
        rcases told with (⟨known, isKnown, isText, notChain⟩ | ⟨isPoint, isSpread⟩) |
          ⟨isQuestion, isChain⟩
        · refine noneEarlier known isKnown (heads_of_begins ?_ fun isChain => absurd isChain notChain)
          rw [isText, List.prefix_append_right_inj]
          exact ⟨after, rfl⟩
        · -- A point goes on to a spread only where two more points follow.
          rw [isPoint, isSpread] at isExtra
          obtain ⟨rfl, rfl⟩ : c = '.' ∧ more = ['.'] := by simpa using isExtra
          have second := points rfl rfl
          obtain ⟨beyond, rfl⟩ : ∃ beyond, after = '.' :: beyond := by
            cases after with
            | nil => simp at second
            | cons d beyond => exact ⟨beyond, by simpa using second⟩
          refine noneEarlier earlier isEarlier (heads_of_begins ?_ fun isChain => ?_)
          · rw [isPoint, isSpread]
            exact ⟨beyond, rfl⟩
          · simp [isChain] at isSpread
        · rw [isQuestion, isChain] at isExtra
          obtain ⟨rfl, rfl⟩ : c = '.' ∧ more = [] := by simpa using isExtra
          have noDigit := heads.2.resolve_left (not_not_intro isChain)
          rw [isQuestion] at noDigit
          refine noneEarlier earlier isEarlier (heads_of_begins ?_ fun _ => ?_)
          · rw [isQuestion, isChain]
            exact ⟨after, rfl⟩
          · rw [isQuestion]
            exact (digits rfl).symm.trans noDigit

private theorem find?_replace
    {symbol : Symbol}
    {rest other : List Char}
    (found : symbols.find? (·.heads (symbol.text.toList ++ rest)) = some symbol)
    (alike : Alike rest other) :
    symbols.find? (·.heads (symbol.text.toList ++ other)) = some symbol := by
  rw [List.find?_eq_some_iff_append] at found ⊢
  obtain ⟨heads, front, back, isSymbols, noneEarlier⟩ := found
  refine ⟨heads_of_begins (List.prefix_append _ _) fun isChain => ?_, front, back, isSymbols, ?_⟩
  · have noDigit : rest.head?.any isDigit = false := by
      simp only [Symbol.heads, isChain, Bool.and_eq_true, Bool.not_eq_true', decide_true,
        Bool.true_and] at heads
      exact heads.2
    rw [isChain]
    refine alike.head ?_ (List.all_iff_forall_prop.mp (by decide)) noDigit
    intro c starts
    exact not_isDigit_of_isIdentifierStart starts
  · intro earlier isEarlier
    have noneHeads : ∀ earlier ∈ front, ¬ earlier.heads (symbol.text.toList ++ rest) :=
      fun earlier isEarlier => by simpa using noneEarlier earlier isEarlier
    simpa using not_heads_of_alike isSymbols isEarlier noneHeads alike

/-! ## Comments before another text -/

private theorem comment?_replace
    {body rest other : List Char}
    {kind : Kind}
    (found : comment? first (body ++ rest) = some (kind, body.length))
    (ends : kind = .lineComment → other.head? = rest.head?) :
    comment? first (body ++ other) = some (kind, body.length) := by
  have isSlash : first = '/' := Decidable.byContradiction fun notSlash => by
    simp [comment?, notSlash] at found
  cases body with
  | nil =>
    simp only [comment?, isSlash, if_true] at found
    split at found
    · simp at found
    · simp at found
    · simp at found
  | cons second body =>
    by_cases isLine : second = '/'
    · simp only [comment?, isSlash, isLine, if_true, List.cons_append, Option.some.injEq,
        Prod.mk.injEq, List.length_cons] at found ⊢
      have taken : ((body ++ rest).takeWhile (· ≠ '\n')).length = body.length := by omega
      have stopped := head?_of_takeWhile taken
      rw [← ends found.1.symm] at stopped
      have again := length_takeWhile_replace taken stopped
      exact ⟨found.1, by omega⟩
    · by_cases isBlock : second = '*'
      · simp only [comment?, isSlash, isBlock, if_true, List.cons_append,
          Option.map_eq_some_iff, Prod.mk.injEq, List.length_cons] at found ⊢
        obtain ⟨extent, isExtent, isKind, size⟩ := found
        obtain rfl : extent = body.length := by omega
        exact ⟨_, blockCommentExtent?_replace isExtent other, isKind, size⟩
      · simp [comment?, isSlash, isLine, isBlock] at found

private theorem comment?_eq_none_of_alike
    {body rest other : List Char}
    (none : comment? first (body ++ rest) = none)
    (notBlock : first = '/' → (body ++ rest).head? ≠ some '*')
    (alike : Alike rest other) :
    comment? first (body ++ other) = Option.none := by
  by_cases isSlash : first = '/'
  · have notLine : (body ++ rest).head? ≠ some '/' := by
      intro isLine
      obtain ⟨more, isMore⟩ := List.head?_eq_some_iff.mp isLine
      simp [comment?, isSlash, isMore] at none
    have notMark : ∀ c, c = '/' ∨ c = '*' → (body ++ other).head? ≠ some c := by
      intro c isMark isHead
      cases body with
      | nil =>
        obtain ⟨more, isOther⟩ := List.head?_eq_some_iff.mp isHead
        rcases isMark with rfl | rfl
        · exact notLine (alike.ne_of_start (by decide) (by decide) isOther)
        · exact notBlock isSlash (alike.ne_of_start (by decide) (by decide) isOther)
      | cons d body =>
        rcases isMark with rfl | rfl
        · exact notLine isHead
        · exact notBlock isSlash isHead
    simp only [comment?, isSlash, if_true]
    split
    · rename_i isMore
      exact absurd (by rw [isMore]; rfl) (notMark '/' (.inl rfl))
    · rename_i isMore
      exact absurd (by rw [isMore]; rfl) (notMark '*' (.inr rfl))
    · rfl
  · simp [comment?, isSlash]

private theorem CodeStep.comment_of_lineComment
    {taken : Step}
    (isStep : CodeStep nest slash first rest taken)
    (isComment : taken.kind = .lineComment) :
    comment? first rest = some (.lineComment, taken.tail) := by
  cases isStep with
  | comment _ found => exact isComment ▸ found
  | quoted _ found =>
    rcases (kind_of_quoted? found).1 with rfl | rfl <;> simp at isComment
  | word _ found =>
    rcases kind_of_word? found with rfl | ⟨rfl, -⟩ <;> simp at isComment
  | symbol _ found =>
    rcases kind_of_symbol (List.mem_of_find?_eq_some found) with isKind | isKind <;>
      simp [isKind] at isComment
  | brace _ found =>
    rcases cases_of_brace? found with ⟨isKind, -⟩ | ⟨outer, -, -, rfl⟩
    · simp [isKind] at isComment
    · simp at isComment
  | _ => simp at isComment

/-- Only a line feed comes after a line comment. -/
theorem lineFeed_of_lineComment
    {body rest : List Char}
    {c : Char}
    {next : State}
    (isStep : codeStep nest slash first (body ++ c :: rest) = ⟨.lineComment, body.length, next⟩) :
    c = '\n' := by
  have spec := codeStep_spec nest slash first (body ++ c :: rest)
  rw [isStep] at spec
  have found := spec.comment_of_lineComment rfl
  have isSlash : first = '/' := Decidable.byContradiction fun notSlash => by
    simp [comment?, notSlash] at found
  simp only [comment?, isSlash, if_true] at found
  split at found
  · rename_i more isMore
    cases body with
    | nil => simp at found
    | cons second body =>
      rw [List.cons_append, List.cons.injEq] at isMore
      obtain rfl := isMore.2
      have taken : ((body ++ c :: rest).takeWhile (· ≠ '\n')).length = body.length := by
        simp only [Option.some.injEq, Prod.mk.injEq, List.length_cons] at found
        omega
      simpa using head?_of_takeWhile taken
  · simp at found
  · simp at found

/-! ## A lexeme before another text -/

/-- Whether a lexeme is complete in its own text: it is not stray, a slash that
could open a comment or a pattern does so, and nothing that could belong to a
name follows a number, a keyword or a pattern directly. -/
def settled (slash : Slash) (first : Char) (rest : List Char) (kind : Kind) (tail : Nat) : Bool :=
  kind ≠ .stray &&
    (first ≠ '/' || rest.head? ≠ some '*' || kind = .blockComment) &&
    (first ≠ '/' || slash = .divides || kind ≠ .operator) &&
    (!([.number, .keyword, .pattern].contains kind) || stops (rest.drop tail))

section Replace

variable
  {body other : List Char}
  {kind : Kind}
  (isSettled : settled slash first (body ++ rest) kind body.length)

include isSettled

private theorem stops_of_settled (runsOn : kind = .number ∨ kind = .keyword ∨ kind = .pattern) :
    stops rest := by
  simp only [settled, Bool.and_eq_true, Bool.or_eq_true, List.drop_left] at isSettled
  rcases runsOn with rfl | rfl | rfl <;> simpa using isSettled.2

private theorem not_block_of_settled (notComment : kind ≠ .blockComment) :
    first = '/' → (body ++ rest).head? ≠ some '*' := by
  intro isSlash
  simp only [settled, Bool.and_eq_true, Bool.or_eq_true, decide_eq_true_eq] at isSettled
  exact (isSettled.1.1.2.resolve_right notComment).resolve_left (not_not_intro isSlash)

private theorem divides_of_settled (isOperator : kind = .operator) (isSlash : first = '/') :
    slash = .divides := by
  simp only [settled, Bool.and_eq_true, Bool.or_eq_true, decide_eq_true_eq] at isSettled
  exact (isSettled.1.2.resolve_right (not_not_intro isOperator)).resolve_left
    (not_not_intro isSlash)

/-- A settled lexeme is read again before a text that goes on alike, with any
holes around it. -/
theorem codeStep_replace
    {inner : Nest}
    {next : Slash}
    (isStep : codeStep nest slash first (body ++ rest) = ⟨kind, body.length, .code inner next⟩)
    (alike : Alike rest other)
    (ends : kind = .lineComment → other.head? = rest.head?)
    (noBrace : first ≠ '\x7b' ∧ first ≠ '\x7d')
    (around : Nest) :
    codeStep around slash first (body ++ other) = ⟨kind, body.length, .code around next⟩ := by
  have spec := codeStep_spec nest slash first (body ++ rest)
  generalize isTaken : codeStep nest slash first (body ++ rest) = taken at spec isStep
  cases spec with
  | blank blank =>
    simp only [Step.mk.injEq, State.code.injEq] at isStep
    obtain ⟨rfl, taken, rfl, rfl⟩ := isStep
    have stopped : other.head?.any isBlank = false := by
      refine alike.head ?_ (List.all_iff_forall_prop.mp (by decide)) (head?_of_takeWhile taken)
      intro c starts
      simpa using not_isBlank_of_isIdentifierPart (isIdentifierPart_of_isIdentifierStart starts)
    rw [codeStep_of_blank blank, length_takeWhile_replace taken stopped]
  | comment inked found =>
    simp only [Step.mk.injEq, State.code.injEq] at isStep
    obtain ⟨rfl, rfl, rfl, rfl⟩ := isStep
    exact codeStep_of_comment (comment?_replace found ends)
  | pattern inked found =>
    simp only [Step.mk.injEq, State.code.injEq] at isStep
    obtain ⟨rfl, rfl, rfl, rfl⟩ := isStep
    have noComment : comment? first (body ++ rest) = none := by
      cases isComment : comment? first (body ++ rest) with
      | none => rfl
      | some pair =>
        rw [codeStep_of_comment isComment] at isTaken
        have trivia := isTrivia_of_comment? isComment
        simp only [Step.mk.injEq] at isTaken
        simp [isTaken.1, Kind.isTrivia] at trivia
    have stopped := alike.stops (stops_of_settled isSettled (.inr (.inr rfl)))
    have noFlag : other.head?.any Char.isLower = false :=
      head?_of_stops (fun c isLower => isIdentifierPart_of_isLower isLower) stopped
    have again : pattern? slash first (body ++ other) = some body.length := by
      simp only [pattern?] at found ⊢
      split at found
      · rw [if_pos ‹_›]
        exact patternExtent?_replace noFlag body false found
      · simp at found
    exact codeStep_of_pattern (comment?_eq_none_of_alike noComment
      (not_block_of_settled isSettled (by decide)) alike) again
  | templateOpen => simp at isStep
  | quoted inked found =>
    simp only [Step.mk.injEq, State.code.injEq] at isStep
    obtain ⟨rfl, rfl, rfl, rfl⟩ := isStep
    obtain ⟨-, isQuote, isExtent⟩ := kind_of_quoted? found
    have again := (quotedExtent?_append_iff other).mpr ((quotedExtent?_append_iff rest).mp isExtent)
    apply codeStep_of_quoted
    rcases isQuote with rfl | rfl <;> simpa [quoted?, isExtent, again] using found
  | number inked found =>
    simp only [Step.mk.injEq, State.code.injEq] at isStep
    obtain ⟨rfl, rfl, rfl, rfl⟩ := isStep
    have stopped := stops_of_settled isSettled (.inl rfl)
    refine codeStep_of_number
      (numberExtent?_replace stopped (alike.stops stopped) (fun isPoint => ?_) found)
    obtain ⟨more, isOther⟩ := List.head?_eq_some_iff.mp isPoint
    exact alike.ne_of_start (by decide) (by decide) isOther
  | word inked found =>
    simp only [Step.mk.injEq, State.code.injEq] at isStep
    obtain ⟨rfl, rfl, rfl, rfl⟩ := isStep
    have stopped : stops rest := by
      rcases kind_of_word? found with rfl | ⟨rfl, -, taken⟩
      · exact stops_of_settled isSettled (.inr (.inl rfl))
      · simpa [stops] using head?_of_takeWhile taken.symm
    refine codeStep_of_word ?_
    rw [word?_append (alike.stops stopped), ← word?_append stopped]
    exact found
  | symbol inked found =>
    rename_i symbol
    simp only [Step.mk.injEq, State.code.injEq] at isStep
    obtain ⟨rfl, size, rfl, rfl⟩ := isStep
    have listed := List.mem_of_find?_eq_some found
    have isText := text_of_find? found size
    obtain ⟨noComment, noNumber⟩ := none_of_symbol isTaken listed
    have noNumberHere : numberExtent? first (body ++ other) = none := by
      refine numberExtent?_of_not_digit (not_isDigit_of_symbol found) ?_
      intro isPoint
      have noDigit := not_digit_of_point isPoint noNumber
      cases body with
      | nil =>
        exact alike.head (fun c => not_isDigit_of_isIdentifierStart)
          (List.all_iff_forall_prop.mp (by decide)) noDigit
      | cons d body => exact noDigit
    have noCommentHere : comment? first (body ++ other) = none := by
      refine comment?_eq_none_of_alike noComment (not_block_of_settled isSettled ?_) alike
      rcases kind_of_symbol listed with isKind | isKind <;> simp [isKind]
    have noPatternHere : pattern? slash first (body ++ other) = none := by
      by_cases isSlash : first = '/'
      · have isOperator := operator_of_slash found isSlash
        simp [pattern?, divides_of_settled isSettled isOperator isSlash]
      · simp [pattern?, isSlash]
    have foundHere : symbols.find? (·.heads (first :: (body ++ other))) = some symbol := by
      rw [← List.cons_append, ← isText] at found ⊢
      exact find?_replace found alike
    rw [codeStep_of_symbol noCommentHere noPatternHere noNumberHere foundHere, size]
  | brace inked found => simp [brace?, noBrace] at found
  | stray inked =>
    simp only [Step.mk.injEq] at isStep
    simp [settled, ← isStep.1] at isSettled

end Replace

/-- A piece of the text of a template is read again before a text with the same
first character, with any holes around it. -/
theorem templateStep_replace
    {body rest other : List Char}
    (isStep : templateStep nest first (body ++ rest) = ⟨.templateText, body.length, .template nest⟩)
    (sameHead : other.head? = rest.head?)
    (around : Nest) :
    templateStep around first (body ++ other) =
      ⟨.templateText, body.length, .template around⟩ := by
  unfold templateStep at isStep ⊢
  split at isStep
  · simp at isStep
  rw [if_neg ‹_›]
  split at isStep
  · rw [if_pos ‹_›]
    split at isStep
    · simp at isStep
    · rename_i noBrace
      simp only [Step.mk.injEq] at isStep
      obtain rfl := List.length_eq_zero_iff.mp isStep.2.1.symm
      rw [List.nil_append, sameHead, ← List.nil_append rest, if_neg noBrace]
      rfl
  rw [if_neg ‹_›]
  split at isStep
  · rw [if_pos ‹_›]
    split at isStep
    · simp at isStep
    · have size : 1 = body.length := by simpa using isStep
      have nonempty : ¬ (body ++ other).isEmpty := by
        cases body with
        | nil => simp at size
        | cons c body => simp
      rw [if_neg nonempty, ← size]
  · rw [if_neg ‹_›]
    have taken : ((body ++ rest).takeWhile isTemplateText).length = body.length := by
      simpa using isStep
    have stopped := head?_of_takeWhile taken
    rw [← sameHead] at stopped
    rw [length_takeWhile_replace taken stopped]

end Restyle.Lexeme
