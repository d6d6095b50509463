import Restyle.Lexeme.Scan
import Restyle.Text

/-!
Contract: what a step of the scanner can do, said once.

Owns: `CodeStep`, the cases of a step in code, one for each lexical form;
`CodeEffect`, what such a step does to the nest; where a lexeme of a scan comes
from; and the spelling of identifiers and quoted strings.

Proofs about the scanner use these statements and never open `codeStep`.
-/

namespace Restyle.Lexeme

open Restyle.Text

def Kind.isAtom : Kind → Bool
  | .pattern | .doubleQuoted | .singleQuoted | .number | .keyword | .identifier
  | .punctuator | .operator | .stray => true
  | _ => false

def Nest.depth : Nest → Nat
  | .module => 0
  | .hole _ outer => outer.depth + 1

/-! ## Steps in code -/

/-- The steps in code.  Every form but the first begins with a character that is
not blank. -/
inductive CodeStep (nest : Nest) (slash : Slash) (first : Char) (rest : List Char) : Step → Prop
    where
  | blank (blank : isBlank first) :
      CodeStep nest slash first rest ⟨.blank, (rest.takeWhile isBlank).length, .code nest slash⟩
  | comment {kind : Kind} {tail : Nat} (inked : ¬ isBlank first)
      (found : comment? first rest = some (kind, tail)) :
      CodeStep nest slash first rest ⟨kind, tail, .code nest slash⟩
  | pattern {tail : Nat} (inked : ¬ isBlank first)
      (found : pattern? slash first rest = some tail) :
      CodeStep nest slash first rest ⟨.pattern, tail, .code nest .divides⟩
  | templateOpen (marks : first = '`') :
      CodeStep nest slash first rest ⟨.templateOpen, 0, .template nest⟩
  | quoted {kind : Kind} {tail : Nat} (inked : ¬ isBlank first)
      (found : quoted? first rest = some (kind, tail)) :
      CodeStep nest slash first rest ⟨kind, tail, .code nest .divides⟩
  | number {tail : Nat} (inked : ¬ isBlank first)
      (found : numberExtent? first rest = some tail) :
      CodeStep nest slash first rest ⟨.number, tail, .code nest .divides⟩
  | word {kind : Kind} {tail : Nat} (inked : ¬ isBlank first)
      (found : word? first rest = some (kind, tail)) :
      CodeStep nest slash first rest
        ⟨kind, tail, .code nest (if kind = .keyword then .opensPattern else .divides)⟩
  | symbol {symbol : Symbol} (inked : ¬ isBlank first)
      (found : symbols.find? (·.heads (first :: rest)) = some symbol) :
      CodeStep nest slash first rest
        ⟨symbol.kind, symbol.text.length - 1, .code nest symbol.slash⟩
  | brace {taken : Step} (inked : ¬ isBlank first) (found : brace? nest first = some taken) :
      CodeStep nest slash first rest taken
  | stray (inked : ¬ isBlank first) :
      CodeStep nest slash first rest ⟨.stray, 0, .code nest .divides⟩

theorem codeStep_spec (nest : Nest) (slash : Slash) (first : Char) (rest : List Char) :
    CodeStep nest slash first rest (codeStep nest slash first rest) := by
  unfold codeStep
  split
  · exact .blank ‹_›
  rename_i inked
  split
  · exact .comment inked ‹_›
  split
  · exact .pattern inked ‹_›
  split
  · exact .templateOpen ‹_›
  split
  · exact .quoted inked ‹_›
  split
  · exact .number inked ‹_›
  split
  · exact .word inked ‹_›
  split
  · exact .symbol inked ‹_›
  split
  · exact .brace inked ‹_›
  · exact .stray inked

/-! ## Kinds of the forms -/

theorem isTrivia_of_comment?
    {first : Char}
    {rest : List Char}
    {kind : Kind}
    {tail : Nat}
    (found : comment? first rest = some (kind, tail)) :
    kind.isTrivia := by
  unfold comment? at found
  split at found
  · split at found
    · simp only [Option.some.injEq, Prod.mk.injEq] at found
      rw [← found.1]
      rfl
    · obtain ⟨extent, _, isPair⟩ := Option.map_eq_some_iff.mp found
      simp only [Prod.mk.injEq] at isPair
      rw [← isPair.1]
      rfl
    · simp at found
  · simp at found

theorem kind_of_quoted?
    {first : Char}
    {rest : List Char}
    {kind : Kind}
    {tail : Nat}
    (found : quoted? first rest = some (kind, tail)) :
    (kind = .doubleQuoted ∨ kind = .singleQuoted) ∧ (first = '"' ∨ first = '\'') ∧
      quotedExtent? first rest = some tail := by
  unfold quoted? at found
  split at found
  · rename_i isQuote
    subst isQuote
    obtain ⟨extent, isExtent, isPair⟩ := Option.map_eq_some_iff.mp found
    simp only [Prod.mk.injEq] at isPair
    exact ⟨.inl isPair.1.symm, .inl rfl, by rw [isExtent, isPair.2]⟩
  · split at found
    · rename_i isQuote
      subst isQuote
      obtain ⟨extent, isExtent, isPair⟩ := Option.map_eq_some_iff.mp found
      simp only [Prod.mk.injEq] at isPair
      exact ⟨.inr isPair.1.symm, .inr rfl, by rw [isExtent, isPair.2]⟩
    · simp at found

theorem kind_of_word?
    {first : Char}
    {rest : List Char}
    {kind : Kind}
    {tail : Nat}
    (found : word? first rest = some (kind, tail)) :
    kind = .keyword ∨
      kind = .identifier ∧ isIdentifierStart first ∧
        tail = (rest.takeWhile isIdentifierPart).length := by
  unfold word? at found
  simp only at found
  split at found
  · simp only [Option.some.injEq, Prod.mk.injEq] at found
    exact .inl found.1.symm
  · split at found
    · rename_i starts
      simp only [Option.some.injEq, Prod.mk.injEq] at found
      exact .inr ⟨found.1.symm, starts, found.2.symm⟩
    · simp at found

theorem kind_of_symbol {symbol : Symbol} (listed : symbol ∈ symbols) :
    symbol.kind = .punctuator ∨ symbol.kind = .operator := by
  have all : symbols.all (fun symbol => symbol.kind = .punctuator || symbol.kind = .operator) := by
    decide
  simpa using List.all_eq_true.mp all symbol listed

/-- A brace is a punctuator that leaves the depth as it is, or ends a hole. -/
theorem cases_of_brace?
    {nest : Nest}
    {first : Char}
    {taken : Step}
    (found : brace? nest first = some taken) :
    (taken.kind = .punctuator ∧ ∃ inner slash, taken.next = .code inner slash ∧
      inner.depth = nest.depth) ∨
    (∃ outer, nest = .hole 0 outer ∧ first = '}' ∧ taken = ⟨.holeClose, 0, .template outer⟩) := by
  unfold brace? at found
  split at found
  · split at found
    · simp only [Option.some.injEq] at found
      exact .inl ⟨by rw [← found], .module, .opensPattern, by rw [← found], rfl⟩
    · rename_i braces outer
      simp only [Option.some.injEq] at found
      exact .inl ⟨by rw [← found], .hole (braces + 1) outer, .opensPattern, by rw [← found], rfl⟩
  · split at found
    · split at found
      · simp only [Option.some.injEq] at found
        exact .inl ⟨by rw [← found], .module, .divides, by rw [← found], rfl⟩
      · rename_i braces outer
        simp only [Option.some.injEq] at found
        exact .inl ⟨by rw [← found], .hole braces outer, .divides, by rw [← found], rfl⟩
      · rename_i outer
        simp only [Option.some.injEq] at found
        exact .inr ⟨outer, rfl, ‹_›, found.symm⟩
    · simp at found

/-! ## What a step does to the nest -/

/-- What a step in code does, told from its lexeme: trivia and atoms stay in
code of the same depth, a backtick enters a template, and a closing brace may
return to one. -/
inductive CodeEffect (nest : Nest) (first : Char) (taken : Step) : Prop where
  | trivia (kind : taken.kind.isTrivia) {slash : Slash} (next : taken.next = .code nest slash)
  | atom (kind : taken.kind.isAtom) (inked : ¬ isBlank first) {inner : Nest} {slash : Slash}
      (next : taken.next = .code inner slash) (depth : inner.depth = nest.depth)
  | templateOpen (marks : first = '`') (isStep : taken = ⟨.templateOpen, 0, .template nest⟩)
  | holeClose {outer : Nest} (isNest : nest = .hole 0 outer) (marks : first = '}')
      (isStep : taken = ⟨.holeClose, 0, .template outer⟩)

theorem CodeStep.effect
    {nest : Nest}
    {slash : Slash}
    {first : Char}
    {rest : List Char}
    {taken : Step}
    (isStep : CodeStep nest slash first rest taken) :
    CodeEffect nest first taken := by
  cases isStep with
  | blank _ => exact .trivia rfl rfl
  | comment _ found => exact .trivia (isTrivia_of_comment? found) rfl
  | pattern inked _ => exact .atom rfl inked rfl rfl
  | templateOpen marks => exact .templateOpen marks rfl
  | quoted inked found =>
    have kind := (kind_of_quoted? found).1
    exact .atom (by rcases kind with rfl | rfl <;> rfl) inked rfl rfl
  | number inked _ => exact .atom rfl inked rfl rfl
  | word inked found =>
    have kind := kind_of_word? found
    exact .atom (by rcases kind with rfl | ⟨rfl, _⟩ <;> rfl) inked rfl rfl
  | symbol inked found =>
    have kind := kind_of_symbol (List.mem_of_find?_eq_some found)
    refine .atom ?_ inked rfl rfl
    rcases kind with isKind | isKind <;> rw [isKind] <;> rfl
  | brace inked found =>
    rcases cases_of_brace? found with
      ⟨kind, inner, slash, next, depth⟩ | ⟨outer, isNest, marks, isStep⟩
    · exact .atom (by rw [kind]; rfl) inked next depth
    · exact .holeClose isNest marks isStep
  | stray inked => exact .atom rfl inked rfl rfl

/-! ## Lexemes of a scan -/

/-- A lexeme of a scan is what a step takes from the text at its offset. -/
theorem exists_step_of_mem_scanFrom
    {state : State}
    {start : Nat}
    {text : List Char}
    {lexeme : Lexeme}
    (member : lexeme ∈ scanFrom state start text) :
    ∃ (before : List Char) (current : State) (first : Char) (rest : List Char),
      text = before ++ first :: rest ∧ lexeme.start = start + before.length ∧
        lexeme.kind = (step current first rest).kind ∧
        lexeme.text.toList = first :: rest.take (step current first rest).tail := by
  fun_induction scanFrom state start text with
  | case1 => simp at member
  | case2 state start first rest taken own rest_ih =>
    rcases List.mem_cons.mp member with rfl | later
    · exact ⟨[], state, first, rest, rfl, rfl, rfl, by simp [own, taken]⟩
    · obtain ⟨before, current, head, tail, split, isStart, kind, spelled⟩ := rest_ih later
      refine ⟨first :: rest.take taken.tail ++ before, current, head, tail, ?_, ?_, kind, spelled⟩
      · rw [List.append_assoc, ← split, List.cons_append, List.take_append_drop]
      · rw [isStart]
        simp only [stop, own, String.length_ofList, List.length_append, List.length_cons]
        omega

/-- A lexeme of a scan stands in the text at its offset. -/
theorem slice_of_mem_scanFrom
    {state : State}
    {source : List Char}
    {lexeme : Lexeme}
    (member : lexeme ∈ scanFrom state 0 source) :
    slice source lexeme.start lexeme.stop = lexeme.text.toList ∧
      lexeme.start < lexeme.stop ∧ lexeme.stop ≤ source.length := by
  obtain ⟨before, current, first, rest, split, isStart, _, spelled⟩ :=
    exists_step_of_mem_scanFrom member
  generalize (step current first rest).tail = tail at spelled
  have length : lexeme.text.length = min tail rest.length + 1 := by
    rw [← String.length_toList, spelled, List.length_cons, List.length_take]
  rw [Nat.zero_add] at isStart
  refine ⟨?_, ?_, ?_⟩
  · rw [slice, stop, isStart, List.drop_take, Nat.add_sub_cancel_left, split, List.drop_left,
      length, spelled, List.take_succ_cons]
    simp
  · rw [stop, length]
    omega
  · rw [stop, isStart, length, split, List.length_append, List.length_cons]
    omega

/-- The step that gives an undivided lexeme was made in code, or is a stray
character in a template. -/
theorem codeStep_of_kind
    (state : State)
    (first : Char)
    (rest : List Char)
    (isAtom : (step state first rest).kind.isAtom)
    (notStray : (step state first rest).kind ≠ .stray) :
    ∃ nest slash, CodeStep nest slash first rest (step state first rest) := by
  cases state with
  | code nest slash => exact ⟨nest, slash, codeStep_spec nest slash first rest⟩
  | template nest =>
    simp only [step, templateStep] at isAtom notStray
    split at isAtom
    · simp [Kind.isAtom] at isAtom
    · split at isAtom
      · split at isAtom <;> simp [Kind.isAtom] at isAtom
      · split at isAtom
        · split at isAtom
          · simp_all
          · simp [Kind.isAtom] at isAtom
        · simp [Kind.isAtom] at isAtom

/-! ## Spellings -/

/-- Only the reading of words gives identifiers and keywords. -/
theorem CodeStep.found_of_word
    {nest : Nest}
    {slash : Slash}
    {first : Char}
    {rest : List Char}
    {taken : Step}
    (isStep : CodeStep nest slash first rest taken)
    (isWord : taken.kind = .identifier ∨ taken.kind = .keyword) :
    word? first rest = some (taken.kind, taken.tail) := by
  cases isStep with
  | word _ found => exact found
  | comment _ found =>
    have trivia := isTrivia_of_comment? found
    rcases isWord with isKind | isKind <;> simp only at isKind <;>
      simp [isKind, Kind.isTrivia] at trivia
  | quoted _ found =>
    have kind := (kind_of_quoted? found).1
    rcases isWord with isKind | isKind <;> simp only at isKind <;> simp [isKind] at kind
  | symbol _ found =>
    have kind := kind_of_symbol (List.mem_of_find?_eq_some found)
    rcases isWord with isKind | isKind <;> simp only at isKind <;> simp [isKind] at kind
  | brace _ found =>
    rcases cases_of_brace? found with ⟨kind, _⟩ | ⟨_, _, _, rfl⟩
    · simp [kind] at isWord
    · simp at isWord
  | _ => simp at isWord

theorem CodeStep.word_of_identifier
    {nest : Nest}
    {slash : Slash}
    {first : Char}
    {rest : List Char}
    {taken : Step}
    (isStep : CodeStep nest slash first rest taken)
    (isIdentifier : taken.kind = .identifier) :
    isIdentifierStart first ∧ taken.tail = (rest.takeWhile isIdentifierPart).length := by
  rcases kind_of_word? (isStep.found_of_word (.inl isIdentifier)) with isKeyword | ⟨_, starts, isTail⟩
  · simp [isIdentifier] at isKeyword
  · exact ⟨starts, isTail⟩

/-- Only the reading of quotes gives strings. -/
theorem CodeStep.quoted_of_string
    {nest : Nest}
    {slash : Slash}
    {first : Char}
    {rest : List Char}
    {taken : Step}
    (isStep : CodeStep nest slash first rest taken)
    (isString : taken.kind = .doubleQuoted ∨ taken.kind = .singleQuoted) :
    (first = '"' ∨ first = '\'') ∧ quotedExtent? first rest = some taken.tail := by
  cases isStep with
  | quoted _ found => exact (kind_of_quoted? found).2
  | comment _ found =>
    have trivia := isTrivia_of_comment? found
    rcases isString with isKind | isKind <;> simp only at isKind <;>
      simp [isKind, Kind.isTrivia] at trivia
  | word _ found =>
    rcases kind_of_word? found with rfl | ⟨rfl, _⟩ <;> simp at isString
  | symbol _ found =>
    have kind := kind_of_symbol (List.mem_of_find?_eq_some found)
    rcases isString with isKind | isKind <;> simp only at isKind <;> simp [isKind] at kind
  | brace _ found =>
    rcases cases_of_brace? found with ⟨kind, _⟩ | ⟨_, _, _, rfl⟩
    · simp [kind] at isString
    · simp at isString
  | _ => simp at isString

/-- An identifier is a character that may begin one, then characters that may
continue one. -/
theorem spelling_of_identifier
    {state : State}
    {start : Nat}
    {text : List Char}
    {lexeme : Lexeme}
    (member : lexeme ∈ scanFrom state start text)
    (isIdentifier : lexeme.kind = .identifier) :
    ∃ first more, lexeme.text.toList = first :: more ∧ isIdentifierStart first ∧
      ∀ c ∈ more, isIdentifierPart c := by
  obtain ⟨_, current, first, rest, _, _, kind, spelled⟩ := exists_step_of_mem_scanFrom member
  rw [isIdentifier] at kind
  obtain ⟨_, _, isStep⟩ := codeStep_of_kind current first rest (by rw [← kind]; rfl)
    (by rw [← kind]; simp)
  obtain ⟨starts, isTail⟩ := isStep.word_of_identifier kind.symm
  refine ⟨first, _, spelled, starts, ?_⟩
  rw [isTail, ← List.prefix_iff_eq_take.mp (List.takeWhile_prefix _)]
  exact List.all_eq_true.mp List.all_takeWhile

/-- An undivided lexeme that is not stray begins with a character that is not
blank. -/
theorem inked_of_atom
    {state : State}
    {start : Nat}
    {text : List Char}
    {lexeme : Lexeme}
    (member : lexeme ∈ scanFrom state start text)
    (isAtom : lexeme.kind.isAtom)
    (notStray : lexeme.kind ≠ .stray) :
    ∃ first more, lexeme.text.toList = first :: more ∧ ¬ isBlank first := by
  obtain ⟨_, current, first, rest, _, _, kind, spelled⟩ := exists_step_of_mem_scanFrom member
  rw [kind] at isAtom notStray
  obtain ⟨_, _, isStep⟩ := codeStep_of_kind current first rest isAtom notStray
  refine ⟨first, _, spelled, ?_⟩
  cases isStep.effect with
  | trivia isTrivia _ =>
    cases isKind : (step current first rest).kind <;>
      simp [isKind, Kind.isAtom, Kind.isTrivia] at isAtom isTrivia
  | atom _ inked _ _ => exact inked
  | templateOpen _ isOpen => simp [isOpen, Kind.isAtom] at isAtom
  | holeClose _ _ isClose => simp [isClose, Kind.isAtom] at isAtom

/-- Whether every backslash has a character after it that it escapes. -/
def escapesAreWhole : List Char → Bool
  | [] => true
  | [c] => c ≠ '\\'
  | c :: d :: rest => if c = '\\' then escapesAreWhole rest else escapesAreWhole (d :: rest)

/-- What a quoted string takes ends with its quote, and what stands before that
holds whole escapes. -/
theorem take_of_quotedExtent?
    {quote : Char}
    {rest : List Char}
    {extent : Nat}
    (found : quotedExtent? quote rest = some extent) :
    ∃ body, rest.take extent = body ++ [quote] ∧ escapesAreWhole body := by
  fun_induction quotedExtent? quote rest generalizing extent with
  | case1 => simp at found
  | case2 =>
    simp only [Option.some.injEq] at found
    exact ⟨[], by simp [← found], rfl⟩
  | case3 => simp at found
  | case4 next rest =>
    simp only [Option.some.injEq] at found
    exact ⟨[], by simp [← found], rfl⟩
  | case5 => simp at found
  | case6 next rest _ _ inductionHypothesis =>
    obtain ⟨inner, isInner, rfl⟩ := Option.map_eq_some_iff.mp found
    obtain ⟨body, spelled, whole⟩ := inductionHypothesis isInner
    refine ⟨'\\' :: next :: body, by simp [spelled], ?_⟩
    simpa [escapesAreWhole] using whole
  | case7 c next rest _ _ noEscape inductionHypothesis =>
    obtain ⟨inner, isInner, rfl⟩ := Option.map_eq_some_iff.mp found
    obtain ⟨body, spelled, whole⟩ := inductionHypothesis isInner
    refine ⟨c :: body, by simp [spelled], ?_⟩
    cases body with
    | nil => simpa [escapesAreWhole] using noEscape
    | cons other more => simpa [escapesAreWhole, noEscape] using whole

/-- A string is its quote, a text of whole escapes, and its quote again. -/
theorem spelling_of_string
    {state : State}
    {start : Nat}
    {text : List Char}
    {lexeme : Lexeme}
    (member : lexeme ∈ scanFrom state start text)
    (isString : lexeme.kind = .doubleQuoted ∨ lexeme.kind = .singleQuoted) :
    ∃ quote body, (quote = '"' ∨ quote = '\'') ∧
      lexeme.text.toList = quote :: body ++ [quote] ∧ escapesAreWhole body := by
  obtain ⟨_, current, first, rest, _, _, kind, spelled⟩ := exists_step_of_mem_scanFrom member
  rw [kind] at isString
  obtain ⟨_, _, isStep⟩ := codeStep_of_kind current first rest
    (by rcases isString with isKind | isKind <;> rw [isKind] <;> rfl)
    (by rcases isString with isKind | isKind <;> rw [isKind] <;> simp)
  obtain ⟨isQuote, found⟩ := isStep.quoted_of_string isString
  obtain ⟨body, taken, whole⟩ := take_of_quotedExtent? found
  exact ⟨first, body, isQuote, by rw [spelled, taken]; rfl, whole⟩

end Restyle.Lexeme
