import Mathlib.Data.List.Forall2
import Restyle.Lexeme.Scan
import Restyle.Proofs.Lexeme.Extent
import Restyle.Proofs.Lexeme.Regex

/-!
Contract: the lexical rules of the language as tables of regular expressions.

Owns: `Mode`, what the rules depend on; `Rule`, a regular expression with the kind
of its lexeme and its effect on the modes; `Mode.rules`, the rules of each mode in
the order in which they are tried; and what the first rule that matches finds, in
terms of the forms of the scanner.
-/

namespace Restyle.Lexeme

open Restyle.Text

/-! ## Rules -/

/-- What is being read: the module, the text of a template, the code of a hole,
code between braces in a hole, or code where a slash would open a pattern. -/
inductive Mode where
  | module
  | template
  | hole
  | brace
  | slash
deriving DecidableEq, Repr

/-- What a rule does to the modes that have been entered: it leaves them, returns
from the current one, or enters some more, the last of them to be the current. -/
inductive Effect where
  | stay
  | pop
  | push (modes : List Mode)
deriving DecidableEq, Repr

/-- A lexical rule.  Without a kind it gives no lexeme. -/
structure Rule where
  regex : Regex
  kind : Option Kind
  effect : Effect

/-- What a rule finds at the head of a text, and what it leaves of the text. -/
structure Found where
  kind : Option Kind
  effect : Effect
  rest : List Char

/-- What a rule finds at the head of a text. -/
def Rule.find? (rule : Rule) (text : List Char) : Option Found :=
  (rule.regex.rest? text).map (⟨rule.kind, rule.effect, ·⟩)

/-- What the first rule that matches finds at the head of a text. -/
def firstMatch? (rules : List Rule) (text : List Char) : Option Found :=
  rules.findSome? (·.find? text)

theorem firstMatch?_append (rules others : List Rule) (text : List Char) :
    firstMatch? (rules ++ others) text = (firstMatch? rules text).or (firstMatch? others text) :=
  List.findSome?_append

private theorem firstMatch?_cons (rule : Rule) (others : List Rule) (text : List Char) :
    firstMatch? (rule :: others) text = (rule.find? text).or (firstMatch? others text) := by
  rw [firstMatch?, List.findSome?_cons]
  cases rule.find? text <;> rfl

private theorem firstMatch?_nil (text : List Char) : firstMatch? [] text = none :=
  rfl

/-! ## Blanks and comments -/

def blockEnd : Regex :=
  .seq (.lazyMany (.one fun _ => true)) (.chars ['*', '/'])

def triviaRules : List Rule :=
  [⟨.plus (.one isBlank), some .blank, .stay⟩,
    ⟨.seq (.chars ['/', '/']) (.many (.one (· ≠ '\n'))), some .lineComment, .stay⟩,
    ⟨.seq (.chars ['/', '*']) blockEnd, some .blockComment, .stay⟩]

private theorem rest?_blockEnd (text : List Char) :
    blockEnd.rest? text = (blockCommentExtent? text).map text.drop := by
  have goesOn := fun text => Regex.rest?_lazyMany_seq text (Regex.takes_one fun _ => true)
    (.chars ['*', '/'])
  fun_induction blockCommentExtent? text with
  | case1 more =>
    rw [blockEnd, goesOn, Regex.rest?_chars]
    rfl
  | case2 c more notClosing inductionHypothesis =>
    have noMatch : ¬ ['*', '/'].isPrefixOf (c :: more) := by
      intro isPrefix
      obtain ⟨left, isText⟩ := List.isPrefixOf_iff_prefix.mp isPrefix
      obtain ⟨rfl, rfl⟩ := List.cons.inj isText
      exact notClosing left rfl rfl
    rw [blockEnd, goesOn, Regex.rest?_chars, if_neg noMatch, Regex.rest?_one_seq, if_pos rfl,
      ← blockEnd, inductionHypothesis]
    cases blockCommentExtent? more <;> rfl
  | case3 =>
    rw [blockEnd, goesOn, Regex.rest?_chars]
    rfl

/-- Comments are found where the scanner finds them. -/
theorem firstMatch?_triviaRules (first : Char) (rest : List Char) :
    firstMatch? triviaRules (first :: rest) =
      if isBlank first then
        some ⟨some .blank, .stay, rest.drop (rest.takeWhile isBlank).length⟩
      else (comment? first rest).map fun found => ⟨some found.1, .stay, rest.drop found.2⟩ := by
  simp only [triviaRules, firstMatch?_cons, firstMatch?_nil, Rule.find?, Regex.rest?_plus_one,
    Regex.rest?_chars_seq, Regex.rest?_many_one, rest?_blockEnd]
  by_cases blank : isBlank first
  · simp [blank]
  · by_cases isSlash : first = '/'
    · subst isSlash
      cases rest with
      | nil => simp [blank, comment?]
      | cons c more =>
        by_cases isLine : c = '/'
        · simp [blank, comment?, isLine, Nat.add_comm 1]
        · by_cases isBlock : c = '*'
          · cases isExtent : blockCommentExtent? more <;>
              simp [blank, comment?, isBlock, isExtent, Nat.add_comm 1]
          · simp [blank, comment?, isLine, isBlock, Ne.symm isLine, Ne.symm isBlock]
    · simp [blank, comment?, isSlash, Ne.symm isSlash]

/-! ## Patterns -/

/-- A backslash and the character after it, on one line. -/
def escaped : Regex :=
  .seq (.char '\\') (.one (· ≠ '\n'))

def bracketPart : Regex :=
  .either escaped (.one fun c => c ≠ ']' && c ≠ '\\' && c ≠ '\n')

def bracketEnd : Regex :=
  .seq (.many bracketPart) (.char ']')

def patternPart : Regex :=
  .either escaped
    (.either (.one fun c => c ≠ '[' && c ≠ '/' && c ≠ '\\' && c ≠ '\n')
      (.seq (.char '[') bracketEnd))

def patternEnd : Regex :=
  .seq (.char '/') (.many (.one Char.isLower))

def patternRule : Rule :=
  ⟨.seq (.char '/') (.seq (.plus patternPart) patternEnd), some .pattern, .pop⟩

private theorem takes_bracketPart : bracketPart.Takes :=
  ((Regex.takes_one _).seq _).either (Regex.takes_one _)

private theorem takes_patternPart : patternPart.Takes :=
  ((Regex.takes_one _).seq _).either ((Regex.takes_one _).either ((Regex.takes_one _).seq _))

private theorem rest?_patternPart_seq (last : Regex) (c : Char) (rest : List Char) :
    (Regex.seq patternPart last).rest? (c :: rest) =
      if c = '\\' then (Regex.seq (.one (· ≠ '\n')) last).rest? rest
      else if c = '[' then (Regex.seq bracketEnd last).rest? rest
      else if c = '/' || c = '\n' then none
      else last.rest? rest := by
  rw [patternPart, Regex.rest?_either_seq, Regex.rest?_either_seq, escaped, Regex.rest?_seq_assoc,
    Regex.rest?_seq_assoc, Regex.char, Regex.char, Regex.rest?_one_seq, Regex.rest?_one_seq,
    Regex.rest?_one_seq]
  by_cases isEscape : c = '\\'
  · simp [isEscape]
  · by_cases isBracket : c = '['
    · simp [isBracket]
    · by_cases isSlash : c = '/' <;> by_cases isFeed : c = '\n' <;>
        simp [isEscape, isBracket, isSlash, isFeed]

private theorem rest?_bracketPart_seq (last : Regex) (c : Char) (rest : List Char) :
    (Regex.seq bracketPart last).rest? (c :: rest) =
      if c = '\\' then (Regex.seq (.one (· ≠ '\n')) last).rest? rest
      else if c = ']' || c = '\n' then none
      else last.rest? rest := by
  rw [bracketPart, Regex.rest?_either_seq, escaped, Regex.rest?_seq_assoc, Regex.char,
    Regex.rest?_one_seq, Regex.rest?_one_seq]
  by_cases isEscape : c = '\\'
  · simp [isEscape]
  · by_cases isBracket : c = ']' <;> by_cases isFeed : c = '\n' <;>
      simp [isEscape, isBracket, isFeed]

/-- A pattern after its opening slash or a part of it, or from inside a bracket. -/
def patternFrom : Bool → Regex
  | false => .seq (.many patternPart) patternEnd
  | true => .seq bracketEnd (.seq (.many patternPart) patternEnd)

private theorem rest?_patternFrom_false (text : List Char) :
    (patternFrom false).rest? text =
      ((Regex.seq patternPart (patternFrom false)).rest? text).or (patternEnd.rest? text) :=
  Regex.rest?_many_seq text takes_patternPart patternEnd

private theorem rest?_patternFrom_true (text : List Char) :
    (patternFrom true).rest? text =
      ((Regex.seq bracketPart (patternFrom true)).rest? text).or
        ((Regex.seq (.char ']') (patternFrom false)).rest? text) := by
  have regrouped (text : List Char) : (patternFrom true).rest? text =
      (Regex.seq (.many bracketPart) (.seq (.char ']') (patternFrom false))).rest? text :=
    Regex.rest?_seq_assoc text _ _ _
  rw [regrouped, Regex.rest?_many_seq text takes_bracketPart,
    Regex.rest?_seq_congr text bracketPart regrouped]

/-- A pattern is read one character at a time. -/
theorem rest?_patternFrom_cons (inBracket : Bool) (c : Char) (rest : List Char) :
    (patternFrom inBracket).rest? (c :: rest) =
      if c = '\\' then (Regex.seq (.one (· ≠ '\n')) (patternFrom inBracket)).rest? rest
      else if c = '\n' then none
      else if inBracket then (patternFrom (c ≠ ']')).rest? rest
      else if c = '/' then some (rest.drop (rest.takeWhile Char.isLower).length)
      else (patternFrom (c = '[')).rest? rest := by
  cases inBracket with
  | false =>
    rw [rest?_patternFrom_false, rest?_patternPart_seq, patternEnd, Regex.char,
      Regex.rest?_one_seq, Regex.rest?_many_one]
    by_cases isEscape : c = '\\'
    · simp [isEscape]
    · by_cases isBracket : c = '['
      · simp [isBracket, patternFrom]
      · by_cases isSlash : c = '/' <;> by_cases isFeed : c = '\n' <;>
          simp [isEscape, isBracket, isSlash, isFeed]
  | true =>
    rw [rest?_patternFrom_true, rest?_bracketPart_seq, Regex.char, Regex.rest?_one_seq]
    by_cases isEscape : c = '\\'
    · simp [isEscape]
    · by_cases isBracket : c = ']' <;> by_cases isFeed : c = '\n' <;>
        simp [isEscape, isBracket, isFeed]

private theorem ne_escape
    {c : Char}
    {rest : List Char}
    (notLast : c = '\\' → rest = [] → False)
    (notEscape : ∀ d more, c = '\\' → rest = d :: more → False) :
    c ≠ '\\' := by
  intro isEscape
  cases rest with
  | nil => exact notLast isEscape rfl
  | cons d more => exact notEscape d more isEscape rfl

private theorem rest?_patternFrom (inBracket : Bool) (text : List Char) :
    (patternFrom inBracket).rest? text = (patternExtent? inBracket text).map text.drop := by
  fun_induction patternExtent? inBracket text with
  | case1 inBracket =>
    cases inBracket with
    | false =>
      rw [rest?_patternFrom_false]
      rfl
    | true =>
      rw [rest?_patternFrom_true]
      rfl
  | case2 inBracket rest => simp [rest?_patternFrom_cons]
  | case3 inBracket =>
    rw [rest?_patternFrom_cons, if_pos rfl, Regex.rest?_one_seq_nil]
    rfl
  | case4 inBracket rest => simp [rest?_patternFrom_cons, Regex.rest?_one_seq]
  | case5 inBracket c rest notFeed inductionHypothesis =>
    rw [rest?_patternFrom_cons, if_pos rfl, Regex.rest?_one_seq, if_pos (by simpa using notFeed),
      inductionHypothesis, Option.map_map]
    rfl
  | case6 c rest notFeed notLast notEscape inductionHypothesis =>
    have isPlain : c ≠ '\\' := ne_escape notLast notEscape
    rw [rest?_patternFrom_cons, if_neg isPlain, if_neg notFeed, if_pos rfl, inductionHypothesis,
      Option.map_map]
    rfl
  | case7 inBracket rest outside =>
    rw [rest?_patternFrom_cons, if_neg (by decide), if_neg (by decide), if_neg outside, if_pos rfl,
      Nat.add_comm]
    rfl
  | case8 inBracket c rest notFeed notLast notEscape outside notSlash inductionHypothesis =>
    have isPlain : c ≠ '\\' := ne_escape notLast notEscape
    rw [rest?_patternFrom_cons, if_neg isPlain, if_neg notFeed, if_neg outside, if_neg notSlash,
      inductionHypothesis, Option.map_map]
    rfl

/-- A pattern is found where the scanner finds one, if no comment is. -/
theorem patternRule_find?
    {first : Char}
    {rest : List Char}
    (noComment : comment? first rest = none) :
    patternRule.find? (first :: rest) =
      (pattern? .opensPattern first rest).map fun tail =>
        ⟨some .pattern, .pop, rest.drop tail⟩ := by
  rw [Rule.find?, patternRule, Regex.char, Regex.rest?_one_seq]
  by_cases isSlash : first = '/'
  · -- A line comment stands where a pattern would have no part.
    have parts : (Regex.seq (.plus patternPart) patternEnd).rest? rest =
        (patternFrom false).rest? rest := by
      rw [Regex.plus, Regex.rest?_seq_assoc, rest?_patternFrom_false]
      cases rest with
      | nil => rfl
      | cons c more =>
        have notSlash : c ≠ '/' := by
          rintro rfl
          simp [comment?, isSlash] at noComment
        simp [patternEnd, Regex.char, Regex.rest?_one_seq, notSlash, patternFrom]
    rw [parts, rest?_patternFrom]
    cases isExtent : patternExtent? false rest <;> simp [pattern?, isSlash, isExtent]
  · simp [pattern?, isSlash]

/-! ## Quoted strings -/

def quotedPart (quote : Char) : Regex :=
  .either (.chars ['\\', '\\'])
    (.either (.seq (.char '\\') (.one (· ≠ '\\')))
      (.one fun c => c ≠ quote && c ≠ '\\' && c ≠ '\n'))

def quotedEnd (quote : Char) : Regex :=
  .seq (.many (quotedPart quote)) (.char quote)

def quotedRules : List Rule :=
  [⟨.seq (.char '"') (quotedEnd '"'), some .doubleQuoted, .stay⟩,
    ⟨.seq (.char '\'') (quotedEnd '\''), some .singleQuoted, .stay⟩]

private theorem takes_quotedPart (quote : Char) : (quotedPart quote).Takes :=
  ((Regex.takes_one _).seq _).either
    (((Regex.takes_one _).seq _).either (Regex.takes_one _))

private theorem rest?_quotedEnd_cons
    {quote : Char}
    (isQuote : quote ≠ '\\')
    (c : Char)
    (rest : List Char) :
    (quotedEnd quote).rest? (c :: rest) =
      if c = quote then some rest
      else if c = '\\' then (Regex.seq (.one fun _ => true) (quotedEnd quote)).rest? rest
      else if c = '\n' then none
      else (quotedEnd quote).rest? rest := by
  have goesOn := Regex.rest?_many_seq (c :: rest) (takes_quotedPart quote) (.char quote)
  rw [← quotedEnd] at goesOn
  rw [goesOn, quotedPart, Regex.rest?_either_seq, Regex.rest?_either_seq, Regex.rest?_chars_seq,
    Regex.rest?_seq_assoc, Regex.char, Regex.char, Regex.rest?_one_seq, Regex.rest?_one_seq,
    Regex.rest?_one_cons]
  by_cases closes : c = quote
  · have notEscape : c ≠ '\\' := fun isEscape => isQuote (closes ▸ isEscape)
    simp [closes, isQuote, Ne.symm isQuote]
  · by_cases isEscape : c = '\\'
    · subst isEscape
      cases rest with
      | nil => simp [closes, Regex.rest?_one_seq_nil]
      | cons d more =>
        by_cases isPair : d = '\\'
        · simp [closes, isPair, Regex.rest?_one_seq]
        · simp [closes, isPair, Ne.symm isPair, Regex.rest?_one_seq]
    · by_cases isFeed : c = '\n' <;> simp [closes, isEscape, isFeed, Ne.symm isEscape]

/-- A quoted string extends as far as the scanner has it. -/
theorem rest?_quotedEnd {quote : Char} (isQuote : quote ≠ '\\') (text : List Char) :
    (quotedEnd quote).rest? text = (quotedExtent? quote text).map text.drop := by
  have atEnd : (quotedEnd quote).rest? [] = none := by
    rw [quotedEnd, Regex.rest?_many_seq [] (takes_quotedPart quote)]
    rfl
  fun_induction quotedExtent? quote text with
  | case1 => exact atEnd
  | case2 => simp [rest?_quotedEnd_cons isQuote]
  | case3 c notQuote =>
    rw [rest?_quotedEnd_cons isQuote, if_neg notQuote, atEnd, Regex.rest?_one_seq_nil]
    simp
  | case4 d rest => simp [rest?_quotedEnd_cons isQuote]
  | case5 d rest notQuote => simp [rest?_quotedEnd_cons isQuote, notQuote]
  | case6 d rest notQuote notFeed inductionHypothesis =>
    rw [rest?_quotedEnd_cons isQuote, if_neg notQuote, if_pos rfl, Regex.rest?_one_seq, if_pos rfl,
      inductionHypothesis, Option.map_map]
    rfl
  | case7 c d rest notQuote notFeed notEscape inductionHypothesis =>
    rw [rest?_quotedEnd_cons isQuote, if_neg notQuote, if_neg notEscape, if_neg notFeed,
      inductionHypothesis, Option.map_map]
    rfl

private theorem firstMatch?_quotedRules (first : Char) (rest : List Char) :
    firstMatch? quotedRules (first :: rest) =
      (quoted? first rest).map fun found => ⟨some found.1, .stay, rest.drop found.2⟩ := by
  simp only [quotedRules, firstMatch?_cons, firstMatch?_nil, Rule.find?, Regex.char,
    Regex.rest?_one_seq, rest?_quotedEnd (by decide : '"' ≠ '\\'),
    rest?_quotedEnd (by decide : '\'' ≠ '\\'), quoted?]
  by_cases isDouble : first = '"'
  · cases quotedExtent? '"' rest <;> simp [isDouble]
  · by_cases isSingle : first = '\''
    · cases quotedExtent? '\'' rest <;> simp [isSingle]
    · simp [isDouble, isSingle]

/-! ## Numbers -/

def radixNumber : Regex :=
  .seq (.char '0') (.seq (.oneOf "xXoObB".toList) (.plus (.one isRadixDigit)))

def digits : Regex :=
  .many (.one isDigitOrUnderscore)

/-- A number that begins with a digit, with or without a fraction. -/
def wholeNumber : Regex :=
  .seq (.one isDigit) (.seq digits (.seq (.opt (.char '.')) digits))

def fraction : Regex :=
  .seq (.char '.') (.seq (.one isDigit) digits)

def exponent : Regex :=
  .seq (.oneOf ['e', 'E']) (.seq (.opt (.oneOf ['+', '-'])) (.plus (.one isDigit)))

def numberRule : Rule :=
  ⟨.seq (.either radixNumber (.seq (.either wholeNumber fraction) (.opt exponent)))
    (.opt (.char 'n')), some .number, .stay⟩

section Parts

variable (text : List Char)

private theorem rest?_digits : digits.rest? text = some (text.drop (digitsExtent text)) :=
  Regex.rest?_many_one text isDigitOrUnderscore

private theorem rest?_point :
    (Regex.opt (.char '.')).rest? text = some (text.drop (pointExtent text)) := by
  rw [Regex.rest?_opt]
  cases text with
  | nil => rfl
  | cons c rest =>
    by_cases isPoint : c = '.' <;> simp [Regex.char, Regex.rest?_one_cons, pointExtent, isPoint]

private theorem rest?_big :
    (Regex.opt (.char 'n')).rest? text = some (text.drop (bigExtent text)) := by
  rw [Regex.rest?_opt]
  cases text with
  | nil => rfl
  | cons c rest =>
    by_cases isMark : c = 'n' <;> simp [Regex.char, Regex.rest?_one_cons, bigExtent, isMark]

private theorem rest?_signed :
    (Regex.seq (.opt (.oneOf ['+', '-'])) (.plus (.one isDigit))).rest? text =
      (Regex.plus (.one isDigit)).rest? (text.drop (signExtent text)) := by
  rw [Regex.opt, Regex.rest?_either_seq, Regex.oneOf]
  cases text with
  | nil => rfl
  | cons c rest =>
    have notDigit : isDigit '+' = false ∧ isDigit '-' = false := by decide
    have skipped : (Regex.seq .empty (.plus (.one isDigit))).rest? (c :: rest) =
        (Regex.plus (.one isDigit)).rest? (c :: rest) := by
      rw [Regex.rest?_seq, Regex.rests_empty, List.findSome?_singleton]
    rw [skipped, Regex.rest?_one_seq, Regex.rest?_plus_one]
    by_cases plus : c = '+'
    · simp [signExtent, plus, notDigit.1]
    · by_cases minus : c = '-'
      · simp [signExtent, minus, notDigit.2]
      · simp [signExtent, plus, minus, Regex.rest?_plus_one]

private theorem rest?_exponent :
    (Regex.opt exponent).rest? text = some (text.drop (exponentExtent text)) := by
  rw [Regex.rest?_opt, exponent, Regex.oneOf]
  cases text with
  | nil => rfl
  | cons mark rest =>
    rw [Regex.rest?_one_seq, rest?_signed, exponentExtent_cons, Regex.rest?_plus_run]
    by_cases isMark : mark = 'e' || mark = 'E'
    · have listed : ['e', 'E'].contains mark = true := by simpa using isMark
      simp only [listed, isMark, if_true]
      split
      · rfl
      · rw [Option.getD_some, List.drop_drop, Nat.add_assoc, Nat.add_comm 1, List.drop_succ_cons]
    · have unlisted : ['e', 'E'].contains mark = false := by simpa using isMark
      simp only [unlisted, isMark]
      rfl

end Parts

private theorem rest?_radixNumber (first : Char) (rest : List Char) :
    (radixNumber.rest? (first :: rest)).map (fun left => left.drop (bigExtent left)) =
      (if first = '0' then radixExtent? rest else none).map rest.drop := by
  rw [radixNumber, Regex.char, Regex.rest?_one_seq]
  by_cases isZero : first = '0'
  · cases rest with
    | nil => simp [isZero, Regex.oneOf, Regex.rest?_one_seq_nil, radixExtent?]
    | cons mark rest =>
      rw [Regex.oneOf, Regex.rest?_one_seq, Regex.rest?_plus_run, radixExtent?]
      by_cases isMark : "xXoObB".toList.contains mark
      · rw [if_pos (decide_eq_true isZero), if_pos isZero, if_pos isMark, if_pos isMark]
        simp only
        split
        · rfl
        · rw [Option.map_some, Option.map_some, List.drop_drop, Nat.add_assoc, Nat.add_comm 1,
            List.drop_succ_cons]
      · rw [if_pos (decide_eq_true isZero), if_pos isZero, if_neg isMark, if_neg isMark]
        rfl
  · simp [isZero]

private theorem rest?_wholeNumber (first : Char) (rest : List Char) :
    wholeNumber.rest? (first :: rest) =
      if isDigit first then
        let whole := digitsExtent rest
        let point := pointExtent (rest.drop whole)
        some (rest.drop (whole + point + digitsExtent (rest.drop (whole + point))))
      else none := by
  have total : ∀ text, (Regex.seq digits (.seq (.opt (.char '.')) digits)).rest? text =
      some (let afterWhole := text.drop (digitsExtent text)
        let afterPoint := afterWhole.drop (pointExtent afterWhole)
        afterPoint.drop (digitsExtent afterPoint)) := by
    intro text
    rw [Regex.rest?_seq_of_total text fun text => by
        rw [Regex.rest?_seq_of_total text rest?_digits, rest?_point, Option.map_some],
      rest?_digits, Option.map_some]
  rw [wholeNumber, Regex.rest?_one_seq, total]
  simp only [List.drop_drop]

private theorem rest?_fraction (first : Char) (rest : List Char) :
    fraction.rest? (first :: rest) =
      if first = '.' && rest.head?.any isDigit then some (rest.drop (digitsExtent rest))
      else none := by
  rw [fraction, Regex.char, Regex.rest?_one_seq]
  cases rest with
  | nil => simp [Regex.rest?_one_seq_nil]
  | cons c rest =>
    rw [Regex.rest?_one_seq, rest?_digits, digitsExtent, digitsExtent, List.takeWhile_cons]
    by_cases isPoint : first = '.' <;> by_cases digit : isDigit c <;>
      simp [isPoint, digit, isDigitOrUnderscore]

private theorem numberRule_find? (first : Char) (rest : List Char) :
    numberRule.find? (first :: rest) =
      (numberExtent? first rest).map fun tail => ⟨some .number, .stay, rest.drop tail⟩ := by
  have decimal : ((Regex.seq (.either wholeNumber fraction) (.opt exponent)).rest?
      (first :: rest)).map (fun left => left.drop (bigExtent left)) =
        (decimalExtent? first rest).map rest.drop := by
    rw [Regex.rest?_seq_of_total _ rest?_exponent, Regex.rest?_either, rest?_wholeNumber,
      rest?_fraction, decimalExtent?]
    by_cases digit : isDigit first
    · simp [digit, numberEnd, List.drop_drop]
    · by_cases isFraction : first = '.' && rest.head?.any isDigit
      · simp only [digit, isFraction]
        simp [numberEnd, List.drop_drop]
      · simp only [digit, isFraction]
        rfl
  rw [Rule.find?, numberRule, Regex.rest?_seq_of_total _ rest?_big, Regex.rest?_either,
    numberExtent?_eq, Option.map_or, Option.map_or, Option.map_or, rest?_radixNumber, decimal,
    Option.map_map, Option.map_map]
  rfl

/-! ## Words -/

/-- Keywords, which no word character follows, and identifiers. -/
def wordRules : List Rule :=
  [⟨.seq (.anyOf keywords) (.notBefore isWord), some .keyword, .push [.slash]⟩,
    ⟨.seq (.either (.one fun c => isWord c && !isDigit c) (.char '$'))
        (.many (.one isIdentifierPart)),
      some .identifier, .stay⟩]

private theorem spelled_of_mem_keywords {own : String} (isKeyword : own ∈ keywords) :
    own.toList ≠ [] ∧ ∀ c ∈ own.toList, isWord c := by
  have spelled : keywords.all fun own => !own.toList.isEmpty && own.toList.all isWord := by decide
  simpa using List.all_eq_true.mp spelled own isKeyword

/-- A keyword stands at the head of a text, and no word character follows it, only if
it is the whole run of word characters there. -/
theorem keyword_heads_iff
    {own : String}
    (isKeyword : own ∈ keywords)
    (first : Char)
    (rest : List Char) :
    (own.toList.isPrefixOf (first :: rest) ∧
        ¬ ((first :: rest).drop own.length).head?.any isWord) ↔
      own = String.ofList (first :: rest.takeWhile isWord) := by
  obtain ⟨notEmpty, spelled⟩ := spelled_of_mem_keywords isKeyword
  rw [← String.length_toList, ← String.toList_inj, String.toList_ofList,
    List.isPrefixOf_iff_prefix]
  constructor
  · rintro ⟨⟨left, isText⟩, stopped⟩
    obtain ⟨head, run, isOwn⟩ := List.exists_cons_of_ne_nil notEmpty
    rw [isOwn] at isText stopped spelled ⊢
    rw [List.cons_append, List.cons.injEq] at isText
    obtain ⟨rfl, rfl⟩ := isText
    have words : ∀ c ∈ run, isWord c := fun c member => spelled c (List.mem_cons_of_mem _ member)
    rw [List.length_cons, List.drop_succ_cons, List.drop_left] at stopped
    rw [List.takeWhile_append_of_pos words]
    cases left with
    | nil => simp
    | cons c left =>
      have notWord : isWord c = false := by simpa using stopped
      simp [notWord]
  · intro isOwn
    rw [isOwn]
    refine ⟨⟨rest.dropWhile isWord, ?_⟩, ?_⟩
    · rw [List.cons_append, List.takeWhile_append_dropWhile]
    · have parts : rest.takeWhile isWord ++ rest.dropWhile isWord = rest :=
        List.takeWhile_append_dropWhile
      have isLeft : rest.drop (rest.takeWhile isWord).length = rest.dropWhile isWord :=
        (congrArg (List.drop _) parts.symm).trans List.drop_left
      have stopped := List.head?_dropWhile_not isWord rest
      rw [List.length_cons, List.drop_succ_cons, isLeft]
      cases isHead : (rest.dropWhile isWord).head? with
      | none => simp
      | some c =>
        rw [isHead] at stopped
        simpa using stopped

private theorem findSome?_of_unique
    {texts : List String}
    {own : String}
    {left : List Char}
    {finds : String → Option (List Char)}
    (unique : ∀ text ∈ texts, finds text = if text = own then some left else none) :
    texts.findSome? finds = if texts.contains own then some left else none := by
  induction texts with
  | nil => rfl
  | cons text texts inductionHypothesis =>
    rw [List.findSome?_cons, List.contains_cons, unique text List.mem_cons_self,
      inductionHypothesis fun other isOther => unique other (List.mem_cons_of_mem _ isOther)]
    by_cases isOwn : text = own
    · simp [isOwn]
    · simp [isOwn, Ne.symm isOwn]

private theorem firstMatch?_wordRules (first : Char) (rest : List Char) :
    firstMatch? wordRules (first :: rest) =
      (word? first rest).map fun found =>
        ⟨some found.1, if found.1 = .keyword then .push [.slash] else .stay,
          rest.drop found.2⟩ := by
  have isKeyword : (Regex.seq (.anyOf keywords) (.notBefore isWord)).rest? (first :: rest) =
      if keywords.contains (String.ofList (first :: rest.takeWhile isWord)) then
        some (rest.drop (rest.takeWhile isWord).length)
      else none := by
    rw [Regex.rest?_anyOf_seq]
    apply findSome?_of_unique
    intro own isOwn
    have heads := keyword_heads_iff isOwn first rest
    by_cases isWhole : own = String.ofList (first :: rest.takeWhile isWord)
    · obtain ⟨isPrefix, stopped⟩ := heads.mpr isWhole
      have size : own.length = (rest.takeWhile isWord).length + 1 := by
        rw [isWhole, String.length_ofList, List.length_cons]
      rw [if_pos isPrefix, if_pos isWhole, Regex.rest?, Regex.rests_notBefore, if_neg stopped, size,
        List.drop_succ_cons]
      rfl
    · rw [if_neg isWhole]
      split
      · rename_i isPrefix
        have goesOn : ((first :: rest).drop own.length).head?.any isWord := by
          by_contra stopped
          exact isWhole (heads.mp ⟨isPrefix, stopped⟩)
        rw [Regex.rest?, Regex.rests_notBefore, if_pos goesOn]
        rfl
      · rfl
  have isIdentifier : (Regex.seq (.either (.one fun c => isWord c && !isDigit c) (.char '$'))
      (.many (.one isIdentifierPart))).rest? (first :: rest) =
      if isIdentifierStart first then
        some (rest.drop (rest.takeWhile isIdentifierPart).length)
      else none := by
    rw [Regex.rest?_either_seq, Regex.char, Regex.rest?_one_seq, Regex.rest?_one_seq,
      Regex.rest?_many_one, isIdentifierStart]
    cases isWord first && !isDigit first with
    | false => simp
    | true => simp
  simp only [wordRules, firstMatch?_cons, firstMatch?_nil, Rule.find?, isKeyword, isIdentifier,
    word?]
  by_cases listed : keywords.contains (String.ofList (first :: rest.takeWhile isWord))
  · simp only [listed, if_true]
    rfl
  · simp only [listed]
    by_cases starts : isIdentifierStart first <;> simp [starts]

/-! ## Symbols -/

/-- The effect of a symbol: a slash after it may open a pattern. -/
def Slash.effect : Slash → Effect
  | .divides => .stay
  | .opensPattern => .push [.slash]

/-- Points, and the optional chain where no digit follows it. -/
def points : Regex :=
  .either (.chars "...".toList)
    (.either (.seq (.chars "?.".toList) (.notBefore isDigit)) (.chars ".".toList))

/-- A text that an equals sign may follow. -/
def assignable (text : String) : Regex :=
  .seq (.chars text.toList) (.opt (.char '='))

/-- Operators after which an operand is expected. -/
def operators : Regex :=
  .either (assignable "==") <| .either (assignable "!=") <| .either (assignable "<<") <|
  .either (.seq (.seq (.chars ">>".toList) (.opt (.char '>'))) (.opt (.char '='))) <|
  .either (.chars "<=".toList) <| .either (.chars ">=".toList) <|
  .either (assignable "&&") <| .either (assignable "||") <| .either (assignable "??") <|
  .either (assignable "**") <|
  .either (.seq (.oneOf "-+*/%&|^".toList) (.opt (.char '='))) (.oneOf "<>!~?:=".toList)

def symbolRules : List Rule :=
  [⟨points, some .punctuator, .stay⟩,
    ⟨.chars "=>".toList, some .punctuator, .push [.slash]⟩,
    ⟨.oneOf "([;,".toList, some .punctuator, .push [.slash]⟩,
    ⟨.oneOf ")]".toList, some .punctuator, .stay⟩,
    ⟨.either (.chars "++".toList) (.chars "--".toList), some .operator, .stay⟩,
    ⟨operators, some .operator, .push [.slash]⟩,
    ⟨.oneOf "#@".toList, some .punctuator, .stay⟩]

/-- A regular expression takes one of some texts, in this order. -/
def Spells (regex : Regex) (texts : List String) : Prop :=
  ∀ text, regex.rests text = texts.flatMap fun own => (Regex.chars own.toList).rests text

private theorem spells_chars (own : String) : Spells (.chars own.toList) [own] := by
  intro text
  rw [List.flatMap_singleton]

theorem Spells.either
    {preferred other : Regex}
    {texts others : List String}
    (spells : Spells preferred texts)
    (otherSpells : Spells other others) :
    Spells (.either preferred other) (texts ++ others) := by
  intro text
  rw [Regex.rests_either, spells, otherSpells, List.flatMap_append]

private theorem spells_oneOf {own : List Char} (distinct : own.Nodup) :
    Spells (.oneOf own) (own.map String.singleton) := by
  intro text
  rw [Regex.oneOf, List.flatMap_map]
  cases text with
  | nil => simp [Regex.rests_chars]
  | cons d rest =>
    rw [Regex.rests_one_cons]
    induction own with
    | nil => rfl
    | cons c own inductionHypothesis =>
      obtain ⟨apart, distinct⟩ := List.nodup_cons.mp distinct
      rw [List.flatMap_cons, ← inductionHypothesis distinct, Regex.rests_chars]
      by_cases isSame : c = d
      · simp [← isSame, apart]
      · simp [isSame, Ne.symm isSame]

/-- An optional character makes each text two, the longer first. -/
theorem Spells.opt
    {regex : Regex}
    {texts : List String}
    (spells : Spells regex texts)
    (c : Char) :
    Spells (.seq regex (.opt (.char c))) (texts.flatMap fun own => [own.push c, own]) := by
  intro text
  rw [Regex.rests_seq, spells, List.flatMap_assoc, List.flatMap_assoc]
  refine List.flatMap_congr fun own _ => ?_
  rw [List.flatMap_cons, List.flatMap_singleton, String.toList_push, Regex.rests_chars_concat,
    Regex.rests_chars]
  split <;> simp [Regex.opt]

private theorem spells_operators :
    Spells operators ["===", "==", "!==", "!=", "<<=", "<<", ">>>=", ">>>", ">>=", ">>", "<=",
      ">=", "&&=", "&&", "||=", "||", "??=", "??", "**=", "**", "-=", "-", "+=", "+", "*=", "*",
      "/=", "/", "%=", "%", "&=", "&", "|=", "|", "^=", "^", "<", ">", "!", "~", "?", ":",
      "="] := by
  have assigns : ∀ own, Spells (assignable own) [own.push '=', own] := fun own =>
    (spells_chars own).opt '='
  have shifts := ((spells_chars ">>").opt '>').opt '='
  have binary := (spells_oneOf (by decide : "-+*/%&|^".toList.Nodup)).opt '='
  have single := spells_oneOf (by decide : "<>!~?:=".toList.Nodup)
  exact (assigns "==").either <| (assigns "!=").either <| (assigns "<<").either <| shifts.either <|
    (spells_chars "<=").either <| (spells_chars ">=").either <| (assigns "&&").either <|
    (assigns "||").either <| (assigns "??").either <| (assigns "**").either <| binary.either single

def Symbol.found (text : List Char) (symbol : Symbol) : Found :=
  ⟨some symbol.kind, symbol.slash.effect, text.drop symbol.text.length⟩

/-- A rule finds the symbols of a group, tried in this order. -/
def FindsSymbols (rule : Rule) (group : List Symbol) : Prop :=
  ∀ text, rule.find? text = (group.find? (·.heads text)).map (·.found text)

/-- Rules that find groups of symbols, one after the other, find the symbols of all
groups. -/
theorem firstMatch?_of_groups
    {rules : List Rule}
    (groups : List (List Symbol))
    (finds : rules.Forall₂ FindsSymbols groups)
    (text : List Char) :
    firstMatch? rules text = (groups.flatten.find? (·.heads text)).map (·.found text) := by
  induction finds with
  | nil => rfl
  | cons own _ inductionHypothesis =>
    rw [firstMatch?_cons, own, inductionHypothesis, List.flatten_cons, List.find?_append,
      Option.map_or]

private theorem findsSymbols_of_spells
    {regex : Regex}
    {texts : List String}
    (kind : Kind)
    (slash : Slash)
    (spells : Spells regex texts)
    (noChain : "?." ∉ texts) :
    FindsSymbols ⟨regex, some kind, slash.effect⟩ (texts.map (⟨·, kind, slash⟩)) := by
  intro text
  rw [Rule.find?, Regex.rest?, spells]
  clear spells
  induction texts with
  | nil => rfl
  | cons own texts inductionHypothesis =>
    simp only [List.mem_cons, not_or] at noChain
    have heads : Symbol.heads ⟨own, kind, slash⟩ text = own.toList.isPrefixOf text := by
      simp [Symbol.heads, Ne.symm noChain.1]
    rw [List.flatMap_cons, List.head?_append, Option.map_or, inductionHypothesis noChain.2,
      Regex.rests_chars, List.map_cons, List.find?_cons, heads]
    cases own.toList.isPrefixOf text with
    | false => rfl
    | true =>
      rw [String.length_toList]
      rfl

private theorem findsSymbols_points :
    FindsSymbols ⟨points, some .punctuator, .stay⟩
      (["...", "?.", "."].map (⟨·, .punctuator, .divides⟩)) := by
  intro text
  have chained : (Regex.seq (.chars "?.".toList) (.notBefore isDigit)).rest? text =
      if Symbol.heads ⟨"?.", .punctuator, .divides⟩ text then some (text.drop 2) else none := by
    rw [Regex.rest?_chars_seq, Symbol.heads]
    cases "?.".toList.isPrefixOf text with
    | false => rfl
    | true =>
      show (if (text.drop 2).head?.any isDigit then [] else [text.drop 2]).head? =
        if !(text.drop 2).head?.any isDigit then some (text.drop 2) else none
      cases (text.drop 2).head?.any isDigit <;> rfl
  have dots : Symbol.heads ⟨"...", .punctuator, .divides⟩ text = "...".toList.isPrefixOf text := by
    simp [Symbol.heads]
  have dot : Symbol.heads ⟨".", .punctuator, .divides⟩ text = ".".toList.isPrefixOf text := by
    simp [Symbol.heads]
  simp only [Rule.find?, points, Regex.rest?_either, chained, Regex.rest?_chars, List.map_cons,
    List.map_nil, List.find?_cons, List.find?_nil, dots, dot]
  cases "...".toList.isPrefixOf text <;>
    cases Symbol.heads ⟨"?.", .punctuator, .divides⟩ text <;>
    cases ".".toList.isPrefixOf text <;> rfl

private theorem firstMatch?_symbolRules (text : List Char) :
    firstMatch? symbolRules text = (symbols.find? (·.heads text)).map (·.found text) := by
  apply firstMatch?_of_groups [
    ["...", "?.", "."].map (⟨·, .punctuator, .divides⟩),
    ["=>"].map (⟨·, .punctuator, .opensPattern⟩),
    ["(", "[", ";", ","].map (⟨·, .punctuator, .opensPattern⟩),
    [")", "]"].map (⟨·, .punctuator, .divides⟩),
    ["++", "--"].map (⟨·, .operator, .divides⟩),
    ["===", "==", "!==", "!=", "<<=", "<<", ">>>=", ">>>", ">>=", ">>", "<=", ">=", "&&=", "&&",
      "||=", "||", "??=", "??", "**=", "**", "-=", "-", "+=", "+", "*=", "*", "/=", "/", "%=", "%",
      "&=", "&", "|=", "|", "^=", "^", "<", ">", "!", "~", "?", ":", "="].map
        (⟨·, .operator, .opensPattern⟩),
    ["#", "@"].map (⟨·, .punctuator, .divides⟩)]
  refine .cons findsSymbols_points <| .cons ?_ <| .cons ?_ <| .cons ?_ <| .cons ?_ <| .cons ?_ <|
    .cons ?_ .nil
  · exact findsSymbols_of_spells .punctuator .opensPattern (spells_chars "=>") (by decide)
  · exact findsSymbols_of_spells .punctuator .opensPattern
      (spells_oneOf (by decide : "([;,".toList.Nodup)) (by decide)
  · exact findsSymbols_of_spells .punctuator .divides
      (spells_oneOf (by decide : ")]".toList.Nodup)) (by decide)
  · exact findsSymbols_of_spells .operator .divides
      ((spells_chars "++").either (spells_chars "--")) (by decide)
  · exact findsSymbols_of_spells .operator .opensPattern spells_operators (by decide)
  · exact findsSymbols_of_spells .punctuator .divides
      (spells_oneOf (by decide : "#@".toList.Nodup)) (by decide)

/-! ## Modes -/

def codeRules : List Rule :=
  triviaRules ++ ⟨.char '`', some .templateOpen, .push [.template]⟩ ::
    (quotedRules ++ numberRule :: (wordRules ++ symbolRules))

/-- Braces.  What is entered with an opening brace, and the meaning of a closing one,
depend on the mode. -/
def braceRules (entered : List Mode) (kind : Kind) (closing : Effect) : List Rule :=
  [⟨.char '{', some .punctuator, .push entered⟩, ⟨.char '}', some kind, closing⟩]

def templateRules : List Rule :=
  [⟨.char '`', some .templateClose, .pop⟩,
    ⟨.chars ['$', '{'], some .holeOpen, .push [.hole, .slash]⟩,
    ⟨.seq (.char '\\') (.one fun _ => true), some .templateText, .stay⟩,
    ⟨.char '$', some .templateText, .stay⟩,
    ⟨.plus (.one isTemplateText), some .templateText, .stay⟩]

/-- Code where a slash opens a pattern.  If there is no pattern, then the mode is left
and nothing is taken. -/
def slashRules : List Rule :=
  triviaRules ++ [patternRule, ⟨.empty, none, .pop⟩]

/-- The rules of a mode, in the order in which they are tried. -/
def Mode.rules : Mode → List Rule
  | .module => codeRules ++ braceRules [.slash] .punctuator .stay
  | .template => templateRules
  | .hole => codeRules ++ braceRules [.brace, .slash] .holeClose .pop
  | .brace => codeRules ++ braceRules [.brace, .slash] .punctuator .pop
  | .slash => slashRules

theorem firstMatch?_codeRules (first : Char) (rest : List Char) :
    firstMatch? codeRules (first :: rest) =
      (firstMatch? triviaRules (first :: rest)).or
        ((if first = '`' then some ⟨some .templateOpen, .push [.template], rest⟩ else none).or
          (((quoted? first rest).map fun found => ⟨some found.1, .stay, rest.drop found.2⟩).or
            (((numberExtent? first rest).map fun tail => ⟨some .number, .stay, rest.drop tail⟩).or
              (((word? first rest).map fun found =>
                  ⟨some found.1, if found.1 = .keyword then .push [.slash] else .stay,
                    rest.drop found.2⟩).or
                ((symbols.find? (·.heads (first :: rest))).map (·.found (first :: rest))))))) := by
  have backtick : Rule.find? ⟨.char '`', some .templateOpen, .push [.template]⟩ (first :: rest) =
      if first = '`' then some ⟨some .templateOpen, .push [.template], rest⟩ else none := by
    rw [Rule.find?, Regex.char, Regex.rest?_one_cons]
    by_cases marks : first = '`' <;> simp [marks]
  rw [codeRules, firstMatch?_append, firstMatch?_cons, firstMatch?_append, firstMatch?_cons,
    firstMatch?_append, backtick, firstMatch?_quotedRules, numberRule_find?,
    firstMatch?_wordRules, firstMatch?_symbolRules]

theorem firstMatch?_braceRules
    (entered : List Mode)
    (kind : Kind)
    (closing : Effect)
    (first : Char)
    (rest : List Char) :
    firstMatch? (braceRules entered kind closing) (first :: rest) =
      if first = '{' then some ⟨some .punctuator, .push entered, rest⟩
      else if first = '}' then some ⟨some kind, closing, rest⟩
      else none := by
  simp only [braceRules, firstMatch?_cons, firstMatch?_nil, Rule.find?, Regex.char,
    Regex.rest?_one_cons]
  by_cases opens : first = '{'
  · simp [opens]
  · by_cases closes : first = '}' <;> simp [opens, closes]

theorem firstMatch?_templateRules (first : Char) (rest : List Char) :
    firstMatch? templateRules (first :: rest) =
      if first = '`' then some ⟨some .templateClose, .pop, rest⟩
      else if first = '$' then
        if rest.head? = some '{' then some ⟨some .holeOpen, .push [.hole, .slash], rest.drop 1⟩
        else some ⟨some .templateText, .stay, rest⟩
      else if first = '\\' then
        if rest.isEmpty then none else some ⟨some .templateText, .stay, rest.drop 1⟩
      else some ⟨some .templateText, .stay, rest.drop (rest.takeWhile isTemplateText).length⟩ := by
  have hole : ['$', '{'].isPrefixOf (first :: rest) = (first = '$' && rest.head? = some '{') := by
    rw [Bool.eq_iff_iff, List.isPrefixOf_iff_prefix, List.cons_prefix_cons, eq_comm]
    cases rest with
    | nil => simp
    | cons c more => simp [List.cons_prefix_cons, @eq_comm _ _ c]
  have escape : (Regex.one fun _ => true).rest? rest =
      if rest.isEmpty then none else some (rest.drop 1) := by
    cases rest <;> rfl
  simp only [templateRules, firstMatch?_cons, firstMatch?_nil, Rule.find?, Regex.char,
    Regex.rest?_one_cons, Regex.rest?_one_seq, Regex.rest?_chars, Regex.rest?_plus_one, hole,
    escape]
  by_cases closes : first = '`'
  · simp [closes]
  by_cases isDollar : first = '$'
  · by_cases opens : rest.head? = some '{' <;> simp [isDollar, opens]
  by_cases isEscape : first = '\\'
  · cases rest <;> simp [isEscape, isTemplateText]
  · simp [closes, isDollar, isEscape, isTemplateText]

theorem firstMatch?_slashRules (first : Char) (rest : List Char) :
    firstMatch? slashRules (first :: rest) =
      (firstMatch? triviaRules (first :: rest)).or
        ((patternRule.find? (first :: rest)).or (some ⟨none, .pop, first :: rest⟩)) := by
  rw [slashRules, firstMatch?_append, firstMatch?_cons, firstMatch?_cons]
  rfl

/-- At the end of a text only the mode of a slash has a match, which takes nothing. -/
theorem firstMatch?_nil_text (mode : Mode) :
    firstMatch? mode.rules [] = if mode = .slash then some ⟨none, .pop, []⟩ else none := by
  cases mode <;> rfl

end Restyle.Lexeme
