import Restyle.Proofs.Bracket.Balance

/-!
Contract: tokens copied into another text.

Owns: `SettledBetween`, by which every lexeme between two offsets is complete in
itself; `Follows`, by which what follows a copied piece leaves it the same; what
stands around names and values; that trivia, undivided tokens and the text of
templates are read again from a copy, the nest following the braces that are
awaited.
-/

namespace Restyle

open Lexeme Restyle.Bracket

def Lexeme.Nest.raise (nest : Nest) (braces : Nat) : Nest :=
  match nest with
  | .module => .module
  | .hole own outer => .hole (own + braces) outer

namespace Token

/-- Every lexeme of code between two offsets of a source is complete in itself. -/
def SettledBetween (source : List Char) (start stop : Nat) : Prop :=
  ∀ offset slash first body kind next, start ≤ offset → offset < stop →
    StandsAt source offset slash first body kind next →
      settled slash first (body ++ source.drop (offset + body.length + 1)) kind body.length

theorem SettledBetween.narrow
    {source : List Char}
    {start stop lower upper : Nat}
    (isSettled : SettledBetween source start stop)
    (early : start ≤ lower)
    (late : upper ≤ stop) :
    SettledBetween source lower upper := by
  intro offset slash first body kind next above below lexeme
  exact isSettled offset slash first body kind next (by omega) (by omega) lexeme

/-- A line comment ends at an offset of a source. -/
def CommentEnds (source : List Char) (offset : Nat) : Prop :=
  ∃ start slash first body next, StandsAt source start slash first body .lineComment next ∧
    start + body.length + 1 = offset

/-- A text may follow a copy of the source up to an offset. -/
structure Follows (source : List Char) (offset : Nat) (other : List Char) : Prop where
  alike : Alike (source.drop offset) other
  comment : CommentEnds source offset → other.head? = (source.drop offset).head?

/-! ## A lexeme and its copy -/

theorem slice_of_drop
    {source : List Char}
    {offset stop : Nat}
    {first : Char}
    {body : List Char}
    (isText : source.drop offset = first :: (body ++ source.drop (offset + body.length + 1)))
    (late : offset + body.length + 1 ≤ stop) :
    Text.slice source offset stop =
      first :: (body ++ Text.slice source (offset + body.length + 1) stop) := by
  rw [← Text.slice_append_slice source (by omega : offset ≤ offset + body.length + 1) late,
    Text.slice_eq_take_drop source offset, isText]
  have size : offset + body.length + 1 - offset = body.length + 1 := by omega
  rw [size, List.take_succ_cons, List.take_left, List.cons_append]

section Lexeme

variable
  {source : List Char}
  {offset : Nat}
  {slash next : Slash}
  {first : Char}
  {body other : List Char}
  {kind : Lexeme.Kind}
  (lexeme : StandsAt source offset slash first body kind next)

include lexeme

private theorem not_digit_after_point (isPoint : first = '.') (alone : body = []) :
    (source.drop (offset + body.length + 1)).head?.any Text.isDigit = false := by
  obtain ⟨nest, inner, -, isStep⟩ := lexeme.isStep
  subst isPoint alone
  cases isNumber : numberExtent? '.' ([] ++ source.drop (offset + [].length + 1)) with
  | none => exact not_digit_of_point rfl isNumber
  | some tail =>
    rw [codeStep_of_number isNumber, Step.mk.injEq] at isStep
    have positive := numberExtent?_pos_of_point isNumber
    simp only [List.length_nil] at isStep
    omega

/-- What may follow a lexeme may follow with the lexeme before it. -/
theorem Follows.prepend
    (follows : Follows source (offset + body.length + 1) other) :
    Follows source offset (first :: (body ++ other)) := by
  refine ⟨?_, fun _ => by rw [lexeme.isText]; rfl⟩
  rw [lexeme.isText]
  cases body with
  | cons second body => exact .same (fun _ isHead => isHead) (fun _ => rfl)
  | nil =>
    refine .same (fun _ isHead => ?_) (fun isPoint => ?_)
    · obtain ⟨more, isOther⟩ := List.head?_eq_some_iff.mp isHead
      exact follows.alike.ne_of_start (by decide) (by decide) isOther
    · have noDigit := not_digit_after_point lexeme isPoint rfl
      have noOther := follows.alike.head (fun c => not_isDigit_of_isIdentifierStart)
        (List.all_iff_forall_prop.mp (by decide)) noDigit
      exact noOther.trans noDigit.symm

/-- A lexeme that is no brace is read again from its copy. -/
theorem codeStep_of_copy
    (isSettled : settled slash first (body ++ source.drop (offset + body.length + 1)) kind
      body.length)
    (follows : Follows source (offset + body.length + 1) other)
    (noBrace : first ≠ '\x7b' ∧ first ≠ '\x7d')
    (around : Nest) :
    codeStep around slash first (body ++ other) = ⟨kind, body.length, .code around next⟩ := by
  obtain ⟨nest, inner, -, isStep⟩ := lexeme.isStep
  refine codeStep_replace isSettled isStep follows.alike (fun isComment => ?_) noBrace around
  exact follows.comment ⟨offset, slash, first, body, next, isComment ▸ lexeme, rfl⟩

omit lexeme in
private theorem brace_of_opening (lexeme : StandsAt source offset slash '\x7b' body kind next) :
    body = [] ∧ kind = .punctuator ∧ next = .opensPattern := by
  obtain ⟨nest, inner, -, isStep⟩ := lexeme.isStep
  cases nest with
  | module =>
    rw [codeStep_of_brace rfl] at isStep
    simp only [Step.mk.injEq, State.code.injEq] at isStep
    exact ⟨List.length_eq_zero_iff.mp isStep.2.1.symm, isStep.1.symm, isStep.2.2.2.symm⟩
  | hole braces outer =>
    rw [codeStep_of_brace rfl] at isStep
    simp only [Step.mk.injEq, State.code.injEq] at isStep
    exact ⟨List.length_eq_zero_iff.mp isStep.2.1.symm, isStep.1.symm, isStep.2.2.2.symm⟩

omit lexeme in
private theorem brace_of_closing (lexeme : StandsAt source offset slash '\x7d' body kind next) :
    body = [] ∧ kind = .punctuator ∧ next = .divides := by
  obtain ⟨nest, inner, -, isStep⟩ := lexeme.isStep
  match nest with
  | .module =>
    rw [codeStep_of_brace rfl] at isStep
    simp only [Step.mk.injEq, State.code.injEq] at isStep
    exact ⟨List.length_eq_zero_iff.mp isStep.2.1.symm, isStep.1.symm, isStep.2.2.2.symm⟩
  | .hole (braces + 1) outer =>
    rw [codeStep_of_brace rfl] at isStep
    simp only [Step.mk.injEq, State.code.injEq] at isStep
    exact ⟨List.length_eq_zero_iff.mp isStep.2.1.symm, isStep.1.symm, isStep.2.2.2.symm⟩
  | .hole 0 outer =>
    rw [codeStep_of_brace rfl] at isStep
    simp at isStep

private theorem not_brace_of_trivia
    (isTrivia : kind.isTrivia) :
    first ≠ '\x7b' ∧ first ≠ '\x7d' := by
  constructor
  · rintro rfl
    rw [(brace_of_opening lexeme).2.1] at isTrivia
    exact absurd isTrivia (by decide)
  · rintro rfl
    rw [(brace_of_closing lexeme).2.1] at isTrivia
    exact absurd isTrivia (by decide)

end Lexeme

/-! ## Trivia -/

/-- Trivia is read again from a copy. -/
theorem ListStands.copy
    {source : List Char}
    {slash last : Slash}
    {offset stop : Nat}
    {tokens : List Token}
    (stands : ListStands source slash offset tokens last stop)
    (isEmpty : tokens = [])
    (isSettled : SettledBetween source offset stop)
    {other : List Char}
    (follows : Follows source stop other) :
    last = slash ∧ Follows source offset (Text.slice source offset stop ++ other) ∧
      ∀ nest, CodeRun nest slash (Text.slice source offset stop ++ other) [] nest slash other :=
  match stands with
  | .nil => by
    rw [Text.slice_self]
    exact ⟨rfl, follows, fun _ => .here⟩
  | .trivia lexeme isTrivia later => by
    have late := later.le
    obtain ⟨isLast, laterFollows, laterRun⟩ :=
      later.copy isEmpty (isSettled.narrow (by omega) (Nat.le_refl _)) follows
    rw [slice_of_drop lexeme.isText late, List.cons_append, List.append_assoc]
    refine ⟨isLast, Follows.prepend lexeme laterFollows, fun nest => ?_⟩
    have own := isSettled _ _ _ _ _ _ (Nat.le_refl _) (by omega) lexeme
    exact .trivia (codeStep_of_copy lexeme own laterFollows (not_brace_of_trivia lexeme isTrivia) nest)
      isTrivia (laterRun nest)

/-! ## Undivided tokens -/

/-- The number of closing braces that are awaited. -/
def bracesIn (stack : List String) : Nat :=
  stack.count "\x7d"

theorem ofList_eq_iff {chars : List Char} {text : String} :
    String.ofList chars = text ↔ chars = text.toList := by
  constructor
  · rintro rfl
    simp
  · rintro rfl
    simp

private theorem bracesIn_of_awaits
    {commas : Bool}
    {stack outer : List String}
    {face : Face}
    (noBrace : face.text ≠ "\x7b" ∧ face.text ≠ "\x7d")
    (awaits : Awaits commas stack face outer) :
    bracesIn outer = bracesIn stack := by
  cases awaits with
  | opens isOpener =>
    have isOther : ∀ closer, closerOf? face = some closer → closer ≠ "\x7d" := by
      intro closer isCloser
      have noOpening : faceIs ["\x7b"] face = false := by simp [faceIs, noBrace.1]
      simp only [closerOf?, noOpening, Bool.false_eq_true, if_false] at isCloser
      split at isCloser
      · simp [← Option.some.inj isCloser]
      · split at isCloser
        · simp [← Option.some.inj isCloser]
        · simp at isCloser
    exact List.count_cons_of_ne (isOther _ isOpener)
  | closes _ _ isStack =>
    rw [isStack, bracesIn, bracesIn, List.count_cons_of_ne noBrace.2]
  | passes => rfl

/-- An undivided token is read again from its copy. -/
theorem codeStep_of_atom
    {source : List Char}
    {offset : Nat}
    {slash next : Slash}
    {first : Char}
    {body other : List Char}
    {kind : Lexeme.Kind}
    {commas : Bool}
    {stack outer : List String}
    (lexeme : StandsAt source offset slash first body kind next)
    (isSettled : settled slash first (body ++ source.drop (offset + body.length + 1)) kind
      body.length)
    (follows : Follows source (offset + body.length + 1) other)
    (awaits : Awaits commas stack ⟨some (kindOf kind), String.ofList (first :: body)⟩ outer)
    (base : Nest) :
    codeStep (base.raise (bracesIn stack)) slash first (body ++ other) =
      ⟨kind, body.length, .code (base.raise (bracesIn outer)) next⟩ := by
  by_cases opening : first = '\x7b'
  · subst opening
    obtain ⟨rfl, rfl, rfl⟩ := brace_of_opening lexeme
    have isOuter : outer = "\x7d" :: stack := by
      cases awaits with
      | opens isOpener => exact congrArg (· :: stack) (Option.some.inj isOpener).symm
      | closes notOpener => exact absurd notOpener (by decide)
      | passes notOpener => exact absurd notOpener (by decide)
    rw [isOuter, bracesIn, bracesIn, List.count_cons_self]
    cases base with
    | module => exact codeStep_of_brace rfl
    | hole own around => exact codeStep_of_brace rfl
  · by_cases closing : first = '\x7d'
    · subst closing
      obtain ⟨rfl, rfl, rfl⟩ := brace_of_closing lexeme
      have isStack : stack = "\x7d" :: outer := by
        cases awaits with
        | opens isOpener => exact absurd isOpener (by simp [closerOf?, faceIs, kindOf])
        | closes _ _ isStack => exact isStack
        | passes _ notCloser => exact absurd notCloser (by decide)
      rw [isStack, bracesIn, bracesIn, List.count_cons_self]
      cases base with
      | module => exact codeStep_of_brace rfl
      | hole own around => exact codeStep_of_brace rfl
    · have noBrace : String.ofList (first :: body) ≠ "\x7b" ∧
          String.ofList (first :: body) ≠ "\x7d" := by
        constructor
        · intro isText
          exact opening (List.cons.inj (ofList_eq_iff.mp isText)).1
        · intro isText
          exact closing (List.cons.inj (ofList_eq_iff.mp isText)).1
      rw [bracesIn_of_awaits noBrace awaits]
      exact codeStep_of_copy lexeme isSettled follows ⟨opening, closing⟩ _

/-! ## Names and values in the source -/

/-- Whether a token ends a value, so that a slash after it divides. -/
def endsValue (token : Token) : Bool :=
  token.is .identifier || token.isTemplate || isPunctuator [")"] token

/-- The name at an offset begins with a character that may begin a name, what
follows it stops it, and a slash after it divides. -/
theorem stands_of_identifier
    {source : List Char}
    {slash next : Slash}
    {offset stop : Nat}
    {token : Token}
    (stands : Stands source slash offset token next stop)
    (isName : token.is .identifier) :
    (∃ first rest, source.drop offset = first :: rest ∧ Text.isIdentifierStart first) ∧
      stops (source.drop stop) ∧ next = .divides := by
  cases stands with
  | template isTemplate =>
    simp [Token.isTemplate, Use.template?_of_is isName] at isTemplate
  | atom lexeme isAtom =>
    rename_i first body kind
    obtain ⟨nest, inner, -, isStep⟩ := lexeme.isStep
    obtain rfl : kind = .identifier := by
      cases kind <;> simp_all [Token.is, ofLexeme, kindOf]
    obtain ⟨starts, isTail, isNext⟩ := identifier_of_codeStep isStep
    refine ⟨⟨first, _, lexeme.isText, starts⟩, ?_, isNext⟩
    simpa [stops] using head?_of_takeWhile isTail

/-- A slash after the end of a value divides. -/
theorem divides_of_endsValue
    {source : List Char}
    {slash next : Slash}
    {offset stop : Nat}
    {token : Token}
    (stands : Stands source slash offset token next stop)
    (isValue : endsValue token) :
    next = .divides := by
  simp only [endsValue, Bool.or_eq_true] at isValue
  rcases isValue with (isName | isTemplate) | isParen
  · exact (stands_of_identifier stands isName).2.2
  · cases stands with
    | template => rfl
    | atom => simp [Token.isTemplate, Token.template?, ofLexeme] at isTemplate
  · cases stands with
    | template => rfl
    | atom lexeme isAtom =>
      rename_i first body kind
      obtain ⟨nest, inner, -, isStep⟩ := lexeme.isStep
      rw [isPunctuator, Bool.and_eq_true, List.contains_eq_mem, decide_eq_true_eq,
        List.mem_singleton] at isParen
      obtain ⟨rfl, rfl⟩ : first = ')' ∧ body = [] :=
        List.cons.inj (ofList_eq_iff.mp isParen.2)
      rw [List.nil_append, codeStep_of_closeParen] at isStep
      simp only [Step.mk.injEq, State.code.injEq] at isStep
      exact isStep.2.2.2.symm

/-- Only a line feed comes after a line comment. -/
theorem lineFeed_of_commentEnds
    {source : List Char}
    {offset : Nat}
    {c : Char}
    {rest : List Char}
    (ends : CommentEnds source offset)
    (isRest : source.drop offset = c :: rest) :
    c = '\n' := by
  obtain ⟨start, slash, first, body, next, lexeme, rfl⟩ := ends
  obtain ⟨nest, inner, -, isStep⟩ := lexeme.isStep
  rw [isRest] at isStep
  exact lineFeed_of_lineComment isStep

/-! ## The text of a template -/

/-- The text of a template is read again from a copy. -/
theorem TextStands.copy
    {source : List Char}
    {offset stop : Nat}
    {holes : List Span}
    (stands : TextStands source offset holes stop)
    (isEmpty : holes = [])
    {other left : List Char}
    (sameHead : other.head? = (source.drop stop).head?)
    {nest : Nest}
    (run : TextRun nest other left) :
    (Text.slice source offset stop ++ other).head? = (source.drop offset).head? ∧
      TextRun nest (Text.slice source offset stop ++ other) left :=
  match stands with
  | .nil => by
    rw [Text.slice_self]
    exact ⟨sameHead, run⟩
  | .text lexeme later => by
    rename_i first body
    have late := later.le
    obtain ⟨laterHead, laterRun⟩ := later.copy isEmpty sameHead run
    obtain ⟨own, isStep⟩ := lexeme.isStep
    have isSlice : Text.slice source offset stop =
        first :: (body ++ Text.slice source (offset + body.length + 1) stop) :=
      slice_of_drop lexeme.isText late
    rw [isSlice, List.cons_append, List.append_assoc, lexeme.isText]
    exact ⟨rfl, .text (templateStep_replace isStep laterHead nest) laterRun⟩

end Token

end Restyle
