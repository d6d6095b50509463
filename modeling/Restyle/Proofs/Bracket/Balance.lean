import Restyle.Proofs.Token.Run
import Restyle.Proofs.Use.Entries

/-!
Contract: brackets that belong together by kind.

Owns: `awaited`, the closers that some tokens leave to be awaited, each opener
awaiting its own; `balanced`, tokens that leave none; that balanced tokens never
close or split what stands around them; and that arguments that are balanced
make what stands between the parentheses balanced.
-/

namespace Restyle.Bracket

open Token (Face)

def faceIs (spellings : List String) (face : Face) : Bool :=
  face.kind = some .punctuator && spellings.contains face.text

theorem faceIs_face (spellings : List String) (token : Token) :
    faceIs spellings token.face = isPunctuator spellings token := by
  obtain ⟨text, start, location, body⟩ := token
  cases body with
  | atom kind => simp [faceIs, Token.face, isPunctuator, Token.is]
  | template literal => simp [faceIs, Token.face, isPunctuator, Token.is]

def closerOf? (face : Face) : Option String :=
  if faceIs ["("] face then some ")"
  else if faceIs ["["] face then some "]"
  else if faceIs ["\x7b"] face then some "\x7d"
  else none

/-- The closers awaited after a face, the innermost first, `none` if the face
closes what is not awaited.  A comma outside all brackets may be refused. -/
def await (commas : Bool) (stack : List String) (face : Face) : Option (List String) :=
  match closerOf? face with
  | some closer => some (closer :: stack)
  | none =>
    if faceIs [")", "]", "\x7d"] face then
      match stack with
      | [] => none
      | closer :: outer => if face.text = closer then some outer else none
    else if !commas && stack.isEmpty && faceIs [","] face then none
    else some stack

/-- The closers awaited after some faces. -/
def awaited (commas : Bool) (stack : List String) (faces : List Face) : Option (List String) :=
  faces.foldlM (await commas) stack

/-- Whether every bracket of some tokens is closed by a bracket of its kind. -/
def balanced (tokens : List Token) : Bool :=
  awaited true [] (tokens.map Token.face) = some []

/-- Whether some faces make one element of a list: they are balanced, and no comma
divides them. -/
def isSingle (faces : List Face) : Bool :=
  !faces.isEmpty && awaited false [] faces = some []

/-- What a face does to the closers that are awaited. -/
inductive Awaits (commas : Bool) (stack : List String) (face : Face) : List String → Prop where
  | opens {closer : String}
      (isOpener : closerOf? face = some closer) :
      Awaits commas stack face (closer :: stack)
  | closes {outer : List String}
      (notOpener : closerOf? face = none)
      (isCloser : faceIs [")", "]", "\x7d"] face)
      (isStack : stack = face.text :: outer) :
      Awaits commas stack face outer
  | passes
      (notOpener : closerOf? face = none)
      (notCloser : faceIs [")", "]", "\x7d"] face = false)
      (allowed : faceIs [","] face → commas ∨ stack ≠ []) :
      Awaits commas stack face stack

private theorem await_eq_some_iff {commas : Bool} {stack next : List String} {face : Face} :
    await commas stack face = some next ↔ Awaits commas stack face next := by
  constructor
  · intro isNext
    unfold await at isNext
    split at isNext
    · rename_i closer isOpener
      obtain rfl := Option.some.inj isNext
      exact .opens isOpener
    · rename_i notOpener
      split at isNext
      · rename_i isCloser
        split at isNext
        · simp at isNext
        · split at isNext
          · rename_i isText
            obtain rfl := Option.some.inj isNext
            exact .closes notOpener isCloser (by rw [isText])
          · simp at isNext
      · rename_i notCloser
        split at isNext
        · simp at isNext
        · rename_i notRefused
          obtain rfl := Option.some.inj isNext
          refine .passes notOpener (by simpa using notCloser) fun isComma => ?_
          cases commas with
          | true => exact .inl rfl
          | false =>
            refine .inr fun isEmpty => notRefused ?_
            simp [isEmpty, isComma]
  · intro awaits
    cases awaits with
    | opens isOpener => simp [await, isOpener]
    | closes notOpener isCloser isStack => simp [await, notOpener, isCloser, isStack]
    | passes notOpener notCloser allowed =>
      have notRefused : (!commas && stack.isEmpty && faceIs [","] face) = false := by
        cases isComma : faceIs [","] face with
        | false => simp
        | true => rcases allowed isComma with rfl | nonempty <;> simp_all
      simp [await, notOpener, notCloser, notRefused]

private theorem awaited_cons
    (commas : Bool)
    (stack : List String)
    (face : Face)
    (faces : List Face) :
    awaited commas stack (face :: faces) =
      (await commas stack face).bind fun next => awaited commas next faces :=
  rfl

theorem awaited_append (commas : Bool) (stack : List String) (left right : List Face) :
    awaited commas stack (left ++ right) =
      (awaited commas stack left).bind fun between => awaited commas between right :=
  List.foldlM_append

theorem awaited_cons_eq_some_iff
    {commas : Bool}
    {stack left : List String}
    {face : Face}
    {faces : List Face} :
    awaited commas stack (face :: faces) = some left ↔
      ∃ next, Awaits commas stack face next ∧ awaited commas next faces = some left := by
  rw [awaited_cons, Option.bind_eq_some_iff]
  simp only [await_eq_some_iff]

/-- A face that is no punctuator leaves awaited what was. -/
theorem awaits_iff_of_plain
    {commas : Bool}
    {stack next : List String}
    {face : Face}
    (plain : face.kind ≠ some .punctuator) :
    Awaits commas stack face next ↔ next = stack := by
  have notAny : ∀ spellings, faceIs spellings face = false := by
    intro spellings
    simp [faceIs, plain]
  have notOpener : closerOf? face = none := by simp [closerOf?, notAny]
  constructor
  · intro awaits
    cases awaits with
    | opens isOpener => simp [notOpener] at isOpener
    | closes _ isCloser => simp [notAny] at isCloser
    | passes => rfl
  · rintro rfl
    exact .passes notOpener (notAny _) fun isComma => by simp [notAny] at isComma

/-! ## What stands around -/

/-- What is awaited beforehand stays awaited.  Commas that stand in a bracket
are never refused. -/
theorem awaited_frame
    {commas inner : Bool}
    {stack left : List String}
    {faces : List Face}
    (isLeft : awaited inner stack faces = some left)
    (more : List String)
    (allowed : commas = inner ∨ more ≠ []) :
    awaited commas (stack ++ more) faces = some (left ++ more) := by
  induction faces generalizing stack with
  | nil =>
    obtain rfl := Option.some.inj isLeft
    rfl
  | cons face faces inductionHypothesis =>
    obtain ⟨next, awaits, isRest⟩ := awaited_cons_eq_some_iff.mp isLeft
    refine awaited_cons_eq_some_iff.mpr ⟨next ++ more, ?_, inductionHypothesis isRest⟩
    cases awaits with
    | opens isOpener => exact .opens isOpener
    | closes notOpener isCloser isStack => exact .closes notOpener isCloser (by rw [isStack]; rfl)
    | passes notOpener notCloser own =>
      refine .passes notOpener notCloser fun isComma => ?_
      rcases allowed with rfl | nonempty
      · exact (own isComma).imp id fun nonempty isEmpty =>
          nonempty (List.append_eq_nil_iff.mp isEmpty).1
      · exact .inr fun isEmpty => nonempty (List.append_eq_nil_iff.mp isEmpty).2

/-- Commas at the top change nothing where they are allowed. -/
theorem awaited_widen
    {commas : Bool}
    {stack left : List String}
    {faces : List Face}
    (isLeft : awaited commas stack faces = some left) :
    awaited true stack faces = some left := by
  induction faces generalizing stack with
  | nil => exact isLeft
  | cons face faces inductionHypothesis =>
    obtain ⟨next, awaits, later⟩ := awaited_cons_eq_some_iff.mp isLeft
    refine awaited_cons_eq_some_iff.mpr ⟨next, ?_, inductionHypothesis later⟩
    cases awaits with
    | opens isOpener => exact .opens isOpener
    | closes notOpener isCloser isStack => exact .closes notOpener isCloser isStack
    | passes notOpener notCloser _ => exact .passes notOpener notCloser fun _ => .inl rfl

/-- Balanced faces in a bracket leave awaited what was. -/
theorem awaited_of_balanced
    {commas : Bool}
    {faces : List Face}
    (isBalanced : awaited true [] faces = some [])
    (closer : String)
    (stack : List String) :
    awaited commas (closer :: stack) faces = some (closer :: stack) :=
  awaited_frame isBalanced (closer :: stack) (.inr (List.cons_ne_nil _ _))

theorem opens_eq (token : Token) : opens token = (closerOf? token.face).isSome := by
  simp only [opens, closerOf?, faceIs_face, isPunctuator]
  by_cases isKind : token.is .punctuator
  · by_cases paren : token.text = "("
    · simp [isKind, paren]
    · by_cases bracket : token.text = "["
      · simp [isKind, bracket]
      · by_cases brace : token.text = "\x7b"
        · simp [isKind, brace]
        · simp [isKind, paren, bracket, brace]
  · simp [isKind]

theorem closes_eq (token : Token) : closes token = faceIs [")", "]", "\x7d"] token.face := by
  rw [faceIs_face, closes]

theorem not_opens_of_closes {token : Token} (isCloser : closes token) : opens token = false := by
  simp only [closes, opens, isPunctuator, Bool.and_eq_true, List.contains_eq_mem,
    List.mem_cons, List.not_mem_nil, or_false, decide_eq_true_eq] at isCloser ⊢
  rcases isCloser.2 with isText | isText | isText <;> simp [isText]

/-! ## Searching for a closer -/

/-- Tokens that close all that is awaited are passed over up to the next closer. -/
theorem close?_of_awaited
    {commas : Bool}
    {stack : List String}
    {tokens : List Token}
    (isLeft : awaited commas stack (tokens.map Token.face) = some [])
    {closer : Token}
    (isCloser : closes closer)
    (after : List Token) :
    close? stack.length (tokens ++ closer :: after) = some ⟨tokens, closer, after⟩ := by
  induction tokens generalizing stack with
  | nil =>
    obtain rfl := Option.some.inj isLeft
    simp [close?, not_opens_of_closes isCloser, isCloser]
  | cons token tokens inductionHypothesis =>
    obtain ⟨next, awaits, isRest⟩ := awaited_cons_eq_some_iff.mp isLeft
    have later := inductionHypothesis isRest
    have isOpener := opens_eq token
    have isClosing := closes_eq token
    cases awaits with
    | opens opener =>
      rw [opener, Option.isSome_some] at isOpener
      rw [List.length_cons] at later
      simp [close?, isOpener, later]
    | closes notOpener ownCloser isStack =>
      rw [notOpener, Option.isSome_none] at isOpener
      rw [ownCloser] at isClosing
      simp [close?, isOpener, isClosing, isStack, later]
    | passes notOpener notCloser _ =>
      rw [notOpener, Option.isSome_none] at isOpener
      rw [notCloser] at isClosing
      simp [close?, isOpener, isClosing, later]

/-- A bracket is closed by the one that stands after what leaves nothing open. -/
theorem closerIndex?_of_awaited
    {commas : Bool}
    {inner : List Token}
    (isClosed : awaited commas [] (inner.map Token.face) = some [])
    {closing : Token}
    (isCloser : closes closing)
    (front : List Token)
    (opening : Token)
    (after : List Token) :
    closerIndex? (front ++ opening :: (inner ++ closing :: after)) front.length =
      some (front.length + 1 + inner.length) := by
  have found : close? 0 (inner ++ closing :: after) = some ⟨inner, closing, after⟩ :=
    close?_of_awaited isClosed isCloser after
  rw [closerIndex?, ← List.drop_drop, List.drop_left, List.drop_one, List.tail_cons, found]
  rfl

/-! ## Arguments -/

/-- What a face does to the number of brackets around the next one. -/
theorem depth_of_awaits
    {commas : Bool}
    {stack next : List String}
    {token : Token}
    (awaits : Awaits commas stack token.face next) :
    next.length =
      if opens token then stack.length + 1
      else if closes token then stack.length - 1
      else stack.length := by
  have isOpener := opens_eq token
  have isClosing := closes_eq token
  cases awaits with
  | opens opener => simp [isOpener, opener]
  | closes notOpener isCloser isStack => simp [isOpener, notOpener, isClosing, isCloser, isStack]
  | passes notOpener notCloser _ => simp [isOpener, notOpener, isClosing, notCloser]

theorem splitArguments_ne_nil (depth : Nat) (tokens : List Token) :
    Use.splitArguments depth tokens ≠ [] := by
  cases tokens with
  | nil => simp [Use.splitArguments]
  | cons token rest =>
    simp only [Use.splitArguments]
    split
    · simp
    · split <;> simp

theorem splitArguments_of_comma
    {token : Token}
    (isComma : isPunctuator [","] token)
    (rest : List Token) :
    Use.splitArguments 0 (token :: rest) = [] :: Use.splitArguments 0 rest := by
  simp [Use.splitArguments, isComma]

private theorem splitArguments_of_awaits
    {commas : Bool}
    {stack next : List String}
    {token : Token}
    {rest first : List Token}
    {others : List (List Token)}
    (awaits : Awaits commas stack token.face next)
    (inside : isPunctuator [","] token → stack ≠ [])
    (isSplit : Use.splitArguments next.length rest = first :: others) :
    Use.splitArguments stack.length (token :: rest) = (token :: first) :: others := by
  have noCut : (stack.length = 0 && isPunctuator [","] token) = false := by
    cases isComma : isPunctuator [","] token with
    | false => simp
    | true => simpa using inside isComma
  rw [depth_of_awaits awaits] at isSplit
  simp only [Use.splitArguments, noCut, isSplit]
  rfl

private theorem inside_of_awaits
    {stack next : List String}
    {token : Token}
    (awaits : Awaits false stack token.face next) :
    isPunctuator [","] token → stack ≠ [] := by
  intro isComma
  cases awaits with
  | opens opener =>
    rw [isPunctuator, Bool.and_eq_true] at isComma
    have isText : token.text = "," := by simpa using isComma.2
    simp [closerOf?, faceIs_face, isPunctuator, isText] at opener
  | closes _ _ isStack =>
    rw [isStack]
    exact List.cons_ne_nil _ _
  | passes _ _ allowed =>
    rw [← faceIs_face] at isComma
    exact (allowed isComma).resolve_left (by decide)

private theorem awaits_comma
    {token : Token}
    (isComma : isPunctuator [","] token)
    {commas : Bool}
    {stack : List String}
    (allowed : commas ∨ stack ≠ []) :
    Awaits commas stack token.face stack := by
  rw [isPunctuator, Bool.and_eq_true] at isComma
  have isText : token.text = "," := by simpa using isComma.2
  have notOpener : closerOf? token.face = none := by
    simp [closerOf?, faceIs_face, isPunctuator, isText]
  have notCloser : faceIs [")", "]", "\x7d"] token.face = false := by
    simp [faceIs_face, isPunctuator, isText]
  exact .passes notOpener notCloser fun _ => allowed

private theorem awaited_of_splitArguments
    {stack : List String}
    {tokens first : List Token}
    {others : List (List Token)}
    (isSplit : Use.splitArguments stack.length tokens = first :: others)
    (firstCloses : awaited true stack (first.map Token.face) = some [])
    (othersBalanced : ∀ part ∈ others, balanced part) :
    awaited true stack (tokens.map Token.face) = some [] := by
  induction tokens generalizing stack first others with
  | nil =>
    simp only [Use.splitArguments, List.cons.injEq] at isSplit
    rw [← isSplit.1] at firstCloses
    exact firstCloses
  | cons token rest inductionHypothesis =>
    by_cases cut : stack = [] ∧ isPunctuator [","] token
    · obtain ⟨rfl, isComma⟩ := cut
      rw [List.length_nil, splitArguments_of_comma isComma] at isSplit
      obtain ⟨-, rfl⟩ := List.cons.inj isSplit
      obtain ⟨next, more, isRest⟩ := List.exists_cons_of_ne_nil (splitArguments_ne_nil 0 rest)
      refine awaited_cons_eq_some_iff.mpr ⟨[], awaits_comma isComma (.inl rfl), ?_⟩
      refine @inductionHypothesis [] next more isRest ?_ ?_
      · have := othersBalanced next (by rw [isRest]; exact List.mem_cons_self)
        simpa [balanced] using this
      · intro part isPart
        exact othersBalanced part (by rw [isRest]; exact List.mem_cons_of_mem _ isPart)
    · have noCut : (stack.length = 0 && isPunctuator [","] token) = false := by
        simpa [← List.length_eq_zero_iff] using cut
      simp only [Use.splitArguments, noCut, Bool.false_eq_true, if_false] at isSplit
      split at isSplit
      · exact absurd ‹_› (splitArguments_ne_nil _ _)
      · rename_i tail more isRest
        obtain ⟨rfl, rfl⟩ := List.cons.inj isSplit
        obtain ⟨next, awaits, closesRest⟩ := awaited_cons_eq_some_iff.mp firstCloses
        refine awaited_cons_eq_some_iff.mpr ⟨next, awaits, ?_⟩
        rw [← depth_of_awaits awaits] at isRest
        exact inductionHypothesis isRest closesRest othersBalanced

/-- What stands between parentheses is balanced if every argument is. -/
theorem balanced_of_arguments
    {tokens : List Token}
    (arguments : ∀ span ∈ Use.argumentsOf tokens, balanced span.tokens) :
    balanced tokens := by
  have parts : ∀ part ∈ Use.splitArguments 0 tokens, balanced part := by
    intro part isPart
    cases part with
    | nil => rfl
    | cons token part =>
      obtain ⟨span, isArgument⟩ := Use.exists_argument? (List.cons_ne_nil token part)
      rw [← Use.tokens_of_argument? isArgument]
      exact arguments span (List.mem_filterMap.mpr ⟨token :: part, isPart, isArgument⟩)
  obtain ⟨first, others, isSplit⟩ := List.exists_cons_of_ne_nil (splitArguments_ne_nil 0 tokens)
  rw [isSplit] at parts
  have firstBalanced := parts first List.mem_cons_self
  simp only [balanced, decide_eq_true_eq] at firstBalanced ⊢
  exact @awaited_of_splitArguments [] tokens first others isSplit firstBalanced
    fun part isPart => parts part (List.mem_cons_of_mem _ isPart)

/-- Tokens without a comma outside brackets are one argument up to the next
comma. -/
theorem splitArguments_append
    {stack : List String}
    {tokens : List Token}
    (isLeft : awaited false stack (tokens.map Token.face) = some [])
    {comma : Token}
    (isComma : isPunctuator [","] comma)
    (after : List Token) :
    Use.splitArguments stack.length (tokens ++ comma :: after) =
      tokens :: Use.splitArguments 0 after := by
  induction tokens generalizing stack with
  | nil =>
    obtain rfl := Option.some.inj isLeft
    exact splitArguments_of_comma isComma after
  | cons token tokens inductionHypothesis =>
    obtain ⟨next, awaits, isRest⟩ := awaited_cons_eq_some_iff.mp isLeft
    exact splitArguments_of_awaits awaits (inside_of_awaits awaits) (inductionHypothesis isRest)

/-- Tokens without a comma outside brackets are a single argument. -/
theorem splitArguments_eq_singleton
    {stack : List String}
    {tokens : List Token}
    (isLeft : awaited false stack (tokens.map Token.face) = some []) :
    Use.splitArguments stack.length tokens = [tokens] := by
  induction tokens generalizing stack with
  | nil => rfl
  | cons token tokens inductionHypothesis =>
    obtain ⟨next, awaits, isRest⟩ := awaited_cons_eq_some_iff.mp isLeft
    exact splitArguments_of_awaits awaits (inside_of_awaits awaits) (inductionHypothesis isRest)

end Restyle.Bracket
