import Mathlib.Data.List.Induction
import Restyle.Proofs.Bracket.Balance

/-!
Contract: brackets of all kinds counted together.

Owns: `surplus`, the brackets that some tokens open less those that they close;
`KeepsOpen` and `KeepsClosed`, by which no beginning of some tokens closes, and no
end of them opens, more than a number of brackets; `Nested`, tokens that do
neither; and what the searches for a closer and for an opener find.

Read forwards nested tokens never fall below the depth at which they begin, read
backwards never below that at which they end, and the two say the same.
-/

namespace Restyle.Bracket

/-- What a token adds to the number of open brackets. -/
def change (token : Token) : Int :=
  if opens token then 1 else if closes token then -1 else 0

/-- The brackets that some tokens open, less those that they close. -/
def surplus : List Token → Int
  | [] => 0
  | token :: rest => change token + surplus rest

@[simp]
theorem surplus_nil : surplus [] = 0 :=
  rfl

@[simp]
theorem surplus_cons (token : Token) (tokens : List Token) :
    surplus (token :: tokens) = change token + surplus tokens :=
  rfl

@[simp]
theorem surplus_append (left right : List Token) :
    surplus (left ++ right) = surplus left + surplus right := by
  induction left with
  | nil => simp
  | cons token rest ih => simp [ih, Int.add_assoc]

theorem change_of_opens {token : Token} (isOpener : opens token) : change token = 1 := by
  simp [change, isOpener]

theorem change_of_closes {token : Token} (isCloser : closes token) : change token = -1 := by
  simp [change, isCloser, not_opens_of_closes isCloser]

theorem change_of_plain
    {token : Token}
    (notOpener : opens token = false)
    (notCloser : closes token = false) :
    change token = 0 := by
  simp [change, notOpener, notCloser]

theorem change_cases (token : Token) :
    opens token ∧ change token = 1 ∨ closes token ∧ change token = -1 ∨
      opens token = false ∧ closes token = false ∧ change token = 0 := by
  cases isOpener : opens token with
  | true => exact .inl ⟨rfl, change_of_opens isOpener⟩
  | false =>
    cases isCloser : closes token with
    | true => exact .inr (.inl ⟨rfl, change_of_closes isCloser⟩)
    | false => exact .inr (.inr ⟨rfl, rfl, change_of_plain isOpener isCloser⟩)

/-! ## Beginnings and ends -/

/-- At a depth no beginning of some tokens closes a bracket that was not open. -/
def KeepsOpen (depth : Int) (tokens : List Token) : Prop :=
  ∀ front, front <+: tokens → 0 ≤ depth + surplus front

/-- Up to a depth no end of some tokens opens a bracket that is not closed. -/
def KeepsClosed (depth : Int) (tokens : List Token) : Prop :=
  ∀ back, back <:+ tokens → surplus back ≤ depth

/-- The brackets in some tokens close each other: no beginning closes more of them
than it opens, and as many are closed as are opened. -/
structure Nested (tokens : List Token) : Prop where
  keepsOpen : KeepsOpen 0 tokens
  closed : surplus tokens = 0

theorem KeepsOpen.of_prefix
    {depth : Int}
    {tokens front : List Token}
    (keeps : KeepsOpen depth tokens)
    (begins : front <+: tokens) :
    KeepsOpen depth front :=
  fun _ isFront => keeps _ (isFront.trans begins)

private theorem keepsOpen_nil {depth : Int} : KeepsOpen depth [] ↔ 0 ≤ depth := by
  constructor
  · intro keeps
    simpa using keeps [] List.nil_prefix
  · intro positive front isFront
    rw [List.prefix_nil.mp isFront]
    simpa using positive

theorem keepsOpen_cons {depth : Int} {token : Token} {tokens : List Token} :
    KeepsOpen depth (token :: tokens) ↔ 0 ≤ depth ∧ KeepsOpen (depth + change token) tokens := by
  constructor
  · intro keeps
    refine ⟨by simpa using keeps [] List.nil_prefix, fun front isFront => ?_⟩
    have := keeps (token :: front) ((List.prefix_cons_inj token).mpr isFront)
    rw [surplus_cons] at this
    omega
  · rintro ⟨positive, keeps⟩ front isFront
    rcases List.prefix_cons_iff.mp isFront with rfl | ⟨more, rfl, isMore⟩
    · simpa using positive
    · have := keeps more isMore
      rw [surplus_cons]
      omega

private theorem keepsClosed_nil {depth : Int} : KeepsClosed depth [] ↔ 0 ≤ depth := by
  constructor
  · intro keeps
    simpa using keeps [] (List.suffix_refl [])
  · intro positive back isBack
    rw [List.suffix_nil.mp isBack]
    simpa using positive

private theorem keepsClosed_concat {depth : Int} {token : Token} {tokens : List Token} :
    KeepsClosed depth (tokens ++ [token]) ↔
      0 ≤ depth ∧ KeepsClosed (depth - change token) tokens := by
  constructor
  · intro keeps
    refine ⟨by simpa using keeps [] (List.nil_suffix), fun back isBack => ?_⟩
    obtain ⟨front, rfl⟩ := isBack
    have := keeps (back ++ [token]) ⟨front, by simp⟩
    simp only [surplus_append, surplus_cons, surplus_nil] at this
    omega
  · rintro ⟨positive, keeps⟩ back isBack
    rcases List.suffix_concat_iff.mp isBack with rfl | ⟨more, rfl, isMore⟩
    · simpa using positive
    · have := keeps more isMore
      simp only [surplus_append, surplus_cons, surplus_nil]
      omega

/-- Of tokens that close as many brackets as they open, no beginning closes too
many exactly if no end opens too many. -/
theorem keepsOpen_iff_keepsClosed {tokens : List Token} (closed : surplus tokens = 0) :
    KeepsOpen 0 tokens ↔ KeepsClosed 0 tokens := by
  constructor
  · rintro keeps back ⟨front, rfl⟩
    have := keeps front (List.prefix_append front back)
    rw [surplus_append] at closed
    omega
  · rintro keeps front ⟨back, rfl⟩
    have := keeps back (List.suffix_append front back)
    rw [surplus_append] at closed
    omega

theorem Nested.keepsClosed {tokens : List Token} (nested : Nested tokens) : KeepsClosed 0 tokens :=
  (keepsOpen_iff_keepsClosed nested.closed).mp nested.keepsOpen

/-! ## Searching for a closer -/

/-- A token closes the last open bracket, or leaves some number of them open. -/
theorem cases_of_depth (depth : Nat) (token : Token) :
    closes token ∧ depth = 0 ∨ ∃ next : Nat, (next : Int) = depth + change token := by
  rcases change_cases token with ⟨_, isChange⟩ | ⟨isCloser, isChange⟩ | ⟨_, _, isChange⟩
  · exact .inr ⟨depth + 1, by omega⟩
  · cases depth with
    | zero => exact .inl ⟨isCloser, rfl⟩
    | succ depth => exact .inr ⟨depth, by omega⟩
  · exact .inr ⟨depth, by omega⟩

private theorem close?_of_closes {token : Token} (isCloser : closes token) (rest : List Token) :
    close? 0 (token :: rest) = some ⟨[], token, rest⟩ := by
  simp [close?, isCloser, not_opens_of_closes isCloser]

private theorem close?_of_change
    {depth next : Nat}
    {token : Token}
    (isNext : (next : Int) = depth + change token)
    (rest : List Token) :
    close? depth (token :: rest) =
      (close? next rest).map fun cut => { cut with before := token :: cut.before } := by
  rcases change_cases token with
    ⟨isOpener, isChange⟩ | ⟨isCloser, isChange⟩ | ⟨notOpener, notCloser, isChange⟩
  · obtain rfl : next = depth + 1 := by omega
    simp [close?, isOpener]
  · obtain rfl : depth = next + 1 := by omega
    simp [close?, isCloser, not_opens_of_closes isCloser]
  · obtain rfl : next = depth := by omega
    simp [close?, notOpener, notCloser]

/-- What stands before the closer that is found closes all brackets open but the
outermost, and its beginnings close no more. -/
theorem keepsOpen_of_close?
    {depth : Nat}
    {tokens : List Token}
    {cut : Cut}
    (found : close? depth tokens = some cut) :
    KeepsOpen depth cut.before ∧ depth + surplus cut.before = 0 := by
  induction tokens generalizing depth cut with
  | nil => simp [close?] at found
  | cons token rest inductionHypothesis =>
    rcases cases_of_depth depth token with ⟨isCloser, rfl⟩ | ⟨next, isNext⟩
    · rw [close?_of_closes isCloser, Option.some.injEq] at found
      subst found
      exact ⟨keepsOpen_nil.mpr (Int.le_refl 0), rfl⟩
    · rw [close?_of_change isNext] at found
      obtain ⟨inner, isInner, rfl⟩ := Option.map_eq_some_iff.mp found
      obtain ⟨keeps, closed⟩ := inductionHypothesis isInner
      refine ⟨keepsOpen_cons.mpr ⟨by omega, ?_⟩, ?_⟩
      · rwa [← isNext]
      · rw [surplus_cons]
        omega

/-- Tokens that close all brackets open but the outermost are passed over. -/
theorem close?_of_keepsOpen
    {depth : Nat}
    {before : List Token}
    {closer : Token}
    (isCloser : closes closer)
    (keeps : KeepsOpen depth before)
    (closed : depth + surplus before = 0)
    (after : List Token) :
    close? depth (before ++ closer :: after) = some ⟨before, closer, after⟩ := by
  induction before generalizing depth with
  | nil =>
    obtain rfl : depth = 0 := by simpa using closed
    exact close?_of_closes isCloser after
  | cons token before inductionHypothesis =>
    obtain ⟨_, keepsRest⟩ := keepsOpen_cons.mp keeps
    rw [surplus_cons] at closed
    have positive : 0 ≤ (depth : Int) + change token := by
      simpa using keepsRest [] List.nil_prefix
    obtain ⟨next, isNext⟩ := Int.eq_ofNat_of_zero_le positive
    rw [isNext] at keepsRest
    rw [List.cons_append, close?_of_change isNext.symm,
      inductionHypothesis keepsRest (by omega)]
    rfl

theorem close?_eq_some_iff {depth : Nat} {tokens : List Token} {cut : Cut} :
    close? depth tokens = some cut ↔
      tokens = cut.before ++ cut.token :: cut.after ∧ closes cut.token ∧
        KeepsOpen depth cut.before ∧ depth + surplus cut.before = 0 := by
  constructor
  · intro found
    exact ⟨eq_of_close? found, Use.closes_of_close? found, keepsOpen_of_close? found⟩
  · rintro ⟨rfl, isCloser, keeps, closed⟩
    exact close?_of_keepsOpen isCloser keeps closed cut.after

/-- No closer is found exactly if no beginning closes the outermost bracket. -/
theorem close?_eq_none_iff {depth : Nat} {tokens : List Token} :
    close? depth tokens = none ↔ KeepsOpen depth tokens := by
  induction tokens generalizing depth with
  | nil => simp [close?, keepsOpen_nil]
  | cons token rest inductionHypothesis =>
    rw [keepsOpen_cons]
    rcases cases_of_depth depth token with ⟨isCloser, rfl⟩ | ⟨next, isNext⟩
    · rw [close?_of_closes isCloser, change_of_closes isCloser]
      simp only [reduceCtorEq, false_iff, not_and]
      intro _ keeps
      simpa using keeps [] List.nil_prefix
    · rw [close?_of_change isNext, Option.map_eq_none_iff, inductionHypothesis, isNext]
      simp

/-! ## Searching for an opener -/

/-- A token opens the bracket that is looked for, or leaves some number of closers
to be passed. -/
theorem cases_of_passed (depth : Nat) (token : Token) :
    opens token ∧ depth = 0 ∨ ∃ next : Nat, (next : Int) = depth - change token := by
  rcases change_cases token with ⟨isOpener, isChange⟩ | ⟨_, isChange⟩ | ⟨_, _, isChange⟩
  · cases depth with
    | zero => exact .inl ⟨isOpener, rfl⟩
    | succ depth => exact .inr ⟨depth, by omega⟩
  · exact .inr ⟨depth + 1, by omega⟩
  · exact .inr ⟨depth, by omega⟩

private theorem not_closes_of_opens
    {token : Token}
    (isOpener : opens token) :
    closes token = false := by
  cases isCloser : closes token with
  | false => rfl
  | true => simp [not_opens_of_closes isCloser] at isOpener

private theorem innermost?_of_opens {token : Token} (isOpener : opens token) (rest : List Token) :
    innermost? 0 (token :: rest) = some (token, rest) := by
  simp [innermost?, isOpener, not_closes_of_opens isOpener]

private theorem innermost?_of_change
    {depth next : Nat}
    {token : Token}
    (isNext : (next : Int) = depth - change token)
    (rest : List Token) :
    innermost? depth (token :: rest) = innermost? next rest := by
  rcases change_cases token with
    ⟨isOpener, isChange⟩ | ⟨isCloser, isChange⟩ | ⟨notOpener, notCloser, isChange⟩
  · obtain rfl : depth = next + 1 := by omega
    simp [innermost?, isOpener, not_closes_of_opens isOpener]
  · obtain rfl : next = depth + 1 := by omega
    simp [innermost?, isCloser]
  · obtain rfl : next = depth := by omega
    simp [innermost?, notOpener, notCloser]

/-- What stands after the opener that is found opens all brackets that are closed
later, and its ends open no more. -/
theorem innermost?_of_keepsClosed
    {depth : Nat}
    {opener : Token}
    {between : List Token}
    (isOpener : opens opener)
    (keeps : KeepsClosed depth between)
    (opened : surplus between = depth)
    (front : List Token) :
    innermost? depth (front ++ opener :: between).reverse = some (opener, front.reverse) := by
  induction between using List.reverseRecOn generalizing depth with
  | nil =>
    obtain rfl : depth = 0 := by simpa using opened.symm
    simpa using innermost?_of_opens isOpener front.reverse
  | append_singleton between token inductionHypothesis =>
    obtain ⟨_, keepsRest⟩ := keepsClosed_concat.mp keeps
    simp only [surplus_append, surplus_cons, surplus_nil] at opened
    have positive : 0 ≤ (depth : Int) - change token := by
      simpa using keepsRest [] (List.nil_suffix)
    obtain ⟨next, isNext⟩ := Int.eq_ofNat_of_zero_le positive
    rw [← List.cons_append, ← List.append_assoc, List.reverse_append, List.reverse_singleton,
      List.singleton_append, innermost?_of_change isNext.symm]
    rw [isNext] at keepsRest
    exact inductionHypothesis keepsRest (by omega)

/-- The opener that is found is the last that the tokens after it leave open. -/
theorem exists_of_innermost?
    {depth : Nat}
    {tokens : List Token}
    {found : Token × List Token}
    (isFound : innermost? depth tokens.reverse = some found) :
    ∃ between, tokens = found.2.reverse ++ found.1 :: between ∧ opens found.1 ∧
      KeepsClosed depth between ∧ surplus between = depth := by
  induction tokens using List.reverseRecOn generalizing depth with
  | nil => simp [innermost?] at isFound
  | append_singleton tokens token inductionHypothesis =>
    rw [List.reverse_append, List.reverse_singleton, List.singleton_append] at isFound
    rcases cases_of_passed depth token with ⟨isOpener, rfl⟩ | ⟨next, isNext⟩
    · rw [innermost?_of_opens isOpener, Option.some.injEq] at isFound
      subst isFound
      exact ⟨[], by simp, isOpener, keepsClosed_nil.mpr (Int.le_refl 0), rfl⟩
    · rw [innermost?_of_change isNext] at isFound
      obtain ⟨between, rfl, isOpener, keeps, opened⟩ := inductionHypothesis isFound
      refine ⟨between ++ [token], by simp, isOpener, keepsClosed_concat.mpr ⟨by omega, ?_⟩, ?_⟩
      · rwa [← isNext]
      · simp only [surplus_append, surplus_cons, surplus_nil]
        omega

/-- No opener is found exactly if no end of the tokens leaves one open. -/
theorem innermost?_eq_none_iff {depth : Nat} {tokens : List Token} :
    innermost? depth tokens.reverse = none ↔ KeepsClosed depth tokens := by
  induction tokens using List.reverseRecOn generalizing depth with
  | nil => simp [innermost?, keepsClosed_nil]
  | append_singleton tokens token inductionHypothesis =>
    rw [List.reverse_append, List.reverse_singleton, List.singleton_append, keepsClosed_concat]
    rcases cases_of_passed depth token with ⟨isOpener, rfl⟩ | ⟨next, isNext⟩
    · rw [innermost?_of_opens isOpener, change_of_opens isOpener]
      simp only [reduceCtorEq, false_iff, not_and]
      intro _ keeps
      simpa using keeps [] (List.nil_suffix)
    · rw [innermost?_of_change isNext, inductionHypothesis, isNext]
      simp

end Restyle.Bracket
