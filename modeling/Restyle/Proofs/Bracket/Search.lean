import Mathlib.Order.Bounds.Basic
import Restyle.Proofs.Bracket.Depth

/-!
Contract: the searches for brackets by index agree.

Owns: `between`, the tokens between two indices; `OpenBefore`, an opener that is
not closed before an index; what the searches for a closer and for the innermost
opener find by index; that nested tokens whose brackets pair by kind are balanced;
and that the search for an opening brace finds the innermost opener where every
closer closes an opener of its kind.
-/

namespace Restyle.Bracket

/-- Whether the token at an index opens a bracket. -/
def opensAt (tokens : List Token) (index : Nat) : Bool :=
  tokens[index]?.any opens

/-- Whether the token at an index closes a bracket. -/
def closesAt (tokens : List Token) (index : Nat) : Bool :=
  tokens[index]?.any closes

/-- The tokens between two indices. -/
def between (tokens : List Token) (opening closing : Nat) : List Token :=
  (tokens.take closing).drop (opening + 1)

/-- The token at an index opens a bracket that is not closed before a later one. -/
structure OpenBefore (tokens : List Token) (index opening : Nat) : Prop where
  before : opening < index
  isOpener : opensAt tokens opening
  staysOpen : ∀ closing, closerIndex? tokens opening = some closing → index ≤ closing

/-- Every closer closes an opener of its own kind.  Openers may be left open. -/
def ClosesOwnKind (tokens : List Token) : Prop :=
  ∀ closing closer, tokens[closing]? = some closer → closes closer →
    ∃ opening opener, tokens[opening]? = some opener ∧
      closerOf? opener.face = some closer.text ∧ closerIndex? tokens opening = some closing

/-! ## Indices -/

theorem between_split
    {tokens : List Token}
    {opening middle closing : Nat}
    {token : Token}
    (early : opening < middle)
    (late : middle < closing)
    (isToken : tokens[middle]? = some token) :
    between tokens opening closing =
      between tokens opening middle ++ token :: between tokens middle closing := by
  have isTaken : (tokens.take closing)[middle]? = some token := by
    rw [List.getElem?_take_of_lt late, isToken]
  obtain ⟨inside, isElement⟩ := List.getElem?_eq_some_iff.mp isTaken
  have isDrop : (tokens.take closing).drop middle = token :: between tokens middle closing := by
    rw [List.drop_eq_getElem_cons inside, isElement]
    rfl
  have isPart : between tokens opening middle =
      ((tokens.take closing).drop (opening + 1)).take (middle - (opening + 1)) := by
    rw [between, ← List.drop_take, List.take_take, Nat.min_eq_left (Nat.le_of_lt late)]
  have isRest : ((tokens.take closing).drop (opening + 1)).drop (middle - (opening + 1)) =
      token :: between tokens middle closing := by
    rw [List.drop_drop, ← isDrop]
    congr 1
    omega
  rw [isPart, ← isRest, List.take_append_drop]
  rfl

theorem between_succ (tokens : List Token) (opening : Nat) :
    between tokens opening (opening + 1) = [] := by
  rw [between, List.drop_eq_nil_iff, List.length_take]
  exact Nat.min_le_left _ _

theorem length_between
    {tokens : List Token}
    {opening closing : Nat}
    (inside : closing ≤ tokens.length) :
    (between tokens opening closing).length = closing - (opening + 1) := by
  rw [between, List.length_drop, List.length_take, Nat.min_eq_left inside]

theorem between_eq_cons
    {tokens : List Token}
    {opening closing : Nat}
    {token : Token}
    (early : opening + 1 < closing)
    (isToken : tokens[opening + 1]? = some token) :
    between tokens opening closing = token :: between tokens (opening + 1) closing := by
  rw [between_split (Nat.lt_succ_self opening) early isToken, between_succ, List.nil_append]

theorem surplus_between_succ
    {tokens : List Token}
    {opening position : Nat}
    {token : Token}
    (after : opening < position)
    (isToken : tokens[position]? = some token) :
    surplus (between tokens opening (position + 1)) =
      surplus (between tokens opening position) + change token := by
  rw [between_split after (Nat.lt_succ_self position) isToken, between_succ, surplus_append,
    surplus_cons, surplus_nil, Int.add_zero]

theorem between_begins
    (tokens : List Token)
    (opening : Nat)
    {middle closing : Nat}
    (early : middle ≤ closing) :
    between tokens opening middle <+: between tokens opening closing := by
  rw [between, between, List.drop_take, List.drop_take]
  exact List.take_prefix_take_left (by omega)

private theorem between_begins_drop (tokens : List Token) (opening closing : Nat) :
    between tokens opening closing <+: tokens.drop (opening + 1) := by
  rw [between, List.drop_take]
  exact List.take_prefix _ _

private theorem take_eq_append_between
    {tokens : List Token}
    {opening closing : Nat}
    {opener : Token}
    (ordered : opening < closing)
    (isToken : tokens[opening]? = some opener) :
    tokens.take closing = tokens.take opening ++ opener :: between tokens opening closing := by
  have isTaken : (tokens.take closing)[opening]? = some opener := by
    rw [List.getElem?_take_of_lt ordered, isToken]
  obtain ⟨inside, isElement⟩ := List.getElem?_eq_some_iff.mp isTaken
  have isRest : (tokens.take closing).drop opening = opener :: between tokens opening closing := by
    rw [List.drop_eq_getElem_cons inside, isElement]
    rfl
  rw [← isRest, ← Nat.min_eq_left (Nat.le_of_lt ordered), ← List.take_take,
    Nat.min_eq_left (Nat.le_of_lt ordered), List.take_append_drop]

/-! ## The closer of an index -/

private theorem closerIndex?_of_nested
    {front inner back : List Token}
    {opener closer : Token}
    (isCloser : closes closer)
    (nested : Nested inner) :
    closerIndex? (front ++ opener :: (inner ++ closer :: back)) front.length =
      some (front.length + 1 + inner.length) := by
  have isDrop : (front ++ opener :: (inner ++ closer :: back)).drop (front.length + 1) =
      inner ++ closer :: back := by
    simp [← List.drop_drop]
  have closed : ((0 : Nat) : Int) + surplus inner = 0 := by
    rw [nested.closed]
    rfl
  rw [closerIndex?, isDrop, close?_of_keepsOpen isCloser nested.keepsOpen closed]
  rfl

/-- The closer of an opener is the one up to which all is nested. -/
theorem closerIndex?_eq_some_iff {tokens : List Token} {opening closing : Nat} :
    closerIndex? tokens opening = some closing ↔
      opening < closing ∧ closesAt tokens closing ∧ Nested (between tokens opening closing) := by
  constructor
  · intro found
    obtain ⟨cut, isCut, rfl⟩ := Option.map_eq_some_iff.mp found
    obtain ⟨isRest, isCloser, keeps, closed⟩ := close?_eq_some_iff.mp isCut
    have isBetween : between tokens opening (opening + 1 + cut.before.length) = cut.before := by
      rw [between, List.drop_take, isRest, Nat.add_sub_cancel_left, List.take_left]
    have isToken : tokens[opening + 1 + cut.before.length]? = some cut.token := by
      rw [← List.getElem?_drop, isRest, List.getElem?_append_right (Nat.le_refl _), Nat.sub_self]
      rfl
    refine ⟨by omega, by simp [closesAt, isToken, isCloser], ?_⟩
    rw [isBetween]
    exact ⟨keeps, by simpa using closed⟩
  · rintro ⟨ordered, isCloser, nested⟩
    obtain ⟨closer, isToken, isCloser⟩ := (Option.any_eq_true _ _).mp isCloser
    have inside := (List.getElem?_eq_some_iff.mp isToken).1
    have isRest : tokens.drop (opening + 1) =
        between tokens opening closing ++ closer :: tokens.drop (closing + 1) := by
      have isWhole := between_split ordered inside isToken
      simp only [between, List.take_length] at isWhole ⊢
      exact isWhole
    have closed : ((0 : Nat) : Int) + surplus (between tokens opening closing) = 0 := by
      rw [nested.closed]
      rfl
    have size : (between tokens opening closing).length = closing - (opening + 1) :=
      length_between (Nat.le_of_lt inside)
    rw [closerIndex?, isRest, close?_of_keepsOpen isCloser nested.keepsOpen closed]
    simp only [Option.map_some, Option.some.injEq, size]
    omega

theorem exists_token_of_closerIndex?
    {tokens : List Token}
    {opening closing : Nat}
    (found : closerIndex? tokens opening = some closing)
    {position : Nat}
    (before : position ≤ closing) :
    ∃ token, tokens[position]? = some token := by
  obtain ⟨_, isCloser, _⟩ := closerIndex?_eq_some_iff.mp found
  obtain ⟨closer, isToken, _⟩ := (Option.any_eq_true _ _).mp isCloser
  have inside := (List.getElem?_eq_some_iff.mp isToken).1
  exact ⟨_, List.getElem?_eq_getElem (Nat.lt_of_le_of_lt before inside)⟩

/-- Up to an index a bracket stays open if nothing between closes it. -/
theorem keepsOpen_between_iff {tokens : List Token} {opening index : Nat} :
    KeepsOpen 0 (between tokens opening index) ↔
      ∀ closing, closerIndex? tokens opening = some closing → index ≤ closing := by
  constructor
  · intro keeps closing found
    by_contra early
    obtain ⟨ordered, isCloser, nested⟩ := closerIndex?_eq_some_iff.mp found
    obtain ⟨closer, isToken, isCloser⟩ := (Option.any_eq_true _ _).mp isCloser
    have isWhole := between_split ordered (Nat.lt_of_not_le early) isToken
    have := keeps (between tokens opening closing ++ [closer]) (by simp [isWhole])
    rw [surplus_append, nested.closed, surplus_cons, change_of_closes isCloser] at this
    simp at this
  · intro staysOpen
    cases found : closerIndex? tokens opening with
    | none =>
      have keeps : KeepsOpen 0 (tokens.drop (opening + 1)) :=
        close?_eq_none_iff.mp (Option.map_eq_none_iff.mp found)
      exact keeps.of_prefix (between_begins_drop tokens opening index)
    | some closing =>
      have nested := (closerIndex?_eq_some_iff.mp found).2.2
      exact nested.keepsOpen.of_prefix (between_begins tokens opening (staysOpen closing found))

/-! ## The innermost opener of an index -/

/-- The innermost opener before an index is the one after which all is nested. -/
theorem openerIndex?_eq_some_iff {tokens : List Token} {opening index : Nat} :
    openerIndex? tokens index = some opening ↔
      opening < index ∧ opensAt tokens opening ∧ Nested (between tokens opening index) := by
  constructor
  · intro found
    obtain ⟨⟨opener, before⟩, isFound, rfl⟩ := Option.map_eq_some_iff.mp found
    obtain ⟨after, isTaken, isOpener, keeps, opened⟩ := exists_of_innermost? isFound
    have isIndex : before.length = before.reverse.length := by simp
    have fits : before.length < index := by
      have size := congrArg List.length isTaken
      simp only [List.length_take, List.length_append, List.length_reverse,
        List.length_cons] at size
      omega
    have isToken : tokens[before.length]? = some opener := by
      rw [← List.getElem?_take_of_lt fits, isTaken, isIndex,
        List.getElem?_append_right (Nat.le_refl _), Nat.sub_self]
      rfl
    have isBetween : between tokens before.length index = after := by
      rw [between, isTaken, isIndex, ← List.drop_drop, List.drop_left]
      rfl
    refine ⟨fits, by simp [opensAt, isToken, isOpener], ?_⟩
    rw [isBetween]
    exact ⟨(keepsOpen_iff_keepsClosed opened).mpr keeps, opened⟩
  · rintro ⟨ordered, isOpener, nested⟩
    obtain ⟨opener, isToken, isOpener⟩ := (Option.any_eq_true _ _).mp isOpener
    have inside := (List.getElem?_eq_some_iff.mp isToken).1
    rw [openerIndex?, take_eq_append_between ordered isToken,
      innermost?_of_keepsClosed isOpener nested.keepsClosed nested.closed]
    simp only [Option.map_some, List.length_reverse, List.length_take, Option.some.injEq]
    omega

theorem OpenBefore.keepsOpen
    {tokens : List Token}
    {index opening : Nat}
    (isOpen : OpenBefore tokens index opening) :
    KeepsOpen 0 (between tokens opening index) :=
  keepsOpen_between_iff.mpr isOpen.staysOpen

/-- An opener that stays open is one more opened than closed, to the end. -/
theorem OpenBefore.exists_opener
    {tokens : List Token}
    {index opening : Nat}
    (isOpen : OpenBefore tokens index opening) :
    ∃ opener, tokens[opening]? = some opener ∧
      0 < surplus (opener :: between tokens opening index) := by
  obtain ⟨opener, isToken, isOpener⟩ := (Option.any_eq_true _ _).mp isOpen.isOpener
  refine ⟨opener, isToken, ?_⟩
  have := isOpen.keepsOpen _ (List.prefix_refl _)
  rw [surplus_cons, change_of_opens isOpener]
  omega

private theorem openBefore_of_openerIndex?
    {tokens : List Token}
    {index opening : Nat}
    (found : openerIndex? tokens index = some opening) :
    OpenBefore tokens index opening := by
  obtain ⟨ordered, isOpener, nested⟩ := openerIndex?_eq_some_iff.mp found
  exact ⟨ordered, isOpener, keepsOpen_between_iff.mp nested.keepsOpen⟩

/-- Of the openers that stay open up to an index, the innermost is the last. -/
theorem isGreatest_of_openerIndex?
    {tokens : List Token}
    {index opening : Nat}
    (found : openerIndex? tokens index = some opening) :
    IsGreatest {opening | OpenBefore tokens index opening} opening := by
  refine ⟨openBefore_of_openerIndex? found, fun other isOpen => ?_⟩
  by_contra later
  obtain ⟨opener, isToken, opened⟩ := OpenBefore.exists_opener isOpen
  have nested := (openerIndex?_eq_some_iff.mp found).2.2
  have isWhole := between_split (Nat.lt_of_not_le later) (OpenBefore.before isOpen) isToken
  have := nested.keepsClosed (opener :: between tokens other index) (by simp [isWhole])
  omega

private theorem not_openBefore_of_openerIndex?
    {tokens : List Token}
    {index : Nat}
    (found : openerIndex? tokens index = none)
    (opening : Nat) :
    ¬ OpenBefore tokens index opening := by
  intro isOpen
  obtain ⟨opener, isToken, opened⟩ := isOpen.exists_opener
  have keeps : KeepsClosed 0 (tokens.take index) :=
    innermost?_eq_none_iff.mp (Option.map_eq_none_iff.mp found)
  have := keeps (opener :: between tokens opening index)
    ⟨_, (take_eq_append_between isOpen.before isToken).symm⟩
  omega

theorem openerIndex?_eq_some_iff_isGreatest {tokens : List Token} {index opening : Nat} :
    openerIndex? tokens index = some opening ↔
      IsGreatest {opening | OpenBefore tokens index opening} opening := by
  refine ⟨isGreatest_of_openerIndex?, fun isGreatest => ?_⟩
  cases found : openerIndex? tokens index with
  | none => exact absurd isGreatest.1 (not_openBefore_of_openerIndex? found opening)
  | some own => rw [(isGreatest_of_openerIndex? found).unique isGreatest]

private theorem openerIndex?_eq_none_iff {tokens : List Token} {index : Nat} :
    openerIndex? tokens index = none ↔ ∀ opening, ¬ OpenBefore tokens index opening := by
  refine ⟨not_openBefore_of_openerIndex?, fun noneOpen => ?_⟩
  cases found : openerIndex? tokens index with
  | none => rfl
  | some opening => exact absurd (openBefore_of_openerIndex? found) (noneOpen opening)

/-- An opener has a closer exactly if it is the innermost one before the closer. -/
theorem closerIndex?_eq_some_iff_openerIndex?
    {tokens : List Token}
    {opening closing : Nat}
    (isOpener : opensAt tokens opening)
    (isCloser : closesAt tokens closing) :
    closerIndex? tokens opening = some closing ↔ openerIndex? tokens closing = some opening := by
  rw [closerIndex?_eq_some_iff, openerIndex?_eq_some_iff]
  simp [isOpener, isCloser]

/-! ## Brackets by kind -/

/-- Nested tokens that begin with an opener are what stands in the bracket, its
closer, and nested tokens after it. -/
theorem Nested.exists_closer
    {opener : Token}
    {tokens : List Token}
    (nested : Nested (opener :: tokens))
    (isOpener : opens opener) :
    ∃ inner closer back, tokens = inner ++ closer :: back ∧ closes closer ∧ Nested inner ∧
      Nested back := by
  have closed := nested.closed
  rw [surplus_cons, change_of_opens isOpener] at closed
  cases found : close? 0 tokens with
  | none =>
    have := close?_eq_none_iff.mp found tokens (List.prefix_refl tokens)
    simp only [Int.natCast_zero] at this
    omega
  | some cut =>
    obtain ⟨isTokens, isCloser, keeps, closedInner⟩ := close?_eq_some_iff.mp found
    have inner : Nested cut.before := ⟨keeps, by simpa using closedInner⟩
    refine ⟨cut.before, cut.token, cut.after, isTokens, isCloser, inner, ?_⟩
    have before : ∀ front, surplus (opener :: (cut.before ++ cut.token :: front)) =
        surplus front := by
      intro front
      rw [surplus_cons, surplus_append, surplus_cons, change_of_opens isOpener, inner.closed,
        change_of_closes isCloser]
      omega
    constructor
    · rintro front ⟨rest, isAfter⟩
      rw [← before front]
      refine nested.keepsOpen _ ⟨rest, ?_⟩
      rw [isTokens, ← isAfter]
      simp
    · rw [← before cut.after, ← isTokens]
      exact nested.closed

private theorem closerOf?_of_not_opens {token : Token} (notOpener : opens token = false) :
    closerOf? token.face = none := by
  rw [opens_eq] at notOpener
  simpa using notOpener

/-- Nested tokens in which each closer is of the kind of what it closes are
balanced. -/
theorem balanced_of_nested
    {tokens : List Token}
    (nested : Nested tokens)
    (paired : ∀ front opener inner closer back,
      tokens = front ++ opener :: (inner ++ closer :: back) → opens opener → closes closer →
        Nested inner → closerOf? opener.face = some closer.text) :
    awaited true [] (tokens.map Token.face) = some [] := by
  induction size : tokens.length using Nat.strongRecOn generalizing tokens with
  | ind count inductionHypothesis =>
    cases tokens with
    | nil => rfl
    | cons token rest =>
      rw [List.length_cons] at size
      rw [List.map_cons, awaited_cons_eq_some_iff]
      rcases change_cases token with
        ⟨isOpener, _⟩ | ⟨_, isChange⟩ | ⟨notOpener, notCloser, isChange⟩
      · -- An opener: what stands in its bracket and what follows are shorter.
        obtain ⟨inner, closer, back, rfl, isCloser, innerNested, backNested⟩ :=
          nested.exists_closer isOpener
        rw [List.length_append, List.length_cons] at size
        have isPair := paired [] token inner closer back rfl isOpener isCloser innerNested
        have innerBalanced := inductionHypothesis inner.length (by omega) innerNested
          (fun front opener between other rest isInner => paired (token :: front) opener between
            other (rest ++ closer :: back) (by simp [isInner])) rfl
        have backBalanced := inductionHypothesis back.length (by omega) backNested
          (fun front opener between other rest isBack => paired
            (token :: (inner ++ closer :: front)) opener between other rest (by simp [isBack])) rfl
        refine ⟨[closer.text], .opens isPair, ?_⟩
        rw [List.map_append, awaited_append, awaited_of_balanced innerBalanced, Option.bind_some,
          List.map_cons, awaited_cons_eq_some_iff]
        refine ⟨[], .closes (closerOf?_of_not_opens (not_opens_of_closes isCloser)) ?_ ?_,
          backBalanced⟩
        · rw [← closes_eq, isCloser]
        · rw [Token.text_face]
      · have := nested.keepsOpen [token] ⟨rest, rfl⟩
        simp [isChange] at this
      · have keeps := (keepsOpen_cons.mp nested.keepsOpen).2
        have closed := nested.closed
        rw [isChange] at keeps
        rw [surplus_cons, isChange] at closed
        have restBalanced := inductionHypothesis rest.length (by omega) ⟨keeps, by omega⟩
          (fun front opener inner closer back isRest => paired (token :: front) opener inner
            closer back (by rw [isRest]; rfl)) rfl
        refine ⟨[], .passes (closerOf?_of_not_opens notOpener) ?_ fun _ => .inl rfl, restBalanced⟩
        rw [← closes_eq, notCloser]

/-! ## Braces alone -/

private theorem text_of_faceIs
    {spelling : String}
    {face : Token.Face}
    (isMark : faceIs [spelling] face) :
    face.text = spelling := by
  simp only [faceIs, Bool.and_eq_true, List.contains_eq_mem, List.mem_singleton,
    decide_eq_true_eq] at isMark
  exact isMark.2

private theorem faceIs_of_text_ne
    {spelling : String}
    {face : Token.Face}
    (differs : face.text ≠ spelling) :
    faceIs [spelling] face = false := by
  simp [faceIs, differs]

/-- An opener awaits a closing brace exactly if it is a brace. -/
theorem faceIs_of_closerOf?
    {face : Token.Face}
    {closer : String}
    (isPair : closerOf? face = some closer) :
    faceIs ["\x7d"] face = false ∧ faceIs ["\x7b"] face = decide (closer = "\x7d") := by
  unfold closerOf? at isPair
  split at isPair
  · rename_i isParen
    obtain rfl := Option.some.inj isPair
    have isText := text_of_faceIs isParen
    exact ⟨faceIs_of_text_ne (by simp [isText]), faceIs_of_text_ne (by simp [isText])⟩
  split at isPair
  · rename_i isSquare
    obtain rfl := Option.some.inj isPair
    have isText := text_of_faceIs isSquare
    exact ⟨faceIs_of_text_ne (by simp [isText]), faceIs_of_text_ne (by simp [isText])⟩
  split at isPair
  · rename_i isBrace
    obtain rfl := Option.some.inj isPair
    have isText := text_of_faceIs isBrace
    exact ⟨faceIs_of_text_ne (by simp [isText]), by simpa using isBrace⟩
  · simp at isPair

private theorem openingBrace?_of_closing
    {token : Token}
    (isClosing : faceIs ["\x7d"] token.face)
    (depth : Nat)
    (after before : List Token) :
    openingBrace? depth after (token :: before) =
      openingBrace? (depth + 1) (token :: after) before := by
  rw [faceIs_face] at isClosing
  simp [openingBrace?, isClosing]

private theorem openingBrace?_of_opening
    {token : Token}
    (notClosing : faceIs ["\x7d"] token.face = false)
    (isOpening : faceIs ["\x7b"] token.face)
    (depth : Nat)
    (after before : List Token) :
    openingBrace? (depth + 1) after (token :: before) =
      openingBrace? depth (token :: after) before := by
  rw [faceIs_face] at notClosing isOpening
  simp [openingBrace?, notClosing, isOpening]

private theorem openingBrace?_of_other
    {token : Token}
    (notClosing : faceIs ["\x7d"] token.face = false)
    (notOpening : faceIs ["\x7b"] token.face = false)
    (depth : Nat)
    (after before : List Token) :
    openingBrace? depth after (token :: before) =
      openingBrace? depth (token :: after) before := by
  rw [faceIs_face] at notClosing notOpening
  simp [openingBrace?, notClosing, notOpening]

private theorem not_opening_of_closerOf? {face : Token.Face} (notOpener : closerOf? face = none) :
    faceIs ["\x7b"] face = false := by
  unfold closerOf? at notOpener
  split at notOpener
  · simp at notOpener
  split at notOpener
  · simp at notOpener
  split at notOpener
  · simp at notOpener
  · rename_i notBrace
    simpa using notBrace

/-- Going backwards over a token changes the number of braces to be passed by what
the token changes of the braces that are awaited. -/
theorem openingBrace?_of_awaits
    {token : Token}
    {stack next : List String}
    (awaits : Awaits true stack token.face next)
    {depth : Nat}
    (fits : next.count "\x7d" ≤ depth)
    (after before : List Token) :
    openingBrace? depth after (token :: before) =
      openingBrace? (depth - next.count "\x7d" + stack.count "\x7d") (token :: after) before := by
  cases awaits with
  | @opens closer isOpener =>
    obtain ⟨notClosing, isOpening⟩ := faceIs_of_closerOf? isOpener
    by_cases isBrace : closer = "\x7d"
    · rw [isBrace, List.count_cons_self] at fits ⊢
      obtain ⟨less, rfl⟩ := Nat.exists_eq_add_of_le fits
      rw [show stack.count "\x7d" + 1 + less = less + stack.count "\x7d" + 1 by omega,
        openingBrace?_of_opening notClosing (by simp [isOpening, isBrace])]
      congr 1
      omega
    · rw [List.count_cons_of_ne isBrace] at fits ⊢
      rw [Nat.sub_add_cancel fits,
        openingBrace?_of_other notClosing (by simp [isOpening, isBrace])]
  | closes notOpener isCloser isStack =>
    by_cases isBrace : token.face.text = "\x7d"
    · have isClosing : faceIs ["\x7d"] token.face := by
        simp only [faceIs, Bool.and_eq_true, decide_eq_true_eq] at isCloser
        simp [faceIs, isCloser.1, isBrace]
      rw [isStack, isBrace, List.count_cons_self, ← Nat.add_assoc, Nat.sub_add_cancel fits,
        openingBrace?_of_closing isClosing]
    · rw [isStack, List.count_cons_of_ne isBrace, Nat.sub_add_cancel fits,
        openingBrace?_of_other (faceIs_of_text_ne isBrace) (not_opening_of_closerOf? notOpener)]
  | passes notOpener notCloser allowed =>
    have notClosing : faceIs ["\x7d"] token.face = false := by
      cases isBrace : faceIs ["\x7d"] token.face with
      | false => rfl
      | true =>
        have isText := text_of_faceIs isBrace
        simp only [faceIs, Bool.and_eq_true, decide_eq_true_eq] at isBrace
        simp [faceIs, isBrace.1, isText] at notCloser
    rw [Nat.sub_add_cancel fits,
      openingBrace?_of_other notClosing (not_opening_of_closerOf? notOpener)]

/-- What awaits no more than a number of braces is passed over by the search for
an opening brace, which then looks for so many less. -/
theorem openingBrace?_of_awaited
    {tokens : List Token}
    {stack : List String}
    (isLeft : awaited true [] (tokens.map Token.face) = some stack)
    {depth : Nat}
    (fits : stack.count "\x7d" ≤ depth)
    (after before : List Token) :
    openingBrace? depth after (tokens.reverse ++ before) =
      openingBrace? (depth - stack.count "\x7d") (tokens ++ after) before := by
  induction tokens using List.reverseRecOn generalizing stack depth after with
  | nil =>
    obtain rfl := Option.some.inj isLeft
    rfl
  | append_singleton tokens token inductionHypothesis =>
    rw [List.map_append, awaited_append, Option.bind_eq_some_iff] at isLeft
    obtain ⟨outer, isOuter, isLast⟩ := isLeft
    obtain ⟨next, awaits, isStack⟩ := awaited_cons_eq_some_iff.mp isLast
    obtain rfl := Option.some.inj isStack
    rw [List.reverse_append, List.reverse_singleton, List.singleton_append, List.cons_append,
      openingBrace?_of_awaits awaits fits, inductionHypothesis isOuter (Nat.le_add_left _ _),
      Nat.add_sub_cancel, List.append_assoc]
    rfl

/-- Where every closer closes an opener of its kind, those around nested tokens are
of one kind. -/
theorem ClosesOwnKind.paired
    {before within after : List Token}
    {opener closer : Token}
    (ownKind : ClosesOwnKind (before ++ opener :: (within ++ closer :: after)))
    (isOpener : opens opener)
    (isCloser : closes closer)
    (nested : Nested within) :
    closerOf? opener.face = some closer.text := by
  have closed : closerIndex? (before ++ opener :: (within ++ closer :: after)) before.length =
      some (before.length + 1 + within.length) := closerIndex?_of_nested isCloser nested
  have isOpening : (before ++ opener :: (within ++ closer :: after))[before.length]? =
      some opener := by
    rw [List.getElem?_append_right (Nat.le_refl _), Nat.sub_self]
    rfl
  have isClosing : (before ++ opener :: (within ++ closer :: after))[
      before.length + 1 + within.length]? = some closer := by
    have size : before.length + 1 + within.length = (before ++ opener :: within).length := by
      simp only [List.length_append, List.length_cons]
      omega
    rw [size, ← List.cons_append, ← List.append_assoc,
      List.getElem?_append_right (Nat.le_refl _), Nat.sub_self]
    rfl
  generalize before ++ opener :: (within ++ closer :: after) = tokens at *
  obtain ⟨opening, other, isOther, isPair, otherClosed⟩ := ownKind _ closer isClosing isCloser
  -- Both are the innermost opener before the closer.
  have otherOpens : opens other := by rw [opens_eq, isPair, Option.isSome_some]
  have closesThere : closesAt tokens (before.length + 1 + within.length) := by
    simp [closesAt, isClosing, isCloser]
  have innermost := (closerIndex?_eq_some_iff_openerIndex?
    (by simp [opensAt, isOpening, isOpener]) closesThere).mp closed
  have otherInnermost := (closerIndex?_eq_some_iff_openerIndex?
    (by simp [opensAt, isOther, otherOpens]) closesThere).mp otherClosed
  obtain rfl := Option.some.inj (innermost.symm.trans otherInnermost)
  rw [isOpening, Option.some.injEq] at isOther
  rwa [isOther]

private theorem ClosesOwnKind.awaited_inner
    {front inner back : List Token}
    (ownKind : ClosesOwnKind (front ++ (inner ++ back)))
    (nested : Nested inner) :
    awaited true [] (inner.map Token.face) = some [] := by
  refine balanced_of_nested nested ?_
  rintro first opener within closer last rfl isOpener isCloser withinNested
  have isWhole : front ++ ((first ++ opener :: (within ++ closer :: last)) ++ back) =
      (front ++ first) ++ opener :: (within ++ closer :: (last ++ back)) := by simp
  rw [isWhole] at ownKind
  exact ownKind.paired isOpener isCloser withinNested

/-- The search for the brace that a closing brace belongs to finds the innermost
opener, which the closing brace closes. -/
theorem ClosesOwnKind.braceIndex?_eq
    {tokens : List Token}
    (ownKind : ClosesOwnKind tokens)
    {closing : Nat}
    {brace : Token}
    (isToken : tokens[closing]? = some brace)
    (isBrace : isPunctuator ["\x7d"] brace) :
    ∃ opening, openerIndex? tokens closing = some opening ∧
      braceIndex? tokens closing = some opening ∧ closerIndex? tokens opening = some closing := by
  have isText : brace.text = "\x7d" := by
    rw [← Token.text_face]
    exact text_of_faceIs (by rwa [faceIs_face])
  have isCloser : closes brace := by
    simp only [isPunctuator, Bool.and_eq_true] at isBrace
    simp [closes, isPunctuator, isBrace.1, isText]
  obtain ⟨opening, opener, isOpening, isPair, closed⟩ := ownKind closing brace isToken isCloser
  have isOpener : opens opener := by rw [opens_eq, isPair, Option.isSome_some]
  have innermost := (closerIndex?_eq_some_iff_openerIndex?
    (by simp [opensAt, isOpening, isOpener]) (by simp [closesAt, isToken, isCloser])).mp closed
  refine ⟨opening, innermost, ?_, closed⟩
  obtain ⟨ordered, _, nested⟩ := openerIndex?_eq_some_iff.mp innermost
  have isTaken := take_eq_append_between ordered isOpening
  have isBalanced : awaited true [] ((between tokens opening closing).map Token.face) =
      some [] := by
    have isWhole : tokens = tokens.take opening ++ [opener] ++
        (between tokens opening closing ++ tokens.drop closing) := by
      rw [List.append_assoc, List.singleton_append, ← List.cons_append, ← List.append_assoc,
        ← isTaken, List.take_append_drop]
    exact ClosesOwnKind.awaited_inner (isWhole ▸ ownKind) nested
  rw [isText] at isPair
  obtain ⟨notClosing, isOpeningBrace⟩ := faceIs_of_closerOf? isPair
  rw [faceIs_face] at notClosing isOpeningBrace
  have found : openingBrace? 0 [] (tokens.take closing).reverse =
      some ⟨(tokens.take opening).reverse, opener, between tokens opening closing⟩ := by
    rw [isTaken, List.reverse_append, List.reverse_cons, List.append_assoc,
      List.singleton_append, openingBrace?_of_awaited isBalanced (by simp)]
    simp [openingBrace?, notClosing, isOpeningBrace]
  have inside := (List.getElem?_eq_some_iff.mp isOpening).1
  rw [braceIndex?, found]
  simp only [Option.map_some, List.length_reverse, List.length_take, Option.some.injEq]
  omega

/-! ## Agreement -/

/-- The innermost opener before an index is the last that stays open up to it, and
hence the one that a closer there closes.  Where every closer closes an opener of
its kind, the brace that a closing brace belongs to is that opener too. -/
theorem searches_agree (tokens : List Token) :
    (∀ index opening, openerIndex? tokens index = some opening ↔
      IsGreatest {opening | OpenBefore tokens index opening} opening) ∧
    (∀ index, openerIndex? tokens index = none ↔ ∀ opening, ¬ OpenBefore tokens index opening) ∧
    (∀ opening closing, opensAt tokens opening → closesAt tokens closing →
      (closerIndex? tokens opening = some closing ↔
        openerIndex? tokens closing = some opening)) ∧
    (ClosesOwnKind tokens → ∀ closing brace, tokens[closing]? = some brace →
      isPunctuator ["\x7d"] brace →
        ∃ opening, openerIndex? tokens closing = some opening ∧
          braceIndex? tokens closing = some opening ∧
            closerIndex? tokens opening = some closing) :=
  ⟨fun _ _ => openerIndex?_eq_some_iff_isGreatest, fun _ => openerIndex?_eq_none_iff,
    fun _ _ => closerIndex?_eq_some_iff_openerIndex?,
    fun ownKind _ _ => ownKind.braceIndex?_eq⟩

/-- A punctuator of the first line. -/
def mark (text : String) (start : Nat) : Token :=
  ⟨text, start, ⟨1, start + 1⟩, .atom .punctuator⟩

/-- The tokens of `[({})`, whose first bracket is left open. -/
def openSample : List Token :=
  [mark "[" 0, mark "(" 1, mark "\x7b" 2, mark "\x7d" 3, mark ")" 4]

private theorem openSample_closesOwnKind : ClosesOwnKind openSample := by
  intro closing closer isToken isCloser
  match closing with
  | 0 | 1 | 2 =>
    obtain rfl := Option.some.inj isToken
    exact absurd isCloser (by decide)
  | 3 =>
    obtain rfl := Option.some.inj isToken
    exact ⟨2, mark "\x7b" 2, rfl, by decide, by decide⟩
  | 4 =>
    obtain rfl := Option.some.inj isToken
    exact ⟨1, mark "(" 1, rfl, by decide, by decide⟩
  | _ + 5 => simp [openSample] at isToken

/-- The bracket left open hides neither the braces nor the parentheses. -/
theorem openSample_agrees :
    ClosesOwnKind openSample ∧
      openerIndex? openSample 4 = some 1 ∧
      IsGreatest {opening | OpenBefore openSample 5 opening} 0 ∧
      ∃ opening, openerIndex? openSample 3 = some opening ∧
        braceIndex? openSample 3 = some opening ∧ closerIndex? openSample opening = some 3 := by
  obtain ⟨greatest, _, closers, braces⟩ := searches_agree openSample
  refine ⟨openSample_closesOwnKind, ?_, ?_, ?_⟩
  · exact (closers 1 4 (by decide) (by decide)).mp (by decide)
  · exact (greatest 5 0).mp (by decide)
  · exact braces openSample_closesOwnKind 3 (mark "\x7d" 3) rfl (by decide)

end Restyle.Bracket
