import Restyle.Proofs.Bracket.Search

/-!
Contract: arguments are what the commas outside further brackets divide.

Owns: `IsSeparator`, a comma after a parenthesis that no bracket opened between
them holds; `IsRun` and `Runs`, what stands between neighbouring cuts, alone and
one after another; and `Divided`, by which the arguments of a parenthesis are the
runs between its separators that hold tokens.

The split counts brackets anew, and below none it goes on as if at none.  That
never happens before the closer, which was found by counting the same brackets.
-/

namespace Restyle.Use

open Restyle.Bracket

/-- A comma after a parenthesis stands in no bracket opened between them. -/
structure IsSeparator (tokens : List Token) (opening position : Nat) : Prop where
  after : opening < position
  isComma : tokens[position]?.any (isPunctuator [","])
  outside : ∀ inner, opening < inner → ¬ OpenBefore tokens position inner

/-! ## Runs between cuts -/

/-- Two bounds, each a cut or an end of the whole, with no cut between them. -/
structure IsRun (isCut : Nat → Prop) (opening closing : Nat) (run : Nat × Nat) : Prop where
  ordered : run.1 < run.2
  begins : run.1 = opening ∨ opening < run.1 ∧ isCut run.1
  ends : run.2 = closing ∨ run.2 < closing ∧ isCut run.2
  undivided : ∀ position, run.1 < position → position < run.2 → ¬ isCut position

/-- Runs one after another, which together fill what stands between two ends. -/
inductive Runs (isCut : Nat → Prop) (closing : Nat) : Nat → List (Nat × Nat) → Prop where
  | last {opening : Nat}
      (ordered : opening < closing)
      (undivided : ∀ position, opening < position → position < closing → ¬ isCut position) :
      Runs isCut closing opening [(opening, closing)]
  | cut {opening middle : Nat} {others : List (Nat × Nat)}
      (ordered : opening < middle)
      (undivided : ∀ position, opening < position → position < middle → ¬ isCut position)
      (divides : isCut middle)
      (later : Runs isCut closing middle others) :
      Runs isCut closing opening ((opening, middle) :: others)

section

variable {isCut : Nat → Prop} {opening closing : Nat} {runs : List (Nat × Nat)}

theorem Runs.ordered (areRuns : Runs isCut closing opening runs) : opening < closing := by
  induction areRuns with
  | last ordered => exact ordered
  | cut ordered _ _ _ inductionHypothesis => exact Nat.lt_trans ordered inductionHypothesis

/-- The runs one after another are all that there are. -/
theorem Runs.mem_iff (areRuns : Runs isCut closing opening runs) {run : Nat × Nat} :
    run ∈ runs ↔ IsRun isCut opening closing run := by
  induction areRuns with
  | @last opening ordered undivided =>
    rw [List.mem_singleton]
    constructor
    · rintro rfl
      exact ⟨ordered, .inl rfl, .inl rfl, undivided⟩
    · intro isRun
      have begins : run.1 = opening := by
        refine isRun.begins.resolve_right fun ⟨after, isBound⟩ => undivided _ after ?_ isBound
        have := isRun.ordered
        rcases isRun.ends with isEnd | ⟨before, _⟩ <;> omega
      have ends : run.2 = closing := by
        refine isRun.ends.resolve_right fun ⟨before, isBound⟩ => undivided _ ?_ before isBound
        have := isRun.ordered
        omega
      rw [← begins, ← ends]
  | @cut opening middle others ordered undivided divides later inductionHypothesis =>
    have inside := later.ordered
    rw [List.mem_cons, inductionHypothesis]
    constructor
    · rintro (rfl | isRun)
      · exact ⟨ordered, .inl rfl, .inr ⟨inside, divides⟩, undivided⟩
      · refine ⟨isRun.ordered, .inr ?_, isRun.ends, isRun.undivided⟩
        rcases isRun.begins with isMiddle | ⟨after, isBound⟩
        · exact ⟨by omega, isMiddle ▸ divides⟩
        · exact ⟨by omega, isBound⟩
    · intro isRun
      have whole := isRun.ordered
      -- A run that begins where the first does ends at the same cut; no other
      -- begins before that cut.
      rcases isRun.begins with begins | ⟨after, isBound⟩
      · left
        have notLater : ¬ middle < run.2 := fun isLater =>
          isRun.undivided middle (by omega) isLater divides
        have ends : run.2 = middle := by
          by_contra isOther
          rcases isRun.ends with isEnd | ⟨_, isBound⟩
          · omega
          · exact undivided run.2 (by omega) (by omega) isBound
        rw [← begins, ← ends]
      · right
        have notEarlier : ¬ run.1 < middle := fun isEarlier =>
          undivided run.1 after isEarlier isBound
        refine ⟨whole, ?_, isRun.ends, isRun.undivided⟩
        rcases Nat.eq_or_lt_of_not_lt notEarlier with isMiddle | isLater
        · exact .inl isMiddle
        · exact .inr ⟨isLater, isBound⟩

theorem Runs.pairwise (areRuns : Runs isCut closing opening runs) :
    runs.Pairwise (·.2 ≤ ·.1) := by
  induction areRuns with
  | last => exact List.pairwise_singleton _ _
  | cut _ _ _ later inductionHypothesis =>
    refine .cons (fun run isRun => ?_) inductionHypothesis
    rcases (later.mem_iff.mp isRun).begins with begins | ⟨after, _⟩
    · exact Nat.le_of_eq begins.symm
    · exact Nat.le_of_lt after

private theorem Runs.exists_run
    (areRuns : Runs isCut closing opening runs)
    {position : Nat}
    (after : opening < position)
    (before : position < closing)
    (notCut : ¬ isCut position) :
    ∃ run ∈ runs, run.1 < position ∧ position < run.2 := by
  induction areRuns with
  | last => exact ⟨_, List.mem_singleton_self _, after, before⟩
  | @cut opening middle _ _ _ divides _ inductionHypothesis =>
    rcases Nat.lt_trichotomy position middle with early | isMiddle | late
    · exact ⟨_, List.mem_cons_self, after, early⟩
    · exact absurd (isMiddle ▸ divides) notCut
    · obtain ⟨run, isRun, inRun⟩ := inductionHypothesis late
      exact ⟨run, List.mem_cons_of_mem _ isRun, inRun⟩

/-- A position that is no cut can be added to the first of some runs. -/
theorem Runs.extend
    (areRuns : Runs isCut closing (opening + 1) runs)
    (notCut : ¬ isCut (opening + 1)) :
    ∃ ending others, runs = (opening + 1, ending) :: others ∧ opening + 1 < ending ∧
      Runs isCut closing opening ((opening, ending) :: others) := by
  have extended : ∀ {ending : Nat},
      (∀ position, opening + 1 < position → position < ending → ¬ isCut position) →
      ∀ position, opening < position → position < ending → ¬ isCut position := by
    intro ending undivided position after before
    rcases Nat.eq_or_lt_of_le (Nat.succ_le_of_lt after) with isFirst | later
    · exact isFirst ▸ notCut
    · exact undivided position later before
  cases areRuns with
  | last ordered undivided =>
    exact ⟨closing, [], rfl, ordered, .last (by omega) (extended undivided)⟩
  | cut ordered undivided divides later =>
    exact ⟨_, _, rfl, ordered, .cut (by omega) (extended undivided) divides later⟩

private theorem IsRun.begins_ge {run : Nat × Nat} (isRun : IsRun isCut opening closing run) :
    opening ≤ run.1 := by
  rcases isRun.begins with begins | ⟨after, _⟩
  · exact Nat.le_of_eq begins.symm
  · exact Nat.le_of_lt after

private theorem IsRun.ends_le {run : Nat × Nat} (isRun : IsRun isCut opening closing run) :
    run.2 ≤ closing := by
  rcases isRun.ends with ends | ⟨before, _⟩
  · exact Nat.le_of_eq ends
  · exact Nat.le_of_lt before

/-- A position stands in one run at most. -/
theorem IsRun.unique
    {run other : Nat × Nat}
    (isRun : IsRun isCut opening closing run)
    (isOther : IsRun isCut opening closing other)
    {position : Nat}
    (inRun : run.1 < position ∧ position < run.2)
    (inOther : other.1 < position ∧ position < other.2) :
    run = other := by
  -- A bound of one run between those of the other would be a cut there.
  have noBegin : ∀ {left right : Nat × Nat}, IsRun isCut opening closing left →
      IsRun isCut opening closing right → left.1 < position ∧ position < left.2 →
      right.1 < position → ¬ left.1 < right.1 := by
    intro left right isLeft isRight inLeft inRight later
    have := isLeft.begins_ge
    rcases isRight.begins with begins | ⟨_, isBound⟩
    · omega
    · exact isLeft.undivided right.1 later (by omega) isBound
  have noEnd : ∀ {left right : Nat × Nat}, IsRun isCut opening closing left →
      IsRun isCut opening closing right → left.1 < position ∧ position < left.2 →
      position < right.2 → ¬ right.2 < left.2 := by
    intro left right isLeft isRight inLeft inRight earlier
    have := isLeft.ends_le
    rcases isRight.ends with ends | ⟨_, isBound⟩
    · omega
    · exact isLeft.undivided right.2 (by omega) earlier isBound
  have sameBegin : run.1 = other.1 := Nat.le_antisymm
    (Nat.le_of_not_lt (noBegin isOther isRun inOther inRun.1))
    (Nat.le_of_not_lt (noBegin isRun isOther inRun inOther.1))
  have sameEnd : run.2 = other.2 := Nat.le_antisymm
    (Nat.le_of_not_lt (noEnd isRun isOther inRun inOther.2))
    (Nat.le_of_not_lt (noEnd isOther isRun inOther inRun.2))
  exact Prod.ext sameBegin sameEnd

end

/-! ## The depth of the split -/

/-- A token that is no cut belongs to the first part of what follows, which is
split at the depth after the token. -/
theorem splitArguments_of_change
    {depth next : Nat}
    {token : Token}
    {rest first : List Token}
    {others : List (List Token)}
    (isNext : (next : Int) = depth + change token)
    (noCut : depth = 0 → ¬ isPunctuator [","] token)
    (isSplit : splitArguments next rest = first :: others) :
    splitArguments depth (token :: rest) = (token :: first) :: others := by
  have isWhole : (depth = 0 && isPunctuator [","] token) = false := by
    simpa using noCut
  have isInner : (if opens token then depth + 1 else if closes token then depth - 1 else depth) =
      next := by
    rcases change_cases token with
      ⟨isOpener, isChange⟩ | ⟨isCloser, isChange⟩ | ⟨notOpener, notCloser, isChange⟩
    · rw [if_pos isOpener]
      omega
    · rw [if_neg (by simp [not_opens_of_closes isCloser]), if_pos isCloser]
      omega
    · rw [if_neg (by simp [notOpener]), if_neg (by simp [notCloser])]
      omega
  simp only [splitArguments, isWhole, isInner, isSplit]
  rfl

private theorem change_of_comma {token : Token} (isComma : isPunctuator [","] token) :
    change token = 0 := by
  simp only [isPunctuator, Bool.and_eq_true, List.contains_eq_mem, List.mem_singleton,
    decide_eq_true_eq] at isComma
  exact change_of_plain (by simp [opens, isPunctuator, isComma.2])
    (by simp [closes, isPunctuator, isComma.2])

/-- Parts before and after a point within a part: the last of the former and the
first of the latter are one. -/
def joined : List (List Token) → List (List Token) → List (List Token)
  | [], right => right
  | [last], right => (last ++ right.headD []) :: right.tail
  | part :: next :: parts, right => part :: joined (next :: parts) right

private theorem joined_cons_nil
    {left : List (List Token)}
    (nonempty : left ≠ [])
    (right : List (List Token)) :
    joined ([] :: left) right = [] :: joined left right := by
  obtain ⟨next, parts, rfl⟩ := List.exists_cons_of_ne_nil nonempty
  rfl

private theorem joined_cons
    (token : Token)
    (first : List Token)
    (others right : List (List Token)) :
    ∃ front back, joined (first :: others) right = front :: back ∧
      joined ((token :: first) :: others) right = (token :: front) :: back := by
  cases others with
  | nil => exact ⟨_, _, rfl, rfl⟩
  | cons next parts => exact ⟨_, _, rfl, rfl⟩

/-- While no bracket is closed that was not open, the depth of the split is the
number of brackets left open. -/
theorem splitArguments_joined
    {depth : Nat}
    {front : List Token}
    (keeps : KeepsOpen depth front)
    (rest : List Token) :
    ∃ next : Nat, (next : Int) = depth + surplus front ∧
      splitArguments depth (front ++ rest) =
        joined (splitArguments depth front) (splitArguments next rest) := by
  induction front generalizing depth with
  | nil =>
    obtain ⟨first, others, isSplit⟩ := List.exists_cons_of_ne_nil (splitArguments_ne_nil depth rest)
    refine ⟨depth, by simp, ?_⟩
    rw [List.nil_append, isSplit]
    rfl
  | cons token front inductionHypothesis =>
    obtain ⟨_, keepsRest⟩ := keepsOpen_cons.mp keeps
    by_cases isCut : depth = 0 ∧ isPunctuator [","] token
    · obtain ⟨rfl, isComma⟩ := isCut
      rw [change_of_comma isComma, Int.add_zero] at keepsRest
      obtain ⟨next, isNext, isSplit⟩ := inductionHypothesis keepsRest
      refine ⟨next, by simpa [change_of_comma isComma] using isNext, ?_⟩
      rw [List.cons_append, splitArguments_of_comma isComma, splitArguments_of_comma isComma,
        isSplit, joined_cons_nil (splitArguments_ne_nil 0 front)]
    · have positive : 0 ≤ (depth : Int) + change token := by
        simpa using keepsRest [] List.nil_prefix
      obtain ⟨inner, isInner⟩ := Int.eq_ofNat_of_zero_le positive
      rw [isInner] at keepsRest
      obtain ⟨next, isNext, isSplit⟩ := inductionHypothesis keepsRest
      have noCut : depth = 0 → ¬ isPunctuator [","] token := fun isZero isComma =>
        isCut ⟨isZero, isComma⟩
      obtain ⟨first, others, isFront⟩ :=
        List.exists_cons_of_ne_nil (splitArguments_ne_nil inner front)
      obtain ⟨head, tail, isWhole, extended⟩ :=
        joined_cons token first others (splitArguments next rest)
      rw [isFront, isWhole] at isSplit
      refine ⟨next, by rw [surplus_cons]; omega, ?_⟩
      rw [List.cons_append, splitArguments_of_change isInner.symm noCut isSplit,
        splitArguments_of_change isInner.symm noCut isFront, extended]

/-! ## Separators -/

section

variable {tokens : List Token} {opening closing : Nat}

/-- Up to its closer a comma is a separator of a parenthesis exactly if as many
brackets are closed as are opened between them. -/
theorem isSeparator_iff
    (isOpener : opensAt tokens opening)
    (found : closerIndex? tokens opening = some closing)
    {position : Nat}
    (after : opening < position)
    (before : position ≤ closing) :
    IsSeparator tokens opening position ↔
      tokens[position]?.any (isPunctuator [","]) ∧
        surplus (between tokens opening position) = 0 := by
  have nested := (closerIndex?_eq_some_iff.mp found).2.2
  have isOpen : OpenBefore tokens position opening := by
    refine ⟨after, isOpener, fun own isOwn => ?_⟩
    rw [found, Option.some.injEq] at isOwn
    omega
  constructor
  · rintro ⟨_, isComma, outside⟩
    have isGreatest : IsGreatest {opening | OpenBefore tokens position opening} opening :=
      ⟨isOpen, fun inner innerOpen =>
        Nat.le_of_not_lt fun isLater => outside inner isLater innerOpen⟩
    have innermost := openerIndex?_eq_some_iff_isGreatest.mpr isGreatest
    exact ⟨isComma, (openerIndex?_eq_some_iff.mp innermost).2.2.closed⟩
  · rintro ⟨isComma, closed⟩
    have innermost : openerIndex? tokens position = some opening :=
      openerIndex?_eq_some_iff.mpr
        ⟨after, isOpener, nested.keepsOpen.of_prefix (between_begins tokens opening before), closed⟩
    refine ⟨after, isComma, fun inner isLater innerOpen => ?_⟩
    exact Nat.not_lt_of_le ((isGreatest_of_openerIndex? innermost).2 innerOpen) isLater

private theorem exists_runs
    (isOpener : opensAt tokens opening)
    (found : closerIndex? tokens opening = some closing)
    {left depth : Nat}
    (early : opening ≤ left)
    (late : left < closing)
    (isDepth : (depth : Int) = surplus (between tokens opening (left + 1))) :
    ∃ runs, Runs (IsSeparator tokens opening) closing left runs ∧
      splitArguments depth (between tokens left closing) =
        runs.map fun run => between tokens run.1 run.2 := by
  obtain ⟨remaining, isClosing⟩ := Nat.exists_eq_add_of_lt late
  induction remaining generalizing left depth with
  | zero =>
    subst isClosing
    refine ⟨[(left, left + 0 + 1)], .last late (fun position after before => by omega), ?_⟩
    rw [List.map_singleton]
    simp only [Nat.add_zero, between_succ]
    rfl
  | succ remaining inductionHypothesis =>
    have nested := (closerIndex?_eq_some_iff.mp found).2.2
    have after : opening < left + 1 := Nat.lt_succ_of_le early
    have before : left + 1 < closing := by omega
    obtain ⟨token, isToken⟩ := exists_token_of_closerIndex? found (Nat.le_of_lt before)
    have isSurplus := surplus_between_succ after isToken
    have isSeparator := isSeparator_iff isOpener found after (Nat.le_of_lt before)
    simp only [isToken, Option.any_some] at isSeparator
    rw [between_eq_cons before isToken]
    by_cases isCut : depth = 0 ∧ isPunctuator [","] token
    · obtain ⟨rfl, isComma⟩ := isCut
      rw [change_of_comma isComma] at isSurplus
      obtain ⟨runs, areRuns, isSplit⟩ :=
        @inductionHypothesis (left + 1) 0 (by omega) before (by omega) (by omega)
      refine ⟨(left, left + 1) :: runs, .cut (Nat.lt_succ_self left) ?_ ?_ areRuns, ?_⟩
      · intro position after before
        omega
      · exact isSeparator.mpr ⟨isComma, isDepth.symm⟩
      · rw [splitArguments_of_comma isComma, isSplit, List.map_cons, between_succ]
    · have begins : between tokens opening (left + 1 + 1) <+: between tokens opening closing :=
        between_begins tokens opening before
      have keeps := nested.keepsOpen.of_prefix begins
      have positive := keeps _ (List.prefix_refl _)
      obtain ⟨next, isNext⟩ := Int.eq_ofNat_of_zero_le positive
      have notCut : ¬ IsSeparator tokens opening (left + 1) := by
        rw [isSeparator]
        rintro ⟨isComma, closed⟩
        exact isCut ⟨by omega, isComma⟩
      obtain ⟨runs, areRuns, isSplit⟩ :=
        @inductionHypothesis (left + 1) next (by omega) before (by omega) (by omega)
      obtain ⟨ending, others, rfl, inside, extended⟩ := areRuns.extend notCut
      refine ⟨(left, ending) :: others, extended, ?_⟩
      rw [List.map_cons] at isSplit
      rw [splitArguments_of_change (by omega) (fun isZero isComma => isCut ⟨isZero, isComma⟩)
        isSplit, List.map_cons, between_eq_cons inside isToken]

/-- The parts of the split are the runs between the separators. -/
theorem exists_parts
    (isOpener : opensAt tokens opening)
    (found : closerIndex? tokens opening = some closing) :
    ∃ runs, Runs (IsSeparator tokens opening) closing opening runs ∧
      splitArguments 0 (between tokens opening closing) =
        runs.map fun run => between tokens run.1 run.2 := by
  have atStart : ((0 : Nat) : Int) = surplus (between tokens opening (opening + 1)) := by
    rw [between_succ]
    rfl
  exact exists_runs isOpener found (Nat.le_refl opening) (closerIndex?_eq_some_iff.mp found).1
    atStart

private theorem exists_isRun
    (isOpener : opensAt tokens opening)
    (found : closerIndex? tokens opening = some closing)
    {position : Nat}
    (after : opening < position)
    (before : position < closing)
    (notSeparator : ¬ IsSeparator tokens opening position) :
    ∃ run, IsRun (IsSeparator tokens opening) opening closing run ∧
      run.1 < position ∧ position < run.2 := by
  obtain ⟨runs, areRuns, _⟩ := exists_parts isOpener found
  obtain ⟨run, isRun, inRun⟩ := areRuns.exists_run after before notSeparator
  exact ⟨run, areRuns.mem_iff.mp isRun, inRun⟩

/-- What stands between two neighbouring separators is nested. -/
theorem IsRun.nested
    (isOpener : opensAt tokens opening)
    (found : closerIndex? tokens opening = some closing)
    {run : Nat × Nat}
    (isRun : IsRun (IsSeparator tokens opening) opening closing run) :
    Nested (between tokens run.1 run.2) := by
  have nested := (closerIndex?_eq_some_iff.mp found).2.2
  have ends : surplus (between tokens opening run.2) = 0 := by
    rcases isRun.ends with isEnd | ⟨before, isBound⟩
    · rw [isEnd]
      exact nested.closed
    · exact ((isSeparator_iff isOpener found isBound.after (Nat.le_of_lt before)).mp isBound).2
  have keeps := nested.keepsOpen.of_prefix (between_begins tokens opening isRun.ends_le)
  rcases isRun.begins with begins | ⟨after, isBound⟩
  · rw [begins]
    exact ⟨keeps, ends⟩
  · obtain ⟨isComma, closed⟩ := (isSeparator_iff isOpener found isBound.after
      (Nat.le_of_lt (Nat.lt_of_lt_of_le isRun.ordered isRun.ends_le))).mp isBound
    obtain ⟨comma, isToken, isComma⟩ := (Option.any_eq_true _ _).mp isComma
    have isWhole := between_split after isRun.ordered isToken
    rw [isWhole] at keeps ends
    constructor
    · intro front isFront
      have := keeps (between tokens opening run.1 ++ comma :: front)
        ((List.prefix_append_right_inj _).mpr ((List.prefix_cons_inj comma).mpr isFront))
      rw [surplus_append, closed, surplus_cons, change_of_comma isComma] at this
      omega
    · rw [surplus_append, closed, surplus_cons, change_of_comma isComma] at ends
      omega

end

/-! ## Arguments -/

/-- The ends of an argument are those of its first and its last token. -/
structure HasEnds (span : Span) : Prop where
  begins : ∃ first, span.tokens.head? = some first ∧ span.start = first.start
  ends : ∃ last, span.tokens.getLast? = some last ∧ span.stop = last.stop

private theorem hasEnds_of_argument?
    {tokens : List Token}
    {span : Span}
    (isArgument : argument? tokens = some span) :
    HasEnds span := by
  unfold argument? at isArgument
  split at isArgument
  · rename_i first last isFirst isLast
    obtain rfl := Option.some.inj isArgument
    exact ⟨⟨first, isFirst, rfl⟩, ⟨last, isLast, rfl⟩⟩
  · simp at isArgument

private theorem tokens_filterMap_argument? (parts : List (List Token)) :
    (parts.filterMap argument?).map (·.tokens) = parts.filter (· ≠ []) := by
  induction parts with
  | nil => rfl
  | cons part parts inductionHypothesis =>
    cases part with
    | nil => rwa [List.filterMap_cons_none rfl, List.filter_cons_of_neg (by simp)]
    | cons token rest =>
      obtain ⟨span, isArgument⟩ := exists_argument? (List.cons_ne_nil token rest)
      rw [List.filterMap_cons_some isArgument, List.map_cons, tokens_of_argument? isArgument,
        inductionHypothesis]
      rfl

private theorem exists_filled_runs
    {tokens : List Token}
    {opening closing : Nat}
    (isOpener : opensAt tokens opening)
    (found : closerIndex? tokens opening = some closing) :
    ∃ runs : List (Nat × Nat), runs.Pairwise (·.2 ≤ ·.1) ∧
      (∀ run, run ∈ runs ↔
        IsRun (IsSeparator tokens opening) opening closing run ∧ run.1 + 1 < run.2) ∧
      (argumentsOf (between tokens opening closing)).map (·.tokens) =
        runs.map fun run => between tokens run.1 run.2 := by
  obtain ⟨runs, areRuns, isSplit⟩ := exists_parts isOpener found
  obtain ⟨closer, isLast⟩ := exists_token_of_closerIndex? found (Nat.le_refl closing)
  have inside := (List.getElem?_eq_some_iff.mp isLast).1
  refine ⟨runs.filter fun run => run.1 + 1 < run.2, areRuns.pairwise.filter _, fun run => ?_, ?_⟩
  · rw [List.mem_filter, areRuns.mem_iff, decide_eq_true_eq]
  · rw [argumentsOf, tokens_filterMap_argument?, isSplit, List.filter_map]
    congr 1
    refine List.filter_congr fun run isRun => ?_
    have isEnd := (areRuns.mem_iff.mp isRun).ends_le
    rw [Function.comp_apply, decide_eq_decide, ← List.length_pos_iff, length_between (by omega)]
    omega

private theorem opensAt_of_paren
    {tokens : List Token}
    {opening : Nat}
    (isParen : tokens[opening]?.any (isPunctuator ["("])) :
    opensAt tokens opening := by
  obtain ⟨paren, isToken, isParen⟩ := (Option.any_eq_true _ _).mp isParen
  simp only [isPunctuator, Bool.and_eq_true, List.contains_eq_mem, List.mem_singleton,
    decide_eq_true_eq] at isParen
  simp [opensAt, isToken, opens, isPunctuator, isParen.1, isParen.2]

/-- What a parenthesis and its closer enclose is divided into arguments: those runs
between its separators that hold tokens, in their order. -/
structure Divided (tokens : List Token) (opening closing : Nat) : Prop where
  nested : Nested (between tokens opening closing)
  /-- The depth of the split is at every point the number of brackets left open. -/
  counted : ∀ front rest, between tokens opening closing = front ++ rest →
    ∃ depth : Nat, (depth : Int) = surplus front ∧
      splitArguments 0 (between tokens opening closing) =
        joined (splitArguments 0 front) (splitArguments depth rest)
  /-- The runs are told by their bounds, which are no part of them. -/
  runs : ∃ runs : List (Nat × Nat),
    runs.Pairwise (·.2 ≤ ·.1) ∧
    (∀ run, run ∈ runs ↔
      IsRun (IsSeparator tokens opening) opening closing run ∧ run.1 + 1 < run.2) ∧
    (argumentsOf (between tokens opening closing)).map (·.tokens) =
      runs.map (fun run => between tokens run.1 run.2) ∧
    ∀ position, opening < position → position < closing →
      (IsSeparator tokens opening position ∧
        ∀ run ∈ runs, ¬ (run.1 < position ∧ position < run.2)) ∨
      (¬ IsSeparator tokens opening position ∧
        ∃! run, run ∈ runs ∧ run.1 < position ∧ position < run.2)
  /-- Each argument begins and ends with tokens of its own, so none is empty. -/
  arguments : ∀ span ∈ argumentsOf (between tokens opening closing),
    HasEnds span ∧ Nested span.tokens

/-- The arguments of a parenthesis that is closed are what its separators divide. -/
theorem arguments_divided
    {tokens : List Token}
    {opening closing : Nat}
    (isParen : tokens[opening]?.any (isPunctuator ["("]))
    (found : closerIndex? tokens opening = some closing) :
    Divided tokens opening closing := by
  have isOpener := opensAt_of_paren isParen
  have nested := (closerIndex?_eq_some_iff.mp found).2.2
  obtain ⟨runs, inOrder, mem_runs, areTokens⟩ := exists_filled_runs isOpener found
  refine ⟨nested, ?_, ⟨runs, inOrder, mem_runs, areTokens, ?_⟩, ?_⟩
  · intro front rest isWhole
    have keeps : KeepsOpen ((0 : Nat) : Int) front :=
      nested.keepsOpen.of_prefix ⟨rest, isWhole.symm⟩
    obtain ⟨depth, isDepth, isJoined⟩ := splitArguments_joined keeps rest
    refine ⟨depth, by simpa using isDepth, ?_⟩
    rw [isWhole, isJoined]
  · intro position after before
    by_cases isSeparator : IsSeparator tokens opening position
    · refine .inl ⟨isSeparator, fun run isRun inRun => ?_⟩
      exact ((mem_runs run).mp isRun).1.undivided position inRun.1 inRun.2 isSeparator
    · obtain ⟨run, isRun, inRun⟩ := exists_isRun isOpener found after before isSeparator
      refine .inr ⟨isSeparator, run, ⟨(mem_runs run).mpr ⟨isRun, by omega⟩, inRun⟩, ?_⟩
      intro other isOther
      exact ((mem_runs other).mp isOther.1).1.unique isRun isOther.2 inRun
  · intro span isSpan
    obtain ⟨part, _, isArgument⟩ := List.mem_filterMap.mp isSpan
    have isTokens := List.mem_map_of_mem (f := (·.tokens)) isSpan
    rw [areTokens] at isTokens
    obtain ⟨run, isRun, isSlice⟩ := List.mem_map.mp isTokens
    refine ⟨hasEnds_of_argument? isArgument, ?_⟩
    rw [← isSlice]
    exact ((mem_runs run).mp isRun).1.nested isOpener found

/-- The tokens of `([,],)`: a comma in a bracket, and one before the closer. -/
def commaSample : List Token :=
  [mark "(" 0, mark "[" 1, mark "," 2, mark "]" 3, mark "," 4, mark ")" 5]

/-- The comma in the bracket is kept, that before the closer is dropped. -/
theorem commaSample_divided :
    commaSample[0]?.any (isPunctuator ["("]) ∧
      closerIndex? commaSample 0 = some 5 ∧
      Divided commaSample 0 5 ∧
      (argumentsOf (between commaSample 0 5)).map (fun span => (span.start, span.stop)) =
        [(1, 4)] := by
  have isParen : commaSample[0]?.any (isPunctuator ["("]) := by decide
  have found : closerIndex? commaSample 0 = some 5 := by decide
  exact ⟨isParen, found, arguments_divided isParen found, by decide⟩

end Restyle.Use
