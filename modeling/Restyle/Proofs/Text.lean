import Restyle.Text
import Restyle.Text.Word

/-!
Contract: laws of texts.

Owns: the length of a slice, slices that meet, and single characters of one; that
no blank belongs to an identifier, and that only padding is trimmed; `InkedAt` and
`Framed`, by which a piece of text begins and ends with a character that is not
blank; the bounds of the line that holds an offset, and what stands on it; that
digits are read as the number that they spell; and `readInteger?_decimal`, by which
every integer is read back from its spelling.
-/

namespace Restyle.Text

/-! ## Slices -/

theorem slice_eq_take_drop (text : List Char) (start stop : Nat) :
    slice text start stop = (text.drop start).take (stop - start) :=
  List.drop_take

theorem length_slice
    {text : List Char}
    {start stop : Nat}
    (inside : stop ≤ text.length) :
    (slice text start stop).length = stop - start := by
  rw [slice_eq_take_drop, List.length_take, List.length_drop]
  omega

theorem length_cut
    {text : String}
    {start stop : Nat}
    (inside : stop ≤ text.length) :
    (cut text start stop).length = stop - start := by
  rw [← String.length_toList, toList_cut, length_slice]
  rwa [String.length_toList]

@[simp]
theorem slice_self (text : List Char) (offset : Nat) : slice text offset offset = [] := by
  simp [slice_eq_take_drop]

/-- A slice of a slice. -/
theorem slice_slice
    (text : List Char)
    {start stop upper : Nat}
    (lower : Nat)
    (inside : start + upper ≤ stop) :
    slice (slice text start stop) lower upper = slice text (start + lower) (start + upper) := by
  simp only [slice, List.take_drop, List.drop_drop, List.take_take, Nat.min_eq_left inside]

/-- Slices that meet make one slice. -/
theorem slice_append_slice
    (text : List Char)
    {start middle stop : Nat}
    (early : start ≤ middle)
    (late : middle ≤ stop) :
    slice text start middle ++ slice text middle stop = slice text start stop := by
  simp only [slice_eq_take_drop]
  rw [show stop - start = (middle - start) + (stop - middle) by omega, List.take_add,
    List.drop_drop, Nat.add_sub_cancel' early]

/-- A slice and the text from its end on. -/
theorem slice_append_drop
    {text : List Char}
    {start stop : Nat}
    (ordered : start ≤ stop) :
    slice text start stop ++ text.drop stop = text.drop start := by
  rw [slice_eq_take_drop, ← Nat.add_sub_cancel' ordered, Nat.add_sub_cancel_left,
    ← List.drop_drop, List.take_append_drop]

/-- The slice of one character. -/
theorem slice_succ
    {text : List Char}
    {offset : Nat}
    {c : Char}
    (stands : text[offset]? = some c) :
    slice text offset (offset + 1) = [c] := by
  rw [slice_eq_take_drop, Nat.add_sub_cancel_left, List.take_one, List.head?_drop, stands]
  rfl

theorem getElem?_of_drop_eq_cons
    {text rest : List Char}
    {offset : Nat}
    {c : Char}
    (isRest : text.drop offset = c :: rest) :
    text[offset]? = some c := by
  rw [← List.head?_drop, isRest]
  rfl

theorem drop_of_getElem?
    {text : List Char}
    {offset : Nat}
    {c : Char}
    (stands : text[offset]? = some c) :
    text.drop offset = c :: text.drop (offset + 1) := by
  obtain ⟨inside, rfl⟩ := List.getElem?_eq_some_iff.mp stands
  exact List.drop_eq_getElem_cons inside

/-! ## Blanks and words -/

private theorem blankRanges_apart_wordRanges :
    ∀ blank ∈ blankRanges, ∀ word ∈ wordRanges, blank.2 < word.1 ∨ word.2 < blank.1 := by
  decide +kernel

/-- No character is both blank and part of a word. -/
theorem not_isBlank_of_isWord {c : Char} (isWord : isWord c) : ¬ isBlank c := by
  intro blank
  unfold Text.isWord at isWord
  simp only [isBlank, Ranges.holds, List.any_eq_true, Bool.and_eq_true, decide_eq_true_eq] at blank
  obtain ⟨range, isRange, lower, upper⟩ := blank
  split at isWord
  · rename_i isAscii
    -- Below 128 the blanks are the code points 9 to 13 and 28 to 32.
    have early : c.toNat ≤ 0x20 := by
      simp only [blankRanges, List.mem_cons, List.not_mem_nil, or_false] at isRange
      rcases isRange with rfl | rfl | rfl | rfl | rfl | rfl | rfl | rfl | rfl | rfl <;>
        simp only at lower upper <;> omega
    simp only [Bool.or_eq_true, decide_eq_true_eq] at isWord
    rcases isWord with isAlphanum | isUnderscore
    · change (decide (c.val ≥ 65 ∧ c.val ≤ 90) || (decide (c.val ≥ 97) && decide (c.val ≤ 122)) ||
        (decide (c.val ≥ 48) && decide (c.val ≤ 57))) = true at isAlphanum
      simp only [Bool.or_eq_true, Bool.and_eq_true, decide_eq_true_eq, ge_iff_le,
        UInt32.le_iff_toNat_le] at isAlphanum
      change (65 ≤ c.toNat ∧ c.toNat ≤ 90 ∨ 97 ≤ c.toNat ∧ c.toNat ≤ 122) ∨
        48 ≤ c.toNat ∧ c.toNat ≤ 57 at isAlphanum
      omega
    · rw [isUnderscore] at early
      exact absurd early (by decide)
  · simp only [Ranges.holds, List.any_eq_true, Bool.and_eq_true, decide_eq_true_eq] at isWord
    obtain ⟨word, isOne, wordLower, wordUpper⟩ := isWord
    have apart := blankRanges_apart_wordRanges range isRange word isOne
    omega

theorem not_isBlank_of_isIdentifierPart {c : Char} (isPart : isIdentifierPart c) :
    ¬ isBlank c := by
  simp only [isIdentifierPart, Bool.or_eq_true, decide_eq_true_eq] at isPart
  rcases isPart with rfl | isWord
  · decide
  · exact not_isBlank_of_isWord isWord

/-- A text without characters of a class has none of them at its ends. -/
theorem trim_eq_self
    {isPadding : Char → Bool}
    {text : String}
    (bare : ∀ c ∈ text.toList, isPadding c = false) :
    trim isPadding text = text := by
  have kept : ∀ chars : List Char, (∀ c ∈ chars, isPadding c = false) →
      chars.dropWhile isPadding = chars := by
    intro chars areBare
    cases chars with
    | nil => rfl
    | cons c chars => rw [List.dropWhile_cons_of_neg (by simp [areBare c])]
  rw [trim, kept _ bare, kept _ (fun c member => bare c (List.mem_reverse.mp member)),
    List.reverse_reverse, String.ofList_toList]

/-! ## Ink -/

/-- A character that is not blank stands at an offset. -/
def InkedAt (text : List Char) (offset : Nat) : Prop :=
  ∃ c, text[offset]? = some c ∧ ¬ isBlank c

/-- What stands between two offsets begins and ends with a character that is not
blank. -/
structure Framed (text : List Char) (start stop : Nat) : Prop where
  nonempty : start < stop
  first : InkedAt text start
  last : InkedAt text (stop - 1)

theorem Framed.inside
    {text : List Char}
    {start stop : Nat}
    (framed : Framed text start stop) :
    stop ≤ text.length := by
  obtain ⟨c, stands, _⟩ := framed.last
  have bound := (List.getElem?_eq_some_iff.mp stands).1
  have positive := framed.nonempty
  omega

theorem getElem?_slice
    (text : List Char)
    {start stop offset : Nat}
    (lower : start ≤ offset)
    (upper : offset < stop) :
    (slice text start stop)[offset - start]? = text[offset]? := by
  rw [slice_eq_take_drop, List.getElem?_take_of_lt (by omega), List.getElem?_drop,
    Nat.add_sub_cancel' lower]

theorem mem_slice
    {text : List Char}
    {start stop offset : Nat}
    {c : Char}
    (lower : start ≤ offset)
    (upper : offset < stop)
    (stands : text[offset]? = some c) :
    c ∈ slice text start stop :=
  List.mem_of_getElem? ((getElem?_slice text lower upper).trans stands)

/-! ## Margins -/

/-- Blanks of one line. -/
def IsMargin (text : List Char) : Prop :=
  ∀ c ∈ text, isBlank c ∧ c ≠ '\n'

/-- Two offsets around two others: between them are only blanks of the line of
the inner ones, and at most the line feed that ends that line.  Blanks without
it reach to the end of the text. -/
structure Widened (text : List Char) (start stop outerStart outerStop : Nat) : Prop where
  lower : outerStart ≤ start
  upper : stop ≤ outerStop
  inside : outerStop ≤ text.length
  lead : IsMargin (slice text outerStart start)
  trail : ∃ rest ending, slice text stop outerStop = rest ++ ending ∧ IsMargin rest ∧
    (ending = ['\n'] ∨ ending = [] ∧ (rest = [] ∨ outerStop = text.length))

theorem Widened.refl
    {text : List Char}
    {start stop : Nat}
    (framed : Framed text start stop) :
    Widened text start stop start stop where
  lower := Nat.le_refl _
  upper := Nat.le_refl _
  inside := framed.inside
  lead := by simp [IsMargin]
  trail := ⟨[], [], by simp, by simp [IsMargin], .inr ⟨rfl, .inl rfl⟩⟩

/-- No ink stands in the margins. -/
theorem Widened.outside_of_inked
    {text : List Char}
    {start stop outerStart outerStop offset : Nat}
    (widened : Widened text start stop outerStart outerStop)
    (inked : InkedAt text offset) :
    (offset < outerStart ∨ start ≤ offset) ∧ (offset < stop ∨ outerStop ≤ offset) := by
  obtain ⟨c, stands, notBlank⟩ := inked
  constructor
  · by_cases inLead : outerStart ≤ offset ∧ offset < start
    · exact absurd (widened.lead c (mem_slice inLead.1 inLead.2 stands)).1 notBlank
    · omega
  · by_cases inTrail : stop ≤ offset ∧ offset < outerStop
    · obtain ⟨rest, ending, isTrail, margin, isEnding⟩ := widened.trail
      have member := mem_slice inTrail.1 inTrail.2 stands
      rw [isTrail, List.mem_append] at member
      rcases member with inRest | inEnding
      · exact absurd (margin c inRest).1 notBlank
      · rcases isEnding with rfl | ⟨rfl, _⟩
        · rw [List.mem_singleton.mp inEnding] at notBlank
          exact absurd (by decide) notBlank
        · simp at inEnding
    · omega

/-- Of two pieces of text that do not overlap, the margins do not either. -/
theorem Widened.apart
    {text : List Char}
    {start stop outerStart outerStop nextStart nextStop nextOuterStart nextOuterStop : Nat}
    (framed : Framed text start stop)
    (nextFramed : Framed text nextStart nextStop)
    (ordered : stop ≤ nextStart)
    (widened : Widened text start stop outerStart outerStop)
    (nextWidened : Widened text nextStart nextStop nextOuterStart nextOuterStop) :
    outerStop ≤ nextOuterStart := by
  have positive := framed.nonempty
  have nextInside := nextFramed.inside
  have nextPositive := nextFramed.nonempty
  -- The next piece begins after the margin of this one, for it begins with ink.
  have beyond := (widened.outside_of_inked nextFramed.first).2
  have before := (nextWidened.outside_of_inked framed.last).1
  obtain ⟨rest, ending, isTrail, margin, isEnding⟩ := widened.trail
  have size : (slice text stop outerStop).length = outerStop - stop :=
    length_slice widened.inside
  rw [isTrail, List.length_append] at size
  have upper := widened.upper
  rcases isEnding with rfl | ⟨rfl, rfl | isEnd⟩
  · -- A line feed ends the margin, and none stands in the margin of the next.
    simp only [List.length_singleton] at size
    have feed : text[outerStop - 1]? = some '\n' := by
      have lower : stop ≤ outerStop - 1 := by omega
      have before : outerStop - 1 < outerStop := by omega
      rw [← getElem?_slice text lower before, isTrail, List.getElem?_append_right (by omega),
        show outerStop - 1 - stop - rest.length = 0 by omega]
      rfl
    by_cases inLead : nextOuterStart ≤ outerStop - 1
    · have early : outerStop - 1 < nextStart := by omega
      have member := mem_slice inLead early feed
      exact absurd rfl (nextWidened.lead _ member).2
    · omega
  · simp only [List.length_nil, Nat.add_zero] at size
    omega
  · omega

/-! ## Lines -/

/-- The line of an offset begins at or before it, and no line feed stands
between. -/
theorem lineStart_spec
    (text : String)
    {offset : Nat}
    (inside : offset ≤ text.length) :
    lineStart text offset ≤ offset ∧
      '\n' ∉ slice text.toList (lineStart text offset) offset := by
  unfold lineStart
  simp only
  generalize isBefore : text.toList.take offset = before
  have size : before.length = offset := by
    rw [← isBefore, List.length_take, String.length_toList]
    omega
  refine ⟨by omega, ?_⟩
  rw [slice, isBefore]
  have isDrop : before.drop (before.length - (before.reverse.takeWhile (· ≠ '\n')).length) =
      (before.reverse.takeWhile (· ≠ '\n')).reverse := by
    have isTake := List.prefix_iff_eq_take.mp (List.takeWhile_prefix (· ≠ '\n')
      (l := before.reverse))
    exact (congrArg List.reverse (isTake.trans List.take_reverse)).trans
      (List.reverse_reverse _) |>.symm
  rw [isDrop, List.mem_reverse]
  intro member
  have := List.all_eq_true.mp List.all_takeWhile '\n' member
  simp at this

/-- A line begins with the text or after a line feed. -/
theorem feed_before_lineStart (text : String) (offset : Nat) :
    lineStart text offset = 0 ∨ text.toList[lineStart text offset - 1]? = some '\n' := by
  unfold lineStart
  simp only
  generalize isBefore : text.toList.take offset = before
  have split := List.takeWhile_append_dropWhile (p := (· ≠ '\n')) (l := before.reverse)
  cases isRest : before.reverse.dropWhile (· ≠ '\n') with
  | nil =>
    rw [isRest, List.append_nil] at split
    rw [split, List.length_reverse]
    exact .inl (Nat.sub_self _)
  | cons c rest =>
    have isFeed := List.head?_dropWhile_not (· ≠ '\n') before.reverse
    rw [isRest] at isFeed
    obtain rfl : c = '\n' := by simpa using isFeed
    rw [isRest] at split
    have isWhole : rest.reverse ++ '\n' :: (before.reverse.takeWhile (· ≠ '\n')).reverse =
        before := by
      have reversed := congrArg List.reverse split
      rw [List.reverse_reverse] at reversed
      simpa using reversed
    refine .inr ?_
    have size : before.length - (before.reverse.takeWhile (· ≠ '\n')).length - 1 =
        rest.reverse.length := by
      have total := congrArg List.length isWhole
      simp only [List.length_append, List.length_cons, List.length_reverse] at total ⊢
      omega
    rw [size, ← List.take_append_drop offset text.toList, isBefore]
    generalize before.reverse.takeWhile (· ≠ '\n') = line at isWhole
    rw [← isWhole]
    simp

/-- The line of an offset ends at or after it, with the text or at a line feed,
and no line feed stands between. -/
theorem lineStop_spec
    (text : String)
    {offset : Nat}
    (inside : offset ≤ text.length) :
    offset ≤ lineStop text offset ∧ lineStop text offset ≤ text.length ∧
      '\n' ∉ slice text.toList offset (lineStop text offset) ∧
      (lineStop text offset < text.length → text.toList[lineStop text offset]? = some '\n') := by
  unfold lineStop
  simp only [Nat.min_eq_left inside]
  generalize isRest : text.toList.drop offset = rest
  have size : offset + rest.length = text.length := by
    rw [← isRest, List.length_drop, String.length_toList]
    omega
  have isTake := List.prefix_iff_eq_take.mp (List.takeWhile_prefix (· ≠ '\n') (l := rest))
  have short := (List.takeWhile_sublist (l := rest) (· ≠ '\n')).length_le
  refine ⟨by omega, by omega, ?_, fun early => ?_⟩
  · rw [slice_eq_take_drop, isRest, Nat.add_sub_cancel_left, ← isTake]
    intro member
    have := List.all_eq_true.mp List.all_takeWhile '\n' member
    simp at this
  · rw [← List.getElem?_drop, isRest]
    have split := List.takeWhile_append_dropWhile (p := (· ≠ '\n')) (l := rest)
    cases isDrop : rest.dropWhile (· ≠ '\n') with
    | nil =>
      rw [isDrop, List.append_nil] at split
      rw [split] at early
      omega
    | cons c more =>
      have isFeed := List.head?_dropWhile_not (· ≠ '\n') rest
      rw [isDrop] at isFeed
      replace isFeed : c = '\n' := by simpa using isFeed
      rw [isDrop, isFeed] at split
      have stands : (rest.takeWhile (· ≠ '\n') ++ '\n' :: more)[
          (rest.takeWhile (· ≠ '\n')).length]? = some '\n' := by
        rw [List.getElem?_append_right (Nat.le_refl _), Nat.sub_self]
        rfl
      rwa [split] at stands

/-! ## Digits -/

private theorem bounds_of_isDigit
    {c : Char}
    (digit : c.isDigit) :
    0x30 ≤ c.toNat ∧ c.toNat ≤ 0x39 := by
  simp only [Char.isDigit, Bool.and_eq_true, decide_eq_true_eq] at digit
  exact digit

private theorem digitValue?_of_isDigit {c : Char} (digit : c.isDigit) :
    digitValue? c = some (c.toNat - 0x30) := by
  have bounds := bounds_of_isDigit digit
  rw [digitValue?, if_pos (by omega), if_pos digit]

private theorem digitsValue?_of_isDigit
    {digits : List Char}
    (areDigits : ∀ c ∈ digits, c.isDigit)
    (value : Nat) :
    digitsValue? value digits = some (Nat.ofDigitChars 10 digits value) := by
  induction digits generalizing value with
  | nil => rfl
  | cons c digits inductionHypothesis =>
    obtain ⟨digit, areRest⟩ := List.forall_mem_cons.mp areDigits
    have noUnderscore : c ≠ '_' := by
      rintro rfl
      simp at digit
    rw [digitsValue?, digitValue?_of_isDigit digit]
    · show digitsValue? (value * 10 + (c.toNat - 0x30)) digits = _
      rw [inductionHypothesis areRest, Nat.ofDigitChars_cons, Nat.mul_comm]
      rfl
    · exact noUnderscore

private theorem isDigit_of_mem_toDigits
    {value : Nat}
    {c : Char}
    (member : c ∈ Nat.toDigits 10 value) :
    c.isDigit :=
  Nat.isDigit_of_mem_toDigits (by decide) (by decide) member

/-- The digits of a number are read as the number. -/
theorem natural?_toDigits (value : Nat) : natural? (Nat.toDigits 10 value) = some value := by
  have areDigits : ∀ c ∈ Nat.toDigits 10 value, c.isDigit := fun _ => isDigit_of_mem_toDigits
  have spelled : Nat.ofDigitChars 10 (Nat.toDigits 10 value) 0 = value :=
    Nat.ofDigitChars_toDigits (by decide) (by decide)
  cases isSpelling : Nat.toDigits 10 value with
  | nil => exact absurd isSpelling Nat.toDigits_ne_nil
  | cons c digits =>
    rw [isSpelling] at areDigits spelled
    obtain ⟨digit, areRest⟩ := List.forall_mem_cons.mp areDigits
    rw [natural?, digitValue?_of_isDigit digit]
    show digitsValue? (c.toNat - 0x30) digits = some value
    rw [digitsValue?_of_isDigit areRest, ← spelled, Nat.ofDigitChars_cons]
    simp

/-! ## Integers -/

private theorem not_isIntegerPadding_of_isDigit {c : Char} (digit : c.isDigit) :
    isIntegerPadding c = false := by
  have isAscii : c.toNat < 0x80 := by
    have bounds := bounds_of_isDigit digit
    omega
  have isPart : isWord c := by simp [isWord, isAscii, Char.isAlphanum, digit]
  simp [isIntegerPadding, not_isBlank_of_isWord isPart]

private theorem toList_decimal_ofNat (value : Nat) :
    (decimal (.ofNat value)).toList = Nat.toDigits 10 value :=
  String.toList_ofList

private theorem toList_decimal_negSucc (value : Nat) :
    (decimal (.negSucc value)).toList = '-' :: Nat.toDigits 10 (value + 1) := by
  simp [decimal]

private theorem trim_decimal
    (value : Int) :
    trim isIntegerPadding (decimal value) = decimal value := by
  apply trim_eq_self
  intro c member
  cases value with
  | ofNat value =>
    rw [toList_decimal_ofNat] at member
    exact not_isIntegerPadding_of_isDigit (isDigit_of_mem_toDigits member)
  | negSucc value =>
    rw [toList_decimal_negSucc] at member
    rcases List.mem_cons.mp member with rfl | isDigit
    · decide
    · exact not_isIntegerPadding_of_isDigit (isDigit_of_mem_toDigits isDigit)

/-- Every integer is read back from its spelling. -/
theorem readInteger?_decimal (value : Int) : readInteger? (decimal value) = some value := by
  rw [readInteger?, trim_decimal]
  cases value with
  | ofNat value =>
    rw [toList_decimal_ofNat]
    have unsigned : ∀ rest, Nat.toDigits 10 value ≠ '-' :: rest ∧
        Nat.toDigits 10 value ≠ '+' :: rest := by
      intro rest
      constructor <;> intro isSigned
      · have digit : '-'.isDigit := @isDigit_of_mem_toDigits value '-' (by simp [isSigned])
        simp at digit
      · have digit : '+'.isDigit := @isDigit_of_mem_toDigits value '+' (by simp [isSigned])
        simp at digit
    split
    · rename_i rest isSigned
      exact absurd isSigned (unsigned rest).1
    · rename_i rest isSigned
      exact absurd isSigned (unsigned rest).2
    · rw [natural?_toDigits]
      rfl
  | negSucc value =>
    rw [toList_decimal_negSucc]
    simp only [natural?_toDigits]
    rfl

/-- Different integers are spelled differently. -/
theorem decimal_injective {left right : Int} (same : decimal left = decimal right) :
    left = right := by
  have read := congrArg readInteger? same
  rwa [readInteger?_decimal, readInteger?_decimal, Option.some.injEq] at read

/-- Nothing is read from an empty text. -/
theorem readInteger?_empty : readInteger? "" = none := by
  decide

end Restyle.Text
