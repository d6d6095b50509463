import Mathlib.Data.Bool.AllAny
import Restyle.Proofs.Lexeme.Steps
import Restyle.Proofs.Text

/-!
Contract: how far a lexeme reaches does not depend on what follows it.

Owns: `stops`, a text that continues no name and no number; for each lexical
form, that it takes the same characters when the text after them is replaced.

Block comments and quoted strings end with a mark of their own.  Names, numbers
and the flags of a pattern end where a text begins that stops them.
-/

namespace Restyle.Lexeme

open Restyle.Text

/-! ## Texts that stop a name or a number -/

/-- Whether a text begins with no character that could belong to a name. -/
def stops (text : List Char) : Bool :=
  !text.head?.any isIdentifierPart

private theorem zeros_within_wordRanges :
    ∀ base ∈ zeros, base < 0x80 ∨ ∃ range ∈ wordRanges, range.1 ≤ base ∧ base + 9 ≤ range.2 := by
  have within : zeros.all (fun base => base.blt 0x80 || wordRanges.any fun range =>
      range.1.ble base && (base + 9).ble range.2) = true := by
    decide +kernel
  intro base isBase
  have own := List.all_eq_true.mp within base isBase
  rw [Bool.or_eq_true, List.any_eq_true] at own
  exact own.imp Nat.blt_eq.mp fun ⟨range, isRange, bounds⟩ =>
    ⟨range, isRange, by simpa using bounds⟩

/-- Every decimal digit may stand in a name. -/
theorem isIdentifierPart_of_isDigit {c : Char} (digit : isDigit c) : isIdentifierPart c := by
  suffices isWord c by simp [isIdentifierPart, this]
  unfold isDigit digitValue? at digit
  unfold isWord
  split at digit
  · rename_i isAscii
    rw [if_pos isAscii]
    by_cases plain : c.isDigit
    · simp [Char.isAlphanum, plain]
    · simp [plain] at digit
  · rename_i notAscii
    rw [if_neg notAscii]
    simp only [Option.isSome_map, List.find?_isSome, Bool.and_eq_true, decide_eq_true_eq] at digit
    obtain ⟨base, isBase, lower, upper⟩ := digit
    have above : ¬ c.toNat < 0x80 := notAscii
    rcases zeros_within_wordRanges base isBase with early | ⟨range, isRange, below, past⟩
    · have isZero : base = 0x30 := by
        have ascii : ∀ base ∈ zeros, base < 0x80 → base = 0x30 := by decide
        exact ascii base isBase early
      omega
    · simp only [Ranges.holds, List.any_eq_true, Bool.and_eq_true, decide_eq_true_eq]
      exact ⟨range, isRange, by omega, by omega⟩

theorem isIdentifierPart_of_isIdentifierStart {c : Char} (starts : isIdentifierStart c) :
    isIdentifierPart c := by
  simp only [isIdentifierStart, Bool.or_eq_true, Bool.and_eq_true] at starts
  simp only [isIdentifierPart, Bool.or_eq_true]
  exact starts.imp id And.left

private theorem isIdentifierPart_of_ascii {c : Char} (isAscii : c.toNat < 0x80)
    (isPlain : c.isAlphanum || c = '_') : isIdentifierPart c := by
  suffices isWord c by simp [isIdentifierPart, this]
  rw [isWord, if_pos isAscii]
  exact isPlain

theorem isIdentifierPart_of_isLower {c : Char} (isLower : c.isLower) : isIdentifierPart c := by
  have bounds : (97 : Nat) ≤ c.toNat ∧ c.toNat ≤ 122 := by
    change (decide (c.val ≥ 97) && decide (c.val ≤ 122)) = true at isLower
    simpa [UInt32.le_iff_toNat_le] using isLower
  apply isIdentifierPart_of_ascii (by omega)
  show (c.isUpper || c.isLower || c.isDigit || decide (c = '_')) = true
  simp [isLower]

private theorem isIdentifierPart_of_isUpper
    {c : Char}
    (isUpper : c.isUpper) :
    isIdentifierPart c := by
  have bounds : (65 : Nat) ≤ c.toNat ∧ c.toNat ≤ 90 := by
    change decide (c.val ≥ 65 ∧ c.val ≤ 90) = true at isUpper
    simpa [UInt32.le_iff_toNat_le] using isUpper
  apply isIdentifierPart_of_ascii (by omega)
  show (c.isUpper || c.isLower || c.isDigit || decide (c = '_')) = true
  simp [isUpper]

theorem isIdentifierPart_of_isRadixDigit {c : Char} (digit : isRadixDigit c) :
    isIdentifierPart c := by
  simp only [isRadixDigit, Bool.or_eq_true, Bool.and_eq_true, decide_eq_true_eq] at digit
  rcases digit with ((plain | ⟨lower, upper⟩) | ⟨lower, upper⟩) | rfl
  · have bounds : (48 : Nat) ≤ c.toNat ∧ c.toNat ≤ 57 := by
      simpa [Char.isDigit, UInt32.le_iff_toNat_le] using plain
    exact isIdentifierPart_of_ascii (by omega) (by simp [Char.isAlphanum, plain])
  · apply isIdentifierPart_of_isLower
    have below : (c.toNat : Nat) ≤ 102 := upper
    show (decide (c.val ≥ 97) && decide (c.val ≤ 122)) = true
    simp only [ge_iff_le, Bool.and_eq_true, decide_eq_true_eq, UInt32.le_iff_toNat_le]
    exact ⟨lower, Nat.le_trans below (by decide)⟩
  · apply isIdentifierPart_of_isUpper
    have below : (c.toNat : Nat) ≤ 70 := upper
    show decide (c.val ≥ 65 ∧ c.val ≤ 90) = true
    simp only [ge_iff_le, decide_eq_true_eq, UInt32.le_iff_toNat_le]
    exact ⟨lower, Nat.le_trans below (by decide)⟩
  · decide

theorem stops_cons {c : Char} {text : List Char} :
    stops (c :: text) ↔ isIdentifierPart c = false := by
  simp [stops]

theorem takeWhile_append_of_head
    {isOwn : Char → Bool}
    {rest : List Char}
    (stopped : rest.head?.any isOwn = false)
    (text : List Char) :
    (text ++ rest).takeWhile isOwn = text.takeWhile isOwn := by
  induction text with
  | nil =>
    cases rest with
    | nil => rfl
    | cons c rest =>
      have notOwn : isOwn c = false := by simpa using stopped
      simp [notOwn]
  | cons c text inductionHypothesis =>
    simp only [List.cons_append, List.takeWhile_cons, inductionHypothesis]

/-- A run of characters is the same if no further one follows. -/
theorem length_takeWhile_replace
    {isOwn : Char → Bool}
    {body rest other : List Char}
    (taken : ((body ++ rest).takeWhile isOwn).length = body.length)
    (stopped : other.head?.any isOwn = false) :
    ((body ++ other).takeWhile isOwn).length = body.length := by
  rw [takeWhile_append_of_head stopped]
  induction body with
  | nil => rfl
  | cons c body inductionHypothesis =>
    rw [List.cons_append, List.takeWhile_cons] at taken
    split at taken
    · rename_i own
      simp only [List.length_cons, Nat.add_right_cancel_iff] at taken
      rw [List.takeWhile_cons, if_pos own, List.length_cons, List.length_cons,
        inductionHypothesis taken]
    · simp at taken

/-- A text that stops a name holds none of its characters at its head. -/
theorem head?_of_stops
    {isOwn : Char → Bool}
    (inName : ∀ c, isOwn c → isIdentifierPart c)
    {text : List Char}
    (stopped : stops text) :
    text.head?.any isOwn = false := by
  cases text with
  | nil => rfl
  | cons c text =>
    have notPart := stops_cons.mp stopped
    have outside : isOwn c = false := Bool.eq_false_iff.mpr fun inside => by
      simp [inName c inside] at notPart
    simp [outside]

theorem not_head_of_stops
    {text more : List Char}
    {c : Char}
    (stopped : stops text)
    (inName : isIdentifierPart c) :
    text ≠ c :: more := by
  rintro rfl
  simp [stops_cons.mp stopped] at inName

/-! ## Forms that end with a mark of their own -/

private theorem blockCommentExtent?_pos
    {text : List Char}
    {extent : Nat}
    (found : blockCommentExtent? text = some extent) :
    0 < extent := by
  fun_cases blockCommentExtent? text with
  | case1 more =>
    rw [blockCommentExtent?, Option.some.injEq] at found
    omega
  | case2 c more notClosing =>
    rw [blockCommentExtent?.eq_2 _ _ notClosing] at found
    obtain ⟨inner, _, rfl⟩ := Option.map_eq_some_iff.mp found
    omega
  | case3 => simp [blockCommentExtent?] at found

theorem blockCommentExtent?_le
    {text : List Char}
    {extent : Nat}
    (found : blockCommentExtent? text = some extent) :
    extent ≤ text.length := by
  fun_induction blockCommentExtent? text generalizing extent with
  | case1 more =>
    simp only [Option.some.injEq] at found
    simp only [List.length_cons]
    omega
  | case2 c more notClosing inductionHypothesis =>
    obtain ⟨inner, isInner, rfl⟩ := Option.map_eq_some_iff.mp found
    have := inductionHypothesis isInner
    simp only [List.length_cons]
    omega
  | case3 => simp at found

/-- A block comment is the same whatever follows it. -/
theorem blockCommentExtent?_replace
    {body rest : List Char}
    (found : blockCommentExtent? (body ++ rest) = some body.length)
    (other : List Char) :
    blockCommentExtent? (body ++ other) = some body.length := by
  generalize isText : body ++ rest = text at found
  fun_induction blockCommentExtent? text generalizing body with
  | case1 more =>
    have isBody : body = ['*', '/'] := by
      have size : body.length = 2 := by simpa using found.symm
      match body, size with
      | [first, second], _ => simp_all
    rw [isBody]
    rfl
  | case2 c more notClosing inductionHypothesis =>
    obtain ⟨inner, isInner, isLength⟩ := Option.map_eq_some_iff.mp found
    cases body with
    | nil => simp at isLength
    | cons first body =>
      obtain ⟨rfl, isMore⟩ := List.cons.inj isText
      have size : inner = body.length := by simpa using isLength
      rw [size] at isInner
      have later := inductionHypothesis isMore isInner
      have stillOpen : ∀ after, first = '*' → body ++ other = '/' :: after → False := by
        intro after isStar isSlash
        cases body with
        | nil => simpa using blockCommentExtent?_pos isInner
        | cons second body =>
          obtain ⟨rfl, _⟩ := List.cons.inj isSlash
          exact notClosing (body ++ rest) isStar (by rw [← isMore]; rfl)
      rw [List.cons_append, blockCommentExtent?.eq_2 _ _ stillOpen, later]
      rfl
  | case3 => simp at found

/-- Whether a text is the rest of a string after its opening quote: the closing
quote is its last character and the only bare one. -/
def endsQuoted (quote : Char) : List Char → Bool
  | [] => false
  | [c] => c = quote
  | c :: d :: rest =>
    if c = quote || c = '\n' then false
    else if c = '\\' then endsQuoted quote rest
    else endsQuoted quote (d :: rest)

private theorem quotedExtent?_pos
    {quote : Char}
    {text : List Char}
    {extent : Nat}
    (found : quotedExtent? quote text = some extent) :
    0 < extent := by
  fun_cases quotedExtent? quote text <;> simp_all [quotedExtent?] <;> omega

theorem quotedExtent?_le
    {quote : Char}
    {text : List Char}
    {extent : Nat}
    (found : quotedExtent? quote text = some extent) :
    extent ≤ text.length := by
  fun_induction quotedExtent? quote text generalizing extent with
  | case6 =>
    rename_i inductionHypothesis
    obtain ⟨inner, isInner, rfl⟩ := Option.map_eq_some_iff.mp found
    have := inductionHypothesis isInner
    simp only [List.length_cons]
    omega
  | case7 =>
    rename_i inductionHypothesis
    obtain ⟨inner, isInner, rfl⟩ := Option.map_eq_some_iff.mp found
    have := inductionHypothesis isInner
    simp only [List.length_cons] at this ⊢
    omega
  | _ =>
    simp_all
    try omega

/-- A quoted string is read from a text exactly if it ends there, whatever
follows. -/
theorem quotedExtent?_append_iff
    {quote : Char}
    {body : List Char}
    (rest : List Char) :
    quotedExtent? quote (body ++ rest) = some body.length ↔ endsQuoted quote body := by
  have notEmpty : ∀ text, quotedExtent? quote text ≠ some 0 := fun text found =>
    absurd (quotedExtent?_pos found) (by omega)
  fun_induction endsQuoted quote body with
  | case1 => simpa using notEmpty rest
  | case2 c =>
    by_cases isQuote : c = quote
    · cases rest <;> simp [quotedExtent?, isQuote]
    · cases rest with
      | nil => simp [quotedExtent?, isQuote]
      | cons d rest =>
        simp only [List.singleton_append, quotedExtent?, isQuote, if_false]
        split
        · simp
        · split
          · simp
          · simpa using notEmpty _
  | case3 c d body ends =>
    simp only [Bool.or_eq_true, decide_eq_true_eq] at ends
    rcases ends with rfl | rfl
    · simp [quotedExtent?]
    · by_cases isQuote : '\n' = quote <;> simp [quotedExtent?, isQuote]
  | case4 d body plain inductionHypothesis =>
    simp only [Bool.or_eq_true, decide_eq_true_eq, not_or] at plain
    simp only [List.cons_append, quotedExtent?, plain.1, plain.2, if_false, if_true,
      List.length_cons, Option.map_eq_some_iff, Nat.add_right_cancel_iff, exists_eq_right]
    exact inductionHypothesis
  | case5 c d body plain notEscape inductionHypothesis =>
    simp only [Bool.or_eq_true, decide_eq_true_eq, not_or] at plain
    simp only [List.cons_append, quotedExtent?, plain.1, plain.2, notEscape, if_false,
      List.length_cons, Option.map_eq_some_iff, Nat.add_right_cancel_iff, exists_eq_right]
    exact inductionHypothesis

/-! ## Patterns -/

private theorem patternExtent?_cons
    {c : Char}
    (notFeed : c ≠ '\n')
    (notEscape : c ≠ '\\')
    (inBrackets : Bool)
    (text : List Char) :
    patternExtent? inBrackets (c :: text) =
      if inBrackets then (patternExtent? (c ≠ ']') text).map (· + 1)
      else if c = '/' then some (1 + (text.takeWhile Char.isLower).length)
      else (patternExtent? (c = '[') text).map (· + 1) := by
  rw [patternExtent?.eq_def]
  split <;> simp_all

/-- What a pattern begins with: an escape, a character after which it goes on, or the
slash that closes it, with its flags. -/
inductive PatternBegins : List Char → Nat → Prop where
  | escape {c : Char} {rest : List Char} {inBrackets : Bool} {extent : Nat}
      (later : patternExtent? inBrackets rest = some extent) :
      PatternBegins ('\\' :: c :: rest) (extent + 2)
  | goesOn {c : Char} {rest : List Char} {inBrackets : Bool} {extent : Nat}
      (later : patternExtent? inBrackets rest = some extent) :
      PatternBegins (c :: rest) (extent + 1)
  | closes {rest : List Char} :
      PatternBegins ('/' :: rest) (1 + (rest.takeWhile Char.isLower).length)

theorem patternBegins_of_patternExtent?
    {inBrackets : Bool}
    {text : List Char}
    {extent : Nat}
    (found : patternExtent? inBrackets text = some extent) :
    PatternBegins text extent := by
  have goesOn : ∀ {c : Char} {rest : List Char} {brackets : Bool},
      (patternExtent? brackets rest).map (· + 1) = some extent →
        PatternBegins (c :: rest) extent := by
    intro c rest brackets found
    obtain ⟨inner, isInner, rfl⟩ := Option.map_eq_some_iff.mp found
    exact .goesOn isInner
  unfold patternExtent? at found
  split at found
  · simp at found
  · simp at found
  · simp at found
  · split at found
    · simp at found
    · obtain ⟨inner, isInner, rfl⟩ := Option.map_eq_some_iff.mp found
      exact .escape isInner
  · split at found
    · exact goesOn found
    · split at found
      · rename_i isSlash
        rw [← Option.some.inj found, isSlash]
        exact .closes
      · exact goesOn found

private theorem patternExtent?_pos
    {inBrackets : Bool}
    {text : List Char}
    {extent : Nat}
    (found : patternExtent? inBrackets text = some extent) :
    0 < extent := by
  cases patternBegins_of_patternExtent? found <;> omega

theorem patternExtent?_le
    (text : List Char)
    (inBrackets : Bool)
    {extent : Nat}
    (found : patternExtent? inBrackets text = some extent) :
    extent ≤ text.length := by
  cases patternBegins_of_patternExtent? found with
  | @escape _ rest brackets _ later =>
    have := patternExtent?_le rest brackets later
    simp only [List.length_cons]
    omega
  | @goesOn _ rest brackets _ later =>
    have := patternExtent?_le rest brackets later
    simp only [List.length_cons]
    omega
  | @closes rest =>
    have := (List.takeWhile_prefix (l := rest) Char.isLower).length_le
    simp only [List.length_cons]
    omega
termination_by text.length

/-- A pattern is the same whatever follows it but a further flag. -/
theorem patternExtent?_replace
    {rest other : List Char}
    (noFlag : other.head?.any Char.isLower = false) :
    ∀ (body : List Char) (inBrackets : Bool),
      patternExtent? inBrackets (body ++ rest) = some body.length →
        patternExtent? inBrackets (body ++ other) = some body.length
  | [], inBrackets, found => absurd (patternExtent?_pos found) (by simp)
  | c :: body, inBrackets, found => by
    by_cases notFeed : c = '\n'
    · simp [patternExtent?, notFeed] at found
    by_cases notEscape : c = '\\'
    · subst notEscape
      match body, found with
      | [], found =>
        cases rest with
        | nil => simp [patternExtent?] at found
        | cons d rest =>
          rw [List.singleton_append, patternExtent?] at found
          split at found
          · simp at found
          · obtain ⟨inner, _, isLength⟩ := Option.map_eq_some_iff.mp found
            simp at isLength
      | d :: body, found =>
        rw [List.cons_append, List.cons_append, patternExtent?] at found ⊢
        split at found
        · simp at found
        · rename_i notBroken
          obtain ⟨inner, isInner, isLength⟩ := Option.map_eq_some_iff.mp found
          have size : inner = body.length := by simpa using isLength
          rw [if_neg notBroken, patternExtent?_replace noFlag body inBrackets (size ▸ isInner)]
          rfl
    · rw [List.cons_append, patternExtent?_cons notFeed notEscape] at found ⊢
      have later : ∀ brackets,
          (patternExtent? brackets (body ++ rest)).map (· + 1) = some (c :: body).length →
            (patternExtent? brackets (body ++ other)).map (· + 1) = some (c :: body).length := by
        intro brackets found
        obtain ⟨inner, isInner, isLength⟩ := Option.map_eq_some_iff.mp found
        have size : inner = body.length := by simpa using isLength
        rw [patternExtent?_replace noFlag body brackets (size ▸ isInner)]
        rfl
      split at found
      · rw [if_pos ‹_›]
        exact later _ found
      · rw [if_neg ‹_›]
        split at found
        · rw [if_pos ‹_›]
          simp only [List.length_cons, Option.some.injEq] at found ⊢
          have taken : ((body ++ rest).takeWhile Char.isLower).length = body.length := by omega
          have flags := length_takeWhile_replace taken noFlag
          omega
        · rw [if_neg ‹_›]
          exact later _ found

/-! ## Numbers -/

theorem isIdentifierPart_of_isDigitOrUnderscore {c : Char} (own : isDigitOrUnderscore c) :
    isIdentifierPart c := by
  simp only [isDigitOrUnderscore, Bool.or_eq_true, decide_eq_true_eq] at own
  rcases own with digit | rfl
  · exact isIdentifierPart_of_isDigit digit
  · decide

def signExtent (text : List Char) : Nat :=
  if text.head? = some '+' ∨ text.head? = some '-' then 1 else 0

theorem exponentExtent_cons (mark : Char) (text : List Char) :
    exponentExtent (mark :: text) =
      if mark = 'e' || mark = 'E' then
        let digits := ((text.drop (signExtent text)).takeWhile isDigit).length
        if digits = 0 then 0 else 1 + signExtent text + digits
      else 0 := by
  cases text with
  | nil => simp [exponentExtent, signExtent]
  | cons c text =>
    by_cases plus : c = '+'
    · simp [exponentExtent, signExtent, plus]
    · by_cases minus : c = '-'
      · simp [exponentExtent, signExtent, minus]
      · simp [exponentExtent, signExtent, plus, minus]

private theorem exponentExtent_le (text : List Char) : exponentExtent text ≤ text.length := by
  cases text with
  | nil => simp [exponentExtent]
  | cons mark rest =>
    have within : ((rest.drop (signExtent rest)).takeWhile isDigit).length ≤
        rest.length - signExtent rest := by
      rw [← List.length_drop]
      exact (List.takeWhile_prefix _).length_le
    rw [exponentExtent_cons, List.length_cons]
    simp only
    split
    · split <;> omega
    · omega

section Stopped

variable
  {rest : List Char}
  (stopped : stops rest)

include stopped

private theorem digitsExtent_append (text : List Char) :
    digitsExtent (text ++ rest) = digitsExtent text := by
  have head := head?_of_stops (fun _ => isIdentifierPart_of_isDigitOrUnderscore) stopped
  rw [digitsExtent, digitsExtent, takeWhile_append_of_head head]

private theorem bigExtent_append (text : List Char) :
    bigExtent (text ++ rest) = bigExtent text := by
  cases text with
  | nil =>
    cases rest with
    | nil => rfl
    | cons c rest =>
      have notMark : c ≠ 'n' := fun isMark =>
        not_head_of_stops stopped (by decide : isIdentifierPart 'n') (by rw [isMark])
      simp [bigExtent, notMark]
  | cons c text =>
    by_cases isMark : c = 'n'
    · simp [bigExtent, isMark]
    · simp [bigExtent, isMark]

private theorem exponentExtent_of_stops : exponentExtent rest = 0 := by
  cases rest with
  | nil => rfl
  | cons c rest =>
    have notMark : ¬ (c = 'e' ∨ c = 'E') := by
      rintro (isMark | isMark)
      · exact not_head_of_stops stopped (by decide : isIdentifierPart 'e') (by rw [isMark])
      · exact not_head_of_stops stopped (by decide : isIdentifierPart 'E') (by rw [isMark])
    simp [exponentExtent, notMark]

/-- An exponent of which more than the mark is there does not reach further. -/
theorem exponentExtent_append (mark next : Char) (text : List Char) :
    exponentExtent (mark :: next :: text ++ rest) = exponentExtent (mark :: next :: text) := by
  have head := head?_of_stops (fun _ => isIdentifierPart_of_isDigit) stopped
  have sameSign : signExtent (next :: text ++ rest) = signExtent (next :: text) := rfl
  have within : signExtent (next :: text) ≤ (next :: text).length := by
    rw [signExtent, List.length_cons]
    split <;> omega
  rw [List.cons_append, exponentExtent_cons, exponentExtent_cons, sameSign,
    List.drop_append_of_le_length within, takeWhile_append_of_head head]

private theorem radixExtent?_append (text : List Char) :
    radixExtent? (text ++ rest) = radixExtent? text := by
  cases text with
  | nil =>
    cases rest with
    | nil => rfl
    | cons c rest =>
      have marks : ∀ mark ∈ "xXoObB".toList, isIdentifierPart mark :=
        List.all_iff_forall_prop.mp (by decide)
      have notMark : ¬ "xXoObB".toList.contains c := fun isMark =>
        not_head_of_stops stopped (marks c (by simpa using isMark)) rfl
      simp only [List.nil_append, radixExtent?, if_neg notMark]
  | cons mark text =>
    have head := head?_of_stops (fun _ => isIdentifierPart_of_isRadixDigit) stopped
    have within := (List.takeWhile_prefix (l := text) isRadixDigit).length_le
    simp only [List.cons_append, radixExtent?, takeWhile_append_of_head head,
      List.drop_append_of_le_length within, bigExtent_append stopped]

end Stopped

private theorem bigExtent_le (text : List Char) : bigExtent text ≤ text.length := by
  cases text with
  | nil => simp [bigExtent]
  | cons c text =>
    by_cases isMark : c = 'n' <;> simp [bigExtent, isMark]

private theorem numberEnd_le
    {length : Nat}
    {text : List Char}
    (within : length ≤ text.length) :
    numberEnd length text ≤ text.length := by
  have exponent := exponentExtent_le (text.drop length)
  have mark := bigExtent_le (text.drop (length + exponentExtent (text.drop length)))
  simp only [List.length_drop] at exponent mark
  simp only [numberEnd]
  omega

/-- The end of a number is the same before two texts that stop it. -/
theorem numberEnd_replace
    {length : Nat}
    {body rest other : List Char}
    (within : length ≤ body.length)
    (stopped : stops rest)
    (otherStopped : stops other)
    (found : numberEnd length (body ++ rest) = body.length) :
    numberEnd length (body ++ other) = body.length := by
  obtain ⟨left, isLeft⟩ : ∃ left, body.drop length = left := ⟨_, rfl⟩
  have size : length + left.length = body.length := by
    rw [← isLeft, List.length_drop]
    omega
  have beyond : ∀ text : List Char, ∀ extent,
      (body ++ text).drop (length + extent) = (left ++ text).drop extent := by
    intro text extent
    rw [← List.drop_drop, List.drop_append_of_le_length within, isLeft]
  have here : ∀ text : List Char, (body ++ text).drop length = left ++ text := fun text =>
    beyond text 0
  simp only [numberEnd, here, beyond] at found ⊢
  match left, size with
  | [], size =>
    simp only [List.nil_append, exponentExtent_of_stops otherStopped, List.drop_zero]
    have noMark := bigExtent_append otherStopped []
    simp only [List.nil_append] at noMark
    rw [noMark]
    simpa [bigExtent] using size
  | [c], size =>
    -- A mark that begins an exponent belongs to the number only with its digits.
    have notMark : ¬ (c = 'e' || c = 'E') := by
      intro isMark
      have notBig : bigExtent (c :: rest) = 0 := by
        rcases (by simpa using isMark : c = 'e' ∨ c = 'E') with rfl | rfl <;> rfl
      rw [List.singleton_append, exponentExtent_cons, if_pos isMark] at found
      simp only at found
      split at found
      · rw [List.drop_zero, notBig] at found
        simp only [List.length_singleton] at size
        omega
      · simp only [List.length_singleton] at size
        omega
    have noExponent : ∀ text, exponentExtent (c :: text) = 0 := fun text => by
      rw [exponentExtent_cons, if_neg notMark]
    rw [List.singleton_append, noExponent, List.drop_zero, ← List.singleton_append,
      bigExtent_append stopped] at found
    rw [List.singleton_append, noExponent, List.drop_zero, ← List.singleton_append,
      bigExtent_append otherStopped]
    exact found
  | mark :: next :: left, size =>
    have bound := exponentExtent_le (mark :: next :: left)
    rw [exponentExtent_append stopped, List.drop_append_of_le_length bound,
      bigExtent_append stopped] at found
    rw [exponentExtent_append otherStopped, List.drop_append_of_le_length bound,
      bigExtent_append otherStopped]
    exact found

theorem le_numberEnd (length : Nat) (text : List Char) : length ≤ numberEnd length text := by
  simp only [numberEnd]
  omega

private theorem digitsExtent_le (text : List Char) : digitsExtent text ≤ text.length :=
  (List.takeWhile_prefix _).length_le

def pointExtent (text : List Char) : Nat :=
  if text.head? = some '.' then 1 else 0

private theorem pointExtent_le (text : List Char) : pointExtent text ≤ 1 := by
  unfold pointExtent
  split <;> omega

/-- A number without a radix mark, after its first character. -/
def decimalExtent? (first : Char) (text : List Char) : Option Nat :=
  if isDigit first then
    let whole := digitsExtent text
    let point := pointExtent (text.drop whole)
    let fraction := digitsExtent (text.drop (whole + point))
    some (numberEnd (whole + point + fraction) text)
  else if first = '.' && text.head?.any isDigit then
    some (numberEnd (digitsExtent text) text)
  else none

/-- A number has a radix mark, or else it has none. -/
theorem numberExtent?_eq (first : Char) (text : List Char) :
    numberExtent? first text =
      (if first = '0' then radixExtent? text else none).or (decimalExtent? first text) := by
  unfold numberExtent?
  cases (if first = '0' then radixExtent? text else none) with
  | some length => rfl
  | none =>
    simp only [Option.none_or, decimalExtent?]
    congr 2
    split
    · rename_i isPoint
      simp [pointExtent, isPoint]
    · rename_i notPoint
      have none : (text.drop (digitsExtent text)).head? ≠ some '.' := by
        intro isPoint
        obtain ⟨left, isLeft⟩ := List.head?_eq_some_iff.mp isPoint
        exact notPoint left isLeft
      rw [pointExtent, if_neg none]

private theorem radixExtent?_le
    {text : List Char}
    {extent : Nat}
    (found : radixExtent? text = some extent) :
    extent ≤ text.length := by
  cases text with
  | nil => simp [radixExtent?] at found
  | cons mark text =>
    have digits := (List.takeWhile_prefix (l := text) isRadixDigit).length_le
    have big := bigExtent_le (text.drop (text.takeWhile isRadixDigit).length)
    rw [List.length_drop] at big
    simp only [radixExtent?] at found
    split at found
    · split at found
      · simp at found
      · simp only [Option.some.injEq] at found
        simp only [List.length_cons]
        omega
    · simp at found

theorem numberExtent?_le
    {first : Char}
    {text : List Char}
    {extent : Nat}
    (found : numberExtent? first text = some extent) :
    extent ≤ text.length := by
  rw [numberExtent?_eq, Option.or_eq_some_iff] at found
  rcases found with isRadix | ⟨-, found⟩
  · split at isRadix
    · exact radixExtent?_le isRadix
    · simp at isRadix
  · have whole := digitsExtent_le text
    unfold decimalExtent? at found
    split at found
    · simp only [Option.some.injEq] at found
      have point : digitsExtent text + pointExtent (text.drop (digitsExtent text)) ≤
          text.length := by
        cases isLeft : text.drop (digitsExtent text) with
        | nil => simpa [pointExtent] using whole
        | cons c left =>
          have size := congrArg List.length isLeft
          have bound := pointExtent_le (c :: left)
          simp only [List.length_drop, List.length_cons] at size
          omega
      have fraction := digitsExtent_le
        (text.drop (digitsExtent text + pointExtent (text.drop (digitsExtent text))))
      rw [List.length_drop] at fraction
      rw [← found]
      exact numberEnd_le (by omega)
    · split at found
      · simp only [Option.some.injEq] at found
        exact found ▸ numberEnd_le whole
      · simp at found

/-- A number is the same before two texts that stop it, if the second begins
with a point only where the first does. -/
theorem numberExtent?_replace
    {first : Char}
    {body rest other : List Char}
    (stopped : stops rest)
    (otherStopped : stops other)
    (noPoint : other.head? = some '.' → rest.head? = some '.')
    (found : numberExtent? first (body ++ rest) = some body.length) :
    numberExtent? first (body ++ other) = some body.length := by
  rw [numberExtent?_eq, radixExtent?_append stopped, Option.or_eq_some_iff] at found
  rw [numberExtent?_eq, radixExtent?_append otherStopped, Option.or_eq_some_iff]
  rcases found with isRadix | ⟨noRadix, found⟩
  · exact .inl isRadix
  · refine .inr ⟨noRadix, ?_⟩
    unfold decimalExtent? at found ⊢
    rw [digitsExtent_append stopped] at found
    rw [digitsExtent_append otherStopped]
    split at found
    · rename_i isFirst
      simp only [Option.some.injEq] at found
      rw [if_pos isFirst]
      obtain ⟨whole, isWhole⟩ : ∃ whole, digitsExtent body = whole := ⟨_, rfl⟩
      have within : whole ≤ body.length := isWhole ▸ digitsExtent_le body
      have samePoint : pointExtent ((body ++ other).drop whole) =
            pointExtent ((body ++ rest).drop whole) ∧
          whole + pointExtent ((body ++ rest).drop whole) ≤ body.length := by
        rw [List.drop_append_of_le_length within, List.drop_append_of_le_length within]
        cases isLeft : body.drop whole with
        | nil =>
          -- A point after the last digit would belong to the number.
          have size : whole = body.length := by
            have := congrArg List.length isLeft
            simp only [List.length_drop, List.length_nil] at this
            omega
          have restNoPoint : rest.head? ≠ some '.' := by
            intro isPoint
            rw [isWhole, size, List.drop_left, pointExtent, if_pos isPoint] at found
            have := le_numberEnd (body.length + 1 + digitsExtent ((body ++ rest).drop
              (body.length + 1))) (body ++ rest)
            omega
          have otherNoPoint : other.head? ≠ some '.' := fun isPoint =>
            restNoPoint (noPoint isPoint)
          simp [pointExtent, restNoPoint, otherNoPoint, size]
        | cons c left =>
          have size := congrArg List.length isLeft
          simp only [List.length_drop, List.length_cons] at size
          have bound := pointExtent_le (c :: left ++ rest)
          exact ⟨rfl, by omega⟩
      rw [isWhole] at found ⊢
      simp only at found ⊢
      rw [samePoint.1]
      generalize pointExtent ((body ++ rest).drop whole) = point at samePoint found
      obtain ⟨-, upTo⟩ := samePoint
      rw [List.drop_append_of_le_length upTo, digitsExtent_append stopped] at found
      rw [List.drop_append_of_le_length upTo, digitsExtent_append otherStopped]
      have fraction := digitsExtent_le (body.drop (whole + point))
      rw [List.length_drop] at fraction
      rw [numberEnd_replace (by omega) stopped otherStopped found]
    · rename_i notDigit
      rw [if_neg notDigit]
      split at found
      · rename_i isNumber
        simp only [Option.some.injEq] at found
        have isNumber' : (first = '.' && (body ++ other).head?.any isDigit) := by
          cases body with
          | nil =>
            have head := head?_of_stops (fun _ => isIdentifierPart_of_isDigit) stopped
            simp [head] at isNumber
          | cons c body => simpa using isNumber
        rw [if_pos isNumber',
          numberEnd_replace (digitsExtent_le body) stopped otherStopped found]
      · simp at found

/-- A keyword or an identifier is read before whatever stops it. -/
theorem word?_append
    {rest : List Char}
    (stopped : stops rest)
    (first : Char)
    (text : List Char) :
    word? first (text ++ rest) = word? first text := by
  have inWord : ∀ c, isWord c → isIdentifierPart c := fun c own => by simp [isIdentifierPart, own]
  simp only [word?, takeWhile_append_of_head (head?_of_stops inWord stopped),
    takeWhile_append_of_head (head?_of_stops (fun _ => id) stopped)]

end Restyle.Lexeme
