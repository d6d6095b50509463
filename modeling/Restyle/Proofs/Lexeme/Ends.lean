import Restyle.Proofs.Lexeme.Context

/-!
Contract: the last character of a lexeme.

Owns: `EndsInked`, by which a text ends with a character that is not blank, and
that every lexeme of code ends so, blanks and line comments apart.
-/

namespace Restyle.Lexeme

open Restyle.Text

/-- A text ends with a character that is not blank. -/
def EndsInked (text : List Char) : Prop :=
  ∃ front last, text = front ++ [last] ∧ isBlank last = false

theorem EndsInked.append
    {text : List Char}
    (ends : EndsInked text)
    (before : List Char) :
    EndsInked (before ++ text) := by
  obtain ⟨front, last, rfl, inked⟩ := ends
  exact ⟨before ++ front, last, by simp, inked⟩

theorem endsInked_of_all
    {text : List Char}
    (nonempty : text ≠ [])
    (inked : ∀ c ∈ text, isBlank c = false) :
    EndsInked text :=
  ⟨text.dropLast, text.getLast nonempty, (List.dropLast_concat_getLast nonempty).symm,
    inked _ (List.getLast_mem nonempty)⟩

theorem inked_of_isIdentifierPart {c : Char} (isPart : isIdentifierPart c) : isBlank c = false := by
  simpa using not_isBlank_of_isIdentifierPart isPart

/-- The characters of a text before an offset are not blank. -/
def InkedUpTo (extent : Nat) (text : List Char) : Prop :=
  ∀ c ∈ text.take extent, isBlank c = false

private theorem inkedUpTo_zero (text : List Char) : InkedUpTo 0 text := by
  simp [InkedUpTo]

private theorem inkedUpTo_cons
    {extent : Nat}
    {c : Char}
    {text : List Char}
    (inked : isBlank c = false)
    (later : InkedUpTo extent text) :
    InkedUpTo (1 + extent) (c :: text) := by
  intro d member
  rw [Nat.add_comm, List.take_succ_cons, List.mem_cons] at member
  rcases member with rfl | member
  · exact inked
  · exact later d member

theorem InkedUpTo.add
    {first second : Nat}
    {text : List Char}
    (inked : InkedUpTo first text)
    (later : InkedUpTo second (text.drop first)) :
    InkedUpTo (first + second) text := by
  intro c member
  rw [List.take_add, List.mem_append] at member
  rcases member with member | member
  · exact inked c member
  · exact later c member

private theorem inkedUpTo_takeWhile
    {isOwn : Char → Bool}
    (own : ∀ c, isOwn c → isIdentifierPart c)
    (text : List Char) :
    InkedUpTo (text.takeWhile isOwn).length text := by
  intro c member
  rw [← List.prefix_iff_eq_take.mp (List.takeWhile_prefix isOwn)] at member
  exact inked_of_isIdentifierPart (own c (List.all_eq_true.mp List.all_takeWhile c member))

theorem InkedUpTo.endsInked
    {extent : Nat}
    {first : Char}
    {text : List Char}
    (later : InkedUpTo extent text)
    (inked : isBlank first = false) :
    EndsInked (first :: text.take extent) := by
  refine endsInked_of_all (by simp) ?_
  intro c member
  rcases List.mem_cons.mp member with rfl | member
  · exact inked
  · exact later c member

/-! ## Comments and patterns -/

private theorem endsInked_of_blockComment
    {text : List Char}
    {extent : Nat}
    (found : blockCommentExtent? text = some extent) :
    EndsInked (text.take extent) := by
  induction text using blockCommentExtent?.induct generalizing extent with
  | case1 rest =>
    simp only [blockCommentExtent?, Option.some.injEq] at found
    subst found
    exact ⟨['*'], '/', by simp, by decide⟩
  | case2 c rest notClosing inductionHypothesis =>
    rw [blockCommentExtent?.eq_2 _ _ notClosing] at found
    obtain ⟨inner, isInner, rfl⟩ := Option.map_eq_some_iff.mp found
    exact (inductionHypothesis isInner).append [c]
  | case3 => simp [blockCommentExtent?] at found

private theorem endsInked_of_pattern
    (text : List Char)
    (inBrackets : Bool)
    {extent : Nat}
    (found : patternExtent? inBrackets text = some extent) :
    EndsInked (text.take extent) := by
  cases patternBegins_of_patternExtent? found with
  | @escape c rest brackets _ later => exact (endsInked_of_pattern rest brackets later).append ['\\', c]
  | @goesOn c rest brackets _ later => exact (endsInked_of_pattern rest brackets later).append [c]
  | @closes rest =>
    rw [Nat.add_comm, List.take_succ_cons]
    exact (inkedUpTo_takeWhile (fun _ => isIdentifierPart_of_isLower) rest).endsInked (by decide)
termination_by text.length

/-! ## Numbers -/

private theorem inkedUpTo_exponent (text : List Char) : InkedUpTo (exponentExtent text) text := by
  cases text with
  | nil => exact inkedUpTo_zero []
  | cons mark text =>
    rw [exponentExtent_cons]
    simp only
    split
    · rename_i isMark
      split
      · exact inkedUpTo_zero _
      · have inked : isBlank mark = false := by
          rcases (by simpa using isMark : mark = 'e' ∨ mark = 'E') with rfl | rfl <;> decide
        have sign : InkedUpTo (signExtent text) text := by
          rw [signExtent]
          split
          · rename_i isSign
            rcases isSign with isSign | isSign <;>
            · obtain ⟨rest, rfl⟩ := List.head?_eq_some_iff.mp isSign
              exact inkedUpTo_cons (by decide) (inkedUpTo_zero rest)
          · exact inkedUpTo_zero text
        rw [Nat.add_assoc]
        exact inkedUpTo_cons inked
          (sign.add (inkedUpTo_takeWhile (fun _ => isIdentifierPart_of_isDigit) _))
    · exact inkedUpTo_zero _

private theorem inkedUpTo_big (text : List Char) : InkedUpTo (bigExtent text) text := by
  unfold bigExtent
  split
  · exact inkedUpTo_cons (by decide) (inkedUpTo_zero _)
  · exact inkedUpTo_zero text

theorem InkedUpTo.numberEnd
    {length : Nat}
    {text : List Char}
    (inked : InkedUpTo length text) :
    InkedUpTo (Lexeme.numberEnd length text) text :=
  (inked.add (inkedUpTo_exponent _)).add (inkedUpTo_big _)

private theorem inkedUpTo_digits (text : List Char) : InkedUpTo (digitsExtent text) text :=
  inkedUpTo_takeWhile (fun _ => isIdentifierPart_of_isDigitOrUnderscore) text

private theorem inkedUpTo_point (text : List Char) : InkedUpTo (pointExtent text) text := by
  rw [pointExtent]
  split
  · rename_i isPoint
    obtain ⟨rest, rfl⟩ := List.head?_eq_some_iff.mp isPoint
    exact inkedUpTo_cons (by decide) (inkedUpTo_zero rest)
  · exact inkedUpTo_zero text

private theorem inkedUpTo_of_radix
    {text : List Char}
    {extent : Nat}
    (found : radixExtent? text = some extent) :
    InkedUpTo extent text := by
  cases text with
  | nil => simp [radixExtent?] at found
  | cons mark text =>
    simp only [radixExtent?] at found
    split at found
    · rename_i isMark
      split at found
      · simp at found
      · have inked : ∀ c ∈ "xXoObB".toList, isBlank c = false :=
          List.all_iff_forall_prop.mp (by decide)
        simp only [Option.some.injEq] at found
        rw [← found, Nat.add_assoc]
        exact inkedUpTo_cons (inked mark (by simpa using isMark))
          ((inkedUpTo_takeWhile (fun _ => isIdentifierPart_of_isRadixDigit) text).add
            (inkedUpTo_big _))
    · simp at found

private theorem inkedUpTo_of_number
    {first : Char}
    {text : List Char}
    {extent : Nat}
    (found : numberExtent? first text = some extent) :
    InkedUpTo extent text := by
  rw [numberExtent?_eq, Option.or_eq_some_iff] at found
  rcases found with isRadix | ⟨-, found⟩
  · split at isRadix
    · exact inkedUpTo_of_radix isRadix
    · simp at isRadix
  · unfold decimalExtent? at found
    split at found
    · obtain rfl := Option.some.inj found
      refine InkedUpTo.numberEnd ?_
      exact ((inkedUpTo_digits text).add (inkedUpTo_point _)).add (inkedUpTo_digits _)
    · split at found
      · obtain rfl := Option.some.inj found
        exact (inkedUpTo_digits text).numberEnd
      · simp at found

/-! ## Every lexeme -/

private theorem endsInked_of_word
    {first : Char}
    {rest : List Char}
    {kind : Kind}
    {tail : Nat}
    (inked : isBlank first = false)
    (found : word? first rest = some (kind, tail)) :
    EndsInked (first :: rest.take tail) := by
  refine InkedUpTo.endsInked ?_ inked
  simp only [word?] at found
  split at found
  · obtain ⟨-, rfl⟩ := Prod.mk.inj (Option.some.inj found)
    exact inkedUpTo_takeWhile (fun _ isWord => by simp [isIdentifierPart, isWord]) rest
  · split at found
    · obtain ⟨-, rfl⟩ := Prod.mk.inj (Option.some.inj found)
      exact inkedUpTo_takeWhile (fun _ isPart => isPart) rest
    · simp at found

private theorem endsInked_of_symbol
    {first : Char}
    {rest : List Char}
    {symbol : Symbol}
    (found : symbols.find? (·.heads (first :: rest)) = some symbol) :
    EndsInked (first :: rest.take (symbol.text.length - 1)) := by
  have inked : ∀ symbol ∈ symbols, symbol.text.toList.all (!isBlank ·) := by decide
  have heads := List.find?_some found
  have listed := List.mem_of_find?_eq_some found
  simp only [Symbol.heads, Bool.and_eq_true, List.isPrefixOf_iff_prefix] at heads
  have isText : symbol.text.toList = first :: rest.take (symbol.text.length - 1) := by
    have positive : ∀ symbol ∈ symbols, 0 < symbol.text.length := by decide
    rw [← List.take_succ_cons, Nat.sub_add_cancel (positive symbol listed),
      ← String.length_toList]
    exact List.prefix_iff_eq_take.mp heads.1
  rw [← isText]
  exact endsInked_of_all (by simp [isText]) (by simpa using inked symbol listed)

/-- A lexeme of code that is neither blank nor a line comment ends with a
character that is not blank. -/
theorem CodeStep.endsInked
    {nest : Nest}
    {slash : Slash}
    {first : Char}
    {rest : List Char}
    {taken : Step}
    (isStep : CodeStep nest slash first rest taken)
    (notBlank : taken.kind ≠ .blank)
    (notComment : taken.kind ≠ .lineComment) :
    EndsInked (first :: rest.take taken.tail) := by
  cases isStep with
  | blank => exact absurd rfl notBlank
  | comment inked found =>
    simp only [comment?] at found
    split at found
    · split at found
      · simp only [Option.some.injEq, Prod.mk.injEq] at found
        exact absurd found.1.symm notComment
      · obtain ⟨extent, isExtent, isPair⟩ := Option.map_eq_some_iff.mp found
        obtain ⟨-, rfl⟩ := Prod.mk.inj isPair
        rw [Nat.add_comm, List.take_succ_cons]
        exact (endsInked_of_blockComment isExtent).append [first, '*']
      · simp at found
    · simp at found
  | pattern inked found =>
    simp only [pattern?] at found
    split at found
    · exact (endsInked_of_pattern rest false found).append [first]
    · simp at found
  | templateOpen marks => exact ⟨[], first, rfl, by rw [marks]; decide⟩
  | quoted inked found =>
    obtain ⟨-, isQuote, isExtent⟩ := kind_of_quoted? found
    obtain ⟨body, isBody, -⟩ := take_of_quotedExtent? isExtent
    rw [isBody]
    refine ⟨first :: body, first, rfl, ?_⟩
    rcases isQuote with rfl | rfl <;> decide
  | number inked found => exact (inkedUpTo_of_number found).endsInked (by simpa using inked)
  | word inked found => exact endsInked_of_word (by simpa using inked) found
  | symbol inked found => exact endsInked_of_symbol found
  | brace inked found =>
    rw [tail_of_brace? found, List.take_zero]
    exact ⟨[], first, rfl, by simpa using inked⟩
  | stray inked => exact ⟨[], first, rfl, by simpa using inked⟩

end Restyle.Lexeme
