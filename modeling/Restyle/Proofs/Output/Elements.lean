import Mathlib.Data.List.Forall2
import Restyle.Proofs.Output.Woven
import Restyle.Proofs.Template.Reread
import Restyle.Proofs.Token.Trim

/-!
Contract: generated code is read as what it was made from.

Owns: `Reads`, by which a text is read with certain faces wherever it is put;
`Element`, the same for a text that stands before a separator; that names,
quoted texts, template literals and metadata are read so; and that a list of
elements between brackets is read element by element.
-/

namespace Restyle.Output

open Token Lexeme Restyle.Bracket

/-- A text is read with certain faces wherever it is put. -/
structure Reads (text : List Char) (faces : List Face) : Prop where
  inked : text.head?.any Text.isBlank = false
  closed : ∀ commas stack, awaited commas stack faces = some stack
  runs : ∀ nest slash rest, CodeRun nest slash (text ++ rest) faces nest .divides rest

/-- A text is read with certain faces as an element of a list. -/
structure Element (text : List Char) (faces : List Face) : Prop where
  inked : text.head?.any Text.isBlank = false
  closes : awaited true [] faces = some []
  runs : ∀ nest c rest, c ∈ separators → ∃ last,
    CodeRun nest .opensPattern (text ++ c :: rest) faces nest last (c :: rest)

theorem Reads.element
    {text : List Char}
    {faces : List Face}
    (reads : Reads text faces) :
    Element text faces where
  inked := reads.inked
  closes := reads.closed true []
  runs nest c rest _ := ⟨.divides, reads.runs nest .opensPattern (c :: rest)⟩

/-! ## Marks and blanks -/

def markFace (c : Char) : Face :=
  ⟨some .punctuator, String.ofList [c]⟩

theorem run_of_step
    {nest inner : Nest}
    {slash next : Slash}
    {first : Char}
    (body : List Char)
    {rest : List Char}
    {kind : Lexeme.Kind}
    (isStep : codeStep nest slash first (body ++ rest) = ⟨kind, body.length, .code inner next⟩)
    (isAtom : kind.isAtom) :
    CodeRun nest slash (first :: (body ++ rest))
      [⟨some (kindOf kind), String.ofList (first :: body)⟩] inner next rest :=
  .atom isStep isAtom .here

section Marks

variable
  (nest : Nest)
  (slash : Slash)
  (rest : List Char)

theorem run_mark {c : Char} (isMark : c ∈ ['(', '[', ',']) :
    CodeRun nest slash (c :: rest) [markFace c] nest .opensPattern rest :=
  run_of_step [] (codeStep_of_opening isMark) rfl

theorem run_closer {c : Char} (isCloser : c ∈ [')', ']']) :
    CodeRun nest slash (c :: rest) [markFace c] nest .divides rest := by
  have isStep : codeStep nest slash c rest = ⟨.punctuator, 0, .code nest .divides⟩ := by
    simp only [List.mem_cons, List.not_mem_nil, or_false] at isCloser
    rcases isCloser with rfl | rfl
    · exact codeStep_of_closeParen
    · exact codeStep_of_mark (by decide)
        (rfl : symbols.find? (·.heads (']' :: rest)) = some ⟨"]", .punctuator, .divides⟩)
  exact run_of_step [] isStep rfl

theorem run_colon :
    CodeRun nest slash (':' :: rest) [⟨some .operator, ":"⟩] nest .opensPattern rest :=
  run_of_step [] (codeStep_of_mark (by decide)
    (rfl : symbols.find? (·.heads (':' :: rest)) = some ⟨":", .operator, .opensPattern⟩)) rfl

theorem run_openBrace :
    CodeRun nest slash ('\x7b' :: rest) [markFace '\x7b'] (nest.raise 1) .opensPattern rest := by
  have isStep : codeStep nest slash '\x7b' rest =
      ⟨.punctuator, 0, .code (nest.raise 1) .opensPattern⟩ := by
    cases nest <;> exact codeStep_of_brace rfl
  exact run_of_step [] isStep rfl

theorem run_closeBrace :
    CodeRun (nest.raise 1) slash ('\x7d' :: rest) [markFace '\x7d'] nest .divides rest := by
  have isStep : codeStep (nest.raise 1) slash '\x7d' rest =
      ⟨.punctuator, 0, .code nest .divides⟩ := by
    cases nest <;> exact codeStep_of_brace rfl
  exact run_of_step [] isStep rfl

end Marks

/-- A text that begins with ink is read in the same way with a blank before it. -/
theorem run_blank
    {nest last : Nest}
    {slash final : Slash}
    {text left : List Char}
    {faces : List Face}
    (run : CodeRun nest slash text faces last final left)
    (inked : text.head?.any Text.isBlank = false) :
    CodeRun nest slash (' ' :: text) faces last final left := by
  have areBlank : ∀ c ∈ [' '], Text.isBlank c := List.forall_mem_singleton.mpr (by decide)
  exact run.addBlanks inked areBlank

private theorem Element.inked_before
    {text : List Char}
    {faces : List Face}
    (element : Element text faces)
    {c : Char}
    (isSeparator : c ∈ separators)
    (rest : List Char) :
    (text ++ c :: rest).head?.any Text.isBlank = false := by
  have inked : ∀ c ∈ separators, Text.isBlank c = false := List.all_iff_forall_prop.mp (by decide)
  cases text with
  | nil => exact inked c isSeparator
  | cons d text => exact element.inked

/-! ## Names -/

def isName (name : String) : Bool :=
  match name.toList with
  | [] => false
  | first :: body => word? first body = some (.identifier, body.length)

theorem run_name
    {name : String}
    (named : isName name)
    (nest : Nest)
    (slash : Slash)
    {rest : List Char}
    (stopped : stops rest) :
    CodeRun nest slash (name.toList ++ rest) [⟨some .identifier, name⟩] nest .divides rest := by
  obtain ⟨first, body, isText, isWord⟩ : ∃ first body, name.toList = first :: body ∧
      word? first body = some (.identifier, body.length) := by
    unfold isName at named
    split at named
    · simp at named
    · exact ⟨_, _, ‹_›, by simpa using named⟩
  have isStep : codeStep nest slash first (body ++ rest) =
      ⟨.identifier, body.length, .code nest .divides⟩ :=
    codeStep_of_word ((word?_append stopped first body).trans isWord)
  have isFace : name = String.ofList (first :: body) := by rw [← isText, String.ofList_toList]
  rw [isText, List.cons_append]
  have run := run_of_step body isStep rfl
  rwa [← isFace] at run

theorem letters_of_isName {name : String} (named : isName name) :
    ∃ first body, name.toList = first :: body ∧ Text.isIdentifierStart first ∧
      ∀ c ∈ body, Text.isIdentifierPart c := by
  unfold isName at named
  split at named
  · simp at named
  · rename_i first body isText
    simp only [decide_eq_true_eq] at named
    rcases kind_of_word? named with isKeyword | ⟨-, starts, size⟩
    · simp at isKeyword
    · have isWhole := (List.takeWhile_prefix Text.isIdentifierPart (l := body)).eq_of_length
        size.symm
      refine ⟨first, body, isText, starts, fun c member => ?_⟩
      rw [← isWhole] at member
      exact List.all_eq_true.mp List.all_takeWhile c member

theorem endsInked_of_isName {name : String} (named : isName name) : EndsInked name.toList := by
  obtain ⟨first, body, isText, starts, parts⟩ := letters_of_isName named
  rw [isText]
  refine endsInked_of_all (by simp) fun c member => ?_
  rcases List.mem_cons.mp member with rfl | member
  · exact inked_of_isIdentifierPart (isIdentifierPart_of_isIdentifierStart starts)
  · exact inked_of_isIdentifierPart (parts c member)

/-! ## Quoted texts -/

/-- A character that is no backslash is passed over if it ends nothing. -/
theorem endsQuoted_bare
    {quote c : Char}
    {more : List Char}
    (notSlash : c ≠ '\\')
    (nonempty : more ≠ []) :
    endsQuoted quote (c :: more) =
      (!decide (c = quote) && !decide (c = '\n') && endsQuoted quote more) := by
  cases more with
  | nil => exact absurd rfl nonempty
  | cons d rest =>
    by_cases isQuote : c = quote <;> by_cases isFeed : c = '\n' <;>
      simp [endsQuoted, isQuote, isFeed, notSlash]

theorem endsQuoted_plain
    {quote : Char}
    {chars more : List Char}
    (plain : ∀ c ∈ chars, c ≠ quote ∧ c ≠ '\n' ∧ c ≠ '\\')
    (nonempty : more ≠ []) :
    endsQuoted quote (chars ++ more) = endsQuoted quote more := by
  induction chars with
  | nil => rfl
  | cons c chars inductionHypothesis =>
    obtain ⟨isPlain, areOthers⟩ := List.forall_mem_cons.mp plain
    rw [List.cons_append, endsQuoted_bare isPlain.2.2 (by simp [nonempty]),
      inductionHypothesis areOthers]
    simp [isPlain]

/-- A backslash takes the next character with it. -/
theorem endsQuoted_escape {quote : Char} (notSlash : quote ≠ '\\') (c : Char) (more : List Char) :
    endsQuoted quote ('\\' :: c :: more) = endsQuoted quote more := by
  simp [endsQuoted, Ne.symm notSlash]

theorem digit_of_mem_toDigits
    {base : Nat}
    (large : 1 < base)
    (small : base ≤ 16)
    (value : Nat) :
    ∀ c ∈ Nat.toDigits base value, c ∈ "0123456789abcdef".toList := by
  induction value using Nat.strongRecOn with
  | ind value inductionHypothesis =>
    have digits : ∀ digit < 16, Nat.digitChar digit ∈ "0123456789abcdef".toList := by decide
    intro c member
    by_cases isDigit : value < base
    · rw [Nat.toDigits_of_lt_base isDigit, List.mem_singleton] at member
      exact member ▸ digits value (by omega)
    · rw [Nat.toDigits_of_base_le large (by omega), List.mem_append, List.mem_singleton] at member
      rcases member with member | rfl
      · exact inductionHypothesis (value / base) (Nat.div_lt_self (by omega) large) c member
      · exact digits (value % base) (Nat.lt_of_lt_of_le (Nat.mod_lt _ (by omega)) small)

private theorem endsQuoted_unitEscape
    {more : List Char}
    (nonempty : more ≠ [])
    (unit : Nat) :
    endsQuoted '"' ((Text.unitEscape unit).toList ++ more) = endsQuoted '"' more := by
  have isText : (Text.unitEscape unit).toList =
      '\\' :: 'u' :: (List.replicate (4 - (Nat.toDigits 16 unit).length) '0' ++
        Nat.toDigits 16 unit) := by
    simp [Text.unitEscape, Text.hex]
  have marks : ∀ c ∈ "0123456789abcdef".toList, c ≠ '"' ∧ c ≠ '\n' ∧ c ≠ '\\' :=
    List.all_iff_forall_prop.mp (by decide)
  rw [isText, List.cons_append, List.cons_append, endsQuoted_escape (by decide)]
  refine endsQuoted_plain (fun c member => marks c ?_) nonempty
  rcases List.mem_append.mp member with member | member
  · rw [List.eq_of_mem_replicate member]
    decide
  · exact digit_of_mem_toDigits (by decide) (by decide) unit c member

private theorem endsQuoted_quotedChar
    {more : List Char}
    (nonempty : more ≠ [])
    (c : Char) :
    endsQuoted '"' ((Text.quotedChar c).toList ++ more) = endsQuoted '"' more := by
  unfold Text.quotedChar
  split
  · exact endsQuoted_escape (by decide) _ _
  split
  · exact endsQuoted_escape (by decide) _ _
  split
  · exact endsQuoted_escape (by decide) _ _
  split
  · exact endsQuoted_escape (by decide) _ _
  split
  · exact endsQuoted_escape (by decide) _ _
  split
  · exact endsQuoted_escape (by decide) _ _
  split
  · exact endsQuoted_escape (by decide) _ _
  split
  · refine endsQuoted_plain ?_ nonempty
    intro d member
    obtain rfl : d = c := by simpa using member
    exact ⟨‹_›, ‹_›, ‹_›⟩
  split
  · exact endsQuoted_unitEscape nonempty _
  · rw [String.toList_append, List.append_assoc, endsQuoted_unitEscape (by simp [nonempty]),
      endsQuoted_unitEscape nonempty]

private theorem endsQuoted_quoted (text : String) :
    endsQuoted '"' ((String.join (text.toList.map Text.quotedChar)).toList ++ ['"']) := by
  rw [String.toList_join]
  induction text.toList with
  | nil => rfl
  | cons c chars inductionHypothesis =>
    rw [List.map_cons, List.flatMap_cons, List.append_assoc, endsQuoted_quotedChar (by simp)]
    exact inductionHypothesis

theorem awaited_of_plain
    {faces : List Face}
    (plain : ∀ face ∈ faces, face.kind ≠ some .punctuator)
    (commas : Bool)
    (stack : List String) :
    awaited commas stack faces = some stack := by
  induction faces with
  | nil => rfl
  | cons face faces inductionHypothesis =>
    refine awaited_cons_eq_some_iff.mpr ⟨stack, ?_, ?_⟩
    · exact (awaits_iff_of_plain (plain face List.mem_cons_self)).mpr rfl
    · exact inductionHypothesis fun face member => plain face (List.mem_cons_of_mem _ member)

private theorem toList_quoted (text : String) :
    (Text.quoted text).toList =
      '"' :: ((String.join (text.toList.map Text.quotedChar)).toList ++ ['"']) := by
  simp [Text.quoted]

/-- A quoted text is read as one string whatever follows it. -/
theorem run_endsQuoted
    {quote : Char}
    {chars : List Char}
    (isQuote : quote = '"' ∨ quote = '\'')
    (ends : endsQuoted quote chars)
    (nest : Nest)
    (slash : Slash)
    (rest : List Char) :
    CodeRun nest slash (quote :: (chars ++ rest)) [⟨some .string, String.ofList (quote :: chars)⟩]
      nest .divides rest := by
  have isExtent := (quotedExtent?_append_iff rest).mpr ends
  rcases isQuote with rfl | rfl
  · have isQuoted : quoted? '"' (chars ++ rest) = some (.doubleQuoted, chars.length) := by
      rw [quoted?, if_pos rfl, isExtent]
      rfl
    exact run_of_step _ (@codeStep_of_quoted nest slash _ _ _ _ isQuoted) rfl
  · have isQuoted : quoted? '\'' (chars ++ rest) = some (.singleQuoted, chars.length) := by
      rw [quoted?, if_neg (by decide), if_pos rfl, isExtent]
      rfl
    exact run_of_step _ (@codeStep_of_quoted nest slash _ _ _ _ isQuoted) rfl

theorem reads_quoted (text : String) :
    Reads (Text.quoted text).toList [⟨some .string, Text.quoted text⟩] := by
  have isText := toList_quoted text
  have inked : Text.isBlank '"' = false := by decide
  refine ⟨by rw [isText]; exact inked, awaited_of_plain (by simp), fun nest slash rest => ?_⟩
  have run := run_endsQuoted (.inl rfl) (endsQuoted_quoted text) nest slash rest
  rw [← isText, String.ofList_toList] at run
  rw [isText, List.cons_append]
  exact run

/-! ## Template literals -/

private theorem textRun_of_inert
    (nest : Nest)
    {text : List Char}
    (inert : Template.isInert text)
    (rest : List Char) :
    TextRun nest (text ++ '`' :: rest) rest := by
  induction size : text.length using Nat.strongRecOn generalizing text with
  | ind length inductionHypothesis =>
    cases text with
    | nil => exact .close
    | cons first text =>
      obtain ⟨tail, isStep, fits, later⟩ := Template.templateStep_of_inert nest rest inert
      have isText : text ++ '`' :: rest = text.take tail ++ (text.drop tail ++ '`' :: rest) := by
        rw [← List.append_assoc, List.take_append_drop]
      have isLength : (text.take tail).length = tail := List.length_take_of_le fits
      rw [isText] at isStep
      rw [List.cons_append, isText]
      refine .text (isLength.symm ▸ isStep) (inductionHypothesis _ ?_ later rfl)
      simp only [List.length_drop, List.length_cons] at size ⊢
      omega

theorem reads_literal
    {text : String}
    (inert : Template.isInert text.toList) :
    Reads ("`" ++ text ++ "`").toList [⟨none, "`" ++ text ++ "`"⟩] := by
  have isText : ("`" ++ text ++ "`").toList = '`' :: (text.toList ++ ['`']) := by simp
  have inked : Text.isBlank '`' = false := by decide
  refine ⟨by rw [isText]; exact inked, awaited_of_plain (by simp), fun nest slash rest => ?_⟩
  have isFace : "`" ++ text ++ "`" = String.ofList ('`' :: (text.toList ++ ['`'])) := by
    rw [← isText, String.ofList_toList]
  rw [isText, List.cons_append, isFace]
  refine .template ?_ .here
  rw [List.append_assoc]
  exact textRun_of_inert nest inert rest

/-! ## Lists of elements -/

def separated (lists : List (List Face)) : List Face :=
  [markFace ','].intercalate lists

theorem awaited_separated
    {lists : List (List Face)}
    (elements : ∀ faces ∈ lists, awaited true [] faces = some []) :
    awaited true [] (separated lists) = some [] := by
  induction lists with
  | nil => rfl
  | cons faces lists inductionHypothesis =>
    have first := elements faces List.mem_cons_self
    have later := inductionHypothesis fun faces member =>
      elements faces (List.mem_cons_of_mem _ member)
    cases lists with
    | nil => simpa [separated] using first
    | cons next lists =>
      have comma : awaited true [] [markFace ','] = some [] := by decide
      rw [separated, List.intercalate_cons_cons, awaited_append, awaited_append, first,
        Option.bind_some, comma, Option.bind_some]
      exact later

/-- The elements of a list are read one after the other. -/
theorem run_separated
    {texts : List (List Char)}
    {lists : List (List Face)}
    (elements : List.Forall₂ Element texts lists)
    (nest : Nest)
    {c : Char}
    (isSeparator : c ∈ separators)
    (rest : List Char) :
    (([',', ' '].intercalate texts) ++ c :: rest).head?.any Text.isBlank = false ∧
      ∃ last, CodeRun nest .opensPattern ([',', ' '].intercalate texts ++ c :: rest)
        (separated lists) nest last (c :: rest) := by
  induction elements with
  | nil =>
    have inked : ∀ c ∈ separators, Text.isBlank c = false := List.all_iff_forall_prop.mp (by decide)
    exact ⟨inked c isSeparator, _, .here⟩
  | @cons text faces texts lists element others inductionHypothesis =>
    cases others with
    | nil =>
      rw [List.intercalate_singleton, separated, List.intercalate_singleton]
      exact ⟨element.inked_before isSeparator rest, element.runs nest c rest isSeparator⟩
    | @cons next nextFaces texts lists =>
      obtain ⟨inked, last, later⟩ := inductionHypothesis
      have isComma : ',' ∈ separators := by decide
      have isText : [',', ' '].intercalate (text :: next :: texts) ++ c :: rest =
          text ++ ',' :: ' ' :: ([',', ' '].intercalate (next :: texts) ++ c :: rest) := by
        rw [List.intercalate_cons_cons]
        simp
      rw [isText]
      refine ⟨element.inked_before isComma _, last, ?_⟩
      obtain ⟨between, run⟩ := element.runs nest ',' _ isComma
      rw [separated, List.intercalate_cons_cons]
      refine (run.trans (run_mark nest between _ (by decide))).trans ?_
      exact run_blank later inked

theorem exists_elements
    {α : Type}
    {items : List α}
    {relation : α → List Face → Prop}
    (elements : ∀ item ∈ items, ∃ faces, relation item faces) :
    ∃ lists, List.Forall₂ relation items lists := by
  induction items with
  | nil => exact ⟨[], .nil⟩
  | cons item items inductionHypothesis =>
    obtain ⟨faces, own⟩ := elements item List.mem_cons_self
    obtain ⟨lists, others⟩ := inductionHypothesis fun item member =>
      elements item (List.mem_cons_of_mem _ member)
    exact ⟨faces :: lists, .cons own others⟩

theorem exists_item_of_mem
    {α : Type}
    {items : List α}
    {relation : α → List Face → Prop}
    {lists : List (List Face)}
    (elements : List.Forall₂ relation items lists) :
    ∀ faces ∈ lists, ∃ item, relation item faces := by
  induction elements with
  | nil => simp
  | @cons item own _ _ related _ inductionHypothesis =>
    intro faces member
    rcases List.mem_cons.mp member with rfl | member
    · exact ⟨item, related⟩
    · exact inductionHypothesis faces member

theorem closes_of_elements
    {texts : List (List Char)}
    {lists : List (List Face)}
    (elements : List.Forall₂ Element texts lists) :
    ∀ faces ∈ lists, awaited true [] faces = some [] := by
  intro faces member
  obtain ⟨text, element⟩ := exists_item_of_mem elements faces member
  exact element.closes

def brackets : List (Char × Char) :=
  [('(', ')'), ('[', ']'), ('\x7b', '\x7d')]

/-- Between brackets that belong together a closed list stays closed. -/
theorem awaited_bracketed
    {opener closer : Char}
    (isPair : (opener, closer) ∈ brackets)
    {inner : List Face}
    (isClosed : awaited true [] inner = some [])
    (commas : Bool)
    (stack : List String) :
    awaited commas stack (markFace opener :: (inner ++ [markFace closer])) = some stack := by
  have pairs : ∀ pair ∈ brackets, closerOf? (markFace pair.1) = some (String.ofList [pair.2]) ∧
      closerOf? (markFace pair.2) = none ∧ faceIs [")", "]", "\x7d"] (markFace pair.2) := by
    decide
  obtain ⟨opens, notOpener, closes⟩ := pairs _ isPair
  refine awaited_cons_eq_some_iff.mpr ⟨_, .opens opens, ?_⟩
  rw [awaited_append, awaited_of_balanced isClosed, Option.bind_some]
  exact awaited_cons_eq_some_iff.mpr ⟨stack, .closes notOpener closes rfl, rfl⟩

/-- A list of elements between square brackets. -/
theorem reads_array
    {texts : List (List Char)}
    {lists : List (List Face)}
    (elements : List.Forall₂ Element texts lists) :
    Reads ('[' :: ([',', ' '].intercalate texts ++ [']']))
      (markFace '[' :: (separated lists ++ [markFace ']'])) := by
  have inked : Text.isBlank '[' = false := by decide
  refine ⟨inked, ?_, ?_⟩
  · exact awaited_bracketed (by decide) (awaited_separated (closes_of_elements elements))
  · intro nest slash rest
    obtain ⟨-, last, run⟩ := run_separated elements nest (by decide : ']' ∈ separators) rest
    rw [List.cons_append, List.append_assoc]
    exact ((run_mark nest slash _ (by decide)).trans run).trans
      (run_closer nest last rest (by decide))

/-- A name applied to a list of elements. -/
theorem reads_call
    {name : String}
    (named : isName name)
    {texts : List (List Char)}
    {lists : List (List Face)}
    (elements : List.Forall₂ Element texts lists) :
    Reads (name.toList ++ '(' :: ([',', ' '].intercalate texts ++ [')']))
      (⟨some .identifier, name⟩ :: markFace '(' :: (separated lists ++ [markFace ')'])) := by
  obtain ⟨first, more, isText, starts, -⟩ := letters_of_isName named
  refine ⟨?_, ?_, ?_⟩
  · rw [isText]
    exact inked_of_isIdentifierPart (isIdentifierPart_of_isIdentifierStart starts)
  · intro inner stack
    refine awaited_cons_eq_some_iff.mpr ⟨stack, (awaits_iff_of_plain (by simp)).mpr rfl, ?_⟩
    exact awaited_bracketed (by decide) (awaited_separated (closes_of_elements elements)) inner stack
  · intro nest slash rest
    obtain ⟨-, last, run⟩ := run_separated elements nest (by decide : ')' ∈ separators) rest
    have opening := run_name named nest slash
      (stops_cons.mpr (by decide) : stops ('(' :: ([',', ' '].intercalate texts ++ ')' :: rest)))
    have isWhole : name.toList ++ '(' :: ([',', ' '].intercalate texts ++ [')']) ++ rest =
        name.toList ++ '(' :: ([',', ' '].intercalate texts ++ ')' :: rest) := by
      simp
    rw [isWhole]
    exact opening.trans (((run_mark nest .divides _ (by decide)).trans run).trans
      (run_closer nest last rest (by decide)))

/-! ## Metadata -/

def entryCode (entry : String × String) : String :=
  entry.1 ++ ": " ++ Text.quoted entry.2

def entryFaces (entry : String × String) : List Face :=
  [⟨some .identifier, entry.1⟩, ⟨some .operator, ":"⟩, ⟨some .string, Text.quoted entry.2⟩]

private theorem run_entry
    {entry : String × String}
    (named : isName entry.1)
    (nest : Nest)
    (slash : Slash)
    (rest : List Char) :
    CodeRun nest slash ((entryCode entry).toList ++ rest) (entryFaces entry) nest .divides rest := by
  have isText : (entryCode entry).toList ++ rest =
      entry.1.toList ++ ':' :: ' ' :: ((Text.quoted entry.2).toList ++ rest) := by
    simp [entryCode]
  have inked : Text.isBlank '"' = false := by decide
  rw [isText]
  refine (run_name named nest slash (stops_cons.mpr (by decide))).trans
    ((run_colon nest .divides _).trans
      (run_blank ((reads_quoted entry.2).runs nest .opensPattern rest) ?_))
  rw [toList_quoted]
  exact inked

private theorem run_entries
    {entries : List (String × String)}
    (nonempty : entries ≠ [])
    (named : ∀ entry ∈ entries, isName entry.1)
    (nest : Nest)
    (slash : Slash)
    (rest : List Char) :
    ([',', ' '].intercalate (entries.map (entryCode · |>.toList)) ++ rest).head?.any
        Text.isBlank = false ∧
      CodeRun nest slash ([',', ' '].intercalate (entries.map (entryCode · |>.toList)) ++ rest)
        (separated (entries.map entryFaces)) nest .divides rest := by
  induction entries generalizing slash with
  | nil => exact absurd rfl nonempty
  | cons entry entries inductionHypothesis =>
    have own := named entry List.mem_cons_self
    have inked : ∀ more, ((entryCode entry).toList ++ more).head?.any Text.isBlank = false := by
      intro more
      obtain ⟨first, body, isText, starts, -⟩ := letters_of_isName own
      simp only [entryCode, String.toList_append, isText]
      exact inked_of_isIdentifierPart (isIdentifierPart_of_isIdentifierStart starts)
    cases entries with
    | nil =>
      rw [List.map_singleton, List.intercalate_singleton, separated, List.map_singleton,
        List.intercalate_singleton]
      exact ⟨inked rest, run_entry own nest slash rest⟩
    | cons next entries =>
      obtain ⟨laterInked, later⟩ := inductionHypothesis (by simp)
        (fun entry member => named entry (List.mem_cons_of_mem _ member)) .opensPattern
      have isText : [',', ' '].intercalate
            ((entry :: next :: entries).map (entryCode · |>.toList)) ++ rest =
          (entryCode entry).toList ++ ',' :: ' ' ::
            ([',', ' '].intercalate ((next :: entries).map (entryCode · |>.toList)) ++ rest) := by
        rw [List.map_cons, List.map_cons, List.intercalate_cons_cons]
        simp
      rw [isText]
      refine ⟨inked _, ?_⟩
      have isFaces : separated ((entry :: next :: entries).map entryFaces) =
          entryFaces entry ++ [markFace ','] ++ separated ((next :: entries).map entryFaces) :=
        List.intercalate_cons_cons
      rw [isFaces]
      exact ((run_entry own nest slash _).trans (run_mark nest .divides _ (by decide))).trans
        (run_blank later laterInked)

def entriesOf (frame : Frame) (use : Use) : List (String × String) :=
  (match use.label with
    | some name => if frame.settings.emitLabels && name ≠ "" then [("label", name)] else []
    | none => []) ++
    if frame.settings.emitLocations then
      [("source", frame.filename ++ ":" ++ use.location.render)]
    else []

private theorem isName_of_entriesOf (frame : Frame) (use : Use) :
    ∀ entry ∈ entriesOf frame use, isName entry.1 := by
  have keys : isName "label" ∧ isName "source" := by decide
  intro entry member
  simp only [entriesOf, List.mem_append] at member
  rcases member with member | member
  · split at member
    · split at member
      · rw [List.mem_singleton.mp member]
        exact keys.1
      · simp at member
    · simp at member
  · split at member
    · rw [List.mem_singleton.mp member]
      exact keys.2
    · simp at member

private theorem metadata?_eq (frame : Frame) (use : Use) :
    metadata? frame use =
      if entriesOf frame use = [] then none
      else some ("\x7b " ++ ", ".intercalate ((entriesOf frame use).map entryCode) ++ " \x7d") := by
  unfold metadata? entriesOf
  cases use.label with
  | none =>
    by_cases located : frame.settings.emitLocations
    · simp only [if_pos located]
      rfl
    · simp only [if_neg located]
      rfl
  | some name =>
    by_cases labelled : frame.settings.emitLabels && name ≠ ""
    · by_cases located : frame.settings.emitLocations
      · simp only [if_pos labelled, if_pos located]
        rfl
      · simp only [if_pos labelled, if_neg located]
        rfl
    · by_cases located : frame.settings.emitLocations
      · simp only [if_neg labelled, if_pos located]
        rfl
      · simp only [if_neg labelled, if_neg located]
        rfl

/-- The metadata of a call is read wherever it is put. -/
theorem reads_metadata
    {frame : Frame}
    {use : Use}
    {text : String}
    (isMetadata : metadata? frame use = some text) :
    ∃ faces, Reads text.toList faces := by
  rw [metadata?_eq] at isMetadata
  split at isMetadata
  · simp at isMetadata
  rename_i nonempty
  obtain rfl := Option.some.inj isMetadata
  have isText : ("\x7b " ++ ", ".intercalate ((entriesOf frame use).map entryCode) ++
      " \x7d").toList = '\x7b' :: ' ' :: ([',', ' '].intercalate
        ((entriesOf frame use).map (entryCode · |>.toList)) ++ [' ', '\x7d']) := by
    simp [String.toList_intercalate, Function.comp_def]
  refine ⟨markFace '\x7b' :: (separated ((entriesOf frame use).map entryFaces) ++
    [markFace '\x7d']), ?_, ?_, ?_⟩
  · have inked : Text.isBlank '\x7b' = false := by decide
    rw [isText]
    exact inked
  · have closed : ∀ faces ∈ (entriesOf frame use).map entryFaces,
        awaited true [] faces = some [] := by
      intro faces member
      obtain ⟨entry, -, rfl⟩ := List.mem_map.mp member
      exact awaited_of_plain (by simp [entryFaces]) true []
    exact awaited_bracketed (by decide) (awaited_separated closed)
  · intro nest slash rest
    have blank : Text.isBlank '\x7d' = false := by decide
    obtain ⟨inked, run⟩ := run_entries nonempty (isName_of_entriesOf frame use) (nest.raise 1)
      .opensPattern (' ' :: '\x7d' :: rest)
    rw [isText, List.cons_append, List.cons_append, List.append_assoc]
    exact ((run_openBrace nest slash _).trans (run_blank run inked)).trans
      (run_blank (run_closeBrace nest .divides rest) blank)

end Restyle.Output
