import Restyle.Proofs.Template.Reread

/-!
Contract: what a text stands for between quotes and between backticks.

Owns: `Mark`, a character that stands for itself or that a backslash escapes;
`marks`, a text read from left to right as marks, and `spelled`, which undoes it;
`cooked`, the text that is stood for; `guarded`, marks with those escaped that
would end a template or open a hole; and that a converted string has the guarded
marks of the string, so it is read back from between backticks and stands for the
same text.

Does not own: what an escape stands for.  The statements hold whatever it is, as
long as an escaped backtick or dollar sign is the character itself.
-/

namespace Restyle.Template

/-- A character that stands for itself, or one after a backslash. -/
inductive Mark where
  | bare (c : Char)
  | escape (c : Char)
deriving DecidableEq

/-- A text from left to right.  A backslash takes the next character with it; at
the end it stands alone. -/
def marks : List Char → List Mark
  | [] => []
  | [c] => [.bare c]
  | c :: d :: rest => if c = '\\' then .escape d :: marks rest else .bare c :: marks (d :: rest)

def Mark.spelled : Mark → List Char
  | .bare c => [c]
  | .escape c => ['\\', c]

/-- What a mark stands for, given what escapes stand for. -/
def Mark.cooked (escaped : Char → List Char) : Mark → List Char
  | .bare c => [c]
  | .escape c => escaped c

/-- What a text stands for, given what escapes stand for. -/
def cooked (escaped : Char → List Char) (text : List Char) : List Char :=
  (marks text).flatMap (·.cooked escaped)

/-- Marks with those escaped that would end a template or open a hole. -/
def guarded : List Mark → List Mark
  | [] => []
  | .escape c :: rest => .escape c :: guarded rest
  | .bare c :: rest =>
    if c = '`' ∨ c = '$' ∧ rest.head? = some (.bare '{') then .escape c :: guarded rest
    else .bare c :: guarded rest

/-- No bare backtick, and no bare dollar sign before a bare brace. -/
structure NeedsNoGuard (text : List Char) : Prop where
  noBacktick : Mark.bare '`' ∉ marks text
  noHole : ¬ [Mark.bare '$', Mark.bare '{'] <:+: marks text

/-! ## Marks -/

private theorem marks_escape (c : Char) (rest : List Char) :
    marks ('\\' :: c :: rest) = .escape c :: marks rest := by
  simp [marks]

private theorem marks_bare {c : Char} (noEscape : c ≠ '\\') (rest : List Char) :
    marks (c :: rest) = .bare c :: marks rest := by
  cases rest with
  | nil => rfl
  | cons d rest => simp [marks, noEscape]

private theorem head?_marks (c : Char) (rest : List Char) :
    (marks (c :: rest)).head? = some (.bare '{') ↔ c = '{' := by
  cases rest with
  | nil => simp [marks]
  | cons d rest =>
    by_cases isEscape : c = '\\'
    · simp [isEscape, marks]
    · simp [marks_bare isEscape]

/-- Marks tell all of a text. -/
theorem spelled_marks (text : List Char) : (marks text).flatMap Mark.spelled = text := by
  fun_induction marks text with
  | case1 => rfl
  | case2 => rfl
  | case3 d rest inductionHypothesis =>
    simp [Mark.spelled, inductionHypothesis]
  | case4 c d rest _ inductionHypothesis =>
    simp [Mark.spelled, inductionHypothesis]

private theorem marks_injective : Function.Injective marks := by
  intro left right same
  rw [← spelled_marks left, same, spelled_marks]

/-! ## Converted strings -/

open Restyle.Text in
/-- Conversion guards the marks of a string and changes nothing else. -/
theorem marks_templateRawChars (body : List Char) :
    marks (templateRawChars body) = guarded (marks body) := by
  fun_induction templateRawChars body with
  | case1 => rfl
  | case2 => simp [marks, guarded]
  | case3 c bare => simp [marks, guarded, bare]
  | case4 d rest inductionHypothesis =>
    rw [marks_escape, marks_escape, guarded, inductionHypothesis]
  | case5 c d rest noEscape opens inductionHypothesis =>
    simp only [Bool.or_eq_true, Bool.and_eq_true, decide_eq_true_eq] at opens
    rw [← head?_marks d rest] at opens
    rw [marks_escape, marks_bare noEscape, guarded, if_pos opens, inductionHypothesis]
  | case6 c d rest noEscape bare inductionHypothesis =>
    simp only [Bool.or_eq_true, Bool.and_eq_true, decide_eq_true_eq] at bare
    rw [← head?_marks d rest] at bare
    rw [marks_bare noEscape, marks_bare noEscape, guarded, if_neg bare, inductionHypothesis]

private theorem cooked_guarded
    {escaped : Char → List Char}
    (backtick : escaped '`' = ['`'])
    (dollar : escaped '$' = ['$'])
    (unguarded : List Mark) :
    (guarded unguarded).flatMap (·.cooked escaped) = unguarded.flatMap (·.cooked escaped) := by
  induction unguarded with
  | nil => rfl
  | cons mark rest inductionHypothesis =>
    cases mark with
    | escape c => rw [guarded, List.flatMap_cons, List.flatMap_cons, inductionHypothesis]
    | bare c =>
      rw [guarded]
      split
      · rename_i opens
        have itself : escaped c = [c] := by
          rcases opens with rfl | ⟨rfl, _⟩
          · exact backtick
          · exact dollar
        rw [List.flatMap_cons, List.flatMap_cons, inductionHypothesis, Mark.cooked, Mark.cooked,
          itself]
      · rw [List.flatMap_cons, List.flatMap_cons, inductionHypothesis]

private theorem guarded_eq_self_iff (unguarded : List Mark) :
    guarded unguarded = unguarded ↔
      .bare '`' ∉ unguarded ∧ ¬ [Mark.bare '$', Mark.bare '{'] <:+: unguarded := by
  induction unguarded with
  | nil => simp [guarded]
  | cons mark rest inductionHypothesis =>
    cases mark with
    | escape c => simp [guarded, inductionHypothesis, List.infix_cons_iff]
    | bare c =>
      have opens : [Mark.bare '$', Mark.bare '{'] <+: .bare c :: rest ↔
          c = '$' ∧ rest.head? = some (.bare '{') := by
        cases rest <;> simp [List.cons_prefix_cons, eq_comm]
      rw [guarded, List.mem_cons, Mark.bare.injEq, List.infix_cons_iff, opens]
      split
      · rename_i needsGuard
        constructor
        · intro same
          simp at same
        · rintro ⟨noBacktick, noHole⟩
          rcases needsGuard with isBacktick | isHole
          · exact absurd (.inl isBacktick.symm) noBacktick
          · exact absurd (.inl isHole) noHole
      · rename_i free
        rw [not_or] at free
        simp [inductionHypothesis, free, eq_comm (a := '`')]

open Restyle.Text in
private theorem templateRawChars_eq_self_iff (body : List Char) :
    templateRawChars body = body ↔ NeedsNoGuard body := by
  rw [← marks_injective.eq_iff, marks_templateRawChars, guarded_eq_self_iff]
  exact ⟨fun free => ⟨free.1, free.2⟩, fun free => ⟨free.noBacktick, free.noHole⟩⟩

/-- A quoted string of any source, converted to template text, is read back from
between backticks as one template without holes that has this text for its only
chunk.  The text stands for what the string stands for, and is the same text
exactly where nothing in the string needs a guard. -/
theorem quoted_string_means_the_same_in_template
    {source : String}
    {lexeme : Lexeme}
    (member : lexeme ∈ Lexeme.scan source)
    (isString : lexeme.kind = .doubleQuoted ∨ lexeme.kind = .singleQuoted) :
    ReadsAsText (Text.templateRaw lexeme.text) ∧
      (∀ escaped : Char → List Char, escaped '`' = ['`'] → escaped '$' = ['$'] →
        cooked escaped (Text.templateRaw lexeme.text).toList =
          cooked escaped (Text.unquote lexeme.text).toList) ∧
      (Text.templateRaw lexeme.text = Text.unquote lexeme.text ↔
        NeedsNoGuard (Text.unquote lexeme.text).toList) := by
  obtain ⟨quote, body, _, spelled, whole⟩ := Lexeme.spelling_of_string member isString
  have isBody : (Text.unquote lexeme.text).toList = body := by
    simp [Text.unquote, spelled]
  have converted : (Text.templateRaw lexeme.text).toList = Text.templateRawChars body := by
    rw [Text.templateRaw, isBody, String.toList_ofList]
  refine ⟨?_, fun escaped backtick dollar => ?_, ?_⟩
  · rw [readsAsText_iff, converted]
    exact isInert_templateRawChars whole
  · rw [converted, isBody, cooked, marks_templateRawChars, cooked_guarded backtick dollar]
    rfl
  · rw [← String.toList_inj, converted, isBody]
    exact templateRawChars_eq_self_iff body

/-- A string with a backtick, an escaped backtick, and dollar signs before a brace,
before an escaped brace and at the end. -/
def guardedSample : String :=
  "a = 'b`\\`$$\x7bc\x7d$\\\x7bd$'"

/-- The string of the sample gets two guards. -/
theorem guardedSample_means_the_same :
    ∃ lexeme ∈ Lexeme.scan guardedSample, lexeme.kind = .singleQuoted ∧
      Text.templateRaw lexeme.text = "b\\`\\`$\\$\x7bc\x7d$\\\x7bd$" ∧
      ReadsAsText (Text.templateRaw lexeme.text) ∧
      cooked (fun c => [c]) (Text.templateRaw lexeme.text).toList =
        cooked (fun c => [c]) (Text.unquote lexeme.text).toList ∧
      Text.templateRaw lexeme.text ≠ Text.unquote lexeme.text := by
  have evaluates : (Lexeme.scan guardedSample).any fun lexeme =>
      lexeme.kind = .singleQuoted ∧
        Text.templateRaw lexeme.text = "b\\`\\`$\\$\x7bc\x7d$\\\x7bd$" ∧
        Text.templateRaw lexeme.text ≠ Text.unquote lexeme.text := by
    decide +kernel
  obtain ⟨lexeme, member, evaluates⟩ := List.any_eq_true.mp evaluates
  obtain ⟨isString, isConverted, differs⟩ := of_decide_eq_true evaluates
  obtain ⟨reads, cooks, _⟩ :=
    quoted_string_means_the_same_in_template member (.inr isString)
  exact ⟨lexeme, member, isString, isConverted, reads, cooks (fun c => [c]) rfl rfl, differs⟩

end Restyle.Template
