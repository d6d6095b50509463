import Restyle.Proofs.Lexeme.Steps
import Restyle.Text

/-!
Contract: text that stays text between backticks.

Owns: `isInert`, the texts that neither close a template, nor open a hole, nor
leave an escape unfinished; `endsInDollar`; how the two behave under
concatenation; that converted strings are inert; and `TextEffect`, what a step
in the text of a template does.

Two inert texts put together are inert unless a bare dollar sign at the end of
the first meets a brace at the start of the second.
-/

namespace Restyle.Template

/-- Whether a text is template text as a whole: no bare backtick, no bare dollar
sign before a brace, and no backslash without a character after it. -/
def isInert : List Char → Bool
  | [] => true
  | [c] => c ≠ '`' && c ≠ '\\'
  | c :: d :: rest =>
    if c = '\\' then isInert rest
    else if c = '`' || c = '$' && d = '{' then false
    else isInert (d :: rest)

/-- Whether a text ends in a dollar sign that no backslash escapes. -/
def endsInDollar : List Char → Bool
  | [] => false
  | [c] => c = '$'
  | c :: d :: rest => if c = '\\' then endsInDollar rest else endsInDollar (d :: rest)

/-- Whether a text begins with an opening brace. -/
def beginsWithBrace (text : List Char) : Bool :=
  text.head? = some '{'

/-! ## Concatenation -/

/-- The last character decides over the end, wherever the text before it has no
unfinished escape. -/
theorem endsInDollar_append
    {left right : List Char}
    (inert : isInert left)
    (nonempty : right ≠ []) :
    endsInDollar (left ++ right) = endsInDollar right := by
  fun_induction isInert left with
  | case1 => rfl
  | case2 c =>
    obtain ⟨next, rest, rfl⟩ := List.exists_cons_of_ne_nil nonempty
    simp only [ne_eq, Bool.and_eq_true, decide_eq_true_eq] at inert
    simp [endsInDollar, inert.2]
  | case3 d rest inductionHypothesis =>
    simpa [endsInDollar] using inductionHypothesis inert
  | case4 => simp at inert
  | case5 c d rest noEscape _ inductionHypothesis =>
    simpa [endsInDollar, noEscape] using inductionHypothesis inert

/-- After an inert text another one is read as if it stood alone, unless the two
spell an opening hole where they meet. -/
theorem isInert_append_iff
    {left right : List Char}
    (inert : isInert left) :
    isInert (left ++ right) ↔
      isInert right ∧ ¬ (endsInDollar left ∧ beginsWithBrace right) := by
  fun_induction isInert left with
  | case1 => simp [endsInDollar]
  | case2 c =>
    simp only [ne_eq, Bool.and_eq_true, decide_eq_true_eq] at inert
    cases right with
    | nil => simp [isInert, inert, beginsWithBrace]
    | cons next rest =>
      simp only [List.singleton_append, isInert, inert, endsInDollar, beginsWithBrace]
      by_cases hole : c = '$' ∧ next = '{'
      · simp [hole]
      · simp [hole]
  | case3 d rest inductionHypothesis =>
    simpa [isInert, endsInDollar] using inductionHypothesis inert
  | case4 => simp at inert
  | case5 c d rest noEscape bare inductionHypothesis =>
    simpa [isInert, endsInDollar, noEscape, bare] using inductionHypothesis inert

/-- Some inert texts put together are inert exactly when no bare dollar sign is
followed by a brace across one of the seams between them. -/
theorem isInert_flatten_iff
    {texts : List (List Char)}
    (inert : ∀ text ∈ texts, isInert text) :
    isInert texts.flatten ↔
      ∀ left right, texts = left ++ right →
        ¬ (endsInDollar left.flatten ∧ beginsWithBrace right.flatten) := by
  induction texts with
  | nil =>
    refine ⟨fun _ left right split => ?_, fun _ => rfl⟩
    rw [(List.append_eq_nil_iff.mp split.symm).1]
    simp [endsInDollar]
  | cons text texts inductionHypothesis =>
    have textInert := inert text (by simp)
    have later := inductionHypothesis fun other member => inert other (by simp [member])
    rw [List.flatten_cons, isInert_append_iff textInert, later]
    constructor
    · rintro ⟨seams, firstSeam⟩ left right split
      rcases List.cons_eq_append_iff.mp split with ⟨rfl, -⟩ | ⟨more, rfl, isRest⟩
      · simp [endsInDollar]
      · -- Empty texts after the first one leave its end where it was.
        by_cases vanishes : more.flatten = []
        · simpa [isRest, vanishes] using firstSeam
        · rw [List.flatten_cons, endsInDollar_append textInert vanishes]
          exact seams more right isRest
    · intro seams
      refine ⟨fun left right split => ?_, ?_⟩
      · by_cases vanishes : left.flatten = []
        · simp [vanishes, endsInDollar]
        · have seam := seams (text :: left) right (by simp [split])
          rwa [List.flatten_cons, endsInDollar_append textInert vanishes] at seam
      · simpa using seams [text] texts rfl

/-! ## Converted strings -/

open Restyle.Text in
/-- The template text of a string does not begin with a brace that the string
does not begin with. -/
theorem beginsWithBrace_templateRawChars {body : List Char}
    (begins : beginsWithBrace (templateRawChars body)) : beginsWithBrace body := by
  fun_induction templateRawChars body with
  | case1 => exact begins
  | case2 => simp [beginsWithBrace] at begins
  | case3 => exact begins
  | case4 => simp [beginsWithBrace] at begins
  | case5 => simp [beginsWithBrace] at begins
  | case6 => simpa [beginsWithBrace] using begins

open Restyle.Text in
/-- A string whose escapes are whole is inert as template text. -/
theorem isInert_templateRawChars {body : List Char}
    (whole : Lexeme.escapesAreWhole body) : isInert (templateRawChars body) := by
  fun_induction templateRawChars body with
  | case1 => rfl
  | case2 => rfl
  | case3 c bare => simpa [isInert, Lexeme.escapesAreWhole, bare] using whole
  | case4 d rest inductionHypothesis =>
    simp only [Lexeme.escapesAreWhole, ↓reduceIte] at whole
    simpa [isInert] using inductionHypothesis whole
  | case5 c d rest noEscape _ inductionHypothesis =>
    simp only [Lexeme.escapesAreWhole, noEscape, ↓reduceIte] at whole
    simpa [isInert] using inductionHypothesis whole
  | case6 c d rest noEscape bare inductionHypothesis =>
    simp only [Lexeme.escapesAreWhole, noEscape, ↓reduceIte] at whole
    simp only [Bool.or_eq_true, Bool.and_eq_true, decide_eq_true_eq, not_or, not_and] at bare
    have single : isInert [c] := by simp [isInert, noEscape, bare.1]
    rw [← List.singleton_append, isInert_append_iff single]
    refine ⟨inductionHypothesis whole, ?_⟩
    rintro ⟨isDollar, begins⟩
    have isBrace := beginsWithBrace_templateRawChars begins
    simp only [endsInDollar, decide_eq_true_eq] at isDollar
    simp only [beginsWithBrace, List.head?_cons, Option.some.injEq, decide_eq_true_eq] at isBrace
    exact bare.2 isDollar isBrace

/-! ## Steps in a template -/

/-- What a step in the text of a template does: it closes the template, opens a
hole, takes some inert text that does not cut an opening hole in two, or meets
a backslash that ends the module. -/
inductive TextEffect (nest : Lexeme.Nest) (first : Char) (rest : List Char)
    (taken : Lexeme.Step) : Prop where
  | close (marks : first = '`')
      (isStep : taken = ⟨.templateClose, 0, .code nest .divides⟩)
  | holeOpen (marks : first = '$') (isBrace : rest.head? = some '{')
      (isStep : taken = ⟨.holeOpen, 1, .code (.hole 0 nest) .opensPattern⟩)
  | text (kind : taken.kind = .templateText) (next : taken.next = .template nest)
      (inert : isInert (first :: rest.take taken.tail))
      (whole : endsInDollar (first :: rest.take taken.tail) →
        ¬ beginsWithBrace (rest.drop taken.tail))
  | stray (kind : taken.kind = .stray) (next : taken.next = .template nest)

private theorem isInert_of_plain {text : List Char}
    (plain : ∀ c ∈ text, Lexeme.isTemplateText c) :
    isInert text ∧ endsInDollar text = false := by
  induction text with
  | nil => exact ⟨rfl, rfl⟩
  | cons c rest inductionHypothesis =>
    have own := plain c (by simp)
    simp only [Lexeme.isTemplateText, ne_eq, Bool.and_eq_true, decide_eq_true_eq] at own
    have later := inductionHypothesis fun other member => plain other (by simp [member])
    cases rest with
    | nil => simp [isInert, endsInDollar, own]
    | cons d rest => simpa [isInert, endsInDollar, own] using later

theorem templateStep_effect (nest : Lexeme.Nest) (first : Char) (rest : List Char) :
    TextEffect nest first rest (Lexeme.templateStep nest first rest) := by
  unfold Lexeme.templateStep
  split
  · exact .close ‹_› rfl
  rename_i noClose
  split
  · rename_i isDollar
    subst isDollar
    split
    · exact .holeOpen rfl ‹_› rfl
    · rename_i noBrace
      exact .text rfl rfl (by simp [isInert]) (fun _ => by simpa [beginsWithBrace] using noBrace)
  rename_i noDollar
  split
  · rename_i isEscape
    subst isEscape
    split
    · exact .stray rfl rfl
    · cases rest with
      | nil => simp at *
      | cons escaped rest => exact .text rfl rfl (by simp [isInert]) (by simp [endsInDollar])
  · rename_i noEscape
    have plain : ∀ c ∈ first :: rest.takeWhile Lexeme.isTemplateText,
        Lexeme.isTemplateText c := by
      intro c member
      rcases List.mem_cons.mp member with rfl | later
      · simp [Lexeme.isTemplateText, noClose, noDollar, noEscape]
      · exact List.all_eq_true.mp List.all_takeWhile c later
    have isRun := List.prefix_iff_eq_take.mp
      (List.takeWhile_prefix Lexeme.isTemplateText (l := rest))
    obtain ⟨inert, noEnd⟩ := isInert_of_plain plain
    rw [isRun] at inert noEnd
    exact .text rfl rfl inert (by simp [noEnd])

end Restyle.Template
