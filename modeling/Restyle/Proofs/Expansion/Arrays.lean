import Restyle.Proofs.Expansion.Complete
import Restyle.Registry.Packaged

/-!
Contract: the array of a call has one element for each item of its content.

Owns: that a list whose elements are single is cut at the commas between them;
`Token.IsArray`, tokens between square brackets that belong together; `Represents`,
by which an element of the array is the template of a literal text or the
expression of a slot; and that the elements of every array represent the items in
order, where the holes copied into it are single elements.
-/

namespace Restyle

open Token Lexeme Restyle.Bracket

/-! ## Cutting a list at its commas -/

namespace Use

private theorem exists_argument_of_isSingle
    {tokens : List Token}
    (single : isSingle (tokens.map Token.face)) :
    ∃ span, argument? tokens = some span ∧ span.tokens = tokens ∧
      awaited false [] (tokens.map Token.face) = some [] := by
  obtain ⟨nonempty, undivided⟩ : tokens ≠ [] ∧
      awaited false [] (tokens.map Token.face) = some [] := by
    simpa [isSingle] using single
  obtain ⟨span, isSpan⟩ := exists_argument? nonempty
  exact ⟨span, isSpan, tokens_of_argument? isSpan, undivided⟩

private theorem faces_argumentsOf
    {lists : List (List Face)}
    (single : ∀ faces ∈ lists, isSingle faces)
    {tokens : List Token}
    (areFaces : tokens.map Token.face = Output.separated lists) :
    (argumentsOf tokens).map (·.tokens.map Token.face) = lists := by
  induction lists generalizing tokens with
  | nil =>
    obtain rfl := List.map_eq_nil_iff.mp areFaces
    rfl
  | cons faces lists inductionHypothesis =>
    have own := single faces List.mem_cons_self
    cases lists with
    | nil =>
      obtain rfl : tokens.map Token.face = faces := by
        simpa [Output.separated] using areFaces
      obtain ⟨span, isSpan, areTokens, undivided⟩ := exists_argument_of_isSingle own
      have isSplit : splitArguments 0 tokens = [tokens] := splitArguments_eq_singleton undivided
      rw [argumentsOf, isSplit, List.filterMap_cons_some isSpan, List.filterMap_nil,
        List.map_singleton, areTokens]
    | cons next lists =>
      rw [Output.separated, List.intercalate_cons_cons, List.append_assoc] at areFaces
      obtain ⟨first, others, rfl, rfl, areOthers⟩ := List.map_eq_append_iff.mp areFaces
      obtain ⟨comma, rest, rfl, isComma, areRest⟩ := List.map_eq_cons_iff.mp areOthers
      have isMark : isPunctuator [","] comma := by
        rw [← faceIs_face, isComma]
        decide
      obtain ⟨span, isSpan, areTokens, undivided⟩ := exists_argument_of_isSingle own
      have isSplit : splitArguments 0 (first ++ comma :: rest) = first :: splitArguments 0 rest :=
        splitArguments_append undivided isMark rest
      have later : (argumentsOf rest).map (·.tokens.map Token.face) = next :: lists :=
        inductionHypothesis (fun faces member => single faces (List.mem_cons_of_mem _ member)) areRest
      rw [argumentsOf, isSplit, List.filterMap_cons_some isSpan, List.map_cons, areTokens]
      exact congrArg _ later

end Use

/-! ## What is read between brackets -/

/-- Tokens stand between square brackets that belong together. -/
structure Token.IsArray (opening : Token) (inner : List Token) (closing : Token) : Prop where
  opens : isPunctuator ["["] opening
  closes : isPunctuator ["]"] closing
  belongs : closerIndex? (opening :: (inner ++ [closing])) 0 = some (inner.length + 1)

private theorem Token.exists_bracketed
    {tokens : List Token}
    {opener closer : Face}
    {inner : List Face}
    (areFaces : tokens.map Token.face = opener :: (inner ++ [closer])) :
    ∃ opening between closing, tokens = opening :: (between ++ [closing]) ∧
      opening.face = opener ∧ between.map Token.face = inner ∧ closing.face = closer := by
  obtain ⟨opening, rest, rfl, isOpening, areRest⟩ := List.map_eq_cons_iff.mp areFaces
  obtain ⟨between, last, rfl, areInner, isLast⟩ := List.map_eq_append_iff.mp areRest
  obtain ⟨closing, nothing, rfl, isClosing, isNothing⟩ := List.map_eq_cons_iff.mp isLast
  obtain rfl := List.map_eq_nil_iff.mp isNothing
  exact ⟨opening, between, closing, rfl, isOpening, areInner, isClosing⟩

private theorem Token.exists_array
    {tokens : List Token}
    {inner : List Face}
    (isClosed : awaited true [] inner = some [])
    (areFaces : tokens.map Token.face =
      Output.markFace '[' :: (inner ++ [Output.markFace ']'])) :
    ∃ opening between closing, tokens = opening :: (between ++ [closing]) ∧
      between.map Token.face = inner ∧ Token.IsArray opening between closing := by
  obtain ⟨opening, between, closing, rfl, isOpening, rfl, isClosing⟩ :=
    Token.exists_bracketed areFaces
  have isCloser : Bracket.closes closing := by
    rw [closes_eq, isClosing]
    decide
  have belongs := closerIndex?_of_awaited isClosed isCloser [] opening []
  rw [List.length_nil, Nat.zero_add, Nat.add_comm] at belongs
  refine ⟨opening, between, closing, rfl, rfl, ?_, ?_, belongs⟩
  · rw [← faceIs_face, isOpening]
    decide
  · rw [← faceIs_face, isClosing]
    decide

namespace Output

private theorem Element.exists_readAll
    {text : String}
    {faces : List Face}
    (element : Element text.toList faces) :
    ∃ opening between closing,
      Token.readAll ("(" ++ text ++ ")") = .ok (opening :: (between ++ [closing])) ∧
        between.map Token.face = faces := by
  obtain ⟨last, inside⟩ := element.runs .module ')' [] (by decide)
  have run : CodeRun .module .divides ('(' :: (text.toList ++ [')']))
      (markFace '(' :: (faces ++ [markFace ')'])) .module .divides [] :=
    (run_mark .module .divides _ (by decide)).trans
      (inside.trans (run_closer .module last [] (by decide)))
  have isText : ("(" ++ text ++ ")").toList = '(' :: (text.toList ++ [')']) := by simp
  rw [← isText] at run
  obtain ⟨tokens, areTokens, areFaces⟩ := run.readAll
  obtain ⟨opening, between, closing, rfl, -, areBetween, -⟩ := Token.exists_bracketed areFaces
  exact ⟨opening, between, closing, areTokens, areBetween⟩

end Output

namespace Expansion

/-- An element of an array holds an item: a literal text as one template with this
text, a slot as what is read from its expression between parentheses. -/
def Represents (item : Fragments.Item) (element : Span) : Prop :=
  match item with
  | .literal own => ∃ token, element.tokens = [token] ∧ token.isTemplate ∧
      token.text = "`" ++ own ++ "`"
  | .slot slot _ => ∃ opening between closing,
      Token.readAll ("(" ++ slot.expression ++ ")") = .ok (opening :: (between ++ [closing])) ∧
        element.tokens.map Token.face = between.map Token.face

private theorem represents_of_holds
    {single : Prop}
    {item : Fragments.Item}
    {element : Span}
    (holds : Output.Holds single item (element.tokens.map Token.face)) :
    Represents item element := by
  cases item with
  | literal text =>
    obtain ⟨token, nothing, areTokens, isFace, isNothing⟩ :=
      List.map_eq_cons_iff.mp (holds.isTemplate text rfl)
    obtain rfl := List.map_eq_nil_iff.mp isNothing
    refine ⟨token, areTokens, ?_⟩
    unfold Token.face at isFace
    split at isFace
    · simp at isFace
    · rename_i literal isBody
      exact ⟨by simp [Token.isTemplate, Token.template?, isBody], (Face.mk.inj isFace).2⟩
  | slot slot index =>
    obtain ⟨opening, between, closing, areTokens, areFaces⟩ := holds.element.exists_readAll
    exact ⟨opening, between, closing, areTokens, areFaces.symm⟩

/-- An output's content is read as an array which, cut at its commas, has one element
for each item, in order, where the module is legible, every hole that is copied is a
single element and the aliases are names. -/
theorem array_represents_items
    {settings : Settings}
    {registry : Registry}
    {filename source : String}
    {module : Module}
    {expansion : Expansion}
    {output : Output}
    {fragments : Fragments}
    (isModule : Module.parse source = .ok module)
    (expanded : ofSource settings registry filename source = .ok expansion)
    (legible : Legible (scopeOf settings registry module) expansion.outputs)
    (single : ∀ span, (.hole, span) ∈ expressions (scopeOf settings registry module) →
      Use.IsCopied (scopeOf settings registry module) .hole span →
        isSingle (span.tokens.map Token.face))
    (named : ∀ other ∈ expansion.outputs, ∀ name, other.alias? = some name → Output.isName name)
    (isOutput : output ∈ expansion.outputs)
    (isFragments : output.fragments = some fragments) :
    ∃ opening inner closing,
      Token.readAll fragments.code = .ok (opening :: (inner ++ [closing])) ∧
        Token.IsArray opening inner closing ∧
        List.Forall₂ Represents fragments.items (Use.argumentsOf inner) := by
  rcases cases_of_ofSource isModule expanded with ⟨-, rfl⟩ | ⟨uses, topmost, progress, written⟩
  · simp [unchanged] at isOutput
  · have complete : output.Complete True := written.complete isModule legible (fun _ => single)
      (fun other isOther _ => named other isOther) output isOutput
    obtain ⟨lists, holds⟩ := Output.exists_elements (complete.items fragments isFragments)
    have elements : List.Forall₂ Output.Element (fragments.items.map (·.code.toList)) lists :=
      List.forall₂_map_left_iff.mpr (holds.imp fun _ _ own => own.element)
    have run := (Output.reads_array elements).runs .module .divides []
    rw [← Fragments.toList_code, List.append_nil] at run
    obtain ⟨tokens, areTokens, areFaces⟩ := run.readAll
    obtain ⟨opening, inner, closing, rfl, areInner, isArray⟩ := Token.exists_array
      (Output.awaited_separated (Output.closes_of_elements elements)) areFaces
    refine ⟨opening, inner, closing, areTokens, isArray, ?_⟩
    have areSingle : ∀ faces ∈ lists, isSingle faces := by
      intro faces member
      obtain ⟨item, own⟩ := Output.exists_item_of_mem holds faces member
      exact own.isSingle trivial
    rw [← Use.faces_argumentsOf areSingle areInner, List.forall₂_map_right_iff] at holds
    exact holds.imp fun _ _ own => represents_of_holds own

/-- Two holes side by side, with a comma in parentheses and a use inside them. -/
def arraySample : String :=
  "import \x7b css \x7d from './macro'\nconst a = css`x$\x7bf(b, c)\x7d$\x7bd + css`z`\x7d`"

def arrayCode : String :=
  "[`x`, f(b, c), ``, d + _css([`z`])]"

/-- The sample's array has four elements, one for each item. -/
theorem arraySample_represents_items :
    ∃ module expansion output fragments opening inner closing,
      Module.parse arraySample = .ok module ∧
      ofSource {} Registry.packaged "" arraySample = .ok expansion ∧
      Legible (scopeOf {} Registry.packaged module) expansion.outputs ∧
      output ∈ expansion.outputs ∧ output.fragments = some fragments ∧
      fragments.code = arrayCode ∧
      Token.readAll fragments.code = .ok (opening :: (inner ++ [closing])) ∧
      Token.IsArray opening inner closing ∧
      List.Forall₂ Represents fragments.items (Use.argumentsOf inner) := by
  have checked : ((Module.parse arraySample).toOption.any
      (runsLegibly {} Registry.packaged "" fun output =>
        output.fragments.any (·.code = arrayCode))) = true := by
    decide +kernel
  have details : ((Module.parse arraySample).toOption.any fun module =>
      (expressions (scopeOf {} Registry.packaged module)).all
        (fun entry => isSingle (entry.2.tokens.map Token.face)) &&
      (run {} Registry.packaged "" module).finished.all
        fun output => output.alias?.all Output.isName) = true := by
    decide +kernel
  obtain ⟨module, expansion, output, isModule, expanded, legible, isOutput, own⟩ :=
    exists_of_runsLegibly checked
  rw [isModule] at details
  obtain ⟨single, named⟩ := (Bool.and_eq_true _ _).mp details
  obtain ⟨fragments, isFragments, isCode⟩ := (Option.any_eq_true _ _).mp own
  have isNamed : ∀ other ∈ expansion.outputs, ∀ name, other.alias? = some name →
      Output.isName name := by
    intro other isOther name isAlias
    have given := List.all_eq_true.mp named other
      ((mem_outputs_iff_finished isModule expanded).mp isOther)
    rwa [isAlias] at given
  obtain ⟨opening, inner, closing, areTokens, isArray, represents⟩ :=
    array_represents_items isModule expanded legible
      (fun span isHole _ => List.all_eq_true.mp single (.hole, span) isHole)
      isNamed isOutput isFragments
  exact ⟨module, expansion, output, fragments, opening, inner, closing, isModule, expanded, legible,
    isOutput, isFragments, of_decide_eq_true isCode, areTokens, isArray, represents⟩

end Expansion

end Restyle
