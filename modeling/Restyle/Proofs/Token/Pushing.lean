import Restyle.Proofs.Lexeme.Machine
import Restyle.Proofs.Outcome
import Restyle.Proofs.Template.Inert
import Restyle.Proofs.Text
import Restyle.Token.Reader

/-!
Contract: what the lexemes of the scanner do to the reader.

Owns: `Lexeme.Comes`, the states and rests that a scanner comes to, and that it
comes further by one step; `Reader.inStep`, by which the reader is in code exactly
when the scanner is; `Reader.Pushed`, all that a lexeme can do to a reader in step;
that a reader in step stays so; and `exists_of_readAll`, by which what every lexeme
keeps holds of the tokens of a text.

Proofs about reading go by cases on `Reader.Pushed` and never open the reader's
step.
-/

/-! ## Where the scanner comes to -/

namespace Restyle.Lexeme

/-- From a state with a text before it the scanner comes to another state with a
rest of the text before it. -/
inductive Comes : State → List Char → State → List Char → Prop where
  | here {state : State} {text : List Char} : Comes state text state text
  | after {state last : State} {first : Char} {rest left : List Char}
      (later : Comes (step state first rest).next (rest.drop (step state first rest).tail)
        last left) :
      Comes state (first :: rest) last left

/-- Nothing comes after the end of a text. -/
theorem Comes.of_nil
    {state last : State}
    {left : List Char}
    (comes : Comes state [] last left) :
    last = state ∧ left = [] := by
  cases comes with
  | here => exact ⟨rfl, rfl⟩

/-- A scanner that came somewhere comes further by one step. -/
theorem Comes.next
    {state current : State}
    {text : List Char}
    {first : Char}
    {rest : List Char}
    (comes : Comes state text current (first :: rest)) :
    Comes state text (step current first rest).next (rest.drop (step current first rest).tail) := by
  generalize isLeft : first :: rest = left at comes
  induction comes with
  | here =>
    subst isLeft
    exact .after .here
  | after _ inductionHypothesis => exact .after (inductionHypothesis isLeft)

private theorem Comes.exists_mem
    {state current : State}
    {text : List Char}
    {first : Char}
    {rest : List Char}
    (comes : Comes state text current (first :: rest))
    (offset : Nat) :
    ∃ before, text = before ++ first :: rest ∧
      current.lexeme (offset + before.length) first rest ∈ scanFrom state offset text := by
  generalize isLeft : first :: rest = left at comes
  induction comes generalizing offset with
  | here =>
    subst isLeft
    exact ⟨[], rfl, scanFrom_cons _ _ _ _ ▸ List.mem_cons_self⟩
  | @after state last head tail left later inductionHypothesis =>
    obtain ⟨before, split, member⟩ :=
      inductionHypothesis (state.lexeme offset head tail).stop isLeft
    refine ⟨head :: tail.take (step state head tail).tail ++ before, ?_, ?_⟩
    · rw [List.append_assoc, ← split, List.cons_append, List.take_append_drop]
    · rw [scanFrom_cons]
      refine List.mem_cons_of_mem _ ?_
      rwa [List.length_append, ← Nat.add_assoc, ← String.length_ofList]

/-- What the scanner takes at an offset of a source that it comes to is a lexeme of
the source. -/
theorem Comes.mem_scanFrom
    {source : List Char}
    {state : State}
    {offset : Nat}
    {first : Char}
    {rest : List Char}
    (comes : Comes .initial source state (first :: rest))
    (isRest : source.drop offset = first :: rest) :
    state.lexeme offset first rest ∈ scanFrom .initial 0 source := by
  obtain ⟨before, split, member⟩ := comes.exists_mem 0
  have isOffset : before.length = offset := by
    have whole := congrArg List.length split
    have left := congrArg List.length isRest
    simp only [List.length_drop, List.length_append, List.length_cons] at whole left
    omega
  rwa [Nat.zero_add, isOffset] at member

end Restyle.Lexeme

namespace Restyle.Token

open Lexeme Restyle.Template

/-! ## In step -/

def OpenCode.depth : OpenCode → Nat
  | .module _ => 0
  | .hole _ _ _ _ outer => outer.depth + 1

/-- Whether the reader is where the scanner is. -/
def Reader.inStep : Lexeme.State → Reader → Prop
  | .code nest _, .code current => current.depth = nest.depth
  | .template nest, .text _ _ outer => outer.depth = nest.depth
  | _, _ => False

@[simp]
theorem OpenCode.depth_push (token : Token) (current : OpenCode) :
    (current.push token).depth = current.depth := by
  cases current <;> rfl

/-! ## A further lexeme -/

theorem Reader.push_of_trivia
    {source : List Char}
    {current : OpenCode}
    {lexeme : Lexeme}
    (isTrivia : lexeme.kind.isTrivia) :
    Reader.push source (.code current) lexeme = .ok (.code current) := by
  cases isKind : lexeme.kind <;> simp [isKind, Lexeme.Kind.isTrivia] at isTrivia <;>
    simp [Reader.push, isKind]

theorem Reader.push_of_atom
    {source : List Char}
    {current : OpenCode}
    {lexeme : Lexeme}
    (isAtom : lexeme.kind.isAtom) :
    Reader.push source (.code current) lexeme =
      .ok (.code (current.push (ofLexeme source lexeme))) := by
  cases isKind : lexeme.kind <;> simp [isKind, Lexeme.Kind.isAtom] at isAtom <;>
    simp [Reader.push, isKind]

/-- What the lexeme that a step takes at an offset does to a reader in step: the
state of the scanner before it, and the reader before and after it. -/
inductive Reader.Pushed (source : List Char) (offset : Nat) (first : Char) (rest : List Char)
    (taken : Step) : State → Reader → Reader → Prop where
  | trivia {nest : Nest} {slash after : Slash} {current : OpenCode}
      (isTrivia : taken.kind.isTrivia)
      (isNext : taken.next = .code nest after) :
      Reader.Pushed source offset first rest taken (.code nest slash) (.code current)
        (.code current)
  | atom {nest inner : Nest} {slash after : Slash} {current : OpenCode}
      (isAtom : taken.kind.isAtom)
      (isNext : taken.next = .code inner after)
      (sameDepth : inner.depth = nest.depth) :
      Reader.Pushed source offset first rest taken (.code nest slash) (.code current)
        (.code (current.push
          (ofLexeme source ⟨taken.kind, String.ofList (first :: rest.take taken.tail), offset⟩)))
  | templateOpen {nest : Nest} {slash : Slash} {current : OpenCode}
      (marks : first = '`')
      (isStep : taken = ⟨.templateOpen, 0, .template nest⟩) :
      Reader.Pushed source offset first rest taken (.code nest slash) (.code current)
        (.text ⟨offset, []⟩ (offset + 1) current)
  | holeClose {around : Nest} {slash : Slash} {template : OpenTemplate} {chunk : Template.Chunk}
      {start : Nat} {tokens : List Token} {outer : OpenCode}
      (marks : first = '}')
      (isStep : taken = ⟨.holeClose, 0, .template around⟩) :
      Reader.Pushed source offset first rest taken (.code (.hole 0 around) slash)
        (.code (.hole template chunk start tokens outer))
        (.text ⟨template.start, (chunk, ⟨tokens.reverse, start, offset⟩) :: template.parts⟩
          (offset + 1) outer)
  | templateClose {nest : Nest} {template : OpenTemplate} {chunkStart : Nat} {outer : OpenCode}
      (marks : first = '`')
      (isStep : taken = ⟨.templateClose, 0, .code nest .divides⟩) :
      Reader.Pushed source offset first rest taken (.template nest) (.text template chunkStart outer)
        (.code (outer.push (ofTemplate source template chunkStart offset)))
  | holeOpen {nest : Nest} {template : OpenTemplate} {chunkStart : Nat} {outer : OpenCode}
      (marks : first = '$')
      (isBrace : rest.head? = some '{')
      (isStep : taken = ⟨.holeOpen, 1, .code (.hole 0 nest) .opensPattern⟩) :
      Reader.Pushed source offset first rest taken (.template nest) (.text template chunkStart outer)
        (.code (.hole template (chunkOf source chunkStart offset) (offset + 2) [] outer))
  | text {nest : Nest} {template : OpenTemplate} {chunkStart : Nat} {outer : OpenCode}
      (isText : taken.kind = .templateText)
      (isNext : taken.next = .template nest)
      (inert : isInert (first :: rest.take taken.tail))
      (whole : endsInDollar (first :: rest.take taken.tail) →
        ¬ beginsWithBrace (rest.drop taken.tail)) :
      Reader.Pushed source offset first rest taken (.template nest) (.text template chunkStart outer)
        (.text template chunkStart outer)

section Push

variable
  {source : List Char}
  {offset : Nat}
  {first : Char}
  {rest : List Char}
  {state : State}
  {reader next : Reader}

private theorem Reader.pushed_in_code
    {nest : Nest}
    {slash : Slash}
    {current : OpenCode}
    (pushed : Reader.push source (.code current)
      ((State.code nest slash).lexeme offset first rest) = .ok next) :
    Pushed source offset first rest (codeStep nest slash first rest) (.code nest slash)
      (.code current) next := by
  have effect := (codeStep_spec nest slash first rest).effect
  simp only [State.lexeme, step] at pushed
  generalize codeStep nest slash first rest = taken at effect pushed ⊢
  cases effect with
  | trivia isTrivia isNext =>
    rw [Reader.push_of_trivia isTrivia] at pushed
    cases pushed
    exact .trivia isTrivia isNext
  | atom isAtom _ isNext sameDepth =>
    rw [Reader.push_of_atom isAtom] at pushed
    cases pushed
    exact .atom isAtom isNext sameDepth
  | templateOpen marks isStep =>
    rw [isStep] at pushed
    cases pushed
    exact .templateOpen marks isStep
  | holeClose isNest marks isStep =>
    rw [isStep] at pushed
    subst isNest
    cases current with
    | module => simp [Reader.push] at pushed
    | hole =>
      cases pushed
      exact .holeClose marks isStep

private theorem Reader.pushed_in_text
    {nest : Nest}
    {template : OpenTemplate}
    {chunkStart : Nat}
    {outer : OpenCode}
    (pushed : Reader.push source (.text template chunkStart outer)
      ((State.template nest).lexeme offset first rest) = .ok next) :
    Pushed source offset first rest (templateStep nest first rest) (.template nest)
      (.text template chunkStart outer) next := by
  have effect := templateStep_effect nest first rest
  simp only [State.lexeme, step] at pushed
  generalize templateStep nest first rest = taken at effect pushed ⊢
  cases effect with
  | close marks isStep =>
    rw [isStep] at pushed
    cases pushed
    exact .templateClose marks isStep
  | holeOpen marks isBrace isStep =>
    rw [isStep] at pushed
    cases pushed
    exact .holeOpen marks isBrace isStep
  | text isText isNext inert whole =>
    simp only [Reader.push, isText, Except.ok.injEq] at pushed
    subst pushed
    exact .text isText isNext inert whole
  | stray isStray _ => simp [Reader.push, isStray] at pushed

/-- All that a lexeme does to a reader in step with the scanner. -/
theorem Reader.pushed_of_push
    (inStep : reader.inStep state)
    (pushed : reader.push source (state.lexeme offset first rest) = .ok next) :
    Pushed source offset first rest (step state first rest) state reader next := by
  cases state with
  | code nest slash =>
    cases reader with
    | code current => exact pushed_in_code pushed
    | text => exact inStep.elim
  | template nest =>
    cases reader with
    | code => exact inStep.elim
    | text => exact pushed_in_text pushed

/-- A lexeme keeps the reader in step. -/
theorem Reader.Pushed.inStep
    {taken : Step}
    (pushed : Pushed source offset first rest taken state reader next)
    (inStep : reader.inStep state) :
    next.inStep taken.next := by
  cases pushed with
  | trivia _ isNext =>
    rw [isNext]
    exact inStep
  | atom _ isNext sameDepth =>
    rw [isNext]
    simpa [Reader.inStep, sameDepth] using inStep
  | templateOpen _ isStep =>
    rw [isStep]
    exact inStep
  | holeClose _ isStep =>
    rw [isStep]
    simpa [Reader.inStep, OpenCode.depth, Nest.depth] using inStep
  | templateClose _ isStep =>
    rw [isStep]
    simpa [Reader.inStep] using inStep
  | holeOpen _ _ isStep =>
    rw [isStep]
    simpa [Reader.inStep, OpenCode.depth, Nest.depth] using inStep
  | text _ isNext =>
    rw [isNext]
    exact inStep

/-- What a lexeme takes is the slice of the source that it ends, and leaves the
rest. -/
theorem slice_taken (isRest : source.drop offset = first :: rest) (tail : Nat) :
    Text.slice source offset (offset + (first :: rest.take tail).length) =
        first :: rest.take tail ∧
      source.drop (offset + (first :: rest.take tail).length) = rest.drop tail := by
  constructor
  · rw [Text.slice_eq_take_drop, Nat.add_sub_cancel_left, isRest]
    simp
  · rw [← List.drop_drop, isRest]
    simp

end Push

/-! ## All lexemes -/

section Run

variable
  {source : List Char}
  {invariant : State → Nat → Reader → Prop}
  (keeps : ∀ {state : State} {offset : Nat} {first : Char} {rest : List Char}
    {reader next : Reader},
    source.drop offset = first :: rest →
    Comes .initial source state (first :: rest) →
    invariant state offset reader →
    Reader.Pushed source offset first rest (step state first rest) state reader next →
    invariant (step state first rest).next
      (offset + (first :: rest.take (step state first rest).tail).length) next)

include keeps

private theorem Reader.exists_of_foldlM
    {state : State}
    {start : Nat}
    {text : List Char}
    {reader last : Reader}
    (isRest : source.drop start = text)
    (inside : start ≤ source.length)
    (comes : Comes .initial source state text)
    (inStep : reader.inStep state)
    (holds : invariant state start reader)
    (run : (scanFrom state start text).foldlM (Reader.push source) reader = .ok last) :
    ∃ final, invariant final source.length last := by
  fun_induction Lexeme.scanFrom state start text generalizing reader with
  | case1 state start =>
    have atEnd : start = source.length := by
      have := List.drop_eq_nil_iff.mp isRest
      omega
    simp only [List.foldlM_nil, pure, Except.pure, Except.ok.injEq] at run
    rw [← run, ← atEnd]
    exact ⟨state, holds⟩
  | case2 state start first rest taken lexeme =>
    rename_i inductionHypothesis
    rw [List.foldlM_cons] at run
    obtain ⟨next, isNext, run⟩ := exists_of_bind_ok run
    have pushed := Reader.pushed_of_push inStep isNext
    have nextHolds := keeps isRest comes holds pushed
    have isStop : lexeme.stop = start + (first :: rest.take taken.tail).length := by
      simp only [Lexeme.stop, lexeme, String.length_ofList]
    have isTail := (slice_taken isRest taken.tail).2
    refine inductionHypothesis (by rw [isStop, isTail]) ?_ comes.next (pushed.inStep inStep)
      (by rw [isStop]; exact nextHolds) run
    have length := congrArg List.length isRest
    simp only [List.length_drop, List.length_cons] at length
    rw [isStop]
    simp only [List.length_cons, List.length_take]
    omega

end Run

/-- A reader that ends well has collected the tokens of a module. -/
theorem Reader.eq_of_finish
    {reader : Reader}
    {tokens : List Token}
    (finished : reader.finish = .ok tokens) :
    reader = .code (.module tokens.reverse) := by
  unfold Reader.finish at finished
  split at finished
  · cases finished
    rw [List.reverse_reverse]
  · simp at finished
  · simp at finished

/-- What holds of the empty reader and is kept by every lexeme holds of the tokens
of a text. -/
theorem exists_of_readAll
    {source : String}
    {tokens : List Token}
    (invariant : State → Nat → Reader → Prop)
    (read : readAll source = .ok tokens)
    (begins : invariant .initial 0 (.code (.module [])))
    (keeps : ∀ {state : State} {offset : Nat} {first : Char} {rest : List Char}
      {reader next : Reader},
      source.toList.drop offset = first :: rest →
      Comes .initial source.toList state (first :: rest) →
      invariant state offset reader →
      Reader.Pushed source.toList offset first rest (step state first rest) state reader next →
      invariant (step state first rest).next
        (offset + (first :: rest.take (step state first rest).tail).length) next) :
    ∃ final, invariant final source.length (.code (.module tokens.reverse)) := by
  obtain ⟨last, run, finished⟩ := exists_of_bind_ok read
  have inStep : Reader.inStep .initial (.code (.module [])) := rfl
  rw [← Reader.eq_of_finish finished, ← String.length_toList]
  exact Reader.exists_of_foldlM keeps List.drop_zero (Nat.zero_le _) .here inStep begins run

end Restyle.Token
