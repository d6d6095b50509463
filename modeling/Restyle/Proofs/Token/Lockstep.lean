import Restyle.Proofs.Lexeme.Nesting
import Restyle.Proofs.Token.Braces
import Restyle.Proofs.Token.Faults

/-!
Contract: the machine that emits lexemes and the reader that groups them agree.

Owns: `Reader.frames`, the templates that the reader has open; `readLexemes`, the
reader after some lexemes; that at every point of a run the reader has a frame for
each template on the stack and is in text exactly where a template is on top; and
that a text is left unterminated exactly if a template is on the stack at the end.
-/

namespace Restyle.Token

open Lexeme

/-! ## Open templates -/

/-- The open templates around some code, the innermost first. -/
def OpenCode.frames : OpenCode → List OpenTemplate
  | .module _ => []
  | .hole template _ _ _ outer => template :: outer.frames

def Reader.frames : Reader → List OpenTemplate
  | .code current => current.frames
  | .text template _ outer => template :: outer.frames

def Reader.starts (reader : Reader) : List Nat :=
  reader.frames.map (·.start)

/-- Whether a reader is in the text of a template, where no tokens are collected. -/
def Reader.inText : Reader → Bool
  | .code _ => false
  | .text _ _ _ => true

@[simp]
theorem OpenCode.frames_push (token : Token) (current : OpenCode) :
    (current.push token).frames = current.frames := by
  cases current <;> rfl

private theorem OpenCode.outermost_eq (innermost : Nat) (current : OpenCode) :
    current.outermost innermost = (current.frames.map (·.start)).getLast?.getD innermost := by
  induction current generalizing innermost with
  | module tokens => rfl
  | hole template chunk start tokens outer inductionHypothesis =>
    rw [OpenCode.outermost, inductionHypothesis, OpenCode.frames, List.map_cons,
      List.getLast?_cons, Option.getD_some]

/-- A template that is left open is reported where the outermost one begins. -/
theorem Reader.finish_eq_error_iff {reader : Reader} {start : Nat} :
    reader.finish = .error (.problem .unterminatedTemplate start) ↔
      reader.starts.getLast? = some start := by
  cases reader with
  | code current =>
    cases current with
    | module tokens => simp [Reader.finish, Reader.starts, Reader.frames, OpenCode.frames]
    | hole template chunk holeStart tokens outer =>
      simp [Reader.finish, Reader.starts, Reader.frames, OpenCode.frames, OpenCode.outermost_eq,
        List.getLast?_cons]
  | text template chunkStart outer =>
    simp [Reader.finish, Reader.starts, Reader.frames, OpenCode.outermost_eq, List.getLast?_cons]

/-- A lexeme opens and closes the templates of a reader as its kind has it, if no
template is closed where none is open. -/
theorem Reader.starts_push
    {source : List Char}
    {reader next : Reader}
    {lexeme : Lexeme}
    (inText : lexeme.kind = .templateClose → reader.inText)
    (pushed : reader.push source lexeme = .ok next) :
    next.starts = openedBy reader.starts lexeme := by
  cases reader with
  | code current =>
    have noClose : lexeme.kind ≠ .templateClose := by
      intro closes
      simpa [Reader.inText] using inText closes
    rw [openedBy, if_neg noClose]
    cases current <;> cases isKind : lexeme.kind <;>
      simp only [Reader.push, isKind, Except.ok.injEq, reduceCtorEq] at pushed <;>
      subst pushed <;>
      simp [Reader.starts, Reader.frames, OpenCode.frames]
  | text template chunkStart outer =>
    cases isKind : lexeme.kind <;>
      simp only [Reader.push, isKind, Except.ok.injEq, reduceCtorEq] at pushed <;>
      subst pushed <;>
      simp [Reader.starts, Reader.frames, openedBy, isKind, OpenCode.frames]

/-! ## Reading -/

def readLexemes (source : String) (lexemes : List Lexeme) : Except Fault Reader :=
  lexemes.foldlM (Reader.push source.toList) (.code (.module []))

private theorem readLexemes_concat (source : String) (lexemes : List Lexeme) (lexeme : Lexeme) :
    readLexemes source (lexemes ++ [lexeme]) =
      readLexemes source lexemes >>= (·.push source.toList lexeme) := by
  simp [readLexemes]

private theorem inText_of_close
    {state : State}
    {reader : Reader}
    {first : Char}
    {rest : List Char}
    (keeps : reader.Keeps state)
    (closes : (step state first rest).kind = .templateClose) :
    reader.inText := by
  have delimits := step_delimits state first rest
  rw [closes] at delimits
  generalize (step state first rest).next = next at delimits
  cases delimits with
  | plain isPlain => simp [Lexeme.Kind.isDelimiter] at isPlain
  | templateClose =>
    cases keeps with
    | text _ => rfl

/-- What the reader has made of the lexemes at a point of a run: it is where the
scanner is, and all holes that it has finished are balanced.  Else the last lexeme is
a backslash that ends the source in a template, and the reader has failed. -/
theorem reads_of_reached
    {source : String}
    {lexemes : List Lexeme}
    {state : State}
    {offset : Nat}
    {rest : List Char}
    (reached : Reached source.toList lexemes state offset rest) :
    (∃ reader, readLexemes source lexemes = .ok reader ∧ reader.Keeps state ∧
        reader.starts = openStarts lexemes ∧
        ∀ hole ∈ reader.completed, BracesBalanced hole.tokens) ∨
      (readLexemes source lexemes = .error .strayInTemplate ∧ rest = [] ∧
        ∃ before nest last, state = .template nest ∧
          Reached source.toList before (.template nest) last ['\\'] ∧
          lexemes = before ++ [⟨.stray, "\\", last⟩]) := by
  induction reached with
  | start =>
    refine .inl ⟨_, rfl, .code .module, rfl, ?_⟩
    simp [Reader.completed, OpenCode.completed, holesIn]
  | relax _ _ inductionHypothesis =>
    rcases inductionHypothesis with
      ⟨reader, read, keeps, isStarts, balanced⟩ | ⟨_, _, _, _, _, isState, _⟩
    · cases keeps with
      | code keeps => exact .inl ⟨_, read, .code keeps, isStarts, balanced⟩
    · simp at isState
  | @step lexemes state offset first rest reached inductionHypothesis =>
    rcases inductionHypothesis with ⟨reader, read, keeps, isStarts, balanced⟩ | ⟨_, isEnd, _⟩
    · rw [readLexemes_concat, read]
      rcases Reader.push_cases keeps.inStep source.toList offset first rest with
        ⟨⟨nest, isState, isText⟩, fails⟩ | ⟨_, next, pushed, _⟩
      · obtain ⟨rfl, rfl⟩ := List.cons.inj isText
        subst isState
        exact .inr ⟨fails, rfl, lexemes, nest, offset, rfl, reached, rfl⟩
      · obtain ⟨nextKeeps, completed⟩ := keeps.push pushed
        refine .inl ⟨next, pushed, nextKeeps, ?_, ?_⟩
        · rw [openStarts_concat, ← isStarts]
          exact Reader.starts_push (inText_of_close keeps) pushed
        · intro hole isHole
          exact (completed hole isHole).elim (balanced hole) id
    · simp at isEnd

/-- Reading has no other problem than a template that is not terminated, which it
reports where the outermost one begins. -/
theorem outermost_of_readAll
    {source : String}
    {problem : Problem}
    {start : Nat}
    (refused : readAll source = .error (.problem problem start)) :
    problem = .unterminatedTemplate ∧
      ∃ opening, OutermostUnclosed (scan source) opening ∧ opening.start = start := by
  obtain ⟨final, run, halted⟩ := Machine.exists_halted .initial 0 source.toList
  obtain ⟨state, offset, rest, rfl, reached⟩ := exists_reached run
  have isRead : readAll source = readLexemes source (scan source) >>= Reader.finish := rfl
  rw [isRead] at refused
  rcases reads_of_reached reached with ⟨reader, read, _, isStarts, _⟩ | ⟨fails, _⟩
  · have ends : reader.finish = .error (.problem problem start) := by
      have read : readLexemes source (scan source) = .ok reader := read
      rw [read] at refused
      exact refused
    have isProblem : problem = .unterminatedTemplate := by
      unfold Reader.finish at ends
      split at ends
      · simp at ends
      · exact (Fault.problem.inj (Except.error.inj ends)).1.symm
      · exact (Fault.problem.inj (Except.error.inj ends)).1.symm
    rw [isProblem, Reader.finish_eq_error_iff, isStarts] at ends
    obtain ⟨before, opening, after, isScan, opens, isStart, nested, stays⟩ :=
      reached.exists_outermost ends
    exact ⟨isProblem, opening, ⟨before, after, isScan, opens, nested, stays.not_closed⟩, isStart⟩
  · have fails : readLexemes source (scan source) = .error .strayInTemplate := fails
    rw [fails] at refused
    simp [bind, Except.bind] at refused

/-! ## Lockstep -/

private theorem Reader.Keeps.inText_iff
    {state : State}
    {reader : Reader}
    (keeps : reader.Keeps state) :
    reader.inText ↔ state.stack.top = .template := by
  rw [top_eq_template_iff]
  cases keeps with
  | code _ => simp [Reader.inText]
  | text _ => simp [Reader.inText]

/-- No run meets a backslash in a template for which there is no rule. -/
def MeetsNoStray (source : String) : Prop :=
  ∀ lexemes machine rest, Machine.Runs (.start source.toList) lexemes machine →
    machine.stack.top = .template → machine.move? ≠ some (.stray rest)

/-- The machine's stack and the reader's frames agree at every point of a run.  The
stack has its shape, what delimits templates and holes can be completed to be
well-nested, and, unless a backslash ends the source in a template, the reader has a
frame for each template on the stack, is in text exactly where a template is on top,
and all holes that it has finished have their braces balanced.

Hence, if there is no such backslash, a template is reported as unterminated exactly
if there is one on the stack at the end, at the start of the outermost that is not
closed. -/
theorem machine_and_reader_agree (source : String) :
    (∀ lexemes machine, Machine.Runs (.start source.toList) lexemes machine →
      machine.stack.Shaped ∧
      (∃ more, WellNested .code (delimiters lexemes ++ more)) ∧
      ((∃ reader, readLexemes source lexemes = .ok reader ∧
          reader.frames.length = machine.stack.modes.count .template ∧
          (reader.inText ↔ machine.stack.top = .template) ∧
          ∀ hole ∈ reader.completed, BracesBalanced hole.tokens) ∨
        (readLexemes source lexemes = .error .strayInTemplate ∧ machine.rest = [] ∧
          ∃ before previous, Machine.Runs (.start source.toList) before previous ∧
            previous.stack.top = .template ∧ previous.rest = ['\\'] ∧
            lexemes = before ++ [⟨.stray, "\\", previous.offset⟩]))) ∧
    (MeetsNoStray source →
      ∀ lexemes final, Machine.Runs (.start source.toList) lexemes final → final.Halted →
        ((∃ start, readAll source = .error (.problem .unterminatedTemplate start)) ↔
          .template ∈ final.stack.modes) ∧
        ∀ start, readAll source = .error (.problem .unterminatedTemplate start) →
          ∃ opening, OutermostUnclosed lexemes opening ∧ opening.start = start) := by
  constructor
  · intro lexemes machine run
    obtain ⟨state, offset, rest, rfl, reached⟩ := exists_reached run
    refine ⟨shaped_of_state state, reached.unfinished.exists_wellNested, ?_⟩
    rcases reads_of_reached reached with
      ⟨reader, read, keeps, isStarts, balanced⟩ |
      ⟨fails, isEnd, before, nest, last, _, earlier, isLast⟩
    · refine .inl ⟨reader, read, ?_, keeps.inText_iff, balanced⟩
      show reader.frames.length = state.stack.modes.count .template
      rw [count_template, ← reached.length_openStarts, ← isStarts, Reader.starts, List.length_map]
    · exact .inr ⟨fails, isEnd, before, _, earlier.runs, rfl, rfl, isLast⟩
  · intro noStray lexemes final run halted
    obtain ⟨state, offset, rest, rfl, reached⟩ := exists_reached run
    obtain rfl : lexemes = scan source := reached.eq_scan_of_halted halted
    rcases reads_of_reached reached with
      ⟨reader, read, keeps, isStarts, _⟩ | ⟨_, _, before, nest, last, _, earlier, _⟩
    · have isRead : readAll source = reader.finish := by
        show readLexemes source (scan source) >>= Reader.finish = _
        rw [read]
        rfl
      rw [isRead]
      simp only [Reader.finish_eq_error_iff, isStarts]
      refine ⟨?_, ?_⟩
      · show _ ↔ .template ∈ state.stack.modes
        rw [← List.count_pos_iff, count_template, ← reached.length_openStarts, List.length_pos_iff,
          ← Option.isSome_iff_exists, List.getLast?_isSome]
      · intro start isLast
        obtain ⟨front, opening, after, isScan, opens, isStart, nested, stays⟩ :=
          reached.exists_outermost isLast
        exact ⟨opening, ⟨front, after, isScan, opens, nested, stays.not_closed⟩, isStart⟩
    · exact absurd rfl (noStray before _ [] earlier.runs rfl)

private theorem meetsNoStray_of_getLast?
    {source : String}
    (ends : source.toList.getLast? ≠ some '\\') :
    MeetsNoStray source := by
  intro lexemes machine rest run isTemplate moves
  obtain ⟨state, offset, left, rfl, reached⟩ := exists_reached run
  have isLeft : left = ['\\'] := (Machine.of_move? moves).2 rest isTemplate rfl
  apply ends
  rw [← reached.spelled, isLeft, List.getLast?_concat]

/-- Of a template left open in the hole of another, the outer one is reported. -/
theorem nested_templates_are_unterminated :
    MeetsNoStray "`$\x7b`" ∧
      readAll "`$\x7b`" = .error (.problem .unterminatedTemplate 0) := by
  have noStray : MeetsNoStray "`$\x7b`" := meetsNoStray_of_getLast? (by decide)
  have opened : Machine.Runs (.start "`$\x7b`".toList) [⟨.templateOpen, "`", 0⟩]
      ⟨⟨.template, [.module]⟩, 1, "$\x7b`".toList⟩ :=
    .single
      (show _ = some (.rule ⟨some .templateOpen, .push [.template], "$\x7b`".toList⟩) from rfl)
  have entered : Machine.Runs ⟨⟨.template, [.module]⟩, 1, "$\x7b`".toList⟩
      [⟨.holeOpen, "$\x7b", 1⟩]
      ⟨⟨.slash, [.hole, .template, .module]⟩, 3, "`".toList⟩ :=
    .single (show _ = some (.rule ⟨some .holeOpen, .push [.hole, .slash], "`".toList⟩) from rfl)
  have relaxed : Machine.Runs ⟨⟨.slash, [.hole, .template, .module]⟩, 3, "`".toList⟩ []
      ⟨⟨.hole, [.template, .module]⟩, 3, "`".toList⟩ :=
    .single (show _ = some (.rule ⟨none, .pop, "`".toList⟩) from rfl)
  have reopened : Machine.Runs ⟨⟨.hole, [.template, .module]⟩, 3, "`".toList⟩
      [⟨.templateOpen, "`", 3⟩] ⟨⟨.template, [.hole, .template, .module]⟩, 4, []⟩ :=
    .single (show _ = some (.rule ⟨some .templateOpen, .push [.template], []⟩) from rfl)
  have agree := (machine_and_reader_agree _).2 noStray _ _
    (opened.trans (entered.trans (relaxed.trans reopened))) rfl
  refine ⟨noStray, ?_⟩
  obtain ⟨start, fails⟩ := agree.1.mpr (by decide)
  obtain ⟨opening, ⟨before, after, isScan, opens, nested, _⟩, isStart⟩ := agree.2 start fails
  -- The second mark has the first one open before it.
  cases before with
  | nil =>
    obtain ⟨rfl, _⟩ := List.cons.inj isScan
    rw [fails, ← isStart]
  | cons first before =>
    obtain ⟨isFirst, later⟩ := List.cons.inj isScan
    cases before with
    | nil =>
      rw [← (List.cons.inj later).1] at opens
      simp at opens
    | cons second before =>
      obtain ⟨isSecond, later⟩ := List.cons.inj later
      cases before with
      | nil =>
        rw [← isFirst, ← isSecond] at nested
        exact absurd nested.count (by decide)
      | cons third before => simpa using (List.cons.inj later).2

end Restyle.Token
