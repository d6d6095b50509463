import Restyle.Proofs.Lexeme.Machine
import Restyle.Proofs.Template.Inert

/-!
Contract: how templates and their holes are nested, in the stack and in what is emitted.

Owns: `Stack.Shaped`, the stacks that the machine can have; `WellNested`, the
sequences of delimiters in which every template and every hole is closed; that the
delimiters emitted at any point can be completed to such a sequence; and
`OutermostUnclosed`, the template that is to blame for what is left open.
-/

namespace Restyle.Lexeme

/-! ## The shape of the stack -/

/-- From the bottom up a stack is the module, then for each hole its template, the
hole and the braces open in it, and then at most one mode more: the text of a
template, or code where a slash opens a pattern. -/
def Stack.Shaped (stack : Stack) : Prop :=
  ∃ (holes : List Nat) (last : List Mode),
    (last = [] ∨ last = [.template] ∨ last = [.slash]) ∧
      stack.modes.reverse =
        .module ::
          holes.flatMap (fun braces => .template :: .hole :: .replicate braces .brace) ++ last

private theorem modes_repeat_enter (braces : Nat) (stack : Stack) :
    (Nat.repeat (·.enter .brace) braces stack).modes =
      List.replicate braces .brace ++ stack.modes := by
  induction braces with
  | zero => rfl
  | succ braces inductionHypothesis =>
    rw [List.replicate_succ, List.cons_append, ← inductionHypothesis]
    rfl

private theorem modes_hole (braces : Nat) (outer : Nest) :
    (Nest.hole braces outer).stack.modes =
      List.replicate braces .brace ++ .hole :: .template :: outer.stack.modes :=
  modes_repeat_enter braces _

/-- The braces open in each hole around some code, the outermost hole first. -/
def Nest.braces : Nest → List Nat
  | .module => []
  | .hole braces outer => outer.braces ++ [braces]

private theorem modes_reverse_nest (nest : Nest) :
    nest.stack.modes.reverse =
      .module ::
        nest.braces.flatMap fun braces => .template :: .hole :: .replicate braces .brace := by
  induction nest with
  | module => rfl
  | hole braces outer inductionHypothesis =>
    rw [modes_hole, List.reverse_append, List.reverse_cons, List.reverse_cons, inductionHypothesis]
    simp [Nest.braces]

theorem shaped_of_state (state : State) : state.stack.Shaped := by
  cases state with
  | code nest slash =>
    cases slash with
    | divides =>
      refine ⟨nest.braces, [], .inl rfl, ?_⟩
      rw [List.append_nil]
      exact modes_reverse_nest nest
    | opensPattern =>
      refine ⟨nest.braces, [.slash], .inr (.inr rfl), ?_⟩
      rw [← modes_reverse_nest]
      exact List.reverse_cons
  | template nest =>
    refine ⟨nest.braces, [.template], .inr (.inl rfl), ?_⟩
    rw [← modes_reverse_nest]
    exact List.reverse_cons

/-! ## Open templates -/

/-- Where delimiters stand: in code, where templates open, or in the text of a
template, where holes open. -/
inductive Level where
  | code
  | text

def Level.templates (holes : Nat) : Level → Nat
  | .code => holes
  | .text => holes + 1

def State.level : State → Level
  | .code _ _ => .code
  | .template _ => .text

/-- The number of holes around a state. -/
def State.holes : State → Nat
  | .code nest _ | .template nest => nest.depth

def State.templates (state : State) : Nat :=
  state.level.templates state.holes

private theorem count_template_nest
    (nest : Nest) :
    nest.stack.modes.count .template = nest.depth := by
  induction nest with
  | module => rfl
  | hole braces outer inductionHypothesis =>
    rw [modes_hole, List.count_append, List.count_replicate]
    simp [inductionHypothesis, Nest.depth]

/-- The stack holds a mode for each template that is open. -/
theorem count_template (state : State) : state.stack.modes.count .template = state.templates := by
  cases state with
  | code nest slash =>
    cases slash with
    | divides => exact count_template_nest nest
    | opensPattern =>
      have isCount : (nest.stack.enter .slash).modes.count .template =
          nest.stack.modes.count .template := List.count_cons_of_ne (by simp [Stack.enter])
      exact isCount.trans (count_template_nest nest)
  | template nest =>
    exact List.count_cons_self.trans (congrArg (· + 1) (count_template_nest nest))

theorem top_eq_template_iff (state : State) :
    state.stack.top = .template ↔ ∃ nest, state = .template nest := by
  cases state with
  | code nest slash =>
    cases slash with
    | divides =>
      have notTemplate : (State.code nest .divides).stack.top ≠ .template := (top_of_nest nest).1
      simp [notTemplate]
    | opensPattern => simp [State.stack, Stack.enter]
  | template nest => simp [State.stack, Stack.enter]

/-! ## Delimiters -/

def Kind.isDelimiter : Kind → Bool
  | .templateOpen | .templateClose | .holeOpen | .holeClose => true
  | _ => false

/-- The delimiters among some lexemes. -/
def delimiters (lexemes : List Lexeme) : List Kind :=
  (lexemes.map (·.kind)).filter Kind.isDelimiter

/-- Delimiters of which each is closed, as the level has it. -/
inductive WellNested : Level → List Kind → Prop where
  | nil {level : Level} : WellNested level []
  | template {inner rest : List Kind} (inside : WellNested .text inner)
      (after : WellNested .code rest) :
      WellNested .code (.templateOpen :: (inner ++ .templateClose :: rest))
  | hole {inner rest : List Kind} (inside : WellNested .code inner)
      (after : WellNested .text rest) :
      WellNested .text (.holeOpen :: (inner ++ .holeClose :: rest))

theorem WellNested.append
    {level : Level}
    {left right : List Kind}
    (nested : WellNested level left)
    (others : WellNested level right) :
    WellNested level (left ++ right) := by
  induction nested with
  | nil => exact others
  | template inside _ _ inductionHypothesis =>
    simpa using WellNested.template inside (inductionHypothesis others)
  | hole inside _ _ inductionHypothesis =>
    simpa using WellNested.hole inside (inductionHypothesis others)

/-- As many templates are closed as are opened. -/
theorem WellNested.count
    {level : Level}
    {kinds : List Kind}
    (nested : WellNested level kinds) :
    kinds.count .templateOpen = kinds.count .templateClose := by
  induction nested with
  | nil => rfl
  | template _ _ insideHypothesis afterHypothesis =>
    simp [insideHypothesis, afterHypothesis]
    omega
  | hole _ _ insideHypothesis afterHypothesis =>
    simp [insideHypothesis, afterHypothesis]

/-- Delimiters up to a level in some holes: at each level that is still open there are
well-nested ones, and then the one that opens the next level. -/
inductive Unfinished : Level → Nat → List Kind → Prop where
  | module {own : List Kind} (nested : WellNested .code own) : Unfinished .code 0 own
  | template {holes : Nat} {before own : List Kind} (outside : Unfinished .code holes before)
      (nested : WellNested .text own) :
      Unfinished .text holes (before ++ .templateOpen :: own)
  | hole {holes : Nat} {before own : List Kind} (outside : Unfinished .text holes before)
      (nested : WellNested .code own) :
      Unfinished .code (holes + 1) (before ++ .holeOpen :: own)

namespace Unfinished

variable {level : Level} {holes : Nat} {kinds : List Kind}

theorem append
    {more : List Kind}
    (unfinished : Unfinished level holes kinds)
    (nested : WellNested level more) :
    Unfinished level holes (kinds ++ more) := by
  cases unfinished with
  | module own => exact .module (own.append nested)
  | template outside own => simpa using Unfinished.template outside (own.append nested)
  | hole outside own => simpa using Unfinished.hole outside (own.append nested)

private theorem closeTemplate (unfinished : Unfinished .text holes kinds) :
    Unfinished .code holes (kinds ++ [.templateClose]) := by
  cases unfinished with
  | template outside own => simpa using outside.append (.template own .nil)

private theorem closeHole (unfinished : Unfinished .code (holes + 1) kinds) :
    Unfinished .text holes (kinds ++ [.holeClose]) := by
  cases unfinished with
  | hole outside own => simpa using outside.append (.hole own .nil)

/-- What is open can be closed. -/
theorem exists_wellNested_code (unfinished : Unfinished .code holes kinds) :
    ∃ more, WellNested .code (kinds ++ more) := by
  induction holes generalizing kinds with
  | zero =>
    cases unfinished with
    | module nested => exact ⟨[], by simpa using nested⟩
  | succ holes inductionHypothesis =>
    obtain ⟨more, nested⟩ := inductionHypothesis unfinished.closeHole.closeTemplate
    exact ⟨.holeClose :: .templateClose :: more, by simpa using nested⟩

theorem exists_wellNested (unfinished : Unfinished level holes kinds) :
    ∃ more, WellNested .code (kinds ++ more) := by
  cases level with
  | code => exact unfinished.exists_wellNested_code
  | text =>
    obtain ⟨more, nested⟩ := unfinished.closeTemplate.exists_wellNested_code
    exact ⟨.templateClose :: more, by simpa using nested⟩

end Unfinished

/-! ## Delimiters of a run -/

/-- What a step does to the nesting, told from its lexeme. -/
inductive Delimits : State → Kind → State → Prop where
  | plain {state next : State} {kind : Kind} (isPlain : kind.isDelimiter = false)
      (level : next.level = state.level) (holes : next.holes = state.holes) :
      Delimits state kind next
  | templateOpen {nest : Nest} {slash : Slash} :
      Delimits (.code nest slash) .templateOpen (.template nest)
  | templateClose {nest : Nest} {slash : Slash} :
      Delimits (.template nest) .templateClose (.code nest slash)
  | holeOpen {nest : Nest} {slash : Slash} :
      Delimits (.template nest) .holeOpen (.code (.hole 0 nest) slash)
  | holeClose {outer : Nest} {slash : Slash} :
      Delimits (.code (.hole 0 outer) slash) .holeClose (.template outer)

theorem step_delimits (state : State) (first : Char) (rest : List Char) :
    Delimits state (step state first rest).kind (step state first rest).next := by
  cases state with
  | code nest slash =>
    show Delimits _ (codeStep nest slash first rest).kind (codeStep nest slash first rest).next
    cases (codeStep_spec nest slash first rest).effect with
    | trivia kind isNext =>
      refine .plain ?_ (by rw [isNext]; rfl) (by rw [isNext]; rfl)
      cases isKind : (codeStep nest slash first rest).kind <;>
        simp_all [Kind.isTrivia, Kind.isDelimiter]
    | atom kind _ isNext depth =>
      refine .plain ?_ (by rw [isNext]; rfl) (by rw [isNext]; exact depth)
      cases isKind : (codeStep nest slash first rest).kind <;>
        simp_all [Kind.isAtom, Kind.isDelimiter]
    | templateOpen _ isStep =>
      rw [isStep]
      exact .templateOpen
    | holeClose isNest _ isStep =>
      rw [isStep, isNest]
      exact .holeClose
  | template nest =>
    show Delimits _ (templateStep nest first rest).kind (templateStep nest first rest).next
    cases Template.templateStep_effect nest first rest with
    | close _ isStep =>
      rw [isStep]
      exact .templateClose
    | holeOpen _ _ isStep =>
      rw [isStep]
      exact .holeOpen
    | text kind isNext _ _ =>
      rw [kind, isNext]
      exact .plain rfl rfl rfl
    | stray kind isNext =>
      rw [kind, isNext]
      exact .plain rfl rfl rfl

private theorem delimiters_concat (lexemes : List Lexeme) (lexeme : Lexeme) :
    delimiters (lexemes ++ [lexeme]) =
      delimiters lexemes ++ if lexeme.kind.isDelimiter then [lexeme.kind] else [] := by
  cases isDelimiter : lexeme.kind.isDelimiter <;> simp [delimiters, isDelimiter]

theorem Unfinished.step
    {state next : State}
    {kind : Kind}
    {kinds : List Kind}
    (unfinished : Unfinished state.level state.holes kinds)
    (delimits : Delimits state kind next) :
    Unfinished next.level next.holes (kinds ++ if kind.isDelimiter then [kind] else []) := by
  cases delimits with
  | plain isPlain level holes =>
    rw [level, holes, isPlain]
    simpa using unfinished
  | templateOpen => exact .template unfinished .nil
  | templateClose => exact unfinished.closeTemplate
  | holeOpen => exact .hole unfinished .nil
  | holeClose => exact unfinished.closeHole

/-- The delimiters that have been taken are unfinished where the scanner is in a
template or in a hole. -/
theorem Reached.unfinished
    {text : List Char}
    {lexemes : List Lexeme}
    {state : State}
    {offset : Nat}
    {rest : List Char}
    (reached : Reached text lexemes state offset rest) :
    Unfinished state.level state.holes (delimiters lexemes) := by
  induction reached with
  | start => exact .module .nil
  | relax _ _ inductionHypothesis => exact inductionHypothesis
  | @step lexemes state offset first rest _ inductionHypothesis =>
    rw [delimiters_concat]
    exact inductionHypothesis.step (step_delimits state first rest)

/-! ## What is left open -/

/-- The templates opened and not closed up to a level in some holes. -/
theorem Unfinished.count
    {level : Level}
    {holes : Nat}
    {kinds : List Kind}
    (unfinished : Unfinished level holes kinds) :
    kinds.count .templateOpen = kinds.count .templateClose + level.templates holes := by
  induction unfinished with
  | module nested => exact nested.count
  | template _ nested inductionHypothesis =>
    simp [nested.count, inductionHypothesis, Level.templates]
    omega
  | hole _ nested inductionHypothesis =>
    simp [nested.count, inductionHypothesis, Level.templates]
    omega

theorem Reached.count
    {text : List Char}
    {lexemes : List Lexeme}
    {state : State}
    {offset : Nat}
    {rest : List Char}
    (reached : Reached text lexemes state offset rest) :
    (delimiters lexemes).count .templateOpen =
      (delimiters lexemes).count .templateClose + state.templates :=
  reached.unfinished.count

/-- A template is closed in what follows its opening mark. -/
def Closed (after : List Lexeme) : Prop :=
  ∃ inner closing later, after = inner ++ closing :: later ∧
    WellNested .text (delimiters inner) ∧ closing.kind = .templateClose

/-- The opening mark of a template that is not closed, while all templates before it
are. -/
def OutermostUnclosed (lexemes : List Lexeme) (opening : Lexeme) : Prop :=
  ∃ before after, lexemes = before ++ opening :: after ∧ opening.kind = .templateOpen ∧
    WellNested .code (delimiters before) ∧ ¬ Closed after

/-- Nowhere after an opening mark have more templates been closed than opened. -/
def StaysOpen (after : List Lexeme) : Prop :=
  ∀ inner, inner <+: after →
    (delimiters inner).count .templateClose ≤ (delimiters inner).count .templateOpen

theorem StaysOpen.not_closed {after : List Lexeme} (stays : StaysOpen after) : ¬ Closed after := by
  rintro ⟨inner, closing, later, rfl, nested, closes⟩
  have bound := stays (inner ++ [closing]) ⟨later, by simp⟩
  rw [delimiters_concat, closes] at bound
  have even := nested.count
  simp [Kind.isDelimiter] at bound
  omega

/-- The starts of the open templates after a lexeme, the innermost first. -/
def openedBy (starts : List Nat) (lexeme : Lexeme) : List Nat :=
  if lexeme.kind = .templateOpen then lexeme.start :: starts
  else if lexeme.kind = .templateClose then starts.tail
  else starts

/-- The starts of the templates that some lexemes leave open, the innermost first. -/
def openStarts (lexemes : List Lexeme) : List Nat :=
  lexemes.foldl openedBy []

theorem openStarts_concat (lexemes : List Lexeme) (lexeme : Lexeme) :
    openStarts (lexemes ++ [lexeme]) = openedBy (openStarts lexemes) lexeme := by
  rw [openStarts, List.foldl_concat]
  rfl

private theorem length_openedBy
    {starts : List Nat}
    {state next : State}
    {lexeme : Lexeme}
    (length : starts.length = state.templates)
    (delimits : Delimits state lexeme.kind next) :
    (openedBy starts lexeme).length = next.templates := by
  unfold openedBy
  generalize lexeme.kind = kind at delimits ⊢
  cases delimits with
  | plain isPlain level holes =>
    have opens : kind ≠ .templateOpen := by
      rintro rfl
      simp [Kind.isDelimiter] at isPlain
    have closes : kind ≠ .templateClose := by
      rintro rfl
      simp [Kind.isDelimiter] at isPlain
    rw [if_neg opens, if_neg closes, length, State.templates, State.templates, level, holes]
  | templateOpen => exact congrArg (· + 1) length
  | templateClose => simp [length, State.templates, State.level, State.holes, Level.templates]
  | holeOpen => exact length
  | holeClose => exact length

section Open

variable {text : List Char} {lexemes : List Lexeme} {state : State} {offset : Nat}
  {rest : List Char}

theorem Reached.length_openStarts (reached : Reached text lexemes state offset rest) :
    (openStarts lexemes).length = state.templates := by
  induction reached with
  | start => rfl
  | relax _ _ inductionHypothesis => exact inductionHypothesis
  | step _ inductionHypothesis =>
    rw [openStarts_concat]
    exact length_openedBy inductionHypothesis (step_delimits _ _ _)

private theorem Reached.wellNested
    (reached : Reached text lexemes state offset rest)
    (noneOpen : openStarts lexemes = []) :
    WellNested .code (delimiters lexemes) := by
  have none := reached.length_openStarts
  have unfinished := reached.unfinished
  rw [noneOpen, State.templates] at none
  generalize state.level = level, state.holes = holes, delimiters lexemes = kinds
    at none unfinished ⊢
  cases unfinished with
  | module nested => exact nested
  | template outside nested => simp [Level.templates] at none
  | hole outside nested => simp [Level.templates] at none

private theorem getLast?_of_openedBy
    {starts : List Nat}
    {lexeme : Lexeme}
    {start : Nat}
    (nonempty : starts ≠ [])
    (isLast : (openedBy starts lexeme).getLast? = some start) :
    starts.getLast? = some start := by
  obtain ⟨innermost, outer, rfl⟩ := List.exists_cons_of_ne_nil nonempty
  unfold openedBy at isLast
  by_cases opens : lexeme.kind = .templateOpen
  · rwa [if_pos opens, List.getLast?_cons_cons] at isLast
  rw [if_neg opens] at isLast
  by_cases closes : lexeme.kind = .templateClose
  · rw [if_pos closes, List.tail_cons] at isLast
    rw [List.getLast?_cons, isLast]
    rfl
  · rwa [if_neg closes] at isLast

private theorem delimiters_of_opening
    {opening : Lexeme}
    (opens : opening.kind = .templateOpen)
    (before after : List Lexeme) :
    delimiters (before ++ opening :: after) =
      delimiters before ++ .templateOpen :: delimiters after := by
  simp [delimiters, opens, List.filter_cons, Kind.isDelimiter]

theorem StaysOpen.concat
    {before after : List Lexeme}
    {opening lexeme : Lexeme}
    (stays : StaysOpen after)
    (opens : opening.kind = .templateOpen)
    (nested : WellNested .code (delimiters before))
    (reached : Reached text (before ++ opening :: (after ++ [lexeme])) state offset rest)
    (isOpen : 0 < state.templates) :
    StaysOpen (after ++ [lexeme]) := by
  intro inner isPrefix
  rcases List.prefix_concat_iff.mp isPrefix with rfl | earlier
  · -- The mark itself is open, so among those after it one more may be.
    have total := reached.count
    rw [delimiters_of_opening opens, List.count_append, List.count_append, nested.count,
      List.count_cons_self, List.count_cons_of_ne (by simp)] at total
    omega
  · exact stays inner earlier

/-- The outermost of the open templates is the outermost that is not closed. -/
theorem Reached.exists_outermost
    {start : Nat}
    (reached : Reached text lexemes state offset rest)
    (isLast : (openStarts lexemes).getLast? = some start) :
    ∃ before opening after, lexemes = before ++ opening :: after ∧
      opening.kind = .templateOpen ∧ opening.start = start ∧
      WellNested .code (delimiters before) ∧ StaysOpen after := by
  induction reached with
  | start => simp [openStarts] at isLast
  | relax _ _ inductionHypothesis => exact inductionHypothesis isLast
  | @step lexemes state offset first rest reached inductionHypothesis =>
    have isOpen : 0 < (Lexeme.step state first rest).next.templates := by
      rw [← reached.step.length_openStarts, List.length_pos_iff]
      intro isEmpty
      simp [isEmpty] at isLast
    rw [openStarts_concat] at isLast
    by_cases isFirst : openStarts lexemes = []
    · by_cases opens : (state.lexeme offset first rest).kind = .templateOpen
      · rw [isFirst, openedBy, if_pos opens] at isLast
        refine ⟨lexemes, _, [], rfl, opens, Option.some.inj isLast, reached.wellNested isFirst, ?_⟩
        intro inner isPrefix
        rw [List.prefix_nil.mp isPrefix]
        exact Nat.le_refl _
      · rw [isFirst, openedBy, if_neg opens] at isLast
        simp at isLast
    · obtain ⟨before, opening, after, rfl, opens, starts, nested, stays⟩ :=
        inductionHypothesis (getLast?_of_openedBy isFirst isLast)
      have grown := reached.step
      rw [List.append_assoc, List.cons_append] at grown ⊢
      exact ⟨before, opening, _, rfl, opens, starts, nested, stays.concat opens nested grown isOpen⟩

end Open

end Restyle.Lexeme
