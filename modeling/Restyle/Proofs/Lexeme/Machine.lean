import Mathlib.Data.List.Chain
import Restyle.Proofs.Lexeme.Rules
import Restyle.Proofs.Lexeme.Steps

/-!
Contract: the scanner as a machine that tries the rules of the mode on top of a stack.

Owns: `Stack`, the modes entered and not yet left; `Machine` and its moves, by a rule
or by a fallback where no rule matches; `Machine.Runs`, what a run emits; and that
the machine emits the lexemes of `scan`, never falls back to the module at a line
feed, and is lost in a template only at a backslash that ends the text.

A mode may be left without taking a character, so moves do not make the text
shorter.  The machine keeps step with the scanner all the same: it stands in
`State.stack` of the scanner's state, and before a lexeme it makes at most one move
that takes nothing.
-/

namespace Restyle.Lexeme

open Restyle.Text

/-! ## The stack -/

/-- The modes entered and not yet left, of which there is always one. -/
structure Stack where
  top : Mode
  below : List Mode
deriving DecidableEq, Repr

namespace Stack

def modes (stack : Stack) : List Mode :=
  stack.top :: stack.below

def enter (stack : Stack) (mode : Mode) : Stack :=
  ⟨mode, stack.modes⟩

/-- The current mode is left, unless it is the only one. -/
def leave (stack : Stack) : Stack :=
  match stack.below with
  | [] => stack
  | mode :: modes => ⟨mode, modes⟩

def apply (stack : Stack) : Effect → Stack
  | .stay => stack
  | .pop => stack.leave
  | .push modes => modes.foldl enter stack

@[simp]
theorem leave_enter (stack : Stack) (mode : Mode) : (stack.enter mode).leave = stack :=
  rfl

end Stack

/-! ## Moves -/

/-- The machine: its stack, its offset in the text, and what is left of the text. -/
structure Machine where
  stack : Stack
  offset : Nat
  rest : List Char

/-- What the machine does: it applies what a rule found, or takes a character that no
rule of the current mode matches.  At a line feed it then returns to the module. -/
inductive Move where
  | rule (found : Found)
  | reset (rest : List Char)
  | stray (rest : List Char)

def Move.rest : Move → List Char
  | .rule found => found.rest
  | .reset rest | .stray rest => rest

def Move.kind : Move → Option Kind
  | .rule found => found.kind
  | .reset _ => some .blank
  | .stray _ => some .stray

def Move.stack (stack : Stack) : Move → Stack
  | .rule found => stack.apply found.effect
  | .reset _ => ⟨.module, []⟩
  | .stray _ => stack

namespace Machine

def start (text : List Char) : Machine :=
  ⟨⟨.module, []⟩, 0, text⟩

/-- The next move.  There is none at the end of the text where no rule matches. -/
def move? (machine : Machine) : Option Move :=
  match firstMatch? machine.stack.top.rules machine.rest with
  | some found => some (.rule found)
  | none =>
    match machine.rest with
    | [] => none
    | c :: rest => some (if c = '\n' then .reset rest else .stray rest)

private theorem move?_of_match
    {machine : Machine}
    {found : Found}
    (isFound : firstMatch? machine.stack.top.rules machine.rest = some found) :
    machine.move? = some (.rule found) := by
  rw [move?, isFound]

def taken (machine : Machine) (move : Move) : Nat :=
  machine.rest.length - move.rest.length

def emitted (machine : Machine) (move : Move) : List Lexeme :=
  move.kind.toList.map fun kind =>
    ⟨kind, String.ofList (machine.rest.take (machine.taken move)), machine.offset⟩

def after (machine : Machine) (move : Move) : Machine :=
  ⟨move.stack machine.stack, machine.offset + machine.taken move, move.rest⟩

/-- What a run from a machine emits, and the machine that it comes to. -/
inductive Runs (first : Machine) : List Lexeme → Machine → Prop where
  | here : Runs first [] first
  | move {lexemes : List Lexeme} {machine : Machine} {move : Move}
      (run : Runs first lexemes machine)
      (moves : machine.move? = some move) :
      Runs first (lexemes ++ machine.emitted move) (machine.after move)

/-- A machine that has come to its end. -/
def Halted (machine : Machine) : Prop :=
  machine.move? = none

/-- No run from a machine goes on for ever. -/
def Terminates (machine : Machine) : Prop :=
  Acc (fun next previous => ∃ move, previous.move? = some move ∧ previous.after move = next) machine

end Machine

/-! ## The stack of a state -/

/-- The modes around some code. -/
def Nest.stack : Nest → Stack
  | .module => ⟨.module, []⟩
  | .hole braces outer =>
    Nat.repeat (·.enter .brace) braces ((outer.stack.enter .template).enter .hole)

def State.stack : State → Stack
  | .code nest .divides => nest.stack
  | .code nest .opensPattern => nest.stack.enter .slash
  | .template nest => nest.stack.enter .template

/-- The machine in a state of the scanner. -/
def Machine.of (state : State) (offset : Nat) (rest : List Char) : Machine :=
  ⟨state.stack, offset, rest⟩

/-- A move takes what a step of the scanner takes, and comes to where it comes. -/
structure Move.Makes (move : Move) (stack : Stack) (rest : List Char) (taken : Step) : Prop where
  kind : move.kind = some taken.kind
  stack : move.stack stack = taken.next.stack
  rest : move.rest = rest.drop taken.tail

/-- What rules find is what the scanner finds. -/
def Agree (stack : Stack) (rest : List Char) : Option Found → Option Step → Prop :=
  Option.Rel fun found taken => (Move.rule found).Makes stack rest taken

section Agreement

variable {stack : Stack} {rest : List Char}

theorem Agree.or
    {found other : Option Found}
    {taken others : Option Step}
    (agree : Agree stack rest found taken)
    (othersAgree : Agree stack rest other others) :
    Agree stack rest (found.or other) (taken.or others) := by
  cases agree with
  | none => exact othersAgree
  | some makes => exact .some makes

private theorem agree_map
    {form : Type}
    {finds : form → Found}
    {takes : form → Step}
    (found : Option form)
    (makes : ∀ own ∈ found, (Move.rule (finds own)).Makes stack rest (takes own)) :
    Agree stack rest (found.map finds) (found.map takes) := by
  cases found with
  | none => exact .none
  | some own => exact .some (makes own rfl)

private theorem agree_if
    {condition : Prop}
    [Decidable condition]
    {found : Found}
    {taken : Step}
    (makes : (Move.rule found).Makes stack rest taken) :
    Agree stack rest (if condition then some found else none)
      (if condition then some taken else none) := by
  by_cases holds : condition
  · rw [if_pos holds, if_pos holds]
    exact .some makes
  · rw [if_neg holds, if_neg holds]
    exact .none

end Agreement

/-! ## Matches in code -/

section Code

variable (nest : Nest) (slash : Slash) (first : Char) (rest : List Char)

/-- Blanks and comments in code. -/
def triviaStep? : Option Step :=
  (if isBlank first then
      some ⟨.blank, (rest.takeWhile isBlank).length, .code nest slash⟩ else none).or
    ((comment? first rest).map fun found => ⟨found.1, found.2, .code nest slash⟩)

/-- A lexeme in code that is no blank, no comment and no pattern. -/
def plainStep? : Option Step :=
  (if first = '`' then some ⟨.templateOpen, 0, .template nest⟩ else none).or <|
  ((quoted? first rest).map fun found => ⟨found.1, found.2, .code nest .divides⟩).or <|
  ((numberExtent? first rest).map fun tail => ⟨.number, tail, .code nest .divides⟩).or <|
  ((word? first rest).map fun found =>
    ⟨found.1, found.2, .code nest (if found.1 = .keyword then .opensPattern else .divides)⟩).or <|
  ((symbols.find? (·.heads (first :: rest))).map fun symbol =>
    ⟨symbol.kind, symbol.text.length - 1, .code nest symbol.slash⟩).or
  (brace? nest first)

/-- The forms of code are tried one after the other. -/
theorem codeStep_eq :
    codeStep nest slash first rest =
      ((triviaStep? nest slash first rest).or
        (((pattern? slash first rest).map fun tail => ⟨.pattern, tail, .code nest .divides⟩).or
          (plainStep? nest first rest))).getD ⟨.stray, 0, .code nest .divides⟩ := by
  unfold codeStep triviaStep? plainStep?
  by_cases blank : isBlank first
  · simp [blank]
  simp only [blank]
  cases comment? first rest with
  | some found => rfl
  | none =>
    cases pattern? slash first rest with
    | some tail => rfl
    | none =>
      by_cases marks : first = '`'
      · simp [marks]
      simp only [marks]
      cases quoted? first rest with
      | some found => rfl
      | none =>
        cases numberExtent? first rest with
        | some tail => rfl
        | none =>
          cases word? first rest with
          | some found => rfl
          | none =>
            cases symbols.find? (·.heads (first :: rest)) with
            | some symbol => rfl
            | none => cases brace? nest first <;> rfl

private theorem triviaRules_agree :
    Agree (State.code nest slash).stack rest (firstMatch? triviaRules (first :: rest))
      (triviaStep? nest slash first rest) := by
  have makes : ∀ found ∈ comment? first rest,
      (Move.rule ⟨some found.1, .stay, rest.drop found.2⟩).Makes (State.code nest slash).stack rest
        ⟨found.1, found.2, .code nest slash⟩ := fun _ _ => ⟨rfl, rfl, rfl⟩
  rw [firstMatch?_triviaRules, triviaStep?]
  by_cases blank : isBlank first
  · rw [if_pos blank, if_pos blank]
    exact .some ⟨rfl, rfl, rfl⟩
  · rw [if_neg blank, if_neg blank, Option.none_or]
    exact agree_map _ makes

theorem Symbol.makes
    {symbol : Symbol}
    (listed : symbol ∈ symbols) :
    (Move.rule (symbol.found (first :: rest))).Makes nest.stack rest
      ⟨symbol.kind, symbol.text.length - 1, .code nest symbol.slash⟩ := by
  have spelled : symbols.all fun symbol => 0 < symbol.text.length := by decide
  have size : 0 < symbol.text.length := by simpa using List.all_eq_true.mp spelled symbol listed
  refine ⟨rfl, ?_, ?_⟩
  · cases isSlash : symbol.slash <;> simp [Move.stack, Symbol.found, isSlash, Slash.effect] <;> rfl
  · show (first :: rest).drop symbol.text.length = rest.drop (symbol.text.length - 1)
    obtain ⟨more, isSize⟩ := Nat.exists_eq_add_of_lt size
    rw [isSize]
    simp

private theorem braceRules_agree
    {stack : Stack}
    {entered : List Mode}
    {kind : Kind}
    {closing : Effect}
    {opened closed : Step}
    (opens : (Move.rule ⟨some .punctuator, .push entered, rest⟩).Makes stack rest opened)
    (closes : (Move.rule ⟨some kind, closing, rest⟩).Makes stack rest closed) :
    Agree stack rest (firstMatch? (braceRules entered kind closing) (first :: rest))
      (if first = '{' then some opened else if first = '}' then some closed else none) := by
  rw [firstMatch?_braceRules]
  by_cases isOpening : first = '{'
  · rw [if_pos isOpening, if_pos isOpening]
    exact .some opens
  · rw [if_neg isOpening, if_neg isOpening]
    exact agree_if closes

private theorem exists_braceRules :
    ∃ own, nest.stack.top.rules = codeRules ++ own ∧
      Agree nest.stack rest (firstMatch? own (first :: rest)) (brace? nest first) := by
  cases nest with
  | module => exact ⟨_, rfl, braceRules_agree first rest ⟨rfl, rfl, rfl⟩ ⟨rfl, rfl, rfl⟩⟩
  | hole braces outer =>
    cases braces with
    | zero => exact ⟨_, rfl, braceRules_agree first rest ⟨rfl, rfl, rfl⟩ ⟨rfl, rfl, rfl⟩⟩
    | succ braces => exact ⟨_, rfl, braceRules_agree first rest ⟨rfl, rfl, rfl⟩ ⟨rfl, rfl, rfl⟩⟩

private theorem codeRules_agree :
    Agree nest.stack rest (firstMatch? nest.stack.top.rules (first :: rest))
      ((triviaStep? nest .divides first rest).or (plainStep? nest first rest)) := by
  obtain ⟨own, isRules, braces⟩ := exists_braceRules nest first rest
  have words : ∀ found ∈ word? first rest,
      (Move.rule ⟨some found.1, if found.1 = .keyword then .push [.slash] else .stay,
        rest.drop found.2⟩).Makes nest.stack rest
          ⟨found.1, found.2,
            .code nest (if found.1 = .keyword then .opensPattern else .divides)⟩ := by
    intro found _
    by_cases isKeyword : found.1 = .keyword <;> simp only [isKeyword] <;> exact ⟨rfl, rfl, rfl⟩
  rw [isRules, firstMatch?_append, firstMatch?_codeRules]
  simp only [Option.or_assoc]
  refine .or (triviaRules_agree nest .divides first rest) <| .or (agree_if ⟨rfl, rfl, rfl⟩) <|
    .or (agree_map _ fun _ _ => ⟨rfl, rfl, rfl⟩) <| .or (agree_map _ fun _ _ => ⟨rfl, rfl, rfl⟩) <|
    .or (agree_map _ words) <| .or (agree_map _ fun symbol found => ?_) braces
  exact Symbol.makes nest first rest (List.mem_of_find?_eq_some found)

end Code

/-! ## Steps of the machine -/

/-- What the machine can do in a state of the scanner before a text: it takes the
lexeme of the scanner's step by a rule or as a stray character, or, where a slash
would open a pattern and there is none, it is made ready for the step and takes
nothing. -/
inductive Follows (state : State) (first : Char) (rest : List Char) : Move → Prop where
  | rule {found : Found}
      (makes : (Move.rule found).Makes state.stack rest (step state first rest)) :
      Follows state first rest (.rule found)
  | stray (makes : (Move.stray rest).Makes state.stack rest (step state first rest))
      (lone : state.stack.top = .template → first :: rest = ['\\']) :
      Follows state first rest (.stray rest)
  | relaxes {nest : Nest} (isState : state = .code nest .opensPattern)
      (same : step state first rest = step (.code nest .divides) first rest) :
      Follows state first rest (.rule ⟨none, .pop, first :: rest⟩)

section Steps

variable {first : Char} {rest : List Char}

/-- Where the rules find what the scanner finds, the machine follows the scanner, which
stays in its state at a stray character. -/
theorem follows_of_agree
    (state : State)
    {taken : Option Step}
    (agree : Agree state.stack rest (firstMatch? state.stack.top.rules (first :: rest)) taken)
    (isStep : step state first rest = taken.getD ⟨.stray, 0, state⟩)
    (noFeed : taken = none → first ≠ '\n')
    (lone : taken = none → state.stack.top = .template → first :: rest = ['\\'])
    (offset : Nat) :
    ∃ move, (Machine.of state offset (first :: rest)).move? = some move ∧
      Follows state first rest move := by
  generalize isFound : firstMatch? state.stack.top.rules (first :: rest) = found at agree
  cases agree with
  | some makes =>
    refine ⟨_, Machine.move?_of_match isFound, .rule ?_⟩
    rw [isStep]
    exact makes
  | none =>
    refine ⟨.stray rest, ?_, .stray ?_ (lone rfl)⟩
    · simp only [Machine.move?, Machine.of, isFound, if_neg (noFeed rfl)]
    · rw [isStep]
      exact ⟨rfl, rfl, rfl⟩

variable (nest : Nest) (first rest)

theorem top_of_nest : nest.stack.top ≠ .template ∧ nest.stack.top ≠ .slash := by
  cases nest with
  | module => simp [Nest.stack]
  | hole braces outer => cases braces <;> simp [Nest.stack, Nat.repeat, Stack.enter]

private theorem follows_divides (offset : Nat) :
    ∃ move, (Machine.of (.code nest .divides) offset (first :: rest)).move? = some move ∧
      Follows (.code nest .divides) first rest move := by
  have isStep := codeStep_eq nest .divides first rest
  rw [show pattern? .divides first rest = none from rfl, Option.map_none, Option.none_or] at isStep
  refine follows_of_agree (.code nest .divides) (codeRules_agree nest first rest) isStep ?_
    (fun _ isTemplate => absurd isTemplate (top_of_nest nest).1) offset
  rintro noStep rfl
  simp [triviaStep?, show isBlank '\n' by decide] at noStep

private theorem follows_opensPattern (offset : Nat) :
    ∃ move, (Machine.of (.code nest .opensPattern) offset (first :: rest)).move? = some move ∧
      Follows (.code nest .opensPattern) first rest move := by
  have agree := triviaRules_agree nest .opensPattern first rest
  have isStep := codeStep_eq nest .opensPattern first rest
  have isMatch := firstMatch?_slashRules first rest
  suffices follows : ∃ found, firstMatch? slashRules (first :: rest) = some found ∧
      Follows (.code nest .opensPattern) first rest (.rule found) by
    obtain ⟨found, isFound, follows⟩ := follows
    exact ⟨.rule found, Machine.move?_of_match isFound, follows⟩
  rw [isMatch]
  generalize firstMatch? triviaRules (first :: rest) = found at agree
  generalize isTrivia : triviaStep? nest .opensPattern first rest = trivia at agree isStep
  cases agree with
  | some makes =>
    refine ⟨_, rfl, .rule ?_⟩
    show (Move.rule _).Makes _ _ (codeStep nest .opensPattern first rest)
    rw [isStep]
    exact makes
  | none =>
    simp only [triviaStep?, Option.or_eq_none_iff, Option.map_eq_none_iff] at isTrivia
    rw [patternRule_find? isTrivia.2]
    cases isPattern : pattern? .opensPattern first rest with
    | some tail =>
      refine ⟨_, rfl, .rule ?_⟩
      show (Move.rule _).Makes _ _ (codeStep nest .opensPattern first rest)
      rw [isStep, isPattern]
      exact ⟨rfl, rfl, rfl⟩
    | none =>
      refine ⟨_, rfl, .relaxes rfl ?_⟩
      show codeStep nest .opensPattern first rest = codeStep nest .divides first rest
      have noTrivia : triviaStep? nest .divides first rest = none := by
        simpa [triviaStep?] using isTrivia
      rw [isStep, isPattern, codeStep_eq nest .divides, noTrivia]
      rfl

private theorem templateRules_agree :
    Agree (State.template nest).stack rest (firstMatch? templateRules (first :: rest))
      (if first :: rest = ['\\'] then none else some (templateStep nest first rest)) := by
  have isLone : first :: rest = ['\\'] ↔ first = '\\' ∧ rest.isEmpty := by
    simp
  have goesOn (noEscape : first ≠ '\\') : ¬ (first = '\\' ∧ rest.isEmpty) := fun ends =>
    noEscape ends.1
  rw [firstMatch?_templateRules, if_congr isLone rfl rfl, templateStep]
  by_cases closes : first = '`'
  · rw [if_pos closes, if_pos closes, if_neg (goesOn (by simp [closes]))]
    exact .some ⟨rfl, rfl, rfl⟩
  rw [if_neg closes, if_neg closes]
  by_cases isDollar : first = '$'
  · rw [if_pos isDollar, if_pos isDollar, if_neg (goesOn (by simp [isDollar]))]
    by_cases opens : rest.head? = some '{'
    · rw [if_pos opens, if_pos opens]
      exact .some ⟨rfl, rfl, rfl⟩
    · rw [if_neg opens, if_neg opens]
      exact .some ⟨rfl, rfl, rfl⟩
  rw [if_neg isDollar, if_neg isDollar]
  by_cases isEscape : first = '\\'
  · rw [if_pos isEscape, if_pos isEscape, if_congr (and_iff_right isEscape) rfl rfl]
    by_cases ends : rest.isEmpty
    · rw [if_pos ends, if_pos ends]
      exact .none
    · rw [if_neg ends, if_neg ends, if_neg ends]
      exact .some ⟨rfl, rfl, rfl⟩
  · rw [if_neg isEscape, if_neg isEscape, if_neg (goesOn isEscape)]
    exact .some ⟨rfl, rfl, rfl⟩

private theorem follows_template (offset : Nat) :
    ∃ move, (Machine.of (.template nest) offset (first :: rest)).move? = some move ∧
      Follows (.template nest) first rest move := by
  refine follows_of_agree (.template nest) (templateRules_agree first rest nest) ?_ ?_ ?_ offset
  · by_cases lone : first :: rest = ['\\']
    · obtain ⟨rfl, rfl⟩ := List.cons.inj lone
      rfl
    · rw [if_neg lone]
      rfl
  · rintro noStep rfl
    simp at noStep
  · intro noStep _
    by_contra more
    simp [more] at noStep

/-- The machine follows the scanner from every state. -/
theorem exists_follows (state : State) (offset : Nat) :
    ∃ move, (Machine.of state offset (first :: rest)).move? = some move ∧
      Follows state first rest move := by
  cases state with
  | code nest slash =>
    cases slash with
    | divides => exact follows_divides first rest nest offset
    | opensPattern => exact follows_opensPattern first rest nest offset
  | template nest => exact follows_template first rest nest offset

end Steps

/-! ## Runs -/

def State.lexeme (state : State) (offset : Nat) (first : Char) (rest : List Char) : Lexeme :=
  ⟨(step state first rest).kind, String.ofList (first :: rest.take (step state first rest).tail),
    offset⟩

theorem scanFrom_cons (state : State) (offset : Nat) (first : Char) (rest : List Char) :
    scanFrom state offset (first :: rest) =
      state.lexeme offset first rest ::
        scanFrom (step state first rest).next (state.lexeme offset first rest).stop
          (rest.drop (step state first rest).tail) := by
  rw [scanFrom]
  rfl

namespace Machine

theorem Runs.trans
    {first middle last : Machine}
    {lexemes others : List Lexeme}
    (run : Runs first lexemes middle)
    (further : Runs middle others last) :
    Runs first (lexemes ++ others) last := by
  induction further with
  | here => simpa using run
  | move _ moves inductionHypothesis =>
    rw [← List.append_assoc]
    exact inductionHypothesis.move moves

theorem Runs.single
    {machine : Machine}
    {move : Move}
    (moves : machine.move? = some move) :
    Runs machine (machine.emitted move) (machine.after move) :=
  Runs.move .here moves

/-- There is only one way to go on, so the machine terminates if a run comes to an
end. -/
theorem Runs.terminates
    {first last : Machine}
    {lexemes : List Lexeme}
    (run : Runs first lexemes last)
    (ends : last.Terminates) :
    first.Terminates := by
  induction run with
  | here => exact ends
  | move _ moves inductionHypothesis =>
    apply inductionHypothesis
    constructor
    rintro next ⟨own, isOwn, rfl⟩
    obtain rfl := Option.some.inj (moves.symm.trans isOwn)
    exact ends

private theorem Halted.terminates
    {machine : Machine}
    (halted : machine.Halted) :
    machine.Terminates := by
  constructor
  rintro next ⟨move, moves, -⟩
  rw [Halted.eq_1, moves] at halted
  simp at halted

section Following

variable {state : State} {first : Char} {rest : List Char} {move : Move}

/-- A move that makes a step emits its lexeme and comes to the state after it. -/
theorem of_makes
    (makes : move.Makes state.stack rest (step state first rest))
    (offset : Nat) :
    (of state offset (first :: rest)).emitted move = [state.lexeme offset first rest] ∧
      (of state offset (first :: rest)).after move =
        of (step state first rest).next (state.lexeme offset first rest).stop
          (rest.drop (step state first rest).tail) := by
  have isTaken : (of state offset (first :: rest)).taken move =
      (first :: rest.take (step state first rest).tail).length := by
    simp only [taken, of, makes.rest, List.length_cons, List.length_take, List.length_drop]
    omega
  have isText : (first :: rest).take (first :: rest.take (step state first rest).tail).length =
      first :: rest.take (step state first rest).tail := by
    simp
  constructor
  · rw [emitted, makes.kind, isTaken]
    simp only [of, isText]
    rfl
  · rw [after, isTaken]
    simp only [of, makes.stack, makes.rest, State.lexeme, stop, String.length_ofList]

private theorem of_relaxes (nest : Nest) (offset : Nat) (text : List Char) :
    (of (.code nest .opensPattern) offset text).emitted (.rule ⟨none, .pop, text⟩) = [] ∧
      (of (.code nest .opensPattern) offset text).after (.rule ⟨none, .pop, text⟩) =
        of (.code nest .divides) offset text := by
  refine ⟨rfl, ?_⟩
  simp [after, taken, of, Move.rest, Move.stack, Stack.apply, State.stack]

/-- A step of the scanner is one move of the machine, or two of which the first takes
nothing. -/
theorem runs_step (state : State) (offset : Nat) (first : Char) (rest : List Char) :
    Runs (of state offset (first :: rest)) [state.lexeme offset first rest]
      (of (step state first rest).next (state.lexeme offset first rest).stop
        (rest.drop (step state first rest).tail)) := by
  have made {state : State} {move : Move}
      (moves : (of state offset (first :: rest)).move? = some move)
      (makes : move.Makes state.stack rest (step state first rest)) :
      Runs (of state offset (first :: rest)) [state.lexeme offset first rest]
        (of (step state first rest).next (state.lexeme offset first rest).stop
          (rest.drop (step state first rest).tail)) := by
    have run := Runs.single moves
    rwa [(of_makes makes offset).1, (of_makes makes offset).2] at run
  obtain ⟨move, moves, follows⟩ := exists_follows first rest state offset
  cases follows with
  | rule makes => exact made moves makes
  | stray makes _ => exact made moves makes
  | @relaxes nest isState same =>
    subst isState
    have relaxed := Runs.single moves
    rw [(of_relaxes nest offset (first :: rest)).1, (of_relaxes nest offset (first :: rest)).2]
      at relaxed
    rw [State.lexeme, same]
    obtain ⟨move, moves, follows⟩ := follows_divides first rest nest offset
    cases follows with
    | rule makes => exact relaxed.trans (made moves makes)
    | stray makes _ => exact relaxed.trans (made moves makes)
    | relaxes isState _ => simp at isState

end Following

/-- At the end of the text the machine leaves the mode of a slash and then halts. -/
theorem move?_nil (stack : Stack) (offset : Nat) :
    (Machine.mk stack offset []).move? =
      if stack.top = .slash then some (.rule ⟨none, .pop, []⟩) else none := by
  rw [move?, firstMatch?_nil_text]
  by_cases isSlash : stack.top = .slash
  · simp only [if_pos isSlash]
  · simp only [if_neg isSlash]

private theorem exists_halted_nil (state : State) (offset : Nat) :
    ∃ final, Runs (of state offset []) [] final ∧ final.Halted := by
  have halted (nest : Nest) : (of (.code nest .divides) offset []).Halted :=
    (move?_nil nest.stack offset).trans (if_neg (top_of_nest nest).2)
  cases state with
  | code nest slash =>
    cases slash with
    | divides => exact ⟨_, .here, halted nest⟩
    | opensPattern =>
      have relaxed := Runs.single (move?_nil (nest.stack.enter .slash) offset)
      exact ⟨_, relaxed, halted nest⟩
  | template nest => exact ⟨_, .here, move?_nil (nest.stack.enter .template) offset⟩

/-- From a state of the scanner the machine emits the lexemes of the scan and halts. -/
theorem exists_halted (state : State) (offset : Nat) (text : List Char) :
    ∃ final, Runs (of state offset text) (scanFrom state offset text) final ∧ final.Halted := by
  fun_induction scanFrom state offset text with
  | case1 state offset => exact exists_halted_nil state offset
  | case2 state offset first rest taken lexeme inductionHypothesis =>
    obtain ⟨final, run, halted⟩ := inductionHypothesis
    exact ⟨final, (runs_step state offset first rest).trans run, halted⟩

end Machine

/-! ## Reached states -/

/-- The scanner comes to a state, with some lexemes taken from the text and the rest
of it to be read from an offset on.  Where the machine finds no pattern, a slash may be
taken to divide before the next lexeme is read. -/
inductive Reached (text : List Char) : List Lexeme → State → Nat → List Char → Prop where
  | start : Reached text [] .initial 0 text
  | step {lexemes : List Lexeme} {state : State} {offset : Nat} {first : Char} {rest : List Char}
      (reached : Reached text lexemes state offset (first :: rest)) :
      Reached text (lexemes ++ [state.lexeme offset first rest]) (step state first rest).next
        (state.lexeme offset first rest).stop (rest.drop (step state first rest).tail)
  | relax {lexemes : List Lexeme} {nest : Nest} {offset : Nat} {rest : List Char}
      (reached : Reached text lexemes (.code nest .opensPattern) offset rest)
      (moves : (Machine.of (.code nest .opensPattern) offset rest).move? =
        some (.rule ⟨none, .pop, rest⟩)) :
      Reached text lexemes (.code nest .divides) offset rest

private theorem scanFrom_of_relaxes
    {nest : Nest}
    {offset : Nat}
    {text : List Char}
    (moves : (Machine.of (.code nest .opensPattern) offset text).move? =
      some (.rule ⟨none, .pop, text⟩)) :
    scanFrom (.code nest .opensPattern) offset text =
      scanFrom (.code nest .divides) offset text := by
  cases text with
  | nil => rw [scanFrom, scanFrom]
  | cons first rest =>
    obtain ⟨own, isOwn, follows⟩ := exists_follows first rest (.code nest .opensPattern) offset
    rw [Option.some.inj (isOwn.symm.trans moves)] at follows
    cases follows with
    | rule makes => exact absurd makes.kind (by simp [Move.kind])
    | relaxes isState same =>
      cases isState
      rw [scanFrom_cons, scanFrom_cons, State.lexeme, State.lexeme, same]

private theorem exists_nest_of_slash
    {state : State}
    (isSlash : state.stack.top = .slash) :
    ∃ nest, state = .code nest .opensPattern := by
  cases state with
  | code nest slash =>
    cases slash with
    | divides => exact absurd isSlash (top_of_nest nest).2
    | opensPattern => exact ⟨nest, rfl⟩
  | template nest => simp [State.stack, Stack.enter] at isSlash

section Reached

variable {text : List Char} {lexemes : List Lexeme} {state : State} {offset : Nat}
  {rest : List Char}

/-- What has been taken and what is still to be taken make up the scan. -/
theorem Reached.scan (reached : Reached text lexemes state offset rest) :
    lexemes ++ scanFrom state offset rest = scanFrom .initial 0 text := by
  induction reached with
  | start => rfl
  | step _ inductionHypothesis =>
    rw [← inductionHypothesis, scanFrom_cons, List.append_assoc, List.singleton_append]
  | relax _ moves inductionHypothesis => rw [← scanFrom_of_relaxes moves, inductionHypothesis]

/-- What the scanner comes to is what the machine comes to. -/
theorem Reached.runs (reached : Reached text lexemes state offset rest) :
    Machine.Runs (.start text) lexemes (.of state offset rest) := by
  induction reached with
  | start => exact .here
  | step _ inductionHypothesis => exact inductionHypothesis.trans (Machine.runs_step _ _ _ _)
  | @relax lexemes nest offset rest _ moves inductionHypothesis =>
    have run := inductionHypothesis.move moves
    rwa [(Machine.of_relaxes nest offset rest).1, (Machine.of_relaxes nest offset rest).2,
      List.append_nil] at run

/-- A move of the machine takes the scanner on. -/
theorem Reached.move
    {move : Move}
    (reached : Reached text lexemes state offset rest)
    (moves : (Machine.of state offset rest).move? = some move) :
    ∃ next further left, (Machine.of state offset rest).after move = .of next further left ∧
      Reached text (lexemes ++ (Machine.of state offset rest).emitted move) next further left := by
  cases rest with
  | nil =>
    have isMove := (Machine.move?_nil state.stack offset).symm.trans moves
    by_cases isSlash : state.stack.top = .slash
    · rw [if_pos isSlash] at isMove
      obtain rfl := Option.some.inj isMove
      obtain ⟨nest, rfl⟩ := exists_nest_of_slash isSlash
      rw [(Machine.of_relaxes nest offset []).1, (Machine.of_relaxes nest offset []).2,
        List.append_nil]
      exact ⟨_, _, _, rfl, .relax reached moves⟩
    · rw [if_neg isSlash] at isMove
      simp at isMove
  | cons first rest =>
    obtain ⟨own, isOwn, follows⟩ := exists_follows first rest state offset
    obtain rfl : own = move := Option.some.inj (isOwn.symm.trans moves)
    cases follows with
    | rule makes =>
      rw [(Machine.of_makes makes offset).1, (Machine.of_makes makes offset).2]
      exact ⟨_, _, _, rfl, .step reached⟩
    | stray makes _ =>
      rw [(Machine.of_makes makes offset).1, (Machine.of_makes makes offset).2]
      exact ⟨_, _, _, rfl, .step reached⟩
    | @relaxes nest isState same =>
      subst isState
      rw [(Machine.of_relaxes nest offset (first :: rest)).1,
        (Machine.of_relaxes nest offset (first :: rest)).2, List.append_nil]
      exact ⟨_, _, _, rfl, .relax reached moves⟩

/-- Whatever the machine comes to is a state of the scanner. -/
theorem exists_reached
    {machine : Machine}
    (run : Machine.Runs (.start text) lexemes machine) :
    ∃ state offset rest, machine = .of state offset rest ∧
      Reached text lexemes state offset rest := by
  induction run with
  | here => exact ⟨.initial, 0, text, rfl, .start⟩
  | move _ moves inductionHypothesis =>
    obtain ⟨state, offset, rest, rfl, reached⟩ := inductionHypothesis
    exact reached.move moves

/-- Where the machine halts, all lexemes have been taken. -/
theorem Reached.eq_scan_of_halted
    (reached : Reached text lexemes state offset rest)
    (halted : (Machine.of state offset rest).Halted) :
    lexemes = scanFrom .initial 0 text := by
  cases rest with
  | nil =>
    have isScan := reached.scan
    rwa [scanFrom, List.append_nil] at isScan
  | cons first rest =>
    obtain ⟨move, moves, _⟩ := exists_follows first rest state offset
    rw [Machine.Halted, moves] at halted
    simp at halted

/-- What the scanner has taken and what is left of the text spell the text. -/
theorem Reached.spelled (reached : Reached text lexemes state offset rest) :
    lexemes.flatMap (·.text.toList) ++ rest = text := by
  have spelled := congrArg (List.flatMap (·.text.toList)) reached.scan
  rwa [List.flatMap_append, scanFrom_text, scanFrom_text] at spelled

end Reached

/-! ## The tiling of the source -/

/-- The lexemes of a scan begin at its offset, and each begins where the one before it
ends. -/
theorem isChain_scanFrom (state : State) (offset : Nat) (text : List Char) :
    (∀ lexeme ∈ (scanFrom state offset text).head?, lexeme.start = offset) ∧
      (scanFrom state offset text).IsChain fun left right => right.start = left.stop := by
  fun_induction scanFrom state offset text with
  | case1 => simp
  | case2 state offset first rest taken lexeme inductionHypothesis =>
    exact ⟨by simp [lexeme], List.isChain_cons.mpr inductionHypothesis⟩

/-- Among the moves of the machine there is no return to the module, and in a template
only a backslash at the end of the text is stray. -/
theorem Machine.of_move?
    {state : State}
    {offset : Nat}
    {text : List Char}
    {move : Move}
    (moves : (Machine.of state offset text).move? = some move) :
    (∀ rest, move ≠ .reset rest) ∧
      ∀ rest, state.stack.top = .template → move = .stray rest → text = ['\\'] := by
  cases text with
  | nil =>
    have isMove := (Machine.move?_nil state.stack offset).symm.trans moves
    by_cases isSlash : state.stack.top = .slash
    · rw [if_pos isSlash] at isMove
      obtain rfl := Option.some.inj isMove
      exact ⟨by simp, by simp⟩
    · rw [if_neg isSlash] at isMove
      simp at isMove
  | cons first text =>
    obtain ⟨own, isOwn, follows⟩ := exists_follows first text state offset
    obtain rfl : own = move := Option.some.inj (isOwn.symm.trans moves)
    cases follows with
    | rule makes => exact ⟨by simp, by simp⟩
    | stray makes lone => exact ⟨by simp, fun _ isTemplate _ => lone isTemplate⟩
    | relaxes isState same => exact ⟨by simp, by simp⟩

/-- The lexemes of a source tile it.  The machine terminates, and comes to its end
with these lexemes: what a run has emitted is spelled before what is left of the
source, and the run goes on to emit the others.  It never returns to the module at a
line feed that no rule matches, and in a template the only character that no rule
matches is a backslash at the end of the source. -/
theorem machine_tiles_source (source : String) :
    (∀ lexeme ∈ scan source, lexeme.text ≠ "") ∧
      (∀ lexeme ∈ (scan source).head?, lexeme.start = 0) ∧
      ((scan source).IsChain fun left right => right.start = left.stop) ∧
      (scan source).flatMap (·.text.toList) = source.toList ∧
      (Machine.start source.toList).Terminates ∧
      ∀ lexemes machine, Machine.Runs (.start source.toList) lexemes machine →
        lexemes.flatMap (·.text.toList) ++ machine.rest = source.toList ∧
        (∃ more final, Machine.Runs machine more final ∧ final.Halted ∧
          lexemes ++ more = scan source) ∧
        (∀ rest, machine.move? ≠ some (.reset rest)) ∧
        ∀ rest, machine.stack.top = .template → machine.move? = some (.stray rest) →
          machine.rest = ['\\'] := by
  have isChain := isChain_scanFrom .initial 0 source.toList
  refine ⟨?_, isChain.1, isChain.2, scanFrom_text .initial 0 source.toList, ?_, ?_⟩
  · intro lexeme member isEmpty
    obtain ⟨_, current, first, rest, _, _, _, spelled⟩ := exists_step_of_mem_scanFrom member
    simp [isEmpty] at spelled
  · obtain ⟨final, run, halted⟩ := Machine.exists_halted .initial 0 source.toList
    exact run.terminates halted.terminates
  · intro lexemes machine run
    obtain ⟨state, offset, rest, rfl, reached⟩ := exists_reached run
    obtain ⟨final, further, halted⟩ := Machine.exists_halted state offset rest
    refine ⟨reached.spelled, ⟨_, final, further, halted, reached.scan⟩, ?_, ?_⟩
    · intro left moves
      exact (Machine.of_move? moves).1 left rfl
    · intro left isTemplate moves
      exact (Machine.of_move? moves).2 left isTemplate rfl

/-- A backslash that ends the source in a template is met with no rule for it. -/
theorem machine_meets_last_backslash :
    ∃ lexemes machine, Machine.Runs (.start "`\\".toList) lexemes machine ∧
      machine.stack.top = .template ∧ machine.move? = some (.stray []) ∧
      machine.rest = ['\\'] := by
  have run : Machine.Runs (.start "`\\".toList) _ _ :=
    .single (show _ = some (.rule ⟨some .templateOpen, .push [.template], ['\\']⟩) from rfl)
  exact ⟨_, _, run, rfl, rfl,
    ((machine_tiles_source "`\\").2.2.2.2.2 _ _ run).2.2.2 [] rfl rfl⟩

end Restyle.Lexeme
