import Restyle.Bracket
import Restyle.Proofs.Lexeme.Machine
import Restyle.Proofs.Token.Standing

/-!
Contract: the braces between the marks of a hole are balanced.

Owns: `BracesOpen`, tokens that leave a number of braces open and close none that is
not; `Reader.Keeps`, by which the reader has as many braces open in each hole as the
scanner counts there; `Reader.completed`, the holes that a reader has finished; and
that these have their braces balanced.
-/

namespace Restyle

open Lexeme

/-! ## Braces in steps -/

namespace Lexeme

/-- Code with a further brace open.  The module does not count its braces. -/
def Nest.opened : Nest → Nest
  | .module => .module
  | .hole braces outer => .hole (braces + 1) outer

/-- What an undivided lexeme does to the braces of the code that it stands in. -/
inductive BraceEffect (nest : Nest) (first : Char) (taken : Step) : Prop where
  | plain {slash : Slash} (next : taken.next = .code nest slash)
      (noBrace : taken.kind = .punctuator → first ≠ '\x7b' ∧ first ≠ '\x7d')
  | opens {slash : Slash} (marks : first = '\x7b')
      (isStep : taken = ⟨.punctuator, 0, .code nest.opened slash⟩)
  | closes {inner : Nest} {slash : Slash} (marks : first = '\x7d') (isNest : nest = inner.opened)
      (isStep : taken = ⟨.punctuator, 0, .code inner slash⟩)

private theorem braceEffect_of_brace?
    {nest : Nest}
    {first : Char}
    {taken : Step}
    (found : brace? nest first = some taken)
    (isAtom : taken.kind.isAtom) :
    BraceEffect nest first taken := by
  unfold brace? at found
  by_cases opens : first = '\x7b'
  · rw [if_pos opens] at found
    cases nest with
    | module => exact .opens opens (Option.some.inj found).symm
    | hole braces outer => exact .opens opens (Option.some.inj found).symm
  rw [if_neg opens] at found
  by_cases closes : first = '\x7d'
  · rw [if_pos closes] at found
    cases nest with
    | module => exact .closes closes rfl (Option.some.inj found).symm
    | hole braces outer =>
      cases braces with
      | zero =>
        rw [← Option.some.inj found] at isAtom
        simp [Kind.isAtom] at isAtom
      | succ braces =>
        have isNest : Nest.hole (braces + 1) outer = Nest.opened (.hole braces outer) := rfl
        exact .closes closes isNest (Option.some.inj found).symm
  · rw [if_neg closes] at found
    simp at found

private theorem CodeStep.braceEffect
    {nest : Nest}
    {slash : Slash}
    {first : Char}
    {rest : List Char}
    {taken : Step}
    (isStep : CodeStep nest slash first rest taken)
    (isAtom : taken.kind.isAtom) :
    BraceEffect nest first taken := by
  cases isStep with
  | blank _ => simp [Kind.isAtom] at isAtom
  | comment _ found =>
    have trivia := isTrivia_of_comment? found
    exact .plain rfl (by rintro rfl; simp [Kind.isTrivia] at trivia)
  | pattern _ _ => exact .plain rfl (by simp)
  | templateOpen _ => simp [Kind.isAtom] at isAtom
  | quoted _ found =>
    have kind := (kind_of_quoted? found).1
    exact .plain rfl (by rcases kind with rfl | rfl <;> simp)
  | number _ _ => exact .plain rfl (by simp)
  | word _ found =>
    have kind := kind_of_word? found
    exact .plain rfl (by rcases kind with rfl | ⟨rfl, _⟩ <;> simp)
  | symbol _ found =>
    exact .plain rfl fun _ =>
      (apart_of_mem_symbolHeads rest (mem_symbolHeads found)).2.2.2.2.2
  | brace _ found => exact braceEffect_of_brace? found isAtom
  | stray _ => exact .plain rfl (by simp)

end Lexeme

/-! ## Braces in tokens -/

namespace Token

def opensBrace : Token → Bool :=
  Bracket.isPunctuator ["\x7b"]

def closesBrace : Token → Bool :=
  Bracket.isPunctuator ["\x7d"]

/-- Tokens that leave a number of braces open: no brace is closed that is not open,
and so many more are opened than closed. -/
structure BracesOpen (braces : Nat) (tokens : List Token) : Prop where
  within : ∀ front, front <+: tokens → front.countP closesBrace ≤ front.countP opensBrace
  count : tokens.countP opensBrace = tokens.countP closesBrace + braces

/-- Tokens of which each brace is closed by one of them. -/
def BracesBalanced (tokens : List Token) : Prop :=
  BracesOpen 0 tokens

private theorem bracesBalanced_nil : BracesBalanced [] where
  within := by
    intro front isPrefix
    rw [List.prefix_nil.mp isPrefix]
    exact Nat.le_refl _
  count := rfl

theorem BracesOpen.concat
    {braces after : Nat}
    {tokens : List Token}
    {token : Token}
    (isOpen : BracesOpen braces tokens)
    (count : (if opensBrace token then 1 else 0) + braces =
      (if closesBrace token then 1 else 0) + after) :
    BracesOpen after (tokens ++ [token]) := by
  have total : (tokens ++ [token]).countP opensBrace =
      (tokens ++ [token]).countP closesBrace + after := by
    rw [List.countP_append, List.countP_append, List.countP_singleton, List.countP_singleton,
      isOpen.count]
    omega
  refine ⟨?_, total⟩
  intro front isPrefix
  rcases List.prefix_concat_iff.mp isPrefix with rfl | earlier
  · omega
  · exact isOpen.within front earlier

/-! ## Braces in the reader -/

/-- The code being read has in each of its holes as many braces open as are counted
there. -/
inductive OpenCode.Keeps : Nest → OpenCode → Prop where
  | module {tokens : List Token} : OpenCode.Keeps .module (.module tokens)
  | hole {braces start : Nat} {outside : Nest} {template : OpenTemplate} {chunk : Template.Chunk}
      {tokens : List Token} {outer : OpenCode}
      (isOpen : BracesOpen braces tokens.reverse)
      (around : OpenCode.Keeps outside outer) :
      OpenCode.Keeps (.hole braces outside) (.hole template chunk start tokens outer)

/-- The reader is where the scanner is, with the same braces open. -/
inductive Reader.Keeps : State → Reader → Prop where
  | code {nest : Nest} {slash : Slash} {current : OpenCode} (keeps : OpenCode.Keeps nest current) :
      Reader.Keeps (.code nest slash) (.code current)
  | text {nest : Nest} {template : OpenTemplate} {chunkStart : Nat} {outer : OpenCode}
      (keeps : OpenCode.Keeps nest outer) :
      Reader.Keeps (.template nest) (.text template chunkStart outer)

theorem OpenCode.Keeps.depth
    {nest : Nest}
    {current : OpenCode}
    (keeps : OpenCode.Keeps nest current) :
    current.depth = nest.depth := by
  induction keeps with
  | module => rfl
  | hole _ _ inductionHypothesis => exact congrArg (· + 1) inductionHypothesis

theorem Reader.Keeps.inStep
    {state : State}
    {reader : Reader}
    (keeps : reader.Keeps state) :
    reader.inStep state := by
  cases keeps with
  | code keeps => exact keeps.depth
  | text keeps => exact keeps.depth

private theorem isPunctuator_ofLexeme (c : Char) (source : List Char) (lexeme : Lexeme) :
    Bracket.isPunctuator [String.singleton c] (ofLexeme source lexeme) =
      (lexeme.kind = .punctuator && lexeme.text.toList = [c]) := by
  have isKind : kindOf lexeme.kind = .punctuator ↔ lexeme.kind = .punctuator := by
    cases lexeme.kind <;> simp [kindOf]
  have isText : lexeme.text = String.singleton c ↔ lexeme.text.toList = [c] := by
    rw [← String.toList_inj, String.toList_singleton]
  simp [Bracket.isPunctuator, Token.is, ofLexeme, isKind, isText]

/-- A token takes the braces counted in some code to those counted after it. -/
inductive Recounts (token : Token) : Nest → Nest → Prop where
  | module : Recounts token .module .module
  | hole {braces after : Nat} {outer : Nest}
      (count : (if opensBrace token then 1 else 0) + braces =
        (if closesBrace token then 1 else 0) + after) :
      Recounts token (.hole braces outer) (.hole after outer)

theorem OpenCode.Keeps.push
    {nest inner : Nest}
    {current : OpenCode}
    {token : Token}
    (keeps : OpenCode.Keeps nest current)
    (recounts : Recounts token nest inner) :
    OpenCode.Keeps inner (current.push token) := by
  cases recounts with
  | module =>
    cases keeps with
    | module => exact .module
  | hole count =>
    cases keeps with
    | hole isOpen around =>
      refine .hole ?_ around
      rw [List.reverse_cons]
      exact isOpen.concat count

section Recounts

variable {token : Token}

private theorem recounts_of_plain (nest : Nest) (opens : opensBrace token = false)
    (closes : closesBrace token = false) : Recounts token nest nest := by
  cases nest with
  | module => exact .module
  | hole braces outer => exact .hole (by simp [opens, closes])

private theorem recounts_of_opens (nest : Nest) (opens : opensBrace token = true)
    (closes : closesBrace token = false) : Recounts token nest nest.opened := by
  cases nest with
  | module => exact .module
  | hole braces outer => exact .hole (by simp [opens, closes, Nat.add_comm])

private theorem recounts_of_closes (nest : Nest) (opens : opensBrace token = false)
    (closes : closesBrace token = true) : Recounts token nest.opened nest := by
  cases nest with
  | module => exact .module
  | hole braces outer => exact .hole (by simp [opens, closes, Nat.add_comm])

end Recounts

private theorem recounts_of_braceEffect
    {nest : Nest}
    {first : Char}
    {taken : Step}
    (effect : BraceEffect nest first taken)
    (source : List Char)
    (offset : Nat)
    (rest : List Char) :
    ∃ inner slash, taken.next = .code inner slash ∧
      Recounts (ofLexeme source ⟨taken.kind, String.ofList (first :: rest.take taken.tail), offset⟩)
        nest inner := by
  have isBrace (c : Char) := isPunctuator_ofLexeme c source
    ⟨taken.kind, String.ofList (first :: rest.take taken.tail), offset⟩
  simp only [String.toList_ofList] at isBrace
  have opens := isBrace '\x7b'
  have closes := isBrace '\x7d'
  cases effect with
  | plain next noBrace =>
    refine ⟨nest, _, next, recounts_of_plain nest ?_ ?_⟩
    · refine opens.trans ?_
      by_cases isKind : taken.kind = .punctuator <;> simp [isKind, noBrace]
    · refine closes.trans ?_
      by_cases isKind : taken.kind = .punctuator <;> simp [isKind, noBrace]
  | opens marks isStep =>
    subst isStep marks
    exact ⟨_, _, rfl, recounts_of_opens nest (opens.trans (by simp)) (closes.trans (by simp))⟩
  | closes marks isNest isStep =>
    subst isStep marks isNest
    exact ⟨_, _, rfl, recounts_of_closes _ (opens.trans (by simp)) (closes.trans (by simp))⟩

/-! ## Completed holes -/

def holesIn (tokens : List Token) : List Span :=
  (everywhere tokens).flatMap holes

def withInner (hole : Span) : List Span :=
  hole :: holesIn hole.tokens

/-- The holes of an open template that are finished, and those in them. -/
def OpenTemplate.completed (template : OpenTemplate) : List Span :=
  template.holes.flatMap withInner

def OpenCode.completed : OpenCode → List Span
  | .module tokens => holesIn tokens
  | .hole template _ _ tokens outer => holesIn tokens ++ template.completed ++ outer.completed

def Reader.completed : Reader → List Span
  | .code current => current.completed
  | .text template _ outer => template.completed ++ outer.completed

theorem mem_holesIn_cons {hole : Span} {token : Token} {tokens : List Token} :
    hole ∈ holesIn (token :: tokens) ↔
      hole ∈ token.holes.flatMap withInner ∨ hole ∈ holesIn tokens := by
  have inner : token.inside.flatMap holes = token.holes.flatMap (holesIn ·.tokens) := by
    rw [inside_eq_holes, List.flatMap_assoc]
    rfl
  rw [holesIn, everywhere_cons, List.flatMap_append, List.flatMap_cons, inner, List.mem_append,
    List.mem_append]
  refine or_congr ?_ Iff.rfl
  simp only [List.mem_flatMap, withInner, List.mem_cons]
  grind

private theorem mem_holesIn_reverse {hole : Span} {tokens : List Token} :
    hole ∈ holesIn tokens.reverse ↔ hole ∈ holesIn tokens := by
  simp only [holesIn, List.mem_flatMap, mem_everywhere_iff, List.mem_reverse]

private theorem OpenTemplate.mem_completed_cons
    {hole own : Span}
    {start : Nat}
    {chunk : Template.Chunk}
    {parts : List (Template.Chunk × Span)} :
    hole ∈ OpenTemplate.completed ⟨start, (chunk, own) :: parts⟩ ↔
      hole ∈ withInner own ∨ hole ∈ OpenTemplate.completed ⟨start, parts⟩ := by
  simp [OpenTemplate.completed, OpenTemplate.holes, or_comm]

private theorem OpenCode.mem_completed_push {hole : Span} {token : Token} {current : OpenCode} :
    hole ∈ (current.push token).completed ↔
      hole ∈ token.holes.flatMap withInner ∨ hole ∈ current.completed := by
  cases current with
  | module tokens => exact mem_holesIn_cons
  | hole template chunk start tokens outer =>
    simp only [OpenCode.push, OpenCode.completed, List.mem_append, mem_holesIn_cons, or_assoc]

private theorem holes_ofTemplate
    (source : List Char)
    (template : OpenTemplate)
    (chunkStart close : Nat) :
    (ofTemplate source template chunkStart close).holes = template.holes :=
  holes_templateOf _ template.parts

/-- A lexeme keeps the reader where the scanner is, and a hole that it finishes has its
braces balanced. -/
theorem Reader.Keeps.push
    {state : State}
    {reader next : Reader}
    {source : List Char}
    {offset : Nat}
    {first : Char}
    {rest : List Char}
    (keeps : reader.Keeps state)
    (isNext : reader.push source (state.lexeme offset first rest) = .ok next) :
    next.Keeps (step state first rest).next ∧
      ∀ hole ∈ next.completed, hole ∈ reader.completed ∨ BracesBalanced hole.tokens := by
  have pushed := Reader.pushed_of_push keeps.inStep isNext
  generalize isStep : step state first rest = taken at pushed ⊢
  cases pushed with
  | trivia _ isCode =>
    cases keeps with
    | code keeps =>
      rw [isCode]
      exact ⟨.code keeps, fun _ => .inl⟩
  | @atom nest _ slash _ _ isAtom =>
    cases keeps with
    | code keeps =>
      have spec := codeStep_spec nest slash first rest
      rw [show codeStep nest slash first rest = taken from isStep] at spec
      obtain ⟨inner, after, isCode, recounts⟩ :=
        recounts_of_braceEffect (spec.braceEffect isAtom) source offset rest
      rw [isCode]
      refine ⟨.code (keeps.push recounts), ?_⟩
      intro hole isHole
      rcases OpenCode.mem_completed_push.mp isHole with own | earlier
      · simp [holes, ofLexeme, template?] at own
      · exact .inl earlier
  | templateOpen _ isTaken =>
    cases keeps with
    | code keeps =>
      rw [isTaken]
      exact ⟨.text keeps, fun _ => .inl⟩
  | holeClose _ isTaken =>
    cases keeps with
    | code keeps =>
      cases keeps with
      | hole isOpen around =>
        rw [isTaken]
        refine ⟨.text around, ?_⟩
        intro hole isHole
        rcases List.mem_append.mp isHole with inTemplate | outside
        · rcases OpenTemplate.mem_completed_cons.mp inTemplate with own | earlier
          · rcases List.mem_cons.mp own with rfl | inner
            · exact .inr isOpen
            · exact .inl (List.mem_append_left _ (List.mem_append_left _
                (mem_holesIn_reverse.mp inner)))
          · exact .inl (List.mem_append_left _ (List.mem_append_right _ earlier))
        · exact .inl (List.mem_append_right _ outside)
  | @templateClose nest _ _ _ _ isTaken =>
    cases keeps with
    | text keeps =>
      rw [isTaken]
      refine ⟨.code (keeps.push (recounts_of_plain nest rfl rfl)), ?_⟩
      intro hole isHole
      refine .inl (List.mem_append.mpr ?_)
      have cases := OpenCode.mem_completed_push.mp isHole
      rwa [holes_ofTemplate] at cases
  | holeOpen _ _ isTaken =>
    cases keeps with
    | text keeps =>
      rw [isTaken]
      exact ⟨.code (.hole bracesBalanced_nil keeps), fun _ => .inl⟩
  | text _ isText =>
    cases keeps with
    | text keeps =>
      rw [isText]
      exact ⟨.text keeps, fun _ => .inl⟩

end Token

end Restyle
