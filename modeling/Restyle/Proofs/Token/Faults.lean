import Restyle.Proofs.Token.Pushing

/-!
Contract: when a text cannot be read.

Owns: `Lexeme.EndsInEscape`, a text whose last character is a backslash that the
scanner meets in a template; and that reading fails for a stray character
exactly on such texts, and otherwise at most for a template left open.
-/

namespace Restyle

namespace Lexeme

/-- In a template the scanner meets a backslash that is the last character of the
text. -/
def EndsInEscape (text : List Char) : Prop :=
  ∃ nest, Comes .initial text (.template nest) ['\\']

end Lexeme

namespace Token

open Restyle.Template

/-- The scanner meets a lone backslash at the end of a template. -/
def meetsEscape (state : Lexeme.State) (text : List Char) : Prop :=
  ∃ nest, state = .template nest ∧ text = ['\\']

private theorem eq_escape_of_stray
    {nest : Lexeme.Nest}
    {first : Char}
    {rest : List Char}
    (isStray : (Lexeme.templateStep nest first rest).kind = .stray) :
    first = '\\' ∧ rest = [] := by
  unfold Lexeme.templateStep at isStray
  split at isStray
  · simp at isStray
  · split at isStray
    · split at isStray <;> simp at isStray
    · split at isStray
      · split at isStray
        · exact ⟨‹_›, List.isEmpty_iff.mp ‹_›⟩
        · simp at isStray
      · simp at isStray

private theorem Reader.exists_push_in_code
    {nest : Lexeme.Nest}
    {slash : Lexeme.Slash}
    {current : OpenCode}
    (depth : current.depth = nest.depth)
    (source : List Char)
    (offset : Nat)
    (first : Char)
    (rest : List Char) :
    ∃ next, Reader.push source (.code current)
      ((Lexeme.State.code nest slash).lexeme offset first rest) = .ok next := by
  simp only [Lexeme.State.lexeme, Lexeme.step]
  cases (Lexeme.codeStep_spec nest slash first rest).effect with
  | trivia isTrivia _ => exact ⟨_, Reader.push_of_trivia isTrivia⟩
  | atom isAtom _ _ _ => exact ⟨_, Reader.push_of_atom isAtom⟩
  | templateOpen _ isStep =>
    rw [isStep]
    exact ⟨_, rfl⟩
  | holeClose isNest _ isStep =>
    rw [isStep]
    cases current with
    | module => simp [OpenCode.depth, Lexeme.Nest.depth, isNest] at depth
    | hole => exact ⟨_, rfl⟩

private theorem Reader.exists_push_in_text
    {first : Char}
    {rest : List Char}
    (noEscape : ¬ (first = '\\' ∧ rest = []))
    (nest : Lexeme.Nest)
    (source : List Char)
    (offset : Nat)
    (template : OpenTemplate)
    (chunkStart : Nat)
    (outer : OpenCode) :
    ∃ next, Reader.push source (.text template chunkStart outer)
      ((Lexeme.State.template nest).lexeme offset first rest) = .ok next := by
  simp only [Lexeme.State.lexeme, Lexeme.step]
  cases templateStep_effect nest first rest with
  | close _ isStep =>
    rw [isStep]
    exact ⟨_, rfl⟩
  | holeOpen _ _ isStep =>
    rw [isStep]
    exact ⟨_, rfl⟩
  | text isText _ _ _ => exact ⟨.text template chunkStart outer, by simp [Reader.push, isText]⟩
  | stray isStray _ => exact absurd (eq_escape_of_stray isStray) noEscape

/-- A reader in step with the scanner takes every lexeme, unless it is a lone
backslash at the end of a template. -/
theorem Reader.push_cases
    {state : Lexeme.State}
    {reader : Reader}
    (inStep : reader.inStep state)
    (source : List Char)
    (offset : Nat)
    (first : Char)
    (rest : List Char) :
    meetsEscape state (first :: rest) ∧
        reader.push source (state.lexeme offset first rest) = .error .strayInTemplate ∨
      ¬ meetsEscape state (first :: rest) ∧
        ∃ next, reader.push source (state.lexeme offset first rest) = .ok next ∧
          next.inStep (Lexeme.step state first rest).next := by
  have stays {next : Reader}
      (pushed : reader.push source (state.lexeme offset first rest) = .ok next) :
      next.inStep (Lexeme.step state first rest).next :=
    (Reader.pushed_of_push inStep pushed).inStep inStep
  cases state with
  | code nest slash =>
    cases reader with
    | text => exact inStep.elim
    | code current =>
      obtain ⟨next, pushed⟩ := Reader.exists_push_in_code inStep source offset first rest
      exact .inr ⟨by simp [meetsEscape], next, pushed, stays pushed⟩
  | template nest =>
    cases reader with
    | code => exact inStep.elim
    | text template chunkStart outer =>
      by_cases escape : first = '\\' ∧ rest = []
      · obtain ⟨rfl, rfl⟩ := escape
        exact .inl ⟨⟨nest, rfl, rfl⟩, rfl⟩
      · obtain ⟨next, pushed⟩ :=
          Reader.exists_push_in_text escape nest source offset template chunkStart outer
        exact .inr ⟨by simpa [meetsEscape] using escape, next, pushed, stays pushed⟩

/-- A reader in step with the scanner takes all lexemes of a text, unless the
scanner comes to a lone backslash at the end of a template. -/
theorem Reader.foldlM_cases
    {state : Lexeme.State}
    {reader : Reader}
    (inStep : reader.inStep state)
    (source : List Char)
    (start : Nat)
    (text : List Char) :
    let run := (Lexeme.scanFrom state start text).foldlM (Reader.push source) reader
    (∃ nest, Lexeme.Comes state text (.template nest) ['\\']) ∧ run = .error .strayInTemplate ∨
      (¬ ∃ nest, Lexeme.Comes state text (.template nest) ['\\']) ∧ ∃ last, run = .ok last := by
  fun_induction Lexeme.scanFrom state start text generalizing reader with
  | case1 state start =>
    refine .inr ⟨?_, reader, rfl⟩
    rintro ⟨nest, comes⟩
    simpa using comes.of_nil.2
  | case2 state start first rest taken lexeme =>
    rename_i inductionHypothesis
    rcases Reader.push_cases inStep source start first rest with
      ⟨⟨nest, isState, isText⟩, fails⟩ | ⟨noEscape, next, pushed, nextInStep⟩
    · refine .inl ⟨⟨nest, ?_⟩, ?_⟩
      · rw [isState, isText]
        exact .here
      · rw [List.foldlM_cons, show reader.push source lexeme = _ from fails]
        rfl
    · have comes_iff : (∃ nest, Lexeme.Comes state (first :: rest) (.template nest) ['\\']) ↔
          ∃ nest, Lexeme.Comes taken.next (rest.drop taken.tail) (.template nest) ['\\'] := by
        refine exists_congr fun nest => ⟨fun comes => ?_, .after⟩
        generalize isState : Lexeme.State.template nest = last at comes
        generalize isText : ['\\'] = left at comes
        cases comes with
        | here => exact absurd ⟨nest, isState.symm, isText.symm⟩ noEscape
        | after later => exact later
      rw [comes_iff, List.foldlM_cons, show reader.push source lexeme = _ from pushed]
      exact inductionHypothesis nextInStep

/-- Reading fails for a stray character exactly if the scanner meets a lone
backslash at the end of a template; else the tokens are read or a template is
left open. -/
theorem readAll_cases (source : String) :
    Lexeme.EndsInEscape source.toList ∧ readAll source = .error .strayInTemplate ∨
      ¬ Lexeme.EndsInEscape source.toList ∧ Judged (fun _ => True) (readAll source) := by
  have begins : Reader.inStep .initial (.code (.module [])) := rfl
  unfold readAll Lexeme.scan
  rcases Reader.foldlM_cases begins source.toList 0 source.toList with
    ⟨escape, fails⟩ | ⟨noEscape, last, succeeds⟩
  · refine .inl ⟨escape, ?_⟩
    rw [fails]
    rfl
  · refine .inr ⟨noEscape, ?_⟩
    rw [succeeds]
    show Judged (fun _ => True) last.finish
    unfold Reader.finish
    split
    · exact .ok trivial
    · exact .problem _ _
    · exact .problem _ _

end Token

end Restyle
