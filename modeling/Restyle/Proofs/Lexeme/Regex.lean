import Mathlib.Data.List.Infix

/-!
Contract: regular expressions, matched by a backtracking engine.

Owns: `Regex`; `Regex.rests`, what the matches at the head of a text leave of it,
the preferred match first; `Regex.rest?`, what the preferred match leaves; and the
laws by which the preferred match is found without backtracking.

Does not own: the expressions of the language (`Lexeme.Rules`).
-/

namespace Restyle.Lexeme

/-- Regular expressions.  A repetition prefers to go on, a lazy one prefers to
stop.  `notBefore` takes nothing and looks at the next character. -/
inductive Regex where
  | empty
  | one (accepts : Char → Bool)
  | seq (first second : Regex)
  | either (preferred other : Regex)
  | many (body : Regex)
  | lazyMany (body : Regex)
  | notBefore (accepts : Char → Bool)

namespace Regex

/-! ## Matching -/

/-- What repetitions of a body leave, the longest first.  A body that takes nothing
is not repeated. -/
def repeated (body : List Char → List (List Char)) (text : List Char) : List (List Char) :=
  ((body text).flatMap fun rest =>
    if _shorter : rest.length < text.length then repeated body rest else []) ++ [text]
termination_by text.length

/-- What repetitions of a body leave, the shortest first. -/
def lazilyRepeated (body : List Char → List (List Char)) (text : List Char) : List (List Char) :=
  text :: (body text).flatMap fun rest =>
    if _shorter : rest.length < text.length then lazilyRepeated body rest else []
termination_by text.length

/-- What the matches at the head of a text leave, the preferred one first. -/
def rests : Regex → List Char → List (List Char)
  | .empty, text => [text]
  | .one _, [] => []
  | .one accepts, c :: rest => if accepts c then [rest] else []
  | .seq first second, text => (first.rests text).flatMap second.rests
  | .either preferred other, text => preferred.rests text ++ other.rests text
  | .many body, text => repeated body.rests text
  | .lazyMany body, text => lazilyRepeated body.rests text
  | .notBefore accepts, text => if text.head?.any accepts then [] else [text]

section Equations

variable (text : List Char)

@[simp]
theorem rests_empty : Regex.empty.rests text = [text] :=
  rfl

@[simp]
theorem rests_one_nil (accepts : Char → Bool) : (Regex.one accepts).rests [] = [] :=
  rfl

@[simp]
theorem rests_one_cons (accepts : Char → Bool) (c : Char) (rest : List Char) :
    (Regex.one accepts).rests (c :: rest) = if accepts c then [rest] else [] :=
  rfl

@[simp]
theorem rests_seq (first second : Regex) :
    (Regex.seq first second).rests text = (first.rests text).flatMap second.rests :=
  rfl

@[simp]
theorem rests_either (preferred other : Regex) :
    (Regex.either preferred other).rests text = preferred.rests text ++ other.rests text :=
  rfl

@[simp]
theorem rests_notBefore (accepts : Char → Bool) :
    (Regex.notBefore accepts).rests text = if text.head?.any accepts then [] else [text] :=
  rfl

private theorem rests_many (body : Regex) :
    (Regex.many body).rests text =
      ((body.rests text).flatMap fun rest =>
        if rest.length < text.length then (Regex.many body).rests rest else []) ++ [text] := by
  show repeated body.rests text = _
  rw [repeated]
  rfl

private theorem rests_lazyMany (body : Regex) :
    (Regex.lazyMany body).rests text =
      text :: (body.rests text).flatMap fun rest =>
        if rest.length < text.length then (Regex.lazyMany body).rests rest else [] := by
  show lazilyRepeated body.rests text = _
  rw [lazilyRepeated]
  rfl

end Equations

/-- What the preferred match leaves, `none` if there is no match. -/
def rest? (regex : Regex) (text : List Char) : Option (List Char) :=
  (regex.rests text).head?

/-! ## Derived expressions -/

def char (own : Char) : Regex :=
  .one (· = own)

def oneOf (own : List Char) : Regex :=
  .one own.contains

def chars : List Char → Regex
  | [] => .empty
  | c :: rest => .seq (.char c) (chars rest)

def anyOf : List String → Regex
  | [] => .one fun _ => false
  | text :: others => .either (.chars text.toList) (anyOf others)

def opt (body : Regex) : Regex :=
  .either body .empty

def plus (body : Regex) : Regex :=
  .seq body (.many body)

/-! ## What a match takes -/

private theorem length_le_of_mem_repeated
    {body : List Char → List (List Char)}
    {text rest : List Char}
    (isRest : rest ∈ repeated body text) :
    rest.length ≤ text.length := by
  fun_induction repeated body text with
  | case1 text inductionHypothesis =>
    rcases List.mem_append.mp isRest with further | isText
    · obtain ⟨middle, _, further⟩ := List.mem_flatMap.mp further
      split at further
      · rename_i shorter
        exact (inductionHypothesis middle shorter further).trans shorter.le
      · simp at further
    · rw [List.mem_singleton.mp isText]

private theorem length_le_of_mem_lazilyRepeated
    {body : List Char → List (List Char)}
    {text rest : List Char}
    (isRest : rest ∈ lazilyRepeated body text) :
    rest.length ≤ text.length := by
  fun_induction lazilyRepeated body text with
  | case1 text inductionHypothesis =>
    rcases List.mem_cons.mp isRest with isText | further
    · rw [isText]
    · obtain ⟨middle, _, further⟩ := List.mem_flatMap.mp further
      split at further
      · rename_i shorter
        exact (inductionHypothesis middle shorter further).trans shorter.le
      · simp at further

private theorem length_le_of_mem_rests
    {regex : Regex}
    {text rest : List Char}
    (isRest : rest ∈ regex.rests text) :
    rest.length ≤ text.length := by
  induction regex generalizing text rest with
  | empty => simp_all
  | one accepts => cases text <;> simp_all
  | seq first second firstHypothesis secondHypothesis =>
    obtain ⟨middle, isMiddle, isRest⟩ := List.mem_flatMap.mp isRest
    exact (secondHypothesis isRest).trans (firstHypothesis isMiddle)
  | either preferred other preferredHypothesis otherHypothesis =>
    exact (List.mem_append.mp isRest).elim preferredHypothesis otherHypothesis
  | many body _ => exact length_le_of_mem_repeated isRest
  | lazyMany body _ => exact length_le_of_mem_lazilyRepeated isRest
  | notBefore accepts =>
    rw [rests_notBefore] at isRest
    split at isRest <;> simp_all

/-- Every match takes something. -/
def Takes (regex : Regex) : Prop :=
  ∀ text, ∀ rest ∈ regex.rests text, rest.length < text.length

theorem takes_one (accepts : Char → Bool) : (Regex.one accepts).Takes := by
  intro text rest isRest
  cases text with
  | nil => simp at isRest
  | cons c others =>
    rw [rests_one_cons] at isRest
    split at isRest <;> simp_all

theorem Takes.seq {first : Regex} (takes : first.Takes) (second : Regex) :
    (Regex.seq first second).Takes := by
  intro text rest isRest
  obtain ⟨middle, isMiddle, isRest⟩ := List.mem_flatMap.mp isRest
  exact (length_le_of_mem_rests isRest).trans_lt (takes text middle isMiddle)

theorem Takes.either
    {preferred other : Regex}
    (takes : preferred.Takes)
    (otherTakes : other.Takes) :
    (Regex.either preferred other).Takes := by
  intro text rest isRest
  exact (List.mem_append.mp isRest).elim (takes text rest) (otherTakes text rest)

/-! ## Laws -/

section Laws

variable (text : List Char)

private theorem rest?_empty : Regex.empty.rest? text = some text :=
  rfl

theorem rest?_one_cons (accepts : Char → Bool) (c : Char) (rest : List Char) :
    (Regex.one accepts).rest? (c :: rest) = if accepts c then some rest else none := by
  rw [rest?, rests_one_cons]
  split <;> rfl

theorem rest?_either (preferred other : Regex) :
    (Regex.either preferred other).rest? text = (preferred.rest? text).or (other.rest? text) :=
  List.head?_append

/-- The second expression is tried on what each match of the first leaves. -/
theorem rest?_seq (first second : Regex) :
    (Regex.seq first second).rest? text = (first.rests text).findSome? second.rest? :=
  List.head?_flatMap

theorem rest?_one_seq_nil (accepts : Char → Bool) (second : Regex) :
    (Regex.seq (.one accepts) second).rest? [] = none :=
  rfl

theorem rest?_either_seq (preferred other second : Regex) :
    (Regex.seq (.either preferred other) second).rest? text =
      ((Regex.seq preferred second).rest? text).or ((Regex.seq other second).rest? text) := by
  rw [rest?_seq, rest?_seq, rest?_seq, rests_either, List.findSome?_append]

/-- What follows an expression matters only by its preferred matches. -/
theorem rest?_seq_congr
    (first : Regex)
    {second other : Regex}
    (same : ∀ text, second.rest? text = other.rest? text) :
    (Regex.seq first second).rest? text = (Regex.seq first other).rest? text := by
  rw [rest?_seq, rest?_seq, funext same]

/-- After one character there is no choice. -/
theorem rest?_one_seq (accepts : Char → Bool) (second : Regex) (c : Char) (rest : List Char) :
    (Regex.seq (.one accepts) second).rest? (c :: rest) =
      if accepts c then second.rest? rest else none := by
  rw [rest?_seq, rests_one_cons]
  split
  · exact List.findSome?_singleton
  · rfl

/-- Before an expression that always matches, the preferred match is kept. -/
theorem rest?_seq_of_total
    {first second : Regex}
    {leaves : List Char → List Char}
    (total : ∀ text, second.rest? text = some (leaves text)) :
    (Regex.seq first second).rest? text = (first.rest? text).map leaves := by
  rw [rest?_seq, rest?]
  cases first.rests text with
  | nil => rfl
  | cons rest others => rw [List.findSome?_cons, total]; rfl

theorem rest?_opt (body : Regex) :
    body.opt.rest? text = some ((body.rest? text).getD text) := by
  rw [opt, rest?_either, rest?_empty]
  cases body.rest? text <;> rfl

/-- The first expression is tried with the two others on what it leaves. -/
theorem rest?_seq_assoc (first second third : Regex) :
    (Regex.seq (.seq first second) third).rest? text =
      (Regex.seq first (.seq second third)).rest? text := by
  rw [rest?, rests_seq, rests_seq, List.flatMap_assoc]
  rfl

/-- A repetition of what takes something goes on as long as the rest matches. -/
theorem rest?_many_seq {body : Regex} (takes : body.Takes) (last : Regex) :
    (Regex.seq (.many body) last).rest? text =
      ((Regex.seq body (.seq (.many body) last)).rest? text).or (last.rest? text) := by
  have unfolded : (Regex.many body).rests text =
      (body.rests text).flatMap (Regex.many body).rests ++ [text] := by
    rw [rests_many]
    congr 1
    exact List.flatMap_congr fun rest isRest => if_pos (takes text rest isRest)
  rw [rest?, rests_seq, unfolded, List.flatMap_append, List.flatMap_assoc, List.flatMap_singleton,
    List.head?_append]
  rfl

/-- A lazy repetition of what takes something goes on where the rest does not
match. -/
theorem rest?_lazyMany_seq {body : Regex} (takes : body.Takes) (last : Regex) :
    (Regex.seq (.lazyMany body) last).rest? text =
      (last.rest? text).or ((Regex.seq body (.seq (.lazyMany body) last)).rest? text) := by
  have unfolded : (Regex.lazyMany body).rests text =
      text :: (body.rests text).flatMap (Regex.lazyMany body).rests := by
    rw [rests_lazyMany]
    congr 1
    exact List.flatMap_congr fun rest isRest => if_pos (takes text rest isRest)
  rw [rest?, rests_seq, unfolded, List.flatMap_cons, List.flatMap_assoc, List.head?_append]
  rfl

/-- A repeated class takes all characters of the class. -/
theorem rest?_many_one (accepts : Char → Bool) :
    (Regex.many (.one accepts)).rest? text =
      some (text.drop (text.takeWhile accepts).length) := by
  induction text with
  | nil => simp [rest?, rests_many]
  | cons c rest inductionHypothesis =>
    rw [rest?] at inductionHypothesis ⊢
    rw [rests_many, rests_one_cons, List.takeWhile_cons]
    split
    · simp [inductionHypothesis]
    · simp

theorem rest?_plus_one (accepts : Char → Bool) (c : Char) (rest : List Char) :
    (Regex.plus (.one accepts)).rest? (c :: rest) =
      if accepts c then some (rest.drop (rest.takeWhile accepts).length) else none := by
  rw [plus, rest?_one_seq, rest?_many_one]

/-- One repetition or more of a class takes all characters of the class, and fails
if there is none. -/
theorem rest?_plus_run (accepts : Char → Bool) :
    (Regex.plus (.one accepts)).rest? text =
      if (text.takeWhile accepts).length = 0 then none
      else some (text.drop (text.takeWhile accepts).length) := by
  cases text with
  | nil => rfl
  | cons c rest =>
    rw [rest?_plus_one, List.takeWhile_cons]
    split <;> simp

theorem rests_chars (own : List Char) :
    (Regex.chars own).rests text = if own.isPrefixOf text then [text.drop own.length] else [] := by
  induction own generalizing text with
  | nil => simp [chars]
  | cons c own inductionHypothesis =>
    cases text with
    | nil => simp [chars, char]
    | cons d text =>
      by_cases isSame : d = c
      · simp [chars, char, isSame, inductionHypothesis]
      · simp [chars, char, isSame, Ne.symm isSame]

theorem rests_chars_concat (own : List Char) (c : Char) :
    (Regex.chars (own ++ [c])).rests text =
      ((Regex.chars own).rests text).flatMap (Regex.char c).rests := by
  induction own generalizing text with
  | nil =>
    simp only [List.nil_append, chars, rests_seq, rests_empty, List.flatMap_singleton]
    exact List.flatMap_singleton' _
  | cons d own inductionHypothesis =>
    simp only [List.cons_append, chars, rests_seq, List.flatMap_assoc]
    exact List.flatMap_congr fun rest _ => inductionHypothesis rest

theorem rest?_chars (own : List Char) :
    (Regex.chars own).rest? text =
      if own.isPrefixOf text then some (text.drop own.length) else none := by
  rw [rest?, rests_chars]
  split <;> rfl

theorem rest?_chars_seq (own : List Char) (second : Regex) :
    (Regex.seq (.chars own) second).rest? text =
      if own.isPrefixOf text then second.rest? (text.drop own.length) else none := by
  rw [rest?_seq, rests_chars]
  split
  · exact List.findSome?_singleton
  · rfl

/-- Of some texts with an expression after them the first that fits is taken. -/
theorem rest?_anyOf_seq (texts : List String) (last : Regex) :
    (Regex.seq (.anyOf texts) last).rest? text =
      texts.findSome? fun own =>
        if own.toList.isPrefixOf text then last.rest? (text.drop own.length) else none := by
  induction texts with
  | nil => cases text <;> simp [rest?_seq, anyOf]
  | cons own texts inductionHypothesis =>
    rw [rest?_seq] at inductionHypothesis ⊢
    rw [anyOf, rests_either, List.findSome?_append, inductionHypothesis, rests_chars, List.findSome?_cons,
      String.length_toList]
    split
    · rw [List.findSome?_singleton]
      cases last.rest? (text.drop own.length) <;> rfl
    · rfl

end Laws

end Regex

end Restyle.Lexeme
