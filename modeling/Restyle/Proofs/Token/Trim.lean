import Restyle.Proofs.Lexeme.Ends
import Restyle.Proofs.Token.Copy

/-!
Contract: tokens without the blanks around them.

Owns: that a token ends with a character that is not blank; that tokens which
stand between two offsets stand there with the blanks at the end left out; and
that a text is read in the same way with other blanks at its beginning, and
whatever a slash would mean there if no token begins with one.
-/

namespace Restyle

open Lexeme

/-! ## Blanks -/

private theorem Lexeme.CodeStep.blank_of_kind
    {nest : Nest}
    {slash : Slash}
    {first : Char}
    {rest : List Char}
    {taken : Step}
    (isStep : CodeStep nest slash first rest taken)
    (isKind : taken.kind = .blank) :
    Text.isBlank first ∧ taken.tail = (rest.takeWhile Text.isBlank).length := by
  rcases (Token.cases_of_trivia isStep (by rw [isKind]; rfl)).2 with ⟨blank, -, isTail⟩ | found
  · exact ⟨blank, isTail⟩
  · rw [isKind] at found
    simp only [comment?] at found
    split at found
    · split at found
      · simp at found
      · obtain ⟨extent, -, isPair⟩ := Option.map_eq_some_iff.mp found
        simp at isPair
      · simp at found
    · simp at found

/-- Of a text that ends with ink and blanks after it, those blanks and the ones
at the beginning are taken. -/
theorem Text.toList_strip
    {text blanks : List Char}
    (areBlank : ∀ c ∈ blanks, Text.isBlank c)
    (ends : text = [] ∨ EndsInked text) :
    (Text.strip (String.ofList (text ++ blanks))).toList = text.dropWhile Text.isBlank := by
  rw [Text.strip, Text.trim, String.toList_ofList, String.toList_ofList]
  rcases ends with rfl | ⟨front, last, rfl, inked⟩
  · rw [List.nil_append, ← List.append_nil blanks, List.dropWhile_append_of_pos areBlank]
    rfl
  · have isDropped : ∀ after, (front ++ [last] ++ after).dropWhile Text.isBlank =
        front.dropWhile Text.isBlank ++ [last] ++ after := by
      intro after
      rw [List.append_assoc, List.dropWhile_append, List.singleton_append,
        List.dropWhile_cons_of_neg (by simp [inked])]
      split
      · rename_i isEmpty
        rw [List.isEmpty_iff.mp isEmpty]
        rfl
      · simp
    rw [isDropped, ← List.append_nil (front ++ [last]), isDropped, List.reverse_append,
      List.dropWhile_append_of_pos (fun c member => areBlank c (List.mem_reverse.mp member))]
    simp [inked]

namespace Token

section Lexeme

variable
  {source : List Char}
  {offset : Nat}
  {slash next : Slash}
  {first : Char}
  {body : List Char}
  {kind : Lexeme.Kind}
  (lexeme : StandsAt source offset slash first body kind next)

include lexeme

private theorem inkedAt_of_standsAt (notBlank : kind ≠ .blank) (notComment : kind ≠ .lineComment) :
    Text.InkedAt source (offset + body.length) := by
  obtain ⟨nest, inner, -, isStep⟩ := lexeme.isStep
  have spec := codeStep_spec nest slash first (body ++ source.drop (offset + body.length + 1))
  rw [isStep] at spec
  obtain ⟨front, last, isText, inked⟩ := spec.endsInked notBlank notComment
  refine ⟨last, ?_, by simpa using inked⟩
  rw [List.take_left] at isText
  have size : front.length = body.length := by
    have := congrArg List.length isText
    simpa using this.symm
  rw [← List.getElem?_drop, lexeme.isText, ← List.cons_append, isText, ← size,
    List.append_assoc, List.getElem?_append_right (Nat.le_refl _), Nat.sub_self]
  rfl

private theorem blank_of_standsAt
    (isBlank : kind = .blank) :
    ∀ c ∈ first :: body, Text.isBlank c := by
  obtain ⟨nest, inner, -, isStep⟩ := lexeme.isStep
  have spec := codeStep_spec nest slash first (body ++ source.drop (offset + body.length + 1))
  rw [isStep] at spec
  obtain ⟨firstBlank, isTail⟩ := spec.blank_of_kind isBlank
  intro c member
  rcases List.mem_cons.mp member with rfl | member
  · exact firstBlank
  · have isBody := List.prefix_iff_eq_take.mp (List.takeWhile_prefix Text.isBlank
      (l := body ++ source.drop (offset + body.length + 1)))
    rw [← isTail, List.take_left] at isBody
    rw [← isBody] at member
    exact List.all_eq_true.mp List.all_takeWhile c member

end Lexeme

/-- A token ends with a character that is not blank. -/
theorem Stands.inkedAt_last
    {source : List Char}
    {slash next : Slash}
    {offset stop : Nat}
    {token : Token}
    (stands : Stands source slash offset token next stop) :
    Text.InkedAt source (stop - 1) := by
  cases stands with
  | atom lexeme isAtom =>
    refine inkedAt_of_standsAt lexeme ?_ ?_
    · rintro rfl
      simp [Lexeme.Kind.isAtom] at isAtom
    · rintro rfl
      simp [Lexeme.Kind.isAtom] at isAtom
  | template _ _ _ _ _ closing => exact ⟨'`', closing, by decide⟩

/-- Tokens between two offsets, with only blanks after an earlier one. -/
structure TrimmedAt (source : List Char) (slash : Slash) (start : Nat) (tokens : List Token)
    (last : Slash) (stop close : Nat) : Prop where
  stands : ListStands source slash start tokens last close
  inside : close ≤ stop
  blank : ∀ c ∈ Text.slice source close stop, Text.isBlank c
  ends : close = start ∧ tokens = [] ∧ last = slash ∨ CommentEnds source close ∨
    Text.InkedAt source (close - 1)

/-- Tokens stand between two offsets with the blanks at the end left out. -/
theorem ListStands.trim
    {source : List Char}
    {slash last : Slash}
    {start stop : Nat}
    {tokens : List Token}
    (stands : ListStands source slash start tokens last stop) :
    ∃ close, TrimmedAt source slash start tokens last stop close :=
  match tokens, stands with
  | [], .nil => ⟨_, .nil, Nat.le_refl _, by simp, .inl ⟨rfl, rfl, rfl⟩⟩
  | _, .trivia lexeme isTrivia later => by
    obtain ⟨close, trimmed⟩ := later.trim
    rename_i first body kind
    rcases trimmed.ends with ⟨isClose, rfl, rfl⟩ | ends
    · have late := later.le
      by_cases isBlank : kind = .blank
      · refine ⟨start, .nil, by omega, ?_, .inl ⟨rfl, rfl, rfl⟩⟩
        intro c member
        rw [slice_of_drop lexeme.isText late, ← List.cons_append, List.mem_append] at member
        rcases member with member | member
        · exact blank_of_standsAt lexeme isBlank c member
        · exact trimmed.blank c (isClose ▸ member)
      · refine ⟨close, .trivia lexeme isTrivia trimmed.stands, trimmed.inside, trimmed.blank, .inr ?_⟩
        by_cases isComment : kind = .lineComment
        · subst isComment isClose
          exact .inl ⟨_, _, _, _, _, lexeme, rfl⟩
        · subst isClose
          exact .inr (inkedAt_of_standsAt lexeme isBlank isComment)
    · exact ⟨close, .trivia lexeme isTrivia trimmed.stands, trimmed.inside, trimmed.blank, .inr ends⟩
  | _ :: _, .cons own later => by
    obtain ⟨close, trimmed⟩ := later.trim
    refine ⟨close, .cons own trimmed.stands, trimmed.inside, trimmed.blank, .inr ?_⟩
    rcases trimmed.ends with ⟨rfl, -, -⟩ | ends
    · exact .inr own.inkedAt_last
    · exact ends

/-! ## Blanks at the beginning -/

/-- A text is read in the same way without the blanks at its beginning. -/
theorem CodeRun.dropBlanks
    {nest last : Nest}
    {slash final : Slash}
    {text left : List Char}
    {faces : List Face}
    (run : CodeRun nest slash (text ++ left) faces last final left)
    (stopped : left.head?.any Text.isBlank = false) :
    CodeRun nest slash (text.dropWhile Text.isBlank ++ left) faces last final left := by
  cases text with
  | nil => exact run
  | cons c text =>
    by_cases blank : Text.isBlank c
    · rw [List.dropWhile_cons_of_pos blank]
      have isStep : ∀ rest, rest = text ++ left → codeStep nest slash c rest =
          ⟨.blank, (text.takeWhile Text.isBlank).length, .code nest slash⟩ := by
        rintro rest rfl
        rw [codeStep_of_blank blank, takeWhile_append_of_head stopped]
      rw [List.cons_append] at run
      generalize isText : c :: (text ++ left) = whole at run
      cases run with
      | here =>
        have := congrArg List.length isText
        simp at this
        omega
      | trivia ownStep isTrivia later =>
        rename_i body rest kind
        obtain ⟨rfl, isRest⟩ := List.cons.inj isText
        rw [isStep _ isRest.symm] at ownStep
        simp only [Step.mk.injEq, State.code.injEq] at ownStep
        obtain ⟨-, size, rfl, rfl⟩ := ownStep
        have isLater : rest = text.dropWhile Text.isBlank ++ left := by
          rw [← List.takeWhile_append_dropWhile (p := Text.isBlank) (l := text),
            List.append_assoc] at isRest
          exact (List.append_inj isRest size).2.symm
        rwa [← isLater]
      | atom ownStep isAtom =>
        obtain ⟨rfl, isRest⟩ := List.cons.inj isText
        rw [isStep _ isRest.symm] at ownStep
        simp only [Step.mk.injEq] at ownStep
        simp [← ownStep.1, Lexeme.Kind.isAtom] at isAtom
      | template =>
        obtain ⟨rfl, -⟩ := List.cons.inj isText
        exact absurd blank (by decide)
    · rw [List.dropWhile_cons_of_neg blank]
      exact run

/-- A text that begins with ink is read in the same way with blanks before it. -/
theorem CodeRun.addBlanks
    {nest last : Nest}
    {slash final : Slash}
    {text left blanks : List Char}
    {faces : List Face}
    (run : CodeRun nest slash text faces last final left)
    (inked : text.head?.any Text.isBlank = false)
    (areBlank : ∀ c ∈ blanks, Text.isBlank c) :
    CodeRun nest slash (blanks ++ text) faces last final left := by
  cases blanks with
  | nil => exact run
  | cons c blanks =>
    obtain ⟨blank, others⟩ := List.forall_mem_cons.mp areBlank
    have isStep : codeStep nest slash c (blanks ++ text) =
        ⟨.blank, blanks.length, .code nest slash⟩ := by
      rw [codeStep_of_blank blank, takeWhile_append_of_head inked, ← List.append_nil blanks,
        List.takeWhile_append_of_pos others]
      simp
    exact .trivia isStep rfl run

/-- A text that is read to its end is read in the same way with other blanks before
it. -/
theorem CodeRun.reblank
    {nest last : Nest}
    {slash final : Slash}
    {before blanks text : List Char}
    {faces : List Face}
    (run : CodeRun nest slash (before ++ text) faces last final [])
    (beforeBlank : ∀ c ∈ before, Text.isBlank c)
    (areBlank : ∀ c ∈ blanks, Text.isBlank c) :
    CodeRun nest slash (blanks ++ text) faces last final [] := by
  rw [← List.append_nil (before ++ text)] at run
  have core := run.dropBlanks rfl
  rw [List.append_nil, List.dropWhile_append_of_pos beforeBlank] at core
  have inked : (text.dropWhile Text.isBlank).head?.any Text.isBlank = false := by
    have notBlank := List.head?_dropWhile_not Text.isBlank text
    cases isHead : (text.dropWhile Text.isBlank).head? with
    | none => rfl
    | some c => simpa [isHead] using notBlank
  rw [← List.takeWhile_append_dropWhile (p := Text.isBlank) (l := text), ← List.append_assoc]
  refine core.addBlanks inked fun c member => ?_
  rcases List.mem_append.mp member with early | late
  · exact areBlank c early
  · exact List.all_eq_true.mp List.all_takeWhile c late

/-! ## The meaning of a slash -/

def Face.isSlashed (face : Face) : Bool :=
  face.text.toList.head? = some '/'

private theorem ne_slash_of_not_isSlashed
    {kind : Option Kind}
    {first : Char}
    {body : List Char}
    (unslashed : Face.isSlashed ⟨kind, String.ofList (first :: body)⟩ = false) :
    first ≠ '/' := by
  rintro rfl
  simp [Face.isSlashed] at unslashed

/-- A token that does not begin with a slash is read in the same way whatever a slash
would mean. -/
theorem codeStep_restate
    {nest : Nest}
    {slash : Slash}
    {first : Char}
    {rest : List Char}
    {kind : Lexeme.Kind}
    {tail : Nat}
    {next : State}
    (isStep : codeStep nest slash first rest = ⟨kind, tail, next⟩)
    (isAtom : kind.isAtom)
    (noSlash : first ≠ '/')
    (other : Slash) :
    codeStep nest other first rest = ⟨kind, tail, next⟩ := by
  have inked : Text.isBlank first = false := by
    cases blank : Text.isBlank first with
    | false => rfl
    | true =>
      rw [codeStep_of_blank blank] at isStep
      rw [← (Step.mk.inj isStep).1] at isAtom
      simp [Lexeme.Kind.isAtom] at isAtom
  have noComment : comment? first rest = none := by simp [comment?, noSlash]
  have noPattern : ∀ own, pattern? own first rest = none := fun own => by simp [pattern?, noSlash]
  rw [← isStep]
  simp only [codeStep, inked, noComment, noPattern, Bool.false_eq_true, if_false]

/-- A text whose first token does not begin with a slash is read in the same way
whatever a slash would mean before it. -/
theorem CodeRun.restate
    {nest last : Nest}
    {slash final : Slash}
    {text left : List Char}
    {faces : List Face}
    (run : CodeRun nest slash text faces last final left)
    (unslashed : faces.head?.any (·.isSlashed) = false)
    (other : Slash) :
    ∃ ending, CodeRun nest other text faces last ending left :=
  match run with
  | .here => ⟨_, .here⟩
  | .trivia isStep isTrivia later => by
    rename_i inner next first body rest kind
    have spec := codeStep_spec nest slash first (body ++ rest)
    rw [isStep] at spec
    obtain ⟨isNext, isForm⟩ := cases_of_trivia spec isTrivia
    obtain ⟨rfl, rfl⟩ := State.code.inj isNext
    obtain ⟨ending, restated⟩ := later.restate unslashed other
    refine ⟨ending, .trivia ?_ isTrivia restated⟩
    rcases isForm with ⟨blank, isKind, isTail⟩ | found
    · obtain rfl : kind = .blank := isKind
      rw [codeStep_of_blank blank, ← isTail]
    · exact codeStep_of_comment found
  | .atom isStep isAtom later =>
    ⟨final, .atom (codeStep_restate isStep isAtom (ne_slash_of_not_isSlashed unslashed) other) isAtom
      later⟩
  | .template inside later => ⟨final, .template inside later⟩

end Token

end Restyle
