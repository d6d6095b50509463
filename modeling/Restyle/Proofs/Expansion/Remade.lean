import Restyle.Proofs.Expansion.Amended

/-!
Contract: an expanded module is read again.

Owns: that the outputs of a module together with the edits of its import statements
make a text with the faces of an expanded module.  The tokens of the module are
taken from one import statement to the next: `Reached` is what is known of them at
its end, and `Remade` is what is made of them.
-/

namespace Restyle

open Token Lexeme Restyle.Bracket Declaration

/-- An import statement among some tokens stands between its own offsets. -/
theorem Declaration.Statement.stands
    {source : List Char}
    {slash last : Slash}
    {offset stop : Nat}
    {segment covered after : List Token}
    {keyword : Token}
    {declaration : Declaration}
    (own : Statement keyword covered declaration)
    (stands : ListStands source slash offset (segment ++ keyword :: (covered ++ after)) last stop) :
    ∃ before next, ListStands source slash offset segment before declaration.start ∧
      ListStands source before declaration.start (keyword :: covered) next declaration.stop ∧
      ListStands source next declaration.stop after last stop := by
  obtain ⟨before, middle, first, rest⟩ := stands.split segment _ rfl
  obtain ⟨begins, next, ends, gap, isKeyword, others⟩ := rest.uncons keyword _ rfl
  obtain ⟨front, final, rfl, isStop, -⟩ := own.ends
  obtain ⟨_, _, inside, tail⟩ := others.split (front ++ [final]) after rfl
  obtain ⟨_, _, frontStands, lastStands⟩ := inside.split front [final] rfl
  obtain ⟨_, turn, close, trivia, isLast, nothing⟩ := lastStands.uncons final [] rfl
  obtain ⟨isStart, -⟩ := isKeyword.bounds
  obtain ⟨-, rfl⟩ := isLast.bounds
  have isBegin := own.begins
  rw [isStart] at isBegin
  rw [isBegin, isStop]
  refine ⟨before, turn, ?_, ?_, nothing.append tail⟩
  · simpa using first.append gap
  · exact .cons isKeyword (frontStands.append (trivia.append (.cons isLast .nil)))

namespace Expansion

open Output

/-! ## All import statements -/

section Sections

variable
  {settings : Settings}
  {bindings : Binding.Table}
  {allowed : String → List Specifier → Prop}
  {source : String}
  {all : List Token}

/-- What is asked of an import statement: one that is rewritten may be, and what is
kept of any may be imported. -/
structure Admits (settings : Settings) (bindings : Binding.Table)
    (allowed : String → List Specifier → Prop) (source : String) (all : List Token)
    (declaration : Declaration) : Prop where
  framed : Text.Framed source.toList declaration.start declaration.stop
  amendable : losesName settings bindings declaration →
    Amendable source.toList all bindings declaration
  residual : losesName settings bindings declaration →
    allowed declaration.path (residualSpecifiers bindings declaration)
  kept : losesName settings bindings declaration = false →
    allowed declaration.path declaration.specifiers

/-- What is left of an import statement that loses a name is announced. -/
theorem Admits.announced
    {declaration : Declaration}
    (admits : Admits settings bindings allowed source all declaration)
    (loses : losesName settings bindings declaration)
    {text : String}
    (isLeft : residualImport? declaration (unknownNames bindings declaration) = some text) :
    Announced allowed text := by
  have someLeft : residualSpecifiers bindings declaration ≠ [] := by
    intro isEmpty
    rw [← residualImport?_residualSpecifiers, isEmpty] at isLeft
    simp [residualImport?] at isLeft
  obtain ⟨plain, readBack⟩ := (admits.amendable loses).readBack someLeft
  obtain ⟨covered, announces⟩ := announces_residual plain readBack isLeft
  exact ⟨covered, _, _, announces, admits.residual loses⟩

/-- What is known of the tokens of a module from an offset on, with outputs in place of
some of them.  The offset is the end of a token or the beginning of the source. -/
structure Reached (settings : Settings) (source : String) (all early tokens : List Token)
    (slash : Slash) (offset : Nat) (outputs : List Output) (stack : List String) : Prop where
  isAll : all = early ++ tokens
  passed : ∀ token ∈ early, token.start < offset
  begins : offset = 0 ∨ Text.InkedAt source.toList (offset - 1)
  stands : ∃ last, ListStands source.toList slash offset tokens last source.length
  isSettled : SettledBetween source.toList offset source.length
  placed : ∀ token ∈ tokens, Token.Placed source.toList token
  woven : Woven tokens outputs
  closes : ∃ left, awaited true stack (tokens.map Token.face) = some left
  declares : ∀ output ∈ outputs, ∀ own, output.ReadsAs own → declaresNone settings own

/-- What is known of the tokens between two offsets that precede an import statement. -/
structure Preceding (settings : Settings) (source : String) (segment : List Token)
    (slash : Slash) (offset : Nat) (outputs : List Output) (stack outer : List String)
    (before : Slash) (start : Nat) : Prop where
  begins : offset = 0 ∨ Text.InkedAt source.toList (offset - 1)
  stands : ListStands source.toList slash offset segment before start
  isSettled : SettledBetween source.toList offset start
  placed : ∀ token ∈ segment, Token.Placed source.toList token
  woven : Woven segment outputs
  closes : awaited true stack (segment.map Token.face) = some outer
  declares : ∀ output ∈ outputs, ∀ own, output.ReadsAs own → declaresNone settings own

/-- What is made of the tokens of a module from an offset on. -/
structure Remade (settings : Settings) (bindings : Binding.Table)
    (allowed : String → List Specifier → Prop) (source : String) (leading : List String)
    (statements : List Declaration) (tokens loose : List Token) (slash : Slash) (offset : Nat)
    (outputs : List Output) (edits : List Edit) (faces : List Face) : Prop where
  same : edits.Perm (outputs.map edit ++ amendments settings source bindings leading statements)
  recasts : Recasts source.toList slash offset edits faces
  echoes : Echoes settings allowed loose faces
  unslashed : tokens.head?.any (·.face.isSlashed) = false → faces.head?.any (·.isSlashed) = false

variable
  {early segment covered after tokens loose : List Token}
  {keyword : Token}
  {declaration : Declaration}
  {statements : List Declaration}
  {leading : List String}
  {slash before next : Slash}
  {offset : Nat}
  {stack outer further : List String}
  {outputs first others : List Output}
  {edits : List Edit}
  {rest : List Face}

/-- The tokens before an import statement, the statement and the tokens after it. -/
theorem Reached.cut
    (reached : Reached settings source all early (segment ++ keyword :: (covered ++ after)) slash
      offset outputs stack)
    (own : Statement keyword covered declaration)
    (framed : Text.Framed source.toList declaration.start declaration.stop)
    (apart : ∀ output ∈ outputs,
      output.stop ≤ declaration.start ∨ declaration.stop ≤ output.start) :
    ∃ before next first others outer further,
      outputs = first ++ others ∧
      Preceding settings source segment slash offset first stack outer before declaration.start ∧
      Rereads source.toList before declaration.start [] true outer
        ((keyword :: covered).map Token.face) further next declaration.stop ∧
      Reached settings source all (early ++ (segment ++ keyword :: covered)) after next
        declaration.stop others further := by
  obtain ⟨last, stands⟩ := reached.stands
  obtain ⟨left, closes⟩ := reached.closes
  obtain ⟨before, next, segmentStands, ownStands, afterStands⟩ := own.stands stands
  have isOffset := segmentStands.le
  have nonempty := framed.nonempty
  have isEnd := afterStands.le
  have woven := reached.woven
  obtain ⟨first, rest, rfl, isFirst, isRest⟩ := @Woven.split segment _ _ woven declaration.start
    (fun token member => by
      have := segmentStands.bounds_of_mem member
      omega)
    (fun token member => by
      have := (ownStands.append afterStands).bounds_of_mem member
      omega)
    (fun output member => by
      have := apart output member
      omega)
  obtain ⟨none, others, rfl, isNone, isOthers⟩ := @Woven.split (keyword :: covered) _ _ isRest
    declaration.stop
    (fun token member => by
      have := ownStands.bounds_of_mem member
      omega)
    (fun token member => by
      have := afterStands.bounds_of_mem member
      omega)
    (fun output member => by
      have := apart output (List.mem_append_right _ member)
      omega)
  have isSplit : (segment ++ keyword :: (covered ++ after)).map Token.face =
      segment.map Token.face ++ ((keyword :: covered).map Token.face ++ after.map Token.face) := by
    simp
  rw [isSplit, awaited_append, Option.bind_eq_some_iff] at closes
  obtain ⟨outer, isOuter, closes⟩ := closes
  rw [awaited_append, Option.bind_eq_some_iff] at closes
  obtain ⟨further, isFurther, closes⟩ := closes
  obtain ⟨faces, respelled, reread⟩ := isNone.rereads ownStands
    (reached.isSettled.narrow isOffset isEnd) isFurther
  -- No output stands in a statement, for none overlaps it.
  obtain rfl : none = [] := by
    cases none with
    | nil => rfl
    | cons output none =>
      obtain ⟨lower, positive, later⟩ := reread.ascends
      have := later.le
      have := apart output (by simp)
      omega
  have isFaces := faces_of_respelled respelled
    (fun token member => reached.placed token (by simp at member ⊢; tauto))
  rw [isFaces] at reread
  refine ⟨before, next, first, others, outer, further, rfl, ⟨reached.begins, segmentStands,
    reached.isSettled.narrow (Nat.le_refl _) (by omega), ?_, isFirst, isOuter, ?_⟩, reread,
    ?_, ?_, .inr framed.last, ⟨last, afterStands⟩,
    reached.isSettled.narrow (by omega) (Nat.le_refl _), ?_, isOthers, ⟨left, closes⟩, ?_⟩
  · exact fun token member => reached.placed token (by simp [member])
  · exact fun output member => reached.declares output (by simp [member])
  · rw [reached.isAll]
    simp
  · intro token member
    rcases List.mem_append.mp member with isEarly | isOwn
    · have := reached.passed token isEarly
      omega
    · have := (segmentStands.append ownStands).bounds_of_mem isOwn
      omega
  · exact fun token member => reached.placed token (by simp [member])
  · exact fun output member => reached.declares output (by simp [member])

private theorem Reached.head_unslashed
    (reached : Reached settings source all early tokens slash offset outputs stack)
    (unslashed : (all.find? (offset ≤ ·.start)).any (·.face.isSlashed) = false) :
    tokens.head?.any (·.face.isSlashed) = false := by
  obtain ⟨last, stands⟩ := reached.stands
  have isPassed : early.find? (offset ≤ ·.start) = none := by
    refine List.find?_eq_none.mpr fun token member => ?_
    have := reached.passed token member
    simpa using this
  rw [reached.isAll, List.find?_append, isPassed, Option.none_or] at unslashed
  cases tokens with
  | nil => rfl
  | cons token tokens =>
    have isLater := (stands.bounds_of_mem List.mem_cons_self).1
    rwa [List.find?_cons_of_pos (by simpa using isLater)] at unslashed

private theorem unslashed_append
    {faces others : List Face}
    (first : faces.head?.any (·.isSlashed) = false)
    (second : others.head?.any (·.isSlashed) = false) :
    (faces ++ others).head?.any (·.isSlashed) = false := by
  cases faces with
  | nil => exact second
  | cons face faces => exact first

/-- Tokens before an import statement that is read again, or after which nothing is
left of the statement. -/
theorem Preceding.echoes
    {faces : List Face}
    (preceding : Preceding settings source segment slash offset first stack outer before
      declaration.start)
    (respelled : Respelled source.toList segment first faces)
    (free : Free (keyword :: (covered ++ after)) segment)
    (begins : beginsImport keyword.face ((covered ++ after).map Token.face))
    (later : Echoes settings allowed loose rest) :
    Echoes settings allowed (segment ++ loose) (faces ++ rest) := by
  refine echoes_of_respelled respelled preceding.placed free preceding.declares (by simp) ?_ later
  intro token others isNext
  obtain ⟨rfl, -⟩ := List.cons.inj isNext
  simp only [beginsImport, Bool.and_eq_true, decide_eq_true_eq, Token.text_face] at begins
  exact begins.1.2

private theorem face_of_begins
    {others : List Face}
    (begins : beginsImport keyword.face others) :
    keyword.face = importFace := by
  simp only [beginsImport, Bool.and_eq_true, decide_eq_true_eq] at begins
  generalize keyword.face = face at begins
  obtain ⟨kind, text⟩ := face
  obtain ⟨⟨rfl, rfl⟩, -⟩ := begins
  rfl

private theorem head_of_append
    (others : List Token)
    (unslashed : (segment ++ others).head?.any (·.face.isSlashed) = false) :
    segment.head?.any (·.face.isSlashed) = false := by
  cases segment with
  | nil => rfl
  | cons token segment => exact unslashed

private theorem remade_kept
    (preceding : Preceding settings source segment slash offset first stack outer before
      declaration.start)
    (statement : Rereads source.toList before declaration.start [] true outer
      ((keyword :: covered).map Token.face) further next declaration.stop)
    (framed : Text.Framed source.toList declaration.start declaration.stop)
    (free : Free (keyword :: (covered ++ after)) segment)
    (begins : beginsImport keyword.face ((covered ++ after).map Token.face))
    (nonempty : covered ≠ [])
    (states : States (covered.map Token.face) declaration.path declaration.specifiers)
    (isAllowed : allowed declaration.path declaration.specifiers)
    (keeps : losesName settings bindings declaration = false)
    (later : Remade settings bindings allowed source leading statements after loose next
      declaration.stop others edits rest) :
    ∃ edits faces, Remade settings bindings allowed source leading (declaration :: statements)
      (segment ++ keyword :: (covered ++ after)) (segment ++ loose) slash offset (first ++ others)
      edits faces := by
  obtain ⟨faces, respelled, reread⟩ :=
    preceding.woven.rereads preceding.stands preceding.isSettled preceding.closes
  have positive := framed.nonempty
  have recasts := later.recasts.prepend (rereads_append reread statement) framed.inside (by omega)
  have isKeyword := face_of_begins begins
  have starts : beginsImport importFace (covered.map Token.face) := by
    obtain ⟨token, tokens, rfl⟩ := List.exists_cons_of_ne_nil nonempty
    rw [← isKeyword]
    exact begins
  rw [List.append_nil, List.append_assoc, List.map_cons, isKeyword] at recasts
  refine ⟨_, _, ?_, recasts, ?_, fun unslashed => ?_⟩
  · rw [amendments, if_neg (by simp [keeps]), List.map_append, List.append_assoc]
    exact later.same.append_left _
  · exact preceding.echoes respelled free begins (.statement starts states isAllowed later.echoes)
  · exact unslashed_append (not_isSlashed_of_respelled respelled (head_of_append _ unslashed)) rfl

/-- The edits of a segment, of the statement after it and of what follows. -/
theorem perm_of_loses
    {edit : Edit}
    (loses : losesName settings bindings declaration)
    (isEdit : declarationEdit source bindings leading declaration = edit)
    (same : edits.Perm (others.map Output.edit ++
      amendments settings source bindings [] statements)) :
    (first.map Output.edit ++ edit :: edits).Perm ((first ++ others).map Output.edit ++
      amendments settings source bindings leading (declaration :: statements)) := by
  rw [amendments, if_pos loses, isEdit, List.map_append, List.append_assoc]
  exact ((same.cons edit).trans List.perm_middle.symm).append_left _

private theorem remade_replaced
    (preceding : Preceding settings source segment slash offset first stack outer before
      declaration.start)
    (framed : Text.Framed source.toList declaration.start declaration.stop)
    (placed : Token.Placed source.toList keyword)
    (isStart : declaration.start = keyword.start)
    (free : Free (keyword :: (covered ++ after)) segment)
    (begins : beginsImport keyword.face ((covered ++ after).map Token.face))
    (loses : losesName settings bindings declaration)
    {texts : List String}
    (isTexts : leading ++ (residualImport? declaration (unknownNames bindings declaration)).toList =
      texts)
    (someLeft : texts ≠ [])
    (announced : ∀ text ∈ texts, Announced allowed text)
    (unslashed : after.head?.any (·.face.isSlashed) = false)
    (later : Remade settings bindings allowed source [] statements after loose next
      declaration.stop others edits rest) :
    ∃ edits faces, Remade settings bindings allowed source leading (declaration :: statements)
      (segment ++ keyword :: (covered ++ after)) (segment ++ loose) slash offset (first ++ others)
      edits faces := by
  obtain ⟨faces, respelled, reread⟩ :=
    preceding.woven.rereads preceding.stands preceding.isSettled preceding.closes
  obtain ⟨chars, own, isText, isHead, echo, runs⟩ := exists_faces_of_announced someLeft announced
    (isBlank_of_indentAt source declaration.start)
  have starts : Text.isIdentifierStart 'i' := by decide
  have isKeyword : keyword.text = "import" := by
    rw [← Token.text_face, face_of_begins begins]
    rfl
  obtain ⟨more, stands⟩ : ∃ more, source.toList.drop declaration.start = 'i' :: more := by
    have isSpelled := placed.text_eq
    have isWord : "import".toList = 'i' :: "mport".toList := by decide
    rw [isKeyword, isWord, ← isStart, Text.slice_eq_take_drop] at isSpelled
    cases isRest : source.toList.drop declaration.start with
    | nil => simp [isRest] at isSpelled
    | cons c more =>
      rw [isRest] at isSpelled
      cases size : keyword.stop - declaration.start with
      | zero => simp [size] at isSpelled
      | succ size =>
        rw [size, List.take_succ_cons] at isSpelled
        exact ⟨more, by rw [← (List.cons.inj isSpelled).1]⟩
  have recasts := later.recasts.replace reread framed.nonempty framed.inside stands starts isText
    starts runs (later.unslashed unslashed)
  refine ⟨_, _, perm_of_loses loses ?_ later.same, recasts, ?_, fun isUnslashed => ?_⟩
  · unfold declarationEdit
    simp only [isTexts]
  · exact preceding.echoes respelled free begins (echo _ _ later.echoes)
  · refine unslashed_append (not_isSlashed_of_respelled respelled (head_of_append _ isUnslashed)) ?_
    rw [List.head?_append, isHead]
    rfl

private theorem remade_removed
    (preceding : Preceding settings source segment slash offset first stack outer before
      declaration.start)
    (framed : Text.Framed source.toList declaration.start declaration.stop)
    (free : Free (keyword :: (covered ++ after)) segment)
    (begins : beginsImport keyword.face ((covered ++ after).map Token.face))
    (loses : losesName settings bindings declaration)
    (noneLeft : leading ++ (residualImport? declaration
      (unknownNames bindings declaration)).toList = [])
    (detached : declaration.start = 0 ∨
      ¬ Text.InkedAt source.toList (declaration.start - 1))
    (apart : ∀ other ∈ others.map Output.edit ++ amendments settings source bindings [] statements,
      Edit.Apart (declarationEdit source bindings leading declaration) other)
    (unslashed : after.head?.any (·.face.isSlashed) = false)
    (later : Remade settings bindings allowed source [] statements after loose next
      declaration.stop others edits rest) :
    ∃ edits faces, Remade settings bindings allowed source leading (declaration :: statements)
      (segment ++ keyword :: (covered ++ after)) (segment ++ loose) slash offset (first ++ others)
      edits faces := by
  obtain ⟨start, stop, isRemoval, widened, isDetached⟩ := exists_removal framed detached
  obtain ⟨close, trimmed⟩ := preceding.stands.trim
  obtain ⟨faces, respelled, reread⟩ := preceding.woven.rereads trimmed.stands
    (preceding.isSettled.narrow (Nat.le_refl _) trimmed.inside) preceding.closes
  have separate := separate_of_trimmed trimmed preceding.begins framed widened isDetached
  have isEdit : declarationEdit source bindings leading declaration = ⟨start, stop, ""⟩ := by
    unfold declarationEdit
    simp only [noneLeft, isRemoval]
  have nonempty := framed.nonempty
  have lower := widened.lower
  have upper := widened.upper
  have unmarked := later.unslashed unslashed
  obtain ⟨text, last, spliced, run, follows⟩ := later.recasts
  have beyond : ∀ edit ∈ edits, (stop : Int) ≤ edit.start := by
    intro edit member
    have isBeyond := spliced.start_le edit member
    have isNonempty := spliced.nonempty edit member
    have isApart := apart edit (later.same.mem_iff.mp member)
    rw [isEdit] at isApart
    rcases isApart with isAfter | isBefore
    · exact isAfter
    · simp only at isBefore
      omega
  have recasts := later.recasts.remove reread (by omega : close ≤ start) (by omega) upper
    widened.inside beyond (fun c member => trimmed.blank c ?_) ?_ unmarked ?_
  · refine ⟨_, _, perm_of_loses loses isEdit later.same, recasts, ?_, fun isUnslashed => ?_⟩
    · exact preceding.echoes respelled free begins later.echoes
    · exact unslashed_append (not_isSlashed_of_respelled respelled (head_of_append _ isUnslashed))
        unmarked
  · rw [← Text.slice_append_slice source.toList (by omega : close ≤ start) lower]
    exact List.mem_append_left _ member
  · intro c member
    obtain ⟨trail, ending, isTrail, margin, isEnding⟩ := widened.trail
    rw [isTrail] at member
    rcases List.mem_append.mp member with isMargin | isFeed
    · exact (margin c isMargin).1
    · rcases isEnding with rfl | ⟨rfl, -⟩
      · rw [List.mem_singleton.mp isFeed]
        decide
      · simp at isFeed
  · rcases separate with blank | ⟨rfl, rfl, rfl⟩
    · exact .inl blank
    · obtain ⟨rfl, rfl⟩ := trimmed.stands.nil_of_self
      have woven := preceding.woven
      cases woven
      cases respelled
      exact .inr ⟨rfl, rfl, rfl, rfl, rfl⟩

/-- The tokens of a module from an offset on, with outputs in place of some of them and
its import statements edited, are read with the faces of an expanded module. -/
theorem exists_remade
    (sectioned : Sectioned tokens statements loose)
    (reached : Reached settings source all early tokens slash offset outputs stack)
    (admits : ∀ declaration ∈ statements, Admits settings bindings allowed source all declaration)
    (announced : ∀ text ∈ leading, Announced allowed text)
    (apart : ∀ output ∈ outputs, ∀ declaration ∈ statements,
      output.stop ≤ declaration.start ∨ declaration.stop ≤ output.start)
    (editsApart : (outputs.map edit ++
      amendments settings source bindings leading statements).Pairwise Edit.Apart) :
    ∃ edits faces, Remade settings bindings allowed source leading statements tokens loose slash
      offset outputs edits faces := by
  -- The induction is on the import statements; what is made of the tokens after a
  -- statement begins at its end, even where the blanks there are taken away, too.
  induction sectioned generalizing early slash offset outputs stack leading with
  | @last segment free =>
    obtain ⟨last, stands⟩ := reached.stands
    obtain ⟨left, closes⟩ := reached.closes
    rw [← String.length_toList] at stands
    obtain ⟨faces, respelled, reread⟩ := reached.woven.rereads stands
      (reached.isSettled.narrow (Nat.le_refl _) (Nat.le_of_eq String.length_toList)) closes
    refine ⟨_, faces, ?_, recasts_last reread, ?_, not_isSlashed_of_respelled respelled⟩
    · rw [amendments, List.append_nil]
    · have echoes := echoes_of_respelled respelled reached.placed free reached.declares
        (fun _ => rfl) (by simp) (@Echoes.nil settings allowed)
      rwa [List.append_nil, List.append_nil] at echoes
  | @statement segment covered after loose keyword declaration statements free begins states own
      later inductionHypothesis =>
    obtain ⟨ownAdmits, othersAdmit⟩ := List.forall_mem_cons.mp admits
    have framed := ownAdmits.framed
    obtain ⟨before, next, first, others, outer, further, rfl, preceding, statement, reachedAfter⟩ :=
      reached.cut own framed (fun output member => apart output member declaration
        List.mem_cons_self)
    have apartAfter : ∀ output ∈ others, ∀ declaration ∈ statements,
        output.stop ≤ declaration.start ∨ declaration.stop ≤ output.start :=
      fun output member other isOther => apart output (List.mem_append_right _ member) other
        (List.mem_cons_of_mem _ isOther)
    have nonempty : covered ≠ [] := by
      obtain ⟨front, last, rfl, -⟩ := own.ends
      simp
    rw [amendments] at editsApart
    by_cases loses : losesName settings bindings declaration
    · rw [if_pos loses] at editsApart
      obtain ⟨ownApart, restApart⟩ := List.pairwise_cons.mp
        (editsApart.perm List.perm_middle Edit.Apart.symm)
      have fewer : (others.map edit ++ amendments settings source bindings [] statements).Sublist
          ((first ++ others).map edit ++ amendments settings source bindings [] statements) := by
        rw [List.map_append]
        exact (List.sublist_append_right _ _).append_right _
      obtain ⟨edits, rest, remade⟩ := @inductionHypothesis _ [] _ _ _ _ reachedAfter othersAdmit
        (by simp) apartAfter (restApart.sublist fewer)
      have unslashed := reachedAfter.head_unslashed (ownAdmits.amendable loses).unslashed
      by_cases noneLeft : leading ++ (residualImport? declaration
          (unknownNames bindings declaration)).toList = []
      · have isNone : residualImport? declaration (unknownNames bindings declaration) = none := by
          simpa using (List.append_eq_nil_iff.mp noneLeft).2
        exact remade_removed preceding framed free begins loses noneLeft
          ((ownAdmits.amendable loses).detached (residualSpecifiers_eq_nil own.isModule isNone))
          (fun other member => ownApart other (fewer.subset member)) unslashed remade
      · refine remade_replaced preceding framed (reached.placed keyword (by simp)) own.begins free
          begins loses rfl noneLeft (fun text member => ?_) unslashed remade
        rcases List.mem_append.mp member with isLeading | isLeft
        · exact announced text isLeading
        · exact ownAdmits.announced loses (Option.mem_toList.mp isLeft)
    · rw [if_neg loses] at editsApart
      have keeps : losesName settings bindings declaration = false := by simpa using loses
      have fewer : (others.map edit ++
            amendments settings source bindings leading statements).Sublist
          ((first ++ others).map edit ++
            amendments settings source bindings leading statements) := by
        rw [List.map_append]
        exact (List.sublist_append_right _ _).append_right _
      obtain ⟨edits, rest, remade⟩ := inductionHypothesis reachedAfter othersAdmit announced
        apartAfter (editsApart.sublist fewer)
      exact remade_kept preceding statement framed free begins nonempty states
        (ownAdmits.kept keeps) keeps remade

end Sections

end Expansion

end Restyle
