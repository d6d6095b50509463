import Restyle.Proofs.Token.Reading

/-!
Contract: which texts are read back as they are from between backticks.

Owns: `ReadsAsText`, by which a text between backticks is one template without
holes whose only chunk is the text; that these are exactly the inert texts.
-/

namespace Restyle.Template

/-- Between backticks a text is read as one template literal that has no holes
and the text for its only chunk. -/
def ReadsAsText (text : String) : Prop :=
  ∃ token, Token.readAll ("`" ++ text ++ "`") = .ok [token] ∧
    token.template? = some ⟨⟨text, 1⟩, []⟩

/-! ## Reading inert text -/

private theorem isInert_of_cons
    {first : Char}
    {rest : List Char}
    (inert : isInert (first :: rest))
    (noEscape : first ≠ '\\') :
    isInert rest := by
  cases rest with
  | nil => rfl
  | cons next rest =>
    by_cases opens : first = '`' ∨ first = '$' ∧ next = '{'
    · simp [isInert, noEscape, opens] at inert
    · simpa [isInert, noEscape, opens] using inert

private theorem isInert_dropWhile
    {text : List Char}
    (inert : isInert text) :
    isInert (text.dropWhile Lexeme.isTemplateText) := by
  induction text with
  | nil => rfl
  | cons first rest inductionHypothesis =>
    by_cases plain : Lexeme.isTemplateText first
    · rw [List.dropWhile_cons_of_pos plain]
      apply inductionHypothesis
      apply isInert_of_cons inert
      intro isEscape
      simp [isEscape, Lexeme.isTemplateText] at plain
    · rwa [List.dropWhile_cons_of_neg plain]

/-- Before a backtick, a step in inert text takes some of the text and leaves the
rest of it inert. -/
theorem templateStep_of_inert
    (nest : Lexeme.Nest)
    {first : Char}
    {text : List Char}
    (more : List Char)
    (inert : isInert (first :: text)) :
    ∃ tail, Lexeme.templateStep nest first (text ++ '`' :: more) =
        ⟨.templateText, tail, .template nest⟩ ∧
      tail ≤ text.length ∧ isInert (text.drop tail) := by
  have noBacktick : first ≠ '`' := by
    rintro rfl
    cases text <;> simp [isInert] at inert
  by_cases isEscape : first = '\\'
  · -- The escaped character belongs to the text, which would not be inert without it.
    subst isEscape
    cases text with
    | nil => simp [isInert] at inert
    | cons next text =>
      refine ⟨1, by simp [Lexeme.templateStep], by simp, ?_⟩
      simpa [isInert] using inert
  have later := isInert_of_cons inert isEscape
  by_cases isDollar : first = '$'
  · subst isDollar
    refine ⟨0, ?_, Nat.zero_le _, later⟩
    have noBrace : (text ++ '`' :: more).head? ≠ some '{' := by
      cases text with
      | nil => simp
      | cons next text =>
        intro isBrace
        simp only [List.cons_append, List.head?_cons, Option.some.injEq] at isBrace
        simp [isInert, isBrace] at inert
    rw [Lexeme.templateStep, if_neg noBacktick, if_pos rfl, if_neg noBrace]
  · refine ⟨(text.takeWhile Lexeme.isTemplateText).length, ?_,
      (List.takeWhile_sublist _).length_le, ?_⟩
    · have stops : (text ++ '`' :: more).takeWhile Lexeme.isTemplateText =
          text.takeWhile Lexeme.isTemplateText := by
        rw [List.takeWhile_append]
        split
        · rename_i whole
          rw [List.takeWhile_cons_of_neg (by decide), List.append_nil]
          exact ((List.takeWhile_prefix _).eq_of_length whole).symm
        · rfl
      simp [Lexeme.templateStep, noBacktick, isEscape, isDollar, stops]
    · have split := List.takeWhile_append_dropWhile (p := Lexeme.isTemplateText) (l := text)
      have isRest := congrArg (List.drop (text.takeWhile Lexeme.isTemplateText).length) split
      rw [List.drop_left] at isRest
      rw [← isRest]
      exact isInert_dropWhile later

open Token in
private theorem foldlM_push_of_inert
    (source : List Char)
    (nest : Lexeme.Nest)
    (template : OpenTemplate)
    (chunkStart : Nat)
    (outer : OpenCode)
    (more : List Char)
    {text : List Char}
    (inert : isInert text)
    (start : Nat) :
    (Lexeme.scanFrom (.template nest) start (text ++ '`' :: more)).foldlM (Reader.push source)
        (.text template chunkStart outer) =
      (Lexeme.scanFrom (.template nest) (start + text.length) ('`' :: more)).foldlM
        (Reader.push source) (.text template chunkStart outer) := by
  induction bound : text.length using Nat.strongRecOn generalizing text start with
  | ind length inductionHypothesis =>
    cases text with
    | nil =>
      subst bound
      rfl
    | cons first text =>
      obtain ⟨tail, isStep, fits, later⟩ := templateStep_of_inert nest more inert
      have isRest : (text ++ '`' :: more).drop tail = text.drop tail ++ '`' :: more :=
        List.drop_append_of_le_length fits
      have size : (text.drop tail).length = text.length - tail := List.length_drop
      have taken : ((text ++ '`' :: more).take tail).length = tail := by
        rw [List.length_take, List.length_append]
        omega
      rw [List.cons_append, Lexeme.scanFrom]
      simp only [Lexeme.step, isStep, isRest, List.foldlM_cons, Reader.push, bind, Except.bind]
      rw [List.length_cons] at bound
      rw [inductionHypothesis (text.drop tail).length (by omega) later _ rfl]
      simp only [Lexeme.stop, String.length_ofList, List.length_cons, taken, size]
      rw [show start + (tail + 1) + (text.length - tail) = start + length by omega]

/-! ## Texts that are read back -/

private theorem readsAsText_of_inert
    {text : String}
    (inert : isInert text.toList) :
    ReadsAsText text := by
  have isSource : ("`" ++ text ++ "`").toList = '`' :: (text.toList ++ ['`']) := by
    simp
  have opens : Lexeme.step .initial '`' (text.toList ++ ['`']) =
      ⟨.templateOpen, 0, .template .module⟩ := by
    simp only [Lexeme.step, Lexeme.State.initial, Lexeme.codeStep, Lexeme.comment?,
      Lexeme.pattern?]
    rw [if_neg (by decide)]
    rfl
  have isChunk : Text.slice ('`' :: (text.toList ++ ['`'])) 1 (1 + text.toList.length) =
      text.toList := by
    simp [Text.slice_eq_take_drop]
  unfold ReadsAsText Token.readAll Lexeme.scan
  rw [isSource, Lexeme.scanFrom]
  simp only [opens, List.foldlM_cons, Token.Reader.push, bind, Except.bind, List.take_zero,
    List.drop_zero, Lexeme.stop, String.length_ofList, List.length_singleton, Nat.zero_add]
  rw [foldlM_push_of_inert _ _ _ _ _ _ inert, Lexeme.scanFrom]
  simp only [Lexeme.step, Lexeme.templateStep, ↓reduceIte, List.drop_zero, Lexeme.scanFrom,
    List.foldlM_cons, List.foldlM_nil, Token.Reader.push, bind, Except.bind, pure, Except.pure,
    Token.OpenCode.push, Token.Reader.finish, List.reverse_singleton]
  refine ⟨_, rfl, ?_⟩
  simp only [Token.template?, Token.ofTemplate, Token.templateOf, List.foldl_nil, Token.chunkOf,
    isChunk, String.ofList_toList]

private theorem isInert_of_readsAsText
    {text : String}
    (reads : ReadsAsText text) :
    isInert text.toList := by
  obtain ⟨token, isRead, isTemplate⟩ := reads
  have placed := (Token.placed_of_readAll isRead).first.2.1
  generalize ("`" ++ text ++ "`").toList = source at placed
  cases placed with
  | atom => simp [Token.template?, Token.ofLexeme] at isTemplate
  | @template start close literal opening inner =>
    simp only [Token.template?, Option.some.injEq] at isTemplate
    subst isTemplate
    generalize isHead : (⟨text, 1⟩ : Chunk) = head at inner
    cases inner with
    | last ordered inert closing =>
      have isText : text = String.ofList (Text.slice source (start + 1) close) :=
        congrArg Chunk.raw isHead
      rw [isText, String.toList_ofList]
      exact inert

/-- A text is read back from between backticks exactly when it is inert. -/
theorem readsAsText_iff (text : String) : ReadsAsText text ↔ isInert text.toList :=
  ⟨isInert_of_readsAsText, readsAsText_of_inert⟩

end Restyle.Template
