import Restyle.Proofs.Expansion.Echoes
import Restyle.Proofs.Output.Recast

/-!
Contract: the edits of import statements.

Owns: `Announced`, by which a text is read as an import of what may be imported;
`amendments`, the edits of a module's import statements in the order of its tokens;
`Amendable`, what is asked of an import statement that is rewritten; and what a
removal leaves around itself.
-/

namespace Restyle.Expansion

open Token Lexeme Declaration

/-! ## Import statements in place of others -/

/-- A text is read as an import of what may be imported. -/
def Announced (allowed : String → List Specifier → Prop) (text : String) : Prop :=
  ∃ covered path specifiers, Announces text covered path specifiers ∧ allowed path specifiers

/-- Import statements on lines of their own are read one after the other. -/
theorem exists_faces_of_announced
    {settings : Settings}
    {allowed : String → List Specifier → Prop}
    {statements : List String}
    (nonempty : statements ≠ [])
    (announced : ∀ text ∈ statements, Announced allowed text)
    {indent : String}
    (areBlank : ∀ c ∈ indent.toList, Text.isBlank c) :
    ∃ chars faces, (("\n" ++ indent).intercalate statements).toList = 'i' :: chars ∧
      faces.head? = some importFace ∧
      (∀ loose rest, Echoes settings allowed loose rest →
        Echoes settings allowed loose (faces ++ rest)) ∧
      ∀ slash rest, CodeRun .module slash
        ((("\n" ++ indent).intercalate statements).toList ++ rest) faces .module .opensPattern
          rest := by
  induction statements with
  | nil => exact absurd rfl nonempty
  | cons text others inductionHypothesis =>
    obtain ⟨⟨covered, path, specifiers, announces, isAllowed⟩, othersAnnounced⟩ :=
      List.forall_mem_cons.mp announced
    obtain ⟨chars, isText⟩ := announces.begins
    rw [String.toList_intercalate, List.map_cons]
    cases others with
    | nil =>
      rw [List.map_nil, List.intercalate_singleton]
      refine ⟨chars, importFace :: covered, isText, rfl, fun loose rest echoes => ?_,
        fun slash rest => announces.runs .module slash rest⟩
      exact .statement announces.starts announces.states isAllowed echoes
    | cons second others =>
      obtain ⟨laterChars, faces, isLater, -, echo, runs⟩ :=
        inductionHypothesis (by simp) othersAnnounced
      rw [String.toList_intercalate] at isLater runs
      rw [List.map_cons, List.intercalate_cons_cons, ← List.map_cons, isText]
      refine ⟨_, importFace :: covered ++ faces, rfl, rfl, fun loose rest echoes => ?_,
        fun slash rest => ?_⟩
      · have statement := Echoes.statement announces.starts announces.states isAllowed
          (echo loose rest echoes)
        simpa using statement
      · have inked : Text.isBlank 'i' = false := by decide
        have feed : Text.isBlank '\n' := by decide
        have breakBlank : ∀ c ∈ ("\n" ++ indent).toList, Text.isBlank c := by
          intro c member
          rw [String.toList_append] at member
          rcases List.mem_append.mp member with isFeed | isIndent
          · rw [List.mem_singleton.mp isFeed]
            exact feed
          · exact areBlank c isIndent
        have later := (runs .opensPattern rest).addBlanks (by rw [isLater]; exact inked) breakBlank
        have run := (announces.runs .module slash _).trans later
        rw [isText] at run
        simpa using run

theorem isBlank_of_indentAt
    (source : String)
    (offset : Nat) :
    ∀ c ∈ (indentAt source offset).toList, Text.isBlank c := by
  unfold indentAt
  simp only
  split
  · rename_i blank
    exact List.all_eq_true.mp blank
  · simp

/-! ## The edits of import statements -/

/-- The edits of import statements, with statements to be put in front of what is
left of the first that loses a name. -/
def amendments (settings : Settings) (source : String) (bindings : Binding.Table) :
    List String → List Declaration → List Edit
  | _, [] => []
  | leading, declaration :: others =>
    if losesName settings bindings declaration then
      declarationEdit source bindings leading declaration ::
        amendments settings source bindings [] others
    else amendments settings source bindings leading others

private theorem amendments_nil
    (settings : Settings)
    (source : String)
    (bindings : Binding.Table)
    (statements : List Declaration) :
    amendments settings source bindings [] statements =
      (statements.filter (losesName settings bindings)).map
        (declarationEdit source bindings []) := by
  induction statements with
  | nil => rfl
  | cons declaration others inductionHypothesis =>
    by_cases loses : losesName settings bindings declaration
    · simp [amendments, loses, inductionHypothesis]
    · simp [amendments, loses, inductionHypothesis]

theorem amendments_of_filter
    {settings : Settings}
    {bindings : Binding.Table}
    {statements others : List Declaration}
    {first : Declaration}
    (isFilter : statements.filter (losesName settings bindings) = first :: others)
    (source : String)
    (leading : List String) :
    amendments settings source bindings leading statements =
      declarationEdit source bindings leading first ::
        others.map (declarationEdit source bindings []) := by
  induction statements with
  | nil => simp at isFilter
  | cons declaration statements inductionHypothesis =>
    by_cases loses : losesName settings bindings declaration
    · rw [List.filter_cons_of_pos loses] at isFilter
      obtain ⟨rfl, rfl⟩ := List.cons.inj isFilter
      rw [amendments, if_pos loses, amendments_nil]
    · rw [List.filter_cons_of_neg loses] at isFilter
      rw [amendments, if_neg loses, inductionHypothesis isFilter]

/-- An import statement that nothing is left of leaves no specifiers. -/
theorem residualSpecifiers_eq_nil
    {bindings : Binding.Table}
    {declaration : Declaration}
    (isModule : declaration.mechanism = .module)
    (noneLeft : residualImport? declaration (unknownNames bindings declaration) = none) :
    residualSpecifiers bindings declaration = [] := by
  unfold residualImport? at noneLeft
  unfold residualSpecifiers
  simp only [isModule, ne_eq, not_true_eq_false, decide_false, Bool.false_or] at noneLeft ⊢
  split at noneLeft
  · rename_i isEmpty
    rw [List.isEmpty_iff.mp isEmpty]
    rfl
  · simp at noneLeft

/-- What is asked of an import statement that is rewritten: that what is left of it
is read back, that it follows a blank if nothing is left of it, and that no slash
comes next. -/
structure Amendable (source : List Char) (tokens : List Token) (bindings : Binding.Table)
    (declaration : Declaration) : Prop where
  readBack : residualSpecifiers bindings declaration ≠ [] →
    Text.isPlainPath declaration.path ∧ areReadBack (residualSpecifiers bindings declaration)
  detached : residualSpecifiers bindings declaration = [] →
    declaration.start = 0 ∨ ¬ Text.InkedAt source (declaration.start - 1)
  unslashed : (tokens.find? (declaration.stop ≤ ·.start)).any (·.face.isSlashed) = false

/-- A removal begins after a blank, if its declaration does. -/
theorem exists_removal
    {source : String}
    {declaration : Declaration}
    (framed : Text.Framed source.toList declaration.start declaration.stop)
    (detached : declaration.start = 0 ∨
      ¬ Text.InkedAt source.toList (declaration.start - 1)) :
    ∃ start stop : Nat, removal source declaration = ⟨start, stop, ""⟩ ∧
      Text.Widened source.toList declaration.start declaration.stop start stop ∧
      (start = 0 ∨ ¬ Text.InkedAt source.toList (start - 1)) := by
  obtain ⟨start, stop, isStart, isStop, widened⟩ := (removal_rewrites framed).widened framed
  refine ⟨start, stop, ?_, widened, ?_⟩
  · rw [← isStart, ← isStop]
    unfold removal
    simp only
    split <;> rfl
  · unfold removal at isStart
    simp only at isStart
    split at isStart
    · obtain rfl : Text.lineStart source declaration.start = start := Int.ofNat_inj.mp isStart
      refine (Text.feed_before_lineStart source declaration.start).imp_right ?_
      rintro isFeed ⟨c, stands, inked⟩
      obtain rfl := Option.some.inj (isFeed.symm.trans stands)
      exact inked (by decide)
    · obtain rfl : declaration.start = start := Int.ofNat_inj.mp isStart
      exact detached

/-- Between the tokens before a statement and what is taken away with it some blank is
left, unless both are at the beginning of the source. -/
theorem separate_of_trimmed
    {source : List Char}
    {slash before : Slash}
    {offset start stop close outerStart outerStop : Nat}
    {segment : List Token}
    (trimmed : TrimmedAt source slash offset segment before start close)
    (begins : offset = 0 ∨ Text.InkedAt source (offset - 1))
    (framed : Text.Framed source start stop)
    (widened : Text.Widened source start stop outerStart outerStop)
    (detached : outerStart = 0 ∨ ¬ Text.InkedAt source (outerStart - 1)) :
    close < outerStart ∨ offset = 0 ∧ close = 0 ∧ outerStart = 0 := by
  have early := trimmed.stands.le
  have late := trimmed.inside
  have nonempty := framed.nonempty
  have inside := framed.inside
  have ofInked : Text.InkedAt source (close - 1) →
      close < outerStart ∨ offset = 0 ∧ close = 0 ∧ outerStart = 0 := by
    intro inked
    have outside := (widened.outside_of_inked inked).1
    by_cases same : close = outerStart
    · subst same
      rcases detached with isStart | notInked
      · omega
      · exact absurd inked notInked
    · omega
  rcases trimmed.ends with ⟨isClose, -, -⟩ | ends | inked
  · rcases begins with isStart | inked
    · omega
    · exact ofInked (isClose ▸ inked)
  · left
    by_contra notBefore
    obtain ⟨c, isNext⟩ : ∃ c, source[close]? = some c :=
      ⟨_, List.getElem?_eq_getElem (by omega)⟩
    obtain rfl := lineFeed_of_commentEnds ends (Text.drop_of_getElem? isNext)
    rcases Nat.lt_or_eq_of_le late with inLead | rfl
    · exact (widened.lead '\n' (Text.mem_slice (by omega) inLead isNext)).2 rfl
    · obtain ⟨d, stands, inked⟩ := framed.first
      obtain rfl := Option.some.inj (isNext.symm.trans stands)
      exact inked (by decide)
  · exact ofInked inked

end Restyle.Expansion
