import Restyle.Expansion
import Restyle.Proofs.Text
import Restyle.Proofs.Use.Extent

/-!
Contract: what becomes of a macro import.

Owns: `Expansion.Rewrites`, the edit of a declaration: other statements in its
place, or its removal with the margins of its line; which specifiers are kept; that
the edits of declarations are of this kind; and that a use of a macro that an import
statement binds has a declaration that loses a name.
-/

namespace Restyle.Expansion

/-! ## Edits of declarations -/

/-- The edit that puts some statements in place of a declaration, or takes the
declaration away if there are none. -/
inductive Rewrites (source : String) (declaration : Declaration) :
    List String → Edit → Prop where
  | replaced {statements : List String} (some : statements ≠ []) :
      Rewrites source declaration statements
        ⟨declaration.start, declaration.stop,
          ("\n" ++ indentAt source declaration.start).intercalate statements⟩
  | removed {start stop : Nat}
      (margins : Text.Widened source.toList declaration.start declaration.stop start stop) :
      Rewrites source declaration [] ⟨start, stop, ""⟩

/-- A removal takes the margins of its line at most. -/
theorem removal_rewrites
    {source : String}
    {declaration : Declaration}
    (framed : Text.Framed source.toList declaration.start declaration.stop) :
    Rewrites source declaration [] (removal source declaration) := by
  have inside := framed.inside
  have nonempty := framed.nonempty
  rw [String.length_toList] at inside
  unfold removal
  simp only
  split
  · rename_i blank
    simp only [Bool.and_eq_true, Text.isAllBlank, Text.toList_cut, List.all_eq_true] at blank
    have startInside : declaration.start ≤ source.length := by omega
    obtain ⟨begins, noFeedBefore⟩ := Text.lineStart_spec source startInside
    obtain ⟨ends, atMost, noFeedAfter, feed⟩ := Text.lineStop_spec source inside
    have lead : Text.IsMargin (Text.slice source.toList
        (Text.lineStart source declaration.start) declaration.start) := fun c member =>
      ⟨blank.1 c member, fun isFeed => noFeedBefore (isFeed ▸ member)⟩
    have rest : Text.IsMargin (Text.slice source.toList declaration.stop
        (Text.lineStop source declaration.stop)) := fun c member =>
      ⟨blank.2 c member, fun isFeed => noFeedAfter (isFeed ▸ member)⟩
    split
    · rename_i early
      have widened : Text.Widened source.toList declaration.start declaration.stop
          (Text.lineStart source declaration.start)
          (Text.lineStop source declaration.stop + 1) := by
        refine ⟨begins, by omega, ?_, lead, _, ['\n'], ?_, rest, .inl rfl⟩
        · rw [String.length_toList]
          omega
        · rw [← Text.slice_succ (feed early), Text.slice_append_slice _ ends (Nat.le_succ _)]
      exact .removed widened
    · refine .removed ⟨begins, ends, ?_, lead, _, [], (List.append_nil _).symm, rest,
        .inr ⟨rfl, .inr ?_⟩⟩
      · rw [String.length_toList]
        omega
      · rw [String.length_toList]
        omega
  · exact .removed (.refl framed)

/-- A specifier is kept by its local name, which the look-up of its binding alone
depends on. -/
theorem filter_unknownNames (bindings : Binding.Table) (declaration : Declaration) :
    (declaration.specifiers.filter fun specifier =>
        (unknownNames bindings declaration).contains specifier.localName) =
      declaration.specifiers.filter fun specifier =>
        (bindings.find? specifier.localName).any (·.isUnknown) := by
  refine List.filter_congr fun specifier member => ?_
  rw [Bool.eq_iff_iff, List.contains_iff_mem, unknownNames, List.mem_map]
  constructor
  · rintro ⟨other, isOther, isName⟩
    exact isName ▸ (List.mem_filter.mp isOther).2
  · intro isUnknown
    exact ⟨specifier, List.mem_filter.mpr ⟨member, isUnknown⟩, rfl⟩

/-- The edit of a declaration puts in its place the statements given, then what is
left of the declaration. -/
theorem declarationEdit_rewrites
    {source : String}
    {declaration : Declaration}
    (bindings : Binding.Table)
    (leading : List String)
    (framed : Text.Framed source.toList declaration.start declaration.stop) :
    Rewrites source declaration
      (leading ++ (residualImport? declaration (unknownNames bindings declaration)).toList)
      (declarationEdit source bindings leading declaration) := by
  unfold declarationEdit
  simp only
  split
  · rename_i none
    rw [none]
    exact removal_rewrites framed
  · rename_i some
    exact .replaced some

theorem Rewrites.widened
    {source : String}
    {declaration : Declaration}
    {statements : List String}
    {edit : Edit}
    (rewrites : Rewrites source declaration statements edit)
    (framed : Text.Framed source.toList declaration.start declaration.stop) :
    ∃ start stop : Nat, edit.start = start ∧ edit.stop = stop ∧
      Text.Widened source.toList declaration.start declaration.stop start stop := by
  cases rewrites with
  | replaced some => exact ⟨_, _, rfl, rfl, .refl framed⟩
  | removed margins => exact ⟨_, _, rfl, rfl, margins⟩

/-! ## Declarations that lose a name -/

private theorem mem_of_mem_put
    {table : Binding.Table}
    {binding other : Binding}
    (member : other ∈ table.put binding) :
    other = binding ∨ other ∈ table := by
  induction table with
  | nil => exact .inl (List.mem_singleton.mp member)
  | cons first rest inductionHypothesis =>
    rw [Binding.Table.put] at member
    split at member
    · rcases List.mem_cons.mp member with isBinding | inRest
      · exact .inl isBinding
      · exact .inr (List.mem_cons_of_mem _ inRest)
    · rcases List.mem_cons.mp member with isFirst | inRest
      · exact .inr (isFirst ▸ List.mem_cons_self)
      · exact (inductionHypothesis inRest).imp id (List.mem_cons_of_mem _)

/-- The bindings in effect are among those declared. -/
theorem mem_of_mem_ofList
    {bindings : List Binding}
    {binding : Binding}
    (member : binding ∈ Binding.Table.ofList bindings) :
    binding ∈ bindings := by
  have grown : ∀ (more : List Binding) (table : Binding.Table),
      binding ∈ more.foldl (fun table binding => table.put binding) table →
        binding ∈ more ∨ binding ∈ table := by
    intro more
    induction more with
    | nil => exact fun _ inTable => .inr inTable
    | cons first rest inductionHypothesis =>
      intro table inFold
      rcases inductionHypothesis _ inFold with inRest | inPut
      · exact .inl (List.mem_cons_of_mem _ inRest)
      · rcases mem_of_mem_put inPut with isFirst | inTable
        · exact .inl (isFirst ▸ List.mem_cons_self)
        · exact .inr inTable
  exact (grown bindings [] member).resolve_right (by simp)

/-- A macro that an import statement binds, under the name in effect, is a name
that its declaration loses. -/
theorem exists_losesName
    {settings : Settings}
    {registry : Registry}
    {module : Module}
    {name : String}
    {binding : Binding}
    (isBound : (Binding.Table.ofList (Binding.listOf settings registry module)).find? name =
      some binding)
    (isModule : binding.mechanism = .module)
    (isKnown : binding.isUnknown = false) :
    ∃ declaration ∈ module.declarations, losesName settings
      (Binding.Table.ofList (Binding.listOf settings registry module)) declaration := by
  have isName : binding.localName = name := by simpa using List.find?_some isBound
  have declared := mem_of_mem_ofList (List.mem_of_find?_eq_some isBound)
  simp only [Binding.listOf, List.mem_flatMap, List.mem_filter, Binding.ofDeclaration,
    List.mem_map] at declared
  obtain ⟨declaration, ⟨isDeclaration, isMacro⟩, specifier, isSpecifier, rfl⟩ := declared
  refine ⟨declaration, isDeclaration, ?_⟩
  simp only at isModule isName
  have dropped : specifier ∉ declaration.specifiers.filter fun specifier =>
      ((Binding.Table.ofList (Binding.listOf settings registry module)).find?
        specifier.localName).any (·.isUnknown) := by
    simp only [List.mem_filter, not_and]
    intro _
    rw [isName, isBound, Option.any_some, isKnown]
    simp
  have fewer : (unknownNames (Binding.Table.ofList (Binding.listOf settings registry module))
      declaration).length ≠ declaration.specifiers.length := by
    rw [unknownNames, List.length_map]
    intro same
    have kept := List.length_filter_eq_length_iff.mp same specifier isSpecifier
    exact dropped (List.mem_filter.mpr ⟨isSpecifier, kept⟩)
  simp [losesName, isModule, isMacro, fewer]

theorem find?_put
    (table : Binding.Table)
    (binding : Binding)
    (name : String) :
    (table.put binding).find? name =
      if binding.localName = name then some binding else table.find? name := by
  unfold Binding.Table.find?
  induction table with
  | nil => by_cases isName : binding.localName = name <;> simp [Binding.Table.put, isName]
  | cons first rest inductionHypothesis =>
    rw [Binding.Table.put]
    by_cases isSame : first.localName = binding.localName
    · by_cases isName : binding.localName = name <;> simp [isSame, isName]
    · rw [if_neg isSame]
      by_cases isFirst : first.localName = name
      · have notBinding : binding.localName ≠ name := fun isName =>
          isSame (isFirst.trans isName.symm)
        simp [isFirst, notBinding]
      · simp [isFirst, inductionHypothesis]

/-- A name that is declared is bound. -/
theorem isSome_find?_of_mem
    {bindings : List Binding}
    {binding : Binding}
    (member : binding ∈ bindings) :
    ((Binding.Table.ofList bindings).find? binding.localName).isSome := by
  have grown : ∀ (more : List Binding) (table : Binding.Table),
      (table.find? binding.localName).isSome ∨ binding ∈ more →
        (Binding.Table.find? (more.foldl (fun table binding => table.put binding) table)
          binding.localName).isSome := by
    intro more
    induction more with
    | nil => exact fun _ known => known.resolve_right (by simp)
    | cons first rest inductionHypothesis =>
      intro table known
      apply inductionHypothesis
      rw [find?_put]
      split
      · exact .inl rfl
      · rename_i notFirst
        rcases known with inTable | inMore
        · exact .inl inTable
        · rcases List.mem_cons.mp inMore with rfl | inRest
          · exact absurd rfl notFirst
          · exact .inr inRest
  exact grown bindings [] (.inr member)

/-- Every name of a macro import has a binding. -/
theorem mem_listOf
    {settings : Settings}
    {module : Module}
    {declaration : Declaration}
    {specifier : Declaration.Specifier}
    (isDeclaration : declaration ∈ module.declarations)
    (isMacroPath : settings.isMacroPath declaration.path)
    (isSpecifier : specifier ∈ declaration.specifiers)
    (registry : Registry) :
    ⟨specifier.localName, Binding.exportOf registry specifier.imported, specifier.imported,
        declaration.path, declaration.mechanism, declaration.location⟩ ∈
      Binding.listOf settings registry module := by
  simp only [Binding.listOf, List.mem_flatMap, List.mem_filter]
  exact ⟨declaration, ⟨isDeclaration, isMacroPath⟩, List.mem_map_of_mem isSpecifier⟩

/-- Every name of a macro import has a binding in effect. -/
theorem isSome_find?_of_specifier
    {settings : Settings}
    {registry : Registry}
    {module : Module}
    {declaration : Declaration}
    {specifier : Declaration.Specifier}
    (isDeclaration : declaration ∈ module.declarations)
    (isMacroPath : settings.isMacroPath declaration.path)
    (isSpecifier : specifier ∈ declaration.specifiers) :
    ((Binding.Table.ofList (Binding.listOf settings registry module)).find?
      specifier.localName).isSome :=
  isSome_find?_of_mem (mem_listOf isDeclaration isMacroPath isSpecifier registry)

end Restyle.Expansion
