import Restyle.Proofs.Output.Aliased
import Restyle.Proofs.Output.Copied

/-!
Contract: every output is read as what it is written for.

Owns: that the code of a reference and of a call is read as such; `Prepared`, by
which every expression that is copied may be; `Complete`, by which the code of an
output is read as a whole and each item of its content as an element; and that
whatever is written from prepared expressions is complete.
-/

namespace Restyle

open Token Lexeme Restyle.Bracket

/-! ## Slots -/

namespace Fragments

def slots (fragments : Fragments) : List Slot :=
  fragments.rest.map (·.1)

private theorem slots_append (left right : Fragments) :
    (left ++ right).slots = left.slots ++ right.slots := by
  obtain ⟨lead, rest⟩ := left
  change (appendRest lead rest right).slots = slots ⟨lead, rest⟩ ++ right.slots
  induction rest generalizing lead with
  | nil => rfl
  | cons pair rest inductionHypothesis =>
    have later := inductionHypothesis pair.2
    simp only [appendRest, slots, List.map_cons, List.cons_append] at later ⊢
    rw [later]

private theorem slot_of_mem_restItems
    {slot : Slot}
    {index start : Nat}
    {rest : List (Slot × String)}
    (member : .slot slot index ∈ restItems start rest) :
    slot ∈ rest.map (·.1) := by
  induction start, rest using restItems.induct with
  | case1 => simp [restItems] at member
  | case2 start own text =>
    simp only [restItems, List.mem_cons, Item.slot.injEq] at member
    rcases member with ⟨rfl, -⟩ | member
    · simp
    · unfold literalItems at member
      split at member <;> simp at member
  | case3 start own text next rest inductionHypothesis =>
    simp only [restItems, List.mem_cons, Item.slot.injEq, reduceCtorEq, false_or] at member
    rcases member with ⟨rfl, -⟩ | member
    · simp
    · exact List.mem_cons_of_mem _ (inductionHypothesis member)

private theorem slot_of_mem_items
    {slot : Slot}
    {index : Nat}
    {fragments : Fragments}
    (member : .slot slot index ∈ fragments.items) :
    slot ∈ fragments.slots := by
  rcases List.mem_append.mp member with member | member
  · unfold literalItems at member
    split at member <;> simp at member
  · exact slot_of_mem_restItems member

theorem toList_code (fragments : Fragments) :
    fragments.code.toList =
      '[' :: ([',', ' '].intercalate (fragments.items.map (·.code.toList)) ++ [']']) := by
  simp [code, String.toList_intercalate, Function.comp_def]

end Fragments

namespace Output

/-! ## The code of references and calls -/

theorem Reads.readsAs
    {output : Output}
    {faces : List Face}
    (reads : Reads output.code.toList faces)
    (begins : ∃ first more, output.code.toList = first :: more ∧ Text.isIdentifierStart first)
    (ends : EndsInked output.code.toList)
    (nonempty : faces ≠ []) :
    output.ReadsAs faces :=
  ⟨begins, ends, nonempty, reads.closed, fun nest slash rest _ => reads.runs nest slash rest⟩

/-- The code of a reference is read as names, where what follows stops the last of
them. -/
theorem exists_readsAs_reference
    {output : Output}
    {position : Use.Position}
    {localName aliasName : String}
    (isCode : output.code = referenceCode position localName aliasName)
    (isBare : output.fragments = none)
    (localNamed : isName localName)
    (aliasNamed : isName aliasName) :
    ∃ faces, output.ReadsAs faces := by
  obtain ⟨localFirst, localMore, isLocal, localStarts, -⟩ := letters_of_isName localNamed
  obtain ⟨first, more, isAlias, starts, -⟩ := letters_of_isName aliasNamed
  have ink : ∀ {c}, Text.isIdentifierStart c → Text.isBlank c = false := fun starts =>
    inked_of_isIdentifierPart (isIdentifierPart_of_isIdentifierStart starts)
  cases position with
  | expression =>
    refine ⟨[⟨some .identifier, aliasName⟩], ?_, ?_, by simp, awaited_of_plain (by simp), ?_⟩
    · exact ⟨first, more, isCode ▸ isAlias, starts⟩
    · exact isCode ▸ endsInked_of_isName aliasNamed
    · intro nest slash rest stopped
      rw [isCode]
      exact run_name aliasNamed nest slash (stopped isBare)
  | shorthandProperty =>
    have isText : output.code.toList = localName.toList ++ (':' :: ' ' :: aliasName.toList) := by
      simp [isCode, referenceCode]
    refine ⟨[⟨some .identifier, localName⟩] ++ ([⟨some .operator, ":"⟩] ++
      [⟨some .identifier, aliasName⟩]), ?_, ?_, by simp, awaited_of_plain (by simp), ?_⟩
    · exact ⟨localFirst, _, by rw [isText, isLocal]; rfl, localStarts⟩
    · rw [isText]
      exact ((endsInked_of_isName aliasNamed).append [':', ' ']).append localName.toList
    · intro nest slash rest stopped
      rw [isText, List.append_assoc, List.cons_append, List.cons_append]
      refine (run_name localNamed nest slash (stops_cons.mpr (by decide))).trans
        ((run_colon nest .divides _).trans (run_blank
          (run_name aliasNamed nest .opensPattern (stopped isBare)) ?_))
      rw [isAlias]
      exact ink starts
  | exportSpecifier =>
    have isText : output.code.toList =
        aliasName.toList ++ (' ' :: ("as".toList ++ ' ' :: localName.toList)) := by
      simp [isCode, referenceCode]
    have joins : isName "as" := by decide
    have inked : Text.isBlank 'a' = false := by decide
    refine ⟨[⟨some .identifier, aliasName⟩] ++ ([⟨some .identifier, "as"⟩] ++
      [⟨some .identifier, localName⟩]), ?_, ?_, by simp, awaited_of_plain (by simp), ?_⟩
    · exact ⟨first, _, by rw [isText, isAlias]; rfl, starts⟩
    · rw [isText]
      exact ((endsInked_of_isName localNamed).append [' ', 'a', 's', ' ']).append aliasName.toList
    · intro nest slash rest stopped
      rw [isText, List.append_assoc, List.cons_append, List.append_assoc, List.cons_append]
      refine (run_name aliasNamed nest slash (stops_cons.mpr (by decide))).trans
        (run_blank ((run_name joins nest .divides (stops_cons.mpr (by decide))).trans
          (run_blank (run_name localNamed nest .divides (stopped isBare)) ?_)) inked)
      rw [isLocal]
      exact ink localStarts

private theorem toList_callCode
    (frame : Frame)
    (use : Use)
    (name : String)
    (applied : Option String)
    (fragments : Fragments) :
    (callCode frame use name applied fragments).toList =
      name.toList ++ '(' :: ([',', ' '].intercalate
        ((applied.toList ++ [fragments.code] ++ (metadata? frame use).toList).map String.toList) ++
          [')']) := by
  simp [callCode, String.toList_intercalate]

private theorem exists_readsAs_call
    {output : Output}
    {frame : Frame}
    {use : Use}
    {name : String}
    {applied : Option String}
    {fragments : Fragments}
    (isCode : output.code = callCode frame use name applied fragments)
    (named : isName name)
    (receiver : ∀ text ∈ applied, ∃ faces, Element text.toList faces)
    (items : ∀ item ∈ fragments.items, ∃ faces, Element item.code.toList faces) :
    ∃ inner, awaited true [] inner = some [] ∧
      output.ReadsAs (⟨some .identifier, name⟩ :: markFace '(' :: (inner ++ [markFace ')'])) := by
  have inArray : ∃ faces, Element fragments.code.toList faces := by
    obtain ⟨lists, elements⟩ := exists_elements items
    have array := reads_array (List.forall₂_map_left_iff.mpr elements)
    rw [← Fragments.toList_code] at array
    exact ⟨_, array.element⟩
  have inList : ∀ text ∈ (applied.toList ++ [fragments.code] ++ (metadata? frame use).toList).map
      String.toList, ∃ faces, Element text faces := by
    intro chars member
    obtain ⟨text, isText, rfl⟩ := List.mem_map.mp member
    rcases List.mem_append.mp isText with isText | isMetadata
    · rcases List.mem_append.mp isText with isReceiver | isArray
      · exact receiver text (Option.mem_toList.mp isReceiver)
      · rw [List.mem_singleton.mp isArray]
        exact inArray
    · obtain ⟨faces, reads⟩ := reads_metadata (Option.mem_toList.mp isMetadata)
      exact ⟨faces, reads.element⟩
  obtain ⟨lists, elements⟩ := exists_elements inList
  have reads := reads_call named elements
  rw [← toList_callCode, ← isCode] at reads
  refine ⟨separated lists, awaited_separated (closes_of_elements elements),
    reads.readsAs ?_ ?_ (by simp)⟩
  · obtain ⟨first, more, isName, starts, -⟩ := letters_of_isName named
    exact ⟨first, _, by rw [isCode, toList_callCode, isName]; rfl, starts⟩
  · have inked : Text.isBlank ')' = false := by decide
    rw [isCode, toList_callCode, ← List.cons_append, ← List.append_assoc]
    exact ⟨_, ')', rfl, inked⟩

end Output

/-! ## Prepared expressions -/

/-- Whether the text of an expression is copied.  That of a hole is not where what
it holds is spliced. -/
def Use.IsCopied (scope : Scope) : Use.Entry → Span → Prop
  | .searched, _ => True
  | .hole, span => Use.nested? scope span = .ok none

/-- What is asked of an expression that a use holds.  With `single`, holes that are
copied have to be single elements. -/
structure Use.Fit (scope : Scope) (source : List Char) (single : Prop) (entry : Use.Entry)
    (span : Span) : Prop where
  isBalanced : balanced span.tokens
  copyable : Use.IsCopied scope entry span → span.Copyable source
  isSingle : single → entry = .hole → Use.IsCopied scope entry span →
    Bracket.isSingle (span.tokens.map Token.face)

/-- An expression stands in the source and is fit, and so are all that the uses in it
hold. -/
inductive Use.Prepared (scope : Scope) (source : List Char) (single : Prop) :
    Use.Entry → Span → Prop where
  | intro {entry : Use.Entry} {span : Span}
      (stands : span.Stands source)
      (holesBalanced : Output.HolesBalanced span.tokens)
      (fit : Use.Fit scope source single entry span)
      (named : ∀ uses, Use.foundIn scope entry span = .ok uses → ∀ use ∈ uses,
        Output.isName use.binding.localName)
      (deeper : ∀ uses, Use.foundIn scope entry span = .ok uses → ∀ use ∈ uses,
        ∀ inner ∈ use.role.entries, Use.Prepared scope source single inner.1 inner.2) :
      Use.Prepared scope source single entry span

namespace Output

/-! ## Complete outputs -/

/-- The alias that an output calls is a name, and its literal texts stay text between
backticks. -/
structure Clean (output : Output) : Prop where
  named : output.isPassThrough = false → ∀ name, output.alias? = some name → isName name
  inert : ∀ fragments, output.fragments = some fragments → ∀ text,
    .literal text ∈ fragments.items → Template.isInert text.toList

/-- An item is read as an element: a literal text as a template, a slot as a single
element where that is asked for. -/
structure Holds (single : Prop) (item : Fragments.Item) (faces : List Face) : Prop where
  element : Element item.code.toList faces
  isTemplate : ∀ text, item = .literal text → faces = [⟨none, "`" ++ text ++ "`"⟩]
  isSingle : single → Bracket.isSingle faces

/-- The code of an output is read wherever it is put, that of an invocation as its
alias applied to balanced arguments, and each item of its content as an element. -/
structure Complete (single : Prop) (output : Output) : Prop where
  regular : output.Regular
  call : ∀ fragments, output.fragments = some fragments → ∃ name inner,
    output.alias? = some name ∧ awaited true [] inner = some [] ∧
      output.ReadsAs (⟨some .identifier, name⟩ :: markFace '(' :: (inner ++ [markFace ')']))
  items : ∀ fragments, output.fragments = some fragments → ∀ item ∈ fragments.items,
    ∃ faces, Holds single item faces

/-- Between two states only complete outputs are added. -/
def Completes (single : Prop) (before after : Progress) : Prop :=
  ∀ output ∈ after.outputs, output ∈ before.outputs ∨ output.Complete single

theorem Completes.trans
    {single : Prop}
    {before middle after : Progress}
    (first : Completes single before middle)
    (later : Completes single middle after) :
    Completes single before after := by
  intro output member
  rcases later output member with member | complete
  · exact first output member
  · exact .inr complete

theorem Completes.add
    {single : Prop}
    {before after : Progress}
    {output : Output}
    (between : Completes single before after)
    (complete : output.Complete single) :
    Completes single before (after.add output) := by
  intro other member
  rcases List.mem_append.mp member with member | member
  · exact between other member
  · rw [List.mem_singleton.mp member]
    exact .inr complete

theorem Allots.subset {before after : Progress} (allots : Allots before after) :
    before.outputs ⊆ after.outputs := by
  obtain ⟨made, _, isMade, -⟩ := allots.added
  rw [isMade]
  exact List.subset_append_left _ _

private theorem complete_of_passThrough
    {single : Prop}
    {output : Output}
    {spec : Option Spec}
    (isRole : output.use.role = .passThrough spec)
    (isBare : output.fragments = none) :
    output.Complete single where
  regular := by
    refine ⟨fun notLeft => ?_, fun _ _ _ isOther => ?_⟩
    · simp [isPassThrough, Use.isPassThrough, isRole] at notLeft
    · simp [isRole] at isOther
  call fragments isFragments := by simp [isBare] at isFragments
  items fragments isFragments := by simp [isBare] at isFragments

private theorem complete_of_bareValue
    {single : Prop}
    {output : Output}
    {spec : Spec}
    {position : Use.Position}
    {name : String}
    (isRole : output.use.role = .bareValue spec position)
    (isCode : output.code = referenceCode position output.use.binding.localName name)
    (isAlias : output.alias? = some name)
    (isBare : output.fragments = none)
    (clean : output.Clean)
    (localNamed : isName output.use.binding.localName) :
    output.Complete single where
  regular := by
    refine ⟨fun notLeft => ?_, fun _ _ _ isOther => ?_⟩
    · exact exists_readsAs_reference isCode isBare localNamed (clean.named notLeft name isAlias)
    · simp [isRole] at isOther
  call fragments isFragments := by simp [isBare] at isFragments
  items fragments isFragments := by simp [isBare] at isFragments

private theorem holds_of_slots
    {single : Prop}
    {fragments : Fragments}
    (inert : ∀ text, .literal text ∈ fragments.items → Template.isInert text.toList)
    (slots : ∀ slot ∈ fragments.slots, ∃ faces, Element slot.expression.toList faces ∧
      (single → Bracket.isSingle faces)) :
    ∀ item ∈ fragments.items, ∃ faces, Holds single item faces := by
  intro item member
  cases item with
  | literal text =>
    have reads := reads_literal (inert text member)
    refine ⟨_, reads.element, fun other isText => ?_, fun _ => ?_⟩
    · obtain rfl := Fragments.Item.literal.inj isText
      rfl
    · simp [Bracket.isSingle, reads.closed]
  | slot slot index =>
    obtain ⟨faces, element, isSingle⟩ := slots slot (Fragments.slot_of_mem_items member)
    exact ⟨faces, element, fun text isText => by simp at isText, isSingle⟩

private theorem complete_of_invocation
    {single : Prop}
    {output : Output}
    {frame : Frame}
    {name : String}
    {applied : Option String}
    {fragments : Fragments}
    (notLeft : output.isPassThrough = false)
    (isCode : output.code = callCode frame output.use name applied fragments)
    (isAlias : output.alias? = some name)
    (isFragments : output.fragments = some fragments)
    (clean : output.Clean)
    (receiver : ∀ text ∈ applied, ∃ faces, Element text.toList faces)
    (slots : ∀ slot ∈ fragments.slots, ∃ faces, Element slot.expression.toList faces ∧
      (single → Bracket.isSingle faces)) :
    output.Complete single := by
  have holds := holds_of_slots (clean.inert fragments isFragments) slots
  obtain ⟨inner, isClosed, readsAs⟩ := exists_readsAs_call isCode (clean.named notLeft name isAlias)
    receiver fun item member => (holds item member).imp fun _ own => own.element
  refine ⟨⟨fun _ => ⟨_, readsAs⟩, fun _ _ _ _ => by simp [isFragments]⟩, ?_, ?_⟩
  · intro other isOther
    exact ⟨name, inner, isAlias, isClosed, readsAs⟩
  · intro other isOther
    obtain rfl := Option.some.inj (isFragments.symm.trans isOther)
    exact holds

/-! ## What is written from prepared expressions -/

section Yields

variable
  {scope : Scope}
  {frame : Frame}
  {single : Prop}

mutual

theorem UseYields.complete
    {use : Use}
    {before after : Progress}
    {output : Output}
    (yields : UseYields scope frame use before output after)
    (localNamed : isName use.binding.localName)
    (prepared : ∀ inner ∈ use.role.entries,
      Use.Prepared scope frame.source.toList single inner.1 inner.2)
    (clean : ∀ output ∈ after.outputs, output.Clean) :
    Completes single before after ∧ output.Complete single ∧ output.use = use :=
  match yields with
  | .passThrough isRole isOutput => by
    have isUse : output.use = use := by rw [isOutput]
    have complete : output.Complete single :=
      complete_of_passThrough (isUse ▸ isRole) (by rw [isOutput])
    exact ⟨Completes.add (fun _ => .inl) complete, complete, isUse⟩
  | .bareValue isRole _ _ isOutput => by
    subst isOutput
    have complete : Complete single _ := complete_of_bareValue isRole rfl rfl rfl
      (clean _ (List.mem_append_right _ (List.mem_singleton.mpr rfl))) localNamed
    exact ⟨Completes.add (fun _ => .inl) complete, complete, rfl⟩
  | .invocation isRole _ _ inContent inReceiver isOutput => by
    subst isOutput
    have cleanAfter := fun output member =>
      clean output (List.mem_append_left _ (member : output ∈ _))
    obtain ⟨receiverAdds, receiver⟩ := inReceiver.complete (fun span isArgument =>
      prepared (.searched, span) (by
        rw [isRole]
        exact List.mem_append_left _ (List.mem_map_of_mem isArgument))) cleanAfter
    obtain ⟨contentAdds, slots⟩ := inContent.complete (fun span isHole =>
      prepared (.hole, span) (by
        rw [isRole]
        exact Use.Role.mem_entries_of_hole isHole))
      (fun output member =>
        cleanAfter output ((inReceiver.relates (kept_allots scope frame)).subset member))
    have complete : Complete single _ := complete_of_invocation
      (by simp [isPassThrough, Use.isPassThrough, isRole]) rfl rfl rfl
      (clean _ (List.mem_append_right _ (List.mem_singleton.mpr rfl))) receiver slots
    exact ⟨Completes.add (contentAdds.trans receiverAdds) complete, complete, rfl⟩

theorem UsesYield.complete
    {uses : List Use}
    {before after : Progress}
    {outputs : List Output}
    (yields : UsesYield scope frame uses before outputs after)
    (named : ∀ use ∈ uses, isName use.binding.localName)
    (prepared : ∀ use ∈ uses, ∀ inner ∈ use.role.entries,
      Use.Prepared scope frame.source.toList single inner.1 inner.2)
    (clean : ∀ output ∈ after.outputs, output.Clean) :
    Completes single before after ∧ (∀ output ∈ outputs, output.Complete single) ∧
      outputs.map (·.use) = uses :=
  match yields with
  | .nil => ⟨fun _ => .inl, by simp, rfl⟩
  | @UsesYield.cons _ _ use uses _ middle _ output outputs first others => by
    obtain ⟨adds, complete, isUse⟩ := first.complete (named use List.mem_cons_self)
      (prepared use List.mem_cons_self) (fun output member =>
        clean output ((others.relates (kept_allots scope frame)).subset member))
    obtain ⟨laterAdds, laterComplete, areUses⟩ := others.complete
      (fun use member => named use (List.mem_cons_of_mem _ member))
      (fun use member => prepared use (List.mem_cons_of_mem _ member)) clean
    refine ⟨adds.trans laterAdds, ?_, by rw [List.map_cons, isUse, areUses]⟩
    intro other member
    rcases List.mem_cons.mp member with rfl | member
    · exact complete
    · exact laterComplete other member

theorem PartsYield.complete
    {parts : List Use.Part}
    {before after : Progress}
    {fragments : Fragments}
    (yields : PartsYield scope frame parts before fragments after)
    (prepared : ∀ span ∈ parts.filterMap Use.Part.hole?,
      Use.Prepared scope frame.source.toList single .hole span)
    (clean : ∀ output ∈ after.outputs, output.Clean) :
    Completes single before after ∧ ∀ slot ∈ fragments.slots, ∃ faces,
      Element slot.expression.toList faces ∧ (single → Bracket.isSingle faces) :=
  match yields with
  | .nil => ⟨fun _ => .inl, by simp [Fragments.slots, Fragments.empty]⟩
  | .literal others => by
    obtain ⟨adds, slots⟩ := others.complete prepared clean
    refine ⟨adds, ?_⟩
    rw [Fragments.slots_append]
    exact slots
  | @PartsYield.splice _ _ span use content parts _ middle _ inner fragments isNested spliced
      others => by
    obtain ⟨laterAdds, laterSlots⟩ := others.complete
      (fun other isHole => prepared other (List.mem_cons_of_mem _ isHole)) clean
    obtain ⟨spec, isRole, -⟩ := (Use.fills_of_nested? isNested).isDirect
    have inside : ∀ hole ∈ content.parts.filterMap Use.Part.hole?,
        Use.Prepared scope frame.source.toList single .hole hole := by
      intro hole isHole
      cases prepared span List.mem_cons_self with
      | intro _ _ _ _ deeper =>
        refine deeper [use] (Use.foundIn_hole_of_nested? isNested) use List.mem_cons_self
          (.hole, hole) ?_
        rw [isRole]
        exact Use.Role.mem_entries_of_hole isHole
    obtain ⟨adds, slots⟩ := spliced.complete inside
      (fun output member => clean output ((others.relates (kept_allots scope frame)).subset member))
    refine ⟨adds.trans laterAdds, ?_⟩
    rw [Fragments.slots_append]
    intro slot member
    rcases List.mem_append.mp member with member | member
    · exact slots slot member
    · exact laterSlots slot member
  | @PartsYield.slot _ _ span parts _ middle _ code fragments notNested expression others => by
    obtain ⟨laterAdds, laterSlots⟩ := others.complete
      (fun other isHole => prepared other (List.mem_cons_of_mem _ isHole)) clean
    have cleanBefore : ∀ output ∈ middle.outputs, output.Clean :=
      fun output member => clean output ((others.relates (kept_allots scope frame)).subset member)
    obtain ⟨fit, adds, faces, isSingle, element⟩ :
        Use.Fit scope frame.source.toList single .hole span ∧ Completes single _ middle ∧
          ∃ faces, (Bracket.isSingle (span.tokens.map Token.face) → Bracket.isSingle faces) ∧
            Element (Text.strip code).toList faces := by
      cases prepared span List.mem_cons_self with
      | intro stands holesBalanced fit named deeper =>
        have isScan := Use.foundIn_hole_of_not_nested? notNested
        rw [isScan] at named deeper
        exact ⟨fit, expression.complete stands (fit.copyable notNested) fit.isBalanced
          holesBalanced named deeper cleanBefore⟩
    refine ⟨adds.trans laterAdds, ?_⟩
    rw [Fragments.slots_append]
    intro slot member
    rcases List.mem_append.mp member with member | member
    · rw [List.mem_singleton.mp member]
      exact ⟨faces, element, fun own => isSingle (fit.isSingle own rfl notNested)⟩
    · exact laterSlots slot member

theorem SpanYields.complete
    {span : Span}
    {before after : Progress}
    {code : String}
    (yields : SpanYields scope frame span before code after)
    (stands : span.Stands frame.source.toList)
    (copyable : span.Copyable frame.source.toList)
    (isBalanced : balanced span.tokens)
    (holesBalanced : HolesBalanced span.tokens)
    (named : ∀ uses, Use.scan scope span.tokens = .ok uses → ∀ use ∈ uses,
      isName use.binding.localName)
    (prepared : ∀ uses, Use.scan scope span.tokens = .ok uses → ∀ use ∈ uses,
      ∀ inner ∈ use.role.entries,
        Use.Prepared scope frame.source.toList single inner.1 inner.2)
    (clean : ∀ output ∈ after.outputs, output.Clean) :
    Completes single before after ∧ ∃ faces,
      (Bracket.isSingle (span.tokens.map Token.face) → Bracket.isSingle faces) ∧
        Element (Text.strip code).toList faces :=
  match yields with
  | .searched scanned written => by
    obtain ⟨adds, complete, areUses⟩ := written.complete (named _ scanned) (prepared _ scanned)
      clean
    refine ⟨adds, exists_element_of_scan scanned stands copyable isBalanced holesBalanced ?_
      areUses fun output member => (complete output member).regular⟩
    intro use isUse inner isInner
    cases prepared _ scanned use isUse inner isInner with
    | intro _ _ fit _ _ => exact fit.isBalanced

theorem ReceiverYields.complete
    {receiver : Use.Receiver}
    {before after : Progress}
    {applied : Option String}
    (yields : ReceiverYields scope frame receiver before applied after)
    (prepared : ∀ span ∈ receiver.arguments,
      Use.Prepared scope frame.source.toList single .searched span)
    (clean : ∀ output ∈ after.outputs, output.Clean) :
    Completes single before after ∧ ∀ text ∈ applied, ∃ faces, Element text.toList faces :=
  match yields with
  | .direct => ⟨fun _ => .inl, by simp⟩
  | @ReceiverYields.member _ _ name _ => by
    refine ⟨fun _ => .inl, fun text isText => ?_⟩
    obtain rfl := Option.some.inj isText
    exact ⟨_, (reads_quoted name).element⟩
  | @ReceiverYields.factory _ _ argument _ _ code expression => by
    have written := fun stands copyable isBalanced holesBalanced named deeper =>
      @SpanYields.complete _ _ _ _ expression stands copyable isBalanced holesBalanced
        named deeper clean
    cases prepared argument (List.mem_singleton.mpr rfl) with
    | intro stands holesBalanced fit named deeper =>
      obtain ⟨adds, faces, -, element⟩ := written stands (fit.copyable trivial) fit.isBalanced
        holesBalanced named deeper
      refine ⟨adds, fun text isText => ?_⟩
      obtain rfl := Option.some.inj isText
      exact ⟨faces, element⟩

end

end Yields

end Output

end Restyle
