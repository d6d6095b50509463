import Restyle.Proofs.Output.Elements
import Restyle.Proofs.Output.Replaced

/-!
Contract: an expression of the source copied into generated code.

Owns: `Copyable`, by which every lexeme of an expression is complete in itself
and no line comment ends it, and a way to compute it; and that such an expression,
with its uses replaced and the blanks around it taken, is read as an element of a
list.
-/

namespace Restyle

open Token Lexeme Restyle.Bracket

/-- Only blanks stand between the end of a line comment and the end of a piece of
the source. -/
def EndsInComment (source : List Char) (start stop : Nat) : Prop :=
  ∃ offset, start ≤ offset ∧ offset ≤ stop ∧ CommentEnds source offset ∧
    ∀ c ∈ Text.slice source offset stop, Text.isBlank c

/-- An expression that is read in the same way where something else follows it. -/
structure Span.Copyable (source : List Char) (span : Span) : Prop where
  isSettled : SettledBetween source span.start span.stop
  uncommented : ¬ EndsInComment source span.start span.stop

/-! ## Expressions that are seen to be copyable -/

/-- Whether the next lexeme is complete in itself if it is one of code. -/
def Lexeme.settlesAt (state : State) (first : Char) (rest : List Char) : Bool :=
  match state with
  | .code nest slash =>
    settled slash first rest (codeStep nest slash first rest).kind
      (codeStep nest slash first rest).tail
  | .template _ => true

/-- Whether every lexeme of code in a text is complete in itself. -/
def Lexeme.settledFrom (state : State) : List Char → Bool
  | [] => true
  | first :: rest =>
    let taken := step state first rest
    settlesAt state first rest && settledFrom taken.next (rest.drop taken.tail)
termination_by text => text.length
decreasing_by simp only [List.length_drop, List.length_cons]; omega

theorem Lexeme.Comes.settled
    {state : State}
    {text : List Char}
    {nest : Nest}
    {slash : Slash}
    {first : Char}
    {rest : List Char}
    (comes : Comes state text (.code nest slash) (first :: rest))
    (whole : settledFrom state text) :
    Lexeme.settled slash first rest (codeStep nest slash first rest).kind
      (codeStep nest slash first rest).tail := by
  generalize isLast : State.code nest slash = last at comes
  generalize isLeft : first :: rest = left at comes
  induction comes with
  | here =>
    subst isLast isLeft
    rw [settledFrom, Bool.and_eq_true] at whole
    exact whole.1
  | after later inductionHypothesis =>
    rw [settledFrom, Bool.and_eq_true] at whole
    exact inductionHypothesis whole.2 isLast isLeft

theorem settledBetween_of_settledFrom
    {source : List Char}
    (whole : settledFrom .initial source)
    (start stop : Nat) :
    SettledBetween source start stop := by
  intro offset slash first body kind next _ _ lexeme
  obtain ⟨nest, inner, comes, isStep⟩ := lexeme.isStep
  rw [lexeme.isText] at comes
  have isSettled := comes.settled whole
  rwa [isStep] at isSettled

/-- Whether an expression ends with a character that is not blank and no line feed
follows it. -/
def Span.endsPlainly (source : List Char) (span : Span) : Bool :=
  span.start < span.stop && source[span.stop - 1]?.any (!Text.isBlank ·) &&
    source[span.stop]?.any (· ≠ '\n')

theorem Span.copyable_of_endsPlainly
    {source : List Char}
    {span : Span}
    (whole : settledFrom .initial source)
    (plain : span.endsPlainly source) :
    span.Copyable source := by
  refine ⟨settledBetween_of_settledFrom whole _ _, ?_⟩
  rintro ⟨offset, early, late, ends, blank⟩
  simp only [endsPlainly, Bool.and_eq_true, decide_eq_true_eq, Option.any_eq_true] at plain
  obtain ⟨⟨nonempty, last, isLast, inked⟩, next, isNext, noLineFeed⟩ := plain
  rcases Nat.lt_or_eq_of_le late with inside | rfl
  · have isSlice := Text.slice_append_slice source (by omega : offset ≤ span.stop - 1)
      (by omega : span.stop - 1 ≤ span.stop)
    have isOne := Text.slice_succ isLast
    rw [Nat.sub_add_cancel (by omega)] at isOne
    have isBlank := blank last (by rw [← isSlice, isOne]; simp)
    simp [isBlank] at inked
  · exact noLineFeed (lineFeed_of_commentEnds ends (Text.drop_of_getElem? isNext))

namespace Output

/-! ## How a piece with outputs in it ends -/

private theorem endsInked_slice
    {source : List Char}
    {start stop : Nat}
    (nonempty : start < stop)
    (inked : Text.InkedAt source (stop - 1)) :
    EndsInked (Text.slice source start stop) := by
  obtain ⟨last, stands, notBlank⟩ := inked
  refine ⟨Text.slice source start (stop - 1), last, ?_, by simpa using notBlank⟩
  have isLast := Text.slice_succ stands
  rw [Nat.sub_add_cancel (by omega)] at isLast
  rw [← isLast, Text.slice_append_slice source (by omega) (by omega)]

private theorem endsInked_pieced
    {source : List Char}
    {start stop : Nat}
    {outputs : List Output}
    (ascends : Ascends start stop outputs)
    (codes : ∀ output ∈ outputs, EndsInked output.code.toList)
    (inked : start < stop → Text.InkedAt source (stop - 1)) :
    pieced source start stop outputs = [] ∨ EndsInked (pieced source start stop outputs) := by
  induction outputs generalizing start with
  | nil =>
    rcases Nat.lt_or_eq_of_le ascends with nonempty | rfl
    · exact .inr (endsInked_slice nonempty (inked nonempty))
    · exact .inl (Text.slice_self source start)
  | cons output others inductionHypothesis =>
    obtain ⟨early, ordered, later⟩ := ascends
    refine .inr ?_
    have own := codes output List.mem_cons_self
    have rest := inductionHypothesis later
      (fun output member => codes output (List.mem_cons_of_mem _ member))
      (fun nonempty => inked (by omega))
    rw [pieced]
    rcases rest with isEmpty | ends
    · rw [isEmpty, List.append_nil]
      exact own.append _
    · exact (ends.append _).append _

/-! ## Copied expressions -/

/-- An expression of the source with outputs in place of some of its tokens is an
element once the blanks around it are taken. -/
theorem Woven.exists_element
    {source : String}
    {span : Span}
    {outputs : List Output}
    (woven : Woven span.tokens outputs)
    (codes : ∀ output ∈ outputs, EndsInked output.code.toList)
    (stands : span.Stands source.toList)
    (copyable : span.Copyable source.toList)
    {commas : Bool}
    (closes : awaited commas [] (span.tokens.map Token.face) = some []) :
    ∃ faces, (faces = [] → span.tokens = []) ∧
      Element (Text.strip (Edit.applyAll (Text.cut source span.start span.stop)
        (outputs.map edit) span.start)).toList faces ∧ awaited commas [] faces = some [] := by
  obtain ⟨last, reads⟩ := stands.reads
  obtain ⟨close, trimmed⟩ := reads.trim
  have early := trimmed.stands.le
  have uncommented : ¬ CommentEnds source.toList close := fun ends =>
    copyable.uncommented ⟨close, early, trimmed.inside, ends, trimmed.blank⟩
  obtain ⟨faces, respelled, reread⟩ := woven.rereads trimmed.stands
    (copyable.isSettled.narrow (Nat.le_refl _) trimmed.inside) closes
  have beyond : Ascends close span.stop [] := trimmed.inside
  have isCode : (Edit.applyAll (Text.cut source span.start span.stop)
      (outputs.map edit) span.start).toList =
        pieced source.toList span.start close outputs ++
          Text.slice source.toList close span.stop := by
    have ascends := reread.ascends.append beyond
    rw [List.append_nil] at ascends
    rw [toList_applyAll source ascends (String.length_toList ▸ stands.inside),
      ← List.append_nil outputs, pieced_append source.toList reread.ascends beyond,
      List.append_nil]
    rfl
  have ends := endsInked_pieced reread.ascends codes fun nonempty => by
    rcases trimmed.ends with ⟨isClose, -⟩ | ends | inked
    · omega
    · exact absurd ends uncommented
    · exact inked
  have isText := Text.toList_strip trimmed.blank ends
  rw [← isCode, String.ofList_toList] at isText
  refine ⟨faces, respelled.nil_of_nil, ?_, reread.closes⟩
  rw [isText]
  refine ⟨?_, awaited_widen reread.closes, fun nest c rest isSeparator => ⟨last, ?_⟩⟩
  · have inked := List.head?_dropWhile_not Text.isBlank (pieced source.toList span.start close outputs)
    cases isHead : (List.dropWhile Text.isBlank
        (pieced source.toList span.start close outputs)).head? with
    | none => rfl
    | some c => simpa [isHead] using inked
  · have notBlank : ∀ c ∈ separators, Text.isBlank c = false :=
      List.all_iff_forall_prop.mp (by decide)
    have follows : Follows source.toList close (c :: rest) :=
      ⟨.separator isSeparator, fun ends => absurd ends uncommented⟩
    have run := reread.runs _ follows nest
    rw [bracesIn, List.count_nil, Nest.raise_zero] at run
    exact run.dropBlanks (notBlank c isSeparator)

/-- What is written for an expression that a scan has gone through is an element,
a single one where the expression is. -/
theorem exists_element_of_scan
    {scope : Scope}
    {source : String}
    {span : Span}
    {uses : List Use}
    (scanned : Use.scan scope span.tokens = .ok uses)
    (stands : span.Stands source.toList)
    (copyable : span.Copyable source.toList)
    (isBalanced : balanced span.tokens)
    (holesBalanced : HolesBalanced span.tokens)
    (entriesBalanced : ∀ use ∈ uses, ∀ entry ∈ use.role.entries, balanced entry.2.tokens)
    {outputs : List Output}
    (areOutputs : outputs.map (·.use) = uses)
    (regular : ∀ output ∈ outputs, output.Regular) :
    ∃ faces, (isSingle (span.tokens.map Token.face) → isSingle faces) ∧
      Element (Text.strip (Edit.applyAll (Text.cut source span.start span.stop)
        (edits outputs) span.start)).toList faces := by
  obtain ⟨last, reads⟩ := stands.reads
  have isClosed : awaited true [] (span.tokens.map Token.face) = some [] := by
    simpa [balanced] using isBalanced
  have woven := woven_of_scanned (Use.scanned_of_scan scanned) reads isClosed holesBalanced
    entriesBalanced areOutputs regular
  have codes : ∀ output ∈ replacing outputs, EndsInked output.code.toList := by
    intro output member
    obtain ⟨isOutput, notLeft⟩ := List.mem_filter.mp member
    obtain ⟨faces, readsAs⟩ := (regular output isOutput).reads (by simpa using notLeft)
    exact readsAs.ends
  by_cases single : isSingle (span.tokens.map Token.face)
  · obtain ⟨nonempty, undivided⟩ : span.tokens ≠ [] ∧
        awaited false [] (span.tokens.map Token.face) = some [] := by
      simpa [isSingle] using single
    obtain ⟨faces, isEmpty, element, closes⟩ :=
      woven.exists_element codes stands copyable undivided
    refine ⟨faces, fun _ => ?_, element⟩
    simpa [isSingle, closes] using fun none => nonempty (isEmpty none)
  · obtain ⟨faces, -, element, -⟩ := woven.exists_element codes stands copyable isClosed
    exact ⟨faces, fun isSingle => absurd isSingle single, element⟩

end Output

end Restyle
