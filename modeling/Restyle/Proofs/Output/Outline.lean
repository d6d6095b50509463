import Restyle.Output
import Restyle.Proofs.Output.Yields

/-!
Contract: the literal texts of written content, and that the texts of every output
are those of its own use.

Owns: the outline of a plan's content, its texts and slots in order with what is
spliced in place; `segments`, the texts of an outline between its slots, and
`runs`, each of these joined; the texts of fragments, to which they join with
placeholders between them; and the text of an outline with placeholders, which
its runs join to.

Owns also `Output.Outlines`, by which the texts of fragments are the runs of the
outline of some parts, with a rule for each way in which a part is written, and
what written content joins to; `Output.Outlined`, the same of an output and its
use, and that every output written is.
-/

namespace Restyle

/-! ## Runs -/

/-- The texts of an outline, those that no slot keeps apart as one. -/
def runs : List (Option String) → List String
  | [] => [""]
  | none :: rest => "" :: runs rest
  | some text :: rest =>
    match runs rest with
    | [] => [text]
    | first :: others => (text ++ first) :: others

/-- Texts followed by others: the last of the former and the first of the latter
become one. -/
def meet : List String → List String → List String
  | [], others => others
  | [last], [] => [last]
  | [last], first :: others => (last ++ first) :: others
  | text :: next :: rest, others => text :: meet (next :: rest) others

private theorem runs_ne_nil (outline : List (Option String)) : runs outline ≠ [] := by
  cases outline with
  | nil => simp [runs]
  | cons item rest =>
    cases item with
    | none => simp [runs]
    | some text =>
      rw [runs]
      split <;> simp

private theorem meet_cons (text first : String) (rest others : List String) :
    meet (text :: first :: rest) others = text :: meet (first :: rest) others := by
  cases others <;> rfl

/-- The runs of a concatenation. -/
theorem runs_append (left right : List (Option String)) :
    runs (left ++ right) = meet (runs left) (runs right) := by
  induction left with
  | nil =>
    rw [List.nil_append, runs]
    obtain ⟨first, others, isRuns⟩ := List.exists_cons_of_ne_nil (runs_ne_nil right)
    rw [isRuns, meet, String.empty_append]
  | cons item rest inductionHypothesis =>
    obtain ⟨first, others, isRuns⟩ := List.exists_cons_of_ne_nil (runs_ne_nil rest)
    rw [isRuns] at inductionHypothesis
    cases item with
    | none => rw [List.cons_append, runs, runs, inductionHypothesis, isRuns, meet_cons]
    | some text =>
      rw [List.cons_append, runs, inductionHypothesis, runs, isRuns]
      cases others with
      | nil =>
        obtain ⟨next, more, isNext⟩ := List.exists_cons_of_ne_nil (runs_ne_nil right)
        simp only [isNext, meet, String.append_assoc]
      | cons second more => simp only [meet_cons]

/-! ## Segments -/

/-- The texts of an outline, those that no slot keeps apart as one list. -/
def segments : List (Option String) → List (List String)
  | [] => [[]]
  | none :: rest => [] :: segments rest
  | some text :: rest =>
    match segments rest with
    | [] => [[text]]
    | first :: others => (text :: first) :: others

theorem runs_eq_segments (outline : List (Option String)) :
    runs outline = (segments outline).map String.join := by
  induction outline with
  | nil => simp [runs, segments]
  | cons item rest inductionHypothesis =>
    cases item with
    | none => simp [runs, segments, inductionHypothesis]
    | some text =>
      rw [runs, segments, inductionHypothesis]
      cases segments rest with
      | nil => simp
      | cons first others => simp

theorem mem_of_mem_segments
    {outline : List (Option String)}
    {segment : List String}
    {text : String}
    (isSegment : segment ∈ segments outline)
    (member : text ∈ segment) :
    some text ∈ outline := by
  induction outline generalizing segment with
  | nil => simp_all [segments]
  | cons item rest inductionHypothesis =>
    cases item with
    | none =>
      rcases List.mem_cons.mp isSegment with rfl | later
      · simp at member
      · exact List.mem_cons_of_mem _ (inductionHypothesis later member)
    | some own =>
      rw [segments] at isSegment
      split at isSegment
      · rw [List.mem_singleton.mp isSegment, List.mem_singleton] at member
        rw [member]
        exact List.mem_cons_self
      · rename_i first others isRest
        rw [isRest] at inductionHypothesis
        rcases List.mem_cons.mp isSegment with rfl | later
        · rcases List.mem_cons.mp member with rfl | inFirst
          · exact List.mem_cons_self
          · exact List.mem_cons_of_mem _ (inductionHypothesis List.mem_cons_self inFirst)
        · exact List.mem_cons_of_mem _
            (inductionHypothesis (List.mem_cons_of_mem _ later) member)

/-! ## Texts of fragments -/

namespace Fragments

/-- The literal texts, one more than slots. -/
def texts (fragments : Fragments) : List String :=
  fragments.lead :: fragments.rest.map (·.2)

private theorem texts_append (left right : Fragments) :
    (left ++ right).texts = meet left.texts right.texts := by
  obtain ⟨lead, rest⟩ := left
  change (appendRest lead rest right).texts = _
  induction rest generalizing lead with
  | nil => rfl
  | cons item rest inductionHypothesis =>
    obtain ⟨slot, text⟩ := item
    have inner := inductionHypothesis text
    simp only [texts, appendRest, List.map_cons] at inner ⊢
    rw [meet_cons, inner]

private theorem texts_literal (text : String) : (literal text).texts = runs [some text] := by
  simp [literal, texts, runs]

private theorem texts_slot (value : Slot) : (slot value).texts = runs [none] := by
  simp [slot, texts, runs]

private theorem mem_texts_of_restItems
    {text : String}
    {index : Nat}
    {rest : List (Slot × String)}
    (member : .literal text ∈ restItems index rest) :
    text ∈ rest.map (·.2) := by
  induction rest generalizing index with
  | nil => simp [restItems] at member
  | cons item rest inductionHypothesis =>
    obtain ⟨slot, own⟩ := item
    cases rest with
    | nil =>
      simp only [restItems, literalItems, List.mem_cons, reduceCtorEq, false_or] at member
      split at member
      · simp at member
      · simpa using member
    | cons next rest =>
      simp only [restItems, List.mem_cons, reduceCtorEq, Item.literal.injEq, false_or] at member
      rcases member with rfl | later
      · exact List.mem_cons_self
      · exact List.mem_cons_of_mem _ (inductionHypothesis later)

/-- The literal items are texts of the fragments. -/
theorem mem_texts_of_item
    {text : String}
    {fragments : Fragments}
    (member : .literal text ∈ fragments.items) :
    text ∈ fragments.texts := by
  rcases List.mem_append.mp member with isLead | inRest
  · unfold literalItems at isLead
    split at isLead
    · simp at isLead
    · simp only [List.mem_singleton, Item.literal.injEq] at isLead
      rw [isLead]
      exact List.mem_cons_self
  · exact List.mem_cons_of_mem _ (mem_texts_of_restItems inRest)

/-- Texts with placeholders between them, from a number on. -/
def interleave (placeholder : Nat → String) (index : Nat) : List String → List Char
  | [] => []
  | [text] => text.toList
  | text :: next :: rest =>
    text.toList ++ (placeholder index).toList ++ interleave placeholder (index + 1) (next :: rest)

private theorem toList_join_restItems
    (placeholder : Nat → String)
    (index : Nat)
    (lead : String)
    (rest : List (Slot × String)) :
    lead.toList ++ ((restItems index rest).map (·.join placeholder)).flatMap String.toList =
      interleave placeholder index (lead :: rest.map (·.2)) := by
  induction rest generalizing index lead with
  | nil => simp [restItems, interleave]
  | cons item rest inductionHypothesis =>
    obtain ⟨slot, text⟩ := item
    rw [List.map_cons, interleave, ← inductionHypothesis]
    cases rest with
    | nil =>
      by_cases isEmpty : text = ""
      · simp [restItems, literalItems, Item.join, isEmpty]
      · have notEmpty : text.isEmpty = false := by simpa using isEmpty
        simp [restItems, literalItems, Item.join, notEmpty]
    | cons next others => simp [restItems, Item.join]

/-- Fragments join to their texts with placeholders between them. -/
theorem toList_join (placeholder : Nat → String) (fragments : Fragments) :
    (fragments.join placeholder).toList = interleave placeholder 0 fragments.texts := by
  have lead : ((literalItems fragments.lead).map (·.join placeholder)).flatMap String.toList =
      fragments.lead.toList := by
    unfold literalItems
    split
    · rename_i isEmpty
      rw [String.isEmpty_iff.mp isEmpty]
      rfl
    · simp [Item.join]
  rw [texts, ← toList_join_restItems, join, items, ← lead]
  simp [String.toList_join]

end Fragments

/-! ## Outlines -/

namespace Plan

mutual

/-- The texts and slots of a piece of content in order, slots without their
expressions. -/
def Piece.outline : Piece → List (Option String)
  | .literal text => [some text]
  | .splice _ pieces => outline pieces
  | .slot _ _ => [none]
  | .fault _ => []

/-- The texts and slots of content in order. -/
def outline : List Piece → List (Option String)
  | [] => []
  | piece :: rest => piece.outline ++ outline rest

end

theorem outline_infix {piece : Piece} {pieces : List Piece} (member : piece ∈ pieces) :
    piece.outline <:+: outline pieces := by
  induction pieces with
  | nil => simp at member
  | cons first rest inductionHypothesis =>
    rw [outline]
    rcases List.mem_cons.mp member with rfl | later
    · exact (List.prefix_append _ _).isInfix
    · exact (inductionHypothesis later).trans (List.suffix_append _ _).isInfix

/-- The text of an outline, with placeholders from a number on. -/
def outlineText (placeholder : Nat → String) (index : Nat) : List (Option String) → List Char
  | [] => []
  | some text :: rest => text.toList ++ outlineText placeholder index rest
  | none :: rest => (placeholder index).toList ++ outlineText placeholder (index + 1) rest

def slotCount (outline : List (Option String)) : Nat :=
  outline.countP Option.isNone

theorem slotCount_append (left right : List (Option String)) :
    slotCount (left ++ right) = slotCount left + slotCount right :=
  List.countP_append

theorem outlineText_append
    (placeholder : Nat → String)
    (index : Nat)
    (left right : List (Option String)) :
    outlineText placeholder index (left ++ right) =
      outlineText placeholder index left ++
        outlineText placeholder (index + slotCount left) right := by
  induction left generalizing index with
  | nil => rfl
  | cons item rest inductionHypothesis =>
    cases item with
    | none =>
      simp only [List.cons_append, outlineText, inductionHypothesis, List.append_assoc, slotCount,
        List.countP_cons, Option.isNone_none, ↓reduceIte]
      rw [Nat.add_right_comm index 1, Nat.add_assoc index]
    | some text =>
      simp only [List.cons_append, outlineText, inductionHypothesis, List.append_assoc, slotCount,
        List.countP_cons, Option.isNone_some, Bool.false_eq_true, ↓reduceIte, Nat.add_zero]

private theorem interleave_runs
    (placeholder : Nat → String)
    (index : Nat)
    (outline : List (Option String)) :
    Fragments.interleave placeholder index (runs outline) =
      outlineText placeholder index outline := by
  induction outline generalizing index with
  | nil => rfl
  | cons item rest inductionHypothesis =>
    obtain ⟨first, others, isRuns⟩ := List.exists_cons_of_ne_nil (runs_ne_nil rest)
    cases item with
    | none =>
      rw [outlineText, ← inductionHypothesis, runs, isRuns, Fragments.interleave]
      simp
    | some text =>
      rw [outlineText, ← inductionHypothesis, runs, isRuns]
      cases others with
      | nil => simp [Fragments.interleave]
      | cons second more => simp [Fragments.interleave]

end Plan

end Restyle

/-! ## Outputs -/

namespace Restyle.Output

open Writer

/-- The texts of fragments are the runs of the outline of some parts. -/
def Outlines (scope : Scope) (parts : List Use.Part) (fragments : Fragments) : Prop :=
  fragments.texts = runs (Plan.outline (parts.map (Plan.ofPart scope)))

namespace Outlines

variable {scope : Scope} {span : Span} {parts : List Use.Part} {fragments : Fragments}

theorem nil : Outlines scope [] .empty := rfl

theorem literal (text : String) (others : Outlines scope parts fragments) :
    Outlines scope (.literal text :: parts) (.literal text ++ fragments) := by
  rw [Outlines, List.map_cons, Plan.ofPart, Plan.outline, Plan.Piece.outline, runs_append,
    Fragments.texts_append, Fragments.texts_literal, others]

theorem splice
    {use : Use}
    {content : Use.Content}
    {inner : Fragments}
    (isNested : Use.nested? scope span = .ok (some (use, content)))
    (spliced : Outlines scope content.parts inner)
    (others : Outlines scope parts fragments) :
    Outlines scope (.hole span :: parts) (inner ++ fragments) := by
  rw [Outlines, List.map_cons, Plan.ofPart, Plan.ofHole_of_nested? isNested, Plan.outline,
    Plan.Piece.outline, Plan.ofContent_eq, runs_append, Fragments.texts_append, spliced, others]

theorem slot
    (notNested : Use.nested? scope span = .ok none)
    (value : Slot)
    (others : Outlines scope parts fragments) :
    Outlines scope (.hole span :: parts) (.slot value ++ fragments) := by
  rw [Outlines, List.map_cons, Plan.ofPart, Plan.ofHole_of_not_nested? notNested, Plan.outline,
    Plan.Piece.outline, runs_append, Fragments.texts_append, Fragments.texts_slot, others]

end Outlines

/-- Written content outlines its parts. -/
theorem PartsYield.outlines
    {scope : Scope}
    {frame : Frame}
    {parts : List Use.Part}
    {before after : Progress}
    {fragments : Fragments}
    (yields : PartsYield scope frame parts before fragments after) :
    Outlines scope parts fragments :=
  match parts, yields with
  | [], .nil => .nil
  | .literal text :: _, .literal others => .literal text others.outlines
  | .hole _ :: _, .splice isNested spliced others =>
    .splice isNested spliced.outlines others.outlines
  | .hole _ :: _, .slot notNested _ others => .slot notNested _ others.outlines

private theorem texts_ofContent
    {scope : Scope}
    {frame : Frame}
    {content : Use.Content}
    {before after : Progress}
    {fragments : Fragments}
    (gives : Gives (ofPieces frame (Plan.ofContent scope content)) before fragments after) :
    fragments.texts = runs (Plan.outline (Plan.ofContent scope content)) := by
  rw [Plan.ofContent_eq] at gives ⊢
  exact (partsYield_of_gives content.parts (fun span _ => derives scope .hole span) gives).outlines

/-- Written content joins to the text of its outline. -/
theorem join_ofContent
    {scope : Scope}
    {frame : Frame}
    {content : Use.Content}
    {before after : Progress}
    {fragments : Fragments}
    (gives : Gives (ofPieces frame (Plan.ofContent scope content)) before fragments after)
    (placeholder : Nat → String) :
    (fragments.join placeholder).toList =
      Plan.outlineText placeholder 0 (Plan.outline (Plan.ofContent scope content)) := by
  rw [Fragments.toList_join, texts_ofContent gives, Plan.interleave_runs]

/-- The texts of an output's fragments are the runs of its use's content. -/
def Outlined (scope : Scope) (output : Output) : Prop :=
  ∀ fragments, output.fragments = some fragments →
    ∃ spec receiver content, output.use.role = .invocation spec receiver content ∧
      fragments.texts = runs (Plan.outline (Plan.ofContent scope content))

/-- Only outlined outputs are added between two states. -/
def AddsOutlined (scope : Scope) (before after : Progress) : Prop :=
  ∀ output ∈ after.outputs, output ∈ before.outputs ∨ output.Outlined scope

theorem AddsOutlined.add
    {scope : Scope}
    {before after : Progress}
    {output : Output}
    (inside : AddsOutlined scope before after)
    (outlined : output.Outlined scope) :
    AddsOutlined scope before (after.add output) := by
  intro other member
  rcases List.mem_append.mp member with early | own
  · exact inside other early
  · rw [List.mem_singleton.mp own]
    exact .inr outlined

/-- Every writing adds outlined outputs only. -/
theorem kept_addsOutlined (scope : Scope) (frame : Frame) :
    Kept scope frame (AddsOutlined scope) where
  refl _ _ := .inl
  trans first later output member := (later output member).elim (first output) .inr
  passThrough _ isOutput := by
    apply AddsOutlined.add fun _ => .inl
    simp [Outlined, isOutput]
  bareValue _ _ _ isOutput := by
    apply AddsOutlined.add fun _ => .inl
    simp [Outlined, isOutput]
  invocation isRole _ _ inContent isOutput inside := by
    apply AddsOutlined.add inside
    intro fragments isFragments
    simp only [isOutput, Option.some.injEq] at isFragments ⊢
    rw [← isFragments]
    exact ⟨_, _, _, isRole, Plan.ofContent_eq scope _ ▸ inContent.outlines⟩

end Restyle.Output
