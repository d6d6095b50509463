import Mathlib.Data.List.Chain
import Restyle.Fragments

/-!
Contract: items of content that are put together one after the other.

Owns: `Addition`, a text or a slot that is added; `Sequence`, the items so far with
the number of slots among them; adding and splicing; `Sequence.IsNormal`, what the
items look like, which every addition keeps; and the laws of splicing, by which a
sequence is spliced like the additions that made it.

Does not own: which sequences the items of fragments are (`Growth`).

The laws of splicing hold for all sequences, whether they are normal or not.
-/

namespace Restyle.Fragments

/-- What is added to a sequence: text, or a slot. -/
inductive Addition where
  | literal (text : String)
  | slot (slot : Slot)
deriving DecidableEq

namespace Item

def isSlot : Item → Bool
  | .literal _ => false
  | .slot .. => true

def index? : Item → Option Nat
  | .literal _ => none
  | .slot _ index => some index

/-- What is added for an item.  A slot gets a new index. -/
def addition : Item → Addition
  | .literal text => .literal text
  | .slot own _ => .slot own

end Item

/-- Items put together one after the other, and the number of slots among them. -/
structure Sequence where
  items : List Item
  slotCount : Nat
deriving DecidableEq

namespace Sequence

def empty : Sequence :=
  ⟨[], 0⟩

/-- A sequence with text added.  Text at the end is continued; the empty text adds
nothing. -/
def addLiteral (sequence : Sequence) (text : String) : Sequence :=
  if text.isEmpty then sequence
  else
    match sequence.items.getLast? with
    | some (.literal last) =>
      { sequence with items := sequence.items.dropLast ++ [.literal (last ++ text)] }
    | _ => { sequence with items := sequence.items ++ [.literal text] }

/-- A sequence with a slot added.  Its index is the number of slots so far, and an
empty text keeps it apart from a slot at the end. -/
def addSlot (sequence : Sequence) (slot : Slot) : Sequence :=
  let parted :=
    match sequence.items.getLast? with
    | some (.slot ..) => sequence.items ++ [.literal ""]
    | _ => sequence.items
  ⟨parted ++ [.slot slot sequence.slotCount], sequence.slotCount + 1⟩

/-- A sequence with something added. -/
def add (sequence : Sequence) : Addition → Sequence
  | .literal text => sequence.addLiteral text
  | .slot slot => sequence.addSlot slot

/-- A sequence with the items of another one added in order. -/
def splice (sequence other : Sequence) : Sequence :=
  (other.items.map Item.addition).foldl add sequence

/-! ## Adding at the end -/

/-- A sequence is empty, or ends in a text or in a slot. -/
theorem items_cases (items : List Item) :
    items = [] ∨ (∃ init last, items = init ++ [.literal last]) ∨
      ∃ init slot index, items = init ++ [.slot slot index] := by
  rcases List.eq_nil_or_concat items with rfl | ⟨init, last, rfl⟩
  · exact .inl rfl
  · cases last with
    | literal text => exact .inr (.inl ⟨init, text, by simp⟩)
    | slot slot index => exact .inr (.inr ⟨init, slot, index, by simp⟩)

theorem addLiteral_empty (sequence : Sequence) : sequence.addLiteral "" = sequence :=
  rfl

theorem addLiteral_nil
    {text : String}
    (nonempty : text ≠ "")
    (count : Nat) :
    (⟨[], count⟩ : Sequence).addLiteral text = ⟨[.literal text], count⟩ := by
  simp [addLiteral, nonempty]

theorem addLiteral_literal
    (init : List Item)
    (last : String)
    (count : Nat)
    (text : String) :
    (⟨init ++ [.literal last], count⟩ : Sequence).addLiteral text =
      ⟨init ++ [.literal (last ++ text)], count⟩ := by
  by_cases isEmpty : text = ""
  · simp [isEmpty, addLiteral_empty]
  · simp [addLiteral, isEmpty]

theorem addLiteral_slot
    {text : String}
    (nonempty : text ≠ "")
    (init : List Item)
    (own : Slot)
    (index count : Nat) :
    (⟨init ++ [.slot own index], count⟩ : Sequence).addLiteral text =
      ⟨init ++ [.slot own index] ++ [.literal text], count⟩ := by
  simp [addLiteral, nonempty]

private theorem addSlot_nil (count : Nat) (slot : Slot) :
    (⟨[], count⟩ : Sequence).addSlot slot = ⟨[.slot slot count], count + 1⟩ :=
  rfl

theorem addSlot_literal
    (init : List Item)
    (last : String)
    (count : Nat)
    (slot : Slot) :
    (⟨init ++ [.literal last], count⟩ : Sequence).addSlot slot =
      ⟨init ++ [.literal last] ++ [.slot slot count], count + 1⟩ := by
  simp [addSlot]

theorem addSlot_slot
    (init : List Item)
    (own : Slot)
    (index count : Nat)
    (slot : Slot) :
    (⟨init ++ [.slot own index], count⟩ : Sequence).addSlot slot =
      ⟨init ++ [.slot own index] ++ [.literal ""] ++ [.slot slot count], count + 1⟩ := by
  simp [addSlot]

/-! ## Normal sequences -/

/-- Texts and slots alternate, an empty text stands between two slots only, and the
slots are numbered from zero on, up to their number. -/
structure IsNormal (sequence : Sequence) : Prop where
  alternates : sequence.items.IsChain fun left right => left.isSlot ≠ right.isSlot
  parts : ∀ before after, sequence.items = before ++ .literal "" :: after →
    (∃ slot index, before.getLast? = some (.slot slot index)) ∧
      ∃ slot index, after.head? = some (.slot slot index)
  indices : sequence.items.filterMap Item.index? = List.range sequence.slotCount

private theorem exists_slot_of_isSlot {item : Item} (isSlot : item.isSlot) :
    ∃ slot index, item = .slot slot index := by
  cases item with
  | literal => simp [Item.isSlot] at isSlot
  | slot slot index => exact ⟨slot, index, rfl⟩

/-- Among items that alternate, an empty text stands between two slots wherever it
stands neither first nor last. -/
theorem IsNormal.of_ends
    {sequence : Sequence}
    (alternates : sequence.items.IsChain fun left right => left.isSlot ≠ right.isSlot)
    (notFirst : sequence.items.head? ≠ some (.literal ""))
    (notLast : sequence.items.getLast? ≠ some (.literal ""))
    (indices : sequence.items.filterMap Item.index? = List.range sequence.slotCount) :
    sequence.IsNormal := by
  refine ⟨alternates, fun before after split => ?_, indices⟩
  rw [split] at alternates notFirst notLast
  obtain ⟨_, fromText, beforeText⟩ := List.isChain_append.mp alternates
  constructor
  · cases isLast : before.getLast? with
    | none =>
      rw [List.getLast?_eq_none_iff.mp isLast] at notFirst
      simp at notFirst
    | some item =>
      have differs := beforeText item (by simp [isLast]) (.literal "") (by simp)
      have isSlot : item.isSlot := by simpa [Item.isSlot] using differs
      obtain ⟨slot, index, rfl⟩ := exists_slot_of_isSlot isSlot
      exact ⟨slot, index, rfl⟩
  · cases after with
    | nil => simp at notLast
    | cons item rest =>
      have differs := (List.isChain_cons_cons.mp fromText).1
      have isSlot : item.isSlot := by
        cases isKind : item.isSlot with
        | true => rfl
        | false => exact absurd isKind.symm differs
      obtain ⟨slot, index, rfl⟩ := exists_slot_of_isSlot isSlot
      exact ⟨slot, index, rfl⟩

theorem IsNormal.notFirst
    {sequence : Sequence}
    (normal : sequence.IsNormal) :
    sequence.items.head? ≠ some (.literal "") := by
  intro isFirst
  obtain ⟨rest, isItems⟩ := List.head?_eq_some_iff.mp isFirst
  obtain ⟨⟨_, _, isLast⟩, _⟩ := normal.parts [] rest isItems
  simp at isLast

theorem IsNormal.notLast
    {sequence : Sequence}
    (normal : sequence.IsNormal) :
    sequence.items.getLast? ≠ some (.literal "") := by
  intro isLast
  obtain ⟨init, isItems⟩ := List.getLast?_eq_some_iff.mp isLast
  obtain ⟨_, _, _, isHead⟩ := normal.parts init [] isItems
  simp at isHead

theorem isNormal_empty : empty.IsNormal :=
  .of_ends .nil (by simp [empty]) (by simp [empty]) rfl

/-! ## Additions keep sequences normal -/

private theorem isChain_concat_iff {items : List Item} {item : Item} :
    ((items ++ [item]).IsChain fun left right => left.isSlot ≠ right.isSlot) ↔
      (items.IsChain fun left right => left.isSlot ≠ right.isSlot) ∧
        ∀ last ∈ items.getLast?, last.isSlot ≠ item.isSlot := by
  simp [List.isChain_append]

private theorem indices_literal (items : List Item) (text : String) :
    (items ++ [Item.literal text]).filterMap Item.index? = items.filterMap Item.index? := by
  rw [List.filterMap_append]
  exact List.append_nil _

private theorem indices_slot (items : List Item) (slot : Slot) (index : Nat) :
    (items ++ [Item.slot slot index]).filterMap Item.index? =
      items.filterMap Item.index? ++ [index] :=
  List.filterMap_append

private theorem notFirst_concat
    {items : List Item}
    {item : Item}
    (notFirst : items.head? ≠ some (.literal ""))
    (nonempty : item ≠ .literal "") :
    (items ++ [item]).head? ≠ some (.literal "") := by
  cases items with
  | nil => simpa using nonempty
  | cons first rest => exact notFirst

theorem IsNormal.addLiteral
    {sequence : Sequence}
    (normal : sequence.IsNormal)
    (text : String) :
    (sequence.addLiteral text).IsNormal := by
  obtain ⟨items, count⟩ := sequence
  by_cases isEmpty : text = ""
  · rwa [isEmpty, addLiteral_empty]
  have alternates := normal.alternates
  have indices := normal.indices
  rcases items_cases items with rfl | ⟨init, last, rfl⟩ | ⟨init, own, index, rfl⟩
  · rw [addLiteral_nil isEmpty]
    exact .of_ends (.singleton _) (by simpa using isEmpty) (by simpa using isEmpty) indices
  · have notLast := normal.notLast
    have lastNonempty : last ≠ "" := by simpa using notLast
    rw [addLiteral_literal]
    refine .of_ends ?_ ?_ (by simp [isEmpty]) ?_
    · rw [isChain_concat_iff] at alternates ⊢
      exact alternates
    · have notFirst := normal.notFirst
      cases init with
      | nil => simp [lastNonempty]
      | cons first rest => exact notFirst
    · rw [indices_literal] at indices ⊢
      exact indices
  · rw [addLiteral_slot isEmpty]
    refine .of_ends ?_ ?_ (by simp [isEmpty]) ?_
    · exact isChain_concat_iff.mpr ⟨alternates, by simp [Item.isSlot]⟩
    · exact notFirst_concat normal.notFirst (by simp [isEmpty])
    · rw [indices_literal]
      exact indices

theorem IsNormal.addSlot
    {sequence : Sequence}
    (normal : sequence.IsNormal)
    (slot : Slot) :
    (sequence.addSlot slot).IsNormal := by
  obtain ⟨items, count⟩ := sequence
  have alternates := normal.alternates
  have indices := normal.indices
  have numbered : items.filterMap Item.index? ++ [count] = List.range (count + 1) := by
    rw [List.range_succ]
    exact congrArg (· ++ [count]) indices
  rcases items_cases items with rfl | ⟨init, last, rfl⟩ | ⟨init, own, index, rfl⟩
  · rw [addSlot_nil]
    exact .of_ends (.singleton _) (by simp) (by simp) numbered
  · rw [addSlot_literal]
    refine .of_ends ?_ ?_ (by simp) ?_
    · exact isChain_concat_iff.mpr ⟨alternates, by simp [Item.isSlot]⟩
    · exact notFirst_concat normal.notFirst (by simp)
    · rw [indices_slot]
      exact numbered
  · rw [addSlot_slot]
    refine .of_ends ?_ ?_ (by simp) ?_
    · refine isChain_concat_iff.mpr ⟨?_, by simp [Item.isSlot]⟩
      exact isChain_concat_iff.mpr ⟨alternates, by simp [Item.isSlot]⟩
    · -- The empty text stands behind the slot that was last.
      have notFirst := normal.notFirst
      cases init with
      | nil => simp
      | cons first rest => exact notFirst
    · rw [indices_slot, indices_literal]
      exact numbered

/-- Every addition keeps a sequence normal. -/
theorem IsNormal.add
    {sequence : Sequence}
    (normal : sequence.IsNormal)
    (addition : Addition) :
    (sequence.add addition).IsNormal := by
  cases addition with
  | literal text => exact normal.addLiteral text
  | slot slot => exact normal.addSlot slot

private theorem IsNormal.foldl_add
    {sequence : Sequence}
    (normal : sequence.IsNormal)
    (additions : List Addition) :
    (additions.foldl Sequence.add sequence).IsNormal := by
  induction additions generalizing sequence with
  | nil => exact normal
  | cons addition rest inductionHypothesis => exact inductionHypothesis (normal.add addition)

/-- Splicing any sequence keeps a sequence normal. -/
theorem IsNormal.splice
    {sequence : Sequence}
    (normal : sequence.IsNormal)
    (other : Sequence) :
    (sequence.splice other).IsNormal :=
  normal.foldl_add _

/-! ## Splicing -/

/-- Texts that are added one after the other are added as one. -/
theorem addLiteral_append (sequence : Sequence) (first second : String) :
    (sequence.addLiteral first).addLiteral second = sequence.addLiteral (first ++ second) := by
  obtain ⟨items, count⟩ := sequence
  by_cases isEmpty : first = ""
  · rw [isEmpty, addLiteral_empty, String.empty_append]
  have nonempty : first ++ second ≠ "" := by simp [isEmpty]
  rcases items_cases items with rfl | ⟨init, last, rfl⟩ | ⟨init, own, index, rfl⟩
  · rw [addLiteral_nil isEmpty, addLiteral_nil nonempty]
    exact addLiteral_literal [] first count second
  · rw [addLiteral_literal, addLiteral_literal, addLiteral_literal, String.append_assoc]
  · rw [addLiteral_slot isEmpty, addLiteral_slot nonempty, addLiteral_literal]

private theorem splice_concat
    (sequence : Sequence)
    (items : List Item)
    (item : Item)
    (count next : Nat) :
    sequence.splice ⟨items ++ [item], next⟩ =
      (sequence.splice ⟨items, count⟩).add item.addition := by
  simp only [splice, List.map_append, List.foldl_append, List.map_cons, List.map_nil,
    List.foldl_cons, List.foldl_nil]

/-- What is added to a sequence before it is spliced may be added afterwards. -/
theorem splice_add (sequence other : Sequence) (addition : Addition) :
    sequence.splice (other.add addition) = (sequence.splice other).add addition := by
  obtain ⟨items, count⟩ := other
  cases addition with
  | literal text =>
    by_cases isEmpty : text = ""
    · rw [isEmpty]
      rfl
    change sequence.splice (addLiteral _ text) = (sequence.splice _).addLiteral text
    rcases items_cases items with rfl | ⟨init, last, rfl⟩ | ⟨init, own, index, rfl⟩
    · rw [addLiteral_nil isEmpty]
      exact splice_concat sequence [] (.literal text) count count
    · rw [addLiteral_literal, splice_concat _ _ _ count, splice_concat _ _ _ count]
      exact (addLiteral_append _ last text).symm
    · rw [addLiteral_slot isEmpty]
      exact splice_concat sequence _ (.literal text) count count
  | slot slot =>
    change sequence.splice (addSlot _ slot) = (sequence.splice _).addSlot slot
    rcases items_cases items with rfl | ⟨init, last, rfl⟩ | ⟨init, own, index, rfl⟩
    · rw [addSlot_nil]
      exact splice_concat sequence [] (.slot slot count) count _
    · rw [addSlot_literal]
      exact splice_concat sequence _ (.slot slot count) count _
    · -- The empty text that parts the slots adds nothing when it is spliced.
      rw [addSlot_slot, splice_concat _ _ _ count, splice_concat _ _ _ count]
      rfl

theorem splice_empty (sequence : Sequence) : sequence.splice empty = sequence :=
  rfl

/-- A sequence is spliced like the additions that made it. -/
theorem splice_foldl_add (sequence other : Sequence) (additions : List Addition) :
    sequence.splice (additions.foldl add other) = additions.foldl add (sequence.splice other) := by
  induction additions generalizing other with
  | nil => rfl
  | cons addition rest inductionHypothesis =>
    rw [List.foldl_cons, inductionHypothesis, splice_add, List.foldl_cons]

/-- Splicing is associative. -/
theorem splice_splice (first second third : Sequence) :
    first.splice (second.splice third) = (first.splice second).splice third :=
  splice_foldl_add first second _

end Sequence

end Restyle.Fragments
