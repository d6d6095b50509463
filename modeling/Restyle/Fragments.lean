import Restyle.Text

/-!
Contract: style content as literal text with slots in it.

Owns: `Fragments`, text alternating with slots; concatenation, under which they
form a monoid; the items shown for them, the text with placeholders, and the
array that generated code holds.

Slots and texts alternate by construction.  An empty text is shown only where
it keeps two slots apart.  A slot's index is its place among the slots.
-/

namespace Restyle

/-- An expression put into content: its text, and where it stood. -/
structure Slot where
  expression : String
  location : Option Location
deriving DecidableEq, Repr

/-- Text, then slots each followed by text. -/
structure Fragments where
  lead : String
  rest : List (Slot × String)
deriving DecidableEq, Repr

/-- What is shown of fragments. -/
inductive Fragments.Item where
  | literal (text : String)
  | slot (slot : Slot) (index : Nat)
deriving DecidableEq, Repr

namespace Fragments

def empty : Fragments :=
  ⟨"", []⟩

def literal (text : String) : Fragments :=
  ⟨text, []⟩

def slot (slot : Slot) : Fragments :=
  ⟨"", [(slot, "")]⟩

/-- Text and slots followed by other fragments: the texts that meet become one. -/
def appendRest (lead : String) : List (Slot × String) → Fragments → Fragments
  | [], other => ⟨lead ++ other.lead, other.rest⟩
  | (slot, text) :: rest, other =>
    let tail := appendRest text rest other
    ⟨lead, (slot, tail.lead) :: tail.rest⟩

def append (fragments other : Fragments) : Fragments :=
  appendRest fragments.lead fragments.rest other

instance : Append Fragments :=
  ⟨append⟩

def slotCount (fragments : Fragments) : Nat :=
  fragments.rest.length

/-- A text as an item, nothing if it is empty. -/
def literalItems (text : String) : List Item :=
  if text.isEmpty then [] else [.literal text]

/-- The items of slots and texts, the first slot having an index. -/
def restItems (index : Nat) : List (Slot × String) → List Item
  | [] => []
  | [(slot, text)] => .slot slot index :: literalItems text
  | (slot, text) :: next :: rest =>
    .slot slot index :: .literal text :: restItems (index + 1) (next :: rest)

def items (fragments : Fragments) : List Item :=
  literalItems fragments.lead ++ restItems 0 fragments.rest

/-- An item of a joined text, slots being replaced by placeholders. -/
def Item.join (placeholder : Nat → String) : Item → String
  | .literal text => text
  | .slot _ index => placeholder index

def join (placeholder : Nat → String) (fragments : Fragments) : String :=
  String.join (fragments.items.map (·.join placeholder))

/-- An item in generated code: a template literal, or the slot's expression. -/
def Item.code : Item → String
  | .literal text => "`" ++ text ++ "`"
  | .slot own _ => own.expression

/-- The array of the items in generated code. -/
def code (fragments : Fragments) : String :=
  "[" ++ ", ".intercalate (fragments.items.map (·.code)) ++ "]"

/-! ## Laws of concatenation -/

theorem empty_append (fragments : Fragments) : empty ++ fragments = fragments := by
  change appendRest "" [] fragments = fragments
  simp [appendRest]

theorem append_empty (fragments : Fragments) : fragments ++ empty = fragments := by
  obtain ⟨lead, rest⟩ := fragments
  change appendRest lead rest empty = ⟨lead, rest⟩
  induction rest generalizing lead with
  | nil => simp [appendRest, empty]
  | cons head rest inductionHypothesis => simp [appendRest, inductionHypothesis]

theorem append_assoc (first second third : Fragments) :
    first ++ second ++ third = first ++ (second ++ third) := by
  obtain ⟨lead, rest⟩ := first
  change append (appendRest lead rest second) third = appendRest lead rest (second ++ third)
  induction rest generalizing lead with
  | nil =>
    obtain ⟨secondLead, secondRest⟩ := second
    cases secondRest with
    | nil =>
      change _ = appendRest lead [] (appendRest secondLead [] third)
      simp [appendRest, append, String.append_assoc]
    | cons head secondRest =>
      change _ = appendRest lead [] (appendRest secondLead (head :: secondRest) third)
      simp [appendRest, append]
  | cons head rest inductionHypothesis =>
    simp only [appendRest, append] at inductionHypothesis ⊢
    simp [inductionHypothesis]

end Fragments

end Restyle
