import Restyle.Output
import Restyle.Proofs.Fragments.Growth

/-!
Contract: splicing as replaying.

Owns: `logs`, the texts and slots that were added to each of several sequences, those
of sequences spliced in included; `Growth.replay`, adding them again; that splicing a
sequence adds what was added to it, to whatever sequence; the text that a spliced
sequence joins to; `Plan.flattened`, content with what is spliced in place; and that
content is written like its flattening.
-/

namespace Restyle

/-! ## Flattened content -/

namespace Plan

mutual

/-- The pieces that a piece of content stands for, none of which is spliced. -/
def Piece.flattened : Piece → List Piece
  | .splice _ pieces => flattened pieces
  | .literal text => [.literal text]
  | .slot location expression => [.slot location expression]
  | .fault fault => [.fault fault]

/-- Content with the pieces of spliced uses in place of the uses. -/
def flattened : List Piece → List Piece
  | [] => []
  | piece :: rest => piece.flattened ++ flattened rest

end

end Plan

namespace Output

private theorem ofPieces_singleton (frame : Frame) (piece : Plan.Piece) :
    ofPieces frame [piece] = ofPiece frame piece := by
  simp only [ofPieces, pure_bind, Fragments.append_empty, bind_pure]

private theorem ofPieces_append (frame : Frame) (left right : List Plan.Piece) :
    ofPieces frame (left ++ right) = (do
      let fragments ← ofPieces frame left
      let others ← ofPieces frame right
      return fragments ++ others) := by
  induction left with
  | nil => simp only [List.nil_append, ofPieces, pure_bind, Fragments.empty_append, bind_pure]
  | cons piece rest inductionHypothesis =>
    simp only [List.cons_append, ofPieces, inductionHypothesis, bind_assoc, pure_bind,
      Fragments.append_assoc]

mutual

private theorem ofPiece_flattened (frame : Frame) (piece : Plan.Piece) :
    ofPieces frame piece.flattened = ofPiece frame piece :=
  match piece with
  | .splice _ pieces => by
    rw [Plan.Piece.flattened, ofPiece]
    exact ofPieces_flattened frame pieces
  | .literal _ => ofPieces_singleton frame _
  | .slot _ _ => ofPieces_singleton frame _
  | .fault _ => ofPieces_singleton frame _

/-- How deep spliced uses are nested does not matter to the writing of content: not
to what is written, nor to the aliases asked for, nor to a fault. -/
theorem ofPieces_flattened (frame : Frame) (pieces : List Plan.Piece) :
    ofPieces frame (Plan.flattened pieces) = ofPieces frame pieces :=
  match pieces with
  | [] => rfl
  | piece :: rest => by
    rw [Plan.flattened, ofPieces_append, ofPiece_flattened frame piece,
      ofPieces_flattened frame rest, ofPieces]

end

end Output

namespace Fragments

/-! ## Logs -/

/-- What was added to sequences.  Splicing adds all that was added to the other
sequence. -/
def logs : Growth (List Addition) where
  empty := []
  add log addition := (none, log ++ [addition])
  splice := (· ++ ·)

/-- A sequence with what a log says added to it, one after the other. -/
def Growth.replay {σ : Type} (growth : Growth σ) (log : List Addition) (start : σ) : σ :=
  log.foldl (fun sequence addition => (growth.add sequence addition).2) start

private theorem Growth.replay_append
    {σ : Type}
    (growth : Growth σ)
    (first second : List Addition)
    (start : σ) :
    growth.replay (first ++ second) start = growth.replay second (growth.replay first start) :=
  List.foldl_append

/-- Sequences whose splicing has the empty one as a unit on the right, and lets an
addition or a splice be made before or after, are spliced as they were logged. -/
theorem Growth.related_logs
    {σ : Type}
    {growth : Growth σ}
    (splice_empty : ∀ start, growth.splice start growth.empty = start)
    (splice_add : ∀ start sequence addition,
      growth.splice start (growth.add sequence addition).2 =
        (growth.add (growth.splice start sequence) addition).2)
    (splice_splice : ∀ start sequence other,
      growth.splice start (growth.splice sequence other) =
        growth.splice (growth.splice start sequence) other) :
    Growth.Related growth logs fun sequence log =>
      ∀ start, growth.splice start sequence = growth.replay log start where
  empty := splice_empty
  add := by
    intro sequence log addition before start
    rw [splice_add, before]
    exact (growth.replay_append log [addition] start).symm
  splice := by
    intro sequence log other otherLog before otherBefore start
    rw [splice_splice, before, otherBefore]
    exact (growth.replay_append log otherLog start).symm

/-- Items are spliced as they were logged. -/
theorem Sequence.related_logs :
    Growth.Related Sequence.growth logs fun sequence log =>
      ∀ start : Sequence, start.splice sequence = Sequence.growth.replay log start := by
  refine Growth.related_logs Sequence.splice_empty (fun start sequence addition => ?_)
    Sequence.splice_splice
  have added := Sequence.splice_add start sequence addition
  cases addition with
  | literal text => exact added
  | slot own => exact added

/-- Fragments are spliced as they were logged. -/
theorem related_logs :
    Growth.Related growth logs fun fragments log =>
      ∀ start : Fragments, start ++ fragments = growth.replay log start := by
  refine Growth.related_logs append_empty (fun start fragments addition => ?_)
    fun start fragments other => (append_assoc start fragments other).symm
  cases addition with
  | literal text => exact (append_assoc start fragments (literal text)).symm
  | slot own => exact (append_assoc start fragments (slot own)).symm

/-! ## Joined texts -/

namespace Sequence

/-- The text of a sequence with a placeholder for each slot. -/
def join (placeholder : Nat → String) (sequence : Sequence) : String :=
  String.join (sequence.items.map (·.join placeholder))

/-- The text that additions contribute, slots having indices from a number on. -/
def addedText (placeholder : Nat → String) (index : Nat) : List Addition → String
  | [] => ""
  | .literal text :: rest => text ++ addedText placeholder index rest
  | .slot _ :: rest => placeholder index ++ addedText placeholder (index + 1) rest

private theorem join_concat
    (placeholder : Nat → String)
    (items : List Item)
    (item : Item)
    (count : Nat) :
    join placeholder ⟨items ++ [item], count⟩ =
      join placeholder ⟨items, count⟩ ++ item.join placeholder := by
  simp [join, String.join_append]

private theorem join_addLiteral (placeholder : Nat → String) (sequence : Sequence) (text : String) :
    (sequence.addLiteral text).join placeholder = sequence.join placeholder ++ text := by
  obtain ⟨items, count⟩ := sequence
  by_cases isEmpty : text = ""
  · rw [isEmpty, addLiteral_empty, String.append_empty]
  rcases items_cases items with rfl | ⟨init, last, rfl⟩ | ⟨init, own, index, rfl⟩
  · rw [addLiteral_nil isEmpty]
    exact join_concat placeholder [] (.literal text) count
  · rw [addLiteral_literal, join_concat, join_concat, String.append_assoc]
    rfl
  · rw [addLiteral_slot isEmpty]
    exact join_concat placeholder _ (.literal text) count

private theorem join_addSlot (placeholder : Nat → String) (sequence : Sequence) (own : Slot) :
    (sequence.addSlot own).join placeholder =
      sequence.join placeholder ++ placeholder sequence.slotCount := by
  obtain ⟨items, count⟩ := sequence
  rcases items_cases items with rfl | ⟨init, last, rfl⟩ | ⟨init, other, index, rfl⟩
  · exact join_concat placeholder [] (.slot own count) (count + 1)
  · rw [addSlot_literal]
    exact join_concat placeholder _ (.slot own count) (count + 1)
  · -- The empty text that parts the slots has no text.
    rw [addSlot_slot, join_concat, join_concat]
    simp only [Item.join, String.append_empty]
    rfl

/-- What additions contribute to the text depends on the sequence only through the
number of its slots. -/
theorem join_foldl_add
    (placeholder : Nat → String)
    (sequence : Sequence)
    (additions : List Addition) :
    (additions.foldl add sequence).join placeholder =
      sequence.join placeholder ++ addedText placeholder sequence.slotCount additions := by
  induction additions generalizing sequence with
  | nil => exact String.append_empty.symm
  | cons addition rest inductionHypothesis =>
    rw [List.foldl_cons, inductionHypothesis]
    cases addition with
    | literal text =>
      have sameCount : (sequence.addLiteral text).slotCount = sequence.slotCount := by
        unfold addLiteral
        split
        · rfl
        · split <;> rfl
      rw [add, join_addLiteral, sameCount, addedText, String.append_assoc]
    | slot own =>
      rw [add, join_addSlot, addedText, String.append_assoc]
      rfl

private theorem addedText_shift
    (placeholder : Nat → String)
    (shift index : Nat)
    (additions : List Addition) :
    addedText (fun place => placeholder (shift + place)) index additions =
      addedText placeholder (shift + index) additions := by
  induction additions generalizing index with
  | nil => rfl
  | cons addition rest inductionHypothesis =>
    cases addition with
    | literal text => rw [addedText, addedText, inductionHypothesis]
    | slot own => rw [addedText, addedText, inductionHypothesis, Nat.add_assoc]

end Sequence

/-- The text of fragments spliced into a sequence follows the text of the sequence,
with its placeholders shifted by the number of slots. -/
theorem join_splice
    (placeholder : Nat → String)
    (start : Sequence)
    (fragments : Fragments) :
    (start.splice fragments.sequence).join placeholder =
      start.join placeholder ++
        fragments.join fun index => placeholder (start.slotCount + index) := by
  have isText (other : Nat → String) :
      fragments.join other = Sequence.addedText other 0 fragments.additions := by
    change fragments.sequence.join other = _
    rw [sequence_eq_foldl_add, Sequence.join_foldl_add]
    exact String.empty_append
  rw [isText, Sequence.addedText_shift, sequence_eq_foldl_add, Sequence.splice_foldl_add,
    Sequence.splice_empty, Sequence.join_foldl_add]
  rfl

/-! ## Splicing -/

/-- Splicing a sequence does what its log says, to whatever sequence.  It is
associative, with the empty sequence as its unit, and the text that is joined is that
of the one followed by that of the other, placeholders shifted. -/
structure Growth.Replays
    {σ : Type}
    (growth : Growth σ)
    (slotCount : σ → Nat)
    (join : (Nat → String) → σ → String)
    (built : σ)
    (log : List Addition) : Prop where
  replay : ∀ start, growth.splice start built = growth.replay log start
  assoc : ∀ start next,
    growth.splice start (growth.splice built next) =
      growth.splice (growth.splice start built) next
  empty_splice : growth.splice growth.empty built = built
  splice_empty : growth.splice built growth.empty = built
  join : ∀ placeholder start,
    join placeholder (growth.splice start built) =
      join placeholder start ++ join (fun index => placeholder (slotCount start + index)) built

section Splicing

variable {Name : Type} [DecidableEq Name]

private theorem replays_sequence (commands : List (Command Name)) (name : Name) :
    Sequence.growth.Replays Sequence.slotCount Sequence.join
      (Sequence.growth.run commands name) (logs.run commands name) where
  replay := Sequence.related_logs.run commands name
  assoc start next := Sequence.splice_splice start _ next
  empty_splice := by
    rw [run_sequence]
    change Fragments.empty.sequence.splice _ = _
    rw [← sequence_append, empty_append]
  splice_empty := Sequence.splice_empty _
  join placeholder start := by
    rw [run_sequence]
    exact join_splice placeholder start _

private theorem replays_fragments (commands : List (Command Name)) (name : Name) :
    growth.Replays slotCount join (growth.run commands name) (logs.run commands name) where
  replay := related_logs.run commands name
  assoc start next := (append_assoc start _ next).symm
  empty_splice := empty_append _
  splice_empty := append_empty _
  join placeholder start := by
    change (start ++ _).sequence.join placeholder = _
    rw [sequence_append]
    exact join_splice placeholder start.sequence _

/-- Splicing a sequence that was put together by any run, into any sequence, adds the
texts and slots that were added to it, those of nested splices in place: item by item,
and for fragments as they are written.  Content is written as if the uses nested in
it, at whatever depth, had been spliced into it directly. -/
theorem splicing_is_replaying (commands : List (Command Name)) (name : Name) :
    Sequence.growth.Replays Sequence.slotCount Sequence.join
        (Sequence.growth.run commands name) (logs.run commands name) ∧
      growth.Replays slotCount join (growth.run commands name) (logs.run commands name) ∧
      ∀ frame pieces,
        Output.ofPieces frame pieces = Output.ofPieces frame (Plan.flattened pieces) :=
  ⟨replays_sequence commands name, replays_fragments commands name,
    fun frame pieces => (Output.ofPieces_flattened frame pieces).symm⟩

end Splicing

end Fragments

end Restyle
