import Mathlib.Data.List.Pairwise
import Restyle.Proofs.Text
import Restyle.Text

/-!
Contract: what it means to replace parts of a text.

Owns: `Edit.substituteFrom`, the replacement of all edited parts of a text at
once, character by character and whatever the order of the edits;
`Edit.substituteThrough`, which also puts what is inserted at the end of the
text; that the edits of `Edit.applyAll` do just that where none overlaps
another; and `Edit.Spliced`, the same for edits in their order, piece by piece.
-/

namespace Restyle.Edit

/-- Whether an edit replaces the character at an offset. -/
def covers (edit : Edit) (offset : Nat) : Bool :=
  edit.start ≤ offset && (offset : Int) < edit.stop

/-- What stands in front of the character at an offset: the replacements of the
edits that begin there. -/
def insertedAt (edits : List Edit) (offset : Nat) : List Char :=
  (edits.filter fun edit => edit.start = (offset : Int)).flatMap (·.replacement.toList)

/-- A text that begins at an offset, with the parts that some edits cover left
out and their replacements put where they begin. -/
def substituteFrom (edits : List Edit) (offset : Nat) : List Char → List Char
  | [] => []
  | c :: rest =>
    insertedAt edits offset ++ (if edits.any (·.covers offset) then [] else [c]) ++
      substituteFrom edits (offset + 1) rest

/-- Substitution with what some edits put at the end of the text. -/
def substituteThrough (edits : List Edit) (offset : Nat) (text : List Char) : List Char :=
  substituteFrom edits offset text ++ insertedAt edits (offset + text.length)

/-- Two edits do not overlap. -/
def Apart (left right : Edit) : Prop :=
  left.stop ≤ right.start ∨ right.stop ≤ left.start

instance : DecidableRel Apart :=
  fun _ _ => inferInstanceAs (Decidable (_ ∨ _))

/-- Two edits do not replace the same part. -/
def Differ (left right : Edit) : Prop :=
  (left.start, left.stop) ≠ (right.start, right.stop)

instance : DecidableRel Differ :=
  fun _ _ => inferInstanceAs (Decidable (_ ≠ _))

/-- An edit replaces some characters between two offsets. -/
structure Within (start stop : Nat) (edit : Edit) : Prop where
  lower : start ≤ edit.start
  nonempty : edit.start < edit.stop
  upper : edit.stop ≤ stop

/-- An edit replaces some characters or none between two offsets. -/
structure Inside (start stop : Int) (edit : Edit) : Prop where
  lower : start ≤ edit.start
  ordered : edit.start ≤ edit.stop
  upper : edit.stop ≤ stop

instance (start stop : Int) (edit : Edit) : Decidable (Inside start stop edit) :=
  decidable_of_iff (start ≤ edit.start ∧ edit.start ≤ edit.stop ∧ edit.stop ≤ stop)
    ⟨fun ⟨lower, ordered, upper⟩ => ⟨lower, ordered, upper⟩,
      fun ⟨lower, ordered, upper⟩ => ⟨lower, ordered, upper⟩⟩

theorem Within.inside
    {start stop : Nat}
    {edit : Edit}
    (within : Within start stop edit) :
    Inside start stop edit :=
  ⟨within.lower, Int.le_of_lt within.nonempty, within.upper⟩

/-! ## Insertion -/

section Insertion

variable
  {edit : Edit}
  {edits rest : List Edit}
  {offset : Nat}

private theorem insertedAt_cons_of_eq
    (begins : edit.start = offset) :
    insertedAt (edit :: rest) offset = edit.replacement.toList ++ insertedAt rest offset := by
  rw [insertedAt, List.filter_cons_of_pos (by simpa using begins), List.flatMap_cons]
  rfl

private theorem insertedAt_cons_of_ne
    (elsewhere : edit.start ≠ offset) :
    insertedAt (edit :: rest) offset = insertedAt rest offset := by
  rw [insertedAt, List.filter_cons_of_neg (by simpa using elsewhere)]
  rfl

private theorem insertedAt_eq_nil
    (elsewhere : ∀ edit ∈ edits, edit.start ≠ offset) :
    insertedAt edits offset = [] := by
  have none : edits.filter (fun edit => edit.start = (offset : Int)) = [] :=
    List.filter_eq_nil_iff.mpr fun edit member => by simpa using elsewhere edit member
  rw [insertedAt, none, List.flatMap_nil]

end Insertion

/-! ## Substitution -/

private theorem substituteFrom_append (edits : List Edit) (offset : Nat) (left right : List Char) :
    substituteFrom edits offset (left ++ right) =
      substituteFrom edits offset left ++ substituteFrom edits (offset + left.length) right := by
  induction left generalizing offset with
  | nil => rfl
  | cons c rest inductionHypothesis =>
    simp only [List.cons_append, substituteFrom, inductionHypothesis, List.append_assoc,
      List.length_cons]
    rw [Nat.add_right_comm offset 1, Nat.add_assoc offset]

/-- Substitution looks at the edits offset by offset. -/
theorem substituteFrom_congr
    {one other : List Edit}
    {offset : Nat}
    {text : List Char}
    (same : ∀ place, offset ≤ place → place < offset + text.length →
      insertedAt one place = insertedAt other place ∧
        one.any (·.covers place) = other.any (·.covers place)) :
    substituteFrom one offset text = substituteFrom other offset text := by
  induction text generalizing offset with
  | nil => rfl
  | cons c rest inductionHypothesis =>
    simp only [substituteFrom]
    have here := same offset (Nat.le_refl _) (by simp)
    rw [here.1, here.2, inductionHypothesis fun place lower upper =>
      same place (by omega) (by simp only [List.length_cons]; omega)]

theorem substituteFrom_nil (offset : Nat) (text : List Char) :
    substituteFrom [] offset text = text := by
  induction text generalizing offset with
  | nil => rfl
  | cons c rest inductionHypothesis =>
    simp [substituteFrom, insertedAt, inductionHypothesis]

private theorem substituteFrom_untouched
    {edits : List Edit}
    {offset : Nat}
    {text : List Char}
    (untouched : ∀ edit ∈ edits,
      (offset : Int) + text.length ≤ edit.start ∨ edit.start < offset ∧ edit.stop ≤ offset) :
    substituteFrom edits offset text = text := by
  refine Eq.trans (substituteFrom_congr ?_) (substituteFrom_nil offset text)
  intro place lower upper
  constructor
  · refine insertedAt_eq_nil fun edit member => ?_
    have away := untouched edit member
    omega
  · rw [List.any_nil, List.any_eq_false]
    intro edit member
    have away := untouched edit member
    simp only [covers, Bool.and_eq_true, decide_eq_true_eq]
    omega

private theorem substituteFrom_covered
    {edits : List Edit}
    {edit : Edit}
    {offset : Nat}
    {text : List Char}
    (member : edit ∈ edits)
    (lower : edit.start ≤ offset)
    (upper : (offset : Int) + text.length ≤ edit.stop)
    (noStart : ∀ other ∈ edits, other.start < offset ∨ (offset : Int) + text.length ≤ other.start) :
    substituteFrom edits offset text = [] := by
  induction text generalizing offset with
  | nil => rfl
  | cons c rest inductionHypothesis =>
    simp only [List.length_cons, Int.natCast_add, Int.cast_ofNat_Int] at upper noStart
    have nextLower : edit.start ≤ ((offset + 1 : Nat) : Int) := by omega
    have later := inductionHypothesis nextLower (by omega) fun other isOther => by
      have := noStart other isOther
      omega
    have inserted : insertedAt edits offset = [] := by
      refine insertedAt_eq_nil fun other isOther => ?_
      have := noStart other isOther
      omega
    have covered : edits.any (·.covers offset) := by
      refine List.any_eq_true.mpr ⟨edit, member, ?_⟩
      simp only [covers, Bool.and_eq_true, decide_eq_true_eq]
      omega
    simp [substituteFrom, inserted, covered, later]

/-- An edit makes no difference from its end on, if it begins before that. -/
theorem substituteFrom_cons_of_lt
    {edit : Edit}
    {rest : List Edit}
    {offset : Nat}
    (early : edit.start < offset)
    (passed : edit.stop ≤ offset)
    (text : List Char) :
    substituteFrom (edit :: rest) offset text = substituteFrom rest offset text := by
  refine substituteFrom_congr fun place lower _ => ⟨insertedAt_cons_of_ne (by omega), ?_⟩
  have notCovered : edit.covers place = false := by
    simp only [covers, Bool.and_eq_false_iff, decide_eq_false_iff_not]
    omega
  rw [List.any_cons, notCovered, Bool.false_or]

/-- Before the first of some edits, the text stays as it is. -/
theorem substituteFrom_before
    {edit : Edit}
    {rest : List Edit}
    {offset : Nat}
    {gap : List Char}
    (begins : edit.start = (offset + gap.length : Nat))
    (later : ∀ other ∈ rest, edit.start ≤ other.start) :
    substituteFrom (edit :: rest) offset gap = gap := by
  apply substituteFrom_untouched
  intro other member
  left
  rcases List.mem_cons.mp member with rfl | isLater
  · omega
  · have := later other isLater
    omega

/-- The first of some edits puts its replacement in place of its part. -/
theorem substituteFrom_edit
    {edit : Edit}
    {rest : List Edit}
    {offset : Nat}
    {gap region tail : List Char}
    (begins : edit.start = (offset + gap.length : Nat))
    (ends : edit.stop = (offset + gap.length + region.length : Nat))
    (nonempty : region ≠ [])
    (later : ∀ other ∈ rest, edit.stop ≤ other.start) :
    substituteFrom (edit :: rest) offset (gap ++ (region ++ tail)) =
      gap ++ (edit.replacement.toList ++
        substituteFrom rest (offset + gap.length + region.length) tail) := by
  have positive := List.length_pos_iff.mpr nonempty
  have inGap : substituteFrom (edit :: rest) offset gap = gap :=
    substituteFrom_before begins fun other member => by
      have := later other member
      omega
  have inRegion : substituteFrom (edit :: rest) (offset + gap.length) region =
      edit.replacement.toList := by
    obtain ⟨c, more, rfl⟩ := List.exists_cons_of_ne_nil nonempty
    have noOther : insertedAt rest (offset + gap.length) = [] := by
      refine insertedAt_eq_nil fun other member => ?_
      have := later other member
      omega
    have inserted : insertedAt (edit :: rest) (offset + gap.length) = edit.replacement.toList := by
      rw [insertedAt_cons_of_eq begins, noOther, List.append_nil]
    have covered : (edit :: rest).any (·.covers (offset + gap.length)) := by
      refine List.any_eq_true.mpr ⟨edit, List.mem_cons_self, ?_⟩
      simp only [covers, Bool.and_eq_true, decide_eq_true_eq]
      omega
    simp only [List.length_cons] at ends
    have none : substituteFrom (edit :: rest) (offset + gap.length + 1) more = [] := by
      refine substituteFrom_covered List.mem_cons_self (by omega) (by omega) fun other member => ?_
      rcases List.mem_cons.mp member with rfl | isLater
      · omega
      · have := later other isLater
        omega
    simp only [substituteFrom, inserted, covered, ↓reduceIte, none, List.append_nil]
  rw [substituteFrom_append, substituteFrom_append, inGap, inRegion,
    substituteFrom_cons_of_lt (by omega) (by omega)]

private theorem substituteThrough_insertion
    {edit : Edit}
    {rest : List Edit}
    {offset : Nat}
    (begins : edit.start = offset)
    (ends : edit.stop = offset)
    (text : List Char) :
    substituteThrough (edit :: rest) offset text =
      edit.replacement.toList ++ substituteThrough rest offset text := by
  cases text with
  | nil => exact insertedAt_cons_of_eq begins
  | cons c more =>
    have notCovered : edit.covers offset = false := by
      simp only [covers, Bool.and_eq_false_iff, decide_eq_false_iff_not]
      omega
    have atEnd : insertedAt (edit :: rest) (offset + (c :: more).length) =
        insertedAt rest (offset + (c :: more).length) :=
      insertedAt_cons_of_ne (by simp only [List.length_cons]; omega)
    simp only [substituteThrough, substituteFrom, atEnd, insertedAt_cons_of_eq begins,
      substituteFrom_cons_of_lt (show edit.start < (offset + 1 : Nat) by omega) (by omega) more,
      List.any_cons, notCovered, Bool.false_or, List.append_assoc]

/-- The first of some edits puts its replacement in place of its part, which may
be empty. -/
theorem substituteThrough_edit
    {edit : Edit}
    {rest : List Edit}
    {offset : Nat}
    {gap region tail : List Char}
    (begins : edit.start = (offset + gap.length : Nat))
    (ends : edit.stop = (offset + gap.length + region.length : Nat))
    (later : ∀ other ∈ rest, edit.stop ≤ other.start) :
    substituteThrough (edit :: rest) offset (gap ++ (region ++ tail)) =
      gap ++ (edit.replacement.toList ++
        substituteThrough rest (offset + gap.length + region.length) tail) := by
  -- An empty part may be at the end of the text, where no character begins.
  by_cases isEmpty : region = []
  · subst isEmpty
    rw [List.length_nil, Nat.add_zero] at ends ⊢
    have inGap : substituteFrom (edit :: rest) offset gap = gap :=
      substituteFrom_before begins fun other member => by
        have := later other member
        omega
    rw [List.nil_append, ← substituteThrough_insertion begins ends, substituteThrough,
      substituteFrom_append, inGap, List.length_append, ← Nat.add_assoc, List.append_assoc]
    rfl
  · have positive := List.length_pos_iff.mpr isEmpty
    rw [substituteThrough, substituteFrom_edit begins ends isEmpty later,
      insertedAt_cons_of_ne (by simp only [List.length_append]; omega)]
    simp only [substituteThrough, List.length_append, List.append_assoc, Nat.add_assoc]

/-! ## Applying edits in order -/

/-- Edits in the order of their places, none of which overlaps another. -/
def Ascending (edits : List Edit) : Prop :=
  edits.Pairwise fun left right => left.stop ≤ right.start

theorem toList_piece
    {text : String}
    {start stop : Int}
    (lower : 0 ≤ start)
    (ordered : start ≤ stop)
    (upper : stop ≤ text.length) :
    (piece text start stop).toList = Text.slice text.toList start.toNat stop.toNat := by
  have clamped : ∀ offset : Int, 0 ≤ offset → offset ≤ text.length →
      clamp text.length offset = offset.toNat := by
    intro offset nonnegative inside
    rw [clamp, if_neg (by omega)]
    omega
  rw [piece, Text.toList_cut, clamped start lower (by omega), clamped stop (by omega) upper]

theorem piece_append_piece
    {text : String}
    {start middle stop : Int}
    (lower : 0 ≤ start)
    (early : start ≤ middle)
    (late : middle ≤ stop)
    (upper : stop ≤ text.length) :
    piece text start middle ++ piece text middle stop = piece text start stop := by
  rw [← String.toList_inj, String.toList_append, toList_piece lower early (by omega),
    toList_piece (by omega) late upper, toList_piece lower (by omega) upper,
    Text.slice_append_slice _ (by omega) (by omega)]

/-- A piece of a piece of a text is a piece of the text. -/
theorem piece_cut
    {text : String}
    {start stop : Nat}
    {lower upper : Int}
    (early : start ≤ lower)
    (ordered : lower ≤ upper)
    (late : upper ≤ stop)
    (inside : stop ≤ text.length) :
    piece (Text.cut text start stop) (lower - start) (upper - start) = piece text lower upper := by
  have size : (Text.cut text start stop).length = stop - start := Text.length_cut inside
  rw [← String.toList_inj, toList_piece (by omega) (by omega) (by omega),
    toList_piece (by omega) ordered (by omega), Text.toList_cut,
    Text.slice_slice _ _ (by omega)]
  congr 1 <;> omega

/-- Edits after the first of some in order lie beyond it. -/
theorem Ascending.beyond
    {edit : Edit}
    {rest : List Edit}
    {start stop : Int}
    (ascending : Ascending (edit :: rest))
    (inside : ∀ other ∈ edit :: rest, Inside start stop other) :
    ∀ other ∈ rest, Inside edit.stop stop other := by
  intro other member
  have bounds := inside other (List.mem_cons_of_mem _ member)
  exact ⟨(List.pairwise_cons.mp ascending).1 other member, bounds.ordered, bounds.upper⟩

theorem applyFrom_eq_substituteThrough
    {text : String}
    {edits : List Edit}
    {cursor : Nat}
    (ascending : Ascending edits)
    (inside : ∀ edit ∈ edits, Inside cursor text.length edit)
    (reached : cursor ≤ text.length) :
    (applyFrom text 0 cursor edits).toList =
      substituteThrough edits cursor (text.toList.drop cursor) := by
  have total : text.toList.length = text.length := String.length_toList
  induction edits generalizing cursor with
  | nil =>
    rw [applyFrom, toList_piece (by omega) (by omega) (by omega), substituteThrough,
      substituteFrom_nil, insertedAt_eq_nil (by simp), List.append_nil, Text.slice_eq_take_drop]
    refine List.take_of_length_le ?_
    rw [List.length_drop]
    omega
  | cons edit rest inductionHypothesis =>
    obtain ⟨lower, ordered, upper⟩ := inside edit List.mem_cons_self
    obtain ⟨start, isStart⟩ := Int.eq_ofNat_of_zero_le (show 0 ≤ edit.start by omega)
    obtain ⟨stop, isStop⟩ := Int.eq_ofNat_of_zero_le (show 0 ≤ edit.stop by omega)
    have gapLength : (Text.slice text.toList cursor start).length = start - cursor :=
      Text.length_slice (by omega)
    have regionLength : (Text.slice text.toList start stop).length = stop - start :=
      Text.length_slice (by omega)
    have split : text.toList.drop cursor = Text.slice text.toList cursor start ++
        (Text.slice text.toList start stop ++ text.toList.drop stop) := by
      rw [Text.slice_append_drop (by omega), Text.slice_append_drop (by omega)]
    have beyond := ascending.beyond inside
    rw [isStop] at beyond
    have applied := inductionHypothesis (List.pairwise_cons.mp ascending).2 beyond (by omega)
    rw [split, substituteThrough_edit (by omega) (by omega) (List.pairwise_cons.mp ascending).1]
    have endsAt : cursor + (Text.slice text.toList cursor start).length +
        (Text.slice text.toList start stop).length = stop := by omega
    rw [endsAt, applyFrom, String.toList_append, String.toList_append, Int.sub_zero, Int.sub_zero,
      toList_piece (by omega) (by omega) (by omega), isStart, isStop, List.append_assoc]
    rw [← applied]
    rfl

/-! ## Applying edits in any order -/

theorem Apart.symm {left right : Edit} (apart : Apart left right) : Apart right left :=
  Or.symm apart

theorem comesBefore_iff
    {left right : Edit} :
    comesBefore left right ↔
      left.start < right.start ∨ left.start = right.start ∧ left.stop ≤ right.stop := by
  simp only [comesBefore, Bool.or_eq_true, Bool.and_eq_true, decide_eq_true_eq]

/-- Sorting puts edits in the order of their places. -/
theorem sorted_mergeSort (edits : List Edit) :
    (edits.mergeSort comesBefore).Pairwise fun left right => comesBefore left right := by
  refine List.pairwise_mergeSort (fun one two three => ?_) (fun one two => ?_) edits
  · simp only [comesBefore_iff]
    omega
  · rw [Bool.or_eq_true, comesBefore_iff, comesBefore_iff]
    omega

/-- Edits that do not overlap and are in the order of their places follow each
other. -/
theorem ascending_mergeSort
    {edits : List Edit}
    (apart : edits.Pairwise Apart)
    (ordered : ∀ edit ∈ edits, edit.start ≤ edit.stop) :
    Ascending (edits.mergeSort comesBefore) := by
  have stillApart := apart.perm (List.mergeSort_perm edits comesBefore).symm Apart.symm
  refine ((sorted_mergeSort edits).and stillApart).imp_of_mem
    fun {left right} isLeft isRight both => ?_
  obtain ⟨before, noOverlap⟩ := both
  have leftOrdered := ordered left (List.mem_mergeSort.mp isLeft)
  have rightOrdered := ordered right (List.mem_mergeSort.mp isRight)
  rw [comesBefore_iff] at before
  unfold Apart at noOverlap
  omega

instance : Std.Symm Differ :=
  ⟨fun _ _ different same => different same.symm⟩

/-- Of edits that replace different parts, those that replace the same part are one. -/
theorem eq_of_pairwise_differ
    {edits : List Edit}
    {left right : Edit}
    (different : edits.Pairwise Differ)
    (isLeft : left ∈ edits)
    (isRight : right ∈ edits)
    (starts : left.start = right.start)
    (stops : left.stop = right.stop) :
    left = right := by
  by_contra distinct
  exact different.forall isLeft isRight distinct (Prod.ext starts stops)

/-- Of edits that begin at the same place, those that end first stand first: an
insertion before a replacement. -/
def TiedInOrder (edits : List Edit) : Prop :=
  edits.Pairwise fun left right => left.start = right.start → left.stop ≤ right.stop

/-- What some edits put at a place depends on the order of those alone that begin
there. -/
theorem insertedAt_eq_of_tiedInOrder
    {one other : List Edit}
    (same : one.Perm other)
    (different : one.Pairwise Differ)
    (oneTied : TiedInOrder one)
    (otherTied : TiedInOrder other)
    (offset : Nat) :
    insertedAt one offset = insertedAt other offset := by
  have inOrder : ∀ edits : List Edit, TiedInOrder edits →
      (edits.filter fun edit => edit.start = (offset : Int)).Pairwise (·.stop ≤ ·.stop) := by
    intro edits tiedInOrder
    refine (tiedInOrder.filter _).imp_of_mem fun isLeft isRight before => before ?_
    simp only [List.mem_filter, decide_eq_true_eq] at isLeft isRight
    exact isLeft.2.trans isRight.2.symm
  unfold insertedAt
  congr 1
  refine List.Perm.eq_of_pairwise (fun left right isLeft isRight before after => ?_)
    (inOrder one oneTied) (inOrder other otherTied) (same.filter _)
  simp only [List.mem_filter, decide_eq_true_eq] at isLeft isRight
  exact eq_of_pairwise_differ different isLeft.1 (same.mem_iff.mpr isRight.1)
    (isLeft.2.trans isRight.2.symm) (Int.le_antisymm before after)

/-- Substitution depends on the order of those edits alone that begin at the same
place. -/
theorem substituteFrom_eq_of_tiedInOrder
    {one other : List Edit}
    (same : one.Perm other)
    (different : one.Pairwise Differ)
    (oneTied : TiedInOrder one)
    (otherTied : TiedInOrder other)
    (offset : Nat)
    (text : List Char) :
    substituteFrom one offset text = substituteFrom other offset text :=
  substituteFrom_congr fun place _ _ =>
    ⟨insertedAt_eq_of_tiedInOrder same different oneTied otherTied place, same.any_eq⟩

private theorem pairwise_start_ne
    {edits : List Edit}
    (apart : edits.Pairwise Apart)
    (nonempty : ∀ edit ∈ edits, edit.start < edit.stop) :
    edits.Pairwise fun left right => left.start ≠ right.start := by
  refine apart.imp_of_mem fun {left right} isLeft isRight noOverlap => ?_
  have leftNonempty := nonempty left isLeft
  have rightNonempty := nonempty right isRight
  unfold Apart at noOverlap
  omega

/-- Of edits that do not overlap and replace some text, the order does not matter. -/
theorem substituteFrom_perm
    {one other : List Edit}
    (same : one.Perm other)
    (apart : one.Pairwise Apart)
    (nonempty : ∀ edit ∈ one, edit.start < edit.stop)
    (offset : Nat)
    (text : List Char) :
    substituteFrom one offset text = substituteFrom other offset text := by
  have starts := pairwise_start_ne apart nonempty
  have different : one.Pairwise Differ :=
    starts.imp fun startsDiffer samePart => startsDiffer (congrArg Prod.fst samePart)
  refine substituteFrom_eq_of_tiedInOrder same different ?_ ?_ offset text
  · exact starts.imp fun startsDiffer sameStart => absurd sameStart startsDiffer
  · exact (starts.perm same Ne.symm).imp fun startsDiffer sameStart => absurd sameStart startsDiffer

/-- Edits that do not overlap put their replacements in place of their parts and
leave everything else as it is. -/
theorem applyAll_eq_substituteFrom
    {text : String}
    {edits : List Edit}
    (apart : edits.Pairwise Apart)
    (within : ∀ edit ∈ edits, Within 0 text.length edit) :
    (applyAll text edits 0).toList = substituteFrom edits 0 text.toList := by
  have nonempty : ∀ edit ∈ edits, edit.start < edit.stop := fun edit member =>
    (within edit member).nonempty
  have sortedInside : ∀ edit ∈ edits.mergeSort comesBefore, Inside (0 : Nat) text.length edit :=
    fun edit member => (within edit (List.mem_mergeSort.mp member)).inside
  have applied := applyFrom_eq_substituteThrough
    (ascending_mergeSort apart fun edit member => Int.le_of_lt (nonempty edit member))
    sortedInside (Nat.zero_le _)
  have nothingAtEnd : ∀ edit ∈ edits.mergeSort comesBefore,
      edit.start ≠ ((0 + text.toList.length : Nat) : Int) := by
    intro edit member
    obtain ⟨_, isNonempty, upper⟩ := within edit (List.mem_mergeSort.mp member)
    rw [String.length_toList]
    omega
  rw [List.drop_zero, substituteThrough, insertedAt_eq_nil nothingAtEnd, List.append_nil] at applied
  rw [applyAll]
  refine applied.trans ?_
  exact (substituteFrom_perm (List.mergeSort_perm edits comesBefore).symm apart nonempty 0 _).symm

/-! ## Edits piece by piece -/

/-- What a text is from an offset on with edits in it that are given in their
order. -/
inductive Spliced (text : List Char) : Nat → List Edit → List Char → Prop where
  | rest {offset : Nat} : Spliced text offset [] (text.drop offset)
  | edit {offset start stop : Nat} {replacement : String} {edits : List Edit} {after : List Char}
      (early : offset ≤ start)
      (nonempty : start < stop)
      (inside : stop ≤ text.length)
      (later : Spliced text stop edits after) :
      Spliced text offset (⟨start, stop, replacement⟩ :: edits)
        (Text.slice text offset start ++ (replacement.toList ++ after))

section Spliced

variable
  {text after : List Char}
  {offset : Nat}
  {edits : List Edit}

theorem Spliced.start_le
    (spliced : Spliced text offset edits after) :
    ∀ edit ∈ edits, (offset : Int) ≤ edit.start := by
  induction spliced with
  | rest => simp
  | edit early nonempty inside later inductionHypothesis =>
    intro edit member
    rcases List.mem_cons.mp member with rfl | isLater
    · exact Int.ofNat_le.mpr early
    · have := inductionHypothesis edit isLater
      omega

theorem Spliced.nonempty
    (spliced : Spliced text offset edits after) :
    ∀ edit ∈ edits, edit.start < edit.stop := by
  induction spliced with
  | rest => simp
  | edit early nonempty inside later inductionHypothesis =>
    exact List.forall_mem_cons.mpr ⟨Int.ofNat_lt.mpr nonempty, inductionHypothesis⟩

/-- What stands before all edits is left as it is. -/
theorem Spliced.lower
    (spliced : Spliced text offset edits after)
    {before : Nat}
    (early : before ≤ offset) :
    Spliced text before edits (Text.slice text before offset ++ after) := by
  cases spliced with
  | rest =>
    rw [Text.slice_append_drop early]
    exact .rest
  | edit first nonempty inside later =>
    rw [← List.append_assoc, Text.slice_append_slice text early first]
    exact .edit (Nat.le_trans early first) nonempty inside later

/-- What stands before all edits may be left out. -/
theorem Spliced.raise
    (spliced : Spliced text offset edits after)
    {further : Nat}
    (early : offset ≤ further)
    (beyond : ∀ edit ∈ edits, (further : Int) ≤ edit.start) :
    ∃ rest, after = Text.slice text offset further ++ rest ∧ Spliced text further edits rest := by
  cases spliced with
  | rest => exact ⟨_, (Text.slice_append_drop early).symm, .rest⟩
  | @edit _ start stop replacement edits after first nonempty inside later =>
    have late : further ≤ start := Int.ofNat_le.mp (beyond _ List.mem_cons_self)
    refine ⟨_, ?_, .edit late nonempty inside later⟩
    rw [← Text.slice_append_slice text early late, List.append_assoc]

theorem Spliced.eq_substituteFrom
    (spliced : Spliced text offset edits after) :
    substituteFrom edits offset (text.drop offset) = after := by
  induction spliced with
  | rest => exact substituteFrom_nil _ _
  | @edit offset start stop replacement edits after early nonempty inside later
      inductionHypothesis =>
    have gapLength := @Text.length_slice text offset start (by omega)
    have regionLength := @Text.length_slice text start stop inside
    have split : text.drop offset = Text.slice text offset start ++
        (Text.slice text start stop ++ text.drop stop) := by
      rw [Text.slice_append_drop (by omega), Text.slice_append_drop early]
    have reached : offset + (Text.slice text offset start).length +
        (Text.slice text start stop).length = stop := by omega
    rw [split, substituteFrom_edit (by simp only; omega) (by simp only; omega)
      (List.ne_nil_of_length_pos (by omega)) later.start_le, reached, inductionHypothesis]

end Spliced

end Restyle.Edit
