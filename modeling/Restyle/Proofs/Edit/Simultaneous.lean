import Restyle.Proofs.Edit.Substitution

/-!
Contract: edits that do not overlap are made at once.

Owns: `Edit.Compatible`, edits of a part of a text that may replace some of it or
insert something, and do not overlap; `Edit.substitute`, what it means to make
them all at once; and that this is what `Edit.applyAll` does, whence it does not
matter in which order the edits are given, whether they are made one by one from
the last to the first, and whether the text is divided before.
-/

namespace Restyle.Edit

/-- Some edits can be made at once in a text that begins at an offset: they lie
in it, none overlaps another, and no two replace the same part. -/
structure Compatible (text : String) (offset : Int) (edits : List Edit) : Prop where
  inside : ∀ edit ∈ edits, Inside offset (offset + text.length) edit
  apart : edits.Pairwise Apart
  differ : edits.Pairwise Differ

instance (text : String) (offset : Int) (edits : List Edit) :
    Decidable (Compatible text offset edits) :=
  decidable_of_iff ((∀ edit ∈ edits, Inside offset (offset + text.length) edit) ∧
      edits.Pairwise Apart ∧ edits.Pairwise Differ)
    ⟨fun ⟨inside, apart, differ⟩ => ⟨inside, apart, differ⟩,
      fun ⟨inside, apart, differ⟩ => ⟨inside, apart, differ⟩⟩

/-- An edit with its places counted from an offset. -/
def moved (offset : Int) (edit : Edit) : Edit :=
  ⟨edit.start - offset, edit.stop - offset, edit.replacement⟩

/-- Some edits, those that replace no text before all others. -/
def insertionsFirst (edits : List Edit) : List Edit :=
  edits.filter (fun edit => edit.start = edit.stop) ++
    edits.filter (fun edit => !(edit.start = edit.stop))

/-- A text that begins at an offset with some edits made in it at once: what they
cover is left out, and at each place, the end of the text included, stands what
they insert there and then what replaces the text that begins there. -/
def substitute (edits : List Edit) (offset : Int) (text : List Char) : List Char :=
  substituteThrough ((insertionsFirst edits).map (moved offset)) 0 text

section

variable
  {text : String}
  {offset : Int}
  {edits other : List Edit}

/-! ## Compatible edits in the order of their places -/

theorem Compatible.perm
    (compatible : Compatible text offset edits)
    (same : other.Perm edits) :
    Compatible text offset other :=
  ⟨fun edit member => compatible.inside edit (same.mem_iff.mp member),
    compatible.apart.perm same.symm Apart.symm,
    compatible.differ.perm same.symm fun {_ _} different => Std.Symm.symm _ _ different⟩

theorem Compatible.ascending
    (compatible : Compatible text offset edits) :
    Ascending (edits.mergeSort comesBefore) :=
  ascending_mergeSort compatible.apart fun edit member => (compatible.inside edit member).ordered

private theorem Compatible.inside_mergeSort
    (compatible : Compatible text offset edits) :
    ∀ edit ∈ edits.mergeSort comesBefore, Inside offset (offset + text.length) edit :=
  fun edit member => compatible.inside edit (List.mem_mergeSort.mp member)

/-- Edits of different parts have one order of their places only. -/
theorem eq_mergeSort_of_sorted
    {sorted : List Edit}
    (isSorted : sorted.Pairwise fun left right => comesBefore left right)
    (same : sorted.Perm edits)
    (differ : edits.Pairwise Differ) :
    edits.mergeSort comesBefore = sorted := by
  have sortedSame := (List.mergeSort_perm edits comesBefore).trans same.symm
  refine sortedSame.eq_of_pairwise (fun left right isLeft isRight before after => ?_)
    (sorted_mergeSort edits) isSorted
  rw [comesBefore_iff] at before after
  exact eq_of_pairwise_differ differ (List.mem_mergeSort.mp isLeft) (same.mem_iff.mp isRight)
    (by omega) (by omega)

/-- The order in which compatible edits are given does not matter. -/
theorem Compatible.applyAll_perm
    (compatible : Compatible text offset edits)
    (same : other.Perm edits) :
    applyAll text other offset = applyAll text edits offset := by
  have oneOrder := eq_mergeSort_of_sorted (sorted_mergeSort other)
    ((List.mergeSort_perm other comesBefore).trans same) compatible.differ
  rw [applyAll, applyAll, oneOrder]

/-! ## Substitution in a part of a text -/

private theorem applyFrom_map_moved (text : String) (offset cursor : Int) (edits : List Edit) :
    applyFrom text 0 cursor (edits.map (moved offset)) = applyFrom text offset cursor edits := by
  induction edits generalizing cursor with
  | nil => rfl
  | cons edit rest inductionHypothesis =>
    rw [List.map_cons, applyFrom, applyFrom, inductionHypothesis]
    simp only [moved, Int.sub_zero]

private theorem Inside.moved
    {edit : Edit}
    {length : Nat}
    (inside : Inside offset (offset + length) edit) :
    Inside 0 length (edit.moved offset) := by
  obtain ⟨lower, ordered, upper⟩ := inside
  constructor <;> simp only [Edit.moved] <;> omega

private theorem Ascending.map_moved
    (ascending : Ascending edits) :
    Ascending (edits.map (moved offset)) := by
  apply List.pairwise_map.mpr
  apply ascending.imp
  intro left right follows
  simp only [moved]
  omega

private theorem pairwise_differ_map_moved
    (differ : edits.Pairwise Differ) :
    (edits.map (moved offset)).Pairwise Differ := by
  apply List.pairwise_map.mpr
  apply differ.imp
  intro left right different samePart
  apply different
  simp only [moved, Prod.mk.injEq] at samePart ⊢
  omega

private theorem TiedInOrder.map_moved
    (tiedInOrder : TiedInOrder edits) :
    TiedInOrder (edits.map (moved offset)) := by
  apply List.pairwise_map.mpr
  apply tiedInOrder.imp
  intro left right before
  simp only [moved]
  omega

private theorem tiedInOrder_of_sorted
    (isSorted : edits.Pairwise fun left right => comesBefore left right) :
    TiedInOrder edits := by
  apply isSorted.imp
  intro left right before
  rw [comesBefore_iff] at before
  omega

private theorem insertionsFirst_perm (edits : List Edit) : (insertionsFirst edits).Perm edits :=
  List.filter_append_perm _ edits

private theorem Compatible.tiedInOrder_insertionsFirst
    (compatible : Compatible text offset edits) :
    TiedInOrder (insertionsFirst edits) := by
  refine List.pairwise_append.mpr ⟨?_, ?_, ?_⟩
  · apply List.pairwise_of_forall_mem_list
    intro left isLeft right isRight sameStart
    simp only [List.mem_filter, decide_eq_true_eq] at isLeft isRight
    omega
  · apply (compatible.apart.filter _).imp_of_mem
    intro left right isLeft isRight apart
    simp only [List.mem_filter, Bool.not_eq_true', decide_eq_false_iff_not] at isLeft isRight
    have leftOrdered := (compatible.inside left isLeft.1).ordered
    have rightOrdered := (compatible.inside right isRight.1).ordered
    unfold Apart at apart
    omega
  · intro left isLeft right isRight sameStart
    simp only [List.mem_filter, decide_eq_true_eq] at isLeft isRight
    have := (compatible.inside right isRight.1).ordered
    omega

private theorem substituteThrough_eq_of_tiedInOrder
    {one other : List Edit}
    (same : one.Perm other)
    (differ : one.Pairwise Differ)
    (oneTied : TiedInOrder one)
    (otherTied : TiedInOrder other)
    (offset : Nat)
    (text : List Char) :
    substituteThrough one offset text = substituteThrough other offset text := by
  rw [substituteThrough, substituteThrough,
    substituteFrom_eq_of_tiedInOrder same differ oneTied otherTied,
    insertedAt_eq_of_tiedInOrder same differ oneTied otherTied]

private theorem Compatible.applyAll_eq_substitute
    (compatible : Compatible text offset edits) :
    (applyAll text edits offset).toList = substitute edits offset text.toList := by
  have inside : ∀ edit ∈ (edits.mergeSort comesBefore).map (moved offset),
      Inside (0 : Nat) text.length edit :=
    List.forall_mem_map.mpr fun edit member => (compatible.inside_mergeSort edit member).moved
  have differ : (edits.mergeSort comesBefore).Pairwise Differ :=
    (compatible.perm (List.mergeSort_perm edits comesBefore)).differ
  have same : (edits.mergeSort comesBefore).Perm (insertionsFirst edits) :=
    (List.mergeSort_perm edits comesBefore).trans (insertionsFirst_perm edits).symm
  have applied := applyFrom_eq_substituteThrough compatible.ascending.map_moved inside
    (Nat.zero_le _)
  rw [applyAll, ← applyFrom_map_moved]
  refine applied.trans ?_
  rw [List.drop_zero, substitute]
  exact substituteThrough_eq_of_tiedInOrder (same.map _) (pairwise_differ_map_moved differ)
    (tiedInOrder_of_sorted (sorted_mergeSort edits)).map_moved
    compatible.tiedInOrder_insertionsFirst.map_moved _ _

/-! ## One edit after the other -/

def replaceIn (offset : Int) (edit : Edit) (text : String) : String :=
  Text.cut text 0 (edit.start - offset).toNat ++ edit.replacement ++
    Text.cut text (edit.stop - offset).toNat text.length

/-- What stands before all edits is left as it is. -/
theorem applyFrom_of_beyond
    {place further : Int}
    (lower : offset ≤ place)
    (early : place ≤ further)
    (upper : further ≤ offset + text.length)
    (beyond : ∀ edit ∈ edits, Inside further (offset + text.length) edit) :
    applyFrom text offset (place - offset) edits =
      piece text (place - offset) (further - offset) ++
        applyFrom text offset (further - offset) edits := by
  cases edits with
  | nil =>
    rw [applyFrom, applyFrom, piece_append_piece (by omega) (by omega) (by omega) (by omega)]
  | cons edit rest =>
    obtain ⟨first, ordered, last⟩ := beyond edit List.mem_cons_self
    rw [applyFrom, applyFrom, ← String.append_assoc, ← String.append_assoc,
      piece_append_piece (by omega) (by omega) (by omega) (by omega)]

private theorem applyFrom_cons_eq_replaceIn
    {edit : Edit}
    {rest : List Edit}
    (inside : Inside offset (offset + text.length) edit)
    (beyond : ∀ other ∈ rest, Inside edit.stop (offset + text.length) other) :
    applyFrom text offset 0 (edit :: rest) =
      replaceIn offset edit (applyFrom text offset 0 rest) := by
  obtain ⟨lower, ordered, upper⟩ := inside
  have total : text.toList.length = text.length := String.length_toList
  have reached : applyFrom text offset 0 rest = piece text 0 (edit.start - offset) ++
      (piece text (edit.start - offset) (edit.stop - offset) ++
        applyFrom text offset (edit.stop - offset) rest) := by
    rw [← String.append_assoc, piece_append_piece (by omega) (by omega) (by omega) (by omega)]
    have := applyFrom_of_beyond (Int.le_refl offset) (by omega) upper beyond
    rwa [Int.sub_self] at this
  have headLength : (piece text 0 (edit.start - offset)).toList.length =
      (edit.start - offset).toNat := by
    rw [toList_piece (by omega) (by omega) (by omega), Text.length_slice (by omega)]
    omega
  have regionLength : (piece text (edit.start - offset) (edit.stop - offset)).toList.length =
      (edit.stop - offset).toNat - (edit.start - offset).toNat := by
    rw [toList_piece (by omega) (by omega) (by omega), Text.length_slice (by omega)]
  rw [applyFrom, replaceIn, reached, ← String.toList_inj]
  simp only [String.toList_append, Text.toList_cut, Text.slice, List.drop_zero,
    ← String.length_toList, List.take_length]
  rw [List.take_left' headLength, ← List.append_assoc (piece text 0 _).toList,
    List.drop_left' (by rw [List.length_append, headLength, regionLength]; omega)]

/-- Edits in the order of their places can be made one by one from the last to
the first. -/
theorem applyFrom_eq_foldr_replaceIn
    (ascending : Ascending edits)
    (inside : ∀ edit ∈ edits, Inside offset (offset + text.length) edit) :
    applyFrom text offset 0 edits = edits.foldr (replaceIn offset) text := by
  induction edits with
  | nil =>
    rw [applyFrom, ← String.toList_inj, toList_piece (by omega) (by omega) (by omega)]
    simp [Text.slice, ← String.length_toList]
  | cons edit rest inductionHypothesis =>
    rw [applyFrom_cons_eq_replaceIn (inside edit List.mem_cons_self) (ascending.beyond inside),
      inductionHypothesis (List.pairwise_cons.mp ascending).2
        fun other member => inside other (List.mem_cons_of_mem _ member), List.foldr_cons]

/-! ## Dividing the text -/

/-- A place is strictly inside the part that an edit replaces. -/
def Straddles (place : Int) (edit : Edit) : Prop :=
  edit.start < place ∧ place < edit.stop

instance (place : Int) (edit : Edit) : Decidable (Straddles place edit) :=
  inferInstanceAs (Decidable (_ ∧ _))

/-- Some edits are divided into those before a place and those after it.  What is
inserted at the place may be on either side: it comes after all that ends there,
and before all that begins there. -/
structure DividedAt (place : Int) (edits left right : List Edit) : Prop where
  all : (left ++ right).Perm edits
  before : ∀ edit ∈ left, edit.stop ≤ place
  after : ∀ edit ∈ right, place ≤ edit.start

private theorem exists_dividedAt
    {place : Int}
    (clear : ∀ edit ∈ edits, ¬ Straddles place edit) :
    ∃ left right, DividedAt place edits left right := by
  refine ⟨edits.filter fun edit => edit.stop ≤ place,
    edits.filter fun edit => !(edit.stop ≤ place), List.filter_append_perm _ edits, ?_, ?_⟩
  · intro edit member
    simpa using (List.mem_filter.mp member).2
  · intro edit member
    obtain ⟨isEdit, isLate⟩ := List.mem_filter.mp member
    have isClear := clear edit isEdit
    simp only [Bool.not_eq_true', decide_eq_false_iff_not] at isLate
    unfold Straddles at isClear
    omega

variable
  {position : Nat}
  {left right : List Edit}

/-- The edits before a place and those after it, each in order, are all in order. -/
theorem DividedAt.mergeSort_eq
    {place : Int}
    (divided : DividedAt place edits left right)
    (compatible : Compatible text offset edits) :
    edits.mergeSort comesBefore = left.mergeSort comesBefore ++ right.mergeSort comesBefore := by
  refine eq_mergeSort_of_sorted (List.pairwise_append.mpr
    ⟨sorted_mergeSort left, sorted_mergeSort right, ?_⟩) ?_ compatible.differ
  · intro one isOne two isTwo
    have isLeft := List.mem_mergeSort.mp isOne
    have isRight := List.mem_mergeSort.mp isTwo
    have oneOrdered := (compatible.inside one
      (divided.all.mem_iff.mp (List.mem_append_left _ isLeft))).ordered
    have twoOrdered := (compatible.inside two
      (divided.all.mem_iff.mp (List.mem_append_right _ isRight))).ordered
    have := divided.before one isLeft
    have := divided.after two isRight
    rw [comesBefore_iff]
    omega
  · exact ((List.mergeSort_perm left _).append (List.mergeSort_perm right _)).trans divided.all

/-- Edits before a position can be made in the text up to it, and those after it in
what is left. -/
theorem applyFrom_append
    {place : Int}
    (inText : position ≤ text.length)
    (lower : offset ≤ place)
    (upper : place ≤ offset + position)
    (ascending : Ascending left)
    (before : ∀ edit ∈ left, Inside place (offset + position) edit)
    (after : ∀ edit ∈ right, Inside (offset + position) (offset + text.length) edit) :
    applyFrom text offset (place - offset) (left ++ right) =
      applyFrom (Text.cut text 0 position) offset (place - offset) left ++
        applyFrom text offset position right := by
  -- A piece before the position is the same in the text up to it.  The induction
  -- keeps the end of the last edit as the place from which all others lie.
  have same : ∀ start stop : Int, 0 ≤ start → start ≤ stop → stop ≤ position →
      piece (Text.cut text 0 position) start stop = piece text start stop := by
    intro start stop nonnegative ordered early
    have fromBegin : piece (Text.cut text 0 position) (start - (0 : Nat)) (stop - (0 : Nat)) =
        piece text start stop :=
      piece_cut (by omega) ordered early inText
    simpa using fromBegin
  induction left generalizing place with
  | nil =>
    have reached := applyFrom_of_beyond lower upper (by omega) after
    have isPosition : offset + (position : Int) - offset = position := by omega
    rw [isPosition] at reached
    rw [List.nil_append, reached, applyFrom, Text.length_cut inText, Nat.sub_zero,
      same _ _ (by omega) (by omega) (by omega)]
  | cons edit rest inductionHypothesis =>
    obtain ⟨first, ordered, last⟩ := before edit List.mem_cons_self
    rw [List.cons_append, applyFrom, applyFrom, same _ _ (by omega) (by omega) (by omega),
      inductionHypothesis (by omega) last (List.pairwise_cons.mp ascending).2
        (ascending.beyond before)]
    simp only [String.append_assoc]

private theorem applyFrom_cut
    {place : Int}
    (lower : offset + position ≤ place)
    (upper : place ≤ offset + text.length)
    (ascending : Ascending right)
    (after : ∀ edit ∈ right, Inside place (offset + text.length) edit) :
    applyFrom (Text.cut text position text.length) (offset + position)
        (place - (offset + position)) right =
      applyFrom text offset (place - offset) right := by
  -- A piece after the position is the same in the text from it on.
  have same : ∀ start stop : Int, offset + position ≤ start → start ≤ stop →
      stop ≤ offset + text.length →
      piece (Text.cut text position text.length) (start - (offset + position))
        (stop - (offset + position)) = piece text (start - offset) (stop - offset) := by
    intro start stop late ordered early
    rw [← piece_cut (show position ≤ start - offset by omega) (by omega)
      (show stop - offset ≤ text.length by omega) (Nat.le_refl _)]
    congr 1 <;> omega
  induction right generalizing place with
  | nil =>
    have size : ((Text.cut text position text.length).length : Int) =
        offset + text.length - (offset + position) := by
      rw [Text.length_cut (Nat.le_refl _)]
      omega
    rw [applyFrom, applyFrom, size, same _ _ lower upper (Int.le_refl _)]
    congr 1
    omega
  | cons edit rest inductionHypothesis =>
    obtain ⟨first, ordered, last⟩ := after edit List.mem_cons_self
    rw [applyFrom, applyFrom, same _ _ lower first (by omega),
      inductionHypothesis (by omega) last (List.pairwise_cons.mp ascending).2
        (ascending.beyond after)]

private theorem DividedAt.right_eq_nil
    (divided : DividedAt (offset + position) edits left right)
    (compatible : Compatible text offset edits)
    (outside : text.length < position) :
    right = [] := by
  apply List.eq_nil_iff_forall_not_mem.mpr
  intro edit isRight
  obtain ⟨lower, ordered, upper⟩ := compatible.inside edit
    (divided.all.mem_iff.mp (List.mem_append_right _ isRight))
  have := divided.after edit isRight
  omega

private theorem DividedAt.applyAll_eq
    (divided : DividedAt (offset + position) edits left right)
    (compatible : Compatible text offset edits) :
    applyAll text edits offset =
      applyAll (Text.cut text 0 position) left offset ++
        applyAll (Text.cut text position text.length) right (offset + position) := by
  have total : text.toList.length = text.length := String.length_toList
  by_cases inText : position ≤ text.length
  · have isSorted := divided.mergeSort_eq compatible
    have ascending := compatible.ascending
    rw [isSorted] at ascending
    obtain ⟨leftAscending, rightAscending, -⟩ := List.pairwise_append.mp ascending
    have inside := compatible.inside_mergeSort
    rw [isSorted, List.forall_mem_append] at inside
    have before : ∀ edit ∈ left.mergeSort comesBefore, Inside offset (offset + position) edit :=
      fun edit member => ⟨(inside.1 edit member).lower, (inside.1 edit member).ordered,
        divided.before edit (List.mem_mergeSort.mp member)⟩
    have after : ∀ edit ∈ right.mergeSort comesBefore,
        Inside (offset + position) (offset + text.length) edit :=
      fun edit member => ⟨divided.after edit (List.mem_mergeSort.mp member),
        (inside.2 edit member).ordered, (inside.2 edit member).upper⟩
    have isLeft := applyFrom_append inText (Int.le_refl offset) (by omega) leftAscending before
      after
    have isRight := applyFrom_cut (Int.le_refl _) (by omega) rightAscending after
    have isPosition : offset + (position : Int) - offset = position := by omega
    rw [Int.sub_self] at isLeft
    rw [Int.sub_self, isPosition] at isRight
    rw [applyAll, applyAll, applyAll, isSorted, isLeft, isRight]
  · have noRight := divided.right_eq_nil compatible (by omega)
    have whole : Text.cut text 0 position = text := by
      rw [← String.toList_inj, Text.toList_cut, Text.slice, List.drop_zero,
        List.take_of_length_le (by omega)]
    have rest : Text.cut text position text.length = "" := by
      rw [← String.toList_inj, Text.toList_cut, Text.slice, List.drop_eq_nil_of_le
        (by rw [List.length_take]; omega), String.toList_empty]
    have same := divided.all
    rw [noRight, List.append_nil] at same
    rw [noRight, whole, rest, compatible.applyAll_perm same]
    simp [applyAll, applyFrom, piece, clamp, Text.cut, Text.slice]

end

/-! ## Edits at once -/

/-- Edits of different parts that do not overlap are made at once.  So they may be
given in any order, be made one by one from the last to the first, each in the
whole text so far, and be divided, in keeping with their order, at any place that is
not inside one of them. -/
theorem edits_are_made_at_once
    {text : String}
    {offset : Int}
    {edits : List Edit}
    (compatible : Compatible text offset edits) :
    (applyAll text edits offset).toList = substitute edits offset text.toList ∧
    (∀ other : List Edit, other.Perm edits →
      applyAll text other offset = applyAll text edits offset) ∧
    applyAll text edits offset = (edits.mergeSort comesBefore).foldr (replaceIn offset) text ∧
    ∀ position : Nat, (∀ edit ∈ edits, ¬ Straddles (offset + position) edit) →
      (∃ left right, DividedAt (offset + position) edits left right) ∧
      ∀ left right, DividedAt (offset + position) edits left right →
        edits.mergeSort comesBefore = left.mergeSort comesBefore ++ right.mergeSort comesBefore ∧
        applyAll text edits offset =
          applyAll (Text.cut text 0 position) left offset ++
            applyAll (Text.cut text position text.length) right (offset + position) := by
  refine ⟨compatible.applyAll_eq_substitute, fun _ same => compatible.applyAll_perm same, ?_, ?_⟩
  · exact applyFrom_eq_foldr_replaceIn compatible.ascending compatible.inside_mergeSort
  · intro position clear
    exact ⟨exists_dividedAt clear, fun _ _ divided =>
      ⟨divided.mergeSort_eq compatible, divided.applyAll_eq compatible⟩⟩

/-- Edits of `abcdef`, a text that begins at 10: two replacements that touch, an
insertion between them and one at the end. -/
def touchingSample : List Edit :=
  [⟨13, 15, "Y"⟩, ⟨13, 13, "X"⟩, ⟨16, 16, "W"⟩, ⟨11, 13, "Z"⟩]

private theorem touchingSample_compatible : Compatible "abcdef" 10 touchingSample := by
  decide

/-- The insertion between the replacements stands between theirs, also if the text
is divided there and whichever side it is on. -/
theorem touchingSample_is_made_at_once :
    Compatible "abcdef" 10 touchingSample ∧
      (applyAll "abcdef" touchingSample 10).toList = "aZXYfW".toList ∧
      applyAll "abcdef" touchingSample.reverse 10 = applyAll "abcdef" touchingSample 10 ∧
      applyAll "abcdef" touchingSample 10 =
        (touchingSample.mergeSort comesBefore).foldr (replaceIn 10) "abcdef" ∧
      applyAll "abcdef" touchingSample 10 =
        applyAll (Text.cut "abcdef" 0 3) [⟨13, 13, "X"⟩, ⟨11, 13, "Z"⟩] 10 ++
          applyAll (Text.cut "abcdef" 3 6) [⟨13, 15, "Y"⟩, ⟨16, 16, "W"⟩] 13 ∧
      applyAll "abcdef" touchingSample 10 =
        applyAll (Text.cut "abcdef" 0 3) [⟨11, 13, "Z"⟩] 10 ++
          applyAll (Text.cut "abcdef" 3 6) [⟨13, 15, "Y"⟩, ⟨13, 13, "X"⟩, ⟨16, 16, "W"⟩] 13 := by
  obtain ⟨atOnce, anyOrder, oneByOne, divided⟩ := edits_are_made_at_once touchingSample_compatible
  obtain ⟨-, parts⟩ := divided 3 (by decide)
  refine ⟨touchingSample_compatible, atOnce.trans (by decide +kernel),
    anyOrder _ (List.reverse_perm _), oneByOne, ?_, ?_⟩
  · exact (parts _ _ ⟨by decide, by decide, by decide⟩).2
  · exact (parts _ _ ⟨by decide, by decide, by decide⟩).2

end Restyle.Edit
