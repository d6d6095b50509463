import Mathlib.Data.List.Induction
import Restyle.Proofs.Text
import Restyle.Split
import Restyle.Text

/-!
Contract: locations point at the offsets that they belong to.

Owns: the line and the column of an offset; `lineStarts`, of which the last one not
beyond an offset is where its line begins; `Before`, the order of locations, in
which they ascend with their offsets; `Shows`, a text that holds the line of an
offset and below it a caret under the offset; and that the excerpt of an offset is
one.
-/

namespace Restyle

namespace Location

/-! ## Line and column -/

private theorem advance_eq_foldl
    {text : List Char}
    {count : Nat}
    (inside : count ≤ text.length)
    (location : Location) :
    location.advance text count = (text.take count).foldl after location := by
  induction count generalizing text location with
  | zero => cases text <;> rfl
  | succ count inductionHypothesis =>
    cases text with
    | nil => simp at inside
    | cons c rest =>
      rw [List.length_cons, Nat.add_le_add_iff_right] at inside
      exact inductionHypothesis inside (location.after c)

private theorem line_foldl (text : List Char) (location : Location) :
    (text.foldl after location).line = location.line + text.count '\n' := by
  induction text generalizing location with
  | nil => rfl
  | cons c rest inductionHypothesis =>
    rw [List.foldl_cons, inductionHypothesis, List.count_cons]
    by_cases isFeed : c = '\n'
    · simp only [after, isFeed, if_true, beq_self_eq_true]
      omega
    · simp [after, isFeed]

private theorem column_foldl (text : List Char) :
    (text.foldl after origin).column = 1 + (text.reverse.takeWhile (· ≠ '\n')).length := by
  induction text using List.reverseRecOn with
  | nil => rfl
  | append_singleton text c inductionHypothesis =>
    rw [List.foldl_append, List.foldl_cons, List.foldl_nil, List.reverse_append,
      List.reverse_singleton, List.singleton_append]
    by_cases isFeed : c = '\n'
    · simp [after, isFeed]
    · rw [List.takeWhile_cons_of_pos (by simpa using isFeed), List.length_cons, after,
        if_neg isFeed]
      simp only [inductionHypothesis]
      omega

private theorem ofOffset_eq_foldl
    {source : String}
    {offset : Nat}
    (inside : offset ≤ source.length) :
    ofOffset source offset = (source.toList.take offset).foldl after origin :=
  advance_eq_foldl (by rwa [String.length_toList]) origin

theorem line_ofOffset
    {source : String}
    {offset : Nat}
    (inside : offset ≤ source.length) :
    (ofOffset source offset).line = 1 + (source.toList.take offset).count '\n' := by
  rw [ofOffset_eq_foldl inside, line_foldl]
  rfl

theorem column_ofOffset
    {source : String}
    {offset : Nat}
    (inside : offset ≤ source.length) :
    (ofOffset source offset).column = 1 + (offset - Text.lineStart source offset) := by
  rw [ofOffset_eq_foldl inside, column_foldl, Text.lineStart]
  have size : (source.toList.take offset).length = offset := by
    rw [List.length_take, String.length_toList, Nat.min_eq_left inside]
  have short := (List.takeWhile_sublist (l := (source.toList.take offset).reverse)
    (· ≠ '\n')).length_le
  rw [List.length_reverse, size] at short
  simp only [size]
  omega

/-! ## Line starts -/

/-- The offsets just after the line feeds of a text that begins at an offset. -/
def startsFrom (offset : Nat) : List Char → List Nat
  | [] => []
  | c :: rest =>
    if c = '\n' then (offset + 1) :: startsFrom (offset + 1) rest else startsFrom (offset + 1) rest

/-- The offsets at which the lines of a source begin. -/
def lineStarts (source : String) : List Nat :=
  0 :: startsFrom 0 source.toList

private theorem lt_of_mem_startsFrom
    {offset start : Nat}
    {text : List Char}
    (member : start ∈ startsFrom offset text) :
    offset < start := by
  induction text generalizing offset with
  | nil => simp [startsFrom] at member
  | cons c rest inductionHypothesis =>
    rw [startsFrom] at member
    split at member
    · rcases List.mem_cons.mp member with rfl | later
      · exact Nat.lt_succ_self _
      · exact Nat.lt_of_succ_lt (inductionHypothesis later)
    · exact Nat.lt_of_succ_lt (inductionHypothesis member)

/-- Going on from a location on a line that begins at an offset: the line that is
reached is the last one that begins by then. -/
theorem advance_eq_of_startsFrom
    {offset own : Nat}
    (begun : own ≤ offset)
    (line : Nat)
    (text : List Char)
    (count : Nat) :
    ∃ before start after, own :: startsFrom offset text = before ++ start :: after ∧
      start ≤ offset + count ∧ (∀ later ∈ after, offset + count < later) ∧
      advance ⟨line, offset - own + 1⟩ text count =
        ⟨line + before.length, offset + count - start + 1⟩ := by
  induction text generalizing offset own line count with
  | nil =>
    refine ⟨[], own, [], rfl, by omega, by simp, ?_⟩
    cases count with
    | zero => rfl
    | succ count =>
      simp only [advance, List.length_nil, Location.mk.injEq]
      omega
  | cons c rest inductionHypothesis =>
    cases count with
    | zero => exact ⟨[], own, _, rfl, begun, fun _ later => lt_of_mem_startsFrom later, rfl⟩
    | succ count =>
      rw [startsFrom, advance, after]
      split
      · obtain ⟨before, start, after, areStarts, atMost, beyond, isLocation⟩ :=
          inductionHypothesis (Nat.le_refl (offset + 1)) (line + 1) count
        rw [Nat.sub_self] at isLocation
        refine ⟨own :: before, start, after, by rw [areStarts]; rfl, by omega,
          fun later member => by have := beyond later member; omega, ?_⟩
        rw [isLocation, List.length_cons, Location.mk.injEq]
        omega
      · obtain ⟨before, start, after, areStarts, atMost, beyond, isLocation⟩ :=
          inductionHypothesis (Nat.le_succ_of_le begun) line count
        have isColumn : offset + 1 - own = offset - own + 1 := by omega
        rw [isColumn] at isLocation
        refine ⟨before, start, after, areStarts, by omega,
          fun later member => by have := beyond later member; omega, ?_⟩
        rw [isLocation, Location.mk.injEq]
        omega

/-- The line of an offset is the last one that begins at or before it, and its column
counts from there. -/
theorem ofOffset_eq_of_lineStarts (source : String) (offset : Nat) :
    ∃ before start after, lineStarts source = before ++ start :: after ∧
      start ≤ offset ∧ (∀ later ∈ after, offset < later) ∧
      ofOffset source offset = ⟨before.length + 1, offset - start + 1⟩ := by
  obtain ⟨before, start, after, areStarts, atMost, beyond, isLocation⟩ :=
    advance_eq_of_startsFrom (Nat.le_refl 0) 1 source.toList offset
  rw [Nat.zero_add] at atMost beyond isLocation
  exact ⟨before, start, after, areStarts, atMost, beyond,
    isLocation.trans (by rw [Nat.add_comm 1, Nat.zero_add])⟩

/-! ## Order -/

/-- A location on an earlier line than another one, or left of it on its line. -/
def Before (left right : Location) : Prop :=
  left.line < right.line ∨ left.line = right.line ∧ left.column < right.column

theorem Before.trans
    {left middle right : Location}
    (first : Before left middle)
    (second : Before middle right) :
    Before left right := by
  unfold Before at *
  omega

theorem Before.ne {left right : Location} (before : Before left right) : left ≠ right := by
  rintro rfl
  unfold Before at before
  omega

private theorem before_after
    (location : Location)
    (c : Char) :
    Before location (location.after c) := by
  unfold after
  split
  · exact .inl (Nat.lt_succ_self _)
  · exact .inr ⟨rfl, Nat.lt_succ_self _⟩

private theorem before_foldl (first : Char) (rest : List Char) (location : Location) :
    Before location ((first :: rest).foldl after location) := by
  induction rest generalizing first location with
  | nil => exact before_after location first
  | cons second rest inductionHypothesis =>
    exact (before_after location first).trans (inductionHypothesis second (location.after first))

/-- Later offsets have later locations. -/
theorem before_ofOffset
    {source : String}
    {left right : Nat}
    (ordered : left < right)
    (inside : right ≤ source.length) :
    Before (ofOffset source left) (ofOffset source right) := by
  have earlier : left ≤ source.length := by omega
  have isTaken : source.toList.take right =
      source.toList.take left ++ (source.toList.drop left).take (right - left) := by
    rw [← List.take_add, Nat.add_sub_cancel' (Nat.le_of_lt ordered)]
  have positive : 0 < ((source.toList.drop left).take (right - left)).length := by
    rw [List.length_take, List.length_drop, String.length_toList]
    omega
  obtain ⟨first, rest, isRest⟩ := List.exists_cons_of_length_pos positive
  rw [ofOffset_eq_foldl earlier, ofOffset_eq_foldl inside, isTaken, isRest, List.foldl_append]
  exact before_foldl first rest _

theorem ofOffset_inj
    {source : String}
    {left right : Nat}
    (leftInside : left ≤ source.length)
    (rightInside : right ≤ source.length)
    (same : ofOffset source left = ofOffset source right) :
    left = right := by
  rcases Nat.lt_trichotomy left right with ordered | isSame | ordered
  · exact absurd same (before_ofOffset ordered rightInside).ne
  · exact isSame
  · exact absurd same.symm (before_ofOffset ordered leftInside).ne

/-! ## Excerpts -/

private theorem count_take_lineStart
    {source : String}
    {offset : Nat}
    (inside : offset ≤ source.length) :
    (source.toList.take (Text.lineStart source offset)).count '\n' =
      (source.toList.take offset).count '\n' := by
  obtain ⟨early, noFeed⟩ := Text.lineStart_spec source inside
  have isTaken : source.toList.take offset = source.toList.take (Text.lineStart source offset) ++
      Text.slice source.toList (Text.lineStart source offset) offset := by
    rw [Text.slice_eq_take_drop, ← List.take_add, Nat.add_sub_cancel' early]
  rw [isTaken, List.count_append, List.count_eq_zero.mpr noFeed, Nat.add_zero]

/-- The line with the number that an offset has is what stands between the bounds of
its line. -/
theorem getElem?_lines
    {source : String}
    {offset : Nat}
    (inside : offset ≤ source.length) :
    (splitWhere (· = '\n') source.toList)[(ofOffset source offset).line - 1]? =
      some (Text.slice source.toList (Text.lineStart source offset)
        (Text.lineStop source offset)) := by
  obtain ⟨early, noFeedBefore⟩ := Text.lineStart_spec source inside
  obtain ⟨late, atMost, noFeedAfter, feed⟩ := Text.lineStop_spec source inside
  have feedBefore := Text.feed_before_lineStart source offset
  have isIndex : (ofOffset source offset).line - 1 =
      (source.toList.take (Text.lineStart source offset)).countP (· = '\n') := by
    rw [line_ofOffset inside, Nat.add_sub_cancel_left, ← count_take_lineStart inside]
    rfl
  rw [isIndex]
  generalize Text.lineStart source offset = start at *
  generalize Text.lineStop source offset = stop at *
  have isWhole : source.toList = source.toList.take start ++
      (Text.slice source.toList start stop ++ source.toList.drop stop) := by
    rw [Text.slice_append_drop (by omega), List.take_append_drop]
  have begins : source.toList.take start = [] ∨ ∃ earlier mark,
      source.toList.take start = earlier ++ [mark] ∧ decide (mark = '\n') = true := by
    rcases feedBefore with rfl | isFeed
    · exact .inl rfl
    · cases start with
      | zero => exact .inl rfl
      | succ start =>
        refine .inr ⟨source.toList.take start, '\n', ?_, by simp⟩
        rw [Nat.add_sub_cancel] at isFeed
        rw [List.take_add_one, isFeed]
        rfl
  have uncut : ∀ c ∈ Text.slice source.toList start stop, decide (c = '\n') = false := by
    intro c isChar
    rw [← Text.slice_append_slice source.toList early late, List.mem_append] at isChar
    refine decide_eq_false ?_
    rintro rfl
    exact isChar.elim noFeedBefore noFeedAfter
  have ends : source.toList.drop stop = [] ∨ ∃ mark later,
      source.toList.drop stop = mark :: later ∧ decide (mark = '\n') = true := by
    rcases Nat.eq_or_lt_of_le atMost with isEnd | before
    · exact .inl (List.drop_eq_nil_of_le (Nat.le_of_eq (String.length_toList.trans isEnd.symm)))
    · exact .inr ⟨'\n', _, Text.drop_of_getElem? (feed before), by simp⟩
  have isLine := getElem?_splitWhere begins uncut ends
  rwa [← isWhole] at isLine

/-- A text holds the line of an offset, told by its number, and below it a caret
under the offset.  A line feed is shown as the end of its line, like the end of the
source. -/
structure Shows (source : String) (offset : Nat) (line shown : String) : Prop where
  isLine : (splitWhere (· = '\n') source.toList)[(ofOffset source offset).line - 1]? =
    some line.toList
  spelled : shown = "Context: " ++ line ++ "\n" ++
    String.ofList (List.replicate (9 + ((ofOffset source offset).column - 1)) ' ') ++ "^"
  under : ∀ c, source.toList[offset]? = some c → c ≠ '\n' →
    ("Context: " ++ line).toList[9 + ((ofOffset source offset).column - 1)]? = some c
  past : source.toList[offset]? = none ∨ source.toList[offset]? = some '\n' →
    ("Context: " ++ line).length = 9 + ((ofOffset source offset).column - 1)

private theorem getElem?_line
    {source : String}
    {offset : Nat}
    (inside : offset ≤ source.length)
    {c : Char}
    (stands : source.toList[offset]? = some c)
    (noFeed : c ≠ '\n') :
    (Text.slice source.toList (Text.lineStart source offset) (Text.lineStop source offset))[
      offset - Text.lineStart source offset]? = some c := by
  obtain ⟨early, _⟩ := Text.lineStart_spec source inside
  obtain ⟨late, _, _, feed⟩ := Text.lineStop_spec source inside
  have before : offset < Text.lineStop source offset := by
    refine Nat.lt_of_le_of_ne late fun isStop => ?_
    have within := (List.getElem?_eq_some_iff.mp stands).1
    rw [String.length_toList, isStop] at within
    rw [isStop, feed within, Option.some.injEq] at stands
    exact noFeed stands.symm
  rw [Text.getElem?_slice _ early before, stands]

private theorem lineStop_eq
    {source : String}
    {offset : Nat}
    (inside : offset ≤ source.length)
    (isEnd : source.toList[offset]? = none ∨ source.toList[offset]? = some '\n') :
    Text.lineStop source offset = offset := by
  obtain ⟨late, atMost, noFeed, _⟩ := Text.lineStop_spec source inside
  rcases isEnd with isEnd | isFeed
  · rw [List.getElem?_eq_none_iff, String.length_toList] at isEnd
    omega
  · by_contra isLater
    refine noFeed (Text.mem_slice (Nat.le_refl offset) ?_ isFeed)
    omega

/-- The excerpt of an offset shows its line with a caret under it. -/
theorem shows_excerpt
    {source : String}
    {offset : Nat}
    (inside : offset ≤ source.length) :
    ∃ line, Shows source offset line (excerpt source offset (ofOffset source offset)) := by
  obtain ⟨early, _⟩ := Text.lineStart_spec source inside
  obtain ⟨_, atMost, _⟩ := Text.lineStop_spec source inside
  have column : (ofOffset source offset).column - 1 = offset - Text.lineStart source offset := by
    rw [column_ofOffset inside, Nat.add_sub_cancel_left]
  refine ⟨Text.cut source (Text.lineStart source offset) (Text.lineStop source offset),
    ?_, ?_, fun c stands noFeed => ?_, fun isEnd => ?_⟩
  · rw [getElem?_lines inside, Text.toList_cut]
  · have isIndent : List.replicate (9 + ((ofOffset source offset).column - 1)) ' ' =
        "         ".toList ++ List.replicate ((ofOffset source offset).column - 1) ' ' :=
      (List.replicate_append_replicate).symm
    rw [isIndent, excerpt]
    apply String.toList_injective
    simp [toString]
  · rw [column, String.toList_append, List.getElem?_append_right (by simp), Text.toList_cut]
    simpa using getElem?_line inside stands noFeed
  · rw [column, String.length_append, ← String.length_toList (s := Text.cut _ _ _),
      Text.toList_cut, Text.length_slice (by rwa [String.length_toList]),
      lineStop_eq inside isEnd]
    rfl

end Location

end Restyle
