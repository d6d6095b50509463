import Restyle.Proofs.Token.Ends
import Restyle.Proofs.Use.Scanned

/-!
Contract: where the uses of a scan lie in the text.

Owns: the last token of a use, and `Laid`, by which uses follow each other
between two offsets and each begins and ends with ink; that the uses found in
placed tokens are laid so.
-/

namespace Restyle.Use

open Restyle.Token

/-! ## The end of a use -/

/-- Content stops with the last token that it covers, a template or a bracket. -/
theorem Content.Covers.exists_last
    {content : Content}
    {covered : List Token}
    (covers : content.Covers covered) :
    ∃ front last, covered = front ++ [last] ∧ content.stop = last.stop ∧ last.endsInked := by
  cases covers with
  | @template token literal isTemplate =>
    exact ⟨[], token, rfl, rfl, by simp [endsInked, Token.isTemplate, isTemplate]⟩
  | @call openParen closer inner _ _ closes =>
    exact ⟨openParen :: inner, closer, rfl, rfl, by simp [endsInked, closes]⟩

private theorem stop_of_covers
    {use : Use}
    {covered : List Token}
    (covers : use.role.Covers covered) :
    use.stop = use.head.stop ∧ covered = [] ∨
      ∃ front last, covered = front ++ [last] ∧ use.stop = last.stop ∧ last.endsInked := by
  unfold Use.stop
  generalize use.role = role at covers
  cases covers with
  | passThrough => exact .inl ⟨rfl, rfl⟩
  | bareValue => exact .inl ⟨rfl, rfl⟩
  | direct own => exact .inr own.exists_last
  | @member spec content point name tokens _ _ _ own =>
    obtain ⟨front, last, rfl, stops, ends⟩ := own.exists_last
    exact .inr ⟨point :: name :: front, last, rfl, stops, ends⟩
  | @factory spec content openParen closer inner tokens _ _ _ _ own =>
    obtain ⟨front, last, rfl, stops, ends⟩ := own.exists_last
    exact .inr ⟨openParen :: inner ++ closer :: front, last, by simp, stops, ends⟩

/-! ## Uses in order -/

/-- Uses that follow each other between two offsets, each from ink to ink. -/
structure Laid (source : List Char) (start stop : Nat) (uses : List Use) : Prop where
  ascending : uses.Pairwise (·.stop ≤ ·.start)
  between : ∀ use ∈ uses, start ≤ use.start ∧ use.stop ≤ stop ∧
    Text.Framed source use.start use.stop

theorem Laid.nil (source : List Char) (start stop : Nat) : Laid source start stop [] :=
  ⟨.nil, by simp⟩

theorem Laid.widen
    {source : List Char}
    {start stop before after : Nat}
    {uses : List Use}
    (laid : Laid source start stop uses)
    (early : before ≤ start)
    (late : stop ≤ after) :
    Laid source before after uses := by
  refine ⟨laid.ascending, fun use member => ?_⟩
  obtain ⟨lower, upper, framed⟩ := laid.between use member
  exact ⟨by omega, by omega, framed⟩

theorem Laid.append
    {source : List Char}
    {start middle stop : Nat}
    {left right : List Use}
    (first : Laid source start middle left)
    (second : Laid source middle stop right)
    (early : start ≤ middle)
    (late : middle ≤ stop) :
    Laid source start stop (left ++ right) := by
  constructor
  · refine List.pairwise_append.mpr ⟨first.ascending, second.ascending, ?_⟩
    intro one inLeft other inRight
    have upper := (first.between one inLeft).2.1
    have lower := (second.between other inRight).1
    omega
  · intro use member
    rcases List.mem_append.mp member with inLeft | inRight
    · exact (first.widen (Nat.le_refl _) late).between use inLeft
    · exact (second.widen early (Nat.le_refl _)).between use inRight

/-- A use that takes its head and the tokens after it up to some offset. -/
theorem FoundAt.laid
    {scope : Scope}
    {source : List Char}
    {start stop : Nat}
    {before covered after : List Token}
    {token : Token}
    {use : Use}
    (found : FoundAt scope ⟨before, token, covered ++ after⟩ ⟨use, covered.length⟩)
    (covers : use.role.Covers covered)
    (placed : ListPlaced source start stop (token :: (covered ++ after))) :
    ∃ middle, start ≤ middle ∧ Laid source start middle [use] ∧
      ListPlaced source middle stop after := by
  obtain ⟨early, head, rest⟩ := placed.first
  have bounds := head.bounds
  have isHead : use.head = token := found.isHead
  have begins : use.start = token.start := by rw [Use.start, isHead]
  have first : Text.InkedAt source token.start :=
    head.inkedAt_start_of_name (by simp [Token.isName, found.isIdentifier])
  rcases stop_of_covers covers with ⟨stops, rfl⟩ | ⟨front, last, rfl, stops, ends⟩
  · rw [isHead] at stops
    refine ⟨token.stop, by omega, ⟨List.pairwise_singleton _ _, fun other member => ?_⟩, rest⟩
    rw [List.mem_singleton.mp member, begins, stops]
    refine ⟨early, Nat.le_refl _, bounds.1, first, head.inkedAt_last_of_endsInked ?_⟩
    simp [endsInked, found.isIdentifier]
  · rw [List.append_assoc, List.singleton_append] at rest
    obtain ⟨inOrder, lastPlaced, remaining⟩ := rest.after
    have lastBounds := lastPlaced.bounds
    refine ⟨last.stop, by omega, ⟨List.pairwise_singleton _ _, fun other member => ?_⟩, remaining⟩
    rw [List.mem_singleton.mp member, begins, stops]
    exact ⟨early, Nat.le_refl _, by omega, first, lastPlaced.inkedAt_last_of_endsInked ends⟩

mutual

/-- The uses found in placed tokens follow each other where the tokens do. -/
theorem Scanned.laid
    {scope : Scope}
    {source : List Char}
    {start stop : Nat}
    {before tokens : List Token}
    {uses : List Use}
    (scanned : Scanned scope before tokens uses)
    (placed : ListPlaced source start stop tokens) :
    Laid source start stop uses :=
  match scanned with
  | .nil => .nil _ _ _
  | .declared _ later => by
    obtain ⟨early, own, rest⟩ := placed.first
    have bounds := own.bounds
    exact (later.laid rest).widen (by omega) (Nat.le_refl _)
  | .use _ found covers later => by
    obtain ⟨middle, early, own, rest⟩ := found.laid covers placed
    exact own.append (later.laid rest) early rest.bounds
  | .other _ holes later => by
    obtain ⟨early, own, rest⟩ := placed.first
    have bounds := own.bounds
    have inner := (holes.laid own.holes_placed).widen early (Nat.le_refl _)
    exact inner.append (later.laid rest) (by omega) rest.bounds

theorem HolesScanned.laid
    {scope : Scope}
    {source : List Char}
    {start stop : Nat}
    {holes : List Span}
    {uses : List Use}
    (scanned : HolesScanned scope holes uses)
    (placed : Span.ListPlaced source start stop holes) :
    Laid source start stop uses :=
  match scanned with
  | .nil => .nil _ _ _
  | .cons own later => by
    cases placed with
    | cons early inner others =>
      have first := (own.laid inner).widen early (Nat.le_refl _)
      have ordered := inner.bounds
      exact first.append (later.laid others) (by omega) others.bounds

end

end Restyle.Use
