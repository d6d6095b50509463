import Restyle.Output
import Restyle.Proofs.Edit.Substitution
import Restyle.Proofs.Text

/-!
Contract: a piece of the source with outputs in place of their uses.

Owns: `Ascends`, by which outputs follow each other between two offsets;
`pieced`, the source between two offsets with the code of outputs in it; that
it is put together from the pieces before and after any offset between them; and
that it is what editing the piece gives.
-/

namespace Restyle.Output

/-- Outputs that follow each other between two offsets. -/
def Ascends (start stop : Nat) : List Output → Prop
  | [] => start ≤ stop
  | output :: rest =>
    start ≤ output.start ∧ output.start < output.stop ∧ Ascends output.stop stop rest

/-- The source between two offsets with outputs in place of their uses. -/
def pieced (source : List Char) (start stop : Nat) : List Output → List Char
  | [] => Text.slice source start stop
  | output :: rest =>
    Text.slice source start output.start ++ (output.code.toList ++ pieced source output.stop stop rest)

theorem Ascends.le
    {start stop : Nat}
    {outputs : List Output}
    (ascends : Ascends start stop outputs) :
    start ≤ stop := by
  induction outputs generalizing start with
  | nil => exact ascends
  | cons output rest inductionHypothesis =>
    obtain ⟨early, ordered, later⟩ := ascends
    have := inductionHypothesis later
    omega

theorem Ascends.lower
    {start before stop : Nat}
    {outputs : List Output}
    (ascends : Ascends start stop outputs)
    (early : before ≤ start) :
    Ascends before stop outputs := by
  cases outputs with
  | nil => exact Nat.le_trans early ascends
  | cons output rest => exact ⟨Nat.le_trans early ascends.1, ascends.2⟩

/-- The source up to an offset before all outputs is left as it is. -/
theorem pieced_of_ascends
    (source : List Char)
    {start middle stop : Nat}
    {outputs : List Output}
    (early : start ≤ middle)
    (ascends : Ascends middle stop outputs) :
    pieced source start stop outputs =
      Text.slice source start middle ++ pieced source middle stop outputs := by
  cases outputs with
  | nil => exact (Text.slice_append_slice source early ascends).symm
  | cons output rest =>
    rw [pieced, pieced, ← Text.slice_append_slice source early ascends.1, List.append_assoc]

theorem pieced_append
    (source : List Char)
    {start middle stop : Nat}
    {left right : List Output}
    (first : Ascends start middle left)
    (second : Ascends middle stop right) :
    pieced source start stop (left ++ right) =
      pieced source start middle left ++ pieced source middle stop right := by
  induction left generalizing start with
  | nil => exact pieced_of_ascends source first second
  | cons output rest inductionHypothesis =>
    rw [List.cons_append, pieced, pieced, inductionHypothesis first.2.2]
    simp only [List.append_assoc]

theorem Ascends.append
    {start middle stop : Nat}
    {left right : List Output}
    (first : Ascends start middle left)
    (second : Ascends middle stop right) :
    Ascends start stop (left ++ right) := by
  induction left generalizing start with
  | nil => exact second.lower first
  | cons output rest inductionHypothesis => exact ⟨first.1, first.2.1, inductionHypothesis first.2.2⟩

/-! ## Editing -/

def edit (output : Output) : Edit :=
  ⟨output.start, output.stop, output.code⟩

theorem Ascends.start_le
    {start stop : Nat}
    {outputs : List Output}
    (ascends : Ascends start stop outputs)
    {output : Output}
    (member : output ∈ outputs) :
    start ≤ output.start := by
  induction outputs generalizing start with
  | nil => simp at member
  | cons first rest inductionHypothesis =>
    rcases List.mem_cons.mp member with rfl | later
    · exact ascends.1
    · have := inductionHypothesis ascends.2.2 later
      have := ascends.2.1
      have := ascends.1
      omega

private theorem mergeSort_edits
    {start stop : Nat}
    {outputs : List Output}
    (ascends : Ascends start stop outputs) :
    (outputs.map edit).mergeSort Edit.comesBefore = outputs.map edit := by
  apply List.mergeSort_of_pairwise
  induction outputs generalizing start with
  | nil => exact List.Pairwise.nil
  | cons output rest inductionHypothesis =>
    refine List.Pairwise.cons ?_ (inductionHypothesis ascends.2.2)
    intro other member
    obtain ⟨later, isLater, rfl⟩ := List.mem_map.mp member
    have := ascends.2.2.start_le isLater
    have := ascends.2.1
    have before : (edit output).start < (edit later).start := by
      show (output.start : Int) < later.start
      omega
    simp [Edit.comesBefore, before]

private theorem toList_piece_cut
    (source : String)
    {start stop lower upper : Nat}
    (early : start ≤ lower)
    (ordered : lower ≤ upper)
    (late : upper ≤ stop)
    (inside : stop ≤ source.length) :
    (Edit.piece (Text.cut source start stop) (lower - start : Int) (upper - start : Int)).toList =
      Text.slice source.toList lower upper := by
  rw [Edit.piece_cut (by omega) (by omega) (by omega) inside,
    Edit.toList_piece (by omega) (by omega) (by omega), Int.toNat_natCast, Int.toNat_natCast]

/-- Editing a piece of the source puts the outputs in place of their uses. -/
theorem toList_applyAll
    (source : String)
    {start stop : Nat}
    {outputs : List Output}
    (ascends : Ascends start stop outputs)
    (inside : stop ≤ source.length) :
    (Edit.applyAll (Text.cut source start stop) (outputs.map edit) start).toList =
      pieced source.toList start stop outputs := by
  rw [Edit.applyAll, mergeSort_edits ascends]
  have general : ∀ cursor, start ≤ cursor → Ascends cursor stop outputs →
      (Edit.applyFrom (Text.cut source start stop) start (cursor - start : Int)
        (outputs.map edit)).toList = pieced source.toList cursor stop outputs := by
    clear ascends
    induction outputs with
    | nil =>
      intro cursor early ordered
      have size : ((Text.cut source start stop).length : Int) = (stop - start : Int) := by
        rw [Text.length_cut inside]
        have : start ≤ stop := Nat.le_trans early ordered
        omega
      rw [List.map_nil, Edit.applyFrom, size]
      exact toList_piece_cut source early ordered (Nat.le_refl _) inside
    | cons output rest inductionHypothesis =>
      intro cursor early ascends
      obtain ⟨ordered, nonempty, later⟩ := ascends
      have := later.le
      rw [List.map_cons, Edit.applyFrom, String.toList_append, String.toList_append, pieced]
      rw [show (edit output).start = (output.start : Int) from rfl,
        show (edit output).stop = (output.stop : Int) from rfl,
        toList_piece_cut source early ordered (by omega) inside,
        inductionHypothesis output.stop (by omega) later, List.append_assoc]
      rfl
  have := general start (Nat.le_refl _) ascends
  rwa [Int.sub_self] at this

end Restyle.Output
