import Mathlib.Logic.Function.Basic
import Restyle.Proofs.Text
import Restyle.Settings

/-!
Contract: placeholders and the slots that they are read as.

Owns: what stands between the head and the tail of a placeholder, wherever the
two look alike, and `placeholders_read_back_iff`, by which a tail decides whether
placeholders are read back.
-/

namespace Restyle.Settings

open Text

private theorem toList_placeholder (settings : Settings) (slot : Int) :
    (settings.placeholder slot).toList =
      settings.placeholderHead.toList ++ (decimal slot).toList ++
        settings.placeholderTail.toList := by
  rw [placeholder, String.toList_append, String.toList_append]

private theorem cut_placeholder (settings : Settings) (slot : Int) :
    cut (settings.placeholder slot) settings.placeholderHead.length
        ((settings.placeholder slot).length - settings.placeholderTail.length) =
      decimal slot := by
  have sizes : (settings.placeholder slot).length - settings.placeholderTail.length =
      (settings.placeholderHead.toList ++ (decimal slot).toList).length := by
    rw [← String.length_toList, toList_placeholder, List.length_append, String.length_toList]
    omega
  apply String.toList_injective
  rw [toList_cut, sizes, toList_placeholder, slice, List.take_left, ← String.length_toList,
    List.drop_left]

private theorem slotOf?_placeholder
    {settings : Settings}
    (hasTail : settings.placeholderTail ≠ "")
    (slot : Int) :
    settings.slotOf? (settings.placeholder slot) = some slot := by
  have begins : hasHead (settings.placeholder slot) settings.placeholderHead := by
    rw [hasHead, List.isPrefixOf_iff_prefix, toList_placeholder, List.append_assoc]
    exact List.prefix_append _ _
  have ends : Text.hasTail (settings.placeholder slot) settings.placeholderTail := by
    rw [Text.hasTail, List.isSuffixOf_iff_suffix, toList_placeholder]
    exact List.suffix_append _ _
  have nonempty : ¬ settings.placeholderTail.isEmpty := by
    rwa [String.isEmpty_iff]
  simp only [slotOf?, begins, ends, Bool.and_self, if_true, if_neg nonempty, cut_placeholder,
    readInteger?_decimal]

/-- Without a tail nothing stands between head and tail. -/
theorem slotOf?_of_no_tail
    {settings : Settings}
    (noTail : settings.placeholderTail = "")
    (text : String) :
    settings.slotOf? text = none := by
  unfold slotOf?
  split
  · simp [noTail, cut, slice, readInteger?_empty]
  · rfl

private theorem placeholder_injective
    (settings : Settings) :
    Function.Injective settings.placeholder := by
  intro one other same
  apply decimal_injective
  apply String.toList_injective
  have chars := congrArg String.toList same
  rw [toList_placeholder, toList_placeholder] at chars
  exact List.append_cancel_left (List.append_cancel_right chars)

/-- Whatever head and tail are, digits, signs or blanks among them, and whether or
not they overlap: if there is a tail, the slot is read back from every placeholder,
whatever its number and sign; if there is none, no text is read as one.  Different
slots have different placeholders. -/
theorem placeholders_read_back_iff (settings : Settings) :
    (settings.placeholderTail ≠ "" ↔
      ∀ slot, settings.slotOf? (settings.placeholder slot) = some slot) ∧
    (settings.placeholderTail = "" ↔ ∀ text, settings.slotOf? text = none) ∧
    Function.Injective settings.placeholder := by
  refine ⟨⟨slotOf?_placeholder, ?_⟩, ⟨slotOf?_of_no_tail, ?_⟩, placeholder_injective settings⟩
  · intro reads noTail
    simpa [slotOf?_of_no_tail noTail] using reads 0
  · intro readsNone
    by_contra hasTail
    simpa [slotOf?_placeholder hasTail] using readsNone (settings.placeholder 0)

/-- Placeholders that are digits throughout, but for the sign of a slot. -/
def digitSample : Settings :=
  { placeholderHead := "1", placeholderTail := "11" }

/-- The number of a slot is found between digits, but not where the tail is empty. -/
theorem digitSample_is_read_back :
    digitSample.placeholderTail ≠ "" ∧
      digitSample.placeholder (-11) = "1-1111" ∧
      digitSample.slotOf? "1-1111" = some (-11) ∧
      ({ placeholderTail := "" } : Settings).slotOf? "\x00SLOT_0" = none := by
  have hasTail : digitSample.placeholderTail ≠ "" := by decide
  have isSpelled : digitSample.placeholder (-11) = "1-1111" := by decide +kernel
  refine ⟨hasTail, isSpelled, ?_, ?_⟩
  · rw [← isSpelled]
    exact (placeholders_read_back_iff digitSample).1.mp hasTail (-11)
  · exact (placeholders_read_back_iff { placeholderTail := "" }).2.1.mp rfl "\x00SLOT_0"

end Restyle.Settings
