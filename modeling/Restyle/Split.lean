/-!
Contract: cutting a list at some of its elements.

Owns: `splitWhere`, whose parts are what stands before, between and after the
elements cut at, so that there is one part more than cuts; and its laws.
-/

namespace Restyle

/-- The parts of a list around the elements of a class, which are dropped. -/
def splitWhere {α : Type} (isCut : α → Bool) : List α → List (List α)
  | [] => [[]]
  | item :: rest =>
    if isCut item then [] :: splitWhere isCut rest
    else
      match splitWhere isCut rest with
      | [] => [[item]]
      | first :: others => (item :: first) :: others

/-- There is one part more than elements cut at. -/
theorem length_splitWhere {α : Type} (isCut : α → Bool) (items : List α) :
    (splitWhere isCut items).length = items.countP isCut + 1 := by
  induction items with
  | nil => rfl
  | cons item rest inductionHypothesis =>
    by_cases cut : isCut item
    · simp [splitWhere, cut, inductionHypothesis]
    · cases parts : splitWhere isCut rest with
      | nil => simp [parts] at inductionHypothesis
      | cons first others =>
        rw [parts] at inductionHypothesis
        simpa [splitWhere, cut, parts] using inductionHypothesis

theorem map_splitWhere
    {α β : Type}
    (transform : α → β)
    (isCut : β → Bool)
    (items : List α) :
    (splitWhere (fun item => isCut (transform item)) items).map (List.map transform) =
      splitWhere isCut (items.map transform) := by
  induction items with
  | nil => rfl
  | cons item rest inductionHypothesis =>
    rw [List.map_cons, splitWhere, splitWhere, ← inductionHypothesis]
    split
    · rfl
    · cases splitWhere (fun item => isCut (transform item)) rest <;> rfl

theorem splitWhere_uncut
    {α : Type}
    {isCut : α → Bool}
    {items : List α}
    (uncut : ∀ item ∈ items, isCut item = false) :
    splitWhere isCut items = [items] := by
  induction items with
  | nil => rfl
  | cons item items inductionHypothesis =>
    obtain ⟨own, others⟩ := List.forall_mem_cons.mp uncut
    rw [splitWhere, if_neg (by simp [own]), inductionHypothesis others]

/-- What stands before and after an element cut at is split on its own. -/
theorem splitWhere_append_cut
    {α : Type}
    {isCut : α → Bool}
    {mark : α}
    (isMark : isCut mark)
    (items rest : List α) :
    splitWhere isCut (items ++ mark :: rest) = splitWhere isCut items ++ splitWhere isCut rest := by
  induction items with
  | nil => simp [splitWhere, isMark]
  | cons item items inductionHypothesis =>
    rw [List.cons_append, splitWhere, splitWhere, inductionHypothesis]
    split
    · rfl
    · cases parts : splitWhere isCut items with
      | nil =>
        have size := length_splitWhere isCut items
        rw [parts] at size
        simp at size
      | cons first others => rfl

theorem splitWhere_append
    {α : Type}
    {isCut : α → Bool}
    {items : List α}
    {mark : α}
    (uncut : ∀ item ∈ items, isCut item = false)
    (isMark : isCut mark)
    (rest : List α) :
    splitWhere isCut (items ++ mark :: rest) = items :: splitWhere isCut rest := by
  rw [splitWhere_append_cut isMark, splitWhere_uncut uncut]
  rfl

/-- A stretch without cuts, between cuts or the ends of the list, is a part, and as
many parts stand before it as cuts. -/
theorem getElem?_splitWhere
    {α : Type}
    {isCut : α → Bool}
    {front line back : List α}
    (begins : front = [] ∨ ∃ earlier mark, front = earlier ++ [mark] ∧ isCut mark)
    (uncut : ∀ item ∈ line, isCut item = false)
    (ends : back = [] ∨ ∃ mark later, back = mark :: later ∧ isCut mark) :
    (splitWhere isCut (front ++ (line ++ back)))[front.countP isCut]? = some line := by
  have isFirst : ∃ others, splitWhere isCut (line ++ back) = line :: others := by
    rcases ends with rfl | ⟨mark, later, rfl, isMark⟩
    · exact ⟨[], by rw [List.append_nil, splitWhere_uncut uncut]⟩
    · exact ⟨_, splitWhere_append uncut isMark later⟩
  obtain ⟨others, isFirst⟩ := isFirst
  rcases begins with rfl | ⟨earlier, mark, rfl, isMark⟩
  · rw [List.nil_append, isFirst]
    rfl
  · have size : (earlier ++ [mark]).countP isCut = (splitWhere isCut earlier).length := by
      rw [length_splitWhere, List.countP_append, List.countP_singleton, if_pos isMark]
    rw [List.append_assoc, List.singleton_append, splitWhere_append_cut isMark, size, isFirst,
      List.getElem?_append_right (Nat.le_refl _), Nat.sub_self]
    rfl

/-- The parts around cuts hold elements of the list alone. -/
theorem mem_of_mem_splitWhere
    {α : Type}
    {isCut : α → Bool}
    {items part : List α}
    (isPart : part ∈ splitWhere isCut items)
    {item : α}
    (member : item ∈ part) :
    item ∈ items := by
  induction items generalizing part with
  | nil =>
    obtain rfl : part = [] := by simpa [splitWhere] using isPart
    simp at member
  | cons first rest inductionHypothesis =>
    rw [splitWhere] at isPart
    split at isPart
    · rcases List.mem_cons.mp isPart with rfl | later
      · simp at member
      · exact List.mem_cons_of_mem _ (inductionHypothesis later member)
    · split at isPart
      · rw [List.mem_singleton.mp isPart, List.mem_singleton] at member
        exact member ▸ List.mem_cons_self
      · rename_i own others isRest
        rw [isRest] at inductionHypothesis
        rcases List.mem_cons.mp isPart with rfl | later
        · rcases List.mem_cons.mp member with rfl | isOwn
          · exact List.mem_cons_self
          · exact List.mem_cons_of_mem _ (inductionHypothesis List.mem_cons_self isOwn)
        · exact List.mem_cons_of_mem _
            (inductionHypothesis (List.mem_cons_of_mem _ later) member)

end Restyle
