import Restyle.Proofs.Output.Woven
import Restyle.Proofs.Use.Standing

/-!
Contract: the outputs of the uses that a scan finds stand in place of them.

Owns: `Regular`, what has to be known of an output; and that the outputs of a
scan, those left out that leave their use alone, are woven into the tokens.
-/

namespace Restyle.Output

open Token Lexeme Restyle.Bracket

/-- An output that replaces its use is read wherever it is put, and that of an
invocation has content. -/
structure Regular (output : Output) : Prop where
  reads : output.isPassThrough = false → ∃ faces, output.ReadsAs faces
  invoked : ∀ spec receiver content, output.use.role = .invocation spec receiver content →
    output.fragments ≠ none

/-- The holes of every token of a list at any depth are balanced. -/
def HolesBalanced (tokens : List Token) : Prop :=
  ∀ token ∈ everywhere tokens, ∀ hole ∈ token.holes, balanced hole.tokens

instance (tokens : List Token) : Decidable (HolesBalanced tokens) :=
  inferInstanceAs (Decidable (∀ token ∈ everywhere tokens, ∀ hole ∈ token.holes,
    balanced hole.tokens))

theorem HolesBalanced.of_subset
    {tokens others : List Token}
    (holesBalanced : HolesBalanced others)
    (subset : everywhere tokens ⊆ everywhere others) :
    HolesBalanced tokens :=
  fun token member => holesBalanced token (subset member)

private theorem mem_inside
    {token inner : Token}
    {hole : Span}
    (isHole : hole ∈ token.holes)
    (member : inner ∈ everywhere hole.tokens) :
    inner ∈ inside token := by
  rw [inside_eq_holes]
  exact List.mem_flatMap.mpr ⟨hole, isHole, member⟩

/-! ## Tokens without outputs -/

mutual

private theorem woven_nil
    {source : List Char}
    {slash last : Slash}
    {offset stop : Nat}
    {tokens : List Token}
    (stands : ListStands source slash offset tokens last stop)
    (holesBalanced : HolesBalanced tokens) :
    Woven tokens [] :=
  match stands with
  | .nil => .nil
  | .trivia _ _ later => woven_nil later holesBalanced
  | @ListStands.cons _ _ _ _ _ _ _ token tokens own later => by
    have first : ∀ inner ∈ token :: inside token, ∀ hole ∈ inner.holes, balanced hole.tokens :=
      fun inner member => holesBalanced inner (by
        rw [everywhere_cons]
        exact List.mem_append_left _ member)
    have rest : HolesBalanced tokens := holesBalanced.of_subset (by
      rw [everywhere_cons]
      exact List.subset_append_right _ _)
    exact .keep (holesWoven_nil own first) (woven_nil later rest)

private theorem holesWoven_nil
    {source : List Char}
    {slash next : Slash}
    {offset stop : Nat}
    {token : Token}
    (stands : Stands source slash offset token next stop)
    (holesBalanced : ∀ inner ∈ token :: inside token, ∀ hole ∈ inner.holes, balanced hole.tokens) :
    HolesWoven token.holes [] :=
  match stands with
  | .atom _ _ => .nil
  | .template _ _ _ _ inText _ => by
    refine textWoven_nil inText (holesBalanced token List.mem_cons_self) ?_
    intro hole isHole inner member
    exact holesBalanced inner (List.mem_cons_of_mem _ (mem_inside isHole member))

private theorem textWoven_nil
    {source : List Char}
    {offset stop : Nat}
    {holes : List Span}
    (stands : TextStands source offset holes stop)
    (own : ∀ hole ∈ holes, balanced hole.tokens)
    (deeper : ∀ hole ∈ holes, HolesBalanced hole.tokens) :
    HolesWoven holes [] :=
  match stands with
  | .nil => .nil
  | .text _ later => textWoven_nil later own deeper
  | .hole _ _ _ inside _ later =>
    .cons (own _ List.mem_cons_self) (woven_nil inside (deeper _ List.mem_cons_self))
      (textWoven_nil later (fun hole member => own hole (List.mem_cons_of_mem _ member))
        (fun hole member => deeper hole (List.mem_cons_of_mem _ member)))

end

/-! ## The outputs of a scan -/

/-- The outputs that replace their uses. -/
def replacing (outputs : List Output) : List Output :=
  outputs.filter (!·.isPassThrough)

private theorem replacing_cons
    {output : Output}
    (notLeft : output.isPassThrough = false)
    (others : List Output) :
    replacing (output :: others) = output :: replacing others := by
  simp [replacing, notLeft]

private theorem holes_of_identifier
    {token : Token}
    (isName : token.is .identifier) :
    token.holes = [] := by
  simp [Token.holes, Use.template?_of_is isName]

private theorem woven_of_found
    {scope : Scope}
    {source : List Char}
    {slash last : Slash}
    {offset stop : Nat}
    {before covered after : List Token}
    {token : Token}
    {output : Output}
    {others : List Output}
    (found : Use.FoundAt scope ⟨before, token, covered ++ after⟩ ⟨output.use, covered.length⟩)
    (covers : output.use.role.Covers covered)
    (stands : ListStands source slash offset (token :: (covered ++ after)) last stop)
    (entriesBalanced : ∀ entry ∈ output.use.role.entries, balanced entry.2.tokens)
    (regular : output.Regular)
    {commas : Bool}
    {stack left : List String}
    (isLeft : awaited commas stack (covered.map Token.face) = some left)
    (later : Woven after (replacing others)) :
    Woven (token :: (covered ++ after)) (replacing (output :: others)) := by
  have isName : token.is .identifier := found.isIdentifier
  have begins : output.start = token.start := congrArg Token.start found.isHead
  cases isRole : output.use.role with
  | passThrough spec =>
    have isOutput : replacing (output :: others) = replacing others := by
      simp [replacing, isPassThrough, Use.isPassThrough, isRole]
    rw [isRole] at covers
    cases covers
    rw [isOutput, ← List.nil_append (replacing others)]
    exact .keep (holes_of_identifier isName ▸ .nil) later
  | bareValue spec position =>
    have notLeft : output.isPassThrough = false := by
      simp [isPassThrough, Use.isPassThrough, isRole]
    obtain ⟨faces, reads⟩ := regular.reads notLeft
    have ends : output.stop = token.stop := by
      rw [Output.stop, Use.stop, isRole]
      exact congrArg Token.stop found.isHead
    rw [isRole] at covers
    cases covers
    rw [replacing_cons notLeft]
    refine .replace isName begins (List.nil_append [token]).symm ends ?_ (fun _ => rfl) ?_ reads later
    · simp [endsValue, isName]
    · rintro commas stack left isLeft
      exact (Option.some.inj isLeft).symm
  | invocation spec receiver content =>
    have notLeft : output.isPassThrough = false := by
      simp [isPassThrough, Use.isPassThrough, isRole]
    obtain ⟨faces, reads⟩ := regular.reads notLeft
    rw [isRole] at covers entriesBalanced
    obtain ⟨_, _, _, -, -, rest⟩ := stands.uncons token (covered ++ after) rfl
    obtain ⟨_, _, own, -⟩ := rest.split covered after rfl
    have closed := fun commas stack left isLeft =>
      @Use.Role.Covers.closed _ _ _ _ _ _ _ _ _ covers own entriesBalanced commas stack left isLeft
    obtain ⟨-, front, final, isFront, isStop, isValue⟩ := closed _ _ _ isLeft
    have ends : output.stop = final.stop := by
      rw [Output.stop, Use.stop, isRole]
      exact isStop
    have isWhole : token :: covered = token :: front ++ [final] := by rw [isFront]; rfl
    rw [replacing_cons notLeft]
    refine .replace isName begins isWhole ends isValue (fun isBare => ?_) ?_ reads later
    · exact absurd isBare (regular.invoked _ _ _ isRole)
    · exact fun commas stack left isLeft => (closed commas stack left isLeft).1

mutual

/-- The outputs of a scan stand in place of the uses that it finds. -/
theorem woven_of_scanned
    {scope : Scope}
    {before tokens : List Token}
    {uses : List Use}
    (scanned : Use.Scanned scope before tokens uses)
    {source : List Char}
    {slash last : Slash}
    {offset stop : Nat}
    (stands : ListStands source slash offset tokens last stop)
    {commas : Bool}
    {stack : List String}
    (closes : awaited commas stack (tokens.map Token.face) = some [])
    (holesBalanced : HolesBalanced tokens)
    (entriesBalanced : ∀ use ∈ uses, ∀ entry ∈ use.role.entries, balanced entry.2.tokens)
    {outputs : List Output}
    (areOutputs : outputs.map (·.use) = uses)
    (regular : ∀ output ∈ outputs, output.Regular) :
    Woven tokens (replacing outputs) :=
  match scanned with
  | .nil => by
    obtain rfl := List.map_eq_nil_iff.mp areOutputs
    exact .nil
  | @Use.Scanned.declared _ _ after token _ declared later => by
    obtain ⟨_, _, _, -, own, rest⟩ := stands.uncons token after rfl
    obtain ⟨outer, -, laterCloses⟩ := awaited_cons_eq_some_iff.mp closes
    have isWoven := woven_of_scanned later rest laterCloses
      (holesBalanced.of_subset (by rw [everywhere_cons]; exact List.subset_append_right _ _))
      entriesBalanced areOutputs regular
    refine .keep (holesWoven_nil own fun inner member => holesBalanced inner ?_) isWoven
    rw [everywhere_cons]
    exact List.mem_append_left _ member
  | @Use.Scanned.use _ _ covered after token use others undeclared found covers later => by
    obtain ⟨output, outputs, rfl, isUse, areOthers⟩ := List.map_eq_cons_iff.mp areOutputs
    obtain ⟨_, _, _, -, -, rest⟩ := stands.uncons token (covered ++ after) rfl
    obtain ⟨_, _, -, tail⟩ := rest.split covered after rfl
    obtain ⟨outer, awaits, restCloses⟩ := awaited_cons_eq_some_iff.mp closes
    rw [List.map_append, awaited_append, Option.bind_eq_some_iff] at restCloses
    obtain ⟨between, isBetween, laterCloses⟩ := restCloses
    have isWoven := woven_of_scanned later tail laterCloses
      (holesBalanced.of_subset (by
        rw [everywhere_cons, everywhere_append]
        exact List.subset_append_of_subset_right _ (List.subset_append_right _ _)))
      (fun use member => entriesBalanced use (List.mem_cons_of_mem _ member)) areOthers
      (fun output member => regular output (List.mem_cons_of_mem _ member))
    refine woven_of_found (isUse ▸ found) (isUse ▸ covers) stands ?_
      (regular output List.mem_cons_self) isBetween isWoven
    exact isUse ▸ entriesBalanced use List.mem_cons_self
  | @Use.Scanned.other _ _ after token inner others unmatched holes later => by
    obtain ⟨left, right, rfl, areFirst, areOthers⟩ := List.map_eq_append_iff.mp areOutputs
    obtain ⟨_, _, _, -, own, rest⟩ := stands.uncons token after rfl
    obtain ⟨outer, -, laterCloses⟩ := awaited_cons_eq_some_iff.mp closes
    have isWoven := woven_of_scanned later rest laterCloses
      (holesBalanced.of_subset (by rw [everywhere_cons]; exact List.subset_append_right _ _))
      (fun use member => entriesBalanced use (List.mem_append_right _ member)) areOthers
      (fun output member => regular output (List.mem_append_right _ member))
    have first : ∀ inner ∈ token :: inside token, ∀ hole ∈ inner.holes, balanced hole.tokens :=
      fun inner member => holesBalanced inner (by
        rw [everywhere_cons]
        exact List.mem_append_left _ member)
    have inHoles := fun offset stop inText =>
      @holesWoven_of_scanned _ _ _ holes source offset stop inText
        (first token List.mem_cons_self) (fun hole isHole inner member =>
          first inner (List.mem_cons_of_mem _ (mem_inside isHole member)))
        (fun use member => entriesBalanced use (List.mem_append_left _ member)) left areFirst
        (fun output member => regular output (List.mem_append_left _ member))
    rw [replacing, List.filter_append]
    refine .keep ?_ isWoven
    cases own with
    | atom => exact inHoles 0 0 .nil
    | template _ _ _ _ inText _ => exact inHoles _ _ inText

private theorem holesWoven_of_scanned
    {scope : Scope}
    {holes : List Span}
    {uses : List Use}
    (scanned : Use.HolesScanned scope holes uses)
    {source : List Char}
    {offset stop : Nat}
    (stands : TextStands source offset holes stop)
    (own : ∀ hole ∈ holes, balanced hole.tokens)
    (deeper : ∀ hole ∈ holes, HolesBalanced hole.tokens)
    (entriesBalanced : ∀ use ∈ uses, ∀ entry ∈ use.role.entries, balanced entry.2.tokens)
    {outputs : List Output}
    (areOutputs : outputs.map (·.use) = uses)
    (regular : ∀ output ∈ outputs, output.Regular) :
    HolesWoven holes (replacing outputs) :=
  match scanned with
  | .nil => by
    obtain rfl := List.map_eq_nil_iff.mp areOutputs
    exact .nil
  | @Use.HolesScanned.cons _ hole holes first others inHole later => by
    obtain ⟨left, right, rfl, areFirst, areOthers⟩ := List.map_eq_append_iff.mp areOutputs
    obtain ⟨_, _, -, -, -, -, inside, -, rest⟩ := stands.uncons hole holes rfl
    have isBalanced := own hole List.mem_cons_self
    have isClosed : awaited true [] (hole.tokens.map Token.face) = some [] := by
      simpa [balanced] using isBalanced
    rw [replacing, List.filter_append]
    refine .cons isBalanced ?_ ?_
    · exact woven_of_scanned inHole inside isClosed (deeper hole List.mem_cons_self)
        (fun use member => entriesBalanced use (List.mem_append_left _ member)) areFirst
        (fun output member => regular output (List.mem_append_left _ member))
    · exact holesWoven_of_scanned later rest
        (fun hole member => own hole (List.mem_cons_of_mem _ member))
        (fun hole member => deeper hole (List.mem_cons_of_mem _ member))
        (fun use member => entriesBalanced use (List.mem_append_right _ member)) areOthers
        (fun output member => regular output (List.mem_append_right _ member))

end

end Restyle.Output
