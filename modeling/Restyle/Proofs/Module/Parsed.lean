import Restyle.Proofs.Declaration.Extent
import Restyle.Proofs.Token.Reading

/-!
Contract: what a parsed module is.

Owns: `Module.Parsed`, by which a module's tokens stand in its text and its
declarations are those of its tokens; that a declaration holds a token of the
module wholly or not at all.
-/

namespace Restyle.Module

open Restyle.Token

/-- The tokens of a module stand in its text, and its declarations are those
found in its tokens. -/
structure Parsed (module : Module) : Prop where
  placed : ListPlaced module.source.toList 0 module.source.length module.tokens
  declared : ∃ found, Declaration.Declared [] module.tokens found ∧
    found.Perm module.declarations

/-- The declarations of a module are those that are found in its tokens, in another
order. -/
theorem exists_found
    {source : String}
    {module : Module}
    (isModule : parse source = .ok module) :
    ∃ found, Declaration.readFrom [] 0 module.tokens = .ok found ∧
      found.Perm module.declarations := by
  obtain ⟨tokens, -, isRest⟩ := exists_of_bind_ok isModule
  obtain ⟨declarations, isDeclarations, isAll⟩ := exists_of_bind_ok isRest
  obtain rfl := Except.ok.inj isAll
  obtain ⟨found, isFound, isSorted⟩ := exists_of_bind_ok isDeclarations
  obtain rfl := Except.ok.inj isSorted
  exact ⟨found, isFound, (List.mergeSort_perm _ _).symm⟩

theorem parsed_of_parse
    {source : String}
    {module : Module}
    (isModule : parse source = .ok module) :
    module.source = source ∧ module.Parsed := by
  obtain ⟨found, isFound, same⟩ := exists_found isModule
  obtain ⟨tokens, isTokens, isRest⟩ := exists_of_bind_ok isModule
  obtain ⟨declarations, -, isAll⟩ := exists_of_bind_ok isRest
  obtain rfl := Except.ok.inj isAll
  exact ⟨rfl, placed_of_readAll isTokens, found,
    Declaration.declared_of_readFrom (Nat.zero_le _) isFound, same⟩

namespace Parsed

variable {module : Module}

/-- Every token at any depth stands in the text. -/
theorem placed_everywhere
    (parsed : module.Parsed)
    {token : Token}
    (member : token ∈ everywhere module.tokens) :
    Token.Placed module.source.toList token :=
  (parsed.placed.everywhere_ordered.between token member).1

theorem spans
    (parsed : module.Parsed)
    {declaration : Declaration}
    (member : declaration ∈ module.declarations) :
    Declaration.Spans module.tokens declaration := by
  obtain ⟨found, declared, same⟩ := parsed.declared
  exact declared.spans (same.mem_iff.mpr member)

/-- A declaration covers all offsets of a token of the module's own list, or
none. -/
theorem covers_iff
    (parsed : module.Parsed)
    {declaration : Declaration}
    {token : Token}
    {offset : Nat}
    (isDeclaration : declaration ∈ module.declarations)
    (isToken : token ∈ module.tokens)
    (late : token.start ≤ offset)
    (early : offset < token.stop) :
    declaration.covers offset ↔ declaration.covers token.start := by
  obtain ⟨⟨first, isFirst, begins⟩, last, isLast, ends⟩ := parsed.spans isDeclaration
  have firstApart := parsed.placed.apart isFirst isToken
  have lastApart := parsed.placed.apart isLast isToken
  have firstBounds := (parsed.placed_everywhere (subset_everywhere _ isFirst)).bounds
  have lastBounds := (parsed.placed_everywhere (subset_everywhere _ isLast)).bounds
  simp only [Declaration.covers, begins, ends, Bool.and_eq_true, decide_eq_true_eq]
  rcases firstApart with rfl | firstApart <;> rcases lastApart with rfl | lastApart <;> omega

private theorem exists_outer
    (parsed : module.Parsed)
    {token : Token}
    (member : token ∈ everywhere module.tokens) :
    ∃ outer ∈ module.tokens, outer.start ≤ token.start ∧ token.stop ≤ outer.stop := by
  rcases mem_everywhere_iff.mp member with own | ⟨outer, isOuter, inOuter⟩
  · exact ⟨token, own, Nat.le_refl _, Nat.le_refl _⟩
  · have placed := parsed.placed_everywhere (subset_everywhere _ isOuter)
    have bounds := (placed.inside_ordered.between token inOuter).2
    exact ⟨outer, isOuter, by omega, by omega⟩

/-- What a declared token holds is declared. -/
theorem declares_inside
    (parsed : module.Parsed)
    {outer token : Token}
    (isOuter : outer ∈ everywhere module.tokens)
    (declares : module.declares outer)
    (inOuter : token ∈ inside outer) :
    module.declares token := by
  obtain ⟨declaration, isDeclaration, covers⟩ := List.any_eq_true.mp declares
  obtain ⟨top, isTop, lower, upper⟩ := parsed.exists_outer isOuter
  have outerPlaced := parsed.placed_everywhere isOuter
  have outerBounds := outerPlaced.bounds
  obtain ⟨placed, inLower, inUpper⟩ := outerPlaced.inside_ordered.between token inOuter
  have bounds := placed.bounds
  refine List.any_eq_true.mpr ⟨declaration, isDeclaration, ?_⟩
  rw [parsed.covers_iff isDeclaration isTop (by omega) (by omega)] at covers ⊢
  exact covers

end Parsed

end Restyle.Module
