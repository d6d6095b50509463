import Restyle.Proofs.Expansion.Faults
import Restyle.Proofs.Location.Caret
import Restyle.Proofs.Token.Lockstep

/-!
Contract: the problems of a module are reported where they are.

Owns: that tokens carry the locations of their starts; `Points`, an offset at which
a token of the source begins, or a template that is not terminated; and that every
problem of an expansion is reported at such an offset, with its line and a caret
under it.
-/

namespace Restyle

open Location

private theorem Token.Placed.location_eq
    {source : String}
    {token : Token}
    (placed : Token.Placed source.toList token) :
    token.location = ofOffset source token.start := by
  cases placed with
  | atom => rfl
  | template => rfl

namespace Expansion

/-- An offset of a problem: a token of the source begins there, which carries the
location of the offset; or the outermost template that is not terminated, which is
the problem. -/
inductive Points (source : String) (offset : Nat) : Problem → Prop where
  | token {problem : Problem} {tokens : List Token} {token : Token}
      (read : Token.readAll source = .ok tokens)
      (member : token ∈ Token.everywhere tokens)
      (placed : Token.Placed source.toList token)
      (begins : token.start = offset)
      (carried : token.location = ofOffset source offset) :
      Points source offset problem
  | unterminated {opening : Lexeme}
      (refused : Token.readAll source = .error (.problem .unterminatedTemplate offset))
      (isOutermost : Lexeme.OutermostUnclosed (Lexeme.scan source) opening)
      (begins : opening.start = offset) :
      Points source offset .unterminatedTemplate

theorem Points.inside
    {source : String}
    {offset : Nat}
    {problem : Problem}
    (points : Points source offset problem) :
    offset < source.length := by
  rw [← String.length_toList]
  cases points with
  | token _ _ placed begins =>
    have bounds := placed.bounds
    omega
  | @unterminated opening _ isOutermost begins =>
    obtain ⟨before, after, isScan, _⟩ := isOutermost
    have isLexeme : opening ∈ Lexeme.scan source := by
      rw [isScan]
      exact List.mem_append_right _ List.mem_cons_self
    have bounds := (Lexeme.slice_of_mem_scanFrom isLexeme).2
    omega

/-- A token of a module that has been read is where its problems may be. -/
theorem points_of_token
    {source : String}
    {tokens : List Token}
    {token : Token}
    (read : Token.readAll source = .ok tokens)
    (member : token ∈ Token.everywhere tokens)
    (problem : Problem) :
    Points source token.start problem := by
  have placed := ((Token.placed_of_readAll read).everywhere_ordered.between token member).1
  exact .token read member placed rfl placed.location_eq

/-- Every problem of an expansion is reported at a token or at a template that is
not terminated. -/
theorem points_of_ofSource
    {settings : Settings}
    {registry : Registry}
    {filename source : String}
    {problem : Problem}
    {offset : Nat}
    (refused : ofSource settings registry filename source = .error (.problem problem offset)) :
    Points source offset problem := by
  cases read : Token.readAll source with
  | error fault =>
    have isFault : fault = .problem problem offset := by
      simpa [ofSource, Module.parse, read, bind, Except.bind] using refused
    rw [isFault] at read
    obtain ⟨rfl, opening, isOutermost, begins⟩ := Token.outermost_of_readAll read
    exact .unterminated read isOutermost begins
  | ok tokens =>
    have declares := Declaration.within_readAll tokens
    cases declared : Declaration.readAll tokens with
    | error fault =>
      have isFault : fault = .problem problem offset := by
        simpa [ofSource, Module.parse, read, declared, bind, Except.bind] using refused
      rw [declared, isFault] at declares
      obtain ⟨other, token, member, isSame⟩ := declares.of_error
      rw [(Fault.problem.inj isSame).2]
      exact points_of_token read (Token.subset_everywhere tokens member) problem
    | ok declarations =>
      have isRun : (run settings registry filename ⟨source, tokens, declarations⟩).result =
          .error (.problem problem offset) := by
        simpa [ofSource, Module.parse, read, declared, bind, Except.bind, pure, Except.pure]
          using refused
      have within := within_run settings registry filename ⟨source, tokens, declarations⟩
      rw [isRun] at within
      obtain ⟨token, member, rfl⟩ := within.of_error.exists_token
      exact points_of_token read member problem

/-- Locations are what they say: the line counts line feeds, the column counts from
the last of them, later offsets have later locations, and an excerpt shows the line
of its offset with a caret under the offset.  Every problem of an expansion is
reported at a token or at a template that is not terminated, with the location of
the offset and such an excerpt. -/
theorem problems_are_located (source : String) :
    (∀ offset ≤ source.length,
      (ofOffset source offset).line = 1 + (source.toList.take offset).count '\n' ∧
      ∃ start ≤ offset, (start = 0 ∨ source.toList[start - 1]? = some '\n') ∧
        '\n' ∉ Text.slice source.toList start offset ∧
        (ofOffset source offset).column = 1 + (offset - start)) ∧
    (∀ left right, left < right → right ≤ source.length →
      Before (ofOffset source left) (ofOffset source right)) ∧
    (∀ left ≤ source.length, ∀ right ≤ source.length,
      ofOffset source left = ofOffset source right → left = right) ∧
    (∀ offset ≤ source.length,
      ∃ line, Shows source offset line (excerpt source offset (ofOffset source offset))) ∧
    ∀ settings registry filename problem offset,
      ofSource settings registry filename source = .error (.problem problem offset) →
        Points source offset problem ∧
          ∃ line shown, Shows source offset line shown ∧
            problem.report source filename offset =
              problem.describe ++ "\n" ++ filename ++ ": Line " ++
                toString (ofOffset source offset).line ++ ", column " ++
                toString (ofOffset source offset).column ++ "\n" ++ shown := by
  refine ⟨fun offset inside => ?_, fun left right => before_ofOffset,
    fun left leftInside right rightInside => ofOffset_inj leftInside rightInside,
    fun offset inside => shows_excerpt inside, ?_⟩
  · obtain ⟨early, noFeed⟩ := Text.lineStart_spec source inside
    exact ⟨line_ofOffset inside, Text.lineStart source offset, early,
      Text.feed_before_lineStart source offset, noFeed, column_ofOffset inside⟩
  · intro settings registry filename problem offset refused
    have points := points_of_ofSource refused
    obtain ⟨line, shows⟩ := shows_excerpt (Nat.le_of_lt points.inside)
    refine ⟨points, line, _, shows, ?_⟩
    rw [Problem.report]
    apply String.toList_injective
    simp [toString]

/-- A module that requires a macro and uses it on its third line. -/
def requiredSample : String :=
  "\nconst styled = require('./styled/macro')\nconst SomeComponent = styled('div')`x`\n"

/-- The use is reported at its name. -/
theorem requiredSample_is_located :
    ofSource {} Registry.packaged "component.js" requiredSample =
        .error (.problem (.requiredMacro "styled" "./styled/macro" "styled") 64) ∧
      ofOffset requiredSample 64 = ⟨3, 23⟩ ∧
      Points requiredSample 64 (.requiredMacro "styled" "./styled/macro" "styled") ∧
      ∃ shown, Shows requiredSample 64 "const SomeComponent = styled('div')`x`" shown := by
  have fails : (match ofSource {} Registry.packaged "component.js" requiredSample with
      | .ok _ => none
      | .error fault => some fault) =
        some (.problem (.requiredMacro "styled" "./styled/macro" "styled") 64) := by
    decide +kernel
  have refused : ofSource {} Registry.packaged "component.js" requiredSample =
      .error (.problem (.requiredMacro "styled" "./styled/macro" "styled") 64) := by
    cases outcome : ofSource {} Registry.packaged "component.js" requiredSample with
    | ok _ => simp [outcome] at fails
    | error fault => simpa [outcome] using fails
  have isLocation : ofOffset requiredSample 64 = ⟨3, 23⟩ := by decide +kernel
  have isThird : (splitWhere (· = '\n') requiredSample.toList)[2]? =
      some "const SomeComponent = styled('div')`x`".toList := by
    decide +kernel
  obtain ⟨points, line, shown, shows, _⟩ :=
    (problems_are_located requiredSample).2.2.2.2 _ _ _ _ _ refused
  have isLine := shows.isLine
  rw [isLocation] at isLine
  obtain rfl : _ = line := String.toList_injective (Option.some.inj (isThird.symm.trans isLine))
  exact ⟨refused, isLocation, points, shown, shows⟩

end Expansion

end Restyle
