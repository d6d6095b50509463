import Restyle.Proofs.Declaration.Spelled

/-!
Contract: tokens in which keywords are read as identifiers.

Owns: `Token.plain`, a name as an identifier; that brackets, specifiers and calls of
`require` are read alike from tokens that are so the same.

Does not own: import statements, of which a keyword may begin one and an identifier may
be a default name (`Proofs.Declaration.PropertyName`).
-/

namespace Restyle

namespace Token

/-! ## Names as identifiers -/

def asIdentifier (token : Token) : Token :=
  { token with body := .atom .identifier }

/-- A name as an identifier, and any other token as it is. -/
def plain (token : Token) : Token :=
  if token.isName then token.asIdentifier else token

@[simp]
theorem text_plain (token : Token) : token.plain.text = token.text := by
  unfold plain
  split <;> rfl

@[simp]
theorem start_plain (token : Token) : token.plain.start = token.start := by
  unfold plain
  split <;> rfl

@[simp]
theorem location_plain (token : Token) : token.plain.location = token.location := by
  unfold plain
  split <;> rfl

@[simp]
theorem stop_plain (token : Token) : token.plain.stop = token.stop := by
  simp [stop]

@[simp]
theorem isName_plain (token : Token) : token.plain.isName = token.isName := by
  unfold plain
  split
  · rename_i isName
    rw [isName]
    rfl
  · rfl

/-- Only names change. -/
theorem is_plain
    (token : Token)
    {kind : Kind}
    (noName : kind ≠ .identifier ∧ kind ≠ .keyword) :
    token.plain.is kind = token.is kind := by
  obtain ⟨text, start, location, body⟩ := token
  cases body with
  | atom own => cases own <;> simp_all [plain, Token.isName, Token.is, asIdentifier, eq_comm]
  | template literal => simp [plain, Token.isName, Token.is]

theorem plain_asIdentifier (token : Token) : token.asIdentifier.plain = token.asIdentifier :=
  rfl

theorem plain_of_isName {token : Token} (isName : token.isName) :
    token.plain = token.asIdentifier := by
  rw [plain, if_pos isName]

end Token

open Token

/-- A function of tokens that keywords do not matter to. -/
theorem congr_of_plain
    {α : Type}
    {function : List Token → α}
    (indifferent : ∀ tokens, function (tokens.map plain) = function tokens)
    {tokens others : List Token}
    (same : tokens.map plain = others.map plain) :
    function tokens = function others := by
  rw [← indifferent tokens, same, indifferent]

namespace Bracket

private theorem isPunctuator_plain (spellings : List String) (token : Token) :
    isPunctuator spellings token.plain = isPunctuator spellings token := by
  rw [isPunctuator, is_plain token (by decide), text_plain, isPunctuator]

/-- The search backwards for a brace finds the same one where keywords are read as
identifiers. -/
theorem openingBrace?_plain (depth : Nat) (between tokens : List Token) :
    openingBrace? depth (between.map plain) (tokens.map plain) =
      (openingBrace? depth between tokens).map fun cut =>
        ⟨cut.before.map plain, cut.token.plain, cut.after.map plain⟩ := by
  fun_induction openingBrace? depth between tokens with
  | case1 => rfl
  | case2 depth between token rest closes inductionHypothesis =>
    simp only [List.map_cons, openingBrace?, isPunctuator_plain, closes, if_true,
      ← inductionHypothesis]
  | case3 between token rest notCloser isOpener =>
    simp [openingBrace?, isPunctuator_plain, notCloser, isOpener]
  | case4 between token rest notCloser isOpener depth inductionHypothesis =>
    simp only [List.map_cons, openingBrace?, isPunctuator_plain, notCloser, isOpener, if_true,
      Bool.false_eq_true, if_false, ← inductionHypothesis]
  | case5 depth between token rest notCloser notOpener inductionHypothesis =>
    simp only [List.map_cons, openingBrace?, isPunctuator_plain, notCloser, notOpener,
      Bool.false_eq_true, if_false, ← inductionHypothesis]

end Bracket

namespace Declaration

/-! ## What keywords do not matter to -/

private theorem specifier?_plain (entry : List Token) :
    specifier? (entry.map plain) = specifier? entry := by
  have isName : (fun token : Token => (token.isName || token.is .string) && token.text ≠ "as") ∘
      plain = fun token => (token.isName || token.is .string) && token.text ≠ "as" := by
    funext token
    simp [is_plain]
  simp only [specifier?, List.filter_map, isName, List.head?_map, List.getLast?_map]
  generalize entry.filter _ = names
  cases names.head? <;> cases names.getLast? <;> simp

theorem specifiersOf_plain (tokens : List Token) :
    specifiersOf (tokens.map plain) = specifiersOf tokens := by
  rw [specifiersOf, ← map_splitWhere plain (fun token => decide (token.text = ",")),
    List.filterMap_map]
  simp only [text_plain]
  exact congrArg (List.filterMap · _) (funext specifier?_plain)

theorem required?_plain (tokens : List Token) :
    required? (tokens.map plain) = required? tokens := by
  rcases tokens with _ | ⟨openParen, _ | ⟨path, _ | ⟨closeParen, after⟩⟩⟩
  · rfl
  · rfl
  · rfl
  · rcases after with _ | ⟨point, _ | ⟨name, more⟩⟩
    · simp [required?, is_plain]
    · simp [required?, is_plain]
    · by_cases taken : point.text = "." && name.isName
      · cases more <;> simp [required?, is_plain, taken]
      · simp [required?, is_plain, taken]

/-- The keyword before what a required module is assigned to is found alike where
keywords further back are read as identifiers. -/
theorem target?_cons
    (member : Option String)
    (target : Token)
    {before others : List Token}
    (same : before.map plain = others.map plain) :
    (target? member (target :: before)).map (fun found => (found.1, found.2.map plain)) =
      (target? member (target :: others)).map fun found => (found.1, found.2.map plain) := by
  simp only [target?]
  split
  · simp [same]
  · split
    · have pattern (tokens : List Token) :
          ((Bracket.openingBrace? 0 [] tokens).map fun cut => (specifiersOf cut.after, cut.before)).map
              (fun found => (found.1, found.2.map plain)) =
            (Bracket.openingBrace? 0 [] (tokens.map plain)).map fun cut =>
              (specifiersOf cut.after, cut.before) := by
        rw [show ([] : List Token) = [].map plain from rfl, Bracket.openingBrace?_plain,
          Option.map_map, Option.map_map]
        simp only [List.map_nil, Function.comp_def, specifiersOf_plain]
      rw [pattern, pattern, same]
    · rfl

end Declaration

end Restyle
