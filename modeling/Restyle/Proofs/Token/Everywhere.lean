import Restyle.Proofs.Token.Placement
import Restyle.Token

/-!
Contract: the tokens of a list at every depth.

Owns: `everywhere` and `inside`, the tokens of a list and of a token's holes in
source order; how they behave under concatenation; that of placed tokens the
starts ascend and each lies in what holds it.
-/

namespace Restyle

namespace Token

def inside (token : Token) : List Token :=
  (Site.inToken token).map (·.token)

/-- The tokens of a list at every depth, each before those in its holes. -/
def everywhere (tokens : List Token) : List Token :=
  (Site.all tokens).map (·.token)

/-! ## Shape -/

private theorem map_token_allFrom (before tokens : List Token) :
    (Site.allFrom before tokens).map (·.token) = everywhere tokens := by
  unfold everywhere Site.all
  induction tokens generalizing before with
  | nil => simp [Site.allFrom]
  | cons token rest inductionHypothesis =>
    simp only [Site.allFrom, List.cons_append, List.map_cons, List.map_append]
    rw [inductionHypothesis (token :: before), inductionHypothesis [token]]

@[simp]
theorem everywhere_nil : everywhere [] = [] := by
  simp [everywhere, Site.all, Site.allFrom]

theorem everywhere_cons (token : Token) (rest : List Token) :
    everywhere (token :: rest) = token :: inside token ++ everywhere rest := by
  rw [everywhere, Site.all, Site.allFrom, List.cons_append, List.map_cons, List.map_append,
    map_token_allFrom]
  rfl

@[simp]
theorem everywhere_append (left right : List Token) :
    everywhere (left ++ right) = everywhere left ++ everywhere right := by
  induction left with
  | nil => simp
  | cons token rest inductionHypothesis =>
    simp [everywhere_cons, inductionHypothesis]

/-- A token that is undivided holds no others. -/
theorem inside_of_atom {token : Token} (isAtom : token.template? = none) : inside token = [] := by
  obtain ⟨text, start, location, body⟩ := token
  cases body with
  | atom kind => simp [inside, Site.inToken, Site.inBody]
  | template literal => simp [template?] at isAtom

/-- A template holds the tokens of its holes. -/
theorem inside_of_template {token : Token} {literal : Template}
    (isTemplate : token.template? = some literal) :
    inside token = literal.holes.flatMap (everywhere ·.tokens) := by
  obtain ⟨text, start, location, body⟩ := token
  cases body with
  | atom kind => simp [template?] at isTemplate
  | template own =>
    simp only [template?, Option.some.injEq] at isTemplate
    subst isTemplate
    obtain ⟨head, rest⟩ := own
    simp only [inside, Site.inToken, Site.inBody, Site.inTemplate, Template.holes]
    induction rest with
    | nil => simp [Site.inLinks]
    | cons link links inductionHypothesis =>
      obtain ⟨⟨tokens, holeStart, holeStop⟩, chunk⟩ := link
      simp only [Site.inLinks, Site.inLink, Site.inSpan, List.map_append, List.map_cons,
        List.flatMap_cons, map_token_allFrom]
      rw [inductionHypothesis]

/-- Where a token stands in a list, or in the holes of one. -/
theorem mem_everywhere_iff {token : Token} {tokens : List Token} :
    token ∈ everywhere tokens ↔ token ∈ tokens ∨ ∃ outer ∈ tokens, token ∈ inside outer := by
  induction tokens with
  | nil => simp
  | cons first rest inductionHypothesis =>
    simp only [everywhere_cons, List.cons_append, List.mem_cons, List.mem_append,
      inductionHypothesis, exists_eq_or_imp]
    grind

theorem subset_everywhere (tokens : List Token) : tokens ⊆ everywhere tokens :=
  fun _ member => mem_everywhere_iff.mpr (.inl member)

def holes (token : Token) : List Span :=
  (token.template?.map Template.holes).getD []

theorem inside_eq_holes (token : Token) :
    token.inside = token.holes.flatMap (everywhere ·.tokens) := by
  cases isBody : token.template? with
  | none => rw [inside_of_atom isBody, holes, isBody]; rfl
  | some literal => rw [inside_of_template isBody, holes, isBody]; rfl

/-! ## Sites -/

theorem token_mem_inside {site : Site} {token : Token} (member : site ∈ Site.inToken token) :
    site.token ∈ inside token :=
  List.mem_map_of_mem member

/-- A site in a token is a site of one of its holes. -/
theorem exists_hole_of_mem_inToken {site : Site} {token : Token}
    (member : site ∈ Site.inToken token) :
    ∃ hole ∈ token.holes, site ∈ Site.all hole.tokens := by
  obtain ⟨text, start, location, body⟩ := token
  cases body with
  | atom kind => simp [Site.inToken, Site.inBody] at member
  | template literal =>
    obtain ⟨head, rest⟩ := literal
    simp only [Site.inToken, Site.inBody, Site.inTemplate] at member
    change ∃ hole ∈ rest.map (·.hole), site ∈ Site.all hole.tokens
    induction rest with
    | nil => simp [Site.inLinks] at member
    | cons link links inductionHypothesis =>
      obtain ⟨⟨tokens, holeStart, holeStop⟩, chunk⟩ := link
      simp only [Site.inLinks, Site.inLink, Site.inSpan, List.mem_append] at member
      rcases member with own | later
      · exact ⟨_, List.mem_cons_self, own⟩
      · obtain ⟨hole, isHole, inHole⟩ := inductionHypothesis later
        exact ⟨hole, List.mem_cons_of_mem _ isHole, inHole⟩

/-- A site of a hole of a token is a site in the token. -/
theorem mem_inToken_of_hole
    {site : Site}
    {token : Token}
    {hole : Span}
    (isHole : hole ∈ token.holes)
    (member : site ∈ Site.all hole.tokens) :
    site ∈ Site.inToken token := by
  obtain ⟨text, start, location, body⟩ := token
  cases body with
  | atom kind => simp [holes, template?] at isHole
  | template literal =>
    obtain ⟨head, rest⟩ := literal
    change hole ∈ rest.map (·.hole) at isHole
    change site ∈ Site.inLinks rest
    induction rest with
    | nil => simp at isHole
    | cons link links inductionHypothesis =>
      obtain ⟨⟨tokens, holeStart, holeStop⟩, chunk⟩ := link
      simp only [Site.inLinks, Site.inLink, Site.inSpan, List.mem_append]
      rcases List.mem_cons.mp isHole with rfl | later
      · exact .inl member
      · exact .inr (inductionHypothesis later)

/-- A site of a concatenation stands in its left part, in a hole of a token
there, or in its right part. -/
theorem cases_of_mem_allFrom_append
    {site : Site}
    {before : List Token}
    (left : List Token)
    {right : List Token}
    (member : site ∈ Site.allFrom before (left ++ right)) :
    (∃ front token back, left = front ++ token :: back ∧
        (site = ⟨front.reverse ++ before, token, back ++ right⟩ ∨ site ∈ Site.inToken token)) ∨
      site ∈ Site.allFrom (left.reverse ++ before) right := by
  induction left generalizing before with
  | nil => exact .inr member
  | cons first rest inductionHypothesis =>
    simp only [List.cons_append, Site.allFrom, List.mem_cons, List.mem_append] at member
    rcases member with here | inFirst | later
    · exact .inl ⟨[], first, rest, rfl, .inl here⟩
    · exact .inl ⟨[], first, rest, rfl, .inr inFirst⟩
    · rcases inductionHypothesis later with ⟨front, token, back, rfl, isSite⟩ | inRight
      · exact .inl ⟨first :: front, token, back, rfl, by simpa using isSite⟩
      · exact .inr (by simpa using inRight)

/-- The sites of the right part of a concatenation are sites of the whole. -/
theorem mem_allFrom_append_right
    {site : Site}
    {before : List Token}
    (left : List Token)
    {right : List Token}
    (member : site ∈ Site.allFrom (left.reverse ++ before) right) :
    site ∈ Site.allFrom before (left ++ right) := by
  induction left generalizing before with
  | nil => exact member
  | cons first rest inductionHypothesis =>
    rw [List.cons_append, Site.allFrom]
    refine List.mem_append_right _ (inductionHypothesis ?_)
    simpa using member

/-! ## Order -/

/-- Placed tokens between two offsets, in the ascending order of their starts. -/
structure Ordered (source : List Char) (start stop : Nat) (tokens : List Token) : Prop where
  ascending : tokens.Pairwise (·.start < ·.start)
  between : ∀ token ∈ tokens, Placed source token ∧ start ≤ token.start ∧ token.stop ≤ stop

theorem Ordered.nil (source : List Char) (start stop : Nat) : Ordered source start stop [] :=
  ⟨.nil, by simp⟩

/-- Of two tokens in ascending order that start together, both are one. -/
theorem Ordered.eq_of_start
    {source : List Char}
    {start stop : Nat}
    {tokens : List Token}
    {one other : Token}
    (ordered : Ordered source start stop tokens)
    (isOne : one ∈ tokens)
    (isOther : other ∈ tokens)
    (same : one.start = other.start) :
    one = other := by
  have ascending := ordered.ascending
  clear ordered
  induction tokens with
  | nil => simp at isOne
  | cons first rest inductionHypothesis =>
    obtain ⟨later, others⟩ := List.pairwise_cons.mp ascending
    rcases List.mem_cons.mp isOne with rfl | oneLater <;>
      rcases List.mem_cons.mp isOther with rfl | otherLater
    · rfl
    · have := later other otherLater
      omega
    · have := later one oneLater
      omega
    · exact inductionHypothesis oneLater otherLater others

theorem Ordered.widen
    {source : List Char}
    {start stop before after : Nat}
    {tokens : List Token}
    (ordered : Ordered source start stop tokens)
    (early : before ≤ start)
    (late : stop ≤ after) :
    Ordered source before after tokens := by
  refine ⟨ordered.ascending, fun token member => ?_⟩
  obtain ⟨placed, lower, upper⟩ := ordered.between token member
  exact ⟨placed, by omega, by omega⟩

theorem Ordered.append
    {source : List Char}
    {start middle stop : Nat}
    {left right : List Token}
    (first : Ordered source start middle left)
    (second : Ordered source middle stop right)
    (early : start ≤ middle)
    (late : middle ≤ stop) :
    Ordered source start stop (left ++ right) := by
  constructor
  · refine List.pairwise_append.mpr ⟨first.ascending, second.ascending, ?_⟩
    intro one inLeft other inRight
    obtain ⟨placed, _, upper⟩ := first.between one inLeft
    have lower := (second.between other inRight).2.1
    have bounds := placed.bounds
    omega
  · intro token member
    rcases List.mem_append.mp member with inLeft | inRight
    · exact (first.widen (Nat.le_refl _) late).between token inLeft
    · exact (second.widen early (Nat.le_refl _)).between token inRight

theorem Ordered.cons
    {source : List Char}
    {start stop : Nat}
    {token : Token}
    {rest : List Token}
    (placed : Placed source token)
    (early : start ≤ token.start)
    (late : token.stop ≤ stop)
    (later : Ordered source (token.start + 1) stop rest) :
    Ordered source start stop (token :: rest) := by
  constructor
  · refine List.pairwise_cons.mpr ⟨fun other member => ?_, later.ascending⟩
    have lower := (later.between other member).2.1
    omega
  · intro other member
    rcases List.mem_cons.mp member with rfl | inRest
    · exact ⟨placed, early, late⟩
    · exact (later.widen (by omega) (Nat.le_refl _)).between other inRest

end Token

mutual

/-- What a placed token holds lies in it, in ascending order. -/
theorem Token.Placed.inside_ordered
    {source : List Char}
    {token : Token}
    (placed : Token.Placed source token) :
    Token.Ordered source (token.start + 1) (token.stop - 1) (Token.inside token) :=
  match placed with
  | .atom _ _ => by
    rw [Token.inside_of_atom rfl]
    exact .nil _ _ _
  | .template _ inner => by
    rw [Token.inside_of_template rfl, Token.Placed.stop_of_template inner]
    exact inner.holes_ordered

/-- What the holes of a placed template hold lies in them, in ascending order. -/
theorem Template.Placed.holes_ordered
    {source : List Char}
    {start close : Nat}
    {chunk : Template.Chunk}
    {links : List Template.Link}
    (placed : Template.Placed source start close chunk links) :
    Token.Ordered source start close
      ((links.map (·.hole)).flatMap (Token.everywhere ·.tokens)) :=
  match placed with
  | .last _ _ _ => by
    rw [List.map_nil, List.flatMap_nil]
    exact .nil _ _ _
  | @Template.Placed.hole _ _ _ _ hole _ _ opens begins tokens closing later => by
    have early := opens.ordered
    have own := tokens.bounds
    have late := later.bounds.1
    have lower : start ≤ hole.start := by omega
    have first := tokens.everywhere_ordered.widen lower (Nat.le_succ hole.stop)
    rw [List.map_cons, List.flatMap_cons]
    exact first.append later.holes_ordered (by omega) late

/-- What a placed list holds lies between its offsets, in ascending order. -/
theorem Token.ListPlaced.everywhere_ordered
    {source : List Char}
    {start stop : Nat}
    {tokens : List Token}
    (placed : Token.ListPlaced source start stop tokens) :
    Token.Ordered source start stop (Token.everywhere tokens) :=
  match placed with
  | .nil _ => by
    rw [Token.everywhere_nil]
    exact .nil _ _ _
  | @Token.ListPlaced.cons _ _ _ token _ ordered own later => by
    have bounds := own.bounds
    have late := later.bounds
    have first := own.inside_ordered.widen (Nat.le_refl _) (Nat.sub_le token.stop 1)
    rw [Token.everywhere_cons, List.cons_append]
    exact .cons own ordered late (first.append later.everywhere_ordered (by omega) late)

end

/-- What the holes of placed tokens hold is placed. -/
theorem Token.placed_everywhere
    {source : List Char}
    {tokens : List Token}
    (placed : ∀ token ∈ tokens, Token.Placed source token) :
    ∀ token ∈ Token.everywhere tokens, Token.Placed source token := by
  intro token member
  rcases Token.mem_everywhere_iff.mp member with own | ⟨outer, isOuter, inOuter⟩
  · exact placed token own
  · exact ((placed outer isOuter).inside_ordered.between token inOuter).1

/-! ## Holes -/

/-- Expressions that follow each other between two offsets. -/
inductive Span.ListPlaced (source : List Char) : Nat → Nat → List Span → Prop where
  | nil {start stop : Nat} (ordered : start ≤ stop) : Span.ListPlaced source start stop []
  | cons {start stop : Nat} {span : Span} {rest : List Span}
      (early : start ≤ span.start)
      (own : Token.ListPlaced source span.start span.stop span.tokens)
      (later : Span.ListPlaced source span.stop stop rest) :
      Span.ListPlaced source start stop (span :: rest)

theorem Span.ListPlaced.bounds
    {source : List Char}
    {start stop : Nat}
    {spans : List Span}
    (placed : Span.ListPlaced source start stop spans) :
    start ≤ stop := by
  induction placed with
  | nil ordered => exact ordered
  | cons early own _ inductionHypothesis =>
    have ordered := own.bounds
    omega

theorem Span.ListPlaced.widen
    {source : List Char}
    {start stop before after : Nat}
    {spans : List Span}
    (placed : Span.ListPlaced source start stop spans)
    (early : before ≤ start)
    (late : stop ≤ after) :
    Span.ListPlaced source before after spans := by
  induction placed generalizing before with
  | nil ordered => exact .nil (by omega)
  | cons begins own _ inductionHypothesis =>
    exact .cons (by omega) own (inductionHypothesis (Nat.le_refl _) late)

/-- The holes of a placed template follow each other in it. -/
theorem Template.Placed.holes_placed
    {source : List Char}
    {start close : Nat}
    {chunk : Template.Chunk}
    {links : List Template.Link}
    (placed : Template.Placed source start close chunk links) :
    Span.ListPlaced source start close (links.map (·.hole)) := by
  induction links generalizing start chunk with
  | nil => exact .nil placed.bounds.1
  | cons link links inductionHypothesis =>
    cases placed with
    | hole opens begins tokens closing later =>
      have early := opens.ordered
      exact .cons (by simp only; omega) tokens
        ((inductionHypothesis later).widen (Nat.le_succ _) (Nat.le_refl _))

/-- The holes of a placed token follow each other in it. -/
theorem Token.Placed.holes_placed
    {source : List Char}
    {token : Token}
    (placed : Token.Placed source token) :
    Span.ListPlaced source token.start token.stop token.holes := by
  have bounds := placed.bounds
  cases placed with
  | atom => exact .nil (by omega)
  | template _ inner =>
    have stops := Token.Placed.stop_of_template inner
    rw [stops]
    exact inner.holes_placed.widen (Nat.le_succ _) (Nat.le_succ _)

end Restyle
