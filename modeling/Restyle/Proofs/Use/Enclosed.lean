import Restyle.Proofs.Use.Found
import Restyle.Proofs.Use.Layout

/-!
Contract: where the parts of a use lie in it.

Owns: `Role.extents`, the offsets of a factory argument and of a template or the
arguments of a call; `InTurn`, extents that follow each other between two offsets;
`Encloses`, by which the extents of a use and the expressions that it holds follow
its head in turn and end with it; that every use found in placed tokens does.
-/

namespace Restyle

open Token

/-! ## Parts of placed lists -/

namespace Token

variable
  {source : List Char}
  {start stop : Nat}

/-- Some of the tokens of a placed list are placed. -/
theorem ListPlaced.sublist
    {tokens part : List Token}
    (placed : ListPlaced source start stop tokens)
    (within : part.Sublist tokens) :
    ListPlaced source start stop part := by
  induction within generalizing start with
  | slnil => exact placed
  | cons token _ inductionHypothesis =>
    obtain ⟨early, own, later⟩ := placed.first
    have bounds := own.bounds
    cases inductionHypothesis later with
    | nil ordered => exact .nil (by omega)
    | cons ordered head rest => exact .cons (by omega) head rest
  | cons_cons token _ inductionHypothesis =>
    obtain ⟨early, own, later⟩ := placed.first
    exact .cons early own (inductionHypothesis later)

/-- A list that is placed up to one of its tokens. -/
theorem ListPlaced.until
    {left right : List Token}
    {token : Token}
    (placed : ListPlaced source start stop (left ++ token :: right)) :
    ListPlaced source start token.stop (left ++ [token]) := by
  induction left generalizing start with
  | nil =>
    obtain ⟨early, own, -⟩ := placed.first
    exact .cons early own (.nil (Nat.le_refl _))
  | cons first rest inductionHypothesis =>
    obtain ⟨early, own, later⟩ := placed.first
    exact .cons early own (inductionHypothesis later)

/-- A list that is placed up to where one of its tokens begins. -/
theorem ListPlaced.before
    {left right : List Token}
    {token : Token}
    (placed : ListPlaced source start stop (left ++ token :: right)) :
    ListPlaced source start token.start left := by
  induction left generalizing start with
  | nil => exact .nil placed.first.1
  | cons first rest inductionHypothesis =>
    obtain ⟨early, own, later⟩ := placed.first
    exact .cons early own (inductionHypothesis later)

end Token

namespace Use

variable
  {source : List Char}
  {start stop : Nat}

/-! ## Extents -/

/-- The offsets of a template, or of the arguments of a call. -/
def Content.extents : Content → List (Nat × Nat)
  | .template _ start stop => [(start, stop)]
  | .arguments spans _ => spans.map fun span => (span.start, span.stop)

/-- The offsets of the factory argument and of the content of a role. -/
def Role.extents : Role → List (Nat × Nat)
  | .invocation _ receiver content =>
    (receiver.arguments.map fun span => (span.start, span.stop)) ++ content.extents
  | _ => []

/-- Extents that follow each other between two offsets. -/
def InTurn (start stop : Nat) : List (Nat × Nat) → Prop
  | [] => start ≤ stop
  | extent :: rest => start ≤ extent.1 ∧ extent.1 < extent.2 ∧ InTurn extent.2 stop rest

theorem InTurn.widen
    {before after : Nat}
    {extents : List (Nat × Nat)}
    (inTurn : InTurn start stop extents)
    (early : before ≤ start)
    (late : stop ≤ after) :
    InTurn before after extents := by
  induction extents generalizing start before with
  | nil => exact Nat.le_trans early (Nat.le_trans inTurn late)
  | cons extent rest inductionHypothesis =>
    obtain ⟨begins, filled, later⟩ := inTurn
    exact ⟨by omega, filled, inductionHypothesis later (Nat.le_refl _)⟩

/-- A use whose factory argument and content follow its head in turn and end with
it, and likewise the expressions that it holds. -/
structure Encloses (source : List Char) (use : Use) : Prop where
  begins : use.start < use.head.stop
  extents : InTurn use.head.stop use.stop use.role.extents
  entries : Span.ListPlaced source use.head.stop use.stop (use.role.entries.map (·.2))

/-! ## Arguments -/

/-- An argument goes from its first token to its last, and what follows it comes
after it. -/
theorem argument_placed
    {part others : List Token}
    {span : Span}
    (isArgument : argument? part = some span)
    (placed : ListPlaced source start stop (part ++ others)) :
    start ≤ span.start ∧ span.start < span.stop ∧
      ListPlaced source span.start span.stop span.tokens ∧
      ListPlaced source span.stop stop others := by
  unfold argument? at isArgument
  split at isArgument
  · rename_i first last isFirst isLast
    obtain rfl := Option.some.inj isArgument
    obtain ⟨front, isFront⟩ := List.getLast?_eq_some_iff.mp isLast
    obtain ⟨rest, isRest⟩ := List.head?_eq_some_iff.mp isFirst
    have whole : ListPlaced source start stop (front ++ last :: others) := by
      rwa [isFront, List.append_assoc] at placed
    have own := whole.until
    rw [← isFront, isRest] at own
    obtain ⟨early, head, tail⟩ := own.first
    have filled := head.bounds.1
    have ordered := tail.bounds
    refine ⟨early, by simp only; omega, ?_, whole.after.2.2⟩
    simp only [isRest]
    exact .cons (Nat.le_refl _) head tail
  · simp at isArgument

private theorem arguments_placed
    {parts : List (List Token)}
    (placed : ListPlaced source start stop parts.flatten) :
    Span.ListPlaced source start stop (parts.filterMap argument?) ∧
      InTurn start stop
        ((parts.filterMap argument?).map fun span => (span.start, span.stop)) := by
  induction parts generalizing start with
  | nil => exact ⟨.nil placed.bounds, placed.bounds⟩
  | cons part parts inductionHypothesis =>
    rw [List.flatten_cons] at placed
    cases isArgument : argument? part with
    | none =>
      rw [List.filterMap_cons_none isArgument]
      exact inductionHypothesis (placed.sublist (List.sublist_append_right _ _))
    | some span =>
      rw [List.filterMap_cons_some isArgument]
      obtain ⟨early, filled, own, later⟩ := argument_placed isArgument placed
      obtain ⟨spans, inTurn⟩ := inductionHypothesis later
      exact ⟨.cons early own spans, early, filled, inTurn⟩

private theorem argumentsOf_placed
    {tokens : List Token}
    (placed : ListPlaced source start stop tokens) :
    Span.ListPlaced source start stop (argumentsOf tokens) ∧
      InTurn start stop ((argumentsOf tokens).map fun span => (span.start, span.stop)) :=
  arguments_placed (placed.sublist (splitArguments_sublist 0 tokens))

/-! ## Content -/

private theorem holes_of_tokenParts (token : Token) :
    (tokenParts token).filterMap Part.hole? = token.holes := by
  unfold tokenParts Token.holes
  cases token.template? with
  | none => rfl
  | some literal => exact holes_templateParts literal

/-- The holes of arguments that are read like a template follow each other where
the tokens do. -/
theorem stringLike_holes_placed
    {spans : List Span}
    {close : Nat}
    (stringLike : isStringLike spans)
    (placed : ListPlaced source start stop (spans.flatMap (·.tokens))) :
    Span.ListPlaced source start stop (Content.arguments spans close).holes := by
  rw [Content.holes, Content.parts, if_pos stringLike]
  rcases tokens_of_stringLike stringLike with isNone | ⟨token, isOne, -⟩
  · rw [isNone]
    exact .nil placed.bounds
  · rw [isOne] at placed ⊢
    obtain ⟨early, own, later⟩ := placed.first
    rw [List.flatMap_singleton, holes_of_tokenParts]
    exact own.holes_placed.widen early later.bounds

/-- The holes and the extents of content follow each other in the tokens that it
covers. -/
theorem Content.Covers.parts_placed
    {content : Content}
    {covered : List Token}
    (covers : content.Covers covered)
    (placed : ListPlaced source start stop covered) :
    Span.ListPlaced source start content.stop content.holes ∧
      InTurn start content.stop content.extents := by
  cases covers with
  | @template token literal isTemplate =>
    obtain ⟨early, own, -⟩ := placed.first
    have isHoles : (Content.template literal token.start token.stop).holes = token.holes := by
      rw [Content.holes, Content.parts, holes_templateParts, Token.holes, isTemplate]
      rfl
    rw [isHoles]
    exact ⟨own.holes_placed.widen early (Nat.le_refl _), early, own.bounds.1, Nat.le_refl _⟩
  | @call openParen closer inner isAtom opens closes =>
    rw [List.cons_append] at placed
    obtain ⟨early, own, later⟩ := placed.first
    have filled := own.bounds
    have inner_placed := later.until.sublist (List.sublist_append_left _ _)
    obtain ⟨spans, inTurn⟩ := argumentsOf_placed inner_placed
    refine ⟨?_, inTurn.widen (by omega) (Nat.le_refl _)⟩
    by_cases stringLike : isStringLike (argumentsOf inner)
    · have tokens := inner_placed.sublist (argumentsOf_sublist inner)
      exact (stringLike_holes_placed stringLike tokens).widen (by omega) (Nat.le_refl _)
    · rw [holes_of_not_stringLike stringLike]
      exact spans.widen (by omega) (Nat.le_refl _)

/-! ## Uses -/

/-- A use encloses what it covers. -/
theorem Role.Covers.encloses
    {use : Use}
    {covered : List Token}
    (covers : use.role.Covers covered)
    (begins : use.start < use.head.stop)
    (placed : ListPlaced source use.head.stop stop covered) :
    use.Encloses source := by
  obtain ⟨binding, head, label, role⟩ := use
  have isMap (content : Content) :
      (content.holes.map (Entry.hole, ·)).map (·.2) = content.holes := by
    rw [List.map_map]
    exact List.map_id _
  cases covers with
  | passThrough => exact ⟨begins, Nat.le_refl _, .nil (Nat.le_refl _)⟩
  | bareValue => exact ⟨begins, Nat.le_refl _, .nil (Nat.le_refl _)⟩
  | @direct spec content tokens own =>
    obtain ⟨holes, extents⟩ := own.parts_placed placed
    exact ⟨begins, extents, (isMap content).symm ▸ holes⟩
  | @member spec content point name tokens isAtom isPoint isName own =>
    have later := placed.sublist (.cons point (.cons name (.refl tokens)))
    obtain ⟨holes, extents⟩ := own.parts_placed later
    exact ⟨begins, extents, (isMap content).symm ▸ holes⟩
  | @factory spec content openParen closer inner tokens isAtom opens nonempty closes own =>
    rw [List.cons_append] at placed
    obtain ⟨early, paren, rest⟩ := placed.first
    have filled := paren.bounds.1
    have argument := rest.before
    obtain ⟨-, closing, after⟩ := rest.after
    have closed := closing.bounds.1
    obtain ⟨holes, extents⟩ := own.parts_placed after
    have inked : openParen.stop < closer.start := by
      obtain ⟨first, others, rfl⟩ := List.exists_cons_of_ne_nil nonempty
      obtain ⟨opened, token, later⟩ := argument.first
      have := token.bounds.1
      have := later.bounds
      omega
    have follows : head.stop ≤ openParen.stop := by
      simp only at early
      omega
    refine ⟨begins, ⟨follows, inked, extents.widen (Nat.le_of_lt closed) (Nat.le_refl _)⟩, ?_⟩
    rw [Role.entries, Receiver.arguments, List.map_append, isMap]
    exact .cons follows argument (holes.widen (Nat.le_of_lt closed) (Nat.le_refl _))

/-- A use that takes its head and the tokens after it encloses them. -/
theorem FoundAt.encloses
    {scope : Scope}
    {before covered after : List Token}
    {token : Token}
    {use : Use}
    {length : Nat}
    (found : FoundAt scope ⟨before, token, covered ++ after⟩ ⟨use, length⟩)
    (covers : use.role.Covers covered)
    (placed : ListPlaced source start stop (token :: (covered ++ after))) :
    use.Encloses source := by
  obtain ⟨-, head, rest⟩ := placed.first
  have isHead : use.head = token := found.isHead
  rw [← isHead] at head rest
  exact covers.encloses head.bounds.1 (rest.sublist (List.sublist_append_left _ _))

mutual

/-- The uses found in placed tokens enclose what they cover. -/
theorem Scanned.encloses
    {scope : Scope}
    {start stop : Nat}
    {before tokens : List Token}
    {uses : List Use}
    (scanned : Scanned scope before tokens uses)
    (placed : ListPlaced source start stop tokens) :
    ∀ use ∈ uses, use.Encloses source :=
  match scanned with
  | .nil => by simp
  | .declared _ later => later.encloses placed.first.2.2
  | .use _ found covers later =>
    List.forall_mem_cons.mpr ⟨found.encloses covers placed,
      later.encloses (placed.first.2.2.sublist (List.sublist_append_right _ _))⟩
  | .other _ holes later =>
    List.forall_mem_append.mpr ⟨holes.encloses placed.first.2.1.holes_placed,
      later.encloses placed.first.2.2⟩

theorem HolesScanned.encloses
    {scope : Scope}
    {start stop : Nat}
    {holes : List Span}
    {uses : List Use}
    (scanned : HolesScanned scope holes uses)
    (placed : Span.ListPlaced source start stop holes) :
    ∀ use ∈ uses, use.Encloses source :=
  match scanned with
  | .nil => by simp
  | .cons own later => by
    cases placed with
    | cons _ inner others =>
      exact List.forall_mem_append.mpr ⟨own.encloses inner, later.encloses others⟩

end

/-- The uses of an entered expression follow each other in it and enclose what they
cover. -/
theorem laid_of_foundIn
    {scope : Scope}
    {entry : Entry}
    {span : Span}
    {uses : List Use}
    (found : foundIn scope entry span = .ok uses)
    (placed : ListPlaced source start stop span.tokens) :
    Laid source start stop uses ∧ ∀ use ∈ uses, use.Encloses source := by
  rcases cases_of_foundIn found with scanned | ⟨use, content, rfl, fills⟩
  · have shape := scanned_of_scan scanned
    exact ⟨shape.laid placed, shape.encloses placed⟩
  · obtain ⟨token, after, isTokens, isFound⟩ := fills.found
    have covers := covers_of_fills isFound
    rw [isTokens, ← List.append_nil after] at placed
    rw [← List.append_nil after] at isFound
    obtain ⟨middle, -, laid, rest⟩ := FoundAt.laid (by simpa using isFound) covers placed
    exact ⟨laid.widen (Nat.le_refl _) rest.bounds, by simpa using isFound.encloses covers placed⟩

end Use

end Restyle
