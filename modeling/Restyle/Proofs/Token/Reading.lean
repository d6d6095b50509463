import Restyle.Proofs.Token.Placement
import Restyle.Proofs.Token.Pushing

/-!
Contract: reading a text gives tokens that are placed in it.

Owns: `Reader.Placed`, what the reader has collected at an offset of the
source; that a lexeme keeps it; and `placed_of_readAll`.
-/

namespace Restyle.Token

open Lexeme Restyle.Template

/-! ## The reader at an offset -/

/-- The finished pairs of a template that began at `start`, latest first, up to
the offset where its next chunk begins. -/
inductive PartsPlaced (source : List Char) (start : Nat) :
    Nat → List (Template.Chunk × Span) → Prop where
  | nil : PartsPlaced source start (start + 1) []
  | cons {chunkStart stop : Nat} {hole : Span} {parts : List (Template.Chunk × Span)}
      (earlier : PartsPlaced source start chunkStart parts)
      (opens : HoleOpens source chunkStart stop)
      (begins : hole.start = stop + 2)
      (tokens : ListPlaced source hole.start hole.stop hole.tokens)
      (closing : source[hole.stop]? = some '}') :
      PartsPlaced source start (hole.stop + 1) ((chunkOf source chunkStart stop, hole) :: parts)

/-- Code that has been read up to an offset, with the templates around it. -/
inductive OpenCode.Placed (source : List Char) : Nat → OpenCode → Prop where
  | module {offset : Nat} {tokens : List Token}
      (inside : ListPlaced source 0 offset tokens.reverse) :
      OpenCode.Placed source offset (.module tokens)
  | hole {offset chunkStart stop : Nat} {template : OpenTemplate} {tokens : List Token}
      {outer : OpenCode}
      (opening : source[template.start]? = some '`')
      (parts : PartsPlaced source template.start chunkStart template.parts)
      (opens : HoleOpens source chunkStart stop)
      (inside : ListPlaced source (stop + 2) offset tokens.reverse)
      (around : OpenCode.Placed source template.start outer) :
      OpenCode.Placed source offset
        (.hole template (chunkOf source chunkStart stop) (stop + 2) tokens outer)

/-- A reader that has come to an offset.  The text of the chunk it is in stays
inert whatever follows. -/
inductive Reader.Placed (source : List Char) (offset : Nat) : Reader → Prop where
  | code {current : OpenCode} (placed : OpenCode.Placed source offset current) :
      Reader.Placed source offset (.code current)
  | text {template : OpenTemplate} {chunkStart : Nat} {outer : OpenCode}
      (opening : source[template.start]? = some '`')
      (parts : PartsPlaced source template.start chunkStart template.parts)
      (ordered : chunkStart ≤ offset)
      (inert : isInert (Text.slice source chunkStart offset))
      (whole : endsInDollar (Text.slice source chunkStart offset) →
        ¬ beginsWithBrace (source.drop offset))
      (around : OpenCode.Placed source template.start outer) :
      Reader.Placed source offset (.text template chunkStart outer)

/-! ## Pushing -/

/-- Code read up to an offset is code read up to a later one, if only trivia
stand between. -/
theorem OpenCode.Placed.extend
    {source : List Char}
    {offset further : Nat}
    {current : OpenCode}
    (placed : OpenCode.Placed source offset current)
    (later : offset ≤ further) :
    OpenCode.Placed source further current := by
  cases placed with
  | module inside => exact .module (inside.extend later)
  | hole opening parts opens inside around =>
    exact .hole opening parts opens (inside.extend later) around

theorem OpenCode.Placed.push
    {source : List Char}
    {offset : Nat}
    {current : OpenCode}
    {token : Token}
    (placed : OpenCode.Placed source offset current)
    (ordered : offset ≤ token.start)
    (own : Token.Placed source token) :
    OpenCode.Placed source token.stop (current.push token) := by
  cases placed with
  | module inside =>
    refine .module ?_
    rw [List.reverse_cons]
    exact inside.append ordered own
  | hole opening parts opens inside around =>
    refine .hole opening parts opens ?_ around
    rw [List.reverse_cons]
    exact inside.append ordered own

private theorem placed_templateOf
    {source : List Char}
    {start chunkStart close : Nat}
    {last : Template.Chunk}
    {links : List Template.Link}
    {parts : List (Template.Chunk × Span)}
    (placed : PartsPlaced source start chunkStart parts)
    (rest : Template.Placed source chunkStart close last links) :
    let literal := parts.foldl
      (fun template part => ⟨part.1, ⟨part.2, template.head⟩ :: template.rest⟩)
      (⟨last, links⟩ : Template)
    Template.Placed source (start + 1) close literal.head literal.rest := by
  induction placed generalizing last links with
  | nil => exact rest
  | cons earlier opens begins tokens closing inductionHypothesis =>
    exact inductionHypothesis (.hole opens begins tokens closing rest)

/-- A lexeme keeps what has been read in place. -/
theorem Reader.Placed.push
    {source : List Char}
    {offset : Nat}
    {first : Char}
    {rest : List Char}
    {state : State}
    {taken : Step}
    {reader next : Reader}
    (isRest : source.drop offset = first :: rest)
    (member : (⟨taken.kind, String.ofList (first :: rest.take taken.tail), offset⟩ : Lexeme) ∈
      scanFrom .initial 0 source)
    (placed : reader.Placed source offset)
    (pushed : Pushed source offset first rest taken state reader next) :
    next.Placed source (offset + (first :: rest.take taken.tail).length) := by
  have stands := Text.getElem?_of_drop_eq_cons isRest
  cases pushed with
  | trivia =>
    cases placed with
    | code placed => exact .code (placed.extend (Nat.le_add_right _ _))
  | atom isAtom =>
    cases placed with
    | code placed =>
      have grown := placed.push (Nat.le_refl _) (.atom member isAtom)
      refine .code ?_
      simpa only [Token.stop, ofLexeme, String.length_ofList] using grown
  | templateOpen marks isStep =>
    subst isStep marks
    cases placed with
    | code placed =>
      exact .text stands .nil (Nat.le_refl _) (by simp [isInert]) (by simp [endsInDollar]) placed
  | holeClose marks isStep =>
    subst isStep marks
    cases placed with
    | code placed =>
      cases placed with
      | hole opening parts opens inside around =>
        have finished :=
          @PartsPlaced.cons source _ _ _ ⟨_, _, offset⟩ _ parts opens rfl inside stands
        exact .text opening finished (Nat.le_refl _) (by simp [isInert]) (by simp [endsInDollar])
          around
  | templateClose marks isStep =>
    subst isStep marks
    cases placed with
    | text opening parts ordered inert _ around =>
      have inner := placed_templateOf parts (.last ordered inert stands)
      have grown := around.push (Nat.le_refl _) (.template opening inner)
      rw [Token.Placed.stop_of_template inner] at grown
      exact .code grown
  | holeOpen marks isBrace isStep =>
    subst isStep marks
    cases placed with
    | text opening parts ordered inert _ around =>
      obtain ⟨more, rfl⟩ := List.head?_eq_some_iff.mp isBrace
      have brace : source[offset + 1]? = some '{' :=
        Text.getElem?_of_drop_eq_cons
          (by rw [← List.drop_drop, isRest, List.drop_one, List.tail_cons])
      exact .code
        (.hole opening parts ⟨ordered, inert, stands, brace⟩ (.nil (Nat.le_refl _)) around)
  | @text _ _ chunkStart _ _ _ takenInert takenWhole =>
    cases placed with
    | text opening parts ordered inert whole around =>
      obtain ⟨isSlice, isDrop⟩ := slice_taken isRest taken.tail
      have isChunk := Text.slice_append_slice source ordered
        (Nat.le_add_right offset (first :: rest.take taken.tail).length)
      rw [isSlice] at isChunk
      -- no opening hole is cut in two where the texts meet
      have seam : ¬ (endsInDollar (Text.slice source chunkStart offset) ∧
          beginsWithBrace (first :: rest.take taken.tail)) := by
        rintro ⟨isDollar, begins⟩
        refine whole isDollar ?_
        rw [isRest]
        simpa [beginsWithBrace] using begins
      refine .text opening parts (Nat.le_trans ordered (Nat.le_add_right _ _)) ?_ ?_ around
      · rw [← isChunk]
        exact (isInert_append_iff inert).mpr ⟨takenInert, seam⟩
      · rw [← isChunk, endsInDollar_append inert (by simp), isDrop]
        exact takenWhole

/-! ## Reading -/

/-- The tokens of a text are placed in it. -/
theorem placed_of_readAll
    {source : String}
    {tokens : List Token}
    (read : readAll source = .ok tokens) :
    ListPlaced source.toList 0 source.length tokens := by
  obtain ⟨_, placed⟩ := exists_of_readAll (fun _ => Reader.Placed source.toList) read
    (.code (.module (.nil (Nat.le_refl _))))
    fun isRest comes placed pushed => placed.push isRest (comes.mem_scanFrom isRest) pushed
  cases placed with
  | code current =>
    cases current with
    | module inside => rwa [List.reverse_reverse] at inside

end Restyle.Token
