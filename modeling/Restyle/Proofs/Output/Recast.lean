import Mathlib.Data.List.Basic
import Restyle.Proofs.Edit.Substitution
import Restyle.Proofs.Output.Woven
import Restyle.Proofs.Token.Trim

/-!
Contract: what edits make of a source is read again.

Owns: how tokens with outputs in place of some of them are cut at an offset and put
together again; `Recasts`, by which what edits make of a source from an offset on is
read with certain faces; and the ways in which a statement in between is kept,
replaced and taken away.
-/

namespace Restyle.Output

open Token Lexeme Restyle.Bracket

/-! ## Cutting -/

/-- Where no output crosses an offset, the outputs before it stand in place of tokens
before it, and the others in place of tokens after it. -/
theorem Woven.split
    {left right : List Token}
    {outputs : List Output}
    (woven : Woven (left ++ right) outputs)
    {place : Nat}
    (early : ∀ token ∈ left, token.start < place)
    (late : ∀ token ∈ right, place < token.stop)
    (apart : ∀ output ∈ outputs, output.stop ≤ place ∨ place ≤ output.start) :
    ∃ first others, outputs = first ++ others ∧ Woven left first ∧ Woven right others := by
  cases left with
  | nil => exact ⟨[], outputs, rfl, .nil, woven⟩
  | cons head left =>
    obtain ⟨isEarly, leftEarly⟩ := List.forall_mem_cons.mp early
    generalize isAll : head :: left ++ right = all at woven
    cases woven with
    | nil => simp at isAll
    | @keep token tokens inner others holes later =>
      obtain ⟨rfl, rfl⟩ := List.cons.inj isAll
      obtain ⟨first, rest, rfl, isFirst, isRest⟩ := later.split leftEarly late
        (fun output member => apart output (List.mem_append_right _ member))
      exact ⟨inner ++ first, rest, by simp, .keep holes isFirst, isRest⟩
    | @replace token final covered front after output own others isName begins isFront ends isValue
        bare closed reads later =>
      obtain ⟨rfl, isRest⟩ := List.cons.inj isAll
      have isBefore : output.stop ≤ place := by
        rcases apart output List.mem_cons_self with isBefore | isAfter
        · exact isBefore
        · omega
      -- The last token that the output covers is on the left, for the output ends before it.
      obtain ⟨further, rfl, rfl⟩ : ∃ further, left = covered ++ further ∧
          after = further ++ right := by
        rcases List.append_eq_append_iff.mp isRest with
          ⟨further, rfl, rfl⟩ | ⟨further, isLeft, isAfter⟩
        · cases further with
          | nil => exact ⟨[], by simp, by simp⟩
          | cons next further =>
            have isLast : (head :: (left ++ next :: further)).getLast? = some final := by
              simp [isFront]
            have isFinal : final ∈ next :: further := by
              apply List.mem_of_getLast?
              rw [← isLast, ← List.cons_append, List.getLast?_append_of_ne_nil _ (by simp)]
            have beyond := late final (List.mem_append_left _ isFinal)
            omega
        · exact ⟨further, isLeft, isAfter⟩
      obtain ⟨first, rest, rfl, isFirst, isRest⟩ := later.split
        (fun token member => leftEarly token (List.mem_append_right _ member)) late
        (fun output member => apart output (List.mem_cons_of_mem _ member))
      exact ⟨output :: first, rest, rfl,
        .replace isName begins isFront ends isValue bare closed reads isFirst, isRest⟩
termination_by left.length

/-- What is read between two offsets and what is read between the second and a third
are read one after the other. -/
theorem rereads_append
    {source : List Char}
    {slash middle last : Slash}
    {start between stop : Nat}
    {first others : List Output}
    {commas : Bool}
    {stack outer left : List String}
    {faces further : List Face}
    (early : Rereads source slash start first commas stack faces outer middle between)
    (late : Rereads source middle between others commas outer further left last stop) :
    Rereads source slash start (first ++ others) commas stack (faces ++ further) left last stop := by
  have isPieced := pieced_append source early.ascends late.ascends
  refine ⟨early.ascends.append late.ascends, ?_, ?_, ?_⟩
  · rw [awaited_append, early.closes, Option.bind_some, late.closes]
  · intro other follows
    rw [isPieced, List.append_assoc]
    exact early.follows _ (late.follows other follows)
  · intro other follows base
    rw [isPieced, List.append_assoc]
    exact (early.runs _ (late.follows other follows) base).trans (late.runs other follows base)

/-- Tokens without outputs keep their faces. -/
theorem faces_of_respelled
    {source : List Char}
    {tokens : List Token}
    {faces : List Face}
    (respelled : Respelled source tokens [] faces)
    (placed : ∀ token ∈ tokens, Token.Placed source token) :
    faces = tokens.map Token.face := by
  generalize isNone : ([] : List Output) = outputs at respelled
  induction respelled with
  | nil => rfl
  | @keep token tokens inner others face faces kept later inductionHypothesis =>
    obtain ⟨rfl, rfl⟩ := List.append_eq_nil_iff.mp isNone.symm
    obtain ⟨isPlaced, others⟩ := List.forall_mem_cons.mp placed
    rw [List.map_cons, inductionHypothesis others rfl]
    rcases kept with rfl | ⟨isTemplate, rest, rfl, isText⟩
    · rfl
    · rw [isText rfl, ← isPlaced.text_eq, String.ofList_toList]
      unfold Token.face
      split
      · rename_i isAtom
        simp [Token.isTemplate, Token.template?, isAtom] at isTemplate
      · rfl
  | replace => simp at isNone

private theorem spliced_pieced
    {source text : List Char}
    {start stop : Nat}
    {outputs : List Output}
    {edits : List Edit}
    (ascends : Ascends start stop outputs)
    (inside : stop ≤ source.length)
    (spliced : Edit.Spliced source stop edits text) :
    Edit.Spliced source start (outputs.map edit ++ edits)
      (pieced source start stop outputs ++ text) := by
  induction outputs generalizing start with
  | nil => exact spliced.lower ascends
  | cons output outputs inductionHypothesis =>
    obtain ⟨early, nonempty, later⟩ := ascends
    have late := later.le
    rw [pieced, List.append_assoc, List.append_assoc]
    exact .edit early nonempty (by omega) (inductionHypothesis later)

/-! ## Reading what edits make of a source -/

/-- What edits make of a source from an offset on is read with certain faces.  It may
follow the source up to the offset, if there is any. -/
def Recasts (source : List Char) (slash : Slash) (offset : Nat) (edits : List Edit)
    (faces : List Face) : Prop :=
  ∃ text last, Edit.Spliced source offset edits text ∧
    CodeRun .module slash text faces .module last [] ∧ (0 < offset → Follows source offset text)

section Recasts

variable
  {source text : List Char}
  {slash before next last : Slash}
  {offset start stop : Nat}
  {outputs : List Output}
  {commas : Bool}
  {stack left : List String}
  {edits : List Edit}
  {faces own rest : List Face}

/-- Tokens with outputs in place of some of them, before something that may follow
them. -/
theorem recasts_of_rereads
    (segment : Rereads source slash offset outputs commas stack faces left before start)
    (inside : start ≤ source.length)
    (spliced : Edit.Spliced source start edits text)
    (follows : Follows source start text)
    (run : CodeRun .module before text rest .module last []) :
    Recasts source slash offset (outputs.map edit ++ edits) (faces ++ rest) :=
  ⟨_, _, spliced_pieced segment.ascends inside spliced, (segment.runs _ follows .module).trans run,
    fun _ => segment.follows _ follows⟩

/-- Tokens at the end of a source. -/
theorem recasts_last
    (segment : Rereads source slash offset outputs commas stack faces left before source.length) :
    Recasts source slash offset (outputs.map edit) faces := by
  have isEnd : source.drop source.length = [] := List.drop_length
  have follows : Follows source source.length [] := by
    refine ⟨?_, fun _ => ?_⟩
    · rw [isEnd]
      exact .done
    · rw [isEnd]
  have spliced : Edit.Spliced source source.length [] [] := by
    have rest := @Edit.Spliced.rest source source.length
    rwa [isEnd] at rest
  simpa using recasts_of_rereads segment (Nat.le_refl _) spliced follows .here

/-- Tokens before others that are read again. -/
theorem Recasts.prepend
    (later : Recasts source before start edits rest)
    (segment : Rereads source slash offset outputs commas stack faces left before start)
    (inside : start ≤ source.length)
    (positive : 0 < start) :
    Recasts source slash offset (outputs.map edit ++ edits) (faces ++ rest) := by
  obtain ⟨text, last, spliced, run, follows⟩ := later
  exact recasts_of_rereads segment inside spliced (follows positive) run

/-- A statement that begins with a name is replaced by a text that does, too. -/
theorem Recasts.replace
    (later : Recasts source next stop edits rest)
    (segment : Rereads source slash offset outputs commas stack faces left before start)
    (nonempty : start < stop)
    (inside : stop ≤ source.length)
    {replacement : String}
    {first c : Char}
    {more chars : List Char}
    (begins : source.drop start = first :: more)
    (isName : Text.isIdentifierStart first)
    (isText : replacement.toList = c :: chars)
    (starts : Text.isIdentifierStart c)
    (runs : ∀ slash rest, CodeRun .module slash (replacement.toList ++ rest) own .module
      .opensPattern rest)
    (unslashed : rest.head?.any (·.isSlashed) = false) :
    Recasts source slash offset (outputs.map edit ++ ⟨start, stop, replacement⟩ :: edits)
      (faces ++ (own ++ rest)) := by
  obtain ⟨text, last, spliced, run, -⟩ := later
  obtain ⟨ending, restated⟩ := run.restate unslashed .opensPattern
  have replaced : Edit.Spliced source start (⟨start, stop, replacement⟩ :: edits)
      (replacement.toList ++ text) := by
    have isEdit := @Edit.Spliced.edit source start start stop replacement _ _ (Nat.le_refl _)
      nonempty inside spliced
    rwa [Text.slice_self, List.nil_append] at isEdit
  refine recasts_of_rereads segment (by omega) replaced ⟨?_, fun ends => ?_⟩
    ((runs before text).trans restated)
  · rw [begins, isText]
    exact .name isName starts
  · obtain rfl := lineFeed_of_commentEnds ends begins
    exact absurd isName (by decide)

/-- A statement is taken away with blanks around it. -/
theorem Recasts.remove
    {close outerStart outerStop : Nat}
    (later : Recasts source next stop edits rest)
    (segment : Rereads source slash offset outputs commas stack faces left before close)
    (ordered : close ≤ outerStart)
    (nonempty : outerStart < outerStop)
    (late : stop ≤ outerStop)
    (inside : outerStop ≤ source.length)
    (beyond : ∀ edit ∈ edits, (outerStop : Int) ≤ edit.start)
    (blankBefore : ∀ c ∈ Text.slice source close outerStart, Text.isBlank c)
    (blankAfter : ∀ c ∈ Text.slice source stop outerStop, Text.isBlank c)
    (unslashed : rest.head?.any (·.isSlashed) = false)
    (separate : close < outerStart ∨ offset = 0 ∧ outputs = [] ∧ faces = [] ∧ before = slash ∧
      outerStart = 0) :
    Recasts source slash offset (outputs.map edit ++ ⟨outerStart, outerStop, ""⟩ :: edits)
      (faces ++ rest) := by
  obtain ⟨text, last, spliced, run, -⟩ := later
  obtain ⟨after, rfl, further⟩ := spliced.raise late beyond
  obtain ⟨ending, restated⟩ := run.restate unslashed before
  have reblanked := restated.reblank blankAfter blankBefore
  have removed : Edit.Spliced source close (⟨outerStart, outerStop, ""⟩ :: edits)
      (Text.slice source close outerStart ++ after) :=
    .edit ordered nonempty inside further
  rcases separate with blank | ⟨rfl, rfl, rfl, rfl, rfl⟩
  · refine recasts_of_rereads segment (by omega) removed ?_ reblanked
    obtain ⟨c, isNext⟩ : ∃ c, source[close]? = some c :=
      ⟨_, List.getElem?_eq_getElem (by omega)⟩
    have stands := Text.drop_of_getElem? isNext
    have isSlice : Text.slice source close outerStart =
        c :: Text.slice source (close + 1) outerStart := by
      rw [← Text.slice_append_slice source (Nat.le_succ close) blank, Text.slice_succ isNext]
      rfl
    have isBlank : Text.isBlank c := blankBefore c (by rw [isSlice]; exact List.mem_cons_self)
    have notPoint : c ≠ '.' := by
      rintro rfl
      exact absurd isBlank (by decide)
    rw [isSlice, List.cons_append]
    refine ⟨?_, fun _ => by rw [stands]; rfl⟩
    rw [stands]
    exact .same (fun isPoint => absurd isPoint notPoint) (fun isPoint => absurd isPoint notPoint)
  · obtain rfl : close = 0 := by omega
    exact ⟨_, _, removed, reblanked, fun positive => absurd positive (Nat.lt_irrefl 0)⟩

end Recasts

end Restyle.Output
