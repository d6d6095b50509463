import Restyle.Proofs.Expansion.Accounts
import Restyle.Proofs.Expansion.Complete
import Restyle.Proofs.Use.Enclosed

/-!
Contract: the outputs of an expansion are nested properly and have one order.

Owns: `Use.Entered`, the expressions that are entered from one; `Use.Precedes`, by
which a use begins before another that follows it or lies in an expression that it
holds; that all uses of an expression are so related in their order, and that the
outputs of an expansion are.
-/

namespace Restyle

open Token

/-! ## Expressions in turn -/

section Spans

variable
  {source : List Char}
  {start stop : Nat}
  {spans : List Span}

theorem Span.ListPlaced.member
    (placed : Span.ListPlaced source start stop spans) :
    ∀ span ∈ spans, start ≤ span.start ∧ span.stop ≤ stop ∧
      Token.ListPlaced source span.start span.stop span.tokens := by
  induction placed with
  | nil => simp
  | @cons start stop span rest early own later inductionHypothesis =>
    have ordered := own.bounds
    refine List.forall_mem_cons.mpr ⟨⟨early, later.bounds, own⟩, fun other member => ?_⟩
    obtain ⟨lower, upper, inner⟩ := inductionHypothesis other member
    exact ⟨by omega, upper, inner⟩

theorem Span.ListPlaced.pairwise
    (placed : Span.ListPlaced source start stop spans) :
    spans.Pairwise (·.stop ≤ ·.start) := by
  induction placed with
  | nil => exact .nil
  | cons _ _ later inductionHypothesis =>
    exact List.pairwise_cons.mpr
      ⟨fun other member => (later.member other member).1, inductionHypothesis⟩

end Spans

namespace Use

/-- The expressions that are entered from one: itself, the holes of the tokens of
an entered one, and what the uses found in an entered one hold. -/
inductive Entered (scope : Scope) (whole : Span) : Span → Prop where
  | whole : Entered scope whole whole
  | hole {span hole : Span} {token : Token}
      (outer : Entered scope whole span)
      (isToken : token ∈ span.tokens)
      (isHole : hole ∈ token.holes) :
      Entered scope whole hole
  | held {span : Span} {entry : Entry} {uses : List Use} {use : Use} {inner : Entry × Span}
      (outer : Entered scope whole span)
      (found : foundIn scope entry span = .ok uses)
      (isUse : use ∈ uses)
      (isInner : inner ∈ use.role.entries) :
      Entered scope whole inner.2

theorem Entered.placed
    {scope : Scope}
    {source : List Char}
    {whole span : Span}
    (entered : Entered scope whole span)
    (placed : ListPlaced source whole.start whole.stop whole.tokens) :
    ListPlaced source span.start span.stop span.tokens := by
  induction entered with
  | whole => exact placed
  | hole _ isToken isHole inductionHypothesis =>
    obtain ⟨left, right, isSplit⟩ := List.append_of_mem isToken
    rw [isSplit] at inductionHypothesis
    exact (inductionHypothesis.after.2.1.holes_placed.member _ isHole).2.2
  | held _ found isUse isInner inductionHypothesis =>
    have encloses := (laid_of_foundIn found inductionHypothesis).2 _ isUse
    exact (encloses.entries.member _ (List.mem_map_of_mem isInner)).2.2

/-- One use begins before another, which follows it or lies in an expression that it
holds. -/
def Precedes (one other : Use) : Prop :=
  one.start < other.start ∧
    (one.stop ≤ other.start ∨
      ∃ entry ∈ one.role.entries, entry.2.start ≤ other.start ∧ other.stop ≤ entry.2.stop)

/-- Among items whose uses precede each other in their order, an item that begins
before another precedes it. -/
theorem precedes_of_mem
    {α : Type}
    {useOf : α → Use}
    {items : List α}
    (ordered : items.Pairwise fun one other => (useOf one).Precedes (useOf other))
    {one other : α}
    (isOne : one ∈ items)
    (isOther : other ∈ items)
    (before : (useOf one).start < (useOf other).start) :
    (useOf one).Precedes (useOf other) := by
  obtain ⟨left, right, rfl⟩ := List.append_of_mem isOne
  obtain ⟨-, later, across⟩ := List.pairwise_append.mp ordered
  rcases List.mem_append.mp isOther with inLeft | inRight
  · have := (across other inLeft one List.mem_cons_self).1
    omega
  · rcases List.mem_cons.mp inRight with rfl | inRight
    · omega
    · exact (List.pairwise_cons.mp later).1 other inRight

/-- A use lies between two offsets and encloses what it covers. -/
structure Within (source : List Char) (start stop : Nat) (use : Use) : Prop where
  lower : start ≤ use.start
  filled : use.start < use.stop
  upper : use.stop ≤ stop
  encloses : use.Encloses source

/-- Uses of which each precedes the later ones, all of them between two offsets. -/
structure Nested (source : List Char) (start stop : Nat) (uses : List Use) : Prop where
  ordered : uses.Pairwise Precedes
  within : ∀ use ∈ uses, use.Within source start stop

section Nesting

variable
  {scope : Scope}
  {source : List Char}
  {start stop : Nat}

/-- Uses of one part that lies before another part. -/
theorem Within.precedes
    {one other : Use}
    {middle further : Nat}
    (first : one.Within source start middle)
    (second : other.Within source further stop)
    (apart : middle ≤ further) :
    one.Precedes other := by
  have filled := first.filled
  have upper := first.upper
  have lower := second.lower
  exact ⟨by omega, .inl (by omega)⟩

/-- Uses in the expressions that a use holds follow it in their order. -/
theorem Encloses.nested
    {use : Use}
    (encloses : use.Encloses source)
    (ends : use.head.stop ≤ use.stop)
    (inner : ∀ entry ∈ use.role.entries,
      Nested source entry.2.start entry.2.stop (allIn scope entry.1 entry.2)) :
    Nested source use.start use.stop (use :: use.role.allIn scope) := by
  have members := encloses.entries.member
  have apart := List.pairwise_map.mp encloses.entries.pairwise
  have begins := encloses.begins
  constructor
  · refine List.pairwise_cons.mpr ⟨fun other member => ?_, ?_⟩
    · obtain ⟨entry, isEntry, inEntry⟩ := List.mem_flatMap.mp member
      have own := (inner entry isEntry).within other inEntry
      have early := (members entry.2 (List.mem_map_of_mem isEntry)).1
      have lower := own.lower
      exact ⟨by omega, .inr ⟨entry, isEntry, lower, own.upper⟩⟩
    · refine List.pairwise_flatMap.mpr ⟨fun entry isEntry => (inner entry isEntry).ordered, ?_⟩
      refine apart.imp_of_mem fun isLeft isRight follows one inLeft other inRight => ?_
      exact ((inner _ isLeft).within one inLeft).precedes ((inner _ isRight).within other inRight)
        follows
  · refine List.forall_mem_cons.mpr ⟨⟨Nat.le_refl _, by omega, Nat.le_refl _, encloses⟩, ?_⟩
    intro other member
    obtain ⟨entry, isEntry, inEntry⟩ := List.mem_flatMap.mp member
    obtain ⟨lower, filled, upper, own⟩ := (inner entry isEntry).within other inEntry
    obtain ⟨early, late, -⟩ := members entry.2 (List.mem_map_of_mem isEntry)
    exact ⟨by omega, filled, by omega, own⟩

private theorem allIn_nested
    (entry : Entry)
    (span : Span)
    (placed : ListPlaced source span.start span.stop span.tokens) :
    Nested source span.start span.stop (allIn scope entry span) := by
  induction entry, span using entry_induction scope with
  | step entry span inductionHypothesis =>
    cases found : foundIn scope entry span with
    | error fault =>
      rw [allIn_of_fault found]
      exact ⟨.nil, by simp⟩
    | ok uses =>
      obtain ⟨laid, encloses⟩ := laid_of_foundIn found placed
      have own : ∀ use ∈ uses,
          Nested source use.start use.stop (use :: use.role.allIn scope) := by
        intro use isUse
        have enclosed := encloses use isUse
        refine enclosed.nested enclosed.entries.bounds fun inner isInner => ?_
        refine inductionHypothesis uses found use isUse inner isInner ?_
        exact (enclosed.entries.member _ (List.mem_map_of_mem isInner)).2.2
      rw [allIn_of_foundIn found]
      constructor
      · refine List.pairwise_flatMap.mpr ⟨fun use isUse => (own use isUse).ordered, ?_⟩
        refine laid.ascending.imp_of_mem fun isLeft isRight follows one inLeft other inRight => ?_
        exact ((own _ isLeft).within one inLeft).precedes ((own _ isRight).within other inRight)
          follows
      · intro use member
        obtain ⟨outer, isOuter, inOuter⟩ := List.mem_flatMap.mp member
        obtain ⟨lower, filled, upper, enclosed⟩ := (own outer isOuter).within use inOuter
        obtain ⟨early, late, -⟩ := laid.between outer isOuter
        exact ⟨by omega, filled, by omega, enclosed⟩

end Nesting

end Use

namespace Expansion

variable
  {settings : Settings}
  {registry : Registry}
  {filename : String}
  {module : Module}
  {expansion : Expansion}
  {uses : List Use}
  {topmost : List Output}
  {progress : Output.Progress}

/-- All uses of an expansion, spliced ones included, are nested in the module. -/
theorem Written.nested
    (written : Written settings registry filename module expansion uses topmost progress)
    (parsed : module.Parsed) :
    let all := Use.allIn (scopeOf settings registry module) .searched (wholeSpan module)
    Use.Nested module.source.toList 0 module.source.length all ∧
      all.Perm (usesOf (scopeOf settings registry module) expansion.outputs) :=
  ⟨Use.allIn_nested .searched (wholeSpan module) parsed.placed, written.accounted.2⟩

/-- The outputs of an expansion begin at different offsets, in their order. -/
theorem Written.outputs_ascending
    (written : Written settings registry filename module expansion uses topmost progress)
    (parsed : module.Parsed) :
    expansion.outputs.Pairwise (·.start < ·.start) := by
  have sorted : expansion.outputs.Pairwise fun one other =>
      decide (one.start ≤ other.start) = true := by
    rw [written.isResult]
    refine List.pairwise_mergeSort (fun _ _ _ first second => ?_) (fun one other => ?_) _
    · simp only [decide_eq_true_eq] at first second ⊢
      omega
    · simp only [Bool.or_eq_true, decide_eq_true_eq]
      exact Nat.le_total one.start other.start
  have apart : expansion.outputs.Pairwise (·.start ≠ ·.start) := by
    obtain ⟨nested, same⟩ := written.nested parsed
    have differ : (Use.allIn (scopeOf settings registry module) .searched
        (wholeSpan module)).Pairwise fun one other => one.start ≠ other.start :=
      nested.ordered.imp fun precedes => Nat.ne_of_lt precedes.1
    rw [same.pairwise_iff Ne.symm, usesOf, List.pairwise_append, List.pairwise_map] at differ
    exact differ.1
  exact (sorted.and apart).imp fun both =>
    Nat.lt_of_le_of_ne (of_decide_eq_true both.1) both.2

/-- The outputs of an expansion are nested properly and have one order.  The uses
of every list of tokens that is scanned follow each other, none overlapping the
next, and the factory argument, the template and the arguments of each of them, as
of every use that is spliced, follow its head in turn and end with it.  Each output
begins before the later ones, and each later one follows it or lies in an
interpolation, an argument or a factory argument of it. -/
theorem outputs_are_nested
    {source : String}
    (isModule : Module.parse source = .ok module)
    (expanded : ofSource settings registry filename source = .ok expansion) :
    let scope := scopeOf settings registry module
    (∀ span, Use.Entered scope (wholeSpan module) span →
        ∀ found, Use.scan scope span.tokens = .ok found →
          found.Pairwise (fun one other => one.start < other.start ∧ one.stop ≤ other.start) ∧
            ∀ use ∈ found, Use.InTurn use.head.stop use.stop use.role.extents) ∧
      (∀ use ∈ usesOf scope expansion.outputs,
        Use.InTurn use.head.stop use.stop use.role.extents) ∧
      expansion.outputs.Pairwise (fun one other => one.use.Precedes other.use) := by
  intro scope
  have parsed := (Module.parsed_of_parse isModule).2
  refine ⟨fun span entered found scanned => ?_, ?_⟩
  · have isFound : Use.foundIn scope .searched span = .ok found := scanned
    obtain ⟨laid, encloses⟩ := Use.laid_of_foundIn isFound (entered.placed parsed.placed)
    refine ⟨laid.ascending.imp_of_mem fun isOne _ follows => ?_,
      fun use isUse => (encloses use isUse).extents⟩
    have filled := (laid.between _ isOne).2.2.1
    exact ⟨by omega, follows⟩
  · rcases cases_of_ofSource isModule expanded with
      ⟨_, rfl⟩ | ⟨uses, topmost, progress, written⟩
    · exact ⟨by simp [usesOf, unchanged], .nil⟩
    · obtain ⟨nested, same⟩ := written.nested parsed
      refine ⟨fun use isUse => (nested.within use (same.mem_iff.mpr isUse)).encloses.extents, ?_⟩
      have isUse {output : Output} (member : output ∈ expansion.outputs) :
          output.use ∈ Use.allIn scope .searched (wholeSpan module) :=
        same.mem_iff.mpr (List.mem_append_left _ (List.mem_map_of_mem member))
      exact (written.outputs_ascending parsed).imp_of_mem fun isOne isOther before =>
        Use.precedes_of_mem nested.ordered (isUse isOne) (isUse isOther) before

/-- A use in an argument that stands in a hole of another use. -/
def enclosedSample : String :=
  "import \x7b css \x7d from './macro'\na = css`x$\x7bf(css`y`)\x7d`"

/-- One output of the sample lies in a hole of another. -/
theorem enclosedSample_is_nested :
    ∃ module expansion,
      Module.parse enclosedSample = .ok module ∧
      ofSource {} Registry.packaged "" enclosedSample = .ok expansion ∧
      ∃ outer ∈ expansion.outputs, ∃ inner ∈ expansion.outputs,
        outer.start = 34 ∧ inner.start = 43 ∧
        ∃ entry ∈ outer.use.role.entries,
          entry.2.start ≤ inner.start ∧ inner.stop ≤ entry.2.stop := by
  have evaluates : ((Module.parse enclosedSample).toOption.any fun module =>
      let attempt := run {} Registry.packaged "" module
      attempt.result.toOption.isSome &&
        attempt.finished.any fun outer => attempt.finished.any fun inner =>
          outer.start = 34 && inner.start = 43 && decide (inner.start < outer.stop)) = true := by
    decide +kernel
  obtain ⟨module, parses, evaluates⟩ := (Option.any_eq_true _ _).mp evaluates
  simp only [Bool.and_eq_true, List.any_eq_true, decide_eq_true_eq] at evaluates
  obtain ⟨expands, outer, isOuter, inner, isInner, ⟨outerStart, innerStart⟩, overlaps⟩ := evaluates
  obtain ⟨expansion, expands⟩ := Option.isSome_iff_exists.mp expands
  have isModule := ok_of_toOption parses
  have expanded := (ofSource_of_parse isModule).trans (ok_of_toOption expands)
  have member {output : Output} (isFinished : output ∈ (run {} Registry.packaged "" module).finished) :
      output ∈ expansion.outputs :=
    (mem_outputs_iff_finished isModule expanded).mpr isFinished
  refine ⟨module, expansion, isModule, expanded, outer, member isOuter, inner, member isInner,
    outerStart, innerStart, ?_⟩
  have nested := (outputs_are_nested isModule expanded).2.2
  have before : outer.use.start < inner.use.start := by
    change outer.start < inner.start
    omega
  rcases (Use.precedes_of_mem nested (member isOuter) (member isInner) before).2 with
    follows | inEntry
  · exact absurd follows (Nat.not_le.mpr overlaps)
  · exact inEntry

end Expansion

end Restyle
