import Restyle.Proofs.Output.Writing
import Restyle.Proofs.Use.Faults

/-!
Contract: what can stop the writing of a plan.

Owns: `Stops`, the faults of the searches among some tokens and of runtime exports
that cannot be named; `Writer.StopsAt`, a computation that stops at nothing but
some faults; and that the writing of an expression stops at nothing else than what
its own tokens give, at whatever depth they stand.
-/

namespace Restyle.Output

/-- The faults at which writing can stop: what a search among some tokens can meet,
and a macro whose runtime export cannot be named. -/
inductive Stops (scope : Scope) (tokens : List Token) : Fault → Prop where
  | search {fault : Fault}
      (fails : Use.Fails scope tokens fault) :
      Stops scope tokens fault
  | unnamed {spec : Spec}
      (isListed : spec ∈ scope.registry.specs)
      (notKey : ¬ spec.runtimeExport.isKey) :
      Stops scope tokens (.exportNotKey spec.name)

theorem Stops.of_subset
    {scope : Scope}
    {tokens others : List Token}
    {fault : Fault}
    (stops : Stops scope tokens fault)
    (subset : tokens ⊆ others) :
    Stops scope others fault := by
  cases stops with
  | search fails => exact .search (fails.of_subset subset)
  | unnamed isListed notKey => exact .unnamed isListed notKey

/-- In a complete scope writing stops at nothing but problems. -/
theorem Stops.problemAmong
    {scope : Scope}
    {tokens : List Token}
    {fault : Fault}
    (stops : Stops scope tokens fault)
    (complete : scope.Complete) :
    ProblemAmong tokens fault := by
  cases stops with
  | search fails => exact fails.problemAmong complete
  | unnamed isListed notKey => exact absurd (complete.isNamed _ isListed) notKey

/-- Whatever the scope, a problem at which writing stops is at one of the tokens. -/
theorem Stops.exists_token
    {scope : Scope}
    {tokens : List Token}
    {problem : Problem}
    {offset : Nat}
    (stops : Stops scope tokens (.problem problem offset)) :
    ∃ token ∈ tokens, token.start = offset := by
  cases stops with
  | search fails =>
    cases fails with
    | problem among =>
      obtain ⟨_, token, member, isFault⟩ := among
      exact ⟨token, member, (Fault.problem.inj isFault).2.symm⟩

/-! ## Computations -/

namespace Writer

/-- From whatever state, a computation gives a value or stops at one of some
faults. -/
def StopsAt {α : Type} (faults : Fault → Prop) (computation : Writer α) : Prop :=
  ∀ before, Within faults (fun _ => True) (ExceptT.run computation before).1

variable {α β : Type} {faults more : Fault → Prop}

theorem StopsAt.pure (value : α) : StopsAt faults (Pure.pure value) :=
  fun _ => .ok trivial

theorem StopsAt.throw {fault : Fault} (isOne : faults fault) :
    StopsAt faults (throw fault : Writer α) :=
  fun _ => .error isOne

theorem StopsAt.mono
    {computation : Writer α}
    (stops : StopsAt faults computation)
    (implies : ∀ fault, faults fault → more fault) :
    StopsAt more computation :=
  fun before => (stops before).mono implies

theorem StopsAt.bind
    {first : Writer α}
    {next : α → Writer β}
    (stops : StopsAt faults first)
    (later : ∀ value, StopsAt faults (next value)) :
    StopsAt faults (first >>= next) := by
  intro before
  have own := stops before
  rw [ExceptT.run_bind]
  simp only [Bind.bind, StateT.bind]
  generalize ExceptT.run first before = result at own
  obtain ⟨outcome, between⟩ := result
  cases outcome with
  | ok value => exact later value between
  | error fault => exact .error own.of_error

end Writer

open Writer

private theorem stopsAt_finish {faults : Fault → Prop} (output : Output) :
    StopsAt faults (finish output) :=
  fun _ => .ok trivial

section

variable {scope : Scope} {tokens : List Token}

private theorem stopsAt_requestAlias
    {spec : Spec}
    (isListed : spec ∈ scope.registry.specs)
    (frame : Frame) :
    StopsAt (Stops scope tokens) (requestAlias frame spec) := by
  unfold requestAlias
  split
  · exact fun _ => .ok trivial
  · rename_i notKey
    exact .throw (.unnamed isListed notKey)

/-- Whatever is written for an expression, by how it is entered, stops at nothing
but what some tokens give. -/
def Writes (scope : Scope) (tokens : List Token) (entry : Use.Entry) (span : Span) : Prop :=
  match entry with
  | .searched => ∀ frame, StopsAt (Stops scope tokens) (ofExpression frame (Plan.ofSpan scope span))
  | .hole => ∀ frame, StopsAt (Stops scope tokens) (ofPiece frame (Plan.ofHole scope span))

theorem Writes.of_subset
    {others : List Token}
    {entry : Use.Entry}
    {span : Span}
    (writes : Writes scope tokens entry span)
    (subset : tokens ⊆ others) :
    Writes scope others entry span := by
  cases entry with
  | searched => exact fun frame => (writes frame).mono fun _ stops => stops.of_subset subset
  | hole => exact fun frame => (writes frame).mono fun _ stops => stops.of_subset subset

private theorem stopsAt_ofPieces
    (frame : Frame)
    (parts : List Use.Part)
    (holes : ∀ span ∈ parts.filterMap Use.Part.hole?, Writes scope tokens .hole span) :
    StopsAt (Stops scope tokens) (ofPieces frame (parts.map (Plan.ofPart scope))) := by
  induction parts with
  | nil => exact .pure _
  | cons part parts inductionHypothesis =>
    cases part with
    | literal text =>
      apply StopsAt.bind (.pure _)
      intro first
      apply (inductionHypothesis fun span isHole => holes span isHole).bind
      intro others
      exact .pure _
    | hole span =>
      apply StopsAt.bind (holes span List.mem_cons_self frame)
      intro first
      apply (inductionHypothesis fun other isHole => holes other (List.mem_cons_of_mem _ isHole)).bind
      intro others
      exact .pure _

private theorem stopsAt_ofUse
    {use : Use}
    (described : use.Described scope)
    (entries : ∀ inner ∈ use.role.entries, Writes scope tokens inner.1 inner.2)
    (frame : Frame) :
    StopsAt (Stops scope tokens) (ofPlan frame (Plan.ofUse scope use)) := by
  rw [Plan.ofUse_eq]
  unfold Use.Described at described
  cases isRole : use.role with
  | passThrough spec => exact stopsAt_finish _
  | bareValue spec position =>
    have isListed := described spec (by rw [isRole]; rfl)
    apply (stopsAt_requestAlias isListed frame).bind
    intro name
    exact stopsAt_finish _
  | invocation spec receiver content =>
    rw [isRole] at entries
    have isListed := described spec (by rw [isRole]; rfl)
    apply (stopsAt_requestAlias isListed frame).bind
    intro name
    have inContent : StopsAt (Stops scope tokens)
        (ofPieces frame (Plan.ofContent scope content)) := by
      rw [Plan.ofContent_eq]
      apply stopsAt_ofPieces
      intro span isHole
      exact entries (.hole, span) (Use.Role.mem_entries_of_hole isHole)
    apply inContent.bind
    intro fragments
    have inReceiver : StopsAt (Stops scope tokens)
        (ofReceiver frame (Plan.ofReceiver scope receiver)) := by
      cases receiver with
      | direct => exact .pure _
      | member name => exact .pure _
      | factory argument =>
        have inArgument := entries (.searched, argument)
          (List.mem_append_left _ (List.mem_singleton.mpr rfl)) frame
        exact StopsAt.bind inArgument fun _ => .pure _
    apply inReceiver.bind
    intro applied
    exact stopsAt_finish _

theorem stopsAt_ofUses
    (frame : Frame)
    (uses : List Use)
    (described : Use.AllDescribed scope uses)
    (entries : ∀ use ∈ uses, ∀ inner ∈ use.role.entries, Writes scope tokens inner.1 inner.2) :
    StopsAt (Stops scope tokens) (ofPlans frame (uses.map (Plan.ofUse scope))) := by
  induction uses with
  | nil => exact .pure _
  | cons use uses inductionHypothesis =>
    obtain ⟨own, later⟩ := List.forall_mem_cons.mp described
    apply (stopsAt_ofUse own (entries use List.mem_cons_self) frame).bind
    intro output
    have others := inductionHypothesis later fun other isOther =>
      entries other (List.mem_cons_of_mem _ isOther)
    apply others.bind
    intro outputs
    exact .pure _

end

/-- What is written for the uses of a span stops at nothing but what its tokens
give, if that holds of what the uses hold. -/
theorem stopsAt_ofExpression
    {scope : Scope}
    {span : Span}
    (entries : ∀ uses, Use.scan scope span.tokens = .ok uses →
      ∀ use ∈ uses, ∀ inner ∈ use.role.entries,
        Writes scope (Token.everywhere span.tokens) inner.1 inner.2)
    (frame : Frame) :
    StopsAt (Stops scope (Token.everywhere span.tokens))
      (ofExpression frame (Plan.ofSpan scope span)) := by
  have searches := Use.searches_scan scope span.tokens
  cases scanned : Use.scan scope span.tokens with
  | error fault =>
    rw [scanned] at searches
    rw [Plan.ofSpan_of_fault span scanned]
    exact .throw (.search searches.of_error)
  | ok uses =>
    rw [scanned] at searches
    rw [Plan.ofSpan_of_scan span scanned]
    exact (stopsAt_ofUses frame uses searches.of_ok (entries uses scanned)).bind fun _ => .pure _

/-- The writing of an expression stops at nothing but what its tokens give. -/
theorem writes (scope : Scope) (entry : Use.Entry) (span : Span) :
    Writes scope (Token.everywhere span.tokens) entry span := by
  induction entry, span using Use.entry_induction scope with
  | step entry span inductionHypothesis =>
    -- What is held by a use that is found here is among the tokens here.
    have entries : ∀ uses, Use.foundIn scope entry span = .ok uses →
        ∀ use ∈ uses, ∀ inner ∈ use.role.entries,
          Writes scope (Token.everywhere span.tokens) inner.1 inner.2 :=
      fun uses found use isUse inner isInner =>
        (inductionHypothesis uses found use isUse inner isInner).of_subset
          (Use.everywhere_entry_subset found isUse isInner)
    cases entry with
    | searched => exact stopsAt_ofExpression entries
    | hole =>
      intro frame
      have searches := Use.within_nested? scope span
      cases isNested : Use.nested? scope span with
      | error fault =>
        rw [isNested] at searches
        rw [Plan.ofHole_of_fault isNested]
        exact .throw (.search (searches.of_error.of_subset (Token.subset_everywhere _)))
      | ok result =>
        cases result with
        | none =>
          rw [Plan.ofHole_of_not_nested? isNested]
          refine StopsAt.bind (stopsAt_ofExpression (fun uses scanned => ?_) frame)
            fun _ => .pure _
          refine entries uses ?_
          rw [Use.foundIn_hole_of_not_nested? isNested, scanned]
        | some nested =>
          obtain ⟨use, content⟩ := nested
          have found := Use.foundIn_hole_of_nested? isNested
          obtain ⟨spec, isRole, _⟩ := (Use.fills_of_nested? isNested).isDirect
          rw [Plan.ofHole_of_nested? isNested]
          show StopsAt _ (ofPieces frame (Plan.ofContent scope content))
          rw [Plan.ofContent_eq]
          apply stopsAt_ofPieces
          intro hole isHole
          apply entries [use] found use (List.mem_singleton.mpr rfl) (.hole, hole)
          rw [isRole]
          exact Use.Role.mem_entries_of_hole isHole

end Restyle.Output
