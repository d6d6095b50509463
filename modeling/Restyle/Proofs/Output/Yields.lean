import Restyle.Proofs.Output.Writing

/-!
Contract: what is written, as a derivation over the uses themselves.

Owns: `UseYields`, `UsesYield`, `PartsYield`, `SpanYields` and `ReceiverYields`,
one rule for each way in which a use, a part of content, an expression or a
receiver is written; `Kept`, by which a relation of states holds from before to
after whatever is written; that a plan written without a fault has a derivation.

Proofs about what is written go by induction on a derivation, or by `Kept`, and
open neither the plan nor the monad.
-/

namespace Restyle.Output

open Writer

/-- An alias is given only to an export that can be named. -/
theorem isKey_of_requestAlias
    {frame : Frame}
    {spec : Spec}
    {name : String}
    {before after : Progress}
    (gives : Gives (requestAlias frame spec) before name after) :
    spec.runtimeExport.isKey := by
  unfold requestAlias at gives
  split at gives
  · assumption
  · exact absurd gives not_gives_throw

def Progress.add (progress : Progress) (output : Output) : Progress :=
  { progress with outputs := progress.outputs ++ [output] }

def Progress.named (progress : Progress) (aliases : Aliases) : Progress :=
  { progress with aliases }

mutual

/-- A use is written: it takes one state to another and gives an output. -/
inductive UseYields (scope : Scope) (frame : Frame) :
    Use → Progress → Output → Progress → Prop where
  | passThrough {use : Use} {spec : Option Spec} {before : Progress} {output : Output}
      (isRole : use.role = .passThrough spec)
      (isOutput : output = ⟨use, Text.cut frame.source use.start use.stop, none, none⟩) :
      UseYields scope frame use before output (before.add output)
  | bareValue {use : Use} {spec : Spec} {position : Use.Position} {before : Progress}
      {name : String} {aliases : Aliases} {output : Output}
      (isRole : use.role = .bareValue spec position)
      (isKey : spec.runtimeExport.isKey)
      (asked : before.aliases.request frame.settings.aliasHead spec.runtimeExport =
        (name, aliases))
      (isOutput : output =
        ⟨use, referenceCode position use.binding.localName name, some name, none⟩) :
      UseYields scope frame use before output ((before.named aliases).add output)
  | invocation {use : Use} {spec : Spec} {receiver : Use.Receiver} {content : Use.Content}
      {before filled after : Progress} {name : String} {aliases : Aliases}
      {fragments : Fragments} {applied : Option String} {output : Output}
      (isRole : use.role = .invocation spec receiver content)
      (isKey : spec.runtimeExport.isKey)
      (asked : before.aliases.request frame.settings.aliasHead spec.runtimeExport =
        (name, aliases))
      (inContent : PartsYield scope frame content.parts (before.named aliases) fragments filled)
      (inReceiver : ReceiverYields scope frame receiver filled applied after)
      (isOutput : output =
        ⟨use, callCode frame use name applied fragments, some name, some fragments⟩) :
      UseYields scope frame use before output (after.add output)

/-- Uses are written from left to right. -/
inductive UsesYield (scope : Scope) (frame : Frame) :
    List Use → Progress → List Output → Progress → Prop where
  | nil {before : Progress} : UsesYield scope frame [] before [] before
  | cons {use : Use} {uses : List Use} {before middle after : Progress} {output : Output}
      {outputs : List Output}
      (first : UseYields scope frame use before output middle)
      (others : UsesYield scope frame uses middle outputs after) :
      UsesYield scope frame (use :: uses) before (output :: outputs) after

/-- The parts of content are written from left to right: a text stays, a hole is
spliced or becomes a slot. -/
inductive PartsYield (scope : Scope) (frame : Frame) :
    List Use.Part → Progress → Fragments → Progress → Prop where
  | nil {before : Progress} : PartsYield scope frame [] before .empty before
  | literal {text : String} {parts : List Use.Part} {before after : Progress}
      {fragments : Fragments}
      (others : PartsYield scope frame parts before fragments after) :
      PartsYield scope frame (.literal text :: parts) before (.literal text ++ fragments) after
  | splice {span : Span} {use : Use} {content : Use.Content} {parts : List Use.Part}
      {before middle after : Progress} {inner fragments : Fragments}
      (isNested : Use.nested? scope span = .ok (some (use, content)))
      (spliced : PartsYield scope frame content.parts before inner middle)
      (others : PartsYield scope frame parts middle fragments after) :
      PartsYield scope frame (.hole span :: parts) before (inner ++ fragments) after
  | slot {span : Span} {parts : List Use.Part} {before middle after : Progress}
      {code : String} {fragments : Fragments}
      (notNested : Use.nested? scope span = .ok none)
      (expression : SpanYields scope frame span before code middle)
      (others : PartsYield scope frame parts middle fragments after) :
      PartsYield scope frame (.hole span :: parts) before
        (.slot ⟨Text.strip code, span.tokens.head?.map (·.location)⟩ ++ fragments) after

/-- An expression is written: its uses are replaced in its text. -/
inductive SpanYields (scope : Scope) (frame : Frame) :
    Span → Progress → String → Progress → Prop where
  | searched {span : Span} {uses : List Use} {before after : Progress} {outputs : List Output}
      (scanned : Use.scan scope span.tokens = .ok uses)
      (written : UsesYield scope frame uses before outputs after) :
      SpanYields scope frame span before
        (Edit.applyAll (Text.cut frame.source span.start span.stop) (edits outputs) span.start)
        after

/-- What an invocation is applied to is written. -/
inductive ReceiverYields (scope : Scope) (frame : Frame) :
    Use.Receiver → Progress → Option String → Progress → Prop where
  | direct {before : Progress} : ReceiverYields scope frame .direct before none before
  | member {name : String} {before : Progress} :
      ReceiverYields scope frame (.member name) before (some (Text.quoted name)) before
  | factory {argument : Span} {before after : Progress} {code : String}
      (expression : SpanYields scope frame argument before code after) :
      ReceiverYields scope frame (.factory argument) before (some (Text.strip code)) after

end

/-! ## What every writing keeps -/

/-- A relation between a state and a later one that every writing keeps: it is a
preorder, and each rule for a use keeps it, with whatever is written inside. -/
structure Kept (scope : Scope) (frame : Frame) (relation : Progress → Progress → Prop) :
    Prop where
  refl (progress : Progress) : relation progress progress
  trans {before middle after : Progress}
    (first : relation before middle)
    (later : relation middle after) :
    relation before after
  passThrough {use : Use} {spec : Option Spec} {before : Progress} {output : Output}
    (isRole : use.role = .passThrough spec)
    (isOutput : output = ⟨use, Text.cut frame.source use.start use.stop, none, none⟩) :
    relation before (before.add output)
  bareValue {use : Use} {spec : Spec} {position : Use.Position} {before : Progress}
    {name : String} {aliases : Aliases} {output : Output}
    (isRole : use.role = .bareValue spec position)
    (isKey : spec.runtimeExport.isKey)
    (asked : before.aliases.request frame.settings.aliasHead spec.runtimeExport = (name, aliases))
    (isOutput : output =
      ⟨use, referenceCode position use.binding.localName name, some name, none⟩) :
    relation before ((before.named aliases).add output)
  invocation {use : Use} {spec : Spec} {receiver : Use.Receiver} {content : Use.Content}
    {before filled after : Progress} {name : String} {aliases : Aliases}
    {fragments : Fragments} {applied : Option String} {output : Output}
    (isRole : use.role = .invocation spec receiver content)
    (isKey : spec.runtimeExport.isKey)
    (asked : before.aliases.request frame.settings.aliasHead spec.runtimeExport = (name, aliases))
    (inContent : PartsYield scope frame content.parts (before.named aliases) fragments filled)
    (isOutput : output =
      ⟨use, callCode frame use name applied fragments, some name, some fragments⟩)
    (inside : relation (before.named aliases) after) :
    relation before (after.add output)

section Kept

variable
  {scope : Scope}
  {frame : Frame}
  {relation : Progress → Progress → Prop}

mutual

theorem UseYields.relates
    {use : Use}
    {before after : Progress}
    {output : Output}
    (yields : UseYields scope frame use before output after)
    (kept : Kept scope frame relation) :
    relation before after :=
  match yields with
  | .passThrough isRole isOutput => kept.passThrough isRole isOutput
  | .bareValue isRole isKey asked isOutput => kept.bareValue isRole isKey asked isOutput
  | .invocation isRole isKey asked inContent inReceiver isOutput =>
    kept.invocation isRole isKey asked inContent isOutput
      (kept.trans (inContent.relates kept) (inReceiver.relates kept))

theorem UsesYield.relates
    {uses : List Use}
    {before after : Progress}
    {outputs : List Output}
    (yields : UsesYield scope frame uses before outputs after)
    (kept : Kept scope frame relation) :
    relation before after :=
  match yields with
  | .nil => kept.refl _
  | .cons first others => kept.trans (first.relates kept) (others.relates kept)

theorem PartsYield.relates
    {parts : List Use.Part}
    {before after : Progress}
    {fragments : Fragments}
    (yields : PartsYield scope frame parts before fragments after)
    (kept : Kept scope frame relation) :
    relation before after :=
  match yields with
  | .nil => kept.refl _
  | .literal others => others.relates kept
  | .splice _ spliced others => kept.trans (spliced.relates kept) (others.relates kept)
  | .slot _ expression others => kept.trans (expression.relates kept) (others.relates kept)

theorem SpanYields.relates
    {span : Span}
    {before after : Progress}
    {code : String}
    (yields : SpanYields scope frame span before code after)
    (kept : Kept scope frame relation) :
    relation before after :=
  match yields with
  | .searched _ written => written.relates kept

theorem ReceiverYields.relates
    {receiver : Use.Receiver}
    {before after : Progress}
    {applied : Option String}
    (yields : ReceiverYields scope frame receiver before applied after)
    (kept : Kept scope frame relation) :
    relation before after :=
  match yields with
  | .direct => kept.refl _
  | .member => kept.refl _
  | .factory expression => expression.relates kept

end

end Kept

/-! ## Derivations of what is written -/

/-- Whatever is written for an expression, by how it is entered, has a
derivation. -/
def Derives (scope : Scope) (entry : Use.Entry) (span : Span) : Prop :=
  match entry with
  | .searched => ∀ frame before code after,
      Gives (ofExpression frame (Plan.ofSpan scope span)) before code after →
        SpanYields scope frame span before code after
  | .hole => ∀ frame before fragments after,
      Gives (ofPiece frame (Plan.ofHole scope span)) before fragments after →
        ∀ parts others last, PartsYield scope frame parts after others last →
          PartsYield scope frame (.hole span :: parts) before (fragments ++ others) last

theorem partsYield_of_gives
    {scope : Scope}
    {frame : Frame}
    {before after : Progress}
    {fragments : Fragments}
    (parts : List Use.Part)
    (holes : ∀ span ∈ parts.filterMap Use.Part.hole?, Derives scope .hole span)
    (gives : Gives (ofPieces frame (parts.map (Plan.ofPart scope))) before fragments after) :
    PartsYield scope frame parts before fragments after := by
  induction parts generalizing before fragments with
  | nil =>
    obtain ⟨rfl, rfl⟩ := gives.of_pure
    exact .nil
  | cons part parts inductionHypothesis =>
    obtain ⟨first, between, isFirst, isRest⟩ := gives.of_bind
    obtain ⟨others, last, isOthers, isRest⟩ := isRest.of_bind
    obtain ⟨rfl, rfl⟩ := isRest.of_pure
    cases part with
    | literal text =>
      obtain ⟨rfl, rfl⟩ := isFirst.of_pure
      exact .literal (inductionHypothesis (fun span isHole => holes span isHole) isOthers)
    | hole span =>
      have later := inductionHypothesis
        (fun other isHole => holes other (List.mem_cons_of_mem _ isHole)) isOthers
      exact holes span List.mem_cons_self frame before first between isFirst _ _ _ later

private theorem useYields_of_gives
    {scope : Scope}
    {frame : Frame}
    {before after : Progress}
    {output : Output}
    {use : Use}
    (entries : ∀ inner ∈ use.role.entries, Derives scope inner.1 inner.2)
    (gives : Gives (ofPlan frame (Plan.ofUse scope use)) before output after) :
    UseYields scope frame use before output after := by
  rw [Plan.ofUse_eq] at gives
  cases isRole : use.role with
  | passThrough spec =>
    rw [isRole] at gives
    obtain ⟨isOutput, rfl⟩ := gives_finish gives
    rw [← isOutput]
    exact .passThrough isRole isOutput
  | bareValue spec position =>
    rw [isRole] at gives
    obtain ⟨name, asked, isAlias, isRest⟩ := gives.of_bind
    obtain ⟨isOutput, rfl⟩ := gives_finish isRest
    obtain ⟨asks, same⟩ := gives_requestAlias isAlias
    rw [← isOutput, same]
    exact .bareValue isRole (isKey_of_requestAlias isAlias) asks isOutput
  | invocation spec receiver content =>
    rw [isRole] at gives entries
    obtain ⟨name, asked, isAlias, isRest⟩ := gives.of_bind
    obtain ⟨fragments, filled, isContent, isRest⟩ := isRest.of_bind
    obtain ⟨applied, ready, isReceiver, isRest⟩ := isRest.of_bind
    obtain ⟨isOutput, rfl⟩ := gives_finish isRest
    obtain ⟨asks, same⟩ := gives_requestAlias isAlias
    have isAsked : asked = before.named asked.aliases := by
      rw [Progress.named, ← same]
    rw [Plan.ofContent_eq] at isContent
    have inContent := partsYield_of_gives content.parts
      (fun span isHole => entries (.hole, span) (Use.Role.mem_entries_of_hole isHole)) isContent
    have inReceiver : ReceiverYields scope frame receiver filled applied ready := by
      cases receiver with
      | direct =>
        obtain ⟨rfl, rfl⟩ := isReceiver.of_pure
        exact .direct
      | member name =>
        obtain ⟨rfl, rfl⟩ := isReceiver.of_pure
        exact .member
      | factory argument =>
        obtain ⟨code, between, isArgument, isRest⟩ := isReceiver.of_bind
        obtain ⟨rfl, rfl⟩ := isRest.of_pure
        exact .factory (entries (.searched, argument)
          (List.mem_append_left _ (List.mem_singleton.mpr rfl)) frame filled code _ isArgument)
    rw [isAsked] at inContent
    rw [← isOutput]
    exact .invocation isRole (isKey_of_requestAlias isAlias) asks inContent inReceiver isOutput

private theorem usesYield_of_entries
    {scope : Scope}
    {frame : Frame}
    {before after : Progress}
    {outputs : List Output}
    (uses : List Use)
    (entries : ∀ use ∈ uses, ∀ inner ∈ use.role.entries, Derives scope inner.1 inner.2)
    (gives : Gives (ofPlans frame (uses.map (Plan.ofUse scope))) before outputs after) :
    UsesYield scope frame uses before outputs after := by
  induction uses generalizing before outputs with
  | nil =>
    obtain ⟨rfl, rfl⟩ := gives.of_pure
    exact .nil
  | cons use uses inductionHypothesis =>
    obtain ⟨output, between, isFirst, isRest⟩ := gives.of_bind
    obtain ⟨others, last, isOthers, isRest⟩ := isRest.of_bind
    obtain ⟨rfl, rfl⟩ := isRest.of_pure
    have own := useYields_of_gives (entries use List.mem_cons_self) isFirst
    have later := inductionHypothesis
      (fun other isOther => entries other (List.mem_cons_of_mem _ isOther)) isOthers
    exact .cons own later

/-- Whatever is written for an expression has a derivation. -/
theorem derives (scope : Scope) (entry : Use.Entry) (span : Span) :
    Derives scope entry span := by
  induction entry, span using Use.entry_induction scope with
  | step entry span inductionHypothesis =>
    have searched : ∀ frame before code after,
        (∀ uses, Use.scan scope span.tokens = .ok uses →
          Use.foundIn scope entry span = .ok uses) →
        Gives (ofExpression frame (Plan.ofSpan scope span)) before code after →
        SpanYields scope frame span before code after := by
      intro frame before code after found gives
      cases scanned : Use.scan scope span.tokens with
      | error fault =>
        rw [Plan.ofSpan_of_fault span scanned] at gives
        exact absurd gives not_gives_throw
      | ok uses =>
        rw [Plan.ofSpan_of_scan span scanned] at gives
        obtain ⟨outputs, between, isOutputs, isRest⟩ := gives.of_bind
        obtain ⟨rfl, rfl⟩ := isRest.of_pure
        have entries := inductionHypothesis uses (found uses scanned)
        exact .searched scanned (usesYield_of_entries uses entries isOutputs)
    cases entry with
    | searched =>
      intro frame before code after gives
      exact searched frame before code after (fun uses scanned => scanned) gives
    | hole =>
      intro frame before fragments after gives parts others last later
      cases isNested : Use.nested? scope span with
      | error fault =>
        rw [Plan.ofHole_of_fault isNested] at gives
        exact absurd gives not_gives_throw
      | ok result =>
        cases result with
        | none =>
          rw [Plan.ofHole_of_not_nested? isNested] at gives
          obtain ⟨code, between, isCode, isRest⟩ := gives.of_bind
          obtain ⟨rfl, rfl⟩ := isRest.of_pure
          refine .slot isNested (searched frame before code _ ?_ isCode) later
          intro uses scanned
          rw [Use.foundIn_hole_of_not_nested? isNested, scanned]
        | some nested =>
          obtain ⟨use, content⟩ := nested
          have found := Use.foundIn_hole_of_nested? isNested
          obtain ⟨spec, isRole, _⟩ := (Use.fills_of_nested? isNested).isDirect
          rw [Plan.ofHole_of_nested? isNested] at gives
          change Gives (ofPieces frame (Plan.ofContent scope content)) _ _ _ at gives
          rw [Plan.ofContent_eq] at gives
          refine .splice isNested (partsYield_of_gives content.parts ?_ gives) later
          intro hole isHole
          apply inductionHypothesis [use] found use (List.mem_singleton.mpr rfl) (.hole, hole)
          rw [isRole]
          exact Use.Role.mem_entries_of_hole isHole

/-- Uses that are written without a fault have a derivation. -/
theorem usesYield_of_gives
    {scope : Scope}
    {frame : Frame}
    {before after : Progress}
    {outputs : List Output}
    {uses : List Use}
    (gives : Gives (ofPlans frame (uses.map (Plan.ofUse scope))) before outputs after) :
    UsesYield scope frame uses before outputs after :=
  usesYield_of_entries uses (fun _ _ inner _ => derives scope inner.1 inner.2) gives

end Restyle.Output
