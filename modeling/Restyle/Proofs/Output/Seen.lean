import Restyle.Output

/-!
Contract: what of an output depends on its code.

Owns: `Output.seen`, an output of whose code only a part is seen, and `Output.View`, what
can be seen of code in two frames so that what is seen of a whole depends on what is seen
of its parts alone; `Writer.Alike`, two computations that cannot be told apart so; and that
the writings of a plan in two frames are alike in every view of them.

Two views are of use: in one no code is seen, and in the other, which frames with the same
metadata have, all of it is.
-/

namespace Restyle

/-! ## What is seen -/

/-- A slot of whose expression a part is seen. -/
def Slot.seen (see : String → String) (slot : Slot) : Slot :=
  { slot with expression := see slot.expression }

namespace Fragments

/-- Fragments of whose expressions a part is seen; their texts are. -/
def seen (see : String → String) (fragments : Fragments) : Fragments :=
  ⟨fragments.lead, fragments.rest.map fun (slot, text) => (slot.seen see, text)⟩

@[simp]
theorem seen_id (fragments : Fragments) : fragments.seen id = fragments := by
  have same : (fun part : Slot × String => (part.1.seen id, part.2)) = id := rfl
  simp [seen, same]

private theorem seen_append (see : String → String) (fragments other : Fragments) :
    (fragments ++ other).seen see = fragments.seen see ++ other.seen see := by
  obtain ⟨lead, rest⟩ := fragments
  change (appendRest lead rest other).seen see =
    appendRest lead (rest.map fun (slot, text) => (slot.seen see, text)) (other.seen see)
  induction rest generalizing lead with
  | nil => rfl
  | cons part rest inductionHypothesis =>
    obtain ⟨slot, text⟩ := part
    have later := inductionHypothesis text
    simp only [List.map_cons, appendRest, ← later]
    rfl

end Fragments

namespace Output

/-- An output of whose code a part is seen. -/
def seen (see : String → String) (output : Output) : Output :=
  { output with code := see output.code, fragments := output.fragments.map (·.seen see) }

@[simp]
theorem seen_id : Output.seen id = id := by
  funext ⟨use, code, alias?, fragments⟩
  cases fragments <;> simp [seen]

/-- A state of whose outputs' code a part is seen. -/
def Progress.seen (see : String → String) (progress : Progress) : Progress :=
  { progress with outputs := progress.outputs.map (Output.seen see) }

@[simp]
theorem Progress.seen_id (progress : Progress) : progress.seen id = progress := by
  simp [Progress.seen]

/-- States are seen alike if their aliases are the same and their outputs are seen alike. -/
theorem Progress.seen_eq_iff {see : String → String} {progress other : Progress} :
    progress.seen see = other.seen see ↔
      progress.aliases = other.aliases ∧
        progress.outputs.map (Output.seen see) = other.outputs.map (Output.seen see) := by
  simp [Progress.seen]

/-! ## Computations that are alike -/

namespace Writer

/-- From states that are seen alike, two computations stop at the same fault or give values
that are seen alike, and lead to states that are. -/
def Alike {α β : Type} (see : String → String) (view : α → β) (first second : Writer α) : Prop :=
  ∀ before other : Progress, before.seen see = other.seen see →
    (ExceptT.run first before).1.map view = (ExceptT.run second other).1.map view ∧
      (ExceptT.run first before).2.seen see = (ExceptT.run second other).2.seen see

section Alike

variable
  {α β γ δ : Type}
  {see : String → String}
  {view : α → γ}
  {further : β → δ}

theorem Alike.pure {value other : α} (same : view value = view other) :
    Alike see view (Pure.pure value) (Pure.pure other) :=
  fun _ _ sameState => ⟨congrArg Except.ok same, sameState⟩

theorem alike_throw (fault : Fault) : Alike see view (throw fault) (throw fault) :=
  fun _ _ sameState => ⟨rfl, sameState⟩

theorem Alike.bind
    {first second : Writer α}
    {next otherNext : α → Writer β}
    (alike : Alike see view first second)
    (later : ∀ value other, view value = view other →
      Alike see further (next value) (otherNext other)) :
    Alike see further (first >>= next) (second >>= otherNext) := by
  intro before other sameState
  have same := alike before other sameState
  rw [ExceptT.run_bind, ExceptT.run_bind]
  simp only [Bind.bind, StateT.bind]
  generalize ExceptT.run first before = ran at same ⊢
  generalize ExceptT.run second other = otherRan at same ⊢
  obtain ⟨result, between⟩ := ran
  obtain ⟨otherResult, otherBetween⟩ := otherRan
  obtain ⟨sameResult, sameBetween⟩ := same
  cases result with
  | error fault =>
    cases otherResult with
    | error otherFault =>
      obtain rfl := Except.error.inj sameResult
      exact ⟨rfl, sameBetween⟩
    | ok value => exact nomatch sameResult
  | ok value =>
    cases otherResult with
    | error fault => exact nomatch sameResult
    | ok otherValue =>
      exact later value otherValue (Except.ok.inj sameResult) between otherBetween sameBetween

end Alike

private theorem alike_finish
    {see : String → String}
    {output other : Output}
    (same : output.seen see = other.seen see) :
    Alike see (Output.seen see) (finish output) (finish other) := by
  intro before otherBefore sameState
  obtain ⟨sameAliases, sameOutputs⟩ := Progress.seen_eq_iff.mp sameState
  refine ⟨congrArg Except.ok same, Progress.seen_eq_iff.mpr ⟨sameAliases, ?_⟩⟩
  change (before.outputs ++ [output]).map _ = (otherBefore.outputs ++ [other]).map _
  rw [List.map_append, List.map_append, sameOutputs, List.map_singleton, List.map_singleton, same]

private theorem alike_requestAlias
    {see : String → String}
    {one other : Frame}
    (sameHead : one.settings.aliasHead = other.settings.aliasHead)
    (spec : Spec) :
    Alike see id (requestAlias one spec) (requestAlias other spec) := by
  unfold requestAlias
  split
  · intro before otherBefore sameState
    obtain ⟨sameAliases, sameOutputs⟩ := Progress.seen_eq_iff.mp sameState
    have sameRequest : before.aliases.request one.settings.aliasHead spec.runtimeExport =
        otherBefore.aliases.request other.settings.aliasHead spec.runtimeExport := by
      rw [sameAliases, sameHead]
    exact ⟨congrArg Except.ok (congrArg Prod.fst sameRequest),
      Progress.seen_eq_iff.mpr ⟨congrArg Prod.snd sameRequest, sameOutputs⟩⟩
  · exact alike_throw _

end Writer

open Writer

/-! ## Views -/

/-- What can be seen of code in two frames of one text and one head for aliases: what is
seen of a call, of a stripped text and of a text with replaced uses depends on what is seen
of the parts alone. -/
structure View (one other : Frame) where
  see : String → String
  sameSource : one.source = other.source
  sameHead : one.settings.aliasHead = other.settings.aliasHead
  call : ∀ use aliasName {applied otherApplied : Option String}
    {fragments otherFragments : Fragments}, applied.map see = otherApplied.map see →
    fragments.seen see = otherFragments.seen see →
      see (callCode one use aliasName applied fragments) =
        see (callCode other use aliasName otherApplied otherFragments)
  strip : ∀ {code otherCode}, see code = see otherCode →
    see (Text.strip code) = see (Text.strip otherCode)
  replace : ∀ text start {outputs others : List Output},
    outputs.map (Output.seen see) = others.map (Output.seen see) →
      see (Edit.applyAll text (edits outputs) start) = see (Edit.applyAll text (edits others) start)

section Views

variable
  {one other : Frame}
  (sameSource : one.source = other.source)
  (sameHead : one.settings.aliasHead = other.settings.aliasHead)

/-- The view in which no code is seen. -/
def View.hidden : View one other where
  see _ := ""
  sameSource := sameSource
  sameHead := sameHead
  call _ _ _ _ _ _ _ _ := rfl
  strip _ := rfl
  replace _ _ _ _ _ := rfl

/-- The view in which all code is seen, of two frames with the same metadata. -/
def View.full (sameMetadata : ∀ use, metadata? one use = metadata? other use) : View one other where
  see := id
  sameSource := sameSource
  sameHead := sameHead
  call use aliasName applied otherApplied fragments otherFragments sameApplied sameFragments := by
    obtain rfl : applied = otherApplied := by simpa using sameApplied
    obtain rfl : fragments = otherFragments := by simpa using sameFragments
    simp only [callCode, sameMetadata]
  strip same := congrArg Text.strip same
  replace text start outputs others same := by
    obtain rfl : outputs = others := by simpa using same
    rfl

end Views

/-! ## Plans -/

mutual

private theorem alike_ofPlan {one other : Frame} (view : View one other) (plan : Plan) :
    Alike view.see (Output.seen view.see) (ofPlan one plan) (ofPlan other plan) :=
  match plan with
  | .passThrough use => by
    rw [ofPlan, ofPlan, view.sameSource]
    exact alike_finish rfl
  | .bareValue use spec position => by
    rw [ofPlan, ofPlan]
    refine (alike_requestAlias view.sameHead spec).bind fun name otherName same => ?_
    obtain rfl : name = otherName := same
    exact alike_finish rfl
  | .invocation use spec receiver pieces => by
    rw [ofPlan, ofPlan]
    refine (alike_requestAlias view.sameHead spec).bind fun name otherName same => ?_
    obtain rfl : name = otherName := same
    refine (alike_ofPieces view pieces).bind fun fragments otherFragments sameFragments => ?_
    refine (alike_ofReceiver view receiver).bind fun applied otherApplied sameApplied => ?_
    refine alike_finish ?_
    simp only [seen, Option.map_some, sameFragments, view.call use name sameApplied sameFragments]

theorem alike_ofPlans {one other : Frame} (view : View one other) (plans : List Plan) :
    Alike view.see (List.map (Output.seen view.see)) (ofPlans one plans) (ofPlans other plans) :=
  match plans with
  | [] => by
    rw [ofPlans, ofPlans]
    exact .pure rfl
  | plan :: rest => by
    rw [ofPlans, ofPlans]
    refine (alike_ofPlan view plan).bind fun output otherOutput sameOutput => ?_
    refine (alike_ofPlans view rest).bind fun outputs others sameOthers => ?_
    refine .pure ?_
    rw [List.map_cons, List.map_cons, sameOutput, sameOthers]

private theorem alike_ofReceiver
    {one other : Frame}
    (view : View one other)
    (receiver : Plan.Receiver) :
    Alike view.see (Option.map view.see) (ofReceiver one receiver) (ofReceiver other receiver) :=
  match receiver with
  | .direct => by
    rw [ofReceiver, ofReceiver]
    exact .pure rfl
  | .member name => by
    rw [ofReceiver, ofReceiver]
    exact .pure rfl
  | .factory argument => by
    rw [ofReceiver, ofReceiver]
    refine (alike_ofExpression view argument).bind fun code otherCode sameCode => ?_
    exact .pure (congrArg some (view.strip sameCode))

private theorem alike_ofPieces
    {one other : Frame}
    (view : View one other)
    (pieces : List Plan.Piece) :
    Alike view.see (Fragments.seen view.see) (ofPieces one pieces) (ofPieces other pieces) :=
  match pieces with
  | [] => by
    rw [ofPieces, ofPieces]
    exact .pure rfl
  | piece :: rest => by
    rw [ofPieces, ofPieces]
    refine (alike_ofPiece view piece).bind fun fragments otherFragments sameFragments => ?_
    refine (alike_ofPieces view rest).bind fun later otherLater sameLater => ?_
    refine .pure ?_
    rw [Fragments.seen_append, Fragments.seen_append, sameFragments, sameLater]

private theorem alike_ofPiece {one other : Frame} (view : View one other) (piece : Plan.Piece) :
    Alike view.see (Fragments.seen view.see) (ofPiece one piece) (ofPiece other piece) :=
  match piece with
  | .literal text => by
    rw [ofPiece, ofPiece]
    exact .pure rfl
  | .splice _ pieces => by
    rw [ofPiece, ofPiece]
    exact alike_ofPieces view pieces
  | .slot location expression => by
    rw [ofPiece, ofPiece]
    refine (alike_ofExpression view expression).bind fun code otherCode sameCode => ?_
    refine .pure ?_
    simp only [Fragments.slot, Fragments.seen, List.map_cons, Slot.seen, view.strip sameCode]
  | .fault fault => by
    rw [ofPiece, ofPiece]
    exact alike_throw fault

private theorem alike_ofExpression
    {one other : Frame}
    (view : View one other)
    (expression : Plan.Expression) :
    Alike view.see view.see (ofExpression one expression) (ofExpression other expression) :=
  match expression with
  | .fault fault => by
    rw [ofExpression, ofExpression]
    exact alike_throw fault
  | .span start stop plans => by
    rw [ofExpression, ofExpression, view.sameSource]
    refine (alike_ofPlans view plans).bind fun outputs others same => ?_
    exact .pure (view.replace _ start same)

end

end Output

end Restyle
