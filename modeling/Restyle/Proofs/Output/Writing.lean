import Restyle.Output
import Restyle.Proofs.Plan.Trace

/-!
Contract: what the writing of a plan does.

Owns: `Writer.Gives`, a computation that succeeds between two states, with its
inversions; that a plan written without a fault finishes the uses of its trace,
in that order.

Proofs about writing take a computation apart with these inversions and never
open the monad.
-/

namespace Restyle.Output

namespace Writer

/-- A computation succeeds with a value and takes one state to another. -/
def Gives {α : Type} (computation : Writer α) (before : Progress) (value : α)
    (after : Progress) : Prop :=
  ExceptT.run computation before = (.ok value, after)

theorem exists_gives
    {α : Type}
    {computation : Writer α}
    {before : Progress}
    {value : α}
    (succeeds : (ExceptT.run computation before).1 = .ok value) :
    ∃ after, Gives computation before value after ∧
      after = (ExceptT.run computation before).2 :=
  ⟨_, Prod.ext succeeds rfl, rfl⟩

theorem Gives.of_bind
    {α β : Type}
    {first : Writer α}
    {next : α → Writer β}
    {before after : Progress}
    {value : β}
    (gives : Gives (first >>= next) before value after) :
    ∃ middle between, Gives first before middle between ∧
      Gives (next middle) between value after := by
  unfold Gives at gives ⊢
  rw [ExceptT.run_bind] at gives
  simp only [bind, StateT.bind] at gives
  rcases isFirst : ExceptT.run first before with ⟨result, between⟩
  rw [isFirst] at gives
  cases result with
  | error fault => exact nomatch congrArg Prod.fst gives
  | ok middle => exact ⟨middle, between, rfl, gives⟩

theorem Gives.of_pure
    {α : Type}
    {before after : Progress}
    {value result : α}
    (gives : Gives (pure value) before result after) :
    result = value ∧ after = before := by
  simp only [Gives, ExceptT.run_pure] at gives
  change (Except.ok value, before) = (Except.ok result, after) at gives
  simp only [Prod.mk.injEq, Except.ok.injEq] at gives
  exact ⟨gives.1.symm, gives.2.symm⟩

theorem not_gives_throw
    {α : Type}
    {fault : Fault}
    {before after : Progress}
    {value : α} :
    ¬ Gives (throw fault) before value after := by
  intro gives
  simp only [Gives, ExceptT.run_throw] at gives
  change (Except.error fault, before) = (Except.ok value, after) at gives
  simp at gives

end Writer

open Writer

/-! ## Steps -/

theorem gives_finish
    {output result : Output}
    {before after : Progress}
    (gives : Gives (finish output) before result after) :
    result = output ∧ after = { before with outputs := before.outputs ++ [output] } := by
  simp only [Gives, finish] at gives
  change (Except.ok output, { before with outputs := before.outputs ++ [output] }) =
    (Except.ok result, after) at gives
  simp only [Prod.mk.injEq, Except.ok.injEq] at gives
  exact ⟨gives.1.symm, gives.2.symm⟩

theorem gives_requestAlias
    {frame : Frame}
    {spec : Spec}
    {name : String}
    {before after : Progress}
    (gives : Gives (requestAlias frame spec) before name after) :
    before.aliases.request frame.settings.aliasHead spec.runtimeExport = (name, after.aliases) ∧
      after.outputs = before.outputs := by
  unfold requestAlias at gives
  split at gives
  · change (Except.ok (before.aliases.request frame.settings.aliasHead spec.runtimeExport).1,
      { before with aliases :=
        (before.aliases.request frame.settings.aliasHead spec.runtimeExport).2 }) =
      (Except.ok name, after) at gives
    simp only [Prod.mk.injEq, Except.ok.injEq] at gives
    rw [← gives.2, ← gives.1]
    exact ⟨rfl, rfl⟩
  · exact absurd gives not_gives_throw

/-! ## Outputs -/

/-- The outputs between two states are those of the uses of a trace. -/
def Wrote (before after : Progress) (trace : Except Fault (List Use)) : Prop :=
  ∃ made : List Output, after.outputs = before.outputs ++ made ∧
    trace = .ok (made.map (·.use))

theorem Wrote.nothing
    {before after : Progress}
    (same : after.outputs = before.outputs) :
    Wrote before after (.ok []) :=
  ⟨[], by simp [same], rfl⟩

theorem Wrote.append
    {before middle after : Progress}
    {first others : Except Fault (List Use)}
    (wroteFirst : Wrote before middle first)
    (wroteOthers : Wrote middle after others) :
    Wrote before after (do return (← first) ++ (← others)) := by
  obtain ⟨made, isMade, rfl⟩ := wroteFirst
  obtain ⟨more, isMore, rfl⟩ := wroteOthers
  exact ⟨made ++ more, by simp [isMore, isMade], by simp [bind, Except.bind, pure, Except.pure]⟩

theorem Wrote.subset
    {before after : Progress}
    {trace : Except Fault (List Use)}
    (wrote : Wrote before after trace) :
    before.outputs ⊆ after.outputs := by
  obtain ⟨made, isMade, _⟩ := wrote
  rw [isMade]
  exact List.subset_append_left _ _

mutual

private theorem wrote_ofPlan
    {frame : Frame}
    {before after : Progress}
    {output : Output}
    (plan : Plan)
    (gives : Gives (ofPlan frame plan) before output after) :
    Wrote before after plan.trace ∧ output.use = plan.use ∧ output ∈ after.outputs :=
  match plan with
  | .passThrough use => by
    obtain ⟨isOutput, isAfter⟩ := gives_finish gives
    rw [← isOutput] at isAfter
    have isUse : output.use = use := by rw [isOutput]
    exact ⟨⟨[output], by rw [isAfter], by simp [Plan.trace, isUse]⟩, isUse, by simp [isAfter]⟩
  | .bareValue use spec position => by
    obtain ⟨name, asked, isAlias, isRest⟩ := gives.of_bind
    obtain ⟨isOutput, isAfter⟩ := gives_finish isRest
    rw [← isOutput] at isAfter
    have isUse : output.use = use := by rw [isOutput]
    refine ⟨⟨[output], ?_, by simp [Plan.trace, isUse]⟩, isUse, by simp [isAfter]⟩
    rw [isAfter, (gives_requestAlias isAlias).2]
  | .invocation use spec receiver pieces => by
    obtain ⟨name, asked, isAlias, isRest⟩ := gives.of_bind
    obtain ⟨fragments, filled, isContent, isRest⟩ := isRest.of_bind
    obtain ⟨applied, ready, isReceiver, isRest⟩ := isRest.of_bind
    obtain ⟨isOutput, isAfter⟩ := gives_finish isRest
    rw [← isOutput] at isAfter
    have isUse : output.use = use := by rw [isOutput]
    obtain ⟨inContent, isInContent, contentTrace⟩ := wrote_ofPieces pieces isContent
    obtain ⟨inReceiver, isInReceiver, receiverTrace⟩ := wrote_ofReceiver receiver isReceiver
    refine ⟨⟨inContent ++ inReceiver ++ [output], ?_, ?_⟩, isUse, by simp [isAfter]⟩
    · simp only [isAfter, isInReceiver, isInContent, (gives_requestAlias isAlias).2,
        List.append_assoc]
    · simp [Plan.trace, contentTrace, receiverTrace, isUse, bind, Except.bind, pure, Except.pure]

theorem wrote_ofPlans
    {frame : Frame}
    {before after : Progress}
    {outputs : List Output}
    (plans : List Plan)
    (gives : Gives (ofPlans frame plans) before outputs after) :
    Wrote before after (Plan.plansTrace plans) ∧ outputs.map (·.use) = plans.map (·.use) ∧
      outputs ⊆ after.outputs :=
  match plans with
  | [] => by
    obtain ⟨rfl, rfl⟩ := gives.of_pure
    exact ⟨.nothing rfl, rfl, List.nil_subset _⟩
  | plan :: rest => by
    obtain ⟨output, between, isFirst, isRest⟩ := gives.of_bind
    obtain ⟨others, last, isOthers, isRest⟩ := isRest.of_bind
    obtain ⟨rfl, rfl⟩ := isRest.of_pure
    obtain ⟨wroteFirst, isUse, isKept⟩ := wrote_ofPlan plan isFirst
    obtain ⟨wroteOthers, areUses, areKept⟩ := wrote_ofPlans rest isOthers
    refine ⟨wroteFirst.append wroteOthers, by rw [List.map_cons, List.map_cons, isUse, areUses], ?_⟩
    exact List.cons_subset.mpr ⟨wroteOthers.subset isKept, areKept⟩

private theorem wrote_ofReceiver
    {frame : Frame}
    {before after : Progress}
    {applied : Option String}
    (receiver : Plan.Receiver)
    (gives : Gives (ofReceiver frame receiver) before applied after) :
    Wrote before after receiver.trace :=
  match receiver with
  | .direct => .nothing (by rw [gives.of_pure.2])
  | .member _ => .nothing (by rw [gives.of_pure.2])
  | .factory argument => by
    obtain ⟨code, between, isArgument, isRest⟩ := gives.of_bind
    rw [isRest.of_pure.2]
    exact wrote_ofExpression argument isArgument

theorem wrote_ofPieces
    {frame : Frame}
    {before after : Progress}
    {fragments : Fragments}
    (pieces : List Plan.Piece)
    (gives : Gives (ofPieces frame pieces) before fragments after) :
    Wrote before after (Plan.piecesTrace pieces) :=
  match pieces with
  | [] => .nothing (by rw [gives.of_pure.2])
  | piece :: rest => by
    obtain ⟨first, between, isFirst, isRest⟩ := gives.of_bind
    obtain ⟨others, last, isOthers, isRest⟩ := isRest.of_bind
    rw [isRest.of_pure.2]
    exact (wrote_ofPiece piece isFirst).append (wrote_ofPieces rest isOthers)

private theorem wrote_ofPiece
    {frame : Frame}
    {before after : Progress}
    {fragments : Fragments}
    (piece : Plan.Piece)
    (gives : Gives (ofPiece frame piece) before fragments after) :
    Wrote before after piece.trace :=
  match piece with
  | .literal _ => .nothing (by rw [gives.of_pure.2])
  | .splice _ pieces => wrote_ofPieces pieces gives
  | .slot _ expression => by
    obtain ⟨code, between, isExpression, isRest⟩ := gives.of_bind
    rw [isRest.of_pure.2]
    exact wrote_ofExpression expression isExpression
  | .fault _ => absurd gives not_gives_throw

private theorem wrote_ofExpression
    {frame : Frame}
    {before after : Progress}
    {code : String}
    (expression : Plan.Expression)
    (gives : Gives (ofExpression frame expression) before code after) :
    Wrote before after expression.trace :=
  match expression with
  | .fault _ => absurd gives not_gives_throw
  | .span _ _ plans => by
    obtain ⟨outputs, between, isOutputs, isRest⟩ := gives.of_bind
    rw [isRest.of_pure.2]
    exact (wrote_ofPlans plans isOutputs).1

end

/-- Uses that are left alone ask for no alias. -/
theorem aliases_of_passThrough
    {frame : Frame}
    {scope : Scope}
    {before after : Progress}
    {outputs : List Output}
    {uses : List Use}
    (leftAlone : ∀ use ∈ uses, use.isPassThrough)
    (gives : Gives (ofPlans frame (uses.map (Plan.ofUse scope))) before outputs after) :
    after.aliases = before.aliases := by
  induction uses generalizing before outputs with
  | nil => rw [gives.of_pure.2]
  | cons use uses inductionHypothesis =>
    obtain ⟨output, between, isFirst, isRest⟩ := gives.of_bind
    obtain ⟨others, last, isOthers, isRest⟩ := isRest.of_bind
    obtain ⟨_, rfl⟩ := isRest.of_pure
    have later := inductionHypothesis
      (fun other member => leftAlone other (List.mem_cons_of_mem _ member)) isOthers
    rw [later]
    have own := leftAlone use List.mem_cons_self
    rw [Plan.ofUse_eq] at isFirst
    unfold Use.isPassThrough at own
    split at own
    · rename_i spec isRole
      rw [isRole] at isFirst
      rw [(gives_finish isFirst).2]
    · simp at own

end Restyle.Output
