import Restyle.Expansion
import Restyle.Proofs.Output.Seen
import Restyle.Registry.Packaged

/-!
Contract: development metadata does not interfere with an expansion.

Owns: `Settings.AgreeBesidesMetadata`, settings that differ at most in the labels, places
and placeholders they ask for; `Expansion.withoutCode`, what an expansion is but for its
code; and that two expansions with such settings fail alike or are the same but for their
code, which is the same too where they give the same labels and no places.

Metadata stands in the code of calls only.  That code becomes the expression of a slot
around it, and part of the code around that, but no fault, alias or fragment depends on it.
-/

namespace Restyle

/-- Settings that differ at most in their development metadata and placeholders. -/
structure Settings.AgreeBesidesMetadata (one other : Settings) : Prop where
  sameSuffixes : one.macroSuffixes = other.macroSuffixes
  sameManifest : one.macroManifest = other.macroManifest
  sameRuntime : one.runtimeModule = other.runtimeModule
  sameHead : one.aliasHead = other.aliasHead

namespace Expansion

open Output Output.Writer

/-- An expansion but for its code: the bindings, the aliases, and the outputs with their
uses, aliases and fragments, of which the texts and the places of the slots are kept. -/
def withoutCode (expansion : Expansion) : Expansion where
  code := ""
  outputs := expansion.outputs.map (Output.seen fun _ => "")
  bindings := expansion.bindings
  aliases := expansion.aliases
  changed := false

private theorem withoutCode_assemble
    {one other : Settings}
    {module : Module}
    {bindings : Binding.Table}
    {topmost others : List Output}
    {progress otherProgress : Progress}
    (same : progress.seen (fun _ => "") = otherProgress.seen fun _ => "") :
    (assemble one module bindings topmost progress).withoutCode =
      (assemble other module bindings others otherProgress).withoutCode := by
  obtain ⟨sameAliases, sameOutputs⟩ := Progress.seen_eq_iff.mp same
  have sorted (outputs : List Output) :
      (outputs.mergeSort fun left right => left.start ≤ right.start).map (Output.seen fun _ => "") =
        (outputs.map (Output.seen fun _ => "")).mergeSort fun left right =>
          left.start ≤ right.start :=
    List.map_mergeSort fun left _ right _ => rfl
  simp only [withoutCode, assemble, sorted, sameOutputs, sameAliases]

/-- The outputs of a module's uses are alike in a view of the two frames. -/
theorem alike_writeOutputs
    {first second : Frame}
    (view : View first second)
    (expression : Plan.Expression) :
    Alike view.see (List.map (Output.seen view.see)) (writeOutputs first expression)
      (writeOutputs second expression) := by
  cases expression with
  | fault fault => exact alike_throw fault
  | span start stop plans => exact alike_ofPlans view plans

section Metadata

variable
  {one other : Settings}
  (agree : one.AgreeBesidesMetadata other)

include agree

private theorem isMacroPath_of_agree : one.isMacroPath = other.isMacroPath := by
  funext path
  rw [Settings.isMacroPath, Settings.isMacroPath, agree.sameSuffixes]

private theorem listOf_of_agree (registry : Registry) (module : Module) :
    Binding.listOf one registry module = Binding.listOf other registry module := by
  rw [Binding.listOf, Binding.listOf, isMacroPath_of_agree agree]

private theorem importEdits_of_agree
    (module : Module)
    (bindings : Binding.Table)
    (aliases : Aliases) :
    importEdits one module bindings aliases = importEdits other module bindings aliases := by
  have sameLoss : losesName one = losesName other := by
    funext bindings declaration
    rw [losesName, losesName, isMacroPath_of_agree agree]
  rw [importEdits, importEdits, agree.sameRuntime, sameLoss]

variable
  (registry : Registry)
  (name otherName : String)
  (module : Module)

/-- Whatever the metadata, a module's expansion fails alike, or is the same but for its
code. -/
theorem withoutCode_run_of_agree :
    (run one registry name module).result.map withoutCode =
      (run other registry otherName module).result.map withoutCode := by
  simp only [run, listOf_of_agree agree]
  split
  · rfl
  · generalize Plan.ofSpan _ (wholeSpan module) = plan
    generalize Binding.Table.ofList (Binding.listOf other registry module) = bindings
    have alike := alike_writeOutputs
      (View.hidden rfl agree.sameHead :
        View ⟨module.source, name, one⟩ ⟨module.source, otherName, other⟩) plan
        ⟨Aliases.ofTaken module.identifiers, []⟩ _ rfl
    generalize (writeOutputs ⟨module.source, name, one⟩ plan).run
      ⟨Aliases.ofTaken module.identifiers, []⟩ = written at alike ⊢
    generalize (writeOutputs ⟨module.source, otherName, other⟩ plan).run
      ⟨Aliases.ofTaken module.identifiers, []⟩ = otherWritten at alike ⊢
    obtain ⟨result, progress⟩ := written
    obtain ⟨otherResult, otherProgress⟩ := otherWritten
    obtain ⟨sameResult, sameProgress⟩ := alike
    cases result with
    | error fault =>
      cases otherResult with
      | error otherFault =>
        obtain rfl := Except.error.inj sameResult
        rfl
      | ok others => exact nomatch sameResult
    | ok topmost =>
      cases otherResult with
      | error fault => exact nomatch sameResult
      | ok others => exact congrArg Except.ok (withoutCode_assemble sameProgress)

private theorem run_of_agree
    (sameLabels : one.emitLabels = other.emitLabels)
    (noPlaces : one.emitLocations = false)
    (noOtherPlaces : other.emitLocations = false) :
    (run one registry name module).result = (run other registry otherName module).result := by
  simp only [run, listOf_of_agree agree]
  split
  · rfl
  · generalize Plan.ofSpan _ (wholeSpan module) = plan
    generalize Binding.Table.ofList (Binding.listOf other registry module) = bindings
    have sameMetadata (use : Use) : metadata? ⟨module.source, name, one⟩ use =
        metadata? ⟨module.source, otherName, other⟩ use := by
      simp only [metadata?, sameLabels, noPlaces, noOtherPlaces]
      rfl
    obtain ⟨sameResult, sameProgress⟩ := alike_writeOutputs
      (View.full rfl agree.sameHead sameMetadata :
        View ⟨module.source, name, one⟩ ⟨module.source, otherName, other⟩) plan
        ⟨Aliases.ofTaken module.identifiers, []⟩ _ rfl
    simp only [View.full, Output.seen_id, List.map_id_fun, Except.map_id, id, Progress.seen_id]
      at sameResult sameProgress
    have sameAssembly : assemble one module bindings = assemble other module bindings := by
      funext topmost progress
      simp only [assemble, importEdits_of_agree agree]
    simp only [sameResult, sameProgress, sameAssembly]

end Metadata

/-- Two expansions of a source whose settings differ at most in development metadata and
placeholders, under whatever names, stop at the same fault, or give the same bindings,
aliases and outputs but for code.  If they give the same labels and no places, they are the
same altogether. -/
theorem metadata_does_not_interfere
    {one other : Settings}
    (agree : one.AgreeBesidesMetadata other)
    (registry : Registry)
    (name otherName source : String) :
    (ofSource one registry name source).map withoutCode =
        (ofSource other registry otherName source).map withoutCode ∧
      (one.emitLabels = other.emitLabels → one.emitLocations = false →
        other.emitLocations = false →
          ofSource one registry name source = ofSource other registry otherName source) := by
  rw [ofSource, ofSource]
  cases Module.parse source with
  | error fault => exact ⟨rfl, fun _ _ _ => rfl⟩
  | ok module =>
    exact ⟨withoutCode_run_of_agree agree registry name otherName module,
      run_of_agree agree registry name otherName module⟩

/-- Settings by which calls carry places and no labels. -/
def placedSettings : Settings where
  emitLabels := false
  emitLocations := true
  placeholderHead := "<"

/-- A module with a style in the slot of another one. -/
def slotSample : String :=
  "import \x7b css \x7d from './macro'\nconst a = css`x$\x7b f(css`y`) \x7d`"

def slotSampleCodes (settings : Settings) (name : String) : Option (List String) :=
  (Module.parse slotSample).toOption.map fun module =>
    (run settings Registry.packaged name module).finished.map (·.code)

/-- With places in place of labels, the sample is expanded to the same but for the code of
its outputs; under another name, it is expanded to the same altogether. -/
theorem slotSample_is_same_but_for_code :
    Settings.AgreeBesidesMetadata {} placedSettings ∧
    (ofSource {} Registry.packaged "a.js" slotSample).map withoutCode =
      (ofSource placedSettings Registry.packaged "b.js" slotSample).map withoutCode ∧
    slotSampleCodes {} "a.js" ≠ slotSampleCodes placedSettings "b.js" ∧
    ofSource {} Registry.packaged "a.js" slotSample =
      ofSource {} Registry.packaged "b.js" slotSample := by
  have agree : Settings.AgreeBesidesMetadata {} placedSettings := ⟨rfl, rfl, rfl, rfl⟩
  have agreeSelf : Settings.AgreeBesidesMetadata {} {} := ⟨rfl, rfl, rfl, rfl⟩
  exact ⟨agree, (metadata_does_not_interfere agree _ _ _ _).1, by decide +kernel,
    (metadata_does_not_interfere agreeSelf _ _ _ _).2 rfl rfl rfl⟩

end Expansion

end Restyle
