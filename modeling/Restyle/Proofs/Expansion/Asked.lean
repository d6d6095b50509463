import Restyle.Proofs.Aliases.Requests
import Restyle.Proofs.Expansion.Nested

/-!
Contract: in which order the outputs of an expansion ask for their aliases.

Owns: `Use.Defers`, by which a use puts off what stands in its factory argument
until its content is written; `Output.Asked`, the outputs of a part in the order in
which they ask, which every writing keeps; and that the runtime exports are named
in the order in which the outputs of an expansion ask for them.

That order is the source order of the outputs but for what is put off.
-/

namespace Restyle

open Token

namespace Use

/-- A use puts one use off until another is written: the one stands in its factory
argument, the other behind that, in its content. -/
def Defers (outer one other : Use) : Prop :=
  ∃ spec argument content, outer.role = .invocation spec (.factory argument) content ∧
    argument.start ≤ one.start ∧ one.stop ≤ argument.stop ∧
    argument.stop ≤ other.start ∧ other.stop ≤ content.stop

/-- What is put off lies in the use that puts it off, before what it is put off for. -/
theorem Defers.bounds
    {source : List Char}
    {outer one other : Use}
    (defers : outer.Defers one other)
    (encloses : outer.Encloses source) :
    outer.start < one.start ∧ one.stop ≤ other.start ∧ one.stop ≤ outer.stop := by
  obtain ⟨spec, argument, content, isRole, early, late, behind, inContent⟩ := defers
  have begins := encloses.begins
  have isStop : outer.stop = content.stop := by rw [Use.stop, isRole]
  have inside := encloses.entries.member argument (by
    rw [isRole]
    simp [Role.entries, Receiver.arguments])
  omega

/-- A use that lies elsewhere puts nothing off that lies between two offsets. -/
theorem Within.undeferred
    {source : List Char}
    {start stop : Nat}
    {outer one : Use}
    (isWithin : one.Within source start stop)
    (encloses : outer.Encloses source)
    (elsewhere : outer.stop ≤ start ∨ stop ≤ outer.start)
    (other : Use) :
    ¬ outer.Defers one other := by
  intro defers
  have bounds := defers.bounds encloses
  have filled := isWithin.filled
  have lower := isWithin.lower
  have upper := isWithin.upper
  omega

theorem Within.widen
    {source : List Char}
    {start stop before after : Nat}
    {use : Use}
    (isWithin : use.Within source start stop)
    (early : before ≤ start)
    (late : stop ≤ after) :
    use.Within source before after :=
  ⟨Nat.le_trans early isWithin.lower, isWithin.filled, Nat.le_trans isWithin.upper late,
    isWithin.encloses⟩

end Use

namespace Output

/-- One output asks before another among some: it stands before it, and no use of
them puts it off, or one of them puts the other off. -/
def AsksBefore (outputs : List Output) (one other : Output) : Prop :=
  (one.start < other.start ∧ ∀ outer ∈ outputs, ¬ outer.use.Defers one.use other.use) ∨
    ∃ outer ∈ outputs, outer.use.Defers other.use one.use

/-- The runtime export that an output calls, `none` if it is left alone. -/
def export? (output : Output) : Option Value :=
  if output.isPassThrough then none else output.use.spec?.map (·.runtimeExport)

private theorem export?_of_bareValue {output : Output} {spec : Spec} {position : Use.Position}
    (isRole : output.use.role = .bareValue spec position) :
    output.export? = some spec.runtimeExport := by
  simp [export?, isPassThrough, Use.isPassThrough, Use.spec?, isRole]

private theorem export?_of_invocation {output : Output} {spec : Spec} {receiver : Use.Receiver}
    {content : Use.Content} (isRole : output.use.role = .invocation spec receiver content) :
    output.export? = some spec.runtimeExport := by
  simp [export?, isPassThrough, Use.isPassThrough, Use.spec?, isRole]

/-- The runtime exports that outputs call, each where it is first called. -/
def exportsOf (outputs : List Output) : List Value :=
  (outputs.filterMap export?).eraseDupsBy Value.sameKey

/-- The outputs that are added between two states, in the order in which they ask
for their aliases: they lie between two offsets. -/
structure Asked (frame : Frame) (source : List Char) (start stop : Nat)
    (before after : Progress) (asked : List Output) : Prop where
  made : ∃ made, after.outputs = before.outputs ++ made ∧ asked.Perm made
  aliases : after.aliases =
    (Aliases.requestAll frame.settings.aliasHead (asked.filterMap export?) before.aliases).2
  within : ∀ output ∈ asked, output.use.Within source start stop
  ordered : asked.Pairwise (AsksBefore asked)

section Asking

variable
  {frame : Frame}
  {source : List Char}
  {start middle stop : Nat}
  {before between after : Progress}

/-- What asks before another does so among more outputs that do not put it off. -/
theorem AsksBefore.among
    {outputs all : List Output}
    {one other : Output}
    (asks : AsksBefore outputs one other)
    (subset : outputs ⊆ all)
    (undeferred : ∀ outer ∈ all, outer ∈ outputs ∨ ¬ outer.use.Defers one.use other.use) :
    AsksBefore all one other := by
  rcases asks with ⟨precedes, ownUndeferred⟩ | ⟨outer, isOuter, defers⟩
  · refine .inl ⟨precedes, fun outer isOuter defers => ?_⟩
    rcases undeferred outer isOuter with isOwn | notDeferred
    · exact ownUndeferred outer isOwn defers
    · exact notDeferred defers
  · exact .inr ⟨outer, subset isOuter, defers⟩

/-- Nothing asks where nothing is written. -/
theorem Asked.nil (before : Progress) : Asked frame source start stop before before [] :=
  ⟨⟨[], by simp, .nil⟩, rfl, by simp, .nil⟩

theorem Asked.widen
    {asked : List Output}
    {early late : Nat}
    (isAsked : Asked frame source start stop before after asked)
    (isEarly : early ≤ start)
    (isLate : stop ≤ late) :
    Asked frame source early late before after asked :=
  ⟨isAsked.made, isAsked.aliases,
    fun output member => (isAsked.within output member).widen isEarly isLate, isAsked.ordered⟩

/-- The requests of two parts are made one after the other. -/
theorem Asked.aliases_append
    {first second : List Output}
    (one : Asked frame source start stop before between first)
    {further last : Nat}
    (two : Asked frame source further last between after second) :
    after.aliases = (Aliases.requestAll frame.settings.aliasHead
      ((first ++ second).filterMap export?) before.aliases).2 := by
  rw [List.filterMap_append, Aliases.requestAll_append, ← one.aliases, two.aliases]

/-- The outputs of two parts are those of the one and those of the other. -/
theorem Asked.made_append
    {first second : List Output}
    (one : Asked frame source start stop before between first)
    {further last : Nat}
    (two : Asked frame source further last between after second) :
    ∃ made, after.outputs = before.outputs ++ made ∧ (first ++ second).Perm made := by
  obtain ⟨left, isLeft, leftPerm⟩ := one.made
  obtain ⟨right, isRight, rightPerm⟩ := two.made
  exact ⟨left ++ right, by rw [isRight, isLeft, List.append_assoc], leftPerm.append rightPerm⟩

/-- Of two parts, one behind the other, the outputs of the first ask first. -/
theorem Asked.append
    {first second : List Output}
    (one : Asked frame source start middle before between first)
    (two : Asked frame source middle stop between after second)
    (early : start ≤ middle)
    (late : middle ≤ stop) :
    Asked frame source start stop before after (first ++ second) := by
  have undeferredFirst : ∀ output ∈ first, ∀ other, ∀ outer ∈ second,
      ¬ outer.use.Defers output.use other :=
    fun output isOutput other outer isOuter => (one.within output isOutput).undeferred
      (two.within outer isOuter).encloses (.inr (two.within outer isOuter).lower) other
  have undeferredSecond : ∀ output ∈ second, ∀ other, ∀ outer ∈ first,
      ¬ outer.use.Defers output.use other :=
    fun output isOutput other outer isOuter => (two.within output isOutput).undeferred
      (one.within outer isOuter).encloses (.inl (one.within outer isOuter).upper) other
  refine ⟨one.made_append two, one.aliases_append two, ?within, ?ordered⟩
  case within =>
    exact List.forall_mem_append.mpr
      ⟨fun output member => (one.within output member).widen (Nat.le_refl _) late,
        fun output member => (two.within output member).widen early (Nat.le_refl _)⟩
  case ordered =>
    refine List.pairwise_append.mpr ⟨?_, ?_, fun output isOutput other isOther => ?_⟩
    · refine one.ordered.imp_of_mem fun isOne _ asks =>
        asks.among (List.subset_append_left _ _) fun outer isOuter => ?_
      exact (List.mem_append.mp isOuter).imp_right (undeferredFirst _ isOne _ outer)
    · refine two.ordered.imp_of_mem fun isOne _ asks =>
        asks.among (List.subset_append_right _ _) fun outer isOuter => ?_
      exact (List.mem_append.mp isOuter).symm.imp_right (undeferredSecond _ isOne _ outer)
    · have before := (one.within output isOutput).precedes (two.within other isOther)
        (Nat.le_refl _)
      refine .inl ⟨before.1, fun outer isOuter defers => ?_⟩
      rcases List.mem_append.mp isOuter with inFirst | inSecond
      · -- A use before the second part holds nothing of it.
        have bounds := defers.bounds (one.within outer inFirst).encloses
        obtain ⟨spec, argument, content, isRole, -, -, -, inContent⟩ := defers
        have isStop : outer.use.stop = content.stop := by rw [Use.stop, isRole]
        have upper := (one.within outer inFirst).upper
        have lower := (two.within other isOther).lower
        have filled := (two.within other isOther).filled
        omega
      · exact undeferredFirst output isOutput other.use outer inSecond defers

/-! ## The outputs of a use -/

private theorem asked_passThrough
    {output : Output}
    {spec : Option Spec}
    (isRole : output.use.role = .passThrough spec)
    (isWithin : output.use.Within source output.use.start output.use.stop) :
    Asked frame source output.use.start output.use.stop before (before.add output) [output] := by
  have noExport : output.export? = none := by
    simp [export?, isPassThrough, Use.isPassThrough, isRole]
  refine ⟨⟨[output], rfl, .refl _⟩, ?_, by simpa using isWithin, List.pairwise_singleton _ _⟩
  rw [List.filterMap_cons_none noExport]
  rfl

/-- An output that calls an export asks for its alias before what its use holds. -/
theorem Asked.cons
    {output : Output}
    {exported : Value}
    {asked : String × Aliases}
    {rest : List Output}
    (isExport : output.export? = some exported)
    (isAsked : before.aliases.request frame.settings.aliasHead exported = asked)
    (encloses : output.use.Encloses source)
    (made : ∃ made, after.outputs = before.outputs ++ made ∧ rest.Perm made)
    (aliases : after.aliases = (Aliases.requestAll frame.settings.aliasHead
      (rest.filterMap export?) asked.2).2)
    (within : ∀ inner ∈ rest, inner.use.Within source output.use.head.stop output.use.stop)
    (ordered : rest.Pairwise (AsksBefore (output :: rest))) :
    Asked frame source output.use.start output.use.stop before (after.add output)
      (output :: rest) := by
  have begins := encloses.begins
  have ends := encloses.entries.bounds
  refine ⟨?made, ?aliases, ?within, List.pairwise_cons.mpr ⟨fun inner isInner => ?_, ordered⟩⟩
  case made =>
    obtain ⟨own, isOwn, isPerm⟩ := made
    refine ⟨own ++ [output], by simp [Progress.add, isOwn], ?_⟩
    exact (isPerm.cons output).trans (List.perm_append_singleton output own).symm
  case aliases =>
    rw [List.filterMap_cons_some isExport, Aliases.requestAll, isAsked]
    exact aliases
  case within =>
    refine List.forall_mem_cons.mpr ⟨⟨Nat.le_refl _, by omega, Nat.le_refl _, encloses⟩, ?_⟩
    exact fun inner isInner => (within inner isInner).widen (Nat.le_of_lt begins) (Nat.le_refl _)
  · have lower := (within inner isInner).lower
    have isLater : output.start < inner.start := Nat.lt_of_lt_of_le begins lower
    refine .inl ⟨isLater, fun outer isOuter defers => ?_⟩
    -- No use begins before itself, and those that the use holds begin after it.
    rcases List.mem_cons.mp isOuter with rfl | inRest
    · exact Nat.lt_irrefl _ (defers.bounds encloses).1
    · have early := (defers.bounds (within outer inRest).encloses).1
      have late := (within outer inRest).lower
      omega

/-- A use that is applied to no factory puts nothing off. -/
theorem Asked.direct
    {output : Output}
    {spec : Spec}
    {receiver : Use.Receiver}
    {content : Use.Content}
    {asked : String × Aliases}
    {inContent : List Output}
    (isRole : output.use.role = .invocation spec receiver content)
    (noFactory : ∀ argument, receiver ≠ .factory argument)
    (isAsked : before.aliases.request frame.settings.aliasHead spec.runtimeExport = asked)
    (encloses : output.use.Encloses source)
    (contentAsked : Asked frame source output.use.head.stop output.use.stop
      (before.named asked.2) after inContent) :
    Asked frame source output.use.start output.use.stop before (after.add output)
      (output :: inContent) := by
  refine Asked.cons (export?_of_invocation isRole) isAsked encloses contentAsked.made
    contentAsked.aliases
    contentAsked.within ?_
  refine contentAsked.ordered.imp fun asks => asks.among (List.subset_cons_self _ _) ?_
  intro outer isOuter
  rcases List.mem_cons.mp isOuter with rfl | isInner
  · refine .inr fun defers => ?_
    obtain ⟨_, argument, _, isFactory, -⟩ := defers
    rw [isRole] at isFactory
    exact noFactory argument (Use.Role.invocation.inj isFactory).2.1
  · exact .inl isInner

/-- A use that is applied to a factory puts its argument off until its content is
written. -/
theorem Asked.factory
    {output : Output}
    {spec : Spec}
    {argument : Span}
    {content : Use.Content}
    {asked : String × Aliases}
    {inContent inArgument : List Output}
    (isRole : output.use.role = .invocation spec (.factory argument) content)
    (isAsked : before.aliases.request frame.settings.aliasHead spec.runtimeExport = asked)
    (encloses : output.use.Encloses source)
    (contentAsked : Asked frame source argument.stop output.use.stop
      (before.named asked.2) between inContent)
    (argumentAsked : Asked frame source argument.start argument.stop between after inArgument) :
    Asked frame source output.use.start output.use.stop before (after.add output)
      (output :: (inContent ++ inArgument)) := by
  have isStop : output.use.stop = content.stop := by rw [Use.stop, isRole]
  have inside := encloses.entries.member argument (by
    rw [isRole]
    simp [Use.Role.entries, Use.Receiver.arguments])
  have ordered := inside.2.2.bounds
  refine Asked.cons (export?_of_invocation isRole) isAsked encloses
    (contentAsked.made_append argumentAsked)
    (contentAsked.aliases_append argumentAsked) ?within ?ordered
  case within =>
    exact List.forall_mem_append.mpr
      ⟨fun inner member => (contentAsked.within inner member).widen (by omega) (Nat.le_refl _),
        fun inner member => (argumentAsked.within inner member).widen inside.1 inside.2.1⟩
  case ordered =>
    -- What the use itself puts off stands on different sides of the argument's end.
    have ownContent : ∀ one ∈ inContent, ∀ other, ¬ output.use.Defers one.use other := by
      rintro one isOne other ⟨_, own, _, isOwn, -, late, -⟩
      rw [isRole] at isOwn
      obtain rfl := Use.Receiver.factory.inj (Use.Role.invocation.inj isOwn).2.1
      have lower := (contentAsked.within one isOne).lower
      have filled := (contentAsked.within one isOne).filled
      omega
    have ownArgument : ∀ one, ∀ other ∈ inArgument, ¬ output.use.Defers one other.use := by
      rintro one other isOther ⟨_, own, _, isOwn, -, -, behind, -⟩
      rw [isRole] at isOwn
      obtain rfl := Use.Receiver.factory.inj (Use.Role.invocation.inj isOwn).2.1
      have upper := (argumentAsked.within other isOther).upper
      have filled := (argumentAsked.within other isOther).filled
      omega
    refine List.pairwise_append.mpr ⟨?_, ?_, fun one isOne other isOther => ?_⟩
    · refine contentAsked.ordered.imp_of_mem fun isOne _ asks => asks.among (by simp) ?_
      intro outer isOuter
      rcases List.mem_cons.mp isOuter with rfl | isInner
      · exact .inr (ownContent _ isOne _)
      · refine (List.mem_append.mp isInner).imp_right fun inArgument => ?_
        exact (contentAsked.within _ isOne).undeferred (argumentAsked.within outer inArgument).encloses
          (.inl (argumentAsked.within outer inArgument).upper) _
    · refine argumentAsked.ordered.imp_of_mem fun isOne isOther asks => asks.among (by simp) ?_
      intro outer isOuter
      rcases List.mem_cons.mp isOuter with rfl | isInner
      · exact .inr (ownArgument _ _ isOther)
      · refine (List.mem_append.mp isInner).symm.imp_right fun inContent => ?_
        exact (argumentAsked.within _ isOne).undeferred (contentAsked.within outer inContent).encloses
          (.inr (contentAsked.within outer inContent).lower) _
    · refine .inr ⟨output, List.mem_cons_self, spec, argument, content, isRole, ?_⟩
      have upper := (contentAsked.within one isOne).upper
      exact ⟨(argumentAsked.within other isOther).lower, (argumentAsked.within other isOther).upper,
        (contentAsked.within one isOne).lower, isStop ▸ upper⟩

/-- The expressions that an invocation holds are its factory argument and the holes
of its content. -/
theorem spans_of_invocation (spec : Spec) (receiver : Use.Receiver) (content : Use.Content) :
    (Use.Role.invocation spec receiver content).entries.map (·.2) =
      receiver.arguments ++ content.holes := by
  simp only [Use.Role.entries, List.map_append, List.map_map, Function.comp_def, List.map_id']

end Asking

/-! ## Every writing asks in order -/

section Writing

variable
  {scope : Scope}
  {frame : Frame}
  {source : List Char}

/-- The output of a use is of that use. -/
theorem UseYields.isUse
    {before after : Progress}
    {use : Use}
    {output : Output}
    (yields : UseYields scope frame use before output after) :
    output.use = use := by
  cases yields <;> rename_i isOutput <;> rw [isOutput]

mutual

private theorem UseYields.exists_asked
    {before after : Progress}
    {use : Use}
    {output : Output}
    (yields : UseYields scope frame use before output after)
    (encloses : use.Encloses source) :
    ∃ asked, Asked frame source use.start use.stop before after asked :=
  have isUse := yields.isUse
  match yields with
  | .passThrough isRole _ => by
    have begins := encloses.begins
    have ends := encloses.entries.bounds
    rw [← isUse] at encloses isRole begins ends ⊢
    exact ⟨_, asked_passThrough isRole
      ⟨Nat.le_refl _, Nat.lt_of_lt_of_le begins ends, Nat.le_refl _, encloses⟩⟩
  | .bareValue isRole _ isAsked _ => by
    rw [← isUse] at encloses isRole ⊢
    exact ⟨_, Asked.cons (export?_of_bareValue isRole) isAsked encloses
      ⟨[], by simp [Progress.named], .nil⟩ rfl (by simp) .nil⟩
  | .invocation isRole _ isAsked inContent inReceiver _ => by
    have placed := encloses.entries
    rw [isRole, spans_of_invocation] at placed
    rcases inReceiver.exists_asked placed with
      ⟨noFactory, noArgument, same⟩ | ⟨argument, others, isFactory, holes, isArgument⟩
    · rw [noArgument] at placed
      obtain ⟨asked, isContent⟩ := inContent.exists_asked placed
      rw [← isUse] at encloses isRole isContent ⊢
      rw [same]
      exact ⟨_, Asked.direct isRole noFactory isAsked encloses isContent⟩
    · obtain ⟨asked, isContent⟩ := inContent.exists_asked holes
      rw [← isUse] at encloses isRole isContent ⊢
      rw [isFactory] at isRole
      exact ⟨_, Asked.factory isRole isAsked encloses isContent isArgument⟩

private theorem UsesYield.exists_asked
    {before after : Progress}
    {start stop : Nat}
    {uses : List Use}
    {outputs : List Output}
    (yields : UsesYield scope frame uses before outputs after)
    (laid : Use.Laid source start stop uses)
    (encloses : ∀ use ∈ uses, use.Encloses source) :
    ∃ asked, Asked frame source start stop before after asked :=
  match yields with
  | .nil => ⟨[], .nil _⟩
  | @UsesYield.cons _ _ use uses _ _ _ _ _ first others => by
    obtain ⟨lower, upper, -⟩ := laid.between use List.mem_cons_self
    obtain ⟨isFirst, areOthers⟩ := List.forall_mem_cons.mp encloses
    obtain ⟨behind, ascending⟩ := List.pairwise_cons.mp laid.ascending
    have later : Use.Laid source use.stop stop uses := by
      refine ⟨ascending, fun other isOther => ?_⟩
      obtain ⟨-, last, framed⟩ := laid.between other (List.mem_cons_of_mem _ isOther)
      exact ⟨behind other isOther, last, framed⟩
    obtain ⟨own, isOwn⟩ := first.exists_asked isFirst
    obtain ⟨asked, isAsked⟩ := others.exists_asked later areOthers
    have begins := isFirst.begins
    have ends := isFirst.entries.bounds
    exact ⟨_, (isOwn.widen lower (Nat.le_refl _)).append isAsked (by omega) upper⟩

private theorem PartsYield.exists_asked
    {before after : Progress}
    {start stop : Nat}
    {parts : List Use.Part}
    {fragments : Fragments}
    (yields : PartsYield scope frame parts before fragments after)
    (placed : Span.ListPlaced source start stop (parts.filterMap Use.Part.hole?)) :
    ∃ asked, Asked frame source start stop before after asked :=
  match yields with
  | .nil => ⟨[], .nil _⟩
  | .literal others => others.exists_asked placed
  | @PartsYield.splice _ _ span use content _ _ _ _ _ _ isNested spliced others => by
    cases placed with
    | cons early own later =>
      have ordered := own.bounds
      obtain ⟨laid, encloses⟩ := Use.laid_of_foundIn (Use.foundIn_hole_of_nested? isNested) own
      have isUse := encloses use List.mem_cons_self
      obtain ⟨lower, upper, -⟩ := laid.between use List.mem_cons_self
      obtain ⟨spec, isRole, -⟩ := (Use.fills_of_nested? isNested).isDirect
      have inUse := isUse.entries
      have begins := isUse.begins
      rw [isRole, spans_of_invocation] at inUse
      obtain ⟨asked, isContent⟩ := spliced.exists_asked inUse
      obtain ⟨rest, areOthers⟩ := others.exists_asked later
      exact ⟨_, (isContent.widen (by omega) upper).append areOthers (by omega) later.bounds⟩
  | .slot _ expression others => by
    cases placed with
    | cons early own later =>
      have ordered := own.bounds
      obtain ⟨asked, isExpression⟩ := expression.exists_asked own
      obtain ⟨rest, areOthers⟩ := others.exists_asked later
      exact ⟨_, (isExpression.widen early (Nat.le_refl _)).append areOthers (by omega) later.bounds⟩

private theorem SpanYields.exists_asked
    {before after : Progress}
    {span : Span}
    {code : String}
    (yields : SpanYields scope frame span before code after)
    (placed : ListPlaced source span.start span.stop span.tokens) :
    ∃ asked, Asked frame source span.start span.stop before after asked :=
  match yields with
  | .searched scanned written => by
    have found : Use.foundIn scope .searched span = .ok _ := scanned
    obtain ⟨laid, encloses⟩ := Use.laid_of_foundIn found placed
    exact written.exists_asked laid encloses

private theorem ReceiverYields.exists_asked
    {before after : Progress}
    {start stop : Nat}
    {receiver : Use.Receiver}
    {holes : List Span}
    {applied : Option String}
    (yields : ReceiverYields scope frame receiver before applied after)
    (placed : Span.ListPlaced source start stop (receiver.arguments ++ holes)) :
    (∀ argument, receiver ≠ .factory argument) ∧ receiver.arguments = [] ∧ after = before ∨
      ∃ argument asked, receiver = .factory argument ∧
        Span.ListPlaced source argument.stop stop holes ∧
        Asked frame source argument.start argument.stop before after asked :=
  match yields with
  | .direct => .inl ⟨fun _ => nofun, rfl, rfl⟩
  | .member => .inl ⟨fun _ => nofun, rfl, rfl⟩
  | .factory expression => by
    cases placed with
    | cons early own later =>
      obtain ⟨asked, isAsked⟩ := expression.exists_asked own
      exact .inr ⟨_, asked, rfl, later, isAsked⟩

end

end Writing

end Output

namespace Expansion

variable
  {settings : Settings}
  {registry : Registry}
  {filename source : String}
  {module : Module}
  {expansion : Expansion}

/-- The outputs of an expansion in the order in which they ask for their aliases. -/
theorem Written.exists_asked
    {uses : List Use}
    {topmost : List Output}
    {progress : Output.Progress}
    (written : Written settings registry filename module expansion uses topmost progress)
    (parsed : module.Parsed) :
    ∃ asked, Output.Asked ⟨module.source, filename, settings⟩ module.source.toList 0
      module.source.length (initialProgress module) progress asked := by
  have found : Use.foundIn (scopeOf settings registry module) .searched (wholeSpan module) =
      .ok uses := written.scanned
  obtain ⟨laid, encloses⟩ := Use.laid_of_foundIn found parsed.placed
  exact (Output.usesYield_of_gives written.gives).exists_asked laid encloses

private theorem called_in_source_order
    {outputs asked : List Output}
    (same : asked.Perm outputs)
    (ordered : asked.Pairwise (Output.AsksBefore outputs))
    (ascending : outputs.Pairwise (·.start < ·.start))
    (undeferred : ∀ outer ∈ outputs, ∀ one ∈ outputs, ∀ other ∈ outputs,
      one.export?.isSome → other.export?.isSome → ¬ outer.use.Defers one.use other.use) :
    Output.exportsOf asked = Output.exportsOf outputs := by
  have onlyCalled : ∀ outputs : List Output, outputs.filterMap Output.export? =
      (outputs.filter (·.export?.isSome)).filterMap Output.export? := by
    intro outputs
    rw [List.filterMap_filter]
    refine List.filterMap_congr fun output _ => ?_
    cases output.export? <;> rfl
  have isCalled {output : Output} (member : output ∈ asked.filter (·.export?.isSome)) :
      output ∈ outputs ∧ output.export?.isSome := by
    rw [List.mem_filter] at member
    exact ⟨same.mem_iff.mp member.1, member.2⟩
  have inOrder : (asked.filter (·.export?.isSome)).Pairwise (·.start < ·.start) := by
    refine (ordered.filter _).imp_of_mem fun isOne isOther asks => ?_
    rcases asks with ⟨precedes, -⟩ | ⟨outer, isOuter, defers⟩
    · exact precedes
    · exact absurd defers (undeferred outer isOuter _ (isCalled isOther).1 _ (isCalled isOne).1
        (isCalled isOther).2 (isCalled isOne).2)
  have sameCalled : asked.filter (·.export?.isSome) = outputs.filter (·.export?.isSome) :=
    (same.filter _).eq_of_pairwise (fun one other _ _ before after =>
      absurd (Nat.lt_trans before after) (Nat.lt_irrefl _)) inOrder (ascending.filter _)
  rw [Output.exportsOf, Output.exportsOf, onlyCalled asked, sameCalled, ← onlyCalled outputs]

/-- The aliases of an expansion are listed in the order in which its outputs ask for
them.  That is source order, but what stands in the factory argument of a use asks
after what stands in the content behind it.  Where no use puts a call off for
another, the exports are listed as they first occur among the calls in source
order. -/
theorem aliases_in_asking_order
    (isModule : Module.parse source = .ok module)
    (expanded : ofSource settings registry filename source = .ok expansion) :
    (∃ asked : List Output, asked.Perm expansion.outputs ∧
        asked.Pairwise (Output.AsksBefore expansion.outputs) ∧
        expansion.aliases.map (·.1) = Output.exportsOf asked) ∧
      ((∀ outer ∈ expansion.outputs, ∀ one ∈ expansion.outputs, ∀ other ∈ expansion.outputs,
          one.export?.isSome → other.export?.isSome → ¬ outer.use.Defers one.use other.use) →
        expansion.aliases.map (·.1) = Output.exportsOf expansion.outputs) := by
  have parsed := (Module.parsed_of_parse isModule).2
  rcases cases_of_ofSource isModule expanded with ⟨-, rfl⟩ | ⟨uses, topmost, progress, written⟩
  · exact ⟨⟨[], .nil, .nil, rfl⟩, fun _ => rfl⟩
  · obtain ⟨asked, isAsked⟩ := written.exists_asked parsed
    have ascending := written.outputs_ascending parsed
    have same : asked.Perm expansion.outputs := by
      obtain ⟨made, isMade, isPerm⟩ := isAsked.made
      rw [written.isResult]
      simp only [assemble, isMade, initialProgress, List.nil_append]
      exact isPerm.trans (List.mergeSort_perm _ _).symm
    have ordered : asked.Pairwise (Output.AsksBefore expansion.outputs) :=
      isAsked.ordered.imp fun asks => asks.among same.subset
        fun outer isOuter => .inl (same.mem_iff.mpr isOuter)
    have listed : expansion.aliases.map (·.1) = Output.exportsOf asked := by
      have areNew : (asked.filterMap Output.export?).filter
          (Aliases.ofTaken module.identifiers).isNew = asked.filterMap Output.export? :=
        List.filter_eq_self.mpr fun exported _ => Aliases.isNew_ofTaken _ exported
      have isAliases : expansion.aliases = progress.aliases.names := by
        rw [written.isResult]
        rfl
      rw [isAliases, isAsked.aliases, initialProgress, Aliases.keys_of_requestAll, areNew]
      rfl
    refine ⟨⟨asked, same, ordered, listed⟩, fun undeferred => ?_⟩
    rw [listed, called_in_source_order same ordered ascending undeferred]

/-- A use whose factory argument and whose content both hold a call. -/
def deferringSample : String :=
  "import styled, \x7b css, keyframes \x7d from './macro'\n" ++
    "a = styled(css`a`)`x$\x7bkeyframes`b`\x7d`"

/-- In the sample the call in the factory argument stands first and asks last. -/
theorem deferringSample_asks :
    ∃ module expansion,
      Module.parse deferringSample = .ok module ∧
      ofSource {} Registry.packaged "" deferringSample = .ok expansion ∧
      expansion.aliases.map (·.1.display) = ["styled", "keyframes", "css"] ∧
      (∃ one ∈ expansion.outputs, ∃ other ∈ expansion.outputs, one.start < other.start ∧
        one.export?.map (·.display) = some "css" ∧
        other.export?.map (·.display) = some "keyframes") ∧
      ∃ asked : List Output, asked.Perm expansion.outputs ∧
        asked.Pairwise (Output.AsksBefore expansion.outputs) ∧
        expansion.aliases.map (·.1) = Output.exportsOf asked := by
  have evaluates : ((Module.parse deferringSample).toOption.any fun module =>
      let attempt := run {} Registry.packaged "" module
      (attempt.result.toOption.any fun expansion =>
        expansion.aliases.map (·.1.display) = ["styled", "keyframes", "css"]) &&
      attempt.finished.any fun one => attempt.finished.any fun other =>
        decide (one.start < other.start) && one.export?.map (·.display) = some "css" &&
          other.export?.map (·.display) = some "keyframes") = true := by
    decide +kernel
  obtain ⟨module, parses, evaluates⟩ := (Option.any_eq_true _ _).mp evaluates
  simp only [Bool.and_eq_true, List.any_eq_true, decide_eq_true_eq] at evaluates
  obtain ⟨isResult, one, isOne, other, isOther, ⟨before, isCss⟩, isKeyframes⟩ := evaluates
  obtain ⟨expansion, expands, listed⟩ := (Option.any_eq_true _ _).mp isResult
  have isModule := ok_of_toOption parses
  have expanded := (ofSource_of_parse isModule).trans (ok_of_toOption expands)
  have member {output : Output}
      (isFinished : output ∈ (run {} Registry.packaged "" module).finished) :
      output ∈ expansion.outputs :=
    (mem_outputs_iff_finished isModule expanded).mpr isFinished
  exact ⟨module, expansion, isModule, expanded, of_decide_eq_true listed,
    ⟨one, member isOne, other, member isOther, before, isCss, isKeyframes⟩,
    (aliases_in_asking_order isModule expanded).1⟩

end Expansion

end Restyle
