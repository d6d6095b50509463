import Restyle.Plan
import Restyle.Proofs.Use.Found

/-!
Contract: the uses of a plan.

Owns: the equations of plans without their proofs of termination; `trace`, the
uses of a plan in the order in which they are finished; that a plan finishes
every use in its tokens except those that it splices, each once.
-/

namespace Restyle.Plan

/-! ## Equations -/

def ofPart (scope : Scope) : Use.Part → Piece
  | .literal text => .literal text
  | .hole span => ofHole scope span

theorem ofContent_eq (scope : Scope) (content : Use.Content) :
    ofContent scope content = content.parts.map (ofPart scope) := by
  rw [ofContent]
  refine Eq.trans ?_ List.attach_map_val
  refine congrArg (List.map · content.parts.attach) (funext fun part => ?_)
  obtain ⟨part, member⟩ := part
  cases part <;> rfl

theorem ofSpan_of_scan
    {scope : Scope}
    (span : Span)
    {uses : List Use}
    (scanned : Use.scan scope span.tokens = .ok uses) :
    ofSpan scope span = .span span.start span.stop (uses.map (ofUse scope)) := by
  rw [ofSpan]
  split
  · rename_i fault failed
    rw [scanned] at failed
    simp at failed
  · rename_i others isOthers
    rw [scanned, Except.ok.injEq] at isOthers
    subst isOthers
    rw [List.attach_map_val]

theorem ofSpan_of_fault
    {scope : Scope}
    (span : Span)
    {fault : Fault}
    (failed : Use.scan scope span.tokens = .error fault) :
    ofSpan scope span = .fault fault := by
  rw [ofSpan]
  split
  · rename_i other isOther
    rw [failed, Except.error.injEq] at isOther
    rw [isOther]
  · rename_i uses scanned
    rw [failed] at scanned
    simp at scanned

theorem ofHole_of_fault
    {scope : Scope}
    {span : Span}
    {fault : Fault}
    (failed : Use.nested? scope span = .error fault) :
    ofHole scope span = .fault fault := by
  rw [ofHole]
  split <;> simp_all

theorem ofHole_of_nested?
    {scope : Scope}
    {span : Span}
    {use : Use}
    {content : Use.Content}
    (isNested : Use.nested? scope span = .ok (some (use, content))) :
    ofHole scope span = .splice use (ofContent scope content) := by
  rw [ofHole]
  split <;> simp_all

theorem ofHole_of_not_nested?
    {scope : Scope}
    {span : Span}
    (notNested : Use.nested? scope span = .ok none) :
    ofHole scope span =
      .slot (span.tokens.head?.map (·.location)) (ofSpan scope span) := by
  rw [ofHole]
  split <;> simp_all

def ofReceiver (scope : Scope) : Use.Receiver → Receiver
  | .direct => .direct
  | .member name => .member name
  | .factory argument => .factory (ofSpan scope argument)

theorem ofUse_eq (scope : Scope) (use : Use) :
    ofUse scope use = match use.role with
      | .passThrough _ => .passThrough use
      | .bareValue spec position => .bareValue use spec position
      | .invocation spec receiver content =>
        .invocation use spec (ofReceiver scope receiver) (ofContent scope content) := by
  obtain ⟨binding, head, label, role⟩ := use
  cases role with
  | passThrough spec => rw [ofUse]
  | bareValue spec position => rw [ofUse]
  | invocation spec receiver content =>
    rw [ofUse]
    cases receiver <;> rfl

def use : Plan → Use
  | .passThrough use => use
  | .bareValue use _ _ => use
  | .invocation use _ _ _ => use

@[simp]
theorem use_ofUse (scope : Scope) (use : Use) : (ofUse scope use).use = use := by
  rw [ofUse_eq]
  split <;> rfl

/-! ## Traces -/

mutual

/-- The uses of a plan in the order in which they are finished, or the first
fault that it meets. -/
def trace : Plan → Except Fault (List Use)
  | .passThrough use => .ok [use]
  | .bareValue use _ _ => .ok [use]
  | .invocation use _ receiver pieces => do
    let inContent ← piecesTrace pieces
    let inReceiver ← receiver.trace
    return inContent ++ inReceiver ++ [use]

def Receiver.trace : Receiver → Except Fault (List Use)
  | .direct => .ok []
  | .member _ => .ok []
  | .factory argument => argument.trace

def Piece.trace : Piece → Except Fault (List Use)
  | .literal _ => .ok []
  | .splice _ pieces => piecesTrace pieces
  | .slot _ expression => expression.trace
  | .fault fault => .error fault

def piecesTrace : List Piece → Except Fault (List Use)
  | [] => .ok []
  | piece :: rest => do
    let first ← piece.trace
    let others ← piecesTrace rest
    return first ++ others

def Expression.trace : Expression → Except Fault (List Use)
  | .fault fault => .error fault
  | .span _ _ plans => plansTrace plans

def plansTrace : List Plan → Except Fault (List Use)
  | [] => .ok []
  | plan :: rest => do
    let first ← plan.trace
    let others ← plansTrace rest
    return first ++ others

end

/-! ## Accounts -/

/-- The uses of some tokens are those that are spliced from them, those that are
finished, and those that are spliced into the finished ones. -/
def Balanced (scope : Scope) (all spliced finished : List Use) : Prop :=
  all.Perm (spliced ++ (finished ++ finished.flatMap (Use.spliced scope)))

theorem Balanced.nil (scope : Scope) : Balanced scope [] [] [] :=
  .refl _

theorem Balanced.append
    {scope : Scope}
    {left right leftSpliced rightSpliced leftFinished rightFinished : List Use}
    (first : Balanced scope left leftSpliced leftFinished)
    (second : Balanced scope right rightSpliced rightFinished) :
    Balanced scope (left ++ right) (leftSpliced ++ rightSpliced)
      (leftFinished ++ rightFinished) := by
  classical
  unfold Balanced at first second ⊢
  rw [List.perm_iff_count] at first second ⊢
  intro use
  have firstCount := first use
  have secondCount := second use
  simp only [List.count_append, List.flatMap_append] at firstCount secondCount ⊢
  omega

/-- A use that is finished takes what is spliced into it off the account. -/
theorem Balanced.finish
    {scope : Scope}
    {use : Use}
    {all reordered finished : List Use}
    (balanced : Balanced scope all (use.spliced scope) finished)
    (same : reordered.Perm all) :
    Balanced scope (use :: reordered) [] (finished ++ [use]) := by
  classical
  unfold Balanced at balanced ⊢
  rw [List.perm_iff_count] at balanced same ⊢
  intro other
  have count := balanced other
  have reorderedCount := same other
  simp only [List.count_append, List.flatMap_append, List.flatMap_cons, List.flatMap_nil,
    List.append_nil, List.nil_append, List.count_cons, List.count_nil] at count ⊢
  omega

/-- What is known of an expression whose plan meets no fault: there is none in
what it holds, and the account of its uses is balanced. -/
structure Accounted (scope : Scope) (entry : Use.Entry) (span : Span)
    (spliced finished : List Use) : Prop where
  sound : Use.Sound scope entry span
  balanced : Balanced scope (Use.allIn scope entry span) spliced finished

/-- The account of an expression, by how it is entered. -/
def HasAccount (scope : Scope) (entry : Use.Entry) (span : Span) : Prop :=
  match entry with
  | .searched => ∀ finished, (ofSpan scope span).trace = .ok finished →
      Accounted scope .searched span [] finished
  | .hole => ∀ finished, (ofHole scope span).trace = .ok finished →
      Accounted scope .hole span (Use.splicedIn scope span) finished

/-- What is known of some expressions whose plans meet no fault. -/
structure AllAccounted (scope : Scope) (entry : Use.Entry) (spans : List Span)
    (spliced finished : List Use) : Prop where
  sound : ∀ span ∈ spans, Use.Sound scope entry span
  balanced : Balanced scope (spans.flatMap (Use.allIn scope entry)) spliced finished

theorem AllAccounted.nil (scope : Scope) (entry : Use.Entry) :
    AllAccounted scope entry [] [] [] :=
  ⟨by simp, .nil scope⟩

theorem AllAccounted.cons
    {scope : Scope}
    {entry : Use.Entry}
    {span : Span}
    {spans : List Span}
    {spliced moreSpliced finished moreFinished : List Use}
    (first : Accounted scope entry span spliced finished)
    (others : AllAccounted scope entry spans moreSpliced moreFinished) :
    AllAccounted scope entry (span :: spans) (spliced ++ moreSpliced)
      (finished ++ moreFinished) := by
  refine ⟨fun other member => ?_, first.balanced.append others.balanced⟩
  rcases List.mem_cons.mp member with rfl | inOthers
  · exact first.sound
  · exact others.sound other inOthers

/-- The account of content from the accounts of its holes. -/
theorem allAccounted_of_pieces
    {scope : Scope}
    {finished : List Use}
    (parts : List Use.Part)
    (accounts : ∀ span ∈ parts.filterMap Use.Part.hole?, HasAccount scope .hole span)
    (traced : piecesTrace (parts.map (ofPart scope)) = .ok finished) :
    AllAccounted scope .hole (parts.filterMap Use.Part.hole?)
      ((parts.filterMap Use.Part.hole?).flatMap (Use.splicedIn scope)) finished := by
  induction parts generalizing finished with
  | nil =>
    simp only [List.map_nil, piecesTrace, Except.ok.injEq] at traced
    rw [← traced]
    exact .nil scope _
  | cons part parts inductionHypothesis =>
    rw [List.map_cons, piecesTrace] at traced
    obtain ⟨first, isFirst, isRest⟩ := exists_of_bind_ok traced
    obtain ⟨others, isOthers, isAll⟩ := exists_of_bind_ok isRest
    simp only [pure, Except.pure, Except.ok.injEq] at isAll
    rw [← isAll]
    cases part with
    | literal text =>
      simp only [ofPart, Piece.trace, Except.ok.injEq] at isFirst
      rw [← isFirst]
      exact inductionHypothesis (fun span member => accounts span member) isOthers
    | hole span =>
      have own := accounts span List.mem_cons_self
      have later := inductionHypothesis
        (fun other member => accounts other (List.mem_cons_of_mem _ member)) isOthers
      exact .cons (own first isFirst) later

private theorem balanced_of_use
    {scope : Scope}
    {use : Use}
    {finished : List Use}
    (accounts : ∀ inner ∈ use.role.entries, HasAccount scope inner.1 inner.2)
    (traced : (ofUse scope use).trace = .ok finished) :
    (∀ inner ∈ use.role.entries, Use.Sound scope inner.1 inner.2) ∧
      Balanced scope (use :: use.role.allIn scope) [] finished := by
  rw [ofUse_eq] at traced
  unfold Use.Role.allIn
  have alone : ∀ own : List Use, own = [use] → use.spliced scope = [] →
      Balanced scope [use] [] own := by
    rintro own rfl noSplice
    have nothing : Balanced scope [] (use.spliced scope) [] := by
      rw [noSplice]
      exact .nil scope
    exact nothing.finish (.refl _)
  cases isRole : use.role with
  | passThrough spec =>
    simp only [isRole, trace, Except.ok.injEq] at traced
    simp only [Use.Role.entries, List.not_mem_nil, false_implies, implies_true, true_and,
      List.flatMap_nil]
    exact alone finished traced.symm (by simp [Use.spliced, isRole])
  | bareValue spec position =>
    simp only [isRole, trace, Except.ok.injEq] at traced
    simp only [Use.Role.entries, List.not_mem_nil, false_implies, implies_true, true_and,
      List.flatMap_nil]
    exact alone finished traced.symm (by simp [Use.spliced, isRole])
  | invocation spec receiver content =>
    rw [isRole] at accounts
    simp only [isRole, trace] at traced
    obtain ⟨inContent, isContent, isRest⟩ := exists_of_bind_ok traced
    obtain ⟨inReceiver, isReceiver, isAll⟩ := exists_of_bind_ok isRest
    simp only [pure, Except.pure, Except.ok.injEq] at isAll
    rw [ofContent_eq] at isContent
    have holes := allAccounted_of_pieces content.parts
      (fun span isHole => accounts (.hole, span) (Use.Role.mem_entries_of_hole isHole)) isContent
    have applied : AllAccounted scope .searched receiver.arguments [] inReceiver := by
      cases receiver with
      | direct | member =>
        simp only [ofReceiver, Receiver.trace, Except.ok.injEq] at isReceiver
        rw [← isReceiver]
        exact .nil scope _
      | factory argument =>
        have own := accounts (.searched, argument)
          (List.mem_append_left _ (List.mem_singleton.mpr rfl))
        have alone := AllAccounted.cons (own inReceiver isReceiver) (.nil scope _)
        rwa [List.append_nil, List.append_nil] at alone
    constructor
    · intro inner isInner
      simp only [Use.Role.entries, List.mem_append, List.mem_map] at isInner
      rcases isInner with ⟨argument, isArgument, rfl⟩ | ⟨hole, isHole, rfl⟩
      · exact applied.sound argument isArgument
      · exact holes.sound hole isHole
    · rw [← isAll]
      have both := holes.balanced.append applied.balanced
      have isSpliced : use.spliced scope =
          (content.parts.filterMap Use.Part.hole?).flatMap (Use.splicedIn scope) := by
        simp only [Use.spliced, isRole]
        exact Use.Content.spliced_eq scope content
      rw [List.append_nil, ← isSpliced] at both
      refine both.finish ?_
      simp only [Use.Role.entries, List.flatMap_append, List.flatMap_map]
      exact List.perm_append_comm

private theorem balanced_of_uses
    {scope : Scope}
    {finished : List Use}
    (uses : List Use)
    (accounts : ∀ use ∈ uses, ∀ inner ∈ use.role.entries, HasAccount scope inner.1 inner.2)
    (traced : plansTrace (uses.map (ofUse scope)) = .ok finished) :
    (∀ use ∈ uses, ∀ inner ∈ use.role.entries, Use.Sound scope inner.1 inner.2) ∧
      Balanced scope (uses.flatMap fun use => use :: use.role.allIn scope) [] finished := by
  induction uses generalizing finished with
  | nil =>
    simp only [List.map_nil, plansTrace, Except.ok.injEq] at traced
    rw [← traced]
    exact ⟨by simp, .nil scope⟩
  | cons use uses inductionHypothesis =>
    rw [List.map_cons, plansTrace] at traced
    obtain ⟨first, isFirst, isRest⟩ := exists_of_bind_ok traced
    obtain ⟨others, isOthers, isAll⟩ := exists_of_bind_ok isRest
    simp only [pure, Except.pure, Except.ok.injEq] at isAll
    obtain ⟨ownSound, own⟩ := balanced_of_use (accounts use List.mem_cons_self) isFirst
    obtain ⟨laterSound, later⟩ := inductionHypothesis
      (fun other member => accounts other (List.mem_cons_of_mem _ member)) isOthers
    rw [← isAll]
    refine ⟨fun other member => ?_, own.append later⟩
    rcases List.mem_cons.mp member with rfl | inOthers
    · exact ownSound
    · exact laterSound other inOthers

/-- A plan that meets no fault finishes or splices every use in its tokens, each
once. -/
theorem hasAccount (scope : Scope) (entry : Use.Entry) (span : Span) :
    HasAccount scope entry span := by
  induction entry, span using Use.entry_induction scope with
  | step entry span inductionHypothesis =>
    have searched : ∀ uses finished, Use.foundIn scope entry span = .ok uses →
        Use.scan scope span.tokens = .ok uses → (ofSpan scope span).trace = .ok finished →
        Accounted scope entry span [] finished := by
      intro uses finished found scanned traced
      rw [ofSpan_of_scan span scanned, Expression.trace] at traced
      obtain ⟨sound, balanced⟩ :=
        balanced_of_uses uses (inductionHypothesis uses found) traced
      exact ⟨.intro found sound, by rwa [Use.allIn_of_foundIn found]⟩
    cases entry with
    | searched =>
      intro finished traced
      cases scanned : Use.scan scope span.tokens with
      | error fault => simp [ofSpan_of_fault span scanned, Expression.trace] at traced
      | ok uses => exact searched uses finished scanned scanned traced
    | hole =>
      intro finished traced
      cases isNested : Use.nested? scope span with
      | error fault => simp [ofHole_of_fault isNested, Piece.trace] at traced
      | ok result =>
        cases result with
        | none =>
          rw [ofHole_of_not_nested? isNested, Piece.trace] at traced
          rw [Use.splicedIn_of_not_nested? isNested]
          cases scanned : Use.scan scope span.tokens with
          | error fault => simp [ofSpan_of_fault span scanned, Expression.trace] at traced
          | ok uses =>
            have found : Use.foundIn scope .hole span = .ok uses := by
              rw [Use.foundIn_hole_of_not_nested? isNested, scanned]
            exact searched uses finished found scanned traced
        | some nested =>
          obtain ⟨use, content⟩ := nested
          have found := Use.foundIn_hole_of_nested? isNested
          obtain ⟨spec, isRole, _⟩ := (Use.fills_of_nested? isNested).isDirect
          have isEntries : use.role.entries = content.holes.map (Use.Entry.hole, ·) := by
            simp [isRole, Use.Role.entries, Use.Receiver.arguments]
          have accounts : ∀ hole ∈ content.holes, HasAccount scope .hole hole := by
            intro hole isHole
            refine inductionHypothesis [use] found use (List.mem_singleton.mpr rfl) (.hole, hole) ?_
            rw [isEntries]
            exact List.mem_map_of_mem isHole
          rw [ofHole_of_nested? isNested, Piece.trace, ofContent_eq] at traced
          have holes := allAccounted_of_pieces content.parts accounts traced
          constructor
          · refine .intro found fun other isOther inner isInner => ?_
            rw [List.mem_singleton.mp isOther, isEntries] at isInner
            obtain ⟨hole, isHole, rfl⟩ := List.mem_map.mp isInner
            exact holes.sound hole isHole
          · rw [Use.splicedIn_of_nested? isNested, Use.allIn_of_foundIn found,
              List.flatMap_singleton, Use.Content.spliced_eq, Use.Role.allIn, isEntries,
              List.flatMap_map]
            exact List.Perm.cons use holes.balanced

end Restyle.Plan
