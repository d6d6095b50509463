import Restyle.Proofs.Outcome
import Restyle.Proofs.Use.Scanned

/-!
Contract: the uses of a module at every depth.

Owns: `foundIn`, the uses that are found when an expression is entered;
induction over what uses hold and over what is spliced into content; `allIn`, the
uses of an expression and of what they hold; `Innermost`, the site of a token in
the innermost list in which it is looked at; that `allIn` has each head once, and
a use for each site at which one is due.

Does not own: what the expansion does with the uses.
-/

namespace Restyle.Use

open Restyle.Token

/-- The uses that are found when an expression is entered: the one that is
spliced from a hole, or those of a scan. -/
def foundIn (scope : Scope) (entry : Entry) (span : Span) : Except Fault (List Use) :=
  match entry with
  | .searched => scan scope span.tokens
  | .hole => do
    match ← nested? scope span with
    | some (use, _) => return [use]
    | none => scan scope span.tokens

theorem foundIn_hole_of_nested?
    {scope : Scope}
    {span : Span}
    {use : Use}
    {content : Content}
    (isNested : nested? scope span = .ok (some (use, content))) :
    foundIn scope .hole span = .ok [use] := by
  simp [foundIn, isNested, bind, Except.bind, pure, Except.pure]

theorem foundIn_hole_of_not_nested?
    {scope : Scope}
    {span : Span}
    (notNested : nested? scope span = .ok none) :
    foundIn scope .hole span = scan scope span.tokens := by
  simp [foundIn, notNested, bind, Except.bind]

/-- A direct invocation that fills a whole span and is spliced from it. -/
structure Fills (scope : Scope) (span : Span) (use : Use) (content : Content) : Prop where
  found : ∃ token after, span.tokens = token :: after ∧
    FoundAt scope ⟨[], token, after⟩ ⟨use, after.length⟩
  isDirect : ∃ spec, use.role = .invocation spec .direct content ∧ spec.inlinesNested.isTrue

theorem fills_of_nested?
    {scope : Scope}
    {span : Span}
    {use : Use}
    {content : Content}
    (isNested : nested? scope span = .ok (some (use, content))) :
    Fills scope span use content := by
  unfold nested? at isNested
  split at isNested
  · simp at isNested
  · rename_i token after isTokens
    obtain ⟨result, matched, isRest⟩ := exists_of_bind_ok isNested
    cases result with
    | none => simp [pure, Except.pure] at isRest
    | some found =>
      simp only at isRest
      split at isRest
      · rename_i spec inner isRole
        split at isRest
        · rename_i admitted
          simp only [Bool.and_eq_true, decide_eq_true_eq] at admitted
          simp only [pure, Except.pure, Except.ok.injEq, Option.some.injEq,
            Prod.mk.injEq] at isRest
          obtain ⟨rfl, rfl⟩ := isRest
          refine ⟨⟨token, after, isTokens, ?_⟩, spec, isRole, admitted.2⟩
          rw [← admitted.1]
          exact foundAt_of_matchAt matched
        · simp [pure, Except.pure] at isRest
      · simp [pure, Except.pure] at isRest

/-- A use that fills a span covers all tokens after its head. -/
theorem covers_of_fills
    {scope : Scope}
    {token : Token}
    {after : List Token}
    {use : Use}
    (found : FoundAt scope ⟨[], token, after⟩ ⟨use, after.length⟩) :
    use.role.Covers after := by
  have covers := found.covers.covers
  rwa [List.take_length] at covers

/-- The uses of an entered expression are those of a scan, or one that fills
it. -/
theorem cases_of_foundIn
    {scope : Scope}
    {entry : Entry}
    {span : Span}
    {uses : List Use}
    (found : foundIn scope entry span = .ok uses) :
    scan scope span.tokens = .ok uses ∨
      ∃ use content, uses = [use] ∧ Fills scope span use content := by
  unfold foundIn at found
  cases entry with
  | searched => exact .inl found
  | hole =>
    obtain ⟨result, isNested, isRest⟩ := exists_of_bind_ok found
    cases result with
    | none => exact .inl isRest
    | some pair =>
      simp only [pure, Except.pure, Except.ok.injEq] at isRest
      exact .inr ⟨pair.1, pair.2, isRest.symm, fills_of_nested? isNested⟩

/-! ## What the uses hold -/

/-- The heads of the uses and what the uses hold are tokens of the expression,
each once and in order. -/
theorem foundIn_held_sublist
    {scope : Scope}
    {entry : Entry}
    {span : Span}
    {uses : List Use}
    (found : foundIn scope entry span = .ok uses) :
    (uses.flatMap fun use => use.head :: use.role.held).Sublist (everywhere span.tokens) := by
  rcases cases_of_foundIn found with scanned | ⟨use, content, rfl, fills⟩
  · exact (scanned_of_scan scanned).held_sublist
  · obtain ⟨token, after, isTokens, isFound⟩ := fills.found
    rw [List.flatMap_singleton, isTokens, everywhere_cons, isFound.isHead, List.cons_append]
    exact .cons_cons _ ((covers_of_fills isFound).held_sublist.trans
      (List.sublist_append_right _ _))

private theorem foundAmong_of_foundIn
    {scope : Scope}
    {entry : Entry}
    {span : Span}
    {uses : List Use}
    {use : Use}
    (found : foundIn scope entry span = .ok uses)
    (member : use ∈ uses) :
    FoundAmong scope (everywhere span.tokens) use := by
  rcases cases_of_foundIn found with scanned | ⟨only, content, rfl, fills⟩
  · exact ((scanned_of_scan scanned).exists_found member).2
  · obtain ⟨token, after, isTokens, isFound⟩ := fills.found
    rw [List.mem_singleton.mp member, isTokens]
    exact ⟨_, _, isFound,
      List.Subset.trans (List.subset_cons_self _ _) (subset_everywhere _)⟩

private theorem held_of_mem_entries
    {role : Role}
    {entry : Entry × Span}
    (isEntry : entry ∈ role.entries) :
    everywhere entry.2.tokens ⊆ role.held :=
  fun _ member => List.mem_flatMap.mpr ⟨entry, isEntry, member⟩

/-- What an entry of a found use holds is held by the expression. -/
theorem everywhere_entry_subset
    {scope : Scope}
    {entry : Entry}
    {span : Span}
    {uses : List Use}
    {use : Use}
    {inner : Entry × Span}
    (found : foundIn scope entry span = .ok uses)
    (isUse : use ∈ uses)
    (isInner : inner ∈ use.role.entries) :
    everywhere inner.2.tokens ⊆ everywhere span.tokens := by
  intro token member
  refine (foundIn_held_sublist found).subset (List.mem_flatMap.mpr ⟨use, isUse, ?_⟩)
  exact List.mem_cons_of_mem _ (held_of_mem_entries isInner member)

/-! ## Induction over entries -/

/-- A hole of content weighs no more than the content. -/
theorem hole_weight_le
    {content : Content}
    {span : Span}
    (isHole : span ∈ content.holes) :
    span.weight ≤ content.weight := by
  obtain ⟨part, isPart, isSpan⟩ := List.mem_filterMap.mp isHole
  cases part with
  | literal => simp [Part.hole?] at isSpan
  | hole own =>
    simp only [Part.hole?, Option.some.injEq] at isSpan
    subst isSpan
    exact hole_weight_le_of_parts isPart

private theorem entry_weight_le
    {role : Role}
    {inner : Entry × Span}
    (isInner : inner ∈ role.entries) :
    inner.2.weight ≤ role.weight := by
  cases role with
  | passThrough => simp [Role.entries] at isInner
  | bareValue => simp [Role.entries] at isInner
  | invocation spec receiver content =>
    simp only [Role.entries, List.mem_append, List.mem_map] at isInner
    simp only [Role.weight]
    rcases isInner with ⟨argument, isArgument, rfl⟩ | ⟨hole, isHole, rfl⟩
    · cases receiver with
      | direct => simp [Receiver.arguments] at isArgument
      | member => simp [Receiver.arguments] at isArgument
      | factory own =>
        rw [Receiver.arguments, List.mem_singleton] at isArgument
        subst isArgument
        simp [Receiver.weight]
    · have bound := hole_weight_le isHole
      simp only
      omega

/-- An entry of a found use weighs less than the expression. -/
theorem entry_weight_lt
    {scope : Scope}
    {entry : Entry}
    {span : Span}
    {uses : List Use}
    {use : Use}
    {inner : Entry × Span}
    (found : foundIn scope entry span = .ok uses)
    (isUse : use ∈ uses)
    (isInner : inner ∈ use.role.entries) :
    inner.2.weight < span.weight := by
  have same : span.weight = Token.listWeight span.tokens := by cases span; rfl
  have own := entry_weight_le isInner
  rcases cases_of_foundIn found with scanned | ⟨only, content, rfl, fills⟩
  · have bound := weight_lt_of_scan scanned use isUse
    omega
  · obtain ⟨token, after, isTokens, isFound⟩ := fills.found
    have bound := isFound.boundRole.weight_le
    have positive := token.weight_pos
    rw [List.mem_singleton.mp isUse] at own
    rw [same, isTokens, Token.listWeight]
    simp only at bound
    omega

/-- What holds of an expression if it holds of the entries of the uses found in
it holds of every expression. -/
theorem entry_induction
    (scope : Scope)
    {motive : Entry → Span → Prop}
    (step : ∀ entry span,
      (∀ uses, foundIn scope entry span = .ok uses →
        ∀ use ∈ uses, ∀ inner ∈ use.role.entries, motive inner.1 inner.2) →
      motive entry span)
    (entry : Entry)
    (span : Span) :
    motive entry span := by
  induction bound : span.weight using Nat.strongRecOn generalizing entry span with
  | ind weight inductionHypothesis =>
    refine step entry span fun uses found use isUse inner isInner => ?_
    exact inductionHypothesis _ (bound ▸ entry_weight_lt found isUse isInner) _ _ rfl

/-- What holds of content in a source if it holds of all content that is spliced
into it holds of all content there. -/
theorem content_induction
    (scope : Scope)
    (source : List Char)
    {motive : Content → Prop}
    (step : ∀ content covered, content.Covers covered →
      (∀ token ∈ covered, Token.Placed source token) →
      (∀ span ∈ content.holes, ∀ use inner,
        nested? scope span = .ok (some (use, inner)) → motive inner) →
      motive content)
    {content : Content}
    {covered : List Token}
    (covers : content.Covers covered)
    (placed : ∀ token ∈ covered, Token.Placed source token) :
    motive content := by
  induction bound : content.weight using Nat.strongRecOn generalizing content covered with
  | ind weight inductionHypothesis =>
    refine step content covered covers placed fun span isHole use inner isNested => ?_
    have fills := fills_of_nested? isNested
    obtain ⟨token, after, isTokens, isFound⟩ := fills.found
    obtain ⟨spec, isRole, _⟩ := fills.isDirect
    have innerCovers := covers_of_fills isFound
    rw [isRole] at innerCovers
    have inSpan : ∀ other ∈ after, Token.Placed source other := by
      intro other isOther
      refine placed_everywhere placed other (covers.holes_sublist.subset ?_)
      refine List.mem_flatMap.mpr ⟨span, isHole, subset_everywhere _ ?_⟩
      rw [isTokens]
      exact List.mem_cons_of_mem _ isOther
    have lighter := content_weight_lt_of_nested? isNested
    have atMost := hole_weight_le isHole
    cases innerCovers with
    | direct own => exact inductionHypothesis inner.weight (by omega) own inSpan rfl

/-! ## All uses -/

/-- The uses found in an expression and in what they hold, each before those
that it holds. -/
def allIn (scope : Scope) (entry : Entry) (span : Span) : List Use :=
  match _found : foundIn scope entry span with
  | .error _ => []
  | .ok uses =>
    uses.attach.flatMap fun ⟨use, _isUse⟩ =>
      use :: use.role.entries.attach.flatMap fun ⟨inner, _isInner⟩ => allIn scope inner.1 inner.2
termination_by span.weight
decreasing_by exact entry_weight_lt _found _isUse _isInner

def Role.allIn (scope : Scope) (role : Role) : List Use :=
  role.entries.flatMap fun inner => Use.allIn scope inner.1 inner.2

private theorem flatMap_sublist
    {α β : Type}
    {items : List α}
    {small large : α → List β}
    (below : ∀ item ∈ items, (small item).Sublist (large item)) :
    (items.flatMap small).Sublist (items.flatMap large) := by
  induction items with
  | nil => exact .slnil
  | cons item rest inductionHypothesis =>
    rw [List.flatMap_cons, List.flatMap_cons]
    exact .append (below item List.mem_cons_self)
      (inductionHypothesis fun other member => below other (List.mem_cons_of_mem _ member))

private theorem flatMap_attach {α β : Type} (items : List α) (transform : α → List β) :
    (items.attach.flatMap fun item => transform item.val) = items.flatMap transform := by
  rw [← List.flatMap_map, List.attach_map_subtype_val]

theorem allIn_of_foundIn
    {scope : Scope}
    {entry : Entry}
    {span : Span}
    {uses : List Use}
    (found : foundIn scope entry span = .ok uses) :
    allIn scope entry span = uses.flatMap fun use => use :: use.role.allIn scope := by
  rw [allIn]
  split
  · rename_i fault failed
    rw [found] at failed
    simp at failed
  · rename_i others isOthers
    rw [found, Except.ok.injEq] at isOthers
    subst isOthers
    refine Eq.trans ?_ (flatMap_attach uses fun use => use :: use.role.allIn scope)
    refine congrArg (List.flatMap · uses.attach) (funext fun use => ?_)
    exact congrArg (use.val :: ·)
      (flatMap_attach use.val.role.entries fun inner => Use.allIn scope inner.1 inner.2)

theorem allIn_of_fault
    {scope : Scope}
    {entry : Entry}
    {span : Span}
    {fault : Fault}
    (failed : foundIn scope entry span = .error fault) :
    allIn scope entry span = [] := by
  rw [allIn]
  split
  · rfl
  · rename_i others isOthers
    rw [failed] at isOthers
    simp at isOthers

/-- The heads of all uses are tokens of the expression, each once and in order. -/
theorem heads_sublist (scope : Scope) (entry : Entry) (span : Span) :
    ((allIn scope entry span).map (·.head)).Sublist (everywhere span.tokens) := by
  induction entry, span using entry_induction scope with
  | step entry span inductionHypothesis =>
    cases found : foundIn scope entry span with
    | error fault =>
      rw [allIn_of_fault found]
      exact List.nil_sublist _
    | ok uses =>
      refine List.Sublist.trans ?_ (foundIn_held_sublist found)
      rw [allIn_of_foundIn found, List.map_flatMap]
      refine flatMap_sublist fun use isUse => ?_
      rw [List.map_cons]
      refine .cons_cons _ ?_
      rw [Role.allIn, List.map_flatMap, Role.held]
      exact flatMap_sublist fun inner isInner =>
        inductionHypothesis uses found use isUse inner isInner

/-- Every use was found among the tokens of the expression. -/
theorem foundAmong_of_allIn
    {scope : Scope}
    {entry : Entry}
    {span : Span}
    {use : Use}
    (member : use ∈ allIn scope entry span) :
    FoundAmong scope (everywhere span.tokens) use := by
  induction entry, span using entry_induction scope with
  | step entry span inductionHypothesis =>
    cases found : foundIn scope entry span with
    | error fault => simp [allIn_of_fault found] at member
    | ok uses =>
      rw [allIn_of_foundIn found] at member
      obtain ⟨outer, isOuter, inOuter⟩ := List.mem_flatMap.mp member
      rcases List.mem_cons.mp inOuter with rfl | deeper
      · exact foundAmong_of_foundIn found isOuter
      · obtain ⟨inner, isInner, inInner⟩ := List.mem_flatMap.mp deeper
        have among := inductionHypothesis uses found outer isOuter inner isInner inInner
        exact among.of_subset (everywhere_entry_subset found isOuter isInner)

/-! ## The innermost list of a token -/

/-- The site of a token in the innermost list in which it is looked at: it lies
in an entered expression, in a hole of one at most, and in no entry of the uses
found there. -/
inductive Innermost (scope : Scope) : Entry → Span → Site → Prop where
  | here {entry : Entry} {span : Span} {uses : List Use} {site : Site}
      (found : foundIn scope entry span = .ok uses)
      (member : site ∈ Site.all span.tokens)
      (outside : ∀ use ∈ uses, ∀ inner ∈ use.role.entries,
        site.token ∉ everywhere inner.2.tokens) :
      Innermost scope entry span site
  | within {entry : Entry} {span : Span} {uses : List Use} {use : Use} {inner : Entry × Span}
      {site : Site}
      (found : foundIn scope entry span = .ok uses)
      (isUse : use ∈ uses)
      (isInner : inner ∈ use.role.entries)
      (deeper : Innermost scope inner.1 inner.2 site) :
      Innermost scope entry span site

/-- No fault is met in an expression and in what its uses hold. -/
inductive Sound (scope : Scope) : Entry → Span → Prop where
  | intro {entry : Entry} {span : Span} {uses : List Use}
      (found : foundIn scope entry span = .ok uses)
      (deeper : ∀ use ∈ uses, ∀ inner ∈ use.role.entries, Sound scope inner.1 inner.2) :
      Sound scope entry span

/-- Every token at any depth is looked at in some innermost list. -/
theorem Sound.exists_innermost
    {scope : Scope}
    {entry : Entry}
    {span : Span}
    {token : Token}
    (sound : Sound scope entry span)
    (member : token ∈ everywhere span.tokens) :
    ∃ site, site.token = token ∧ Innermost scope entry span site := by
  induction sound with
  | @intro entry span uses found _ inductionHypothesis =>
    by_cases inEntry : ∃ use ∈ uses, ∃ inner ∈ use.role.entries, token ∈ everywhere inner.2.tokens
    · obtain ⟨use, isUse, inner, isInner, inInner⟩ := inEntry
      obtain ⟨site, isToken, innermost⟩ := inductionHypothesis use isUse inner isInner inInner
      exact ⟨site, isToken, .within found isUse isInner innermost⟩
    · obtain ⟨site, isSite, rfl⟩ := List.mem_map.mp member
      exact ⟨site, rfl, .here found isSite fun use isUse inner isInner inInner =>
        inEntry ⟨use, isUse, inner, isInner, inInner⟩⟩

/-- Where a use is due in an entered expression, one is found there, or the site
is in an entry of one. -/
theorem found_of_due
    {scope : Scope}
    {source : List Char}
    {entry : Entry}
    {span : Span}
    {uses : List Use}
    (found : foundIn scope entry span = .ok uses)
    (surveyed : Surveyed scope source span.tokens)
    {site : Site}
    (member : site ∈ Site.all span.tokens)
    (due : Due scope site) :
    ∃ use ∈ uses, use.head = site.token ∨
      ∃ inner ∈ use.role.entries, site.token ∈ everywhere inner.2.tokens := by
  rcases cases_of_foundIn found with scanned | ⟨use, content, rfl, fills⟩
  · exact (scanned_of_scan scanned).found_of_due surveyed member due
  · obtain ⟨token, after, isTokens, isFound⟩ := fills.found
    have whole : FoundAt scope ⟨[], token, after ++ []⟩ ⟨use, after.length⟩ := by
      rwa [List.append_nil]
    rw [isTokens] at surveyed
    rw [isTokens, ← List.append_nil after] at member
    have placed : ∀ inner ∈ after, Token.Placed source inner := fun inner inAfter =>
      surveyed.placed inner (subset_everywhere _ (List.mem_cons_of_mem _ inAfter))
    rcases whole.found_of_due (covers_of_fills isFound) placed member due with
      isHead | inEntry | inRest
    · exact ⟨use, List.mem_singleton.mpr rfl, .inl isHead⟩
    · exact ⟨use, List.mem_singleton.mpr rfl, .inr inEntry⟩
    · simp [Site.allFrom] at inRest

/-- Where a use is due in an innermost list, there is one. -/
theorem Innermost.exists_use
    {scope : Scope}
    {source : List Char}
    {entry : Entry}
    {span : Span}
    {site : Site}
    (innermost : Innermost scope entry span site)
    (surveyed : Surveyed scope source span.tokens)
    (due : Due scope site) :
    ∃ use ∈ allIn scope entry span, use.head = site.token := by
  induction innermost with
  | @here entry span uses site found member outside =>
    obtain ⟨use, isUse, isHead | ⟨inner, isInner, inInner⟩⟩ :=
      found_of_due found surveyed member due
    · rw [allIn_of_foundIn found]
      exact ⟨use, List.mem_flatMap.mpr ⟨use, isUse, List.mem_cons_self⟩, isHead⟩
    · exact absurd inInner (outside use isUse inner isInner)
  | @within entry span uses use inner site found isUse isInner _ inductionHypothesis =>
    have narrower := surveyed.of_subset (everywhere_entry_subset found isUse isInner)
    obtain ⟨deep, isDeep, isHead⟩ := inductionHypothesis narrower due
    rw [allIn_of_foundIn found]
    refine ⟨deep, List.mem_flatMap.mpr ⟨use, isUse, ?_⟩, isHead⟩
    exact List.mem_cons_of_mem _ (List.mem_flatMap.mpr ⟨inner, isInner, isDeep⟩)

/-! ## Splicing -/

mutual

/-- The use that is spliced from a hole, and those that are spliced into it. -/
def splicedIn (scope : Scope) (span : Span) : List Use :=
  match _isNested : nested? scope span with
  | .ok (some (use, content)) => use :: content.spliced scope
  | _ => []
termination_by 2 * span.weight
decreasing_by
  have bound := content_weight_lt_of_nested? _isNested
  omega

/-- The uses that are spliced into content, at every depth. -/
def Content.spliced (scope : Scope) (content : Content) : List Use :=
  content.holes.attach.flatMap fun ⟨span, _isHole⟩ => splicedIn scope span
termination_by 2 * content.weight + 1
decreasing_by
  have bound := hole_weight_le _isHole
  omega

end

/-- The uses that are spliced into a use. -/
def spliced (scope : Scope) (use : Use) : List Use :=
  match use.role with
  | .invocation _ _ content => content.spliced scope
  | _ => []

theorem Content.spliced_eq (scope : Scope) (content : Content) :
    content.spliced scope = content.holes.flatMap (splicedIn scope) := by
  rw [Content.spliced]
  exact flatMap_attach _ _

theorem splicedIn_of_nested?
    {scope : Scope}
    {span : Span}
    {use : Use}
    {content : Content}
    (isNested : nested? scope span = .ok (some (use, content))) :
    splicedIn scope span = use :: content.spliced scope := by
  rw [splicedIn]
  split
  · rename_i other inner isOther
    rw [isNested] at isOther
    simp only [Except.ok.injEq, Option.some.injEq, Prod.mk.injEq] at isOther
    rw [isOther.1, isOther.2]
  · rename_i other
    exact absurd isNested (other use content)

theorem splicedIn_of_not_nested?
    {scope : Scope}
    {span : Span}
    (notNested : nested? scope span = .ok none) :
    splicedIn scope span = [] := by
  rw [splicedIn]
  split
  · rename_i other inner isOther
    rw [notNested] at isOther
    simp at isOther
  · rfl

end Restyle.Use
