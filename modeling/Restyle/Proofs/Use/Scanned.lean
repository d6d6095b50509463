import Restyle.Proofs.Use.Entries

/-!
Contract: what a scan for uses does.

Owns: `Scanned`, the shape of a scan: a declared token is passed over, a use
takes its head and the tokens it covers, and the holes of any other token are
scanned in turn; what follows from it for the tokens that uses hold, for the
identifiers that no use holds, and for where the uses lie.

Proofs about scans are inductions over `Scanned` and never open `scanFrom`.
-/

namespace Restyle.Use

open Restyle.Token

mutual

/-- The uses of a list of tokens whose earlier part is given nearest first. -/
inductive Scanned (scope : Scope) : List Token → List Token → List Use → Prop where
  | nil {before : List Token} : Scanned scope before [] []
  | declared {before after : List Token} {token : Token} {uses : List Use}
      (declared : scope.module.declares token)
      (later : Scanned scope (token :: before) after uses) :
      Scanned scope before (token :: after) uses
  | use {before covered after : List Token} {token : Token} {use : Use} {others : List Use}
      (undeclared : ¬ scope.module.declares token)
      (found : FoundAt scope ⟨before, token, covered ++ after⟩ ⟨use, covered.length⟩)
      (covers : use.role.Covers covered)
      (later : Scanned scope (covered.reverse ++ token :: before) after others) :
      Scanned scope before (token :: (covered ++ after)) (use :: others)
  | other {before after : List Token} {token : Token} {inner others : List Use}
      (unmatched : matchAt scope ⟨before, token, after⟩ = .ok none)
      (holes : HolesScanned scope token.holes inner)
      (later : Scanned scope (token :: before) after others) :
      Scanned scope before (token :: after) (inner ++ others)

/-- The uses of some holes, one hole after the other. -/
inductive HolesScanned (scope : Scope) : List Span → List Use → Prop where
  | nil : HolesScanned scope [] []
  | cons {hole : Span} {holes : List Span} {first others : List Use}
      (own : Scanned scope [] hole.tokens first)
      (later : HolesScanned scope holes others) :
      HolesScanned scope (hole :: holes) (first ++ others)

end

/-! ## Scanning -/

mutual

private theorem scanned_of_scanFrom
    {scope : Scope}
    {before : List Token}
    {skip : Nat}
    {uses : List Use}
    (tokens : List Token)
    (fits : skip ≤ tokens.length)
    (scanned : scanFrom scope before skip tokens = .ok uses) :
    Scanned scope ((tokens.take skip).reverse ++ before) (tokens.drop skip) uses :=
  match tokens, skip with
  | [], 0 => by
    simp only [scanFrom, Except.ok.injEq] at scanned
    rw [← scanned]
    exact .nil
  | token :: after, skip + 1 => by
    have later := scanned_of_scanFrom after (by simpa using fits) scanned
    simpa using later
  | token :: after, 0 => by
    change Scanned scope before (token :: after) uses
    simp only [scanFrom] at scanned
    split at scanned
    · rename_i declared
      exact .declared declared (scanned_of_scanFrom after (Nat.zero_le _) scanned)
    · rename_i undeclared
      obtain ⟨result, matched, isRest⟩ := exists_of_bind_ok scanned
      cases result with
      | some found =>
        obtain ⟨others, isOthers, isAll⟩ := exists_of_bind_ok isRest
        simp only [pure, Except.pure, Except.ok.injEq] at isAll
        subst isAll
        have isFound := foundAt_of_matchAt matched
        have covers := isFound.covers
        have later := scanned_of_scanFrom after covers.fits isOthers
        have size : (after.take found.length).length = found.length :=
          List.length_take_of_le covers.fits
        rw [← List.take_append_drop found.length after] at isFound ⊢
        exact .use undeclared (by rwa [size]) covers.covers later
      | none =>
        obtain ⟨inner, isInner, isRest⟩ := exists_of_bind_ok isRest
        obtain ⟨others, isOthers, isAll⟩ := exists_of_bind_ok isRest
        simp only [pure, Except.pure, Except.ok.injEq] at isAll
        subst isAll
        exact .other matched (scanned_of_scanToken token isInner)
          (scanned_of_scanFrom after (Nat.zero_le _) isOthers)

private theorem scanned_of_scanToken
    {scope : Scope}
    {uses : List Use}
    (token : Token)
    (scanned : scanToken scope token = .ok uses) :
    HolesScanned scope token.holes uses :=
  match token with
  | ⟨_, _, _, .atom _⟩ => by
    simp only [scanToken, scanBody, Except.ok.injEq] at scanned
    rw [← scanned]
    exact .nil
  | ⟨_, _, _, .template ⟨_, rest⟩⟩ => scanned_of_scanLinks rest scanned

private theorem scanned_of_scanLinks
    {scope : Scope}
    {uses : List Use}
    (links : List Template.Link)
    (scanned : scanLinks scope links = .ok uses) :
    HolesScanned scope (links.map (·.hole)) uses :=
  match links with
  | [] => by
    simp only [scanLinks, Except.ok.injEq] at scanned
    rw [← scanned]
    exact .nil
  | ⟨⟨tokens, start, stop⟩, chunk⟩ :: rest => by
    simp only [scanLinks, scanLink, scanSpan] at scanned
    obtain ⟨first, isFirst, isRest⟩ := exists_of_bind_ok scanned
    obtain ⟨others, isOthers, isAll⟩ := exists_of_bind_ok isRest
    simp only [pure, Except.pure, Except.ok.injEq] at isAll
    subst isAll
    exact .cons (scanned_of_scanFrom tokens (Nat.zero_le _) isFirst)
      (scanned_of_scanLinks rest isOthers)

end

/-- What a scan gives is the uses of the list. -/
theorem scanned_of_scan
    {scope : Scope}
    {tokens : List Token}
    {uses : List Use}
    (scanned : scan scope tokens = .ok uses) :
    Scanned scope [] tokens uses :=
  scanned_of_scanFrom tokens (Nat.zero_le _) scanned

/-! ## Modules without bindings -/

private theorem matchAt_of_no_bindings
    {scope : Scope}
    (isEmpty : scope.bindings = [])
    (site : Site) :
    matchAt scope site = .ok none := by
  unfold matchAt
  split
  · simp [isEmpty, Binding.Table.find?]
  · rfl

mutual

/-- Where nothing is bound, nothing is used. -/
theorem scanFrom_of_no_bindings
    {scope : Scope}
    (isEmpty : scope.bindings = [])
    (before : List Token)
    (skip : Nat)
    (tokens : List Token) :
    scanFrom scope before skip tokens = .ok [] :=
  match tokens, skip with
  | [], _ => by simp only [scanFrom]
  | token :: after, skip + 1 => scanFrom_of_no_bindings isEmpty (token :: before) skip after
  | token :: after, 0 => by
    have later := scanFrom_of_no_bindings isEmpty (token :: before) 0 after
    have inner := scanToken_of_no_bindings isEmpty token
    simp only [scanFrom, matchAt_of_no_bindings isEmpty, later, inner, bind, Except.bind, pure,
      Except.pure, List.append_nil, ite_self]

private theorem scanToken_of_no_bindings
    {scope : Scope}
    (isEmpty : scope.bindings = [])
    (token : Token) :
    scanToken scope token = .ok [] :=
  match token with
  | ⟨_, _, _, .atom _⟩ => by simp only [scanToken, scanBody]
  | ⟨_, _, _, .template ⟨_, rest⟩⟩ => scanLinks_of_no_bindings isEmpty rest

private theorem scanLinks_of_no_bindings
    {scope : Scope}
    (isEmpty : scope.bindings = [])
    (links : List Template.Link) :
    scanLinks scope links = .ok [] :=
  match links with
  | [] => by simp only [scanLinks]
  | ⟨⟨tokens, _, _⟩, _⟩ :: rest => by
    have own := scanFrom_of_no_bindings isEmpty [] 0 tokens
    have later := scanLinks_of_no_bindings isEmpty rest
    simp only [scanLinks, scanLink, scanSpan, own, later, bind, Except.bind, pure, Except.pure,
      List.append_nil]

end

/-! ## What uses hold -/

mutual

/-- The heads of the uses and what the uses hold are tokens of the list, each
once and in order. -/
theorem Scanned.held_sublist
    {scope : Scope}
    {before tokens : List Token}
    {uses : List Use}
    (scanned : Scanned scope before tokens uses) :
    (uses.flatMap fun use => use.head :: use.role.held).Sublist (everywhere tokens) :=
  match scanned with
  | .nil => List.nil_sublist _
  | .declared _ later => by
    rw [everywhere_cons]
    exact later.held_sublist.trans (List.sublist_append_right _ _)
  | .use _ found covers later => by
    rw [List.flatMap_cons, everywhere_cons, everywhere_append, found.isHead, List.cons_append,
      List.cons_append]
    refine .cons_cons _ (List.Sublist.trans ?_ (List.sublist_append_right _ _))
    exact .append covers.held_sublist later.held_sublist
  | .other _ holes later => by
    rw [List.flatMap_append, everywhere_cons, inside_eq_holes, List.cons_append]
    exact .cons _ (.append holes.held_sublist later.held_sublist)

theorem HolesScanned.held_sublist
    {scope : Scope}
    {holes : List Span}
    {uses : List Use}
    (scanned : HolesScanned scope holes uses) :
    (uses.flatMap fun use => use.head :: use.role.held).Sublist
      (holes.flatMap (everywhere ·.tokens)) :=
  match scanned with
  | .nil => List.nil_sublist _
  | .cons own later => by
    rw [List.flatMap_append, List.flatMap_cons]
    exact .append own.held_sublist later.held_sublist

end

/-- A use was found at a site after which only some given tokens stand. -/
def FoundAmong (scope : Scope) (tokens : List Token) (use : Use) : Prop :=
  ∃ site length, FoundAt scope site ⟨use, length⟩ ∧ site.after ⊆ tokens

theorem FoundAmong.of_subset
    {scope : Scope}
    {tokens others : List Token}
    {use : Use}
    (found : FoundAmong scope tokens use)
    (subset : tokens ⊆ others) :
    FoundAmong scope others use := by
  obtain ⟨site, length, isFound, within⟩ := found
  exact ⟨site, length, isFound, List.Subset.trans within subset⟩

mutual

/-- Every use was found at an undeclared token, at one of the sites of the list, and
what follows it there are tokens of the list. -/
theorem Scanned.exists_site
    {scope : Scope}
    {before tokens : List Token}
    {uses : List Use}
    (scanned : Scanned scope before tokens uses)
    {use : Use}
    (member : use ∈ uses) :
    ¬ scope.module.declares use.head ∧
      ∃ site ∈ Site.allFrom before tokens, ∃ length,
        FoundAt scope site ⟨use, length⟩ ∧ site.after ⊆ everywhere tokens :=
  match scanned with
  | .nil => by simp at member
  | .declared _ later => by
    obtain ⟨undeclared, site, inLater, length, found, within⟩ := later.exists_site member
    rw [Site.allFrom, everywhere_cons]
    exact ⟨undeclared, site, List.mem_append_right _ inLater, length, found,
      List.subset_append_of_subset_right _ within⟩
  | @Scanned.use _ _ covered _ _ _ _ undeclared found _ later => by
    rw [Site.allFrom, everywhere_cons]
    rcases List.mem_cons.mp member with rfl | inOthers
    · exact ⟨found.isHead ▸ undeclared, _, List.mem_append_left _ List.mem_cons_self, _, found,
        List.subset_append_of_subset_right _ (subset_everywhere _)⟩
    · obtain ⟨undeclared, site, inLater, length, isFound, within⟩ := later.exists_site inOthers
      refine ⟨undeclared, site, List.mem_append_right _ (mem_allFrom_append_right covered inLater),
        length, isFound, List.subset_append_of_subset_right _ ?_⟩
      rw [everywhere_append]
      exact List.subset_append_of_subset_right _ within
  | .other _ holes later => by
    rw [Site.allFrom, everywhere_cons, inside_eq_holes]
    rcases List.mem_append.mp member with inHoles | inOthers
    · obtain ⟨undeclared, hole, isHole, site, inHole, length, found, within⟩ :=
        holes.exists_site inHoles
      refine ⟨undeclared, site, List.mem_append_left _ (List.mem_cons_of_mem _
        (mem_inToken_of_hole isHole inHole)), length, found, ?_⟩
      refine List.subset_append_of_subset_left _ (List.subset_cons_of_subset _ ?_)
      exact fun _ inAfter => List.mem_flatMap.mpr ⟨hole, isHole, within inAfter⟩
    · obtain ⟨undeclared, site, inLater, length, found, within⟩ := later.exists_site inOthers
      exact ⟨undeclared, site, List.mem_append_right _ inLater, length, found,
        List.subset_append_of_subset_right _ within⟩

theorem HolesScanned.exists_site
    {scope : Scope}
    {holes : List Span}
    {uses : List Use}
    (scanned : HolesScanned scope holes uses)
    {use : Use}
    (member : use ∈ uses) :
    ¬ scope.module.declares use.head ∧
      ∃ hole ∈ holes, ∃ site ∈ Site.all hole.tokens, ∃ length,
        FoundAt scope site ⟨use, length⟩ ∧ site.after ⊆ everywhere hole.tokens :=
  match scanned with
  | .nil => by simp at member
  | .cons own later => by
    rcases List.mem_append.mp member with inFirst | inOthers
    · obtain ⟨undeclared, found⟩ := own.exists_site inFirst
      exact ⟨undeclared, _, List.mem_cons_self, found⟩
    · obtain ⟨undeclared, hole, isHole, found⟩ := later.exists_site inOthers
      exact ⟨undeclared, hole, List.mem_cons_of_mem _ isHole, found⟩

end

/-- Every use was found at an undeclared token, among the tokens of the list. -/
theorem Scanned.exists_found
    {scope : Scope}
    {before tokens : List Token}
    {uses : List Use}
    (scanned : Scanned scope before tokens uses)
    {use : Use}
    (member : use ∈ uses) :
    ¬ scope.module.declares use.head ∧ FoundAmong scope (everywhere tokens) use := by
  obtain ⟨undeclared, site, _, length, found⟩ := scanned.exists_site member
  exact ⟨undeclared, site, length, found⟩

/-! ## What no use holds -/

/-- A site at which a use is due: an identifier outside all declarations that
is bound and refers to its binding. -/
structure Due (scope : Scope) (site : Site) : Prop where
  isIdentifier : site.token.is .identifier
  undeclared : ¬ scope.module.declares site.token
  isBound : (scope.bindings.find? site.token.text).isSome
  refers : isReference site

private theorem not_isReference_after_point
    {site : Site}
    {point : Token}
    {before : List Token}
    (isBefore : site.before = point :: before)
    (isPoint : point.text = ".") :
    ¬ isReference site := by
  have previous : site.previous? = some point := by simp [Site.previous?, isBefore]
  simp [isReference, Site.follows, previous, isPoint]

/-- Among the tokens that a use takes, another use is due at its head only, or
in an entry. -/
theorem FoundAt.found_of_due
    {scope : Scope}
    {source : List Char}
    {before covered after : List Token}
    {token : Token}
    {use : Use}
    (found : FoundAt scope ⟨before, token, covered ++ after⟩ ⟨use, covered.length⟩)
    (covers : use.role.Covers covered)
    (placed : ∀ inner ∈ covered, Token.Placed source inner)
    {site : Site}
    (member : site ∈ Site.allFrom before (token :: (covered ++ after)))
    (due : Due scope site) :
    use.head = site.token ∨
      (∃ entry ∈ use.role.entries, site.token ∈ everywhere entry.2.tokens) ∨
      site ∈ Site.allFrom (covered.reverse ++ token :: before) after := by
  simp only [Site.allFrom, List.cons_append, List.mem_cons, List.mem_append] at member
  rcases member with rfl | inToken | inRest
  · exact .inl found.isHead
  · have none := token_mem_inside inToken
    simp [inside_of_atom (template?_of_is found.isIdentifier)] at none
  · rcases cases_of_mem_allFrom_append covered inRest with
      ⟨front, inner, back, rfl, rfl | inInner⟩ | inAfter
    · obtain ⟨noParen, noPoint⟩ :=
        text_ne_of_identifier (placed inner (by simp)) due.isIdentifier
      rcases covers.identifier_in_entry due.isIdentifier noParen noPoint with
        inEntry | ⟨first, point, rfl, isPoint⟩
      · exact .inr (.inl inEntry)
      · exact absurd due.refers (not_isReference_after_point (by simp; rfl) isPoint)
    · exact .inr (.inl (covers.inside_in_entry (by simp) (token_mem_inside inInner)))
    · exact .inr (.inr inAfter)

/-- Tokens of a source, of which a declared one holds declared ones only. -/
structure Surveyed (scope : Scope) (source : List Char) (tokens : List Token) : Prop where
  placed : ∀ token ∈ everywhere tokens, Token.Placed source token
  whole : ∀ outer ∈ everywhere tokens, scope.module.declares outer →
    ∀ token ∈ inside outer, scope.module.declares token

theorem Surveyed.of_subset
    {scope : Scope}
    {source : List Char}
    {tokens more : List Token}
    (surveyed : Surveyed scope source more)
    (subset : everywhere tokens ⊆ everywhere more) :
    Surveyed scope source tokens :=
  ⟨fun token member => surveyed.placed token (subset member),
    fun outer member => surveyed.whole outer (subset member)⟩

theorem Surveyed.later
    {scope : Scope}
    {source : List Char}
    {rest : List Token}
    (first : List Token)
    (surveyed : Surveyed scope source (first ++ rest)) :
    Surveyed scope source rest :=
  surveyed.of_subset (by simp)

mutual

/-- Where a use is due, one is found there, or the site is in an entry of one. -/
theorem Scanned.found_of_due
    {scope : Scope}
    {source : List Char}
    {before tokens : List Token}
    {uses : List Use}
    (scanned : Scanned scope before tokens uses)
    (surveyed : Surveyed scope source tokens)
    {site : Site}
    (member : site ∈ Site.allFrom before tokens)
    (due : Due scope site) :
    ∃ use ∈ uses, use.head = site.token ∨
      ∃ entry ∈ use.role.entries, site.token ∈ everywhere entry.2.tokens :=
  match scanned with
  | .nil => by simp [Site.allFrom] at member
  | @Scanned.declared _ _ _ token _ declared later => by
    simp only [Site.allFrom, List.cons_append, List.mem_cons, List.mem_append] at member
    rcases member with rfl | inToken | inRest
    · exact absurd declared due.undeclared
    · have inner := surveyed.whole token (by simp [everywhere_cons]) declared _
        (token_mem_inside inToken)
      exact absurd inner due.undeclared
    · exact later.found_of_due (surveyed.later [token]) inRest due
  | @Scanned.use _ _ covered _ token use _ _ found covers later => by
    rcases found.found_of_due covers
        (fun inner isCovered => surveyed.placed inner (subset_everywhere _ (by simp [isCovered])))
        member due with isHead | inEntry | inAfter
    · exact ⟨use, List.mem_cons_self, .inl isHead⟩
    · exact ⟨use, List.mem_cons_self, .inr inEntry⟩
    · obtain ⟨other, isOther, holds⟩ :=
        later.found_of_due (surveyed.later (token :: covered)) inAfter due
      exact ⟨other, List.mem_cons_of_mem _ isOther, holds⟩
  | @Scanned.other _ _ _ token _ _ unmatched holes later => by
    simp only [Site.allFrom, List.cons_append, List.mem_cons, List.mem_append] at member
    rcases member with rfl | inToken | inRest
    · obtain ⟨binding, isBound⟩ := Option.isSome_iff_exists.mp due.isBound
      obtain ⟨found, isSome⟩ :=
        exists_match_of_reference due.isIdentifier due.refers isBound unmatched
      simp at isSome
    · obtain ⟨hole, isHole, inHole⟩ := exists_hole_of_mem_inToken inToken
      have inner : ∀ hole ∈ token.holes, Surveyed scope source hole.tokens := by
        intro hole isHole
        refine surveyed.of_subset fun deep inDeep => ?_
        rw [everywhere_cons, inside_eq_holes]
        exact List.mem_append_left _
          (List.mem_cons_of_mem _ (List.mem_flatMap.mpr ⟨hole, isHole, inDeep⟩))
      obtain ⟨use, isUse, holds⟩ := holes.found_of_due inner isHole inHole due
      exact ⟨use, List.mem_append_left _ isUse, holds⟩
    · obtain ⟨use, isUse, holds⟩ := later.found_of_due (surveyed.later [token]) inRest due
      exact ⟨use, List.mem_append_right _ isUse, holds⟩

theorem HolesScanned.found_of_due
    {scope : Scope}
    {source : List Char}
    {holes : List Span}
    {uses : List Use}
    (scanned : HolesScanned scope holes uses)
    (surveyed : ∀ hole ∈ holes, Surveyed scope source hole.tokens)
    {hole : Span}
    {site : Site}
    (isHole : hole ∈ holes)
    (member : site ∈ Site.all hole.tokens)
    (due : Due scope site) :
    ∃ use ∈ uses, use.head = site.token ∨
      ∃ entry ∈ use.role.entries, site.token ∈ everywhere entry.2.tokens :=
  match scanned with
  | .nil => by simp at isHole
  | .cons own later => by
    rcases List.mem_cons.mp isHole with isFirst | inOthers
    · rw [isFirst] at member
      obtain ⟨use, isUse, holds⟩ :=
        own.found_of_due (surveyed _ List.mem_cons_self) member due
      exact ⟨use, List.mem_append_left _ isUse, holds⟩
    · obtain ⟨use, isUse, holds⟩ := later.found_of_due
        (fun hole inRest => surveyed hole (List.mem_cons_of_mem _ inRest)) inOthers member due
      exact ⟨use, List.mem_append_right _ isUse, holds⟩

end

end Restyle.Use
