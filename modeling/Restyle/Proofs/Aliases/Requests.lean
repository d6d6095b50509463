import Mathlib.Data.List.Nodup
import Restyle.Module
import Restyle.Proofs.Output.Aliased
import Restyle.Proofs.Text
import Restyle.Proofs.Token.Everywhere
import Restyle.Settings

/-!
Contract: what a sequence of requests for aliases gives.

Owns: `Aliases.FirstFree`, the least name of a base that is free, which a new
alias is; `Aliases.requestAll`, requests one after the other, and the exports that
then have a name; and that the aliases of texts are stable, distinct and none of
the module's identifiers.
-/

namespace Restyle

private theorem Value.sameKey_comm
    (left right : Value) :
    left.sameKey right = right.sameKey left := by
  unfold Value.sameKey
  cases left.key? <;> cases right.key? <;> simp [eq_comm]

/-- Two texts are the same key if they are the same. -/
theorem Value.sameKey_text (left right : String) :
    (Value.text left).sameKey (.text right) = (left == right) := by
  simp [Value.sameKey, Value.key?, eq_comm, Bool.beq_eq_decide_eq]

namespace Aliases

/-! ## A new name -/

/-- The least name of a base that is free among taken names: the base itself, or
the base behind which the least number from two on makes it free. -/
inductive FirstFree (base : String) (taken : List String) : String → Prop where
  | plain (isFree : base ∉ taken) : FirstFree base taken base
  | numbered
      (number : Nat)
      (isTaken : base ∈ taken)
      (fromTwo : 2 ≤ number)
      (isFree : base ++ Text.decimal number ∉ taken)
      (isLeast : ∀ lesser : Nat, 2 ≤ lesser → lesser < number →
        base ++ Text.decimal lesser ∈ taken) :
      FirstFree base taken (base ++ Text.decimal number)

private theorem FirstFree.isFree {base name : String} {taken : List String}
    (isFirst : FirstFree base taken name) : name ∉ taken := by
  cases isFirst with
  | plain isFree => exact isFree
  | numbered _ _ _ isFree _ => exact isFree

private theorem FirstFree.of_mem_iff
    {base name : String}
    {taken others : List String}
    (isFirst : FirstFree base taken name)
    (same : ∀ name, name ∈ taken ↔ name ∈ others) :
    FirstFree base others name := by
  cases isFirst with
  | plain isFree => exact .plain (mt (same _).mpr isFree)
  | numbered number isTaken fromTwo isFree isLeast =>
    exact .numbered number ((same _).mp isTaken) fromTwo (mt (same _).mpr isFree)
      fun lesser least less => (same _).mp (isLeast lesser least less)

private theorem nodup_candidates (base : String) (count : Nat) : (candidates base count).Nodup := by
  have behind : ∀ {left right : String}, base ++ left = base ++ right → left = right :=
    fun same => String.append_right_inj _ |>.mp same
  refine List.nodup_cons.mpr ⟨fun member => ?_, List.Nodup.map ?_ List.nodup_range⟩
  · obtain ⟨index, -, same⟩ := List.mem_map.mp member
    have spelled : Text.decimal (index + 2 : Nat) = "" := behind (by simpa using same)
    simp [Text.decimal] at spelled
  · intro index other same
    have numbers := Text.decimal_injective (behind same)
    omega

private theorem exists_free_candidate (base : String) (taken : List String) :
    ∃ name ∈ candidates base taken.length, name ∉ taken := by
  by_contra noneFree
  have allTaken : candidates base taken.length ⊆ taken := fun name isCandidate =>
    by_contra fun isFree => noneFree ⟨name, isCandidate, isFree⟩
  have few : (candidates base taken.length).length ≤ taken.length :=
    (nodup_candidates base taken.length).length_le_of_subset allTaken
  simp only [candidates, List.length_cons, List.length_map, List.length_range] at few
  omega

/-- A new name is the first that is free. -/
theorem firstFree_fresh (base : String) (taken : List String) :
    FirstFree base taken (fresh base taken) := by
  by_cases isTaken : base ∈ taken
  · have isFound : ∃ index, (List.range taken.length).find?
        (fun index => !taken.contains (base ++ Text.decimal (index + 2 : Nat))) = some index := by
      obtain ⟨name, isCandidate, isFree⟩ := exists_free_candidate base taken
      rcases List.mem_cons.mp isCandidate with rfl | isNumbered
      · exact absurd isTaken isFree
      · obtain ⟨index, inRange, rfl⟩ := List.mem_map.mp isNumbered
        apply Option.isSome_iff_exists.mp
        exact List.find?_isSome.mpr ⟨index, inRange, by simpa using isFree⟩
    obtain ⟨index, isFirst⟩ := isFound
    have isName : fresh base taken = base ++ Text.decimal (index + 2 : Nat) := by
      simp only [fresh, candidates, List.find?_cons, List.contains_iff_mem.mpr isTaken,
        List.find?_map, Function.comp_def, isFirst]
      rfl
    obtain ⟨isFree, -, isLeast⟩ := List.find?_range_eq_some.mp isFirst
    rw [isName]
    refine .numbered (index + 2) isTaken (by omega) (by simpa using isFree) ?_
    intro lesser fromTwo less
    obtain ⟨lower, rfl⟩ : ∃ lower, lesser = lower + 2 := ⟨lesser - 2, by omega⟩
    simpa using isLeast lower (by omega)
  · have isName : fresh base taken = base := by
      simp [fresh, candidates, isTaken]
    rw [isName]
    exact .plain isTaken

/-! ## One request after the other -/

/-- The names that exports are given when they are requested in order, and the
aliases then. -/
def requestAll (head : String) : List Value → Aliases → List String × Aliases
  | [], aliases => ([], aliases)
  | exported :: rest, aliases =>
    let asked := aliases.request head exported
    let others := requestAll head rest asked.2
    (asked.1 :: others.1, others.2)

theorem requestAll_append (head : String) (early late : List Value) (aliases : Aliases) :
    requestAll head (early ++ late) aliases =
      ((requestAll head early aliases).1 ++
          (requestAll head late (requestAll head early aliases).2).1,
        (requestAll head late (requestAll head early aliases).2).2) := by
  induction early generalizing aliases with
  | nil => rfl
  | cons exported rest inductionHypothesis =>
    simp only [List.cons_append, requestAll, inductionHypothesis]

def isNew (aliases : Aliases) (exported : Value) : Bool :=
  (aliases.find? exported).isNone

theorem isNew_ofTaken (taken : List String) (exported : Value) :
    (ofTaken taken).isNew exported := by
  rfl

/-- A request for an export that has a name changes nothing. -/
theorem request_of_known {aliases : Aliases} {head name : String} {exported : Value}
    (isKnown : aliases.find? exported = some name) :
    aliases.request head exported = (name, aliases) := by
  rw [request, isKnown]

/-- A request for a new export gives it a fresh name. -/
theorem request_of_new {aliases : Aliases} {exported : Value}
    (isNew : aliases.isNew exported)
    (head : String) :
    aliases.request head exported =
      (fresh (head ++ exported.display) aliases.taken,
        ⟨aliases.names ++ [(exported, fresh (head ++ exported.display) aliases.taken)],
          aliases.taken ++ [fresh (head ++ exported.display) aliases.taken]⟩) := by
  rw [request, Option.isNone_iff_eq_none.mp isNew]

private theorem isNew_of_named (aliases : Aliases) (taken : List String) (exported : Value)
    (name : String) :
    Aliases.isNew ⟨aliases.names ++ [(exported, name)], taken⟩ =
      fun other => !other.sameKey exported && aliases.isNew other := by
  funext other
  rw [Value.sameKey_comm other exported]
  simp only [isNew, find?, List.find?_append, Option.isNone_map, List.find?_cons, List.find?_nil]
  cases aliases.names.find? (fun entry => entry.1.sameKey other) <;>
    cases exported.sameKey other <;> simp

/-- The exports that have a name after some requests: those that had one, then
those requested that were new, each key where it was first requested. -/
theorem keys_of_requestAll (head : String) (exports : List Value) (aliases : Aliases) :
    (requestAll head exports aliases).2.names.map (·.1) =
      aliases.names.map (·.1) ++ (exports.filter aliases.isNew).eraseDupsBy Value.sameKey := by
  induction exports generalizing aliases with
  | nil => simp [requestAll, List.eraseDupsBy, List.eraseDupsBy.loop]
  | cons exported rest inductionHypothesis =>
    rw [requestAll]
    cases isNew : aliases.isNew exported with
    | false =>
      obtain ⟨name, isKnown⟩ := Option.isSome_iff_exists.mp (Option.isNone_eq_false_iff.mp isNew)
      rw [request_of_known isKnown, inductionHypothesis, List.filter_cons_of_neg (by simp [isNew])]
    | true =>
      rw [request_of_new isNew, inductionHypothesis, isNew_of_named, List.filter_cons_of_pos isNew,
        List.eraseDupsBy_cons, List.filter_filter]
      simp

/-! ## What requests keep -/

/-- Taken are the names that were known at first and those given out since, which
differ from one another and from the known ones. -/
structure Sound (known : List String) (aliases : Aliases) : Prop where
  areTaken : aliases.taken = known ++ aliases.names.map (·.2)
  areUnlike : (aliases.names.map (·.2)).Nodup
  areFresh : ∀ name ∈ aliases.names.map (·.2), name ∉ known

private theorem sound_ofTaken (known : List String) : (ofTaken known).Sound known :=
  ⟨by simp [ofTaken], by simp [ofTaken], by simp [ofTaken]⟩

theorem Sound.request
    {known : List String}
    {aliases : Aliases}
    (isSound : aliases.Sound known)
    (head : String)
    (exported : Value) :
    (aliases.request head exported).2.Sound known := by
  cases isNew : aliases.isNew exported with
  | false =>
    obtain ⟨name, isKnown⟩ := Option.isSome_iff_exists.mp (Option.isNone_eq_false_iff.mp isNew)
    rwa [request_of_known isKnown]
  | true =>
    rw [request_of_new isNew]
    have isFree := (firstFree_fresh (head ++ exported.display) aliases.taken).isFree
    generalize fresh (head ++ exported.display) aliases.taken = name at isFree
    rw [isSound.areTaken, List.mem_append, not_or] at isFree
    refine ⟨by simp [isSound.areTaken], ?_, ?_⟩
    · rw [List.map_append]
      exact List.nodup_append.mpr ⟨isSound.areUnlike, List.nodup_singleton _, by
        rintro one isOne other isOther rfl
        exact isFree.2 (by simpa [List.mem_singleton.mp isOther] using isOne)⟩
    · intro other isOther
      rw [List.map_append] at isOther
      rcases List.mem_append.mp isOther with early | isLast
      · exact isSound.areFresh other early
      · rw [List.mem_singleton.mp isLast]
        exact isFree.1

theorem Sound.requestAll
    {known : List String}
    {aliases : Aliases}
    (isSound : aliases.Sound known)
    (head : String)
    (exports : List Value) :
    (requestAll head exports aliases).2.Sound known := by
  induction exports generalizing aliases with
  | nil => exact isSound
  | cons exported rest inductionHypothesis =>
    exact inductionHypothesis (isSound.request head exported)

private theorem answers_request {exported : Value} (isKey : exported.isKey) (head : String)
    (aliases : Aliases) :
    aliases.Answers exported (aliases.request head exported).1 (aliases.request head exported).2 :=
  answers_of_request isKey (rfl : aliases.request head exported = (_, _))

/-- In a sequence of requests for keys names stay, and each request is answered by
the name that its export has in the end. -/
theorem answers_of_requestAll
    {exports : List Value}
    (areKeys : ∀ exported ∈ exports, exported.isKey)
    (head : String)
    (aliases : Aliases) :
    (∃ given, (requestAll head exports aliases).2.names = aliases.names ++ given) ∧
      (aliases.Distinct → (requestAll head exports aliases).2.Distinct) ∧
      (requestAll head exports aliases).1.map some =
        exports.map (requestAll head exports aliases).2.find? := by
  induction exports generalizing aliases with
  | nil => exact ⟨⟨[], by simp [requestAll]⟩, id, rfl⟩
  | cons exported rest inductionHypothesis =>
    obtain ⟨isKey, areOtherKeys⟩ := List.forall_mem_cons.mp areKeys
    have answers := answers_request isKey head aliases
    obtain ⟨⟨given, isGrown⟩, keepsDistinct, areAnswered⟩ :=
      inductionHypothesis areOtherKeys (aliases.request head exported).2
    obtain ⟨own, isOwn, -⟩ := answers.grown
    refine ⟨⟨own ++ given, ?_⟩, keepsDistinct ∘ answers.distinct, ?_⟩
    · rw [requestAll, isGrown, isOwn, List.append_assoc]
    · simp only [requestAll, List.map_cons]
      rw [areAnswered, find?_of_append isGrown answers.isNamed]

private theorem find?_of_mem
    {aliases : Aliases}
    {entry : Value × String}
    (areDistinct : aliases.Distinct)
    (isEntry : entry ∈ aliases.names)
    (isKey : entry.1.isKey) :
    aliases.find? entry.1 = some entry.2 := by
  obtain ⟨early, late, isSplit⟩ := List.append_of_mem isEntry
  have isFirst : ∀ other ∈ early, ¬ other.1.sameKey entry.1 := by
    rw [Distinct, isSplit] at areDistinct
    intro other isOther
    exact (List.pairwise_append.mp areDistinct).2.2 other isOther entry (by simp)
  have notEarlier : early.find? (fun other => other.1.sameKey entry.1) = none := by
    simpa using isFirst
  simp [find?, isSplit, List.find?_append, notEarlier, Value.sameKey_self isKey]

/-! ## Requests for texts -/

private theorem eraseDupsBy_text (exports : List String) :
    (exports.map Value.text).eraseDupsBy Value.sameKey = exports.eraseDups.map Value.text := by
  have fromSeen : ∀ seen : List String,
      List.eraseDupsBy.loop Value.sameKey (exports.map Value.text) (seen.map Value.text) =
        (List.eraseDupsBy.loop (· == ·) exports seen).map Value.text := by
    induction exports with
    | nil => intro seen; simp [List.eraseDupsBy.loop]
    | cons exported rest inductionHypothesis =>
      intro seen
      have sameSeen : (seen.map Value.text).any (Value.sameKey (.text exported)) =
          seen.any (exported == ·) := by
        simp only [List.any_map, Function.comp_def, Value.sameKey_text]
      simp only [List.map_cons, List.eraseDupsBy.loop, sameSeen]
      cases seen.any (exported == ·) with
      | true => exact inductionHypothesis seen
      | false => exact inductionHypothesis (exported :: seen)
  exact fromSeen []

/-- What requests for exports give in a module whose identifiers are taken: the
answers, and the names given out in the end. -/
structure Allocates
    (head : String)
    (module : Module)
    (exports answers : List String)
    (names : List (Value × String))
    (aliasOf : String → String) : Prop where
  /-- Equal exports get the same alias each time. -/
  stable : answers = exports.map aliasOf
  /-- Different exports get different aliases. -/
  distinct : ∀ exported ∈ exports, ∀ other ∈ exports, aliasOf exported = aliasOf other →
    exported = other
  /-- No alias is an identifier of the module, at any depth. -/
  fresh : ∀ exported ∈ exports, ∀ token ∈ Token.everywhere module.tokens,
    token.is .identifier → token.text ≠ aliasOf exported
  /-- The alias of an export is the first that is free when it is first requested. -/
  firstFree : ∀ early exported late, exports = early ++ exported :: late → exported ∉ early →
    FirstFree (head ++ exported) (module.identifiers ++ early.map aliasOf) (aliasOf exported)
  /-- The exports are listed in the order of their first requests. -/
  listed : names = exports.eraseDups.map fun exported => (.text exported, aliasOf exported)

private theorem mem_identifiers {module : Module} {token : Token}
    (isHeld : token ∈ Token.everywhere module.tokens)
    (isIdentifier : token.is .identifier) :
    token.text ∈ module.identifiers := by
  obtain ⟨site, isSite, rfl⟩ := List.mem_map.mp isHeld
  exact List.mem_map.mpr ⟨site, List.mem_filter.mpr ⟨isSite, isIdentifier⟩, rfl⟩

section Texts

variable
  {head : String}
  {known exports : List String}

/-- The aliases after requests for texts. -/
def afterTexts (head : String) (known exports : List String) : Aliases :=
  (requestAll head (exports.map .text) (ofTaken known)).2

/-- The alias of a text after requests for texts, the empty text if it was not
requested. -/
def aliasAfter (head : String) (known exports : List String) (exported : String) : String :=
  ((afterTexts head known exports).find? (.text exported)).getD ""

private theorem areKeys_text (exports : List String) :
    ∀ exported ∈ exports.map Value.text, exported.isKey := by
  intro exported isText
  obtain ⟨text, -, rfl⟩ := List.mem_map.mp isText
  rfl

/-- A text that was requested has its alias. -/
theorem find?_afterTexts {exported : String} (isRequested : exported ∈ exports) :
    (afterTexts head known exports).find? (.text exported) =
      some (aliasAfter head known exports exported) := by
  have areAnswered := (answers_of_requestAll (areKeys_text exports) head (ofTaken known)).2.2
  have isAnswered : (afterTexts head known exports).find? (.text exported) ∈
      (requestAll head (exports.map .text) (ofTaken known)).1.map some := by
    rw [areAnswered]
    exact List.mem_map_of_mem (List.mem_map_of_mem isRequested)
  obtain ⟨name, -, isName⟩ := List.mem_map.mp isAnswered
  rw [aliasAfter, ← isName, Option.getD_some]

/-- The aliases of texts stand by them, each where it was first requested. -/
theorem names_afterTexts :
    (afterTexts head known exports).names =
      exports.eraseDups.map fun exported =>
        (.text exported, aliasAfter head known exports exported) := by
  have areDistinct : (afterTexts head known exports).Distinct :=
    (answers_of_requestAll (areKeys_text exports) head (ofTaken known)).2.1 List.Pairwise.nil
  have keys : (afterTexts head known exports).names.map (·.1) =
      exports.eraseDups.map Value.text := by
    rw [afterTexts, keys_of_requestAll, ← eraseDupsBy_text,
      List.filter_eq_self.mpr fun exported _ => isNew_ofTaken known exported]
    rfl
  have isEntry : ∀ entry ∈ (afterTexts head known exports).names,
      entry = (entry.1, ((afterTexts head known exports).find? entry.1).getD "") := by
    intro entry isEntry
    have isText : entry.1 ∈ exports.eraseDups.map Value.text := keys ▸ List.mem_map_of_mem isEntry
    obtain ⟨text, -, isText⟩ := List.mem_map.mp isText
    rw [find?_of_mem areDistinct isEntry (isText ▸ rfl), Option.getD_some]
  calc (afterTexts head known exports).names
      = (afterTexts head known exports).names.map fun entry =>
          (entry.1, ((afterTexts head known exports).find? entry.1).getD "") := by
        rw [List.map_congr_left fun entry member => (isEntry entry member).symm, List.map_id']
    _ = ((afterTexts head known exports).names.map (·.1)).map fun key =>
          (key, ((afterTexts head known exports).find? key).getD "") := by
        rw [List.map_map]; rfl
    _ = _ := by rw [keys, List.map_map]; rfl

/-- Later requests leave the alias of a text as it is. -/
theorem aliasAfter_append {early : List String} {exported : String}
    (isRequested : exported ∈ early)
    (late : List String) :
    aliasAfter head known (early ++ late) exported = aliasAfter head known early exported := by
  have isSplit : afterTexts head known (early ++ late) =
      (requestAll head (late.map .text) (afterTexts head known early)).2 := by
    rw [afterTexts, List.map_append, requestAll_append]
    rfl
  obtain ⟨given, isGrown⟩ :=
    (answers_of_requestAll (areKeys_text late) head (afterTexts head known early)).1
  rw [← isSplit] at isGrown
  rw [aliasAfter, find?_of_append isGrown (find?_afterTexts isRequested), Option.getD_some]

private theorem mem_taken_afterTexts (name : String) :
    name ∈ (afterTexts head known exports).taken ↔
      name ∈ known ++ exports.map (aliasAfter head known exports) := by
  have isSound : (afterTexts head known exports).Sound known := (sound_ofTaken known).requestAll _ _
  rw [isSound.areTaken, names_afterTexts, List.map_map]
  simp [List.mem_eraseDups]

private theorem isNew_afterTexts {exported : String} (notRequested : exported ∉ exports) :
    (afterTexts head known exports).isNew (.text exported) := by
  simp only [isNew, find?, names_afterTexts, Option.isNone_map, List.find?_map,
    Option.isNone_iff_eq_none, List.find?_eq_none]
  intro other isOther
  have isRequested : other ∈ exports := List.mem_eraseDups.mp isOther
  simp only [Function.comp_apply, Value.sameKey_text, Bool.not_eq_true, beq_eq_false_iff_ne]
  exact fun same => notRequested (same ▸ isRequested)

private theorem firstFree_aliasAfter {early : List String} {exported : String}
    (notEarlier : exported ∉ early)
    (late : List String) :
    FirstFree (head ++ exported)
      (known ++ early.map (aliasAfter head known (early ++ exported :: late)))
      (aliasAfter head known (early ++ exported :: late) exported) := by
  have isSplit : afterTexts head known (early ++ [exported]) =
      ((afterTexts head known early).request head (.text exported)).2 := by
    rw [afterTexts, List.map_append, requestAll_append]
    rfl
  have isAlias : aliasAfter head known (early ++ exported :: late) exported =
      fresh (head ++ exported) (afterTexts head known early).taken := by
    rw [List.append_cons, aliasAfter_append (by simp), aliasAfter, isSplit]
    rw [(answers_request (rfl : (Value.text exported).isKey) head _).isNamed,
      request_of_new (isNew_afterTexts notEarlier)]
    rfl
  rw [isAlias]
  refine (firstFree_fresh _ _).of_mem_iff fun name => (mem_taken_afterTexts name).trans ?_
  rw [List.map_congr_left fun other isOther => (aliasAfter_append isOther (exported :: late))]

/-- However exports are requested in a module, each keeps one alias, which is the
first that is free when it is first requested; no two share one, none is an
identifier of the module, and they are listed as they were first requested. -/
theorem allocates_of_requests (settings : Settings) (module : Module) (exports : List String) :
    ∃ aliasOf, Allocates settings.aliasHead module exports
      (requestAll settings.aliasHead (exports.map .text) (ofTaken module.identifiers)).1
      (requestAll settings.aliasHead (exports.map .text) (ofTaken module.identifiers)).2.names
      aliasOf := by
  have isSound : (afterTexts settings.aliasHead module.identifiers exports).Sound
      module.identifiers := (sound_ofTaken _).requestAll _ _
  have isGiven : ∀ exported ∈ exports,
      aliasAfter settings.aliasHead module.identifiers exports exported ∈
        (afterTexts settings.aliasHead module.identifiers exports).names.map (·.2) := by
    intro exported isRequested
    rw [names_afterTexts, List.map_map]
    exact List.mem_map.mpr ⟨exported, List.mem_eraseDups.mpr isRequested, rfl⟩
  refine ⟨aliasAfter settings.aliasHead module.identifiers exports, ?stable, ?distinct, ?fresh,
    ?firstFree, names_afterTexts⟩
  case stable =>
    have areAnswered := (answers_of_requestAll (areKeys_text exports) settings.aliasHead
      (ofTaken module.identifiers)).2.2
    apply List.map_injective_iff.mpr fun _ _ => Option.some.inj
    rw [areAnswered, List.map_map, List.map_map]
    exact List.map_congr_left fun exported isRequested => find?_afterTexts isRequested
  case distinct =>
    have areUnlike := isSound.areUnlike
    rw [names_afterTexts, List.map_map] at areUnlike
    intro exported isRequested other isOther same
    exact List.inj_on_of_nodup_map areUnlike (List.mem_eraseDups.mpr isRequested)
      (List.mem_eraseDups.mpr isOther) same
  case fresh =>
    intro exported isRequested token isHeld isIdentifier same
    apply isSound.areFresh _ (isGiven exported isRequested)
    rw [← same]
    exact mem_identifiers isHeld isIdentifier
  case firstFree =>
    rintro early exported late rfl notEarlier
    exact firstFree_aliasAfter notEarlier late

/-- A numbered alias of one export keeps another export from its plain alias. -/
example : (requestAll "_" [.text "css", .text "css2", .text "css"] (ofTaken ["_css"])).1 =
    ["_css2", "_css22", "_css2"] := by
  decide +kernel

end Texts

end Aliases

end Restyle
