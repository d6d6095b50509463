import Restyle.Proofs.Output.Elements
import Restyle.Proofs.Output.Yields
import Restyle.Proofs.Token.Ends

/-!
Contract: the aliases given out are those that the outputs call, and each is a
fresh identifier.

Owns: what a request for an alias does; `Output.Calls`, the export and the alias
of an output; and `Output.Allots`, by which the aliases given out between two
states are those of the outputs added, which every writing keeps.

Owns also that the text of an identifier is one; that a name behind an underscore
is one, numbered or not; and `Aliases.Fresh`, by which every alias given out is a
fresh name for its export, which every writing keeps.
-/

namespace Restyle

/-- A key is the same as itself. -/
theorem Value.sameKey_self {value : Value} (isKey : value.isKey) : value.sameKey value := by
  obtain ⟨key, isKey⟩ := Option.isSome_iff_exists.mp isKey
  simp [sameKey, isKey]

namespace Aliases

/-- No two exports that have a name are the same key. -/
def Distinct (aliases : Aliases) : Prop :=
  aliases.names.Pairwise fun entry other => ¬ entry.1.sameKey other.1

/-- A name once given stays when others are given. -/
theorem find?_of_append
    {aliases later : Aliases}
    {given : List (Value × String)}
    {exported : Value}
    {name : String}
    (grown : later.names = aliases.names ++ given)
    (isName : aliases.find? exported = some name) :
    later.find? exported = some name := by
  unfold find? at isName ⊢
  obtain ⟨entry, isEntry, rfl⟩ := Option.map_eq_some_iff.mp isName
  rw [grown, List.find?_append, isEntry]
  rfl

/-- What a request does: the names stay, a new one can only be that of the
export, and the export has the name given back. -/
structure Answers (aliases : Aliases) (exported : Value) (name : String) (later : Aliases) :
    Prop where
  grown : ∃ given, later.names = aliases.names ++ given ∧ ∀ entry ∈ given, entry = (exported, name)
  isNamed : later.find? exported = some name
  distinct : aliases.Distinct → later.Distinct

theorem answers_of_request
    {aliases later : Aliases}
    {head name : String}
    {exported : Value}
    (isKey : exported.isKey)
    (asked : aliases.request head exported = (name, later)) :
    aliases.Answers exported name later := by
  unfold request at asked
  split at asked
  · rename_i known isKnown
    obtain ⟨rfl, rfl⟩ := Prod.mk.inj asked
    exact ⟨⟨[], by simp, by simp⟩, isKnown, id⟩
  · rename_i isNew
    obtain ⟨rfl, rfl⟩ := Prod.mk.inj asked
    have unknown : ∀ entry ∈ aliases.names, ¬ entry.1.sameKey exported := by
      simpa [find?] using isNew
    refine ⟨⟨_, rfl, by simp⟩, ?_, fun distinct => ?_⟩
    · have notEarlier : aliases.names.find? (fun entry => entry.1.sameKey exported) = none := by
        simpa using unknown
      simp [find?, List.find?_append, notEarlier, Value.sameKey_self isKey]
    · refine List.pairwise_append.mpr ⟨distinct, List.pairwise_singleton _ _, ?_⟩
      intro entry isEntry other isOther
      rw [List.mem_singleton.mp isOther]
      exact unknown entry isEntry

end Aliases

namespace Output

/-- An output is not left alone, and calls an alias for the runtime export of its
macro. -/
structure Calls (output : Output) (exported : Value) (name : String) : Prop where
  notLeftAlone : output.isPassThrough = false
  isExport : output.use.spec?.map (·.runtimeExport) = some exported
  isAlias : output.alias? = some name

/-- Between two states outputs and aliases are added.  Each output added is left
alone or calls the alias that its export has at the end; each alias given out is
called by an output added. -/
structure Allots (before after : Progress) : Prop where
  added : ∃ made given,
    after.outputs = before.outputs ++ made ∧
    after.aliases.names = before.aliases.names ++ given ∧
    (∀ output ∈ made, output.isPassThrough = false → ∃ exported name,
      output.Calls exported name ∧ after.aliases.find? exported = some name) ∧
    ∀ entry ∈ given, ∃ output ∈ made, output.Calls entry.1 entry.2
  distinct : before.aliases.Distinct → after.aliases.Distinct

theorem Allots.refl (progress : Progress) : Allots progress progress :=
  ⟨⟨[], [], by simp⟩, id⟩

theorem Allots.trans
    {before middle after : Progress}
    (first : Allots before middle)
    (later : Allots middle after) :
    Allots before after := by
  obtain ⟨made, given, isMade, isGiven, calls, called⟩ := first.added
  obtain ⟨more, others, isMore, areOthers, moreCalls, moreCalled⟩ := later.added
  refine ⟨⟨made ++ more, given ++ others, ?_, ?_, ?_, ?_⟩, later.distinct ∘ first.distinct⟩
  · rw [isMore, isMade, List.append_assoc]
  · rw [areOthers, isGiven, List.append_assoc]
  · intro output member notLeft
    rcases List.mem_append.mp member with early | late
    · obtain ⟨exported, name, isCall, isName⟩ := calls output early notLeft
      exact ⟨exported, name, isCall, Aliases.find?_of_append areOthers isName⟩
    · exact moreCalls output late notLeft
  · intro entry member
    rcases List.mem_append.mp member with early | late
    · obtain ⟨output, isOutput, isCall⟩ := called entry early
      exact ⟨output, List.mem_append_left _ isOutput, isCall⟩
    · obtain ⟨output, isOutput, isCall⟩ := moreCalled entry late
      exact ⟨output, List.mem_append_right _ isOutput, isCall⟩

theorem Allots.leftAlone
    {before : Progress}
    {output : Output}
    (isLeft : output.isPassThrough) :
    Allots before (before.add output) := by
  refine ⟨⟨[output], [], rfl, by simp [Progress.add], ?_, by simp⟩, id⟩
  intro other member notLeft
  rw [List.mem_singleton.mp member, isLeft] at notLeft
  contradiction

/-- An output that asks for its alias first and is finished last, with whatever is
written in between. -/
theorem Allots.finish
    {before after : Progress}
    {aliases : Aliases}
    {exported : Value}
    {name : String}
    {output : Output}
    (answers : before.aliases.Answers exported name aliases)
    (between : Allots (before.named aliases) after)
    (isCall : output.Calls exported name) :
    Allots before (after.add output) := by
  obtain ⟨own, isOwn, onlyOwn⟩ := answers.grown
  obtain ⟨made, given, isMade, isGiven, calls, called⟩ := between.added
  refine ⟨⟨made ++ [output], own ++ given, ?_, ?_, ?_, ?_⟩, between.distinct ∘ answers.distinct⟩
  · show after.outputs ++ [output] = _
    rw [isMade, List.append_assoc]
    rfl
  · show after.aliases.names = _
    rw [isGiven, ← List.append_assoc, ← isOwn]
    rfl
  · intro other member notLeft
    rcases List.mem_append.mp member with inside | isLast
    · exact calls other inside notLeft
    · rw [List.mem_singleton.mp isLast]
      exact ⟨exported, name, isCall, Aliases.find?_of_append isGiven answers.isNamed⟩
  · intro entry member
    rcases List.mem_append.mp member with isOwnEntry | inside
    · rw [onlyOwn entry isOwnEntry]
      exact ⟨output, by simp, isCall⟩
    · obtain ⟨other, isOther, otherCall⟩ := called entry inside
      exact ⟨other, List.mem_append_left _ isOther, otherCall⟩

/-- Every writing allots. -/
theorem kept_allots (scope : Scope) (frame : Frame) : Kept scope frame Allots where
  refl := .refl
  trans := .trans
  passThrough isRole isOutput := by
    apply Allots.leftAlone
    simp [isOutput, isPassThrough, Use.isPassThrough, isRole]
  bareValue isRole isKey asked isOutput := by
    apply Allots.finish (Aliases.answers_of_request isKey asked) (.refl _)
    exact ⟨by simp [isOutput, isPassThrough, Use.isPassThrough, isRole],
      by simp [isOutput, Use.spec?, isRole], by simp [isOutput]⟩
  invocation isRole isKey asked _ isOutput inside := by
    apply Allots.finish (Aliases.answers_of_request isKey asked) inside
    exact ⟨by simp [isOutput, isPassThrough, Use.isPassThrough, isRole],
      by simp [isOutput, Use.spec?, isRole], by simp [isOutput]⟩

end Output

end Restyle

/-! ## Identifiers -/

namespace Restyle

open Token Lexeme

namespace Output

/-- An underscore and characters that may continue a name make a name: no keyword
begins with an underscore. -/
theorem isName_of_underscore
    {body : String}
    (parts : ∀ c ∈ body.toList, Text.isIdentifierPart c) :
    isName ("_" ++ body) := by
  have noKeyword : ∀ word ∈ keywords, word.toList.head? ≠ some '_' := by decide
  have starts : Text.isIdentifierStart '_' := by decide
  have isText : ("_" ++ body).toList = '_' :: body.toList := by simp
  have isWhole : body.toList.takeWhile Text.isIdentifierPart = body.toList := by
    rw [← List.append_nil body.toList, List.takeWhile_append_of_pos parts]
    rfl
  have isWord : word? '_' body.toList = some (.identifier, body.toList.length) := by
    rw [word?, if_neg, if_pos starts, isWhole]
    intro isKeyword
    apply noKeyword _ (List.contains_iff_mem.mp isKeyword)
    rw [String.toList_ofList]
    rfl
  simp only [isName, isText, isWord, decide_true]

private theorem identifierPart_of_decimal (value : Nat) :
    ∀ c ∈ (Text.decimal value).toList, Text.isIdentifierPart c := by
  have digits : ∀ c ∈ "0123456789abcdef".toList, Text.isIdentifierPart c :=
    List.all_iff_forall_prop.mp (by decide)
  intro c member
  apply digits
  apply digit_of_mem_toDigits (by decide : 1 < 10) (by decide) value
  rwa [show (Text.decimal value).toList = Nat.toDigits 10 value from String.toList_ofList] at member

/-- Behind an underscore a fresh name is a name. -/
theorem isName_fresh
    {base : String}
    (parts : ∀ c ∈ base.toList, Text.isIdentifierPart c)
    (taken : List String) :
    isName (Aliases.fresh ("_" ++ base) taken) := by
  unfold Aliases.fresh
  cases found : (Aliases.candidates ("_" ++ base) taken.length).find?
      fun name => !taken.contains name with
  | none => exact isName_of_underscore parts
  | some name =>
    rcases List.mem_cons.mp (List.mem_of_find?_eq_some found) with rfl | numbered
    · exact isName_of_underscore parts
    · obtain ⟨index, -, rfl⟩ := List.mem_map.mp numbered
      rw [Option.getD_some, String.append_assoc]
      apply isName_of_underscore
      intro c member
      rw [String.toList_append] at member
      rcases List.mem_append.mp member with member | member
      · exact parts c member
      · exact identifierPart_of_decimal (index + 2) c member

/-- The text of an identifier is a name. -/
theorem isName_of_identifier
    {source : List Char}
    {token : Token}
    (placed : Token.Placed source token)
    (isIdentifier : token.is .identifier) :
    isName token.text := by
  obtain ⟨nest, slash, first, rest, taken, isStep, sameKind, isText⟩ :=
    placed.exists_codeStep isIdentifier (by decide)
  have isKind : taken.kind = .identifier := by
    cases own : taken.kind <;> simp [own, kindOf] at sameKind
    rfl
  have found := isStep.found_of_word (.inl isKind)
  rw [isKind] at found
  obtain ⟨-, isTail⟩ := isStep.word_of_identifier isKind
  generalize taken.tail = tail at isText found isTail
  have size : (rest.take tail).length = tail := by
    rw [isTail]
    exact List.length_take_of_le (List.takeWhile_prefix _).length_le
  have stopped : stops (rest.drop tail) := by
    have taken : ((rest.take tail ++ rest.drop tail).takeWhile Text.isIdentifierPart).length =
        (rest.take tail).length := by
      rw [List.take_append_drop, ← isTail, size]
    simpa [stops] using head?_of_takeWhile taken
  rw [← List.take_append_drop tail rest, word?_append stopped] at found
  simp only [isName, isText, found, size, decide_true]

end Output

/-! ## Aliases -/

/-- Every alias given out is a fresh name for its export. -/
def Aliases.Fresh (head : String) (aliases : Aliases) : Prop :=
  ∀ entry ∈ aliases.names, ∃ taken, entry.2 = Aliases.fresh (head ++ entry.1.display) taken

theorem Aliases.Fresh.request
    {head name : String}
    {aliases later : Aliases}
    {exported : Value}
    (areFresh : aliases.Fresh head)
    (asked : aliases.request head exported = (name, later)) :
    later.Fresh head := by
  unfold Aliases.request at asked
  split at asked
  · obtain ⟨-, rfl⟩ := Prod.mk.inj asked
    exact areFresh
  · obtain ⟨-, rfl⟩ := Prod.mk.inj asked
    intro entry member
    rcases List.mem_append.mp member with early | new
    · exact areFresh entry early
    · rw [List.mem_singleton.mp new]
      exact ⟨_, rfl⟩

/-- Every writing keeps the aliases fresh. -/
theorem Output.kept_fresh (scope : Scope) (frame : Output.Frame) :
    Output.Kept scope frame fun before after =>
      before.aliases.Fresh frame.settings.aliasHead →
        after.aliases.Fresh frame.settings.aliasHead where
  refl _ := id
  trans first later := later ∘ first
  passThrough _ _ := id
  bareValue _ _ asked _ areFresh := areFresh.request asked
  invocation _ _ asked _ _ inside areFresh := inside (areFresh.request asked)

end Restyle
