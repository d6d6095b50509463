import Restyle.Proofs.Token.Copy
import Restyle.Proofs.Use.Found

/-!
Contract: where the expressions that a use holds stand in the source.

Owns: `Span.Stands`, by which the tokens of a span are read between its offsets
from where a slash opens a pattern; that the factory argument, the holes and the
arguments of a use stand so; and that the tokens that a use covers leave the
brackets around them as they are and end with a value.
-/

namespace Restyle

open Lexeme Token Restyle.Bracket

/-- The tokens of a span are read between its offsets, a slash at its beginning
opening a pattern. -/
structure Span.Stands (source : List Char) (span : Span) : Prop where
  reads : ∃ last, ListStands source .opensPattern span.start span.tokens last span.stop
  inside : span.stop ≤ source.length

namespace Token

/-- After an opening parenthesis or a comma a slash opens a pattern. -/
theorem Stands.opensPattern
    {source : List Char}
    {slash next : Slash}
    {offset stop : Nat}
    {token : Token}
    (stands : Stands source slash offset token next stop)
    (isAtom : token.template? = none)
    {c : Char}
    (isMark : c ∈ ['(', '[', ','])
    (isText : token.text = String.ofList [c]) :
    next = .opensPattern ∧ token.is .punctuator := by
  cases stands with
  | template isTemplate => simp [Token.isTemplate, isAtom] at isTemplate
  | atom lexeme isKind =>
    rename_i first body kind
    obtain ⟨rfl, rfl⟩ : first = c ∧ body = [] := by
      have isList := ofList_eq_iff.mp isText
      simpa using isList
    obtain ⟨nest, inner, -, isStep⟩ := lexeme.isStep
    rw [List.nil_append, codeStep_of_opening isMark] at isStep
    simp only [Step.mk.injEq, State.code.injEq] at isStep
    obtain ⟨rfl, -, -, rfl⟩ := isStep
    exact ⟨rfl, rfl⟩

private theorem TextStands.hole_stands
    {source : List Char}
    {offset stop : Nat}
    {holes : List Span}
    (stands : TextStands source offset holes stop) :
    ∀ hole ∈ holes, hole.Stands source :=
  match holes, stands with
  | [], .nil => by simp
  | _, .text _ later => later.hole_stands
  | _ :: _, .hole _ _ begins inside closing later => by
    intro hole member
    rcases List.mem_cons.mp member with rfl | member
    · exact ⟨⟨_, begins ▸ inside⟩, Nat.le_of_lt (List.getElem?_eq_some_iff.mp closing).1⟩
    · exact later.hole_stands hole member

private theorem Stands.hole_stands
    {source : List Char}
    {slash next : Slash}
    {offset stop : Nat}
    {token : Token}
    (stands : Stands source slash offset token next stop) :
    ∀ hole ∈ token.holes, hole.Stands source := by
  cases stands with
  | atom => simp [Token.holes, Token.template?, ofLexeme]
  | template _ _ _ _ inside _ => exact inside.hole_stands

theorem ListStands.exists_stands
    {source : List Char}
    {slash last : Slash}
    {offset stop : Nat}
    {tokens : List Token}
    (stands : ListStands source slash offset tokens last stop)
    {token : Token}
    (member : token ∈ tokens) :
    ∃ slash offset next stop, Stands source slash offset token next stop := by
  obtain ⟨left, right, rfl⟩ := List.append_of_mem member
  obtain ⟨middle, between, -, later⟩ := stands.split left (token :: right) rfl
  obtain ⟨begins, next, ends, -, own, -⟩ := later.uncons token right rfl
  exact ⟨_, _, _, _, own⟩

private theorem ListStands.tighten
    {source : List Char}
    {slash last : Slash}
    {offset stop : Nat}
    {tokens : List Token}
    (stands : ListStands source slash offset tokens last stop)
    {first final : Token}
    (isFirst : tokens.head? = some first)
    (isFinal : tokens.getLast? = some final) :
    (∃ next, ListStands source slash first.start tokens next final.stop) ∧
      final.stop ≤ source.length := by
  obtain ⟨rest, rfl⟩ := List.head?_eq_some_iff.mp isFirst
  obtain ⟨begins, next, ends, -, own, later⟩ := stands.uncons first rest rfl
  obtain ⟨front, isFront⟩ := List.getLast?_eq_some_iff.mp isFinal
  have whole : ListStands source slash first.start (first :: rest) last stop := by
    rw [own.bounds.1]
    exact .cons own later
  obtain ⟨middle, between, frontStands, lastStands⟩ := whole.split front [final] isFront
  obtain ⟨_, lastNext, _, gap, lastOwn, -⟩ := lastStands.uncons final [] rfl
  obtain rfl := lastOwn.bounds.2
  have ending := gap.append (.cons lastOwn .nil)
  exact ⟨⟨lastNext, isFront ▸ frontStands.append ending⟩, lastOwn.inside⟩

end Token

namespace Use

/-! ## Arguments -/

/-- The first part of a list cut at commas begins it, and the other parts follow
a comma. -/
theorem cut_of_splitArguments
    {depth : Nat}
    {tokens first : List Token}
    {others : List (List Token)}
    (isSplit : splitArguments depth tokens = first :: others) :
    first <+: tokens ∧ ∀ part ∈ others, ∃ earlier comma back,
      tokens = earlier ++ comma :: (part ++ back) ∧ isPunctuator [","] comma := by
  induction tokens generalizing depth first others with
  | nil =>
    obtain ⟨rfl, rfl⟩ : [] = first ∧ [] = others := by simpa [splitArguments] using isSplit
    simp
  | cons token rest inductionHypothesis =>
    have shift : ∀ part, (∃ earlier comma back, rest = earlier ++ comma :: (part ++ back) ∧
        isPunctuator [","] comma) → ∃ earlier comma back,
        token :: rest = earlier ++ comma :: (part ++ back) ∧ isPunctuator [","] comma := by
      rintro part ⟨earlier, comma, back, rfl, isComma⟩
      exact ⟨token :: earlier, comma, back, rfl, isComma⟩
    simp only [splitArguments] at isSplit
    split at isSplit
    · rename_i isCut
      simp only [Bool.and_eq_true, decide_eq_true_eq] at isCut
      obtain ⟨rfl, rfl⟩ := List.cons.inj isSplit
      refine ⟨List.nil_prefix, fun part member => ?_⟩
      obtain ⟨head, later, isLater⟩ :=
        List.exists_cons_of_ne_nil (splitArguments_ne_nil 0 rest)
      obtain ⟨isPrefix, parts⟩ := inductionHypothesis isLater
      rw [isLater] at member
      rcases List.mem_cons.mp member with rfl | member
      · obtain ⟨back, rfl⟩ := isPrefix
        exact ⟨[], token, back, rfl, isCut.2⟩
      · exact shift part (parts part member)
    · split at isSplit
      · exact absurd ‹_› (splitArguments_ne_nil _ rest)
      · rename_i isLater
        obtain ⟨rfl, rfl⟩ := List.cons.inj isSplit
        obtain ⟨isPrefix, parts⟩ := inductionHypothesis isLater
        exact ⟨(List.prefix_cons_inj token).mpr isPrefix, fun part member =>
          shift part (parts part member)⟩

private theorem mark_of_isPunctuator
    {spelling : String}
    {token : Token}
    (isOwn : isPunctuator [spelling] token) :
    token.template? = none ∧ token.text = spelling := by
  simp only [isPunctuator, Bool.and_eq_true, List.contains_eq_mem, List.mem_singleton,
    decide_eq_true_eq] at isOwn
  exact ⟨template?_of_is isOwn.1, isOwn.2⟩

private theorem arguments_stand
    {source : List Char}
    {last : Slash}
    {offset stop : Nat}
    {tokens : List Token}
    (stands : ListStands source .opensPattern offset tokens last stop) :
    ∀ span ∈ argumentsOf tokens, span.Stands source := by
  intro span member
  obtain ⟨part, isPart, isArgument⟩ := List.mem_filterMap.mp member
  have own : ∃ start next close, ListStands source .opensPattern start part next close := by
    obtain ⟨head, others, isSplit⟩ := List.exists_cons_of_ne_nil (splitArguments_ne_nil 0 tokens)
    obtain ⟨⟨back, isTokens⟩, parts⟩ := cut_of_splitArguments isSplit
    rw [isSplit] at isPart
    rcases List.mem_cons.mp isPart with rfl | isPart
    · obtain ⟨_, _, own, -⟩ := stands.split part back isTokens.symm
      exact ⟨_, _, _, own⟩
    · obtain ⟨earlier, comma, back, isTokens, isComma⟩ := parts part isPart
      obtain ⟨_, _, -, later⟩ := stands.split earlier (comma :: (part ++ back)) isTokens
      obtain ⟨_, next, _, -, mark, rest⟩ := later.uncons comma (part ++ back) rfl
      obtain ⟨isAtom, isText⟩ := mark_of_isPunctuator isComma
      obtain ⟨rfl, -⟩ := mark.opensPattern isAtom (by decide : ',' ∈ _) isText
      obtain ⟨_, _, own, -⟩ := rest.split part back rfl
      exact ⟨_, _, _, own⟩
  obtain ⟨start, next, close, own⟩ := own
  simp only [argument?] at isArgument
  split at isArgument
  · rename_i isFirst isFinal
    obtain rfl := Option.some.inj isArgument
    obtain ⟨reads, inside⟩ := own.tighten isFirst isFinal
    exact ⟨reads, inside⟩
  · simp at isArgument

/-! ## What a use holds -/

private theorem exists_token_of_stringLike
    {spans : List Span}
    {stop : Nat}
    (stringLike : isStringLike spans)
    {span : Span}
    (isHole : span ∈ (Content.arguments spans stop).holes) :
    ∃ token ∈ spans.flatMap (·.tokens), span ∈ token.holes := by
  rw [Content.holes, Content.parts, if_pos stringLike] at isHole
  obtain ⟨part, isPart, isSpan⟩ := List.mem_filterMap.mp isHole
  obtain ⟨token, isToken, inToken⟩ := List.mem_flatMap.mp isPart
  refine ⟨token, isToken, ?_⟩
  have member : span ∈ (tokenParts token).filterMap Part.hole? :=
    List.mem_filterMap.mpr ⟨part, inToken, isSpan⟩
  simp only [tokenParts] at member
  split at member
  · rename_i literal isTemplate
    rw [holes_templateParts] at member
    simpa [Token.holes, isTemplate] using member
  · simp [Part.hole?] at member

private theorem Content.Covers.holes_stand
    {source : List Char}
    {slash last : Slash}
    {offset stop : Nat}
    {content : Content}
    {covered : List Token}
    (covers : content.Covers covered)
    (stands : ListStands source slash offset covered last stop) :
    ∀ span ∈ content.holes, span.Stands source := by
  intro span isHole
  cases covers with
  | @template token literal isTemplate =>
    obtain ⟨_, _, _, _, own⟩ := stands.exists_stands List.mem_cons_self
    refine own.hole_stands span ?_
    rw [Content.holes, Content.parts, holes_templateParts] at isHole
    simpa [Token.holes, isTemplate] using isHole
  | @call openParen closer inner isAtom opens closes =>
    obtain ⟨_, next, _, -, paren, rest⟩ := stands.uncons openParen (inner ++ [closer]) rfl
    obtain ⟨rfl, -⟩ := paren.opensPattern isAtom (by decide : '(' ∈ _) opens
    obtain ⟨_, _, own, -⟩ := rest.split inner [closer] rfl
    by_cases stringLike : isStringLike (argumentsOf inner)
    · obtain ⟨token, isToken, inToken⟩ := exists_token_of_stringLike stringLike isHole
      have isInner := (argumentsOf_sublist inner).subset isToken
      obtain ⟨_, _, _, _, tokenStands⟩ := own.exists_stands isInner
      exact tokenStands.hole_stands span inToken
    · rw [holes_of_not_stringLike stringLike] at isHole
      exact arguments_stand own span isHole

/-- The expressions that a use holds stand in the source. -/
theorem Role.Covers.entries_stand
    {source : List Char}
    {slash last : Slash}
    {offset stop : Nat}
    {role : Role}
    {covered : List Token}
    (covers : role.Covers covered)
    (stands : ListStands source slash offset covered last stop) :
    ∀ entry ∈ role.entries, entry.2.Stands source := by
  intro entry isEntry
  have inContent : ∀ content : Content, ∀ tokens middle between, content.Covers tokens →
      ListStands source middle between tokens last stop →
      entry ∈ content.holes.map (Entry.hole, ·) → entry.2.Stands source := by
    rintro content tokens middle between own later isHole
    obtain ⟨span, isSpan, rfl⟩ := List.mem_map.mp isHole
    exact own.holes_stand later span isSpan
  cases covers with
  | passThrough => simp [Role.entries] at isEntry
  | bareValue => simp [Role.entries] at isEntry
  | direct own =>
    exact inContent _ _ _ _ own stands (by simpa [Role.entries, Receiver.arguments] using isEntry)
  | @member spec content point name tokens isAtom isPoint isName own =>
    obtain ⟨_, _, -, later⟩ := stands.split [point, name] tokens rfl
    exact inContent _ _ _ _ own later (by simpa [Role.entries, Receiver.arguments] using isEntry)
  | @factory spec content openParen closer inner tokens isAtom opens nonempty closes own =>
    obtain ⟨_, next, _, -, paren, rest⟩ := stands.uncons openParen (inner ++ closer :: tokens) rfl
    obtain ⟨rfl, -⟩ := paren.opensPattern isAtom (by decide : '(' ∈ _) opens
    obtain ⟨turn, _, argument, later⟩ := rest.split inner (closer :: tokens) rfl
    obtain ⟨_, _, _, gap, closing, after⟩ := later.uncons closer tokens rfl
    simp only [Role.entries, Receiver.arguments, List.map_cons, List.map_nil,
      List.singleton_append, List.mem_cons] at isEntry
    rcases isEntry with rfl | isEntry
    · have reads := argument.append gap
      rw [List.append_nil] at reads
      have isStart := closing.bounds.1
      have early := closing.lt
      have inside := closing.inside
      refine ⟨⟨turn, ?_⟩, ?_⟩
      · rwa [paren.bounds.2, isStart]
      · change closer.start ≤ source.length
        omega
    · exact inContent _ _ _ _ own after isEntry

mutual

theorem Scanned.entries_stand
    {scope : Scope}
    {before tokens : List Token}
    {uses : List Use}
    (scanned : Scanned scope before tokens uses)
    {source : List Char}
    {slash last : Slash}
    {offset stop : Nat}
    (stands : ListStands source slash offset tokens last stop) :
    ∀ use ∈ uses, ∀ entry ∈ use.role.entries, entry.2.Stands source :=
  match scanned with
  | .nil => by simp
  | @Scanned.declared _ _ after token _ _ later => by
    obtain ⟨_, _, _, -, -, rest⟩ := stands.uncons token after rfl
    exact later.entries_stand rest
  | @Scanned.use _ _ covered after token own others _ _ covers later => by
    obtain ⟨_, _, _, -, -, rest⟩ := stands.uncons token (covered ++ after) rfl
    obtain ⟨_, _, inside, beyond⟩ := rest.split covered after rfl
    intro use member
    rcases List.mem_cons.mp member with rfl | member
    · exact covers.entries_stand inside
    · exact later.entries_stand beyond use member
  | @Scanned.other _ _ after token inner others _ holes later => by
    obtain ⟨_, _, _, -, own, rest⟩ := stands.uncons token after rfl
    have inHoles := holes.entries_stand own.hole_stands
    intro use member
    rcases List.mem_append.mp member with member | member
    · exact inHoles use member
    · exact later.entries_stand rest use member

theorem HolesScanned.entries_stand
    {scope : Scope}
    {holes : List Span}
    {uses : List Use}
    (scanned : HolesScanned scope holes uses)
    {source : List Char}
    (stand : ∀ hole ∈ holes, hole.Stands source) :
    ∀ use ∈ uses, ∀ entry ∈ use.role.entries, entry.2.Stands source :=
  match scanned with
  | .nil => by simp
  | @HolesScanned.cons _ hole holes first others own later => by
    obtain ⟨_, reads⟩ := (stand hole List.mem_cons_self).reads
    intro use member
    rcases List.mem_append.mp member with member | member
    · exact own.entries_stand reads use member
    · exact later.entries_stand (fun hole isHole => stand hole (List.mem_cons_of_mem _ isHole))
        use member

end

/-- The expressions that the uses found in an expression hold stand in the
source. -/
theorem entries_stand_of_foundIn
    {scope : Scope}
    {source : List Char}
    {entry : Entry}
    {span : Span}
    {uses : List Use}
    (found : foundIn scope entry span = .ok uses)
    (stands : span.Stands source) :
    ∀ use ∈ uses, ∀ inner ∈ use.role.entries, inner.2.Stands source := by
  obtain ⟨last, reads⟩ := stands.reads
  rcases cases_of_foundIn found with scanned | ⟨use, content, rfl, fills⟩
  · exact (scanned_of_scan scanned).entries_stand reads
  · obtain ⟨token, after, isTokens, isFound⟩ := fills.found
    obtain ⟨_, _, _, -, -, rest⟩ := reads.uncons token after isTokens
    intro own member
    obtain rfl := List.mem_singleton.mp member
    exact (covers_of_fills isFound).entries_stand rest

/-! ## Brackets around what a use covers -/

/-- What stands between parentheses and is balanced leaves the brackets around
it, and what closes it is a parenthesis. -/
theorem awaited_of_parenthesised
    {openParen closer : Token}
    {inner after : List Token}
    (opens : isPunctuator ["("] openParen)
    (isBalanced : balanced inner)
    (closes : closes closer)
    {commas : Bool}
    {stack left : List String}
    (isLeft : awaited commas stack ((openParen :: (inner ++ closer :: after)).map Token.face) =
      some left) :
    awaited commas stack (after.map Token.face) = some left ∧ isPunctuator [")"] closer := by
  have isOpener : closerOf? openParen.face = some ")" := by
    rw [closerOf?, faceIs_face, if_pos opens]
  have notOpener : closerOf? closer.face = none := by
    simpa [opens_eq] using not_opens_of_closes closes
  rw [closes_eq] at closes
  obtain ⟨inside, awaitsOpener, isLeft⟩ := awaited_cons_eq_some_iff.mp isLeft
  obtain rfl : inside = ")" :: stack := by
    cases awaitsOpener with
    | opens isCloser => rw [Option.some.inj (isOpener.symm.trans isCloser)]
    | closes notOwn => simp [isOpener] at notOwn
    | passes notOwn => simp [isOpener] at notOwn
  have isClosed : awaited true [] (inner.map Token.face) = some [] := by
    simpa [balanced] using isBalanced
  rw [List.map_append, List.map_cons, awaited_append, awaited_of_balanced isClosed,
    Option.bind_some] at isLeft
  obtain ⟨outer, awaitsCloser, isLeft⟩ := awaited_cons_eq_some_iff.mp isLeft
  cases awaitsCloser with
  | opens isOwn => simp [notOpener] at isOwn
  | passes _ notCloser => simp [closes] at notCloser
  | closes _ _ isStack =>
    obtain ⟨isText, rfl⟩ := List.cons.inj isStack
    refine ⟨isLeft, ?_⟩
    rw [← faceIs_face]
    simp only [faceIs, Bool.and_eq_true] at closes ⊢
    exact ⟨closes.1, by simp [← isText]⟩

private theorem balanced_of_stringLike
    {spans : List Span}
    (stringLike : isStringLike spans)
    {span : Span}
    (member : span ∈ spans) :
    balanced span.tokens := by
  unfold isStringLike at stringLike
  split at stringLike
  · simp at member
  · obtain rfl := List.mem_singleton.mp member
    split at stringLike
    · rename_i token isTokens
      have plain : token.face.kind ≠ some .punctuator := by
        rcases (Bool.or_eq_true _ _).mp stringLike with isString | isTemplate
        · exact plain_of_is isString (by decide)
        · exact plain_of_isTemplate isTemplate
      have isClosed : awaited true [] [token.face] = some [] :=
        awaited_cons_eq_some_iff.mpr ⟨[], (awaits_iff_of_plain plain).mpr rfl, rfl⟩
      simp [balanced, isTokens, isClosed]
    · simp at stringLike
  · simp at stringLike

private theorem awaits_point
    {point : Token}
    (isPoint : point.text = ".")
    {commas : Bool}
    {stack next : List String}
    (awaits : Awaits commas stack point.face next) :
    next = stack := by
  have isText : point.face.text = "." := by
    unfold face
    split <;> exact isPoint
  cases awaits with
  | opens isOpener => simp [closerOf?, faceIs, isText] at isOpener
  | closes _ isCloser => simp [faceIs, isText] at isCloser
  | passes => rfl

/-- Content whose holes are balanced leaves the brackets around it and ends with
a value. -/
theorem Content.Covers.closed
    {source : List Char}
    {slash last : Slash}
    {offset stop : Nat}
    {content : Content}
    {covered : List Token}
    (covers : content.Covers covered)
    (stands : ListStands source slash offset covered last stop)
    (holesBalanced : ∀ span ∈ content.holes, balanced span.tokens)
    {commas : Bool}
    {stack left : List String}
    (isLeft : awaited commas stack (covered.map Token.face) = some left) :
    left = stack ∧ ∃ front final, covered = front ++ [final] ∧ content.stop = final.stop ∧
      endsValue final := by
  cases covers with
  | @template token literal isTemplate =>
    have isOwn : token.isTemplate := by simp [Token.isTemplate, isTemplate]
    obtain ⟨outer, awaits, isRest⟩ := awaited_cons_eq_some_iff.mp isLeft
    obtain rfl := (awaits_iff_of_plain (plain_of_isTemplate isOwn)).mp awaits
    refine ⟨(Option.some.inj isRest).symm, [], token, rfl, rfl, ?_⟩
    simp [endsValue, isOwn]
  | @call openParen closer inner isAtom opens closes =>
    have isBalanced : balanced inner := by
      refine balanced_of_arguments fun span isArgument => ?_
      by_cases stringLike : isStringLike (argumentsOf inner)
      · exact balanced_of_stringLike stringLike isArgument
      · exact holesBalanced span (by rwa [holes_of_not_stringLike stringLike])
    obtain ⟨_, _, _, -, paren, -⟩ := stands.uncons openParen (inner ++ [closer]) rfl
    have isParen : isPunctuator ["("] openParen := by
      simp [isPunctuator, (paren.opensPattern isAtom (by decide : '(' ∈ _) opens).2, opens]
    obtain ⟨isLeft, isCloser⟩ := awaited_of_parenthesised isParen isBalanced closes isLeft
    refine ⟨(Option.some.inj isLeft).symm, openParen :: inner, closer, rfl, rfl, ?_⟩
    simp [endsValue, isCloser]

/-- What a use covers leaves the brackets around it, where the expressions that
it holds are balanced, and ends with a value. -/
theorem Role.Covers.closed
    {source : List Char}
    {slash last : Slash}
    {offset stop : Nat}
    {spec : Spec}
    {receiver : Receiver}
    {content : Content}
    {covered : List Token}
    (covers : Role.Covers (.invocation spec receiver content) covered)
    (stands : ListStands source slash offset covered last stop)
    (entriesBalanced : ∀ entry ∈ (Role.invocation spec receiver content).entries,
      balanced entry.2.tokens)
    {commas : Bool}
    {stack left : List String}
    (isLeft : awaited commas stack (covered.map Token.face) = some left) :
    left = stack ∧ ∃ front final, covered = front ++ [final] ∧ content.stop = final.stop ∧
      endsValue final := by
  have holesBalanced : ∀ span ∈ content.holes, balanced span.tokens := fun span isHole =>
    entriesBalanced _ (Role.mem_entries_of_hole isHole)
  cases covers with
  | direct own => exact own.closed stands holesBalanced isLeft
  | @member spec content point name tokens isAtom isPoint isName own =>
    have plain : name.face.kind ≠ some .punctuator := by
      rcases (Bool.or_eq_true _ _).mp isName with isIdentifier | isKeyword
      · exact plain_of_is isIdentifier (by decide)
      · exact plain_of_is isKeyword (by decide)
    obtain ⟨_, _, -, later⟩ := stands.split [point, name] tokens rfl
    obtain ⟨first, awaitsPoint, isRest⟩ := awaited_cons_eq_some_iff.mp isLeft
    obtain ⟨second, awaitsName, isContent⟩ := awaited_cons_eq_some_iff.mp isRest
    obtain rfl := awaits_point isPoint awaitsPoint
    obtain rfl := (awaits_iff_of_plain plain).mp awaitsName
    obtain ⟨isStack, front, final, rfl, isStop, isValue⟩ :=
      own.closed later holesBalanced isContent
    exact ⟨isStack, point :: name :: front, final, rfl, isStop, isValue⟩
  | @factory spec content openParen closer inner tokens isAtom opens nonempty closes own =>
    obtain ⟨_, _, _, -, paren, rest⟩ := stands.uncons openParen (inner ++ closer :: tokens) rfl
    obtain ⟨_, _, -, later⟩ := rest.split inner (closer :: tokens) rfl
    obtain ⟨_, _, _, -, -, after⟩ := later.uncons closer tokens rfl
    have isParen : isPunctuator ["("] openParen := by
      simp [isPunctuator, (paren.opensPattern isAtom (by decide : '(' ∈ _) opens).2, opens]
    have isBalanced : balanced inner :=
      entriesBalanced (.searched, ⟨inner, openParen.stop, closer.start⟩)
        (by simp [Role.entries, Receiver.arguments])
    obtain ⟨isContent, -⟩ := awaited_of_parenthesised isParen isBalanced closes isLeft
    obtain ⟨isStack, front, final, rfl, isStop, isValue⟩ :=
      own.closed after holesBalanced isContent
    exact ⟨isStack, openParen :: (inner ++ closer :: front), final, by simp, isStop, isValue⟩

end Use

end Restyle
