import Restyle.Proofs.Output.Pieces
import Restyle.Proofs.Token.Copy

/-!
Contract: tokens with outputs in place of some of them, read again.

Owns: `ReadsAs`, by which the code of an output is read in every context with
the same faces; `Woven`, by which outputs stand in place of some tokens of a
list at any depth; `Respelled`, the faces that the tokens then have; and that the
source with these outputs in it is read with such faces, where it may follow, with
brackets as balanced as those of the tokens.
-/

namespace Restyle.Output

open Token Lexeme Restyle.Bracket

/-- The code of an output is read with certain faces wherever it is put.  A bare
name has to be stopped by what follows. -/
structure ReadsAs (output : Output) (faces : List Face) : Prop where
  begins : ∃ first more, output.code.toList = first :: more ∧ Text.isIdentifierStart first
  ends : ∃ front last, output.code.toList = front ++ [last] ∧ Text.isBlank last = false
  nonempty : faces ≠ []
  closed : ∀ commas stack, awaited commas stack faces = some stack
  runs : ∀ nest slash rest, (output.fragments = none → stops rest) →
    CodeRun nest slash (output.code.toList ++ rest) faces nest .divides rest

mutual

/-- A list of tokens with outputs in place of some of them. -/
inductive Woven : List Token → List Output → Prop where
  | nil : Woven [] []
  | keep {token : Token} {tokens : List Token} {inner others : List Output}
      (holes : HolesWoven token.holes inner)
      (later : Woven tokens others) :
      Woven (token :: tokens) (inner ++ others)
  | replace {token last : Token} {covered front after : List Token} {output : Output}
      {faces : List Face} {others : List Output}
      (isName : token.is .identifier)
      (begins : output.start = token.start)
      (isFront : token :: covered = front ++ [last])
      (ends : output.stop = last.stop)
      (isValue : endsValue last)
      (bare : output.fragments = none → covered = [])
      (closed : ∀ commas stack left,
        awaited commas stack (covered.map Token.face) = some left → left = stack)
      (reads : output.ReadsAs faces)
      (later : Woven after others) :
      Woven (token :: (covered ++ after)) (output :: others)

/-- The holes of a template with outputs in place of some of their tokens. -/
inductive HolesWoven : List Span → List Output → Prop where
  | nil : HolesWoven [] []
  | cons {hole : Span} {holes : List Span} {first others : List Output}
      (isBalanced : balanced hole.tokens)
      (own : Woven hole.tokens first)
      (later : HolesWoven holes others) :
      HolesWoven (hole :: holes) (first ++ others)

end

/-- The face of a token that is kept: its own, or that of a template with outputs in
its holes. -/
def Keeps (source : List Char) (token : Token) (inner : List Output) (face : Face) : Prop :=
  face = token.face ∨ token.isTemplate ∧ ∃ rest, face = ⟨none, String.ofList ('`' :: rest)⟩ ∧
    (inner = [] → '`' :: rest = Text.slice source token.start token.stop)

/-- The faces of a list of tokens of a source with outputs in place of some of
them. -/
inductive Respelled (source : List Char) : List Token → List Output → List Face → Prop where
  | nil : Respelled source [] [] []
  | keep {token : Token} {tokens : List Token} {inner others : List Output} {face : Face}
      {faces : List Face}
      (kept : Keeps source token inner face)
      (later : Respelled source tokens others faces) :
      Respelled source (token :: tokens) (inner ++ others) (face :: faces)
  | replace {token : Token} {covered after : List Token} {output : Output}
      {own faces : List Face} {others : List Output}
      (isName : token.is .identifier)
      (reads : output.ReadsAs own)
      (later : Respelled source after others faces) :
      Respelled source (token :: (covered ++ after)) (output :: others) (own ++ faces)

theorem Respelled.nil_of_nil
    {source : List Char}
    {tokens : List Token}
    {outputs : List Output}
    {faces : List Face}
    (respelled : Respelled source tokens outputs faces)
    (isEmpty : faces = []) :
    tokens = [] := by
  cases respelled with
  | nil => rfl
  | keep => simp at isEmpty
  | replace _ reads => exact absurd (List.append_eq_nil_iff.mp isEmpty).1 reads.nonempty

/-! ## Reading the source with outputs in it -/

/-- What is read from the source between two offsets with outputs in it, and the
closers that are awaited before and after it. -/
structure Rereads (source : List Char) (slash : Slash) (start : Nat) (outputs : List Output)
    (commas : Bool) (stack : List String) (faces : List Face) (left : List String) (last : Slash)
    (stop : Nat) : Prop where
  ascends : Ascends start stop outputs
  closes : awaited commas stack faces = some left
  follows : ∀ other, Follows source stop other →
    Follows source start (pieced source start stop outputs ++ other)
  runs : ∀ other, Follows source stop other → ∀ base : Nest,
    CodeRun (base.raise (bracesIn stack)) slash (pieced source start stop outputs ++ other) faces
      (base.raise (bracesIn left)) last other

section Rereads

variable
  {source : List Char}
  {slash next last : Slash}
  {start middle stop : Nat}
  {outputs : List Output}
  {commas : Bool}
  {stack outer left : List String}
  {faces : List Face}

private theorem rereads_gap
    (gap : ListStands source slash start [] slash middle)
    (isSettled : SettledBetween source start middle)
    (reread : Rereads source slash middle outputs commas stack faces left last stop) :
    Rereads source slash start outputs commas stack faces left last stop := by
  have isPieced := pieced_of_ascends source gap.le reread.ascends
  refine ⟨reread.ascends.lower gap.le, reread.closes, ?_, ?_⟩
  · intro other follows
    rw [isPieced, List.append_assoc]
    exact (gap.copy rfl isSettled (reread.follows other follows)).2.1
  · intro other follows base
    rw [isPieced, List.append_assoc]
    have run := (gap.copy rfl isSettled (reread.follows other follows)).2.2
    exact (run _).trans (reread.runs other follows base)

private theorem rereads_atom
    {first : Char}
    {body : List Char}
    {kind : Lexeme.Kind}
    (lexeme : StandsAt source start slash first body kind next)
    (isAtom : kind.isAtom)
    (own : settled slash first (body ++ source.drop (start + body.length + 1)) kind body.length)
    (awaits : Awaits commas stack ⟨some (kindOf kind), String.ofList (first :: body)⟩ outer)
    (reread : Rereads source next (start + body.length + 1) outputs commas outer faces left last stop) :
    Rereads source slash start outputs commas stack
      (⟨some (kindOf kind), String.ofList (first :: body)⟩ :: faces) left last stop := by
  have isPieced : pieced source start stop outputs =
      first :: (body ++ pieced source (start + body.length + 1) stop outputs) := by
    rw [pieced_of_ascends source (by omega) reread.ascends,
      slice_of_drop lexeme.isText (Nat.le_refl _), Text.slice_self, List.append_nil]
    rfl
  refine ⟨reread.ascends.lower (by omega),
    awaited_cons_eq_some_iff.mpr ⟨outer, awaits, reread.closes⟩, ?_, ?_⟩
  · intro other follows
    rw [isPieced, List.cons_append, List.append_assoc]
    exact Follows.prepend lexeme (reread.follows other follows)
  · intro other follows base
    rw [isPieced, List.cons_append, List.append_assoc]
    exact .atom (codeStep_of_atom lexeme own (reread.follows other follows) awaits base) isAtom
      (reread.runs other follows base)

private theorem rereads_template
    {close : Nat}
    {inner : List Output}
    (opening : source[start]? = some '`')
    (closing : source[close]? = some '`')
    (ascends : Ascends (start + 1) close inner)
    (inside : ∀ nest left, TextRun nest (pieced source (start + 1) close inner ++ '`' :: left) left)
    (reread : Rereads source .divides (close + 1) outputs commas stack faces left last stop) :
    Rereads source slash start (inner ++ outputs) commas stack
      (⟨none, String.ofList ('`' :: (pieced source (start + 1) close inner ++ ['`']))⟩ :: faces)
      left last stop := by
  have after := reread.ascends.lower (Nat.le_add_right close 1)
  have isPieced : pieced source start stop (inner ++ outputs) =
      '`' :: (pieced source (start + 1) close inner ++
        '`' :: pieced source (close + 1) stop outputs) := by
    rw [pieced_append source (ascends.lower (Nat.le_add_right start 1)) after,
      pieced_of_ascends source (Nat.le_add_right start 1) ascends,
      pieced_of_ascends source (Nat.le_add_right close 1) reread.ascends,
      Text.slice_succ opening, Text.slice_succ closing]
    simp
  have plain : Awaits commas stack
      ⟨none, String.ofList ('`' :: (pieced source (start + 1) close inner ++ ['`']))⟩ stack :=
    (awaits_iff_of_plain (by simp)).mpr rfl
  have stands := Text.drop_of_getElem? opening
  refine ⟨(ascends.lower (Nat.le_add_right start 1)).append after,
    awaited_cons_eq_some_iff.mpr ⟨stack, plain, reread.closes⟩, ?_, ?_⟩
  · intro other follows
    rw [isPieced, List.cons_append]
    refine ⟨?_, fun _ => by rw [stands]; rfl⟩
    rw [stands]
    exact .same (fun isPoint => absurd isPoint (by decide)) (fun isPoint => absurd isPoint (by decide))
  · intro other follows base
    have isText : pieced source start stop (inner ++ outputs) ++ other =
        '`' :: ((pieced source (start + 1) close inner ++ ['`']) ++
          (pieced source (close + 1) stop outputs ++ other)) := by
      rw [isPieced]
      simp
    rw [isText]
    refine .template ?_ (reread.runs other follows base)
    rw [List.append_assoc]
    exact inside _ _

private theorem rereads_replace
    {output : Output}
    {own : List Face}
    {first : Char}
    {rest : List Char}
    (reads : output.ReadsAs own)
    (begins : source.drop output.start = first :: rest)
    (isName : Text.isIdentifierStart first)
    (nonempty : output.start < output.stop)
    (bare : output.fragments = none → stops (source.drop output.stop))
    (reread : Rereads source .divides output.stop outputs commas stack faces left last stop) :
    Rereads source slash output.start (output :: outputs) commas stack (own ++ faces) left last
      stop := by
  have isPieced : pieced source output.start stop (output :: outputs) =
      output.code.toList ++ pieced source output.stop stop outputs := by
    rw [pieced, Text.slice_self, List.nil_append]
  refine ⟨⟨Nat.le_refl _, nonempty, reread.ascends⟩, ?_, ?_, ?_⟩
  · rw [awaited_append, reads.closed, Option.bind_some, reread.closes]
  · intro other follows
    obtain ⟨c, more, isCode, starts⟩ := reads.begins
    rw [isPieced, isCode, List.append_assoc, List.cons_append]
    refine ⟨by rw [begins]; exact .name isName starts, fun ends => ?_⟩
    obtain rfl := lineFeed_of_commentEnds ends begins
    exact absurd isName (by decide)
  · intro other follows base
    rw [isPieced, List.append_assoc]
    refine (reads.runs _ slash _ fun isBare => ?_).trans (reread.runs other follows base)
    exact (reread.follows other follows).alike.stops (bare isBare)

end Rereads

theorem Nest.raise_zero (nest : Nest) : nest.raise 0 = nest := by
  cases nest <;> rfl

theorem HolesWoven.nil_of_nil
    {holes : List Span}
    {outputs : List Output}
    (woven : HolesWoven holes outputs)
    (isEmpty : holes = []) :
    outputs = [] := by
  cases woven with
  | nil => rfl
  | cons => simp at isEmpty

/-- Tokens that begin with a name and end with a value stand from the beginning of
the one to the end of the other. -/
theorem stands_of_covered
    {source : List Char}
    {slash last : Slash}
    {start stop : Nat}
    {token final : Token}
    {covered front after : List Token}
    (stands : ListStands source slash start (token :: (covered ++ after)) last stop)
    (isFront : token :: covered = front ++ [final])
    (isValue : endsValue final) :
    token.start < final.stop ∧ ListStands source .divides final.stop after last stop := by
  obtain ⟨turn, ending, head, tail⟩ := stands.split (token :: covered) after (by simp)
  obtain ⟨_, _, frontStands, lastStands⟩ := head.split front [final] isFront
  obtain ⟨begins, next, ends, gap, own, nothing⟩ := lastStands.uncons final [] rfl
  obtain rfl := divides_of_endsValue own isValue
  obtain ⟨isStart, rfl⟩ := own.bounds
  refine ⟨?_, nothing.append tail⟩
  have positive := own.lt
  cases front with
  | nil =>
    obtain ⟨rfl, -⟩ := List.cons.inj isFront
    omega
  | cons first front =>
    obtain ⟨rfl, -⟩ := List.cons.inj isFront
    obtain ⟨begin, _, middle, -, name, rest⟩ := frontStands.uncons token front rfl
    have := name.lt
    have := name.bounds.1
    have := rest.le
    have := gap.le
    omega

private theorem rereads_nil
    {source : List Char}
    {slash last : Slash}
    {start stop : Nat}
    {commas : Bool}
    {stack : List String}
    (stands : ListStands source slash start [] last stop)
    (isSettled : SettledBetween source start stop) :
    Rereads source slash start [] commas stack [] stack last stop := by
  refine ⟨stands.le, rfl, ?_, ?_⟩
  · intro other follows
    exact (stands.copy rfl isSettled follows).2.1
  · intro other follows base
    obtain ⟨isLast, -, run⟩ := stands.copy rfl isSettled follows
    rw [isLast]
    exact run _

private theorem slice_of_template
    {source : List Char}
    {token : Token}
    {start close : Nat}
    (begins : token.start = start)
    (ends : token.stop = close + 1)
    (opening : source[start]? = some '`')
    (closing : source[close]? = some '`')
    (ordered : Ascends (start + 1) close []) :
    '`' :: (pieced source (start + 1) close [] ++ ['`']) =
      Text.slice source token.start token.stop := by
  have early : start + 1 ≤ close := ordered
  rw [begins, ends, pieced, ← Text.slice_succ closing,
    Text.slice_append_slice source early (Nat.le_succ close),
    ← Text.slice_append_slice source (Nat.le_succ start) (by omega : start + 1 ≤ close + 1),
    Text.slice_succ opening]
  rfl

mutual

/-- Tokens with outputs in place of some of them are read again from the source
with these outputs in it. -/
theorem Woven.rereads
    {tokens : List Token}
    {outputs : List Output}
    (woven : Woven tokens outputs)
    {source : List Char}
    {slash last : Slash}
    {start stop : Nat}
    (stands : ListStands source slash start tokens last stop)
    (isSettled : SettledBetween source start stop)
    {commas : Bool}
    {stack left : List String}
    (closes : awaited commas stack (tokens.map Token.face) = some left) :
    ∃ faces, Respelled source tokens outputs faces ∧
      Rereads source slash start outputs commas stack faces left last stop :=
  match woven with
  | .nil => by
    obtain rfl : stack = left := Option.some.inj closes
    exact ⟨[], .nil, rereads_nil stands isSettled⟩
  | @Woven.keep token tokens inner others holes later => by
    obtain ⟨begins, next, ends, gap, own, rest⟩ := stands.uncons token tokens rfl
    have first := gap.le
    have second := own.lt
    have third := rest.le
    have inside := fun offset close holesStand closing ownSettled =>
      @HolesWoven.rereads _ _ holes source offset close holesStand closing ownSettled
    obtain ⟨outer, awaits, laterCloses⟩ := awaited_cons_eq_some_iff.mp closes
    obtain ⟨faces, respelled, reread⟩ :=
      later.rereads rest (isSettled.narrow (by omega) (Nat.le_refl _)) laterCloses
    have gapSettled := isSettled.narrow (Nat.le_refl _) (by omega : begins ≤ stop)
    cases own with
    | atom lexeme isAtom =>
      obtain rfl : inner = [] := holes.nil_of_nil rfl
      have ownSettled := isSettled _ _ _ _ _ _ first (by omega) lexeme
      exact ⟨_, .keep (.inl rfl) respelled,
        rereads_gap gap gapSettled (rereads_atom lexeme isAtom ownSettled awaits reread)⟩
    | template isTemplate isStart isStop opening holesStand closing =>
      obtain rfl := (awaits_iff_of_plain (plain_of_isTemplate isTemplate)).mp awaits
      obtain ⟨ascends, runs⟩ := inside _ _ holesStand closing
        (isSettled.narrow (by omega) (by omega))
      refine ⟨_, .keep (.inr ⟨isTemplate, _, rfl, ?_⟩) respelled, rereads_gap gap gapSettled
        (rereads_template opening closing ascends (fun nest left => (runs nest left).2) reread)⟩
      rintro rfl
      exact slice_of_template isStart isStop opening closing ascends
  | @Woven.replace token final covered front after output own others isName begins isFront ends
      isValue bare closed reads later => by
    obtain ⟨begin, next, middle, gap, name, rest⟩ := stands.uncons token (covered ++ after) rfl
    have first := gap.le
    have second := name.lt
    obtain ⟨outer, awaits, restCloses⟩ := awaited_cons_eq_some_iff.mp closes
    obtain rfl := (awaits_iff_of_plain (plain_of_is isName (by decide))).mp awaits
    rw [List.map_append, awaited_append, Option.bind_eq_some_iff] at restCloses
    obtain ⟨between, isBetween, laterCloses⟩ := restCloses
    obtain rfl := closed _ _ _ isBetween
    obtain ⟨nonempty, tail⟩ := stands_of_covered stands isFront isValue
    have third := tail.le
    rw [← begins, ← ends] at nonempty
    rw [← ends] at tail third
    obtain ⟨isStart, isStop⟩ := name.bounds
    obtain ⟨⟨letter, others, isText, starts⟩, stopped, -⟩ := stands_of_identifier name isName
    rw [← isStart, ← begins] at isText gap first
    rw [← isStop] at stopped
    obtain ⟨faces, respelled, reread⟩ :=
      later.rereads tail (isSettled.narrow (by omega) (Nat.le_refl _)) laterCloses
    refine ⟨_, .replace isName reads respelled,
      rereads_gap gap (isSettled.narrow (Nat.le_refl _) (by omega))
        (rereads_replace reads isText starts nonempty (fun isBare => ?_) reread)⟩
    obtain ⟨-, rfl⟩ : front = [] ∧ final = token := by
      have isOne : front ++ [final] = [token] := by rw [← isFront, bare isBare]
      simpa [List.append_eq_cons_iff] using isOne
    rwa [ends]

theorem HolesWoven.rereads
    {holes : List Span}
    {outputs : List Output}
    (woven : HolesWoven holes outputs)
    {source : List Char}
    {start stop : Nat}
    (stands : TextStands source start holes stop)
    (closing : source[stop]? = some '`')
    (isSettled : SettledBetween source start stop) :
    Ascends start stop outputs ∧ ∀ nest left,
      (pieced source start stop outputs ++ '`' :: left).head? = (source.drop start).head? ∧
        TextRun nest (pieced source start stop outputs ++ '`' :: left) left :=
  match woven with
  | .nil => by
    refine ⟨stands.le, fun nest left => ?_⟩
    refine stands.copy rfl ?_ .close
    rw [Text.drop_of_getElem? closing]
    rfl
  | @HolesWoven.cons hole holes first others isBalanced own later => by
    obtain ⟨opens, last, gap, dollar, brace, begins, inside, isClosing, rest⟩ :=
      stands.uncons hole holes rfl
    have early := gap.le
    have middle := inside.le
    have late := rest.le
    have isClosed : awaited true [] (hole.tokens.map Token.face) = some [] := by
      simpa [balanced] using isBalanced
    obtain ⟨faces, -, reread⟩ := own.rereads inside (isSettled.narrow (by omega) (by omega)) isClosed
    obtain ⟨laterAscends, laterRuns⟩ :=
      later.rereads rest closing (isSettled.narrow (by omega) (Nat.le_refl _))
    have beyond := laterAscends.lower (Nat.le_add_right hole.stop 1)
    have isPieced : pieced source start stop (first ++ others) =
        Text.slice source start opens ++ '$' :: '\x7b' ::
          (pieced source (opens + 2) hole.stop first ++
            '\x7d' :: pieced source (hole.stop + 1) stop others) := by
      rw [pieced_append source (reread.ascends.lower (by omega)) beyond,
        pieced_of_ascends source (by omega : start ≤ opens + 2) reread.ascends,
        pieced_of_ascends source (Nat.le_add_right hole.stop 1) laterAscends,
        Text.slice_succ isClosing,
        ← Text.slice_append_slice source early (by omega : opens ≤ opens + 2),
        ← Text.slice_append_slice source (by omega : opens ≤ opens + 1) (by omega : opens + 1 ≤ opens + 2),
        Text.slice_succ dollar, Text.slice_succ brace]
      simp
    refine ⟨(reread.ascends.lower (by omega)).append beyond, fun nest left => ?_⟩
    rw [isPieced, List.append_assoc]
    have isRest := Text.drop_of_getElem? isClosing
    have follows : Follows source hole.stop
        ('\x7d' :: (pieced source (hole.stop + 1) stop others ++ '`' :: left)) := by
      refine ⟨?_, fun _ => by rw [isRest]; rfl⟩
      rw [isRest]
      exact .same (fun isPoint => absurd isPoint (by decide))
        (fun isPoint => absurd isPoint (by decide))
    have run := reread.runs _ follows (.hole 0 nest)
    rw [bracesIn, List.count_nil, Nest.raise_zero] at run
    refine gap.copy rfl ?_ ?_
    · rw [Text.drop_of_getElem? dollar]
      rfl
    · have isHole : ('$' :: '\x7b' :: (pieced source (opens + 2) hole.stop first ++
            '\x7d' :: pieced source (hole.stop + 1) stop others)) ++ '`' :: left =
          '$' :: '\x7b' :: (pieced source (opens + 2) hole.stop first ++
            '\x7d' :: (pieced source (hole.stop + 1) stop others ++ '`' :: left)) := by
        simp
      rw [isHole]
      exact .hole run (laterRuns nest left).2

end

end Restyle.Output
