import Restyle.Proofs.Token.Standing

/-!
Contract: runs of the scanner over code, with what is read on the way.

Owns: `Face`, the kind and the text of a token; `CodeRun` and `TextRun`, by
which a text is read up to what is left of it, with the faces of the tokens in
between; that runs follow each other; and that a run through a text, or through the
beginning of one, gives tokens with these faces.
-/

namespace Restyle.Token

open Lexeme

/-- What a token shows wherever it stands: its kind, none for a template, and
its text. -/
structure Face where
  kind : Option Kind
  text : String
deriving DecidableEq

def face (token : Token) : Face :=
  match token.body with
  | .atom kind => ⟨some kind, token.text⟩
  | .template _ => ⟨none, token.text⟩

theorem text_face (token : Token) : token.face.text = token.text := by
  obtain ⟨text, start, location, body⟩ := token
  cases body <;> rfl

theorem is_eq_face (token : Token) (kind : Kind) :
    token.is kind = decide (token.face.kind = some kind) := by
  obtain ⟨text, start, location, body⟩ := token
  cases body <;> simp [Token.is, face]

theorem plain_of_is {token : Token} {kind : Token.Kind} (isKind : token.is kind)
    (noMark : kind ≠ .punctuator) : token.face.kind ≠ some .punctuator := by
  obtain ⟨text, start, location, body⟩ := token
  cases body with
  | atom own =>
    obtain rfl : own = kind := by simpa [Token.is] using isKind
    simpa [face] using noMark
  | template literal => simp [face]

theorem plain_of_isTemplate {token : Token} (isTemplate : token.isTemplate) :
    token.face.kind ≠ some .punctuator := by
  obtain ⟨text, start, location, body⟩ := token
  cases body with
  | atom own => simp [Token.isTemplate, Token.template?] at isTemplate
  | template literal => simp [face]

mutual

/-- Code read from its beginning up to what is left. -/
inductive CodeRun : Nest → Slash → List Char → List Face → Nest → Slash → List Char → Prop where
  | here {nest : Nest} {slash : Slash} {text : List Char} :
      CodeRun nest slash text [] nest slash text
  | trivia {nest inner last : Nest} {slash next final : Slash} {first : Char}
      {body rest left : List Char} {kind : Lexeme.Kind} {faces : List Face}
      (isStep : codeStep nest slash first (body ++ rest) = ⟨kind, body.length, .code inner next⟩)
      (isTrivia : kind.isTrivia)
      (later : CodeRun inner next rest faces last final left) :
      CodeRun nest slash (first :: (body ++ rest)) faces last final left
  | atom {nest inner last : Nest} {slash next final : Slash} {first : Char}
      {body rest left : List Char} {kind : Lexeme.Kind} {faces : List Face}
      (isStep : codeStep nest slash first (body ++ rest) = ⟨kind, body.length, .code inner next⟩)
      (isAtom : kind.isAtom)
      (later : CodeRun inner next rest faces last final left) :
      CodeRun nest slash (first :: (body ++ rest))
        (⟨some (kindOf kind), String.ofList (first :: body)⟩ :: faces) last final left
  | template {nest last : Nest} {slash final : Slash} {chars rest left : List Char}
      {faces : List Face}
      (inside : TextRun nest (chars ++ rest) rest)
      (later : CodeRun nest .divides rest faces last final left) :
      CodeRun nest slash ('`' :: (chars ++ rest))
        (⟨none, String.ofList ('`' :: chars)⟩ :: faces) last final left

/-- The text of a template read up to what is left after its closing mark. -/
inductive TextRun : Nest → List Char → List Char → Prop where
  | close {nest : Nest} {rest : List Char} : TextRun nest ('`' :: rest) rest
  | text {nest : Nest} {first : Char} {body rest left : List Char}
      (isStep : templateStep nest first (body ++ rest) =
        ⟨.templateText, body.length, .template nest⟩)
      (later : TextRun nest rest left) :
      TextRun nest (first :: (body ++ rest)) left
  | hole {nest : Nest} {final : Slash} {rest after left : List Char} {faces : List Face}
      (inside : CodeRun (.hole 0 nest) .opensPattern rest faces (.hole 0 nest) final
        ('\x7d' :: after))
      (later : TextRun nest after left) :
      TextRun nest ('$' :: '\x7b' :: rest) left

end

theorem CodeRun.trans
    {nest middle last : Nest}
    {slash between final : Slash}
    {text rest left : List Char}
    {faces others : List Face}
    (first : CodeRun nest slash text faces middle between rest)
    (second : CodeRun middle between rest others last final left) :
    CodeRun nest slash text (faces ++ others) last final left :=
  match first with
  | .here => second
  | .trivia isStep isTrivia later => .trivia isStep isTrivia (later.trans second)
  | .atom isStep isAtom later => .atom isStep isAtom (later.trans second)
  | .template inside later => .template inside (later.trans second)

/-! ## What the reader makes of a run -/

def readFrom (source : List Char) (state : State) (start : Nat) (text : List Char)
    (reader : Reader) : Except Fault Reader :=
  (scanFrom state start text).foldlM (Reader.push source) reader

private theorem readFrom_cons
    (state : State)
    {next : State}
    {first : Char}
    {body rest : List Char}
    {kind : Lexeme.Kind}
    (isStep : step state first (body ++ rest) = ⟨kind, body.length, next⟩)
    (source : List Char)
    (start : Nat)
    (reader : Reader) :
    readFrom source state start (first :: (body ++ rest)) reader =
      reader.push source ⟨kind, String.ofList (first :: body), start⟩ >>=
        readFrom source next (start + (body.length + 1)) rest := by
  rw [readFrom, scanFrom]
  simp only [isStep, List.take_left, List.drop_left, List.foldlM_cons, Lexeme.stop,
    String.length_ofList, List.length_cons]
  rfl

private theorem drop_beyond
    {source : List Char}
    {start : Nat}
    {first : Char}
    {body rest : List Char}
    (isText : source.drop start = first :: (body ++ rest)) :
    source.drop (start + (body.length + 1)) = rest := by
  rw [← List.drop_drop, isText, List.drop_succ_cons, List.drop_left]

private theorem add_length_cons (start : Nat) (first : Char) (body chars : List Char) :
    start + (first :: (body ++ chars)).length = start + (body.length + 1) + chars.length := by
  simp only [List.length_cons, List.length_append]
  omega

def OpenCode.pushAll (current : OpenCode) (tokens : List Token) : OpenCode :=
  tokens.foldl (fun code token => code.push token) current

private theorem OpenCode.pushAll_module (earlier tokens : List Token) :
    OpenCode.pushAll (.module earlier) tokens = .module (tokens.reverse ++ earlier) := by
  induction tokens generalizing earlier with
  | nil => rfl
  | cons token tokens inductionHypothesis =>
    rw [pushAll, List.foldl_cons, push, ← pushAll, inductionHypothesis]
    simp

private theorem OpenCode.pushAll_hole
    (template : OpenTemplate)
    (chunk : Template.Chunk)
    (start : Nat)
    (earlier tokens : List Token)
    (outer : OpenCode) :
    OpenCode.pushAll (.hole template chunk start earlier outer) tokens =
      .hole template chunk start (tokens.reverse ++ earlier) outer := by
  induction tokens generalizing earlier with
  | nil => rfl
  | cons token tokens inductionHypothesis =>
    rw [pushAll, List.foldl_cons, push, ← pushAll, inductionHypothesis]
    simp

mutual

theorem CodeRun.read
    {nest last : Nest}
    {slash final : Slash}
    {text left : List Char}
    {faces : List Face}
    (run : CodeRun nest slash text faces last final left)
    (source : List Char)
    (start : Nat)
    (isText : source.drop start = text)
    (current : OpenCode) :
    ∃ chars tokens, text = chars ++ left ∧ tokens.map face = faces ∧
      readFrom source (.code nest slash) start text (.code current) =
        readFrom source (.code last final) (start + chars.length) left
          (.code (current.pushAll tokens)) := by
  match run with
  | .here => exact ⟨[], [], rfl, rfl, rfl⟩
  | .trivia isStep isTrivia later =>
    rename_i first body rest kind
    obtain ⟨chars, tokens, isRest, isFaces, isRead⟩ :=
      later.read source (start + (body.length + 1)) (drop_beyond isText) current
    refine ⟨first :: (body ++ chars), tokens, by simp [isRest], isFaces, ?_⟩
    rw [readFrom_cons (.code nest slash) isStep, Reader.push_of_trivia isTrivia, add_length_cons]
    exact isRead
  | .atom isStep isAtom later =>
    rename_i first body rest kind faces
    let token := ofLexeme source ⟨kind, String.ofList (first :: body), start⟩
    obtain ⟨chars, tokens, isRest, isFaces, isRead⟩ :=
      later.read source (start + (body.length + 1)) (drop_beyond isText) (current.push token)
    refine ⟨first :: (body ++ chars), token :: tokens, by simp [isRest], ?_, ?_⟩
    · rw [List.map_cons, isFaces]
      rfl
    · rw [readFrom_cons (.code nest slash) isStep, Reader.push_of_atom isAtom, add_length_cons]
      exact isRead
  | .template inside later =>
    rename_i chars rest faces
    have isRest : source.drop (start + 1) = chars ++ rest := by
      rw [← List.drop_drop, isText]
      rfl
    obtain ⟨own, token, isOwn, isFace, readInside⟩ :=
      inside.read source (start + 1) isRest ⟨start, []⟩ (start + 1) current
    obtain rfl : chars = own := List.append_cancel_right isOwn
    have isAfter : source.drop (start + 1 + chars.length) = rest := by
      rw [← List.drop_drop, isRest, List.drop_left]
    obtain ⟨others, tokens, isLeft, isFaces, readAfter⟩ :=
      later.read source (start + 1 + chars.length) isAfter (current.push token)
    have isText' : Text.slice source start (start + 1 + chars.length) = '`' :: chars := by
      rw [Text.slice_eq_take_drop, isText, Nat.add_assoc, Nat.add_sub_cancel_left, Nat.add_comm,
        List.take_succ_cons, List.take_left]
    refine ⟨'`' :: (chars ++ others), token :: tokens, by simp [isLeft], ?_, ?_⟩
    · rw [List.map_cons, isFaces, isFace, isText']
    · have isStep : step (.code nest slash) '`' ([] ++ (chars ++ rest)) =
          ⟨.templateOpen, ([] : List Char).length, .template nest⟩ := codeStep_of_backtick
      refine (readFrom_cons (.code nest slash) isStep source start (.code current)).trans ?_
      refine readInside.trans (readAfter.trans ?_)
      have size : start + ('`' :: (chars ++ others)).length =
          start + 1 + chars.length + others.length := by
        simp only [List.length_cons, List.length_append]
        omega
      rw [size]
      rfl

theorem TextRun.read
    {nest : Nest}
    {text left : List Char}
    (run : TextRun nest text left)
    (source : List Char)
    (start : Nat)
    (isText : source.drop start = text)
    (template : OpenTemplate)
    (chunkStart : Nat)
    (outer : OpenCode) :
    ∃ chars token, text = chars ++ left ∧
      token.face = ⟨none, String.ofList (Text.slice source template.start (start + chars.length))⟩ ∧
      readFrom source (.template nest) start text (.text template chunkStart outer) =
        readFrom source (.code nest .divides) (start + chars.length) left
          (.code (outer.push token)) := by
  match run with
  | .close =>
    refine ⟨['`'], ofTemplate source template chunkStart start, rfl, rfl, ?_⟩
    have isStep : step (.template nest) '`' ([] ++ left) =
      ⟨.templateClose, ([] : List Char).length, .code nest .divides⟩ := rfl
    exact readFrom_cons (.template nest) isStep source start _
  | .text isStep later =>
    rename_i first body rest
    obtain ⟨chars, token, isRest, isFace, isRead⟩ :=
      later.read source (start + (body.length + 1)) (drop_beyond isText) template chunkStart outer
    refine ⟨first :: (body ++ chars), token, by simp [isRest], by rw [add_length_cons, isFace], ?_⟩
    rw [readFrom_cons (.template nest) isStep, add_length_cons]
    exact isRead
  | .hole inside later =>
    rename_i final rest after faces
    have isRest : source.drop (start + 2) = rest := by
      rw [← List.drop_drop, isText]
      rfl
    let chunk := chunkOf source chunkStart start
    obtain ⟨chars, tokens, isInside, -, readInside⟩ :=
      inside.read source (start + 2) isRest (.hole template chunk (start + 2) [] outer)
    have isAfter : source.drop (start + 2 + chars.length + 1) = after := by
      rw [Nat.add_assoc (start + 2), ← List.drop_drop, isRest, isInside, ← List.drop_drop,
        List.drop_left]
      rfl
    let hole : Span := ⟨tokens, start + 2, start + 2 + chars.length⟩
    obtain ⟨others, token, isLeft, isFace, readAfter⟩ :=
      later.read source (start + 2 + chars.length + 1) isAfter
        ⟨template.start, (chunk, hole) :: template.parts⟩ (start + 2 + chars.length + 1) outer
    have size : start + ('$' :: '\x7b' :: (chars ++ '\x7d' :: others)).length =
        start + 2 + chars.length + 1 + others.length := by
      simp only [List.length_cons, List.length_append]
      omega
    refine ⟨'$' :: '\x7b' :: (chars ++ '\x7d' :: others), token, by simp [isInside, isLeft],
      by rw [size, isFace], ?_⟩
    have opens : step (.template nest) '$' (['\x7b'] ++ rest) =
      ⟨.holeOpen, ['\x7b'].length, .code (.hole 0 nest) .opensPattern⟩ := rfl
    have closes : step (.code (.hole 0 nest) final) '\x7d' ([] ++ after) =
      ⟨.holeClose, ([] : List Char).length, .template nest⟩ := codeStep_of_brace rfl
    rw [size]
    refine (readFrom_cons (.template nest) opens source start _).trans (readInside.trans ?_)
    refine (readFrom_cons (.code (.hole 0 nest) final) closes source _ _).trans ?_
    rw [OpenCode.pushAll_hole, List.append_nil]
    simp only [Reader.push, List.reverse_reverse]
    exact readAfter

end

/-- A run through a whole text gives tokens with its faces. -/
theorem CodeRun.readAll
    {text : String}
    {slash : Slash}
    {faces : List Face}
    (run : CodeRun .module .divides text.toList faces .module slash []) :
    ∃ tokens, Token.readAll text = .ok tokens ∧ tokens.map face = faces := by
  obtain ⟨chars, tokens, -, isFaces, isRead⟩ :=
    run.read text.toList 0 List.drop_zero (.module [])
  refine ⟨tokens, ?_, isFaces⟩
  have folded : (scan text).foldlM (Reader.push text.toList) (.code (.module [])) =
      .ok (.code (.module tokens.reverse)) := by
    refine isRead.trans ?_
    rw [OpenCode.pushAll_module, List.append_nil, readFrom, scanFrom]
    rfl
  rw [Token.readAll, folded]
  show Except.ok tokens.reverse.reverse = _
  rw [List.reverse_reverse]

/-! ## What is read first stays first -/

/-- The tokens of the module itself, latest first. -/
def OpenCode.ground : OpenCode → List Token
  | .module tokens => tokens
  | .hole _ _ _ _ outer => outer.ground

def Reader.ground : Reader → List Token
  | .code current => current.ground
  | .text _ _ outer => outer.ground

private theorem OpenCode.ground_push (token : Token) (current : OpenCode) :
    current.ground <:+ (current.push token).ground := by
  cases current with
  | module tokens => exact List.suffix_cons token tokens
  | hole template chunk start tokens outer => exact List.suffix_refl _

private theorem Reader.ground_push
    {source : List Char}
    {reader later : Reader}
    {lexeme : Lexeme}
    (isPushed : reader.push source lexeme = .ok later) :
    reader.ground <:+ later.ground := by
  -- A lexeme is passed over, adds a token to the code around it, or is no part of a text.
  unfold push at isPushed
  repeat' split at isPushed
  all_goals
    first
    | exact Except.ok.inj isPushed ▸ List.suffix_refl _
    | exact Except.ok.inj isPushed ▸ OpenCode.ground_push _ _
    | simp at isPushed

private theorem Reader.ground_foldlM
    {source : List Char}
    {lexemes : List Lexeme}
    {reader later : Reader}
    (isRead : lexemes.foldlM (Reader.push source) reader = .ok later) :
    reader.ground <:+ later.ground := by
  induction lexemes generalizing reader with
  | nil => exact Except.ok.inj isRead ▸ List.suffix_refl _
  | cons lexeme lexemes inductionHypothesis =>
    rw [List.foldlM_cons] at isRead
    obtain ⟨next, isNext, isRest⟩ := exists_of_bind_ok isRead
    exact (ground_push isNext).trans (inductionHypothesis isRest)

/-- A text that begins with a run gives tokens that begin with its faces. -/
theorem CodeRun.exists_prefix
    {text : String}
    {slash : Slash}
    {faces : List Face}
    {left : List Char}
    (run : CodeRun .module .divides text.toList faces .module slash left)
    {all : List Token}
    (isRead : Token.readAll text = .ok all) :
    ∃ tokens after, all = tokens ++ after ∧ tokens.map face = faces := by
  obtain ⟨chars, tokens, -, isFaces, isRun⟩ := run.read text.toList 0 List.drop_zero (.module [])
  obtain ⟨reader, isFolded, isFinished⟩ := exists_of_bind_ok isRead
  have isLater := isRun.symm.trans isFolded
  obtain ⟨later, isGround⟩ := Reader.ground_foldlM isLater
  rw [Reader.eq_of_finish isFinished, OpenCode.pushAll_module, List.append_nil] at isGround
  have isOwn : later ++ tokens.reverse = all.reverse := isGround
  refine ⟨tokens, later.reverse, ?_, isFaces⟩
  rw [← List.reverse_reverse all, ← isOwn, List.reverse_append, List.reverse_reverse]

end Restyle.Token
