import Futhark.Token.Lexeme

/-!
# Scanning

A `Scanner` stands between two tokens of a text and hands out the next one (`Scanner.next`): the
trivia first, then one lexeme. It never fails, and it takes at least one character until only the
end of the input is left.

One thing a lexeme cannot know by itself is decided here. In `t.0.1` the digits are positions in a
tuple and not the number `0.1`. They are read as positions exactly when a dot touches something that
can be projected from, and a digit touches the dot; `Context` carries this from token to token.
-/

namespace Futhark

/-- **What the last token allows.** -/
inductive Context where
  /-- Nothing special. -/
  | plain
  /-- A name, a closing bracket or a tuple position: a dot right after it may project. -/
  | operand
  /-- A dot that projects: the digits after it are a tuple position. -/
  | projection
deriving DecidableEq, Repr, Inhabited

/-- **A place in a text between two tokens**: the characters left, the byte offset of the first of
them, and what the last token allows. The offset is not cut to 32 bits, as it would be in texts of more
than 4 GiB, which are not supported. -/
structure Scanner where
  rest : List Char
  offset : Nat
  context : Context
deriving DecidableEq, Repr, Inhabited

namespace Scanner

/-- The start of a text. -/
def start (source : String) : Scanner := ⟨source.toList, 0, .plain⟩

/-! ### Trivia -/

/-- **Next piece of trivia** and its characters: all the white space there is, or a comment up to
the end of its line. A comment documents if a space and a bar follow its dashes. -/
def triviaPiece? : List Char → Option (Trivia × List Char)
  | [] => none
  | c :: cs =>
    if Lexeme.isBlank c then
      let text := c :: cs.takeWhile Lexeme.isBlank
      some (.whitespace (String.ofList text), text)
    else if c = '-' ∧ cs.head? = some '-' then
      let text := (c :: cs).takeWhile (· != '\n')
      if (cs.drop 1).take 2 = [' ', '|'] then
        some (.docComment (String.ofList text), text)
      else
        some (.lineComment (String.ofList text), text)
    else
      none

/-- **All trivia** before the next token, with its characters. Every piece takes a character, so a
list at least as long as the text (the first argument) bounds their number. -/
def triviaPieces : List Char → List Char → List (Trivia × List Char)
  | [], _ => []
  | _ :: bound, cs =>
    match triviaPiece? cs with
    | none => []
    | some (piece, text) => (piece, text) :: triviaPieces bound (cs.drop text.length)

/-! ### Tokens -/

/-- A tuple position: all the digits there are, as a plain decimal number. -/
def position (c : Char) (cs : List Char) : Lexeme :=
  let tail := cs.takeWhile Char.isDigit
  ⟨.integer (.plain (String.ofList (c :: tail))), tail.length, none⟩

/-- **Context after a token** of the given kind. `touches` says that the token stood right after the
one before it, and `rest` are the characters after it. -/
def contextAfter (context : Context) (touches : Bool) (kind : TokenKind) (rest : List Char) :
    Context :=
  match kind with
  | .identifier _ => .operand
  | .integer _ => if context = .projection then .operand else .plain
  | .punct .dot =>
    if context = .operand ∧ touches ∧ (rest.head?.map Char.isDigit).getD false then .projection
    else .plain
  | .punct p => if p.isClosing then .operand else .plain
  | _ => .plain

/-- **Span of a lexeme** that starts at byte `start` and has the characters `text`: the whole of
them, or the part the lexeme puts in focus. -/
def spanOf (lexeme : Lexeme) (start : Nat) (text : List Char) : Span :=
  match lexeme.focus with
  | none => ⟨start, start + Text.byteLength text⟩
  | some (skipped, covered) =>
    let focusStart := start + Text.byteLength (text.take skipped)
    ⟨focusStart, focusStart + Text.byteLength ((text.drop skipped).take covered)⟩

/-- **Next token**, and the place after it. At the end of the text this is the end of the input, as
often as it is asked for. -/
def next (s : Scanner) : Token × Scanner :=
  let pieces := triviaPieces s.rest s.rest
  let trivia := pieces.map Prod.fst
  let skipped := pieces.flatMap Prod.snd
  let start := s.offset + Text.byteLength skipped
  match s.rest.drop skipped.length with
  | [] => (⟨.finish, .point start, trivia⟩, ⟨[], start, .plain⟩)
  | c :: cs =>
    let lexeme :=
      if s.context = .projection ∧ c.isDigit then position c cs else Lexeme.read c cs
    let text := c :: cs.take lexeme.extra
    let rest := cs.drop lexeme.extra
    (⟨lexeme.kind, spanOf lexeme start text, trivia⟩,
      ⟨rest, start + Text.byteLength text,
        contextAfter s.context trivia.isEmpty lexeme.kind rest⟩)

end Scanner

end Futhark
