import Futhark.Operator
import Futhark.Token.Basic

/-!
# Lexemes

This module says which text forms a token. Its main function, `Lexeme.read`, looks at characters
that start with anything but white space or a comment and answers with the kind of the token there
and the number of characters it takes, which is never zero. Malformed text is a token as well, of
kind `TokenKind.fault`.

What depends on the tokens before (whether digits after a dot are a tuple position) is not decided
here, but where tokens are strung together.
-/

namespace Futhark

/-! ### Classes of characters -/

namespace Lexeme

/-- White space. -/
def isBlank (c : Char) : Bool := c ∈ [' ', '\t', '\r', '\n']

/-- A letter that can start a name. Only ASCII letters do. -/
def isLetter (c : Char) : Bool := c.isAlpha

/-- A character that can continue a name. -/
def isNameChar (c : Char) : Bool := c.isAlphanum || c == '_' || c == '\''

/-- A character that can start an operator. -/
def isOperatorChar (c : Char) : Bool :=
  c ∈ ['!', '%', '&', '*', '+', '-', '/', '<', '=', '>', '^', '|', '@', '$']

/-- A digit of the base, or the separator `_`. -/
def isDigitOrSeparator (radix : Radix) (c : Char) : Bool :=
  Numeral.isDigitOf radix.base c || c == '_'

end Lexeme

/-- **What was read**: the kind of the token, how many characters it takes beyond its first, and,
for a fault that concerns only a part of them, that part as a number of characters skipped and a
number of characters covered. -/
structure Lexeme where
  kind : TokenKind
  extra : Nat
  focus : Option (Nat × Nat) := none
deriving DecidableEq, Repr, Inhabited

namespace Lexeme

/-- Punctuation that takes `extra` characters beyond its first. -/
def ofPunct (p : Punct) (extra : Nat) : Lexeme := ⟨.punct p, extra, none⟩

/-- Faulty text. -/
def ofFault (f : LexFault) (extra : Nat) : Lexeme := ⟨.fault f, extra, none⟩

/-! ### Quoted text -/

/-- **One piece of quoted text**: the characters as written, and the character they stand for, if
they stand for one. -/
structure Item where
  text : List Char
  value : Option Char
deriving DecidableEq, Repr, Inhabited

/-- **Named escapes.** A letter without a meaning of its own, like any other character, stands for
itself. -/
def namedEscape (c : Char) : Char :=
  match c with
  | 'a' => '\x07'
  | 'b' => '\x08'
  | 'f' => '\x0c'
  | 'n' => '\n'
  | 'r' => '\r'
  | 't' => '\t'
  | 'v' => '\x0b'
  | c => c

/-- **Scalar value** of digits: at least one of them, for a number that is a character. -/
def scalar? (base : Nat) (digits : List Char) : Option Char := do
  let n ← Numeral.value? base digits
  if n.isValidChar then some (Char.ofNat n) else none

/-- A numeric escape: the backslash, `lead`, and as many digits of the base as follow. -/
def numericEscape (base : Nat) (lead cs : List Char) : Item :=
  let digits := cs.takeWhile (Numeral.isDigitOf base)
  ⟨'\\' :: lead ++ digits, scalar? base digits⟩

/-- **Escape** whose backslash stands before `cs`, unless the line ends there. -/
def escape? : List Char → Option Item
  | [] => none
  | c :: cs =>
    if c = '\n' then none
    else if c.isDigit then some (numericEscape 10 [] (c :: cs))
    else if c = 'x' then some (numericEscape 16 ['x'] cs)
    else if c = 'o' then some (numericEscape 8 ['o'] cs)
    else some ⟨['\\', c], some (namedEscape c)⟩

/-- **Next piece of a string**, if neither the string nor the line ends first. -/
def item? : List Char → Option Item
  | [] => none
  | c :: cs =>
    if c = '\n' ∨ c = '\x22' then none
    else if c = '\\' then escape? cs
    else some ⟨[c], some c⟩

/-- **Pieces of a string**, as many as there are. Every piece takes a character, so a list at least
as long as the text (the first argument) bounds their number. -/
def items : List Char → List Char → List Item
  | [], _ => []
  | _ :: bound, cs =>
    match item? cs with
    | none => []
    | some item => item :: items bound (cs.drop item.text.length)

/-- The characters that pieces were written with. -/
def itemsText (pieces : List Item) : List Char := pieces.flatMap Item.text

/-- **String** whose opening quote stands before `cs`.

An escape that stands for nothing does not end the string: the closing quote still does, and the
fault covers the first such escape only. A string without closing quote is a fault that takes the
rest of the line, but of a backslash at its very end only the backslash. -/
def string (cs : List Char) : Lexeme :=
  let pieces := items cs cs
  let raw := itemsText pieces
  let values := pieces.map Item.value
  match cs.drop raw.length with
  | '\x22' :: _ =>
    match pieces.span (·.value.isSome) with
    | (_, []) =>
      ⟨.string (String.ofList raw) (String.ofList (values.filterMap id)), raw.length + 1, none⟩
    | (valid, invalid :: _) =>
      ⟨.fault (.invalidEscape (String.ofList invalid.text)), raw.length + 1,
        some ((itemsText valid).length + 1, invalid.text.length)⟩
  | '\\' :: _ => ofFault (.unterminated .string) (raw.length + 1)
  | _ => ofFault (.unterminated .string) raw.length

/-- **Character literal or apostrophe**, after the apostrophe. Without a closing one right behind
the character, an apostrophe before a name, `^` or `~` introduces a type parameter. -/
def apostrophe (cs : List Char) : Lexeme :=
  match cs with
  | '\\' :: rest =>
    match escape? rest with
    | none => ofFault (.unterminated .character) 1
    | some item =>
      let n := item.text.length
      let closed := (cs.drop n).head? = some '\''
      match item.value with
      | some c =>
        if closed then ⟨.character c, n + 1, none⟩ else ofFault (.unterminated .character) n
      | none =>
        ⟨.fault (.invalidEscape (String.ofList item.text)), if closed then n + 1 else n,
          some (1, n)⟩
  | [] => ofFault (.unterminated .character) 0
  | c :: rest =>
    if rest.head? = some '\'' ∧ c ≠ '\n' ∧ c ≠ '\'' then ⟨.character c, 2, none⟩
    else if c = '^' then ofPunct .apostropheHat 1
    else if c = '~' then ofPunct .apostropheTilde 1
    else if isLetter c ∨ c = '_' then ofPunct .apostrophe 0
    else ofFault (.unterminated .character) (if c = '\n' then 0 else 1)

/-! ### Numbers -/

/-- **Base of a number**: a zero and a letter only mark a base when a digit of it follows. -/
def radixOf : List Char → Radix
  | '0' :: m :: d :: _ =>
    if m ∈ ['x', 'X'] ∧ Numeral.isDigitOf 16 d then .hexadecimal
    else if m ∈ ['b', 'B'] ∧ Numeral.isDigitOf 2 d then .binary
    else .decimal
  | _ => .decimal

/-- **Fraction**: a dot, a digit, and more digits and separators. Binary numbers have none. -/
def fraction (radix : Radix) : List Char → List Char
  | '.' :: d :: cs =>
    if radix ≠ .binary ∧ Numeral.isDigitOf radix.base d then
      '.' :: d :: cs.takeWhile (isDigitOrSeparator radix)
    else
      []
  | _ => []

/-- The letters that mark an exponent. Binary numbers have none. -/
def exponentMarkers : Radix → List Char
  | .decimal => ['e', 'E']
  | .hexadecimal => ['p', 'P']
  | .binary => []

/-- **Exponent**: its marker, an optional sign, a decimal digit, and more digits and separators. -/
def exponent (radix : Radix) : List Char → List Char
  | m :: cs =>
    if m ∈ exponentMarkers radix then
      let sign := (cs.take 1).filter fun c => c == '+' || c == '-'
      let digits := cs.drop sign.length
      if (digits.head?.map Char.isDigit).getD false then
        m :: sign ++ digits.takeWhile (isDigitOrSeparator .decimal)
      else
        []
    else
      []
  | [] => []

/-- The characters of a number without separators. -/
def stripped (cs : List Char) : String := String.ofList (cs.filter (· != '_'))

/-- A part that starts with a mark, without the mark, if the part is there at all. -/
def strippedTail? : List Char → Option String
  | [] => none
  | _ :: cs => some (stripped cs)

/-- **Number** at characters that start with a digit. Its parts are taken one after the other, each
as long as possible; all letters, digits and underscores behind them are the suffix. A suffix of
floating-point type makes any number floating-point that is not binary. -/
def number (cs : List Char) : Lexeme :=
  let radix := radixOf cs
  let marker := radix.marker.length
  let body := cs.drop marker
  let whole := body.takeWhile (isDigitOrSeparator radix)
  let afterWhole := body.drop whole.length
  let fraction := fraction radix afterWhole
  let afterFraction := afterWhole.drop fraction.length
  let exponent := exponent radix afterFraction
  let suffix := (afterFraction.drop exponent.length).takeWhile isNameChar
  let size := marker + whole.length + fraction.length + exponent.length + suffix.length
  let isFloat := fraction != [] || exponent != []
  let integer (suffix : Option IntSuffix) : TokenKind :=
    .integer ⟨stripped whole, radix, suffix⟩
  let float (suffix : Option FloatSuffix) : TokenKind :=
    .float ⟨radix, stripped whole, strippedTail? fraction, strippedTail? exponent, suffix⟩
  let invalid : TokenKind := .fault (.invalidNumber (String.ofList (cs.take size)))
  let suffixText := String.ofList suffix
  let kind :=
    if suffix = [] then
      if isFloat then float none else integer none
    else
      match FloatSuffix.ofText? suffixText, IntSuffix.ofText? suffixText with
      | some s, _ => if radix = .binary then invalid else float (some s)
      | none, some s => if isFloat then invalid else integer (some s)
      | none, none => invalid
  ⟨kind, size - 1, none⟩

/-! ### Names, operators and punctuation -/

/-- **Word**: a reserved word, an operator word or a name. -/
def word (c : Char) (cs : List Char) : Lexeme :=
  let tail := cs.takeWhile isNameChar
  let text := String.ofList (c :: tail)
  let kind :=
    match Keyword.ofText? text with
    | some k => .keyword k
    | none => if text ∈ Operator.words then .operator text else .identifier text
  ⟨kind, tail.length, none⟩

/-- **Rest of an operator**: operator characters and dots, up to where a comment starts. -/
def operatorTail : List Char → List Char
  | [] => []
  | c :: cs =>
    if c = '-' ∧ cs.head? = some '-' then []
    else if isOperatorChar c ∨ c = '.' then c :: operatorTail cs
    else []

/-- **Symbolic operator**, as long as possible. Three of the spellings are punctuation. -/
def symbol (c : Char) (cs : List Char) : Lexeme :=
  let tail := operatorTail cs
  let text := String.ofList (c :: tail)
  let kind :=
    if text = "=" then .punct .equal
    else if text = "|" then .punct .pipe
    else if text = "->" then .punct .arrow
    else .operator text
  ⟨kind, tail.length, none⟩

/-- What starts with a colon. -/
def colon : List Char → Lexeme
  | '>' :: _ => ofPunct .colonGreater 1
  | '=' :: _ => ⟨.operator ":=", 1, none⟩
  | _ => ofPunct .colon 0

/-- What starts with a dot. -/
def dots : List Char → Lexeme
  | '.' :: '.' :: _ => ofPunct .dotDotDot 2
  | '.' :: '<' :: _ => ofPunct .dotDotLess 2
  | '.' :: '>' :: _ => ofPunct .dotDotGreater 2
  | '.' :: _ => ofPunct .dotDot 1
  | _ => ofPunct .dot 0

/-- What starts with `#`: a constructor or the bracket of an attribute. -/
def hash : List Char → Lexeme
  | [] => ofFault (.unexpectedCharacter '#') 0
  | c :: cs =>
    if c = '[' then ofPunct .attributeOpen 1
    else if isLetter c ∨ c = '_' then
      let name := (c :: cs).takeWhile isNameChar
      ⟨.constructor (String.ofList name), name.length, none⟩
    else ofFault (.unexpectedCharacter '#') 0

/-- The punctuation that takes one character whatever follows it. -/
def single? (c : Char) : Option Punct :=
  match c with
  | '(' => some .leftParen
  | ')' => some .rightParen
  | '[' => some .leftBracket
  | ']' => some .rightBracket
  | '\x7b' => some .leftBrace
  | '\x7d' => some .rightBrace
  | ',' => some .comma
  | '\\' => some .backslash
  | '?' => some .question
  | '~' => some .tilde
  | _ => none

/-- **The token** at the characters `c :: cs`, which start neither white space nor a comment. An
underscore is a token of its own unless a letter follows it. -/
def read (c : Char) (cs : List Char) : Lexeme :=
  match single? c with
  | some p => ofPunct p 0
  | none =>
    if c = ':' then colon cs
    else if c = '.' then dots cs
    else if c = '\x22' then string cs
    else if c = '\'' then apostrophe cs
    else if c = '#' then hash cs
    else if c.isDigit then number (c :: cs)
    else if c = '_' ∧ ¬ (cs.head?.map isLetter).getD false then ofPunct .underscore 0
    else if c = '_' ∨ isLetter c then word c cs
    else if isOperatorChar c then symbol c cs
    else ofFault (.unexpectedCharacter c) 0

end Lexeme

end Futhark
