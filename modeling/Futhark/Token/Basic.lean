import Futhark.Numeral
import Futhark.Span

/-!
# Tokens

A token is a kind, the span of its own text, and the trivia in front of it: the white space and
comments that only matter because a documentation comment belongs to what follows it.

Qualified names are not tokens. `M.x` is a name, a dot and a name, and whether the dot qualifies is
decided from the spans, by asking whether the three touch.
-/

namespace Futhark

/-! ### Reserved words -/

/-- Reserved words. -/
inductive Keyword where
  | kwDef | kwEntry | kwLet | kwType | kwModule | kwVal | kwInclude | kwOpen | kwImport | kwLocal
  | kwIf | kwThen | kwElse | kwMatch | kwCase | kwLoop | kwFor | kwWhile | kwDo | kwIn | kwWith
  | kwUnsafe | kwAssert | kwTrue | kwFalse
deriving DecidableEq, Repr, Inhabited

namespace Keyword

/-- The spelling of a reserved word. -/
def text : Keyword → String
  | kwDef => "def"
  | kwEntry => "entry"
  | kwLet => "let"
  | kwType => "type"
  | kwModule => "module"
  | kwVal => "val"
  | kwInclude => "include"
  | kwOpen => "open"
  | kwImport => "import"
  | kwLocal => "local"
  | kwIf => "if"
  | kwThen => "then"
  | kwElse => "else"
  | kwMatch => "match"
  | kwCase => "case"
  | kwLoop => "loop"
  | kwFor => "for"
  | kwWhile => "while"
  | kwDo => "do"
  | kwIn => "in"
  | kwWith => "with"
  | kwUnsafe => "unsafe"
  | kwAssert => "assert"
  | kwTrue => "true"
  | kwFalse => "false"

/-- Every reserved word. -/
def all : List Keyword :=
  [kwDef, kwEntry, kwLet, kwType, kwModule, kwVal, kwInclude, kwOpen, kwImport, kwLocal,
    kwIf, kwThen, kwElse, kwMatch, kwCase, kwLoop, kwFor, kwWhile, kwDo, kwIn, kwWith,
    kwUnsafe, kwAssert, kwTrue, kwFalse]

/-- The reserved word with a given spelling. -/
def ofText? (word : String) : Option Keyword := all.find? (·.text == word)

end Keyword

/-! ### Punctuation -/

/-- **Punctuation**, each with one fixed spelling. The three apostrophes introduce type parameters,
and `attributeOpen` is the bracket that opens an attribute. -/
inductive Punct where
  | leftParen | rightParen
  | leftBracket | rightBracket
  | leftBrace | rightBrace
  | comma | colon | colonGreater
  | equal | pipe | arrow
  | backslash | question | tilde | underscore
  | dot | dotDot | dotDotDot | dotDotLess | dotDotGreater
  | apostrophe | apostropheHat | apostropheTilde
  | attributeOpen
deriving DecidableEq, Repr, Inhabited

namespace Punct

/-- The spelling of a punctuation token. -/
def text : Punct → String
  | leftParen => "("
  | rightParen => ")"
  | leftBracket => "["
  | rightBracket => "]"
  | leftBrace => "\x7b"
  | rightBrace => "\x7d"
  | comma => ","
  | colon => ":"
  | colonGreater => ":>"
  | equal => "="
  | pipe => "|"
  | arrow => "->"
  | backslash => "\\"
  | question => "?"
  | tilde => "~"
  | underscore => "_"
  | dot => "."
  | dotDot => ".."
  | dotDotDot => "..."
  | dotDotLess => "..<"
  | dotDotGreater => "..>"
  | apostrophe => "'"
  | apostropheHat => "'^"
  | apostropheTilde => "'~"
  | attributeOpen => "#["

/-- Whether the token closes a bracketed group. -/
def isClosing : Punct → Bool
  | rightParen | rightBracket | rightBrace => true
  | _ => false

/-- **Matching bracket**: what closes a group opened by this token. Only opening brackets are ever
asked; anything else answers with a parenthesis. -/
def closer : Punct → Punct
  | leftBracket | attributeOpen => rightBracket
  | leftBrace => rightBrace
  | _ => rightParen

/-- **Delimiter named in messages**: the last character of the spelling, so that an attribute's
bracket is called `[`. -/
def delimiter (p : Punct) : Char := p.text.toList.getLastD '('

end Punct

/-! ### Lexical faults -/

/-- The two kinds of quoted literals. -/
inductive QuoteKind where
  | string
  | character
deriving DecidableEq, Repr, Inhabited

/-- How messages name a quoted literal. -/
def QuoteKind.text : QuoteKind → String
  | string => "string"
  | character => "character"

/-- **What is wrong with a piece of text** that is no token. -/
inductive LexFault where
  /-- The line or the input ended before the closing quote. -/
  | unterminated (kind : QuoteKind)
  /-- A numeric escape without digits, or for no Unicode scalar value. -/
  | invalidEscape (text : String)
  /-- A number with letters after it that are no suffix it can have. -/
  | invalidNumber (text : String)
  /-- A character that starts no token. -/
  | unexpectedCharacter (char : Char)
deriving DecidableEq, Repr, Inhabited

/-- The message for a lexical fault. -/
def LexFault.message : LexFault → String
  | unterminated kind => "unterminated " ++ kind.text ++ " literal"
  | invalidEscape text => "invalid escape sequence `" ++ text ++ "`"
  | invalidNumber text => "invalid numeric literal `" ++ text ++ "`"
  | unexpectedCharacter char => "unexpected character `" ++ char.toString ++ "`"

/-! ### Kinds -/

/-- **Kind of a token**, with all of its content that matters. -/
inductive TokenKind where
  /-- A plain name. -/
  | identifier (name : String)
  /-- A constructor of a sum type, without its `#`. -/
  | constructor (name : String)
  /-- An infix or prefix operator, in symbols or as a word. -/
  | operator (symbol : String)
  | integer (literal : IntLiteral)
  | float (literal : FloatLiteral)
  /-- A string: the text between the quotes as written, and what it stands for. -/
  | string (raw value : String)
  | character (char : Char)
  | keyword (word : Keyword)
  | punct (punct : Punct)
  /-- The end of the input. -/
  | finish
  | fault (fault : LexFault)
deriving DecidableEq, Repr, Inhabited

namespace TokenKind

/-- Whether the token is a literal value. -/
def isLiteral : TokenKind → Bool
  | integer _ | float _ | string _ _ | character _ => true
  | keyword .kwTrue | keyword .kwFalse => true
  | _ => false

/-- Whether the token is a plain name. -/
def isIdentifier : TokenKind → Bool
  | identifier _ => true
  | _ => false

/-- Whether the token is a constructor. -/
def isConstructor : TokenKind → Bool
  | constructor _ => true
  | _ => false

/-- Whether the token is an operator. -/
def isOperator : TokenKind → Bool
  | operator _ => true
  | _ => false

/-- Whether the token is an integer literal. -/
def isInteger : TokenKind → Bool
  | integer _ => true
  | _ => false

/-- Whether the token is the end of the input. -/
def isFinish : TokenKind → Bool
  | finish => true
  | _ => false

/-- Whether the token stands for faulty text. -/
def isFault : TokenKind → Bool
  | fault _ => true
  | _ => false

/-- **Field names.** A record field is named by a plain name or by a tuple position, which is a
decimal number without suffix. -/
def fieldName? : TokenKind → Option String
  | identifier name => some name
  | integer literal => if literal.isPlain then some literal.digits else none
  | _ => none

/-- **Character in a message.** Printable ASCII stands for itself, the two quotes and the backslash
behind a backslash; tab, return and newline have their letters, and everything else is given by
number. -/
def charText (c : Char) : String :=
  if c = '\t' then "\\t"
  else if c = '\r' then "\\r"
  else if c = '\n' then "\\n"
  else if c ∈ ['\'', '\x22', '\\'] then "\\" ++ c.toString
  else if ' ' ≤ c ∧ c ≤ '~' then c.toString
  else "\\u\x7b" ++ String.ofList (Nat.toDigits 16 c.toNat) ++ "\x7d"

/-- **How messages name a token.** Numbers appear in normalised spelling, strings as written. -/
def describe : TokenKind → String
  | identifier name => "`" ++ name ++ "`"
  | constructor name => "`#" ++ name ++ "`"
  | operator symbol => "`" ++ symbol ++ "`"
  | integer literal => "`" ++ literal.text ++ "`"
  | float literal => "`" ++ literal.text ++ "`"
  | string raw _ => "`\"" ++ raw ++ "\"`"
  | character char => "`'" ++ charText char ++ "'`"
  | keyword word => "`" ++ word.text ++ "`"
  | punct p => "`" ++ p.text ++ "`"
  | finish => "end of input"
  | fault f => "<error: " ++ f.message ++ ">"

end TokenKind

/-! ### Trivia and tokens -/

/-- **Text in front of a token** that is no token itself. -/
inductive Trivia where
  /-- A run of blanks and line breaks. -/
  | whitespace (text : String)
  /-- A comment that starts with `--`. -/
  | lineComment (text : String)
  /-- A documentation comment, which starts with `-- |`. -/
  | docComment (text : String)
deriving DecidableEq, Repr, Inhabited

namespace Trivia

/-- The text of a piece of trivia. -/
def text : Trivia → String
  | whitespace text | lineComment text | docComment text => text

/-- Whether the piece is white space with an empty line in it. -/
def hasBlankLine : Trivia → Bool
  | whitespace text => text.toList.count '\n' > 1
  | _ => false

/-- Whether the piece is a comment of either kind. -/
def isComment : Trivia → Bool
  | whitespace _ => false
  | lineComment _ | docComment _ => true

end Trivia

/-- **A token** with the place of its own text and the trivia before it. -/
structure Token where
  kind : TokenKind
  span : Span
  trivia : List Trivia
deriving DecidableEq, Repr, Inhabited

namespace Token

/-- The end of the input at an offset, with nothing in front of it. -/
def finishAt (offset : Nat) : Token := ⟨.finish, .point offset, []⟩

/-- Whether a comment stands before the token. -/
def hasComment (t : Token) : Bool := t.trivia.any Trivia.isComment

end Token

end Futhark
