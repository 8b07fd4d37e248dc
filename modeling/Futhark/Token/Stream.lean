import Futhark.Error
import Futhark.Token.Scanner

/-!
# Token streams

`TokenStream.scan` reads all tokens of a text, faulty ones included; `TokenStream.tokenize` gives
the same stream if none is faulty, and the first fault as an error otherwise.

A `Lexer` hands out the stream one token at a time and can look at the next token without taking it.
-/

namespace Futhark

/-- **All tokens of a text**: those before the end, and the end itself with the trivia in front of
it. -/
structure TokenStream where
  tokens : List Token
  finish : Token
deriving DecidableEq, Repr, Inhabited

namespace TokenStream

/-- **Tokens from a place on.** Each token before the end takes a character, so a list at least as
long as the text (the first argument) bounds their number. -/
def scanFrom : List Char → Scanner → TokenStream
  | bound, s =>
    let (token, after) := s.next
    if token.kind.isFinish then
      ⟨[], token⟩
    else
      match bound with
      | [] => ⟨[token], .finishAt after.offset⟩
      | _ :: bound =>
        let later := scanFrom bound after
        ⟨token :: later.tokens, later.finish⟩

/-- **Tokens of a text.** Scanning goes on after faulty text. -/
def scan (source : String) : TokenStream :=
  scanFrom source.toList (.start source)

/-- The tokens with the end of the input as the last one. -/
def toList (s : TokenStream) : List Token := s.tokens ++ [s.finish]

/-- The error for a token that is faulty. -/
def faultOf? (t : Token) : Option SyntaxError :=
  match t.kind with
  | .fault f => some ⟨.lexical f, t.span⟩
  | _ => none

/-- **Tokens of a well-formed text**, or the error for the first faulty token. -/
def tokenize (source : String) : Except SyntaxError TokenStream :=
  let stream := scan source
  match stream.tokens.findSome? faultOf? with
  | some e => .error e
  | none => .ok stream

end TokenStream

/-! ### One token at a time -/

/-- **A text being read token by token.** When `peeked` holds a token, the scanner already stands
after it. -/
structure Lexer where
  scanner : Scanner
  peeked : Option Token
deriving DecidableEq, Repr, Inhabited

namespace Lexer

/-- The start of a text. -/
def start (source : String) : Lexer := ⟨.start source, none⟩

/-- **Take the next token.** After the end of the input this is the end of the input again. -/
def next (l : Lexer) : Token × Lexer :=
  match l.peeked with
  | some token => (token, ⟨l.scanner, none⟩)
  | none =>
    let (token, after) := l.scanner.next
    (token, ⟨after, none⟩)

/-- **Look at the next token** without taking it. -/
def peek (l : Lexer) : Token × Lexer :=
  let (token, after) := l.next
  (token, ⟨after.scanner, some token⟩)

/-- **Take the next token before the end**, `none` at the end of the input. -/
def next? (l : Lexer) : Option Token × Lexer :=
  let (token, after) := l.next
  (if token.kind.isFinish then none else some token, after)

/-- **Byte offset** of the token that has been looked at, or of the text not yet scanned. -/
def offset (l : Lexer) : Nat :=
  match l.peeked with
  | some token => token.span.start
  | none => l.scanner.offset

/-- **Take tokens up to the end**, which is taken too. The first argument bounds their number. -/
def drainWithin : List Char → Lexer → List Token × Lexer
  | bound, l =>
    match l.next? with
    | (none, after) => ([], after)
    | (some token, after) =>
      match bound with
      | [] => ([token], after)
      | _ :: bound =>
        let (tokens, last) := drainWithin bound after
        (token :: tokens, last)

/-- **Take all tokens that are left.** There is at most one for each character not yet scanned,
and one that has been looked at. -/
def drain (l : Lexer) : List Token × Lexer := drainWithin (' ' :: l.scanner.rest) l

/-- The state in words: how far the text has been scanned, and what is left of it. -/
def describe (l : Lexer) : String :=
  "Lexer \x7b position: " ++ toString l.scanner.offset ++ ", remaining: \""
    ++ String.ofList l.scanner.rest ++ "\" \x7d"

end Lexer

end Futhark
