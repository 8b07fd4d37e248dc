import Futhark.Doc
import Futhark.Error
import Futhark.Token.Stream
import Futhark.Tree.Program

/-!
# Reading tokens

A `Parser` reads syntax from a list of tokens. It either succeeds with a tree or fails with one
error; in both cases it leaves a state behind, since warnings, and what imports have done, outlive a
failure.

The grammar is written in terms of the few operations of this module: looking at the next tokens
(`kind`, `kindAt`, `touches`), taking one (`advance`, `eat?`, `expect`), failing (`unexpected`,
`unclosed`), and going on for as long as something can be read (`repeatFrom`, `many`).
-/

namespace Futhark

/-! ### Imports -/

/-- **Why an import cannot be had.** -/
structure ImportError where
  message : String
deriving DecidableEq, Repr, Inhabited

/-- **What imports stand for.** Given the path and the place of an import, a resolver answers with a
program or an error. It may keep a state of type `σ` from one import to the next. -/
structure Resolver (σ : Type) where
  resolve : String → Span → σ → Except ImportError Program × σ

/-! ### State -/

/-- **How far reading has come**: the tokens taken, the latest first, the tokens ahead, and the end
of the input behind them. -/
structure Parser.State (σ : Type) where
  before : List Token
  after : List Token
  finish : Token
  warnings : List Diagnostic
  imports : σ

/-- **A way to read something** of type `α`. -/
abbrev Parser (σ α : Type) := EStateM SyntaxError (Parser.State σ) α

namespace Parser

variable {σ α : Type}

namespace State

/-- The start of a token stream. -/
def start (stream : TokenStream) (imports : σ) : State σ :=
  { before := [], after := stream.tokens, finish := stream.finish, warnings := [], imports }

/-- The token `n` places ahead; the end of the input is followed by nothing but itself. -/
def tokenAt (s : State σ) (n : Nat) : Token := s.after.getD n s.finish

/-- **Adjacency.** Whether the token `n` places ahead starts right where the one before it ends. -/
def touches (s : State σ) (n : Nat) : Bool :=
  let previous? :=
    match n with
    | 0 => s.before.head?
    | n + 1 => s.after[n]?
  match previous? with
  | none => false
  | some previous => previous.span.stop == (s.tokenAt n).span.start

/-- The state after the next token has been taken. The end of the input is never taken. -/
def advance (s : State σ) : State σ :=
  match s.after with
  | [] => s
  | t :: ts => { s with before := t :: s.before, after := ts }

end State

/-! ### Looking -/

/-- The token `n` places ahead. -/
def tokenAt (n : Nat) : Parser σ Token := do return (← get).tokenAt n

/-- The kind of the next token. -/
def kind : Parser σ TokenKind := do return (← tokenAt 0).kind

/-- The kind of the token `n` places ahead. -/
def kindAt (n : Nat) : Parser σ TokenKind := do return (← tokenAt n).kind

/-- The span of the next token. -/
def here : Parser σ Span := do return (← tokenAt 0).span

/-- Whether the token `n` places ahead touches the one before it. -/
def touches (n : Nat) : Parser σ Bool := do return (← get).touches n

/-- Whether a certain punctuation comes next. -/
def at? (p : Punct) : Parser σ Bool := do return (← kind) = .punct p

/-- Whether a certain reserved word comes next. -/
def atKeyword? (word : Keyword) : Parser σ Bool := do return (← kind) = .keyword word

/-! ### Taking -/

/-- Takes the next token. -/
def advance : Parser σ Token := modifyGet fun s => (s.tokenAt 0, s.advance)

/-- Takes the next token for its span. -/
def advanceSpan : Parser σ Span := do return (← advance).span

/-- Takes a certain punctuation if it comes next. -/
def eat? (p : Punct) : Parser σ (Option Span) := do
  if ← at? p then return some (← advanceSpan) else return none

/-- Takes a certain reserved word if it comes next. -/
def eatKeyword? (word : Keyword) : Parser σ (Option Span) := do
  if ← atKeyword? word then return some (← advanceSpan) else return none

/-! ### Failing -/

/-- Fails because of the text at `span`. -/
def raise (cause : SyntaxError.Cause) (span : Span) : Parser σ α := throw ⟨cause, span⟩

/-- Fails at the next token, which is none of those expected. -/
def unexpected (expected : List Expectation) : Parser σ α := do
  let token ← tokenAt 0
  raise (.unexpectedToken ⟨expected⟩ token.kind.describe) token.span

/-- Takes a certain punctuation, which has to come next. -/
def expect (p : Punct) : Parser σ Span := do
  match ← eat? p with
  | some span => return span
  | none => unexpected [.punct p]

/-- Takes a certain reserved word, which has to come next. -/
def expectKeyword (word : Keyword) : Parser σ Span := do
  match ← eatKeyword? word with
  | some span => return span
  | none => unexpected [.keyword word]

/-- The input has to end here. -/
def expectFinish : Parser σ Unit := do
  if (← kind).isFinish then return else unexpected [.phrase "end of input"]

/-! ### Brackets -/

/-- **An opening bracket** that has been taken. -/
structure Opening where
  punct : Punct
  span : Span
deriving DecidableEq, Repr, Inhabited

/-- Takes the opening bracket that is known to come next. -/
def opening (p : Punct) : Parser σ Opening := do return ⟨p, ← advanceSpan⟩

/-- Takes an opening bracket if it comes next. -/
def opening? (p : Punct) : Parser σ (Option Opening) := do
  return (← eat? p).map (Opening.mk p)

/-- Fails because the input ends inside brackets. -/
def unclosed (o : Opening) : Parser σ α :=
  raise (.unclosedDelimiter o.punct.delimiter o.span) o.span

/-- **Closing bracket.** Takes the bracket that closes a group. If the input ends first, the opening
bracket is to blame; otherwise the next token is, and `alternatives` are what else could have
followed. -/
def close (o : Opening) (alternatives : List Expectation) : Parser σ Span := do
  match ← eat? o.punct.closer with
  | some span => return span
  | none =>
    if (← kind).isFinish then unclosed o
    else unexpected (.punct o.punct.closer :: alternatives)

/-! ### Repetition -/

/-- **Bounded repetition** of a step, until it has nothing to add. The bound is the list of tokens
that were ahead at the start: a step that adds something takes a token, so there are not more steps
than tokens. -/
def repeatWithin (step : α → Parser σ (Option α)) : List Token → α → Parser σ α
  | bound, a => do
    match ← step a with
    | none => return a
    | some a' =>
      match bound with
      | [] => return a'
      | _ :: bound => repeatWithin step bound a'

/-- **Repetition** of a step for as long as it has something to add. -/
def repeatFrom (step : α → Parser σ (Option α)) (a : α) : Parser σ α := do
  repeatWithin step (← get).after a

/-- **As many items as there are.** -/
def many (item : Parser σ (Option α)) : Parser σ (List α) := do
  let reversed ← repeatFrom (fun items => do return (← item).map (· :: items)) []
  return reversed.reverse

/-- As many items as there are, each announced by a certain punctuation. -/
def manyAfter (p : Punct) (item : Parser σ α) : Parser σ (List α) :=
  many do
    match ← eat? p with
    | none => return none
    | some _ => return some (← item)

/-- **One item or more**, separated by commas. -/
def commaSeparated (item : Parser σ α) : Parser σ (List α) := do
  let first ← item
  let others ← manyAfter .comma item
  return first :: others

/-- Any number of items, separated by commas, before the closing bracket `p`. -/
def commaSeparatedUntil (p : Punct) (item : Parser σ α) : Parser σ (List α) := do
  if ← at? p then return [] else commaSeparated item

/-! ### Names -/

/-- A plain name. -/
def identifier : Parser σ Identifier := do
  match ← kind with
  | .identifier name => return ⟨name, ← advanceSpan⟩
  | _ => unexpected [.phrase "an identifier"]

/-- Whether a dot and a name follow that touch each other and what is before them. -/
def atQualifiedName : Parser σ Bool := do
  let s ← get
  return (s.tokenAt 0).kind = .punct .dot && s.touches 0 && s.touches 1
    && (s.tokenAt 1).kind.isIdentifier

/-- **A name, possibly in a module.** The dots have to touch the names on both sides. -/
def qualName : Parser σ QualName := do
  let first ← identifier
  let others ← many do
    if ← atQualifiedName then
      let _ ← advance
      return some (← identifier)
    else
      return none
  let names := first :: others
  let last := others.getLastD first
  return ⟨names.dropLast, last, first.span.merge last.span⟩

/-- **The name of a field**: a plain name or a tuple position. -/
def fieldName : Parser σ Identifier := do
  match (← kind).fieldName? with
  | some name => return ⟨name, ← advanceSpan⟩
  | none => unexpected [.phrase "a field name"]

/-! ### Documentation and imports -/

/-- **Documentation before the next token.** Warns, at that token, about a comment that an empty
line has detached. -/
def docComment : Parser σ (Option String) := do
  let token ← tokenAt 0
  let doc := DocComment.ofTrivia token.trivia
  if doc.detached then
    modify fun s =>
      { s with warnings := s.warnings ++ [⟨.warning, DocComment.detachedMessage, token.span⟩] }
  return doc.text?

/-- Documentation found earlier, or else that before the next token. -/
def docCommentOr (earlier : Option String) : Parser σ (Option String) :=
  match earlier with
  | some doc => return some doc
  | none => docComment

/-- **The program an import stands for**, if there is a resolver to ask. -/
def importProgram (resolver : Option (Resolver σ)) (path : String) (span : Span) :
    Parser σ (Option Program) := do
  match resolver with
  | none => return none
  | some resolver =>
    let answer ← modifyGet fun s =>
      let (answer, imports) := resolver.resolve path span s.imports
      (answer, { s with imports })
    match answer with
    | .ok program => return some program
    | .error e => raise (.importFailed path e.message) span

end Parser

end Futhark
