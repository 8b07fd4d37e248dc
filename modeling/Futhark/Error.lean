import Futhark.Token.Basic

/-!
# Syntax errors and diagnostics

Reading a text fails with at most one `SyntaxError`: a cause and the span of the smallest text that
is responsible. The wording of every cause is in one place, `SyntaxError.Cause.message`.
-/

namespace Futhark

/-! ### Expected tokens -/

/-- **Something that would have been accepted**: a certain token, or a kind of thing in words. -/
inductive Expectation where
  | punct (punct : Punct)
  | keyword (word : Keyword)
  | phrase (words : String)
deriving DecidableEq, Repr, Inhabited

/-- How messages name an expectation. Tokens appear in backquotes. -/
def Expectation.describe : Expectation → String
  | punct p => "`" ++ p.text ++ "`"
  | keyword word => "`" ++ word.text ++ "`"
  | phrase words => words

/-- **Everything that would have been accepted**, in the order in which messages list it. -/
structure ExpectedSet where
  items : List Expectation
deriving DecidableEq, Repr, Inhabited

namespace ExpectedSet

/-- The descriptions of what is expected. -/
def descriptions (e : ExpectedSet) : List String := e.items.map Expectation.describe

/-- Whether `description` is one of the alternatives. -/
def contains (e : ExpectedSet) (description : String) : Bool := e.descriptions.contains description

/-- **Alternatives in words**: two are joined by `or`, more by commas with `or` before the last. -/
def describe (e : ExpectedSet) : String :=
  match e.descriptions with
  | [] => "something else"
  | [only] => only
  | [first, second] => first ++ " or " ++ second
  | several =>
    String.join (several.dropLast.map (· ++ ", ")) ++ "or " ++ several.getLastD ""

end ExpectedSet

/-! ### Errors -/

/-- **Why a text is not well formed.** -/
inductive SyntaxError.Cause where
  /-- A part of the text is no token. -/
  | lexical (fault : LexFault)
  /-- A token that cannot stand where it does. -/
  | unexpectedToken (expected : ExpectedSet) (found : String)
  /-- The input ended inside a bracketed group that was opened at `opening`. -/
  | unclosedDelimiter (delimiter : Char) (opening : Span)
  /-- A bar of a sum type without a constructor after it. -/
  | emptySumType
  /-- The brackets of an array type hold something that is no dimension. -/
  | malformedDimension (found : String)
  /-- Nothing that could be an operand follows an operator. -/
  | missingOperand (operator : String)
  /-- The text nests more deeply than the limit allows. -/
  | nestingTooDeep (limit : Nat)
  /-- The program named by an import cannot be had. -/
  | importFailed (path reason : String)
deriving DecidableEq, Repr, Inhabited

/-- The message for a cause. -/
def SyntaxError.Cause.message : SyntaxError.Cause → String
  | lexical fault => fault.message
  | unexpectedToken expected found => "expected " ++ expected.describe ++ ", found " ++ found
  | unclosedDelimiter delimiter _ => "unclosed `" ++ delimiter.toString ++ "`"
  | emptySumType => "sum type has no constructors"
  | malformedDimension found =>
    "malformed array dimension: expected a name, a decimal literal or `]`, found " ++ found
  | missingOperand operator => "missing operand after `" ++ operator ++ "`"
  | nestingTooDeep limit => "expression nested too deeply (limit " ++ toString limit ++ ")"
  | importFailed path reason => "failed to import \"" ++ path ++ "\": " ++ reason

/-- **The error of a failed reading**: its cause, and the text it is about. -/
structure SyntaxError where
  cause : SyntaxError.Cause
  span : Span
deriving DecidableEq, Repr, Inhabited

namespace SyntaxError

/-- The message of an error. -/
def message (e : SyntaxError) : String := e.cause.message

/-- The code under which reports file syntax errors. -/
def code : String := "futhark::syntax"

/-- What reports write beside the text an error is about. -/
def label : String := "here"

end SyntaxError

/-! ### Diagnostics -/

/-- How serious a diagnostic is. -/
inductive Severity where
  /-- The reading failed. -/
  | error
  /-- The text is accepted, but looks like a mistake. -/
  | warning
deriving DecidableEq, Repr, Inhabited

/-- **A message about a part of a text.** -/
structure Diagnostic where
  severity : Severity
  message : String
  span : Span
deriving DecidableEq, Repr, Inhabited

/-- The diagnostic that reports an error. -/
def SyntaxError.diagnostic (e : SyntaxError) : Diagnostic := ⟨.error, e.message, e.span⟩

end Futhark
