import Futhark.Grammar.TypeExpr

/-!
# Grammar of patterns

A pattern is a constructor with atoms, an attributed pattern or an atom, and may be given a type.
-/

namespace Futhark.Grammar

open Futhark.Parser

variable {σ : Type}

/-! ### What starts a pattern -/

/-- Whether a pattern atom starts with the token `k` before the token `next`. A minus sign starts
one only before a number. -/
def startsPatternAtom (k next : TokenKind) : Bool :=
  match k with
  | .identifier _ | .integer _ | .constructor _ => true
  | .operator symbol => symbol = "-" && next.isInteger
  | .punct p => p ∈ [.underscore, .leftParen, .leftBrace, .attributeOpen]
  | _ => false

/-- Whether a parameter starts with the token `k` before the token `next`: a pattern atom that is no
number. -/
def startsParam (k next : TokenKind) : Bool :=
  startsPatternAtom k next && !k.isInteger && !k.isOperator

/-! ### Atoms -/

/-- What starts with a parenthesis: the unit, a tuple or a pattern in parentheses. -/
def parenthesizedPattern (nest : Nest σ) : Parser σ Pattern := do
  let o ← opening .leftParen
  match ← eat? .rightParen with
  | some stop => return .unit (o.span.merge stop)
  | none =>
    let elements ← commaSeparated nest.pattern
    let stop ← close o [.punct .comma]
    let span := o.span.merge stop
    match elements with
    | [inner] => return .parens inner span
    | elements => return .tuple elements span

/-- **A field of a record pattern**: `a`, `a = p`, or `a: t`, which gives the bound name a type. -/
def recordPatternField (nest : Nest σ) : Parser σ RecordPatternField := do
  let name ← fieldName
  if (← eat? .equal).isSome then
    let pattern ← nest.pattern
    return .mk name (some pattern) (name.span.merge pattern.span)
  else if (← eat? .colon).isSome then
    let type ← nest.type
    let span := name.span.merge type.span
    return .mk name (some (.ascription (.identifier name) type span)) span
  else
    return .mk name none name.span

/-- A record pattern. -/
def recordPattern (nest : Nest σ) : Parser σ Pattern := do
  let o ← opening .leftBrace
  let fields ← commaSeparatedUntil .rightBrace (recordPatternField nest)
  let stop ← close o [.punct .comma, .punct .equal, .punct .colon]
  return .record fields (o.span.merge stop)

/-- A negative number, after its sign. -/
def negativeLiteral (sign : Span) : Parser σ Pattern := do
  match ← kind with
  | .integer value => return .literal true value (sign.merge (← advanceSpan))
  | _ => unexpected [.phrase "an integer literal"]

/-- An attribute and the pattern it decorates, which is read by `inner`. -/
def attributedPattern (nest : Nest σ) (inner : Parser σ Pattern) : Parser σ Pattern := do
  let a ← attr nest
  let pattern ← inner
  return .attributed a pattern (a.span.merge pattern.span)

/-- **A pattern atom.** A constructor is an atom without arguments. -/
def atomicPattern (nest : Nest σ) : Parser σ Pattern := do
  match ← kind with
  | .identifier _ => return .identifier (← identifier)
  | .punct .underscore => return .wildcard (← advanceSpan)
  | .integer value => return .literal false value (← advanceSpan)
  | .operator "-" => negativeLiteral (← advanceSpan)
  | .constructor name =>
    let span ← advanceSpan
    return .constructor ⟨name, span⟩ [] span
  | .punct .attributeOpen => attributedPattern nest nest.atomicPattern
  | .punct .leftParen => parenthesizedPattern nest
  | .punct .leftBrace => recordPattern nest
  | _ => unexpected [.phrase "a pattern"]

/-! ### Patterns and parameters -/

/-- An atom, if one comes next. -/
def atomicPattern? (nest : Nest σ) : Parser σ (Option Pattern) := do
  if startsPatternAtom (← kind) (← kindAt 1) then return some (← atomicPattern nest)
  else return none

/-- **A pattern without a type of its own.** A constructor takes all the atoms that follow it. -/
def constructorPattern (nest : Nest σ) : Parser σ Pattern := do
  match ← kind with
  | .constructor name =>
    let tag : Identifier := ⟨name, ← advanceSpan⟩
    let arguments ← many (atomicPattern? nest)
    let span := arguments.foldl (fun span argument => span.merge argument.span) tag.span
    return .constructor tag arguments span
  | .punct .attributeOpen => attributedPattern nest nest.constructorPattern
  | _ => atomicPattern nest

/-- **Any pattern.** -/
def pattern (nest : Nest σ) : Parser σ Pattern := do
  let inner ← constructorPattern nest
  match ← eat? .colon with
  | none => return inner
  | some _ =>
    let type ← nest.type
    return .ascription inner type (inner.span.merge type.span)

/-- **Parameters**, as many as there are. -/
def params (nest : Nest σ) : Parser σ (List Pattern) :=
  many do
    if startsParam (← kind) (← kindAt 1) then return some (← nest.atomicPattern) else return none

/-- The type of a result, if a colon announces it. -/
def returnType (nest : Nest σ) : Parser σ (Option TypeExpr) := do
  match ← eat? .colon with
  | some _ => return some (← nest.type)
  | none => return none

end Futhark.Grammar
