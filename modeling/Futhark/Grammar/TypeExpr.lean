import Futhark.Grammar.Attribute

/-!
# Grammar of types

From loose to tight: existential sizes and function arrows, which group to the right; then terms,
which are unique types, array types, sum types and applications of type constructors; then atoms.
-/

namespace Futhark.Grammar

open Futhark.Parser

variable {σ : Type}

/-! ### Dimensions and parameters -/

/-- Fails because of the next token, which belongs to no dimension. -/
def malformedDimension {α : Type} (o : Opening) : Parser σ α := do
  let token ← tokenAt 0
  if token.kind.isFinish then unclosed o
  else raise (.malformedDimension token.kind.describe) token.span

/-- The bracket that closes a dimension. -/
def closeDimension (o : Opening) : Parser σ Span := do
  match ← eat? .rightBracket with
  | some span => return o.span.merge span
  | none => malformedDimension o

/-- **A dimension in brackets**: `[]`, `[n]`, `[M.n]` or `[3]`. -/
def dimension : Parser σ Dimension := do
  let o : Opening := ⟨.leftBracket, ← expect .leftBracket⟩
  match ← kind with
  | .punct .rightBracket => return .unknown (← closeDimension o)
  | .identifier _ =>
    let name ← qualName
    return .named name (← closeDimension o)
  | .integer literal =>
    if literal.isPlain then
      let _ ← advance
      return .literal literal.digits (← closeDimension o)
    else
      malformedDimension o
  | _ => malformedDimension o

/-- A name in brackets, and the span of both. -/
def bracketedName (o : Opening) : Parser σ (Identifier × Span) := do
  let name ← identifier
  let stop ← close o []
  return (name, o.span.merge stop)

/-- The liftedness that an apostrophe of a type parameter stands for. -/
def liftednessOf? : TokenKind → Option Liftedness
  | .punct .apostrophe => some .unlifted
  | .punct .apostropheTilde => some .sizeLifted
  | .punct .apostropheHat => some .lifted
  | _ => none

/-- **A type or size parameter**, if one comes next. -/
def typeParam? : Parser σ (Option TypeParam) := do
  match liftednessOf? (← kind) with
  | some liftedness =>
    let start ← advanceSpan
    let name ← identifier
    return some (.type name liftedness (start.merge name.span))
  | none =>
    match ← opening? .leftBracket with
    | some o =>
      let (name, span) ← bracketedName o
      return some (.size name span)
    | none => return none

/-- Type and size parameters, as many as there are. -/
def typeParams : Parser σ (List TypeParam) := many typeParam?

/-! ### Atoms -/

/-- Whether a token starts a type atom. -/
def startsTypeAtom : TokenKind → Bool
  | .identifier _ => true
  | .punct p => p ∈ [.leftParen, .leftBrace, .leftBracket]
  | _ => false

/-- What starts with a parenthesis: the unit type, a tuple type or a type in parentheses. -/
def parenthesizedType (nest : Nest σ) : Parser σ TypeExpr := do
  let o ← opening .leftParen
  match ← eat? .rightParen with
  | some stop => return .unit (o.span.merge stop)
  | none =>
    let elements ← commaSeparated nest.type
    let stop ← close o [.punct .comma]
    let span := o.span.merge stop
    match elements with
    | [inner] => return .parens inner span
    | elements => return .tuple elements span

/-- A field of a record type. -/
def typeField (nest : Nest σ) : Parser σ TypeField := do
  let name ← fieldName
  let _ ← expect .colon
  let type ← nest.type
  return .mk name type (name.span.merge type.span)

/-- A record type. -/
def recordType (nest : Nest σ) : Parser σ TypeExpr := do
  let o ← opening .leftBrace
  let fields ← commaSeparatedUntil .rightBrace (typeField nest)
  let stop ← close o [.punct .comma]
  return .record fields (o.span.merge stop)

/-- An array type, whose elements are read by `element`. -/
def arrayType (element : Parser σ TypeExpr) : Parser σ TypeExpr := do
  let d ← dimension
  let e ← element
  return .array d e (d.span.merge e.span)

/-- **A type atom**: a name, a bracketed type, or an array of atoms. -/
def typeAtom (nest : Nest σ) : Parser σ TypeExpr := do
  match ← kind with
  | .identifier _ => return .named (← qualName)
  | .punct .leftParen => parenthesizedType nest
  | .punct .leftBrace => recordType nest
  | .punct .leftBracket => arrayType nest.typeAtom
  | _ => unexpected [.phrase "a type"]

/-! ### Terms -/

/-- **An alternative of a sum type**: a constructor and the atoms after it. -/
def sumConstructor (nest : Nest σ) : Parser σ SumConstructor := do
  match ← kind with
  | .constructor name =>
    let tag : Identifier := ⟨name, ← advanceSpan⟩
    let arguments ← many do
      if startsTypeAtom (← kind) then return some (← typeAtom nest) else return none
    let span := arguments.foldl (fun span argument => span.merge argument.span) tag.span
    return .mk tag arguments span
  | _ => unexpected [.phrase "a constructor"]

/-- **A sum type**, after the bar that may come before its first alternative. -/
def sumType (nest : Nest σ) (leadingBar : Option Span) : Parser σ TypeExpr := do
  let first ← sumConstructor nest
  let others ← many do
    match ← eat? .pipe with
    | none => return none
    | some bar =>
      if (← kind).isConstructor then return some (← sumConstructor nest)
      else raise .emptySumType bar
  let last := others.getLastD first
  return .sum (first :: others) ((leadingBar.getD first.span).merge last.span)

/-- An argument of a type constructor, if one comes next. -/
def typeArg? (nest : Nest σ) : Parser σ (Option TypeArg) := do
  match ← kind with
  | .punct .leftBracket => return some (.size (← dimension))
  | .identifier _ | .punct .leftParen | .punct .leftBrace =>
    return some (.type (← typeAtom nest))
  | _ => return none

/-- **Application of a type constructor.** Only a name takes arguments. -/
def typeApplication (nest : Nest σ) : Parser σ TypeExpr := do
  let head ← typeAtom nest
  if head.isNamed then
    repeatFrom
      (fun type => do
        return (← typeArg? nest).map fun argument =>
          .application type argument (type.span.merge argument.span))
      head
  else
    return head

/-- **A type without a function arrow of its own.** -/
def typeTerm (nest : Nest σ) : Parser σ TypeExpr := do
  match ← kind with
  | .operator "*" =>
    let star ← advanceSpan
    let inner ← nest.typeTerm
    return .unique inner (star.merge inner.span)
  | .punct .leftBracket => arrayType nest.typeTerm
  | .constructor _ => sumType nest none
  | .punct .pipe =>
    if (← kindAt 1).isConstructor then
      let bar ← advanceSpan
      sumType nest (some bar)
    else
      raise .emptySumType (← here)
  | _ => typeApplication nest

/-! ### Arrows and existential sizes -/

/-- Whether a parenthesis, a name and a colon follow, which name the parameter of a function. -/
def atNamedParameter : Parser σ Bool := do
  let s ← get
  return (s.tokenAt 0).kind = .punct .leftParen && (s.tokenAt 1).kind.isIdentifier
    && (s.tokenAt 2).kind = .punct .colon

/-- A named parameter in parentheses. Nothing but an arrow may follow it. -/
def namedParameter (nest : Nest σ) : Parser σ (Identifier × TypeExpr) := do
  let o ← opening .leftParen
  let name ← identifier
  let _ ← advance
  let param ← nest.type
  let _ ← close o []
  if ← at? .arrow then return (name, param) else unexpected [.punct .arrow]

/-- **Existential sizes** and the type they are used in: `?[n][m]. t`. -/
def existentialType (nest : Nest σ) : Parser σ TypeExpr := do
  let start ← advanceSpan
  let sizes ← many do
    match ← opening? .leftBracket with
    | none => return none
    | some o => return some (← bracketedName o).1
  if sizes.isEmpty then
    unexpected [.punct .leftBracket]
  else
    let _ ← expect .dot
    let body ← nest.type
    return .existential sizes body (start.merge body.span)

/-- The result of a function whose parameter starts at `start`. -/
def functionResult (nest : Nest σ) (start : Span) (name : Option Identifier) (param : TypeExpr) :
    Parser σ TypeExpr := do
  let _ ← advance
  let result ← nest.type
  return .function name param result (start.merge result.span)

/-- **Any type.** An arrow takes all that follows as its result, so there is never a second one to
look for. -/
def type (nest : Nest σ) : Parser σ TypeExpr := do
  if ← at? .question then
    existentialType nest
  else
    let start ← here
    if ← atNamedParameter then
      let (name, param) ← namedParameter nest
      functionResult nest start (some name) param
    else
      let term ← typeTerm nest
      if ← at? .arrow then functionResult nest start none term else return term

end Futhark.Grammar
