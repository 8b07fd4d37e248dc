import Futhark.Grammar.Pattern

/-!
# Grammar of expressions

From loose to tight:

* types given to expressions, `e : t` and `e :> t`;
* ranges;
* updates, `e with [i] = v` and `e with a.b = v`;
* infix operators, by precedence climbing;
* negation, and the forms that start with a keyword, which reach as far to the right as they can;
* application, of functions and of constructors, and `!`;
* indexing and projection, which have to touch what they are applied to;
* atoms.
-/

namespace Futhark.Grammar

open Futhark.Parser

variable {σ : Type}

/-! ### What starts an expression -/

/-- Whether a token starts an atom. -/
def startsAtom : TokenKind → Bool
  | .identifier _ | .constructor _ | .integer _ | .float _ | .string _ _ | .character _ => true
  | .keyword word => word ∈ [.kwTrue, .kwFalse]
  | .punct p => p ∈ [.leftParen, .leftBracket, .leftBrace]
  | _ => false

/-- Whether a token starts an expression. -/
def startsExpr (k : TokenKind) : Bool :=
  startsAtom k ||
    match k with
    | .operator symbol => symbol ∈ ["-", "!"]
    | .keyword word => word ∈ [.kwIf, .kwLet, .kwLoop, .kwMatch, .kwAssert, .kwUnsafe]
    | .punct p => p ∈ [.backslash, .attributeOpen]
    | _ => false

/-- **Operand of an operator.** Without anything that starts an expression, the operator is to
blame. -/
def operandAfter (operator : String) (span : Span) (operand : Parser σ Expr) : Parser σ Expr := do
  if startsExpr (← kind) then operand else raise (.missingOperand operator) span

/-! ### Indices -/

/-- A part of a slice, if it is not left out. -/
def slicePart (nest : Nest σ) : Parser σ (Option Expr) := do
  if startsExpr (← kind) then return some (← nest.range) else return none

/-- The span of an optional part of a slice, added to what comes before it. -/
def mergeOptional (span : Span) (part : Option Expr) : Span :=
  (part.map fun e => span.merge e.span).getD span

/-- **A slice**, from its first colon on. -/
def sliceFrom (nest : Nest σ) (first : Option Expr) : Parser σ DimIndex := do
  let colon ← advanceSpan
  let span := (first.map fun e => e.span.merge colon).getD colon
  let last ← slicePart nest
  let span := mergeOptional span last
  match ← eat? .colon with
  | none => return .slice first last none span
  | some colon =>
    let span := span.merge colon
    let stride ← slicePart nest
    return .slice first last stride (mergeOptional span stride)

/-- **One index**: an element, or a slice with any of its parts left out. -/
def dimIndex (nest : Nest σ) : Parser σ DimIndex := do
  if ← at? .colon then
    sliceFrom nest none
  else
    let first ← nest.range
    if ← at? .colon then sliceFrom nest (some first) else return .fix first

/-- **Indices** up to the closing bracket, with the span of that bracket. -/
def indices (nest : Nest σ) (o : Opening) : Parser σ (List DimIndex × Span) := do
  let list ← commaSeparated (dimIndex nest)
  let stop ← close o [.punct .comma, .punct .colon]
  return (list, stop)

/-! ### Atoms -/

/-- **A name, or an expression in the scope of a module**, `M.(e)`, whose dot and parenthesis touch
the name. -/
def nameOrQualified (nest : Nest σ) : Parser σ Expr := do
  let name ← qualName
  let s ← get
  if (s.tokenAt 0).kind = .punct .dot && s.touches 0
      && (s.tokenAt 1).kind = .punct .leftParen && s.touches 1 then
    let _ ← advance
    let o ← opening .leftParen
    let inner ← nest.expression
    let stop ← close o []
    return .qualifiedParens name inner (name.span.merge stop)
  else
    return .name name

/-- Field names, each after a dot, as many as there are. -/
def dottedFields : Parser σ (List Identifier) := manyAfter .dot fieldName

/-- A projection section, `(.a.b)`, after its parenthesis. -/
def projectSection (o : Opening) : Parser σ Expr := do
  let fields ← dottedFields
  let stop ← close o [.punct .dot]
  return .projectSection fields (o.span.merge stop)

/-- An operator alone in parentheses, after the first of them. -/
def operatorSection (o : Opening) (symbol : String) : Parser σ Expr := do
  let operator : OperatorName := ⟨symbol, ← advanceSpan⟩
  let stop ← advanceSpan
  return .operatorSection operator (o.span.merge stop)

/-- An operator with its right operand, `(+ e)`, after the parenthesis. -/
def rightSection (nest : Nest σ) (o : Opening) (symbol : String) : Parser σ Expr := do
  let operator : OperatorName := ⟨symbol, ← advanceSpan⟩
  let operand ← operandAfter symbol operator.span (nest.binary 0)
  let stop ← close o []
  return .rightSection operator operand (o.span.merge stop)

/-- The infix operator right before a closing parenthesis, if there is one next. -/
def trailingOperator? : Parser σ (Option String) := do
  match ← kind with
  | .operator symbol =>
    if (Operator.classify symbol).isSome && (← kindAt 1) = .punct .rightParen then
      return some symbol
    else
      return none
  | _ => return none

/-- **What starts with an expression in parentheses**: a left section `(e +)`, a tuple, or just the
expression. -/
def parenthesizedFrom (nest : Nest σ) (o : Opening) : Parser σ Expr := do
  let first ← nest.expression
  match ← trailingOperator? with
  | some symbol =>
    let operator : OperatorName := ⟨symbol, ← advanceSpan⟩
    let stop ← advanceSpan
    return .leftSection first operator (o.span.merge stop)
  | none =>
    let others ← manyAfter .comma nest.expression
    let stop ← close o [.punct .comma]
    let span := o.span.merge stop
    match others with
    | [] => return .parens first span
    | others => return .tuple (first :: others) span

/-- **What starts with a parenthesis.** An operator there makes a section, except that a minus sign
or `!` before an operand is a prefix of that operand. -/
def parenthesized (nest : Nest σ) : Parser σ Expr := do
  let o ← opening .leftParen
  match ← kind with
  | .punct .rightParen => return .unit (o.span.merge (← advanceSpan))
  | .punct .dot => projectSection o
  | .operator symbol =>
    if (← kindAt 1) = .punct .rightParen then operatorSection o symbol
    else if symbol ≠ "-" ∧ (Operator.classify symbol).isSome then rightSection nest o symbol
    else parenthesizedFrom nest o
  | _ => parenthesizedFrom nest o

/-- An array. -/
def array (nest : Nest σ) : Parser σ Expr := do
  let o ← opening .leftBracket
  let elements ← commaSeparatedUntil .rightBracket nest.expression
  let stop ← close o [.punct .comma]
  return .array elements (o.span.merge stop)

/-- A field of a record. -/
def recordField (nest : Nest σ) : Parser σ RecordField := do
  let name ← fieldName
  match ← eat? .equal with
  | none => return .shorthand name
  | some _ =>
    let value ← nest.expression
    return .explicit name value (name.span.merge value.span)

/-- A record. -/
def record (nest : Nest σ) : Parser σ Expr := do
  let o ← opening .leftBrace
  let fields ← commaSeparatedUntil .rightBrace (recordField nest)
  let stop ← close o [.punct .comma, .punct .equal]
  return .record fields (o.span.merge stop)

/-- The literal that a token is. -/
def literalOf? : TokenKind → Option Literal
  | .integer value => some (.integer value)
  | .float value => some (.float value)
  | .string _ value => some (.string value)
  | .character value => some (.character value)
  | .keyword .kwTrue => some (.bool true)
  | .keyword .kwFalse => some (.bool false)
  | _ => none

/-- **An atom.** A constructor is an atom without arguments. -/
def atom (nest : Nest σ) : Parser σ Expr := do
  let k ← kind
  match literalOf? k with
  | some value => return .literal value (← advanceSpan)
  | none =>
    match k with
    | .identifier _ => nameOrQualified nest
    | .constructor name =>
      let span ← advanceSpan
      return .constructor ⟨name, span⟩ [] span
    | .punct .leftParen => parenthesized nest
    | .punct .leftBracket => array nest
    | .punct .leftBrace => record nest
    | _ => unexpected [.phrase "an expression"]

/-! ### Indexing, projection and application -/

/-- Whether a dot and a field name follow that touch each other and what is before them. -/
def atProjection : Parser σ Bool := do
  let s ← get
  return (s.tokenAt 0).kind = .punct .dot && s.touches 0 && s.touches 1
    && (s.tokenAt 1).kind.fieldName?.isSome

/-- A projected field, if one comes next. -/
def projectedField? : Parser σ (Option Identifier) := do
  if ← atProjection then
    let _ ← advance
    return some (← fieldName)
  else
    return none

/-- **One more index or projection** of `base`, if one touches it. -/
def postfixStep (nest : Nest σ) (base : Expr) : Parser σ (Option Expr) := do
  if (← at? .leftBracket) && (← touches 0) then
    let o ← opening .leftBracket
    let (list, stop) ← indices nest o
    return some (.index base list (base.span.merge stop))
  else if ← atProjection then
    let fields ← many projectedField?
    let stop := (fields.getLast?.map Identifier.span).getD base.span
    return some (.project base fields (base.span.merge stop))
  else
    return none

/-- **An atom with its indices and projections.** -/
def postfixAtom (nest : Nest σ) : Parser σ Expr := do
  repeatFrom (postfixStep nest) (← atom nest)

/-- An argument, if one comes next. -/
def argument? (nest : Nest σ) : Parser σ (Option Expr) := do
  if startsAtom (← kind) then return some (← postfixAtom nest) else return none

/-- What is applied to arguments: an atom, or `!` and an atom. -/
def applicationHead (nest : Nest σ) : Parser σ Expr := do
  match ← kind with
  | .operator "!" =>
    let bang ← advanceSpan
    if startsAtom (← kind) then
      let operand ← nest.postfixAtom
      return .not operand (bang.merge operand.span)
    else
      raise (.missingOperand "!") bang
  | _ => postfixAtom nest

/-- **Application.** A constructor takes all its arguments into one node; a function takes them one
at a time. -/
def application (nest : Nest σ) : Parser σ Expr := do
  match ← kind with
  | .constructor name =>
    let tag : Identifier := ⟨name, ← advanceSpan⟩
    let arguments ← many (argument? nest)
    let span := arguments.foldl (fun span argument => span.merge argument.span) tag.span
    return .constructor tag arguments span
  | _ =>
    let head ← applicationHead nest
    repeatFrom
      (fun function => do
        return (← argument? nest).map fun argument =>
          .application function argument (function.span.merge argument.span))
      head

/-! ### Keyword forms -/

/-- A conditional. -/
def conditional (nest : Nest σ) : Parser σ Expr := do
  let start ← advanceSpan
  let condition ← nest.expression
  let _ ← expectKeyword .kwThen
  let thenBranch ← nest.expression
  let _ ← expectKeyword .kwElse
  let elseBranch ← nest.expression
  return .conditional condition thenBranch elseBranch (start.merge elseBranch.span)

/-- Whether a token, which touches the token before it or not, starts a parameter list after the
name of a local function. A bracket that touches the name is an index instead. -/
def startsFunctionParams (k : TokenKind) (touching : Bool) : Bool :=
  match k with
  | .identifier _ => true
  | .punct .leftBracket => !touching
  | .punct p =>
    p ∈ [.underscore, .leftParen, .leftBrace, .apostrophe, .apostropheHat, .apostropheTilde,
      .attributeOpen]
  | _ => false

/-- `let a[i] = v`, from the name on. -/
def letUpdate (nest : Nest σ) : Parser σ LetBinding := do
  let name ← identifier
  let o ← opening .leftBracket
  let (list, _) ← indices nest o
  let _ ← expect .equal
  return .update name list (← nest.expression)

/-- `let f 't [n] x y : t = e`, from the name on. -/
def letFunction (nest : Nest σ) : Parser σ LetBinding := do
  let name ← identifier
  let typeParams ← typeParams
  let params ← params nest
  let returnType ← returnType nest
  let _ ← expect .equal
  return .function name typeParams params returnType (← nest.expression)

/-- `let p = e`, from the pattern on. -/
def letPattern (nest : Nest σ) : Parser σ LetBinding := do
  let pattern ← nest.pattern
  let _ ← expect .equal
  return .pattern pattern (← nest.expression)

/-- **What `let` binds.** A name before a bracket that touches it is updated, a name before a
parameter is a function, and everything else is a pattern. -/
def letBinding (nest : Nest σ) : Parser σ LetBinding := do
  let next ← kindAt 1
  let touching ← touches 1
  if (← kind).isIdentifier then
    if next = .punct .leftBracket ∧ touching then letUpdate nest
    else if startsFunctionParams next touching then letFunction nest
    else letPattern nest
  else
    letPattern nest

/-- **A `let`.** Another `let` may stand in for `in`, and is then the body. -/
def letIn (nest : Nest σ) : Parser σ Expr := do
  let start ← advanceSpan
  let binding ← letBinding nest
  let body ←
    if (← eatKeyword? .kwIn).isSome then nest.expression
    else if ← atKeyword? .kwLet then nest.letChain
    else unexpected [.keyword .kwIn, .keyword .kwLet]
  return .letIn binding body (start.merge body.span)

/-- What follows `for`: a name counting up to a bound, or a pattern for each element. -/
def forForm (nest : Nest σ) : Parser σ LoopForm := do
  if (← kind).isIdentifier && (← kindAt 1) = .operator "<" then
    let name ← identifier
    let _ ← advance
    return .countTo name (← nest.expression)
  else
    let pattern ← nest.pattern
    let _ ← expectKeyword .kwIn
    return .overElements pattern (← nest.expression)

/-- **How a loop goes on.** `hasInitial` says whether an initial value has been given, since
otherwise that could have come next as well. -/
def loopForm (nest : Nest σ) (hasInitial : Bool) : Parser σ LoopForm := do
  if (← eatKeyword? .kwFor).isSome then forForm nest
  else if (← eatKeyword? .kwWhile).isSome then return .whileTrue (← nest.expression)
  else if hasInitial then unexpected [.keyword .kwFor, .keyword .kwWhile]
  else unexpected [.punct .equal, .keyword .kwFor, .keyword .kwWhile]

/-- A loop. -/
def loop (nest : Nest σ) : Parser σ Expr := do
  let start ← advanceSpan
  let parameter ← nest.pattern
  let initial ←
    match ← eat? .equal with
    | some _ => some <$> nest.expression
    | none => pure none
  let form ← loopForm nest initial.isSome
  let _ ← expectKeyword .kwDo
  let body ← nest.expression
  return .loop parameter initial form body (start.merge body.span)

/-- **A case of a match**, if one comes next. Its pattern has no type of its own, which would take
in the arrow. -/
def matchCase? (nest : Nest σ) : Parser σ (Option MatchCase) := do
  match ← eatKeyword? .kwCase with
  | none => return none
  | some start =>
    let pattern ← nest.constructorPattern
    let _ ← expect .arrow
    let body ← nest.expression
    return some (.mk pattern body (start.merge body.span))

/-- A match, with at least one case. -/
def matching (nest : Nest σ) : Parser σ Expr := do
  let start ← advanceSpan
  let scrutinee ← nest.expression
  let cases ← many (matchCase? nest)
  match cases.getLast? with
  | none => unexpected [.keyword .kwCase]
  | some last => return .matching scrutinee cases (start.merge last.span)

/-- A function without a name. The type of its result has no arrow of its own, which would take in
the body. -/
def lambda (nest : Nest σ) : Parser σ Expr := do
  let start ← advanceSpan
  let parameters ← params nest
  if parameters.isEmpty then
    unexpected [.phrase "a parameter"]
  else
    let returnType ←
      match ← eat? .colon with
      | some _ => some <$> nest.typeTerm
      | none => pure none
    let _ ← expect .arrow
    let body ← nest.expression
    return .lambda parameters returnType body (start.merge body.span)

/-- An assertion: a condition and an expression, both atoms. -/
def assertion (nest : Nest σ) : Parser σ Expr := do
  let start ← advanceSpan
  let condition ← nest.postfixAtom
  let body ← nest.postfixAtom
  return .assertion condition body (start.merge body.span)

/-- An expression without checks. -/
def unchecked (nest : Nest σ) : Parser σ Expr := do
  let start ← advanceSpan
  let body ← nest.expression
  return .unchecked body (start.merge body.span)

/-- An attribute and the expression it decorates. -/
def attributed (nest : Nest σ) : Parser σ Expr := do
  let a ← attr nest
  let inner ← nest.expression
  return .attributed a inner (a.span.merge inner.span)

/-- A negation. -/
def negation (nest : Nest σ) : Parser σ Expr := do
  let minus ← advanceSpan
  let operand ← operandAfter "-" minus nest.operand
  return .negate operand (minus.merge operand.span)

/-! ### Operators and what is looser -/

/-- **An operand** with the prefix or keyword that it may start with. -/
def operand (nest : Nest σ) : Parser σ Expr := do
  match ← kind with
  | .operator "-" => negation nest
  | .keyword .kwIf => conditional nest
  | .keyword .kwLet => letIn nest
  | .keyword .kwLoop => loop nest
  | .keyword .kwMatch => matching nest
  | .keyword .kwAssert => assertion nest
  | .keyword .kwUnsafe => unchecked nest
  | .punct .backslash => lambda nest
  | .punct .attributeOpen => attributed nest
  | _ => application nest

/-- **One more operator and operand**, if an operator comes next that binds at least as tightly as
`power`. An operator before a closing parenthesis is left for a section. -/
def binaryStep (nest : Nest σ) (power : Nat) (left : Expr) : Parser σ (Option Expr) := do
  match ← kind with
  | .operator symbol =>
    match Operator.classify symbol with
    | none => return none
    | some k =>
      if k.power.left < power then
        return none
      else if (← kindAt 1) = .punct .rightParen then
        return none
      else
        let operator : OperatorName := ⟨symbol, ← advanceSpan⟩
        let right ← operandAfter symbol operator.span (nest.binary k.power.right)
        return some (.binary operator left right (left.span.merge right.span))
  | _ => return none

/-- **Precedence climbing.** Operands joined by the operators that bind at least as tightly as
`power`. -/
def binary (nest : Nest σ) (power : Nat) : Parser σ Expr := do
  repeatFrom (binaryStep nest power) (← operand nest)

/-- What an update changes. -/
def updatePath (nest : Nest σ) : Parser σ UpdatePath := do
  match ← opening? .leftBracket with
  | some o =>
    let (list, stop) ← indices nest o
    return .index list (o.span.merge stop)
  | none =>
    let first ← fieldName
    return .field (first :: (← dottedFields))

/-- One more update of `target`, if one comes next. -/
def updateStep (nest : Nest σ) (target : Expr) : Parser σ (Option Expr) := do
  match ← eatKeyword? .kwWith with
  | none => return none
  | some start =>
    let path ← updatePath nest
    let equals ← expect .equal
    let value ← operandAfter "=" equals (nest.binary 0)
    return some (.update target path value ((target.span.merge start).merge value.span))

/-- **Updates**, which group to the left. -/
def update (nest : Nest σ) : Parser σ Expr := do
  repeatFrom (updateStep nest) (← binary nest 0)

/-- The way a range ends after the given punctuation. -/
def rangeKindOf : Punct → RangeKind
  | .dotDotLess => .exclusiveBelow
  | .dotDotGreater => .exclusiveAbove
  | _ => .inclusive

/-- Takes the next token if it is one of the given punctuation, for a range to go on. -/
def rangeOperator? (accepted : List Punct) : Parser σ (Option (Punct × Span)) := do
  match ← kind with
  | .punct p => if p ∈ accepted then return some (p, ← advanceSpan) else return none
  | _ => return none

/-- The bound of a range after the given punctuation. -/
def rangeBound (nest : Nest σ) (operator : Punct × Span) : Parser σ Expr :=
  operandAfter operator.1.text operator.2 (update nest)

/-- **A range.** After `..` comes the last element, or the second one if another punctuation
follows it. -/
def range (nest : Nest σ) : Parser σ Expr := do
  let first ← update nest
  match ← rangeOperator? [.dotDot, .dotDotLess, .dotDotGreater] with
  | none => return first
  | some operator =>
    let second ← rangeBound nest operator
    let last? ←
      if operator.1 = .dotDot then rangeOperator? [.dotDotDot, .dotDotLess, .dotDotGreater]
      else pure none
    match last? with
    | none => return .range first none second (rangeKindOf operator.1) (first.span.merge second.span)
    | some operator =>
      let last ← rangeBound nest operator
      return .range first (some second) last (rangeKindOf operator.1)
        (first.span.merge last.span)

/-- **Any expression.** A type may be given once. -/
def expression (nest : Nest σ) : Parser σ Expr := do
  let inner ← range nest
  match ← kind with
  | .punct .colon =>
    let _ ← advance
    let type ← nest.type
    return .ascription inner type (inner.span.merge type.span)
  | .punct .colonGreater =>
    let _ ← advance
    let type ← nest.type
    return .coerce inner type (inner.span.merge type.span)
  | _ => return inner

end Futhark.Grammar
