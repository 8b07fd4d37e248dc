import Futhark.Grammar.Expr
import Futhark.Grammar.ModuleType

/-!
# Grammar of declarations and modules

Declarations follow each other without separators. Their documentation stands before them, or
between them and an attribute or `local` in front.
-/

namespace Futhark.Grammar

open Futhark.Parser

variable {σ : Type}

/-- What starts a declaration. -/
def declStart : List Expectation :=
  [.keyword .kwDef, .keyword .kwEntry, .keyword .kwLet, .keyword .kwType, .keyword .kwModule,
    .keyword .kwOpen, .keyword .kwImport, .keyword .kwLocal, .punct .attributeOpen]

/-! ### Imports -/

/-- **What is imported**, from the keyword on: the path, the program there if it is resolved, and
the span of the whole. -/
def importFile (resolver : Option (Resolver σ)) :
    Parser σ (String × Option Program × Span) := do
  let start ← advanceSpan
  match ← kind with
  | .string _ path =>
    let span ← advanceSpan
    let resolved ← importProgram resolver path span
    return (path, resolved, start.merge span)
  | _ => unexpected [.phrase "a string literal"]

/-! ### Module expressions -/

/-- Whether a token starts a module atom. -/
def startsModuleAtom : TokenKind → Bool
  | .identifier _ => true
  | .keyword .kwImport => true
  | .punct p => p ∈ [.leftParen, .leftBrace]
  | _ => false

/-- **The tightest module expressions**: a name, an import, declarations in braces, or one in
parentheses. -/
def moduleAtom (resolver : Option (Resolver σ)) (nest : Nest σ) : Parser σ ModuleExpr := do
  match ← kind with
  | .identifier _ => return .name (← qualName)
  | .keyword .kwImport =>
    let (path, resolved, span) ← importFile resolver
    return .imported path resolved span
  | .punct .leftParen =>
    let o ← opening .leftParen
    let inner ← nest.moduleExpr
    let stop ← close o []
    return .parens inner (o.span.merge stop)
  | .punct .leftBrace =>
    let o ← opening .leftBrace
    let declarations ← bracedItems (nest.declaration none)
    let stop ← close o declStart
    return .struct declarations (o.span.merge stop)
  | _ => unexpected [.phrase "a module expression"]

/-- One more argument of a parametric module, if one comes next. -/
def moduleApplicationStep (resolver : Option (Resolver σ)) (nest : Nest σ) (functor : ModuleExpr) :
    Parser σ (Option ModuleExpr) := do
  if startsModuleAtom (← kind) then
    let argument ← moduleAtom resolver nest
    return some (.application functor argument (functor.span.merge argument.span))
  else
    return none

/-- Application of parametric modules, one argument at a time. -/
def moduleApplication (resolver : Option (Resolver σ)) (nest : Nest σ) : Parser σ ModuleExpr := do
  repeatFrom (moduleApplicationStep resolver nest) (← moduleAtom resolver nest)

/-- A parametric module without a name. Its module type stops before the arrow. -/
def moduleLambda (nest : Nest σ) : Parser σ ModuleExpr := do
  let start ← advanceSpan
  let param ← moduleParam nest
  let signature ←
    match ← eat? .colon with
    | some _ => some <$> nest.refinedModuleType
    | none => pure none
  let _ ← expect .arrow
  let body ← nest.moduleExpr
  return .lambda param signature body (start.merge body.span)

/-- One more module type given to a module, if one comes next. -/
def moduleAscriptionStep (nest : Nest σ) (body : ModuleExpr) : Parser σ (Option ModuleExpr) := do
  match ← eat? .colon with
  | none => return none
  | some _ =>
    let signature ← nest.moduleType
    return some (.ascription body signature (body.span.merge signature.span))

/-- **Any module expression.** -/
def moduleExpr (resolver : Option (Resolver σ)) (nest : Nest σ) : Parser σ ModuleExpr := do
  if ← at? .backslash then moduleLambda nest
  else repeatFrom (moduleAscriptionStep nest) (← moduleApplication resolver nest)

/-! ### Definitions of values -/

/-- The word that a definition starts with. -/
def bindingKindOf? : TokenKind → Option BindingKind
  | .keyword .kwDef => some .define
  | .keyword .kwEntry => some .entry
  | .keyword .kwLet => some .letBinding
  | _ => none

/-- **Infix definitions.** Whether the definition is written like a use of the operator, `x + y`: a
name before an operator, or a parenthesis, unless there is just an operator inside. -/
def atInfixBinding : Parser σ Bool := do
  let s ← get
  match (s.tokenAt 0).kind with
  | .identifier _ => return (s.tokenAt 1).kind.isOperator
  | .punct .leftParen =>
    return !((s.tokenAt 1).kind.isOperator && (s.tokenAt 2).kind = .punct .rightParen)
  | _ => return false

/-- What a definition defines, and its parameters. -/
def bindingHead (nest : Nest σ) : Parser σ (BindingName × List TypeParam × List Pattern) := do
  if ← atInfixBinding then
    let left ← nest.atomicPattern
    let operator ← infixOperator
    let right ← nest.atomicPattern
    return (.operator operator, [], [left, right])
  else
    let name ← bindingName
    let typeParams ← typeParams
    let params ← params nest
    return (name, typeParams, params)

/-- **Definition of a value or function.** -/
def valueBinding (nest : Nest σ) (kind : BindingKind) (doc : Option String) :
    Parser σ ValueBinding := do
  let start ← advanceSpan
  let (name, typeParams, params) ← bindingHead nest
  let returnType ← returnType nest
  let _ ← expect .equal
  let body ← nest.expression
  let span := start.merge body.span
  return { kind, name, typeParams, params, returnType, body, doc, span }

/-- **Definition of a type.** -/
def typeBinding (nest : Nest σ) (doc : Option String) : Parser σ TypeBinding := do
  let start ← advanceSpan
  let liftedness ← liftednessMarker
  let name ← identifier
  let params ← typeParams
  let _ ← expect .equal
  let definition ← nest.type
  let span := start.merge definition.span
  return { liftedness, name, params, definition, doc, span }

/-! ### Declarations -/

/-- Parameters of a module, as many as there are. -/
def moduleParams (nest : Nest σ) : Parser σ (List ModuleParam) :=
  many do
    if ← at? .leftParen then return some (← moduleParam nest) else return none

/-- Definition of a module or of a module type. -/
def moduleBinding (nest : Nest σ) (doc : Option String) : Parser σ Decl := do
  let start ← advanceSpan
  if (← eatKeyword? .kwType).isSome then
    let name ← identifier
    let _ ← expect .equal
    let body ← nest.moduleType
    return .moduleTypeBinding name body doc (start.merge body.span)
  else
    let name ← identifier
    let params ← moduleParams nest
    let signature ←
      match ← eat? .colon with
      | some _ => some <$> nest.moduleType
      | none => pure none
    let _ ← expect .equal
    let body ← nest.moduleExpr
    return .moduleBinding name params signature body doc (start.merge body.span)

/-- An attribute and the declaration it decorates. -/
def attributedDecl (nest : Nest σ) (doc : Option String) : Parser σ Decl := do
  let a ← attr nest
  let doc ← docCommentOr doc
  let declaration ← nest.documentedDeclaration doc
  return .attributed a declaration (a.span.merge declaration.span)

/-- The contents of a module, opened. -/
def openDecl (nest : Nest σ) : Parser σ Decl := do
  let start ← advanceSpan
  let body ← nest.moduleExpr
  return .opened body (start.merge body.span)

/-- A declaration that is not visible from outside. -/
def localDecl (nest : Nest σ) (doc : Option String) : Parser σ Decl := do
  let start ← advanceSpan
  let declaration ← nest.declaration doc
  return .hidden declaration (start.merge declaration.span)

/-- **A declaration** whose documentation has been looked for already. -/
def documentedDeclaration (resolver : Option (Resolver σ)) (nest : Nest σ) (doc : Option String) :
    Parser σ Decl := do
  let k ← kind
  match bindingKindOf? k with
  | some binding => return .value (← valueBinding nest binding doc)
  | none =>
    match k with
    | .punct .attributeOpen => attributedDecl nest doc
    | .keyword .kwType => return .type (← typeBinding nest doc)
    | .keyword .kwModule => moduleBinding nest doc
    | .keyword .kwOpen => openDecl nest
    | .keyword .kwImport =>
      let (path, resolved, span) ← importFile resolver
      return .imported path resolved span
    | .keyword .kwLocal => localDecl nest doc
    | _ => unexpected declStart

/-- **A declaration**, with the documentation found before it so far. -/
def declaration (resolver : Option (Resolver σ)) (nest : Nest σ) (doc : Option String) :
    Parser σ Decl := do
  documentedDeclaration resolver nest (← docCommentOr doc)

/-- **A program**: declarations up to the end of the input. -/
def program (resolver : Option (Resolver σ)) (nest : Nest σ) : Parser σ Program := do
  let declarations ← many do
    if (← kind).isFinish then return none
    else return some (← declaration resolver nest none)
  return .mk declarations ⟨0, (← here).stop⟩

end Futhark.Grammar
