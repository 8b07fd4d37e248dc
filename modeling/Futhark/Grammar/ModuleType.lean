import Futhark.Grammar.TypeExpr

/-!
# Grammar of module types

A module type is a name, a list of specifications in braces, a refinement of another module type,
or the type of a parametric module.
-/

namespace Futhark.Grammar

open Futhark.Parser

variable {σ : Type}

/-! ### Names that are defined -/

/-- An infix operator. -/
def infixOperator : Parser σ OperatorName := do
  match ← kind with
  | .operator symbol =>
    if (Operator.classify symbol).isSome then return ⟨symbol, ← advanceSpan⟩
    else unexpected [.phrase "an infix operator"]
  | _ => unexpected [.phrase "an infix operator"]

/-- **The name of a definition**, or an operator in parentheses. -/
def bindingName : Parser σ BindingName := do
  match ← kind with
  | .punct .leftParen =>
    let o ← opening .leftParen
    let operator ← infixOperator
    let _ ← close o []
    return .operator operator
  | .identifier _ => return .name (← identifier)
  | _ => unexpected [.phrase "a name", .punct .leftParen]

/-- The mark after `type`, if there is one. -/
def liftednessMarker : Parser σ Liftedness := do
  match ← kind with
  | .operator "^" =>
    let _ ← advance
    return .lifted
  | .punct .tilde =>
    let _ ← advance
    return .sizeLifted
  | _ => return .unlifted

/-! ### Specifications -/

/-- What starts a specification. -/
def specStart : List Expectation :=
  [.keyword .kwVal, .keyword .kwType, .keyword .kwModule, .keyword .kwInclude,
    .punct .attributeOpen]

/-- The specification of a value. -/
def valueSpec (nest : Nest σ) (doc : Option String) : Parser σ Spec := do
  let start ← advanceSpan
  let name ← bindingName
  let typeParams ← typeParams
  let _ ← expect .colon
  let type ← nest.type
  return .value name typeParams type doc (start.merge type.span)

/-- The specification of a type, which may be given a definition. -/
def typeSpec (nest : Nest σ) (doc : Option String) : Parser σ Spec := do
  let start ← advanceSpan
  let liftedness ← liftednessMarker
  let name ← identifier
  let params ← typeParams
  let definition ←
    match ← eat? .equal with
    | some _ => some <$> nest.type
    | none => pure none
  let lastParam := (params.getLast?.map TypeParam.span).getD name.span
  let stop := (definition.map TypeExpr.span).getD lastParam
  return .type liftedness name params definition doc (start.merge stop)

/-- The specification of a module. -/
def moduleSpec (nest : Nest σ) (doc : Option String) : Parser σ Spec := do
  let start ← advanceSpan
  let name ← identifier
  let _ ← expect .colon
  let signature ← nest.moduleType
  return .nested name signature doc (start.merge signature.span)

/-- The specifications of another module type, included. -/
def includeSpec (nest : Nest σ) : Parser σ Spec := do
  let start ← advanceSpan
  let signature ← nest.moduleType
  return .included signature (start.merge signature.span)

/-- A specification with an attribute, which may stand between it and its documentation. -/
def attributedSpec (nest : Nest σ) (doc : Option String) : Parser σ Spec := do
  let a ← attr nest
  let doc ← docCommentOr doc
  let spec ← nest.documentedSpec doc
  return .attributed a spec (a.span.merge spec.span)

/-- **A specification** whose documentation has been looked for already. -/
def documentedSpec (nest : Nest σ) (doc : Option String) : Parser σ Spec := do
  match ← kind with
  | .punct .attributeOpen => attributedSpec nest doc
  | .keyword .kwVal => valueSpec nest doc
  | .keyword .kwType => typeSpec nest doc
  | .keyword .kwModule => moduleSpec nest doc
  | .keyword .kwInclude => includeSpec nest
  | _ => unexpected specStart

/-- **A specification** with its documentation. -/
def spec (nest : Nest σ) : Parser σ Spec := do
  documentedSpec nest (← docComment)

/-! ### Module types -/

/-- Items up to a closing brace or the end of the input. -/
def bracedItems {α : Type} (item : Parser σ α) : Parser σ (List α) :=
  many do
    if (← at? .rightBrace) || (← kind).isFinish then return none else return some (← item)

/-- **The tightest module types**: a name, specifications in braces, or one in parentheses. -/
def moduleTypeAtom (nest : Nest σ) : Parser σ ModuleType := do
  match ← kind with
  | .identifier _ => return .name (← qualName)
  | .punct .leftParen =>
    let o ← opening .leftParen
    let inner ← nest.moduleType
    let stop ← close o []
    return .parens inner (o.span.merge stop)
  | .punct .leftBrace =>
    let o ← opening .leftBrace
    let specs ← bracedItems nest.spec
    let stop ← close o specStart
    return .specs specs (o.span.merge stop)
  | _ => unexpected [.phrase "a module type"]

/-- One more refinement, if one comes next. -/
def refinementStep (nest : Nest σ) (base : ModuleType) : Parser σ (Option ModuleType) := do
  match ← eatKeyword? .kwWith with
  | none => return none
  | some _ =>
    let typeName ← qualName
    let params ← typeParams
    let _ ← expect .equal
    let definition ← nest.type
    return some (.refined base typeName params definition (base.span.merge definition.span))

/-- **A module type without a function arrow of its own**, with its refinements. -/
def refinedModuleType (nest : Nest σ) : Parser σ ModuleType := do
  repeatFrom (refinementStep nest) (← moduleTypeAtom nest)

/-- The type of a parametric module whose parameter has a name. -/
def namedFunctor (nest : Nest σ) : Parser σ ModuleType := do
  let o ← opening .leftParen
  let name ← identifier
  let _ ← expect .colon
  let param ← nest.moduleType
  let _ ← close o []
  let _ ← expect .arrow
  let result ← nest.moduleType
  return .functor (some name) param result (o.span.merge result.span)

/-- **Any module type.** -/
def moduleType (nest : Nest σ) : Parser σ ModuleType := do
  if ← atNamedParameter then
    namedFunctor nest
  else
    let param ← refinedModuleType nest
    match ← eat? .arrow with
    | none => return param
    | some _ =>
      let result ← nest.moduleType
      return .functor none param result (param.span.merge result.span)

/-- **A parameter of a module**: `(p: s)`. -/
def moduleParam (nest : Nest σ) : Parser σ ModuleParam := do
  let o : Opening := ⟨.leftParen, ← expect .leftParen⟩
  let name ← identifier
  let _ ← expect .colon
  let signature ← nest.moduleType
  let stop ← close o []
  return ⟨name, signature, o.span.merge stop⟩

end Futhark.Grammar
