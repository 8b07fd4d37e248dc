import Futhark.Tree.Name

/-!
# Types

Type expressions as written. Parentheses are kept as nodes of their own, so that a span never has
to be guessed, and the arguments of a type constructor are nested to the left.
-/

namespace Futhark

/-- **What stands in the brackets** of an array type or of a size argument. -/
inductive Dimension where
  /-- Nothing: the size is not given. -/
  | unknown (span : Span)
  /-- A size by name. -/
  | named (name : QualName) (span : Span)
  /-- A constant size, by its digits. -/
  | literal (digits : String) (span : Span)
deriving DecidableEq, Repr, Inhabited

/-- The span of a dimension, brackets included. -/
def Dimension.span : Dimension → Span
  | unknown span | named _ span | literal _ span => span

mutual

/-- **A type expression.** -/
inductive TypeExpr where
  | named (name : QualName)
  | array (dimension : Dimension) (element : TypeExpr) (span : Span)
  | unit (span : Span)
  | parens (inner : TypeExpr) (span : Span)
  /-- At least two types in parentheses. -/
  | tuple (elements : List TypeExpr) (span : Span)
  | record (fields : List TypeField) (span : Span)
  | sum (constructors : List SumConstructor) (span : Span)
  /-- A function type, whose parameter may have a name for the result to refer to. -/
  | function (paramName : Option Identifier) (param result : TypeExpr) (span : Span)
  | application (head : TypeExpr) (argument : TypeArg) (span : Span)
  /-- A type with sizes that are only known to exist. -/
  | existential (sizes : List Identifier) (body : TypeExpr) (span : Span)
  /-- A type whose values are consumed: `*t`. -/
  | unique (inner : TypeExpr) (span : Span)

/-- **An argument of a type constructor**: a type or a size. -/
inductive TypeArg where
  | type (type : TypeExpr)
  | size (dimension : Dimension)

/-- **A field of a record type.** -/
inductive TypeField where
  | mk (name : Identifier) (type : TypeExpr) (span : Span)

/-- **One alternative of a sum type**: a tag and the types of what it holds. -/
inductive SumConstructor where
  | mk (tag : Identifier) (arguments : List TypeExpr) (span : Span)

end

instance : Inhabited TypeExpr := ⟨.unit default⟩

namespace TypeExpr

/-- The span of a type. -/
def span : TypeExpr → Span
  | named name => name.span
  | array _ _ span | unit span | parens _ span | tuple _ span | record _ span | sum _ span
  | function _ _ _ span | application _ _ span | existential _ _ span | unique _ span => span

/-- Whether the type is just a name. -/
def isNamed : TypeExpr → Bool
  | named _ => true
  | _ => false

end TypeExpr

/-- The span of a type argument. -/
def TypeArg.span : TypeArg → Span
  | type t => t.span
  | size d => d.span

/-- The span of an alternative. -/
def SumConstructor.span : SumConstructor → Span
  | mk _ _ span => span

/-! ### Type parameters -/

/-- **What a type may contain.** Lifted types may contain functions, size-lifted ones hidden
sizes. -/
inductive Liftedness where
  | unlifted
  | sizeLifted
  | lifted
deriving DecidableEq, Repr, Inhabited

/-- The mark that liftedness is written with. -/
def Liftedness.marker : Liftedness → String
  | unlifted => ""
  | sizeLifted => "~"
  | lifted => "^"

/-- **A parameter of a definition** that is a size, `[n]`, or a type, `'t`. -/
inductive TypeParam where
  | size (name : Identifier) (span : Span)
  | type (name : Identifier) (liftedness : Liftedness) (span : Span)
deriving DecidableEq, Repr, Inhabited

/-- The span of a type parameter. -/
def TypeParam.span : TypeParam → Span
  | size _ span | type _ _ span => span

end Futhark
