import Futhark.Tree.Pattern

/-!
# Module types

Module types list specifications of what a module provides. They never contain expressions.
-/

namespace Futhark

/-- **What a definition defines**: a name, or an operator in parentheses. -/
inductive BindingName where
  | name (name : Identifier)
  | operator (operator : OperatorName)
deriving DecidableEq, Repr, Inhabited

/-- The name or symbol that is defined. -/
def BindingName.text : BindingName → String
  | name n => n.name
  | operator o => o.symbol

mutual

/-- **A module type.** -/
inductive ModuleType where
  | specs (specs : List Spec) (span : Span)
  | name (name : QualName)
  | parens (inner : ModuleType) (span : Span)
  /-- `s with t = u`: a type of the module type is made known. -/
  | refined (base : ModuleType) (typeName : QualName) (params : List TypeParam)
      (definition : TypeExpr) (span : Span)
  /-- The type of a parametric module, whose parameter may have a name. -/
  | functor (paramName : Option Identifier) (param result : ModuleType) (span : Span)

/-- **One specification** in a module type. -/
inductive Spec where
  | value (name : BindingName) (typeParams : List TypeParam) (type : TypeExpr)
      (doc : Option String) (span : Span)
  | type (liftedness : Liftedness) (name : Identifier) (params : List TypeParam)
      (definition : Option TypeExpr) (doc : Option String) (span : Span)
  | nested (name : Identifier) (signature : ModuleType) (doc : Option String) (span : Span)
  | included (signature : ModuleType) (span : Span)
  | attributed (attr : Attribute) (spec : Spec) (span : Span)

end

instance : Inhabited ModuleType := ⟨.specs [] default⟩

/-- The span of a module type. -/
def ModuleType.span : ModuleType → Span
  | name q => q.span
  | specs _ span | parens _ span | refined _ _ _ _ span | functor _ _ _ span => span

namespace Spec

/-- The span of a specification. -/
def span : Spec → Span
  | value _ _ _ _ span | type _ _ _ _ _ span | nested _ _ _ span | included _ span
  | attributed _ _ span => span

/-- The documentation of a specification, found under its attributes. -/
def doc? : Spec → Option String
  | value _ _ _ doc _ | type _ _ _ _ doc _ | nested _ _ doc _ => doc
  | included _ _ => none
  | attributed _ spec _ => spec.doc?

end Spec

/-- **A parameter of a module.** -/
structure ModuleParam where
  name : Identifier
  signature : ModuleType
  span : Span
deriving Inhabited

end Futhark
