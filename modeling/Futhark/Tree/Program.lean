import Futhark.Tree.Expr
import Futhark.Tree.ModuleType

/-!
# Declarations, modules and programs

An import holds the program it names if that was asked for when the text was read; otherwise it
holds nothing.
-/

namespace Futhark

/-- **The word a value is defined with.** -/
inductive BindingKind where
  | define
  | entry
  | letBinding
deriving DecidableEq, Repr, Inhabited

/-- The spelling of the word. -/
def BindingKind.text : BindingKind → String
  | define => "def"
  | entry => "entry"
  | letBinding => "let"

/-- **Definition of a value or function.** -/
structure ValueBinding where
  kind : BindingKind
  name : BindingName
  typeParams : List TypeParam
  params : List Pattern
  returnType : Option TypeExpr
  body : Expr
  doc : Option String
  span : Span
deriving Inhabited

/-- **Definition of a type.** -/
structure TypeBinding where
  liftedness : Liftedness
  name : Identifier
  params : List TypeParam
  definition : TypeExpr
  doc : Option String
  span : Span
deriving Inhabited

mutual

/-- **A declaration.** -/
inductive Decl where
  | value (binding : ValueBinding)
  | type (binding : TypeBinding)
  | moduleBinding (name : Identifier) (params : List ModuleParam) (signature : Option ModuleType)
      (body : ModuleExpr) (doc : Option String) (span : Span)
  | moduleTypeBinding (name : Identifier) (body : ModuleType) (doc : Option String) (span : Span)
  | opened (body : ModuleExpr) (span : Span)
  | imported (path : String) (resolved : Option Program) (span : Span)
  | hidden (declaration : Decl) (span : Span)
  | attributed (attr : Attribute) (declaration : Decl) (span : Span)

/-- **A module expression.** -/
inductive ModuleExpr where
  | struct (declarations : List Decl) (span : Span)
  | name (name : QualName)
  | parens (inner : ModuleExpr) (span : Span)
  | imported (path : String) (resolved : Option Program) (span : Span)
  | application (functor argument : ModuleExpr) (span : Span)
  | ascription (body : ModuleExpr) (signature : ModuleType) (span : Span)
  | lambda (param : ModuleParam) (signature : Option ModuleType) (body : ModuleExpr) (span : Span)

/-- **A program**: all the declarations of a text. Its span is that of the whole text. -/
inductive Program where
  | mk (declarations : List Decl) (span : Span)

end

instance : Inhabited Program := ⟨.mk [] default⟩

instance : Inhabited ModuleExpr := ⟨.struct [] default⟩

namespace Decl

/-- The span of a declaration. -/
def span : Decl → Span
  | value binding => binding.span
  | type binding => binding.span
  | moduleBinding _ _ _ _ _ span | moduleTypeBinding _ _ _ span | opened _ span
  | imported _ _ span | hidden _ span | attributed _ _ span => span

/-- The documentation of a declaration, found under `local` and attributes. -/
def doc? : Decl → Option String
  | value binding => binding.doc
  | type binding => binding.doc
  | moduleBinding _ _ _ _ doc _ | moduleTypeBinding _ _ doc _ => doc
  | hidden declaration _ | attributed _ declaration _ => declaration.doc?
  | opened _ _ | imported _ _ _ => none

end Decl

/-- The span of a module expression. -/
def ModuleExpr.span : ModuleExpr → Span
  | name q => q.span
  | struct _ span | parens _ span | imported _ _ span | application _ _ span
  | ascription _ _ span | lambda _ _ _ span => span

namespace Program

/-- The declarations of a program, in order. -/
def declarations : Program → List Decl
  | mk declarations _ => declarations

/-- The span of a program. -/
def span : Program → Span
  | mk _ span => span

end Program

end Futhark
