import Futhark.Tree.Pattern

/-!
# Expressions

Expressions as written: nothing is resolved, checked or rewritten. Parentheses are kept as nodes.
-/

namespace Futhark

/-- **A literal value.** -/
inductive Literal where
  | integer (value : IntLiteral)
  | float (value : FloatLiteral)
  | string (value : String)
  | character (value : Char)
  | bool (value : Bool)
deriving DecidableEq, Repr, Inhabited

/-- **How a range ends**: with its last element, or before it, counting up or down. -/
inductive RangeKind where
  | inclusive
  | exclusiveBelow
  | exclusiveAbove
deriving DecidableEq, Repr, Inhabited

mutual

/-- **An expression.** -/
inductive Expr where
  | literal (value : Literal) (span : Span)
  | name (name : QualName)
  | parens (inner : Expr) (span : Span)
  | unit (span : Span)
  /-- At least two expressions in parentheses. -/
  | tuple (elements : List Expr) (span : Span)
  | record (fields : List RecordField) (span : Span)
  | array (elements : List Expr) (span : Span)
  | range (first : Expr) (step : Option Expr) (last : Expr) (kind : RangeKind) (span : Span)
  | application (function argument : Expr) (span : Span)
  | binary (operator : OperatorName) (left right : Expr) (span : Span)
  | negate (operand : Expr) (span : Span)
  | not (operand : Expr) (span : Span)
  | constructor (tag : Identifier) (arguments : List Expr) (span : Span)
  /-- `e : t` -/
  | ascription (inner : Expr) (type : TypeExpr) (span : Span)
  /-- `e :> t` -/
  | coerce (inner : Expr) (type : TypeExpr) (span : Span)
  | index (base : Expr) (indices : List DimIndex) (span : Span)
  | project (base : Expr) (fields : List Identifier) (span : Span)
  /-- `M.(e)` -/
  | qualifiedParens (qualifier : QualName) (inner : Expr) (span : Span)
  /-- `(+)` -/
  | operatorSection (operator : OperatorName) (span : Span)
  /-- `(e +)` -/
  | leftSection (operand : Expr) (operator : OperatorName) (span : Span)
  /-- `(+ e)` -/
  | rightSection (operator : OperatorName) (operand : Expr) (span : Span)
  /-- `(.a.b)` -/
  | projectSection (fields : List Identifier) (span : Span)
  /-- `e with [i] = v`, `e with a.b = v` -/
  | update (target : Expr) (path : UpdatePath) (value : Expr) (span : Span)
  | conditional (condition thenBranch elseBranch : Expr) (span : Span)
  | letIn (binding : LetBinding) (body : Expr) (span : Span)
  | loop (parameter : Pattern) (initial : Option Expr) (form : LoopForm) (body : Expr)
      (span : Span)
  | matching (scrutinee : Expr) (cases : List MatchCase) (span : Span)
  | lambda (parameters : List Pattern) (returnType : Option TypeExpr) (body : Expr) (span : Span)
  | assertion (condition body : Expr) (span : Span)
  /-- `unsafe e`: the checks that the compiler would add to `e` are left out. -/
  | unchecked (body : Expr) (span : Span)
  | attributed (attr : Attribute) (inner : Expr) (span : Span)

/-- **A field of a record.** Written without a value, it takes that of the variable of its name. -/
inductive RecordField where
  | explicit (name : Identifier) (value : Expr) (span : Span)
  | shorthand (name : Identifier)

/-- **One index**: a single element, or a slice with any of its parts left out. -/
inductive DimIndex where
  | fix (value : Expr)
  | slice (first last stride : Option Expr) (span : Span)

/-- **What an update changes**: an element or slice, or a field inside fields. -/
inductive UpdatePath where
  | index (indices : List DimIndex) (span : Span)
  | field (fields : List Identifier)

/-- **What `let` binds**: a pattern, a function, or the array of a name with an element changed. -/
inductive LetBinding where
  | pattern (pattern : Pattern) (value : Expr)
  | function (name : Identifier) (typeParams : List TypeParam) (params : List Pattern)
      (returnType : Option TypeExpr) (value : Expr)
  | update (name : Identifier) (indices : List DimIndex) (value : Expr)

/-- **How a loop goes on.** -/
inductive LoopForm where
  | countTo (name : Identifier) (bound : Expr)
  | overElements (pattern : Pattern) (source : Expr)
  | whileTrue (condition : Expr)

/-- **One case of a match.** -/
inductive MatchCase where
  | mk (pattern : Pattern) (body : Expr) (span : Span)

end

instance : Inhabited Expr := ⟨.unit default⟩

/-- The span of a case. -/
def MatchCase.span : MatchCase → Span
  | mk _ _ span => span

namespace Expr

/-- The span of an expression. -/
def span : Expr → Span
  | name q => q.span
  | literal _ span | parens _ span | unit span | tuple _ span | record _ span | array _ span
  | range _ _ _ _ span | application _ _ span | binary _ _ _ span | negate _ span | not _ span
  | constructor _ _ span | ascription _ _ span | coerce _ _ span | index _ _ span
  | project _ _ span | qualifiedParens _ _ span | operatorSection _ span | leftSection _ _ span
  | rightSection _ _ span | projectSection _ span | update _ _ _ span | conditional _ _ _ span
  | letIn _ _ span | loop _ _ _ _ span | matching _ _ span | lambda _ _ _ span
  | assertion _ _ span | unchecked _ span | attributed _ _ span => span

/-- **Without parentheses**: what the outermost parentheses enclose, however many there are. -/
def unparenthesized : Expr → Expr
  | parens inner _ => unparenthesized inner
  | e => e

end Expr

end Futhark
