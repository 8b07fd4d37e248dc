import Futhark.Tree.TypeExpr

/-!
# Patterns

What a value is matched against, in parameters, `let`, `loop` and `match`.
-/

namespace Futhark

mutual

/-- **A pattern.** -/
inductive Pattern where
  | identifier (name : Identifier)
  | wildcard (span : Span)
  | literal (negative : Bool) (value : IntLiteral) (span : Span)
  | unit (span : Span)
  | parens (inner : Pattern) (span : Span)
  /-- At least two patterns in parentheses. -/
  | tuple (elements : List Pattern) (span : Span)
  | record (fields : List RecordPatternField) (span : Span)
  | constructor (tag : Identifier) (arguments : List Pattern) (span : Span)
  | ascription (pattern : Pattern) (type : TypeExpr) (span : Span)
  | attributed (attr : Attribute) (pattern : Pattern) (span : Span)

/-- **A field of a record pattern.** Without a pattern of its own it binds its name. -/
inductive RecordPatternField where
  | mk (name : Identifier) (pattern : Option Pattern) (span : Span)

end

instance : Inhabited Pattern := ⟨.unit default⟩

namespace Pattern

/-- The span of a pattern. -/
def span : Pattern → Span
  | identifier name => name.span
  | wildcard span | literal _ _ span | unit span | parens _ span | tuple _ span | record _ span
  | constructor _ _ span | ascription _ _ span | attributed _ _ span => span

/-! ### Bound names -/

mutual

/-- **Names a pattern binds**, in the order in which they are written. -/
def boundNames : Pattern → List Identifier
  | identifier name => [name]
  | wildcard _ | literal _ _ _ | unit _ => []
  | parens inner _ => boundNames inner
  | tuple elements _ => boundNamesAll elements
  | record fields _ => boundNamesFields fields
  | constructor _ arguments _ => boundNamesAll arguments
  | ascription pattern _ _ => boundNames pattern
  | attributed _ pattern _ => boundNames pattern

/-- The names bound by several patterns. -/
def boundNamesAll : List Pattern → List Identifier
  | [] => []
  | p :: ps => boundNames p ++ boundNamesAll ps

/-- The names bound by the fields of a record pattern. -/
def boundNamesFields : List RecordPatternField → List Identifier
  | [] => []
  | .mk name none _ :: fields => name :: boundNamesFields fields
  | .mk _ (some pattern) _ :: fields => boundNames pattern ++ boundNamesFields fields

end

end Pattern

end Futhark
