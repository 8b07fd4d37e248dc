import Futhark.Numeral
import Futhark.Operator
import Futhark.Span

/-!
# Names and attributes

The leaves of all syntax trees. Every one carries the span of its own text.
-/

namespace Futhark

/-- **A name**: of a variable, a type, a module, a record field or a constructor. A field may also
be named by its position, so a name can be a number. -/
structure Identifier where
  name : String
  span : Span
deriving DecidableEq, Repr, Inhabited

/-- **A name in a module**: `x`, `M.x`, `M.N.x`. -/
structure QualName where
  qualifiers : List Identifier
  name : Identifier
  span : Span
deriving DecidableEq, Repr, Inhabited

/-- The dotted spelling of a name. -/
def QualName.text (q : QualName) : String :=
  String.join (q.qualifiers.map (·.name ++ ".")) ++ q.name.name

/-- **One occurrence of an operator**, between operands or in a section. -/
structure OperatorName where
  symbol : String
  span : Span
deriving DecidableEq, Repr, Inhabited

/-- The class of an operator, which follows from its spelling. -/
def OperatorName.class? (o : OperatorName) : Option OperatorClass := Operator.classify o.symbol

/-- **An attribute**, without a meaning here: a word, a number, or a word with arguments. The span
of an attribute that decorates something includes the brackets; that of an argument does not. -/
inductive Attribute where
  | word (name : String) (span : Span)
  | integer (value : IntLiteral) (span : Span)
  | call (name : String) (arguments : List Attribute) (span : Span)
deriving Repr, Inhabited

namespace Attribute

/-- The span of an attribute. -/
def span : Attribute → Span
  | word _ span | integer _ span | call _ _ span => span

/-- The same attribute with another span. -/
def withSpan (span : Span) : Attribute → Attribute
  | word name _ => word name span
  | integer value _ => integer value span
  | call name arguments _ => call name arguments span

end Attribute

end Futhark
