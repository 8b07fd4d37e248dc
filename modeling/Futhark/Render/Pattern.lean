import Futhark.Render.TypeExpr

/-!
# Rendering patterns

A number is a pattern, but as a parameter it needs parentheses.
-/

namespace Futhark.Render

open Document

/-- **Shorthand for a typed field.** In a record pattern, a field that binds its own name and gives
it a type is written `name: type`. -/
def shorthandType? (name : Identifier) : Pattern → Option TypeExpr
  | .ascription (.identifier bound) type _ => if bound.name = name.name then some type else none
  | _ => none

mutual

/-- **A pattern**, as a parameter or elsewhere. -/
def patternAt (isParam : Bool) : Pattern → Document
  | .identifier name => identifier name
  | .wildcard _ => .text "_"
  | .literal negative value _ =>
    parenthesizedIf isParam (row [.text (if negative then "-" else ""), .built value.text])
  | .unit _ => .text "()"
  | .parens inner _ => patternAt isParam inner
  | .tuple elements _ => parenthesized (join (patterns elements) comma)
  | .record fields _ => braced (join (recordPatternFields fields) comma)
  | .constructor tag arguments _ =>
    parenthesizedIf (!arguments.isEmpty)
      (.seq [.text "#", identifier tag, eachAfter " " (patterns arguments)])
  | .ascription pattern t _ => parenthesized (row [patternAt false pattern, .text " : ", type t])
  | .attributed a pattern _ => parenthesized (row [attr a, .text " ", patternAt false pattern])

/-- Several patterns. -/
def patterns : List Pattern → List Document
  | [] => []
  | p :: ps => patternAt false p :: patterns ps

/-- The fields of a record pattern. -/
def recordPatternFields : List RecordPatternField → List Document
  | [] => []
  | .mk name none _ :: fields => identifier name :: recordPatternFields fields
  | .mk name (some p) _ :: fields =>
    let field :=
      match shorthandType? name p with
      | some t => row [identifier name, .text ": ", type t]
      | none => row [identifier name, .text " = ", patternAt false p]
    field :: recordPatternFields fields

end

/-- Any pattern. -/
def pattern (p : Pattern) : Document := patternAt false p

/-- A parameter. -/
def param (p : Pattern) : Document := patternAt true p

/-- Parameters, each after a space. -/
def params (ps : List Pattern) : Document := eachAfter " " (ps.map param)

end Futhark.Render
