import Futhark.Render.Name

/-!
# Rendering types

Whether a type needs parentheses depends on where it stands, so the rendering functions are told the
`TypePosition`.
-/

namespace Futhark.Render

open Document

/-- **Where a type stands.** -/
inductive TypePosition where
  /-- Where any type may stand. -/
  | any
  /-- Where no existential may stand, and a sum would take in what follows it. -/
  | term
  /-- Where only names and bracketed types may stand. -/
  | atom
  /-- Before the arguments of a type constructor, where the arguments are not nested. -/
  | head
deriving DecidableEq, Repr, Inhabited

namespace TypePosition

/-- Whether existential and sum types need parentheses. -/
def enclosesLoose : TypePosition → Bool
  | term | atom => true
  | any | head => false

/-- Whether array and unique types need parentheses. -/
def enclosesTerms : TypePosition → Bool
  | atom => true
  | any | term | head => false

end TypePosition

/-- A dimension in its brackets. -/
def dimension : Dimension → Document
  | .unknown _ => .text "[]"
  | .named name _ => bracketed (qualName name)
  | .literal digits _ => bracketed (.text digits)

mutual

/-- **A type** at a position. -/
def typeAt (position : TypePosition) : TypeExpr → Document
  | .named name => qualName name
  | .array d element _ =>
    parenthesizedIf position.enclosesTerms (row [dimension d, typeAt .term element])
  | .unit _ => .text "()"
  | .parens inner _ => typeAt (if position = .head then .any else position) inner
  | .tuple elements _ => parenthesized (join (typesAt .any elements) comma)
  | .record fields _ => braced (join (typeFields fields) comma)
  | .sum constructors _ =>
    parenthesizedIf position.enclosesLoose (join (sumConstructors constructors) (.text " | "))
  | .function none param result _ =>
    parenthesized (row [typeAt .term param, .text " -> ", typeAt .any result])
  | .function (some name) param result _ =>
    parenthesized
      (row [row [.text "(", identifier name, .text ": ", typeAt .any param, .text ")"],
        .text " -> ", typeAt .any result])
  | .application head argument _ =>
    parenthesizedIf (position ≠ .head) (.seq [typeAt .head head, .text " ", typeArg argument])
  | .existential sizes body _ =>
    parenthesizedIf position.enclosesLoose
      (.seq (.text "?" :: sizes.map (bracketed ∘ identifier) ++ [.text ".", typeAt .any body]))
  | .unique inner _ =>
    parenthesizedIf position.enclosesTerms (row [.text "*", typeAt .term inner])

/-- Several types, all at one position. -/
def typesAt (position : TypePosition) : List TypeExpr → List Document
  | [] => []
  | t :: ts => typeAt position t :: typesAt position ts

/-- An argument of a type constructor. -/
def typeArg : TypeArg → Document
  | .type t => typeAt .atom t
  | .size d => dimension d

/-- The fields of a record type. -/
def typeFields : List TypeField → List Document
  | [] => []
  | .mk name t _ :: fields =>
    row [identifier name, .text ": ", typeAt .any t] :: typeFields fields

/-- The alternatives of a sum type. -/
def sumConstructors : List SumConstructor → List Document
  | [] => []
  | .mk tag arguments _ :: constructors =>
    .seq [.text "#", identifier tag, eachAfter " " (typesAt .atom arguments)]
      :: sumConstructors constructors

end

/-- Any type. -/
def type (t : TypeExpr) : Document := typeAt .any t

/-- A type or size parameter. -/
def typeParam : TypeParam → Document
  | .size name _ => bracketed (identifier name)
  | .type name liftedness _ => row [.text "'", .text liftedness.marker, identifier name]

/-- Type and size parameters, each after a space. -/
def typeParams (params : List TypeParam) : Document := eachAfter " " (params.map typeParam)

/-- The type of a result, if there is one. -/
def returnType (t : Option TypeExpr) : Document := optionalAfter " : " (t.map type)

end Futhark.Render
