import Futhark.Render.Pattern

/-!
# Rendering expressions

Compound expressions bring their own parentheses, so few places need more: a constructor without
arguments would take in what follows it, and a name or number before a dot would be read as a
qualified name or a fraction. The `ExprPosition` says which of these matter.
-/

namespace Futhark.Render

open Document

/-- **Where an expression stands.** -/
inductive ExprPosition where
  /-- Where any expression may stand. -/
  | any
  /-- Before an argument or an index. -/
  | head
  /-- Before a projected field. -/
  | projected
deriving DecidableEq, Repr, Inhabited

/-- The punctuation before the last part of a range. -/
def rangeOperator (kind : RangeKind) (stepped : Bool) : String :=
  match kind with
  | .inclusive => if stepped then "..." else ".."
  | .exclusiveBelow => "..<"
  | .exclusiveAbove => "..>"

/-- Field names, each after a dot. -/
def dottedFields (fields : List Identifier) : Document := eachAfter "." (fields.map identifier)

/-- An operator, by its symbol. -/
def operator (o : OperatorName) : Document := .text o.symbol

mutual

/-- **An expression** at a position. -/
def exprAt (position : ExprPosition) : Expr → Document
  | .literal value _ => parenthesizedIf (position = .projected) (literal value)
  | .name q => parenthesizedIf (position = .projected) (qualName q)
  | .parens inner _ => exprAt position inner
  | .unit _ => .text "()"
  | .tuple elements _ => parenthesized (join (exprs elements) comma)
  | .record fields _ => braced (join (recordFields fields) comma)
  | .array elements _ => bracketed (join (exprs elements) comma)
  | .range first step last kind _ =>
    parenthesized
      (row [exprAt .any first, optionalAfter " .. " (exprOption step), .text " ",
        .text (rangeOperator kind step.isSome), .text " ", exprAt .any last])
  | .application function argument _ =>
    parenthesized (row [exprAt .head function, .text " ", exprAt .any argument])
  | .binary o left right _ =>
    parenthesized (row [exprAt .any left, .text " ", operator o, .text " ", exprAt .any right])
  | .negate operand _ => row [.text "(-", exprAt .any operand, .text ")"]
  | .not operand _ => row [.text "(!", exprAt .any operand, .text ")"]
  | .constructor tag arguments _ =>
    parenthesizedIf (!arguments.isEmpty || position ≠ .any)
      (.seq [.text "#", identifier tag, eachAfter " " (exprs arguments)])
  | .ascription inner t _ => parenthesized (row [exprAt .any inner, .text " : ", type t])
  | .coerce inner t _ => parenthesized (row [exprAt .any inner, .text " :> ", type t])
  | .index base indices _ =>
    row [exprAt .head base, bracketed (join (dimIndices indices) comma)]
  | .project base fields _ => row [exprAt .projected base, dottedFields fields]
  | .qualifiedParens qualifier inner _ =>
    row [qualName qualifier, .text ".(", exprAt .any inner, .text ")"]
  | .operatorSection o _ => parenthesized (operator o)
  | .leftSection operand o _ => parenthesized (row [exprAt .any operand, .text " ", operator o])
  | .rightSection o operand _ => parenthesized (row [operator o, .text " ", exprAt .any operand])
  | .projectSection fields _ => parenthesized (dottedFields fields)
  | .update target path value _ =>
    parenthesized
      (row [exprAt .any target, .text " with ", updatePath path, .text " = ", exprAt .any value])
  | .conditional condition thenBranch elseBranch _ =>
    parenthesized
      (row [.text "if ", exprAt .any condition, .text " then ", exprAt .any thenBranch,
        .text " else ", exprAt .any elseBranch])
  | .letIn binding body _ =>
    parenthesized (row [.text "let ", letBinding binding, .text " in ", exprAt .any body])
  | .loop parameter initial form body _ =>
    parenthesized
      (row [.text "loop ", pattern parameter, optionalAfter " = " (exprOption initial),
        loopForm form, .text " do ", exprAt .any body])
  | .matching scrutinee cases _ =>
    parenthesized (row [.text "match ", exprAt .any scrutinee, .seq (matchCases cases)])
  | .lambda parameters t body _ =>
    row [.text "(\\", join (parameters.map param) (.text " "),
      optionalAfter " : " (t.map (typeAt .term)), .text " -> ", exprAt .any body, .text ")"]
  | .assertion condition body _ =>
    parenthesized (row [.text "assert ", exprAt .any condition, .text " ", exprAt .any body])
  | .unchecked body _ => parenthesized (row [.text "unsafe ", exprAt .any body])
  | .attributed a inner _ => parenthesized (row [attr a, .text " ", exprAt .any inner])

/-- Several expressions. -/
def exprs : List Expr → List Document
  | [] => []
  | e :: es => exprAt .any e :: exprs es

/-- An expression that may be left out. -/
def exprOption : Option Expr → Option Document
  | none => none
  | some e => some (exprAt .any e)

/-- The fields of a record. -/
def recordFields : List RecordField → List Document
  | [] => []
  | .explicit name value _ :: fields =>
    row [identifier name, .text " = ", exprAt .any value] :: recordFields fields
  | .shorthand name :: fields => identifier name :: recordFields fields

/-- Indices. -/
def dimIndices : List DimIndex → List Document
  | [] => []
  | .fix value :: indices => exprAt .any value :: dimIndices indices
  | .slice first last stride _ :: indices =>
    row [(exprOption first).getD .nil, .text ":", (exprOption last).getD .nil,
      optionalAfter ":" (exprOption stride)] :: dimIndices indices

/-- What an update changes. -/
def updatePath : UpdatePath → Document
  | .index indices _ => bracketed (join (dimIndices indices) comma)
  | .field fields => join (fields.map identifier) (.text ".")

/-- What `let` binds. -/
def letBinding : LetBinding → Document
  | .pattern p value => row [pattern p, .text " = ", exprAt .any value]
  | .function name tps ps t value =>
    row [identifier name, typeParams tps, params ps, returnType t, .text " = ", exprAt .any value]
  | .update name indices value =>
    row [identifier name, bracketed (join (dimIndices indices) comma), .text " = ",
      exprAt .any value]

/-- How a loop goes on. -/
def loopForm : LoopForm → Document
  | .countTo name bound => row [.text " for ", identifier name, .text " < ", exprAt .any bound]
  | .overElements p source => row [.text " for ", pattern p, .text " in ", exprAt .any source]
  | .whileTrue condition => row [.text " while ", exprAt .any condition]

/-- The cases of a match. -/
def matchCases : List MatchCase → List Document
  | [] => []
  | .mk p body _ :: cases =>
    row [.text " case ", pattern p, .text " -> ", exprAt .any body] :: matchCases cases

end

/-- Any expression. -/
def expression (e : Expr) : Document := exprAt .any e

end Futhark.Render
