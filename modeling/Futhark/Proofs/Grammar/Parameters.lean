import Futhark.Proofs.Grammar.Spells

/-!
# What starts a parameter list

Definitions and local functions have parameters of types and sizes first (`startsTypeParam`) and then
parameters of values (`startsParam`). Where neither starts, the list is empty and takes no token.

A `let` looks at the token behind a name to tell a function from a pattern. Of the tokens that
parameters start with, two do not announce a function there: a bracket that touches the name, and a
constructor (`startsFunctionParams_iff`).
-/

namespace Futhark.Grammar

open Futhark.Parser

variable {σ : Type} {nest : Nest σ} {stream : TokenStream} {i : Nat}

/-- Whether a type or size parameter starts with a token. -/
def startsTypeParam (k : TokenKind) : Bool := (liftednessOf? k).isSome || k = .punct .leftBracket

theorem startsTypeParam_eq_false {k : TokenKind} :
    startsTypeParam k = false ↔ liftednessOf? k = none ∧ k ≠ .punct .leftBracket := by
  simp [startsTypeParam]

/-- Where no type or size parameter starts, none is read. -/
theorem runs_typeParams_none (h : startsTypeParam (stream.kindAt i) = false) :
    Runs stream i (typeParams : Parser σ (List TypeParam)) [] i := by
  obtain ⟨hmark, hbracket⟩ := startsTypeParam_eq_false.mp h
  refine Runs.many .nil (Runs.kind.bind ?_)
  rw [hmark]
  exact (Runs.opening?_none hbracket).bind (.pure _)

/-- **Parameters**, of types and sizes first and then of values. -/
def parameters (nest : Nest σ) : Parser σ (List TypeParam × List Pattern) := do
  let typeParams ← typeParams
  let params ← params nest
  return (typeParams, params)

/-- Whether parameters start with the token `k` before the token `next`. -/
def startsParameters (k next : TokenKind) : Bool :=
  (liftednessOf? k).isSome || k = .punct .leftBracket || startsParam k next

/-- Where no parameters start, none are read. -/
theorem runs_parameters_none
    (h : startsParameters (stream.kindAt i) (stream.kindAt (i + 1)) = false) :
    Runs stream i (parameters nest) ([], []) i := by
  obtain ⟨htypeParam, hparam⟩ := Bool.or_eq_false_iff.mp h
  have hparams : Runs stream i (params nest) [] i := by
    refine Runs.many .nil (Runs.kind.bind ((Runs.kindAt 1).bind ?_))
    rw [hparam]
    exact .pure _
  exact (runs_typeParams_none htypeParam).bind (hparams.bind (.pure _))

/-- **The tokens that announce a function** are those that parameters start with, but for
constructors and brackets that touch the name. -/
theorem startsFunctionParams_iff (k next : TokenKind) (touching : Bool) :
    startsFunctionParams k touching = true ↔
      startsParameters k next = true ∧ (∀ c, k ≠ .constructor c) ∧
        ¬ (k = .punct .leftBracket ∧ touching = true) := by
  cases k with
  | punct p => cases p <;> cases touching <;> simp [startsFunctionParams, startsParameters,
      liftednessOf?, startsParam, startsPatternAtom, TokenKind.isInteger, TokenKind.isOperator]
  | _ => simp [startsFunctionParams, startsParameters, liftednessOf?, startsParam,
      startsPatternAtom, TokenKind.isInteger, TokenKind.isOperator]

/-- What announces a function starts a parameter of one sort or the other. -/
theorem starts_of_startsFunctionParams {k : TokenKind} {touching : Bool} (next : TokenKind)
    (h : startsFunctionParams k touching = true) :
    startsTypeParam k = true ∨ startsParam k next = true :=
  Bool.or_eq_true_iff.mp ((startsFunctionParams_iff k next touching).mp h).1

end Futhark.Grammar
