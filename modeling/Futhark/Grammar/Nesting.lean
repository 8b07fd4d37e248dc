import Futhark.Grammar.Program

/-!
# Nesting

Here the rules of the grammar are tied together. `nestWithin` reads nested constructs with a certain
number of levels left: with none left it fails, otherwise it reads the construct by its rule, which
has one level less for what is nested in turn.
-/

namespace Futhark.Grammar

open Futhark.Parser

variable {σ : Type}

/-- **The rule** for each nested construct. -/
def rule (resolver : Option (Resolver σ)) (nest : Nest σ) : (n : Nonterminal) → Parser σ n.Tree
  | .attr => attributeInfo nest
  | .type => type nest
  | .typeTerm => typeTerm nest
  | .typeAtom => typeAtom nest
  | .pattern => pattern nest
  | .constructorPattern => constructorPattern nest
  | .atomicPattern => atomicPattern nest
  | .expression => expression nest
  | .range => range nest
  | .binary power => binary nest power
  | .operand => operand nest
  | .postfixAtom => postfixAtom nest
  | .letChain => letIn nest
  | .declaration doc => declaration resolver nest doc
  | .documentedDeclaration doc => documentedDeclaration resolver nest doc
  | .spec => spec nest
  | .documentedSpec doc => documentedSpec nest doc
  | .moduleExpr => moduleExpr resolver nest
  | .moduleType => moduleType nest
  | .refinedModuleType => refinedModuleType nest

/-- Fails at the next token because the nesting limit has been reached. -/
def tooDeep {α : Type} (limit : Nat) : Parser σ α := do
  raise (.nestingTooDeep limit) (← here)

/-- **Nested constructs** with `levels` of the `limit` levels left. -/
def nestWithin (resolver : Option (Resolver σ)) (limit levels : Nat) : Nest σ :=
  match levels with
  | 0 => fun _ => tooDeep limit
  | levels + 1 => fun n => rule resolver (nestWithin resolver limit levels) n

end Futhark.Grammar
