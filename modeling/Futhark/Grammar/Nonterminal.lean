import Futhark.Grammar.Parser

/-!
# Nested constructs

The grammar is recursive, and the nesting limit counts how often it recurs. Every cycle of the
grammar passes through one of the constructs named by `Nonterminal`. The rules of the grammar are
therefore written without recursion: where a nested construct has to be read, a rule asks the `Nest`
it is given, and it is only the choice of the nest, one level of nesting less each time, that ties
the knot.
-/

namespace Futhark

/-- **A construct that counts as one level of nesting** when it is read inside another. -/
inductive Nonterminal where
  | attr
  /-- Any type. -/
  | type
  /-- A type without a function arrow of its own. -/
  | typeTerm
  | typeAtom
  /-- Any pattern. -/
  | pattern
  /-- A pattern without a type of its own. -/
  | constructorPattern
  | atomicPattern
  /-- Any expression. -/
  | expression
  /-- An expression without a type of its own. -/
  | range
  /-- Operands joined by operators whose left binding power is at least `power`. -/
  | binary (power : Nat)
  /-- An operand, with the prefixes and keyword forms that it may start with. -/
  | operand
  | postfixAtom
  /-- A `let` that stands in for the `in` of the one before. -/
  | letChain
  /-- A declaration, with the documentation found before it so far. -/
  | declaration (doc : Option String)
  /-- A declaration whose documentation has been looked for already. -/
  | documentedDeclaration (doc : Option String)
  /-- A specification, with its documentation. -/
  | spec
  /-- A specification whose documentation has been looked for already. -/
  | documentedSpec (doc : Option String)
  /-- Any module expression. -/
  | moduleExpr
  /-- Any module type. -/
  | moduleType
  /-- A module type without a function arrow of its own. -/
  | refinedModuleType
deriving DecidableEq, Repr, Inhabited

/-- The type of tree that a nested construct is read as. -/
abbrev Nonterminal.Tree : Nonterminal → Type
  | attr => Attribute
  | type | typeTerm | typeAtom => TypeExpr
  | pattern | constructorPattern | atomicPattern => Pattern
  | expression | range | binary _ | operand | postfixAtom | letChain => Expr
  | declaration _ | documentedDeclaration _ => Decl
  | spec | documentedSpec _ => Spec
  | moduleExpr => ModuleExpr
  | moduleType | refinedModuleType => ModuleType

/-- **How to read what is nested** one level deeper. -/
abbrev Nest (σ : Type) := (n : Nonterminal) → Parser σ n.Tree

namespace Nest

variable {σ : Type}

/-- The inside of an attribute. -/
def attr (nest : Nest σ) : Parser σ Attribute := nest .attr

/-- Any type. -/
def type (nest : Nest σ) : Parser σ TypeExpr := nest .type

/-- A type without a function arrow of its own. -/
def typeTerm (nest : Nest σ) : Parser σ TypeExpr := nest .typeTerm

/-- A type atom. -/
def typeAtom (nest : Nest σ) : Parser σ TypeExpr := nest .typeAtom

/-- Any pattern. -/
def pattern (nest : Nest σ) : Parser σ Pattern := nest .pattern

/-- A pattern without a type of its own. -/
def constructorPattern (nest : Nest σ) : Parser σ Pattern := nest .constructorPattern

/-- A pattern atom. -/
def atomicPattern (nest : Nest σ) : Parser σ Pattern := nest .atomicPattern

/-- Any expression. -/
def expression (nest : Nest σ) : Parser σ Expr := nest .expression

/-- An expression without a type of its own. -/
def range (nest : Nest σ) : Parser σ Expr := nest .range

/-- Operands joined by operators that bind at least as tightly as `power`. -/
def binary (nest : Nest σ) (power : Nat) : Parser σ Expr := nest (.binary power)

/-- An operand with its prefixes. -/
def operand (nest : Nest σ) : Parser σ Expr := nest .operand

/-- An atom with its indices and projections. -/
def postfixAtom (nest : Nest σ) : Parser σ Expr := nest .postfixAtom

/-- A `let` without an `in` before it. -/
def letChain (nest : Nest σ) : Parser σ Expr := nest .letChain

/-- A declaration with its documentation. -/
def declaration (nest : Nest σ) (doc : Option String) : Parser σ Decl := nest (.declaration doc)

/-- A declaration whose documentation is known. -/
def documentedDeclaration (nest : Nest σ) (doc : Option String) : Parser σ Decl :=
  nest (.documentedDeclaration doc)

/-- A specification with its documentation. -/
def spec (nest : Nest σ) : Parser σ Spec := nest .spec

/-- A specification whose documentation is known. -/
def documentedSpec (nest : Nest σ) (doc : Option String) : Parser σ Spec :=
  nest (.documentedSpec doc)

/-- Any module expression. -/
def moduleExpr (nest : Nest σ) : Parser σ ModuleExpr := nest .moduleExpr

/-- Any module type. -/
def moduleType (nest : Nest σ) : Parser σ ModuleType := nest .moduleType

/-- A module type without a function arrow of its own. -/
def refinedModuleType (nest : Nest σ) : Parser σ ModuleType := nest .refinedModuleType

end Nest

end Futhark
