import Futhark.Proofs.Tree.Node

/-!
# Well-formed syntax trees

The types of syntax trees admit trees that no text is read as: a tuple of one element, a name that
is a number, a match without cases. `Node.WellFormed` says of a single node what has to hold of its
own names, literals and lists, and is meant to be used with `Node.Everywhere`.
-/

namespace Futhark

/-! ### Types -/

/-- Whether a type may stand before the arguments of a type constructor: a name, or a name that has
arguments already. -/
def TypeExpr.isHead : TypeExpr → Bool
  | named _ | application _ _ _ => true
  | _ => false

/-- The rules for a type. -/
def TypeExpr.WellFormed : TypeExpr → Prop
  | tuple elements _ => 2 ≤ elements.length
  | sum constructors _ => constructors ≠ []
  | function paramName _ _ _ => ∀ name ∈ paramName, IsName name.name
  | application head _ _ => head.isHead
  | existential sizes _ _ => sizes ≠ [] ∧ ∀ name ∈ sizes, IsName name.name
  | _ => True

/-- The rules for a dimension. -/
def Dimension.WellFormed : Dimension → Prop
  | literal digits _ => IsDigits 10 digits
  | _ => True

/-- The rules for a type parameter. The apostrophe of `'t` may not make a character of its name. -/
def TypeParam.WellFormed : TypeParam → Prop
  | size name _ => IsName name.name
  | type name liftedness _ =>
    IsName name.name ∧ (liftedness = .unlifted → name.name.toList.tail.head? ≠ some '\'')

/-! ### Attributes, names and literals -/

/-- The words that attributes are made of. Reserved words are among them. -/
def IsAttributeWord (text : String) : Prop := IsName text ∨ ∃ word : Keyword, text = word.text

/-- The rules for an attribute. -/
def Attribute.WellFormed : Attribute → Prop
  | word name _ => IsAttributeWord name
  | integer value _ => value.Lexical
  | call name _ _ => IsAttributeWord name

/-- Every part of a qualified name is a name. -/
def QualName.WellFormed (q : QualName) : Prop :=
  (∀ name ∈ q.qualifiers, IsName name.name) ∧ IsName q.name.name

/-- The rules for a literal. -/
def Literal.WellFormed : Literal → Prop
  | integer value => value.Lexical
  | float value => value.Lexical
  | _ => True

/-- The rules for a list of fields, in a projection or an update. -/
def FieldsWellFormed (fields : List Identifier) : Prop :=
  fields ≠ [] ∧ ∀ name ∈ fields, IsField name.name

/-! ### Patterns and expressions -/

/-- The rules for a pattern. -/
def Pattern.WellFormed : Pattern → Prop
  | identifier name => IsName name.name
  | literal _ value _ => value.Lexical
  | tuple elements _ => 2 ≤ elements.length
  | constructor tag _ _ => IsTag tag.name
  | _ => True

/-- The rules for what an update changes. -/
def UpdatePath.WellFormed : UpdatePath → Prop
  | index _ _ => True
  | field fields => FieldsWellFormed fields

/-- The rules for what a `let` binds. A function has a parameter of some sort. -/
def LetBinding.WellFormed : LetBinding → Prop
  | pattern _ _ => True
  | function name typeParams params _ _ => IsName name.name ∧ (typeParams ≠ [] ∨ params ≠ [])
  | update name indices _ => IsName name.name ∧ indices ≠ []

/-- The rules for the way a loop goes on. -/
def LoopForm.WellFormed : LoopForm → Prop
  | countTo name _ => IsName name.name
  | _ => True

/-- The rules for an expression. -/
def Expr.WellFormed : Expr → Prop
  | literal value _ => value.WellFormed
  | tuple elements _ => 2 ≤ elements.length
  | constructor tag _ _ => IsTag tag.name
  | binary o _ _ _ => o.class?.isSome
  | index _ indices _ => indices ≠ []
  | project _ fields _ => FieldsWellFormed fields
  | leftSection _ o _ => o.class?.isSome
  | rightSection o _ _ => o.class?.isSome ∧ o.symbol ≠ "-"
  | projectSection fields _ => FieldsWellFormed fields
  | update _ path _ _ => path.WellFormed
  | letIn binding _ _ => binding.WellFormed
  | loop _ _ form _ _ => form.WellFormed
  | matching _ cases _ => cases ≠ []
  | lambda parameters _ _ _ => parameters ≠ []
  | _ => True

/-! ### Modules -/

/-- The rules for what a definition defines. -/
def BindingName.WellFormed : BindingName → Prop
  | name i => IsName i.name
  | operator o => o.class?.isSome

/-- The rules for a module type. -/
def ModuleType.WellFormed : ModuleType → Prop
  | functor paramName _ _ _ => ∀ name ∈ paramName, IsName name.name
  | _ => True

/-- The rules for a specification. -/
def Spec.WellFormed : Spec → Prop
  | value name _ _ _ _ => name.WellFormed
  | type _ name _ _ _ _ => IsName name.name
  | nested name _ _ _ => IsName name.name
  | _ => True

/-- The rules for a declaration. -/
def Decl.WellFormed : Decl → Prop
  | value b => b.name.WellFormed
  | type b => IsName b.name.name
  | moduleBinding name _ _ _ _ _ => IsName name.name
  | moduleTypeBinding name _ _ _ => IsName name.name
  | _ => True

/-! ### Nodes -/

/-- **The rules for a node**, about its own names, literals and lists. -/
def Node.WellFormed : Node → Prop
  | identifier _ | typedName _ _ _ | moduleExpr _ | dimIndex _ | matchCase _ => True
  | qualName q => q.WellFormed
  | operator o => IsOperator o.symbol
  | attr a => a.WellFormed
  | dimension d => d.WellFormed
  | type t => t.WellFormed
  | typeField (.mk name _ _) => IsField name.name
  | sumConstructor (.mk tag _ _) => IsTag tag.name
  | typeParam p => p.WellFormed
  | pattern p => p.WellFormed
  | patternField (.mk name _ _) => IsField name.name
  | expr e => e.WellFormed
  | recordField (.explicit name _ _) => IsField name.name
  | recordField (.shorthand name) => IsField name.name
  | indexPath indices _ => indices ≠ []
  | moduleType m => m.WellFormed
  | spec s => s.WellFormed
  | moduleParam p => IsName p.name.name
  | decl d => d.WellFormed

end Futhark
