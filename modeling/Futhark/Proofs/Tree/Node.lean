import Futhark.Proofs.Token.Lexical
import Futhark.Render.Pattern
import Futhark.Tree.Program
import Mathlib.Data.List.Basic

/-!
# Nodes of syntax trees

Trees of many types are nested in each other. A `Node` is any of them that has a place in the text,
with its span and its children, so that what holds of whole trees can be said and proved once:
`Node.Everywhere P n` means that `P` holds at `n` and everywhere below it.

Parts without a place of their own (what a `let` binds, how a loop goes on) are no nodes; their
parts are children of the node around them. The program that an import stands for is no child
either: it belongs to another text.
-/

namespace Futhark

/-- **A part of a syntax tree that has a place in the text.** -/
inductive Node where
  | identifier (name : Identifier)
  | qualName (name : QualName)
  | operator (operator : OperatorName)
  | attr (attr : Attribute)
  | dimension (dimension : Dimension)
  | type (type : TypeExpr)
  | typeField (field : TypeField)
  | sumConstructor (alternative : SumConstructor)
  | typeParam (param : TypeParam)
  | pattern (pattern : Pattern)
  | patternField (field : RecordPatternField)
  /-- The name that a field `x: t` of a record pattern binds, with its type. -/
  | typedName (bound : Identifier) (type : TypeExpr) (span : Span)
  | expr (expr : Expr)
  | recordField (field : RecordField)
  | dimIndex (index : DimIndex)
  /-- The brackets of an update and the indices in them. -/
  | indexPath (indices : List DimIndex) (span : Span)
  | matchCase (case : MatchCase)
  | moduleType (signature : ModuleType)
  | spec (spec : Spec)
  | moduleParam (param : ModuleParam)
  | decl (declaration : Decl)
  | moduleExpr (body : ModuleExpr)

/-! ### Spans -/

/-- The span of a field of a record type. -/
def TypeField.span : TypeField → Span
  | mk _ _ span => span

/-- The span of a field of a record pattern. -/
def RecordPatternField.span : RecordPatternField → Span
  | mk _ _ span => span

/-- The span of a field of a record, which is that of its name if it has no value. -/
def RecordField.span : RecordField → Span
  | explicit _ _ span => span
  | shorthand name => name.span

/-- The span of an index. A single element takes that of its expression. -/
def DimIndex.span : DimIndex → Span
  | fix value => value.span
  | slice _ _ _ span => span

/-- The span of a node. -/
def Node.span : Node → Span
  | identifier name => name.span
  | qualName name => name.span
  | operator o => o.span
  | attr a => a.span
  | dimension d => d.span
  | type t => t.span
  | typeField f => f.span
  | sumConstructor c => c.span
  | typeParam p => p.span
  | pattern p => p.span
  | patternField f => f.span
  | typedName _ _ span => span
  | expr e => e.span
  | recordField f => f.span
  | dimIndex i => i.span
  | indexPath _ span => span
  | matchCase c => c.span
  | moduleType m => m.span
  | spec s => s.span
  | moduleParam p => p.span
  | decl d => d.span
  | moduleExpr m => m.span

/-! ### Children -/

/-- The nodes directly under a type. -/
def TypeExpr.nodes : TypeExpr → List Node
  | named name => [.qualName name]
  | array d element _ => [.dimension d, .type element]
  | unit _ => []
  | parens inner _ => [.type inner]
  | tuple elements _ => elements.map .type
  | record fields _ => fields.map .typeField
  | sum constructors _ => constructors.map .sumConstructor
  | function name param result _ =>
    name.toList.map .identifier ++ [.type param, .type result]
  | application head (.type argument) _ => [.type head, .type argument]
  | application head (.size d) _ => [.type head, .dimension d]
  | existential sizes body _ => sizes.map .identifier ++ [.type body]
  | unique inner _ => [.type inner]

/-- The nodes directly under a pattern. -/
def Pattern.nodes : Pattern → List Node
  | identifier name => [.identifier name]
  | wildcard _ | literal _ _ _ | unit _ => []
  | parens inner _ => [.pattern inner]
  | tuple elements _ => elements.map .pattern
  | record fields _ => fields.map .patternField
  | constructor tag arguments _ => .identifier tag :: arguments.map .pattern
  | ascription pattern type _ => [.pattern pattern, .type type]
  | attributed a pattern _ => [.attr a, .pattern pattern]

/-- The nodes directly under a field of a record pattern. The pattern of `x: t` is no pattern that
could stand elsewhere, since the name of the field may be a number. -/
def RecordPatternField.nodes : RecordPatternField → List Node
  | mk name none _ => [.identifier name]
  | mk name (some (.ascription (.identifier bound) type span)) _ =>
    if bound.name = name.name then [.identifier name, .typedName bound type span]
    else [.identifier name, .pattern (.ascription (.identifier bound) type span)]
  | mk name (some pattern) _ => [.identifier name, .pattern pattern]

/-- The nodes directly under an index. -/
def DimIndex.nodes : DimIndex → List Node
  | fix value => [.expr value]
  | slice first last stride _ =>
    first.toList.map .expr ++ last.toList.map .expr ++ stride.toList.map .expr

/-- The nodes of what an update changes. -/
def UpdatePath.nodes : UpdatePath → List Node
  | index indices span => [.indexPath indices span]
  | field fields => fields.map .identifier

/-- The nodes of what a `let` binds. -/
def LetBinding.nodes : LetBinding → List Node
  | pattern p value => [.pattern p, .expr value]
  | function name typeParams params returnType value =>
    .identifier name :: typeParams.map .typeParam ++ params.map .pattern
      ++ returnType.toList.map .type ++ [.expr value]
  | update name indices value => .identifier name :: indices.map .dimIndex ++ [.expr value]

/-- The nodes of the way a loop goes on. -/
def LoopForm.nodes : LoopForm → List Node
  | countTo name bound => [.identifier name, .expr bound]
  | overElements p source => [.pattern p, .expr source]
  | whileTrue condition => [.expr condition]

/-- The nodes directly under an expression. -/
def Expr.nodes : Expr → List Node
  | literal _ _ | unit _ => []
  | name q => [.qualName q]
  | parens inner _ => [.expr inner]
  | tuple elements _ => elements.map .expr
  | record fields _ => fields.map .recordField
  | array elements _ => elements.map .expr
  | range first step last _ _ => .expr first :: step.toList.map .expr ++ [.expr last]
  | application function argument _ => [.expr function, .expr argument]
  | binary o left right _ => [.expr left, .operator o, .expr right]
  | negate operand _ => [.expr operand]
  | not operand _ => [.expr operand]
  | constructor tag arguments _ => .identifier tag :: arguments.map .expr
  | ascription inner type _ => [.expr inner, .type type]
  | coerce inner type _ => [.expr inner, .type type]
  | index base indices _ => .expr base :: indices.map .dimIndex
  | project base fields _ => .expr base :: fields.map .identifier
  | qualifiedParens qualifier inner _ => [.qualName qualifier, .expr inner]
  | operatorSection o _ => [.operator o]
  | leftSection operand o _ => [.expr operand, .operator o]
  | rightSection o operand _ => [.operator o, .expr operand]
  | projectSection fields _ => fields.map .identifier
  | update target path value _ => .expr target :: path.nodes ++ [.expr value]
  | conditional condition thenBranch elseBranch _ =>
    [.expr condition, .expr thenBranch, .expr elseBranch]
  | letIn binding body _ => binding.nodes ++ [.expr body]
  | loop parameter initial form body _ =>
    .pattern parameter :: initial.toList.map .expr ++ form.nodes ++ [.expr body]
  | matching scrutinee cases _ => .expr scrutinee :: cases.map .matchCase
  | lambda parameters returnType body _ =>
    parameters.map .pattern ++ returnType.toList.map .type ++ [.expr body]
  | assertion condition body _ => [.expr condition, .expr body]
  | unchecked body _ => [.expr body]
  | attributed a inner _ => [.attr a, .expr inner]

/-- The node of what a definition defines. -/
def BindingName.node : BindingName → Node
  | name i => .identifier i
  | operator o => .operator o

/-- The nodes directly under a module type. -/
def ModuleType.nodes : ModuleType → List Node
  | specs list _ => list.map .spec
  | name q => [.qualName q]
  | parens inner _ => [.moduleType inner]
  | refined base typeName params definition _ =>
    .moduleType base :: .qualName typeName :: params.map .typeParam ++ [.type definition]
  | functor paramName param result _ =>
    paramName.toList.map .identifier ++ [.moduleType param, .moduleType result]

/-- The nodes directly under a specification. -/
def Spec.nodes : Spec → List Node
  | value name typeParams t _ _ => name.node :: typeParams.map .typeParam ++ [.type t]
  | type _ name params definition _ _ =>
    .identifier name :: params.map .typeParam ++ definition.toList.map .type
  | nested name signature _ _ => [.identifier name, .moduleType signature]
  | included signature _ => [.moduleType signature]
  | attributed a spec _ => [.attr a, .spec spec]

/-- The nodes directly under a declaration. -/
def Decl.nodes : Decl → List Node
  | value b =>
    b.name.node :: b.typeParams.map .typeParam ++ b.params.map .pattern
      ++ b.returnType.toList.map .type ++ [.expr b.body]
  | type b => .identifier b.name :: b.params.map .typeParam ++ [.type b.definition]
  | moduleBinding name params signature body _ _ =>
    .identifier name :: params.map .moduleParam ++ signature.toList.map .moduleType
      ++ [.moduleExpr body]
  | moduleTypeBinding name body _ _ => [.identifier name, .moduleType body]
  | opened body _ => [.moduleExpr body]
  | imported _ _ _ => []
  | hidden declaration _ => [.decl declaration]
  | attributed a declaration _ => [.attr a, .decl declaration]

/-- The nodes directly under a module expression. -/
def ModuleExpr.nodes : ModuleExpr → List Node
  | struct declarations _ => declarations.map .decl
  | name q => [.qualName q]
  | parens inner _ => [.moduleExpr inner]
  | imported _ _ _ => []
  | application functor argument _ => [.moduleExpr functor, .moduleExpr argument]
  | ascription body signature _ => [.moduleExpr body, .moduleType signature]
  | lambda param signature body _ =>
    .moduleParam param :: signature.toList.map .moduleType ++ [.moduleExpr body]

namespace Node

/-- **Children.** The nodes directly under a node, in the order in which they are written. -/
def children : Node → List Node
  | identifier _ | operator _ | dimension (.unknown _) | dimension (.literal _ _) => []
  | qualName q => q.qualifiers.map .identifier ++ [.identifier q.name]
  | attr (.word _ _) | attr (.integer _ _) => []
  | attr (.call _ arguments _) => arguments.map .attr
  | dimension (.named name _) => [.qualName name]
  | type t => t.nodes
  | typeField (.mk name t _) => [.identifier name, .type t]
  | sumConstructor (.mk tag arguments _) => .identifier tag :: arguments.map .type
  | typeParam (.size name _) => [.identifier name]
  | typeParam (.type name _ _) => [.identifier name]
  | pattern p => p.nodes
  | patternField f => f.nodes
  | typedName bound t _ => [.identifier bound, .type t]
  | expr e => e.nodes
  | recordField (.explicit name value _) => [.identifier name, .expr value]
  | recordField (.shorthand name) => [.identifier name]
  | dimIndex i => i.nodes
  | indexPath indices _ => indices.map .dimIndex
  | matchCase (.mk p body _) => [.pattern p, .expr body]
  | moduleType m => m.nodes
  | spec s => s.nodes
  | moduleParam p => [.identifier p.name, .moduleType p.signature]
  | decl d => d.nodes
  | moduleExpr m => m.nodes

/-! ### Whole trees -/

/-- **Everywhere.** `P` holds at a node and at all the nodes below it. -/
inductive Everywhere (P : Node → Prop) : Node → Prop
  | intro {n : Node} (here : P n) (below : ∀ c ∈ n.children, Everywhere P c) : Everywhere P n

namespace Everywhere

variable {P Q : Node → Prop} {n : Node}

theorem here (h : Everywhere P n) : P n := by
  cases h
  assumption

theorem child (h : Everywhere P n) {c : Node} (hc : c ∈ n.children) : Everywhere P c := by
  cases h
  rename_i below
  exact below c hc

theorem mono (hPQ : ∀ n, P n → Q n) (h : Everywhere P n) : Everywhere Q n := by
  induction h with
  | intro here _ ih => exact ⟨hPQ _ here, ih⟩

theorem and (hP : Everywhere P n) (hQ : Everywhere Q n) :
    Everywhere (fun n => P n ∧ Q n) n := by
  induction hP with
  | intro here _ ih => exact ⟨⟨here, hQ.here⟩, fun c hc => ih c hc (hQ.child hc)⟩

end Everywhere

/-- Unfolds `Everywhere` on a tree that is given. -/
theorem everywhere_iff {P : Node → Prop} {n : Node} :
    Everywhere P n ↔ P n ∧ n.children.Forall (Everywhere P) := by
  rw [List.forall_iff_forall_mem]
  exact ⟨fun h => ⟨h.here, fun _ => h.child⟩, fun h => ⟨h.1, h.2⟩⟩

/-! ### Induction on expressions -/

/-- `P` holds of the expressions in an index. -/
def OnIndexExprs (P : Expr → Prop) : DimIndex → Prop
  | .fix value => P value
  | .slice first last stride _ => (∀ e ∈ first, P e) ∧ (∀ e ∈ last, P e) ∧ ∀ e ∈ stride, P e

/-- `P` holds of the expressions that a node is or has, other nodes between them apart. -/
def OnExprs (P : Expr → Prop) : Node → Prop
  | expr e => P e
  | recordField (.explicit _ value _) => P value
  | dimIndex d => OnIndexExprs P d
  | indexPath indices _ => ∀ d ∈ indices, OnIndexExprs P d
  | matchCase (.mk _ body _) => P body
  | _ => True

/-- **Induction on expressions**, over all the nodes of a tree: `P` holds of an expression if it
holds of those in its children. -/
theorem Everywhere.onExprs {P : Expr → Prop} {Q : Node → Prop}
    (step : ∀ e, (expr e).Everywhere Q → (∀ c ∈ e.nodes, c.OnExprs P) → P e) {n : Node}
    (h : n.Everywhere Q) : n.OnExprs P := by
  induction h with
  | @intro n here below ih =>
    cases n with
    | expr e => exact step e ⟨here, below⟩ ih
    | recordField f =>
      cases f with
      | explicit name value span => exact ih (expr value) (by simp [children])
      | shorthand name => trivial
    | dimIndex d =>
      cases d with
      | fix value => exact ih (expr value) (by simp [children, DimIndex.nodes])
      | slice first last stride span =>
        refine ⟨fun e he => ih (expr e) ?_, fun e he => ih (expr e) ?_, fun e he => ih (expr e) ?_⟩
          <;> simp_all [children, DimIndex.nodes]
    | indexPath indices span => exact fun d hd => ih (dimIndex d) (List.mem_map_of_mem hd)
    | matchCase c => cases c; exact ih (expr _) (by simp [children])
    | _ => trivial

end Node

end Futhark
