import Futhark.Tree.Program

/-!
# Labels of trees

Besides the syntax itself, a tree holds three kinds of labels: the spans of its parts, the
documentation of what is defined, and the programs that imports have been resolved to. A
`Relabeling` says what becomes of each of them, and `relabel` carries it out everywhere in a tree.

Two trees are the same up to some labels if they become equal when these are replaced by fixed ones
(`Relabeling.bare` keeps only resolved imports); a tree that stands elsewhere in a text is the same
tree with its spans moved.
-/

namespace Futhark

/-- **What becomes of the labels** of a tree. A resolved import is a label as a whole: the inside of
the program it stands for is left to `resolved`. -/
structure Relabeling where
  span : Span → Span
  doc : Option String → Option String
  resolved : Option Program → Option Program

namespace Relabeling

/-- All labels stay. -/
def keep : Relabeling := ⟨id, id, id⟩

/-- **Neither spans nor documentation.** -/
def bare : Relabeling := ⟨fun _ => .point 0, fun _ => none, id⟩

end Relabeling

/-- **Trees with labels**, and what else is made of them. -/
class Labeled (α : Type) where
  relabel : Relabeling → α → α

attribute [simp] Labeled.relabel

variable (r : Relabeling)

instance : Labeled Span := ⟨fun r => r.span⟩

instance {α : Type} [Labeled α] : Labeled (List α) := ⟨fun r => List.map (Labeled.relabel r)⟩

instance {α : Type} [Labeled α] : Labeled (Option α) := ⟨fun r => Option.map (Labeled.relabel r)⟩

instance {α β : Type} [Labeled α] [Labeled β] : Labeled (α × β) :=
  ⟨fun r => Prod.map (Labeled.relabel r) (Labeled.relabel r)⟩

/-! ### Names and attributes -/

/-- Other labels. -/
def Identifier.relabel (i : Identifier) : Identifier := ⟨i.name, r.span i.span⟩

@[simp]
theorem Identifier.relabel_mk (name : String) (span : Span) :
    Identifier.relabel r ⟨name, span⟩ = ⟨name, r.span span⟩ := rfl

instance : Labeled Identifier := ⟨Identifier.relabel⟩

/-- Other labels. -/
def QualName.relabel (q : QualName) : QualName :=
  ⟨q.qualifiers.map (Identifier.relabel r), q.name.relabel r, r.span q.span⟩

@[simp]
theorem QualName.relabel_mk (qualifiers : List Identifier) (name : Identifier) (span : Span) :
    QualName.relabel r ⟨qualifiers, name, span⟩ =
      ⟨qualifiers.map (Identifier.relabel r), name.relabel r, r.span span⟩ := rfl

instance : Labeled QualName := ⟨QualName.relabel⟩

/-- Other labels. -/
def OperatorName.relabel (o : OperatorName) : OperatorName := ⟨o.symbol, r.span o.span⟩

@[simp]
theorem OperatorName.relabel_mk (symbol : String) (span : Span) :
    OperatorName.relabel r ⟨symbol, span⟩ = ⟨symbol, r.span span⟩ := rfl

instance : Labeled OperatorName := ⟨OperatorName.relabel⟩

namespace Attribute

mutual

@[simp]
def relabel : Attribute → Attribute
  | word name span => word name (r.span span)
  | integer value span => integer value (r.span span)
  | call name arguments span => call name (relabelAll arguments) (r.span span)

def relabelAll : List Attribute → List Attribute
  | [] => []
  | a :: as => relabel a :: relabelAll as

end

@[simp]
theorem relabelAll_eq_map (as : List Attribute) : relabelAll r as = as.map (relabel r) := by
  induction as with
  | nil => rfl
  | cons a as ih => rw [relabelAll, ih, List.map_cons]

end Attribute

instance : Labeled Attribute := ⟨Attribute.relabel⟩

/-! ### Types -/

@[simp]
def Dimension.relabel : Dimension → Dimension
  | unknown span => unknown (r.span span)
  | named name span => named (name.relabel r) (r.span span)
  | literal digits span => literal digits (r.span span)

instance : Labeled Dimension := ⟨Dimension.relabel⟩

namespace TypeExpr

mutual

@[simp]
def relabel : TypeExpr → TypeExpr
  | named name => named (name.relabel r)
  | array d element span => array (d.relabel r) (relabel element) (r.span span)
  | unit span => unit (r.span span)
  | parens inner span => parens (relabel inner) (r.span span)
  | tuple elements span => tuple (relabelAll elements) (r.span span)
  | record fields span => record (relabelFields fields) (r.span span)
  | sum constructors span => sum (relabelConstructors constructors) (r.span span)
  | function name param result span =>
    function (name.map (Identifier.relabel r)) (relabel param) (relabel result) (r.span span)
  | application head argument span =>
    application (relabel head) (relabelArg argument) (r.span span)
  | existential sizes body span =>
    existential (sizes.map (Identifier.relabel r)) (relabel body) (r.span span)
  | unique inner span => unique (relabel inner) (r.span span)

def relabelAll : List TypeExpr → List TypeExpr
  | [] => []
  | t :: ts => relabel t :: relabelAll ts

def relabelArg : TypeArg → TypeArg
  | .type t => .type (relabel t)
  | .size d => .size (d.relabel r)

def relabelField : TypeField → TypeField
  | .mk name t span => .mk (name.relabel r) (relabel t) (r.span span)

def relabelFields : List TypeField → List TypeField
  | [] => []
  | f :: fields => relabelField f :: relabelFields fields

def relabelConstructor : SumConstructor → SumConstructor
  | .mk tag arguments span => .mk (tag.relabel r) (relabelAll arguments) (r.span span)

def relabelConstructors : List SumConstructor → List SumConstructor
  | [] => []
  | c :: constructors => relabelConstructor c :: relabelConstructors constructors

end

@[simp]
theorem relabelAll_eq_map (ts : List TypeExpr) : relabelAll r ts = ts.map (relabel r) := by
  induction ts with
  | nil => rfl
  | cons t ts ih => rw [relabelAll, ih, List.map_cons]

@[simp]
theorem relabelFields_eq_map (fields : List TypeField) :
    relabelFields r fields = fields.map (relabelField r) := by
  induction fields with
  | nil => rfl
  | cons f fields ih => rw [relabelFields, ih, List.map_cons]

@[simp]
theorem relabelConstructors_eq_map (constructors : List SumConstructor) :
    relabelConstructors r constructors = constructors.map (relabelConstructor r) := by
  induction constructors with
  | nil => rfl
  | cons c constructors ih => rw [relabelConstructors, ih, List.map_cons]

attribute [simp] relabelArg relabelField relabelConstructor

end TypeExpr

instance : Labeled TypeExpr := ⟨TypeExpr.relabel⟩

instance : Labeled TypeArg := ⟨TypeExpr.relabelArg⟩

instance : Labeled TypeField := ⟨TypeExpr.relabelField⟩

instance : Labeled SumConstructor := ⟨TypeExpr.relabelConstructor⟩

@[simp]
def TypeParam.relabel : TypeParam → TypeParam
  | size name span => size (name.relabel r) (r.span span)
  | type name liftedness span => type (name.relabel r) liftedness (r.span span)

instance : Labeled TypeParam := ⟨TypeParam.relabel⟩

/-! ### Patterns -/

namespace Pattern

mutual

@[simp]
def relabel : Pattern → Pattern
  | identifier name => identifier (name.relabel r)
  | wildcard span => wildcard (r.span span)
  | literal negative value span => literal negative value (r.span span)
  | unit span => unit (r.span span)
  | parens inner span => parens (relabel inner) (r.span span)
  | tuple elements span => tuple (relabelAll elements) (r.span span)
  | record fields span => record (relabelFields fields) (r.span span)
  | constructor tag arguments span =>
    constructor (tag.relabel r) (relabelAll arguments) (r.span span)
  | ascription pattern t span => ascription (relabel pattern) (t.relabel r) (r.span span)
  | attributed a pattern span => attributed (a.relabel r) (relabel pattern) (r.span span)

def relabelAll : List Pattern → List Pattern
  | [] => []
  | p :: ps => relabel p :: relabelAll ps

def relabelOption : Option Pattern → Option Pattern
  | none => none
  | some p => some (relabel p)

def relabelField : RecordPatternField → RecordPatternField
  | .mk name p span => .mk (name.relabel r) (relabelOption p) (r.span span)

def relabelFields : List RecordPatternField → List RecordPatternField
  | [] => []
  | f :: fields => relabelField f :: relabelFields fields

end

@[simp]
theorem relabelAll_eq_map (ps : List Pattern) : relabelAll r ps = ps.map (relabel r) := by
  induction ps with
  | nil => rfl
  | cons p ps ih => rw [relabelAll, ih, List.map_cons]

@[simp]
theorem relabelFields_eq_map (fields : List RecordPatternField) :
    relabelFields r fields = fields.map (relabelField r) := by
  induction fields with
  | nil => rfl
  | cons f fields ih => rw [relabelFields, ih, List.map_cons]

attribute [simp] relabelField relabelOption

end Pattern

instance : Labeled Pattern := ⟨Pattern.relabel⟩

instance : Labeled RecordPatternField := ⟨Pattern.relabelField⟩

/-! ### Expressions -/

namespace Expr

mutual

@[simp]
def relabel : Expr → Expr
  | literal value span => literal value (r.span span)
  | name q => name (q.relabel r)
  | parens inner span => parens (relabel inner) (r.span span)
  | unit span => unit (r.span span)
  | tuple elements span => tuple (relabelAll elements) (r.span span)
  | record fields span => record (relabelFields fields) (r.span span)
  | array elements span => array (relabelAll elements) (r.span span)
  | range first step last kind span =>
    range (relabel first) (relabelOption step) (relabel last) kind (r.span span)
  | application function argument span =>
    application (relabel function) (relabel argument) (r.span span)
  | binary o left right span =>
    binary (o.relabel r) (relabel left) (relabel right) (r.span span)
  | negate operand span => negate (relabel operand) (r.span span)
  | not operand span => not (relabel operand) (r.span span)
  | constructor tag arguments span =>
    constructor (tag.relabel r) (relabelAll arguments) (r.span span)
  | ascription inner t span => ascription (relabel inner) (t.relabel r) (r.span span)
  | coerce inner t span => coerce (relabel inner) (t.relabel r) (r.span span)
  | index base list span => index (relabel base) (relabelIndices list) (r.span span)
  | project base fields span =>
    project (relabel base) (fields.map (Identifier.relabel r)) (r.span span)
  | qualifiedParens q inner span =>
    qualifiedParens (q.relabel r) (relabel inner) (r.span span)
  | operatorSection o span => operatorSection (o.relabel r) (r.span span)
  | leftSection operand o span => leftSection (relabel operand) (o.relabel r) (r.span span)
  | rightSection o operand span => rightSection (o.relabel r) (relabel operand) (r.span span)
  | projectSection fields span =>
    projectSection (fields.map (Identifier.relabel r)) (r.span span)
  | update target path value span =>
    update (relabel target) (relabelPath path) (relabel value) (r.span span)
  | conditional condition thenBranch elseBranch span =>
    conditional (relabel condition) (relabel thenBranch) (relabel elseBranch) (r.span span)
  | letIn binding body span => letIn (relabelBinding binding) (relabel body) (r.span span)
  | loop parameter initial form body span =>
    loop (parameter.relabel r) (relabelOption initial) (relabelForm form) (relabel body)
      (r.span span)
  | matching scrutinee cases span =>
    matching (relabel scrutinee) (relabelCases cases) (r.span span)
  | lambda parameters returnType body span =>
    lambda (parameters.map (Pattern.relabel r)) (returnType.map (TypeExpr.relabel r)) (relabel body)
      (r.span span)
  | assertion condition body span =>
    assertion (relabel condition) (relabel body) (r.span span)
  | unchecked body span => unchecked (relabel body) (r.span span)
  | attributed a inner span => attributed (a.relabel r) (relabel inner) (r.span span)

def relabelAll : List Expr → List Expr
  | [] => []
  | e :: es => relabel e :: relabelAll es

def relabelOption : Option Expr → Option Expr
  | none => none
  | some e => some (relabel e)

def relabelField : RecordField → RecordField
  | .explicit n value span => .explicit (n.relabel r) (relabel value) (r.span span)
  | .shorthand n => .shorthand (n.relabel r)

def relabelFields : List RecordField → List RecordField
  | [] => []
  | f :: fields => relabelField f :: relabelFields fields

def relabelIndex : DimIndex → DimIndex
  | .fix value => .fix (relabel value)
  | .slice first last stride span =>
    .slice (relabelOption first) (relabelOption last) (relabelOption stride) (r.span span)

def relabelIndices : List DimIndex → List DimIndex
  | [] => []
  | d :: ds => relabelIndex d :: relabelIndices ds

def relabelPath : UpdatePath → UpdatePath
  | .index list span => .index (relabelIndices list) (r.span span)
  | .field fields => .field (fields.map (Identifier.relabel r))

def relabelBinding : LetBinding → LetBinding
  | .pattern p value => .pattern (p.relabel r) (relabel value)
  | .function n typeParams params returnType value =>
    .function (n.relabel r) (typeParams.map (TypeParam.relabel r))
      (params.map (Pattern.relabel r)) (returnType.map (TypeExpr.relabel r)) (relabel value)
  | .update n list value => .update (n.relabel r) (relabelIndices list) (relabel value)

def relabelForm : LoopForm → LoopForm
  | .countTo n bound => .countTo (n.relabel r) (relabel bound)
  | .overElements p source => .overElements (p.relabel r) (relabel source)
  | .whileTrue condition => .whileTrue (relabel condition)

def relabelCase : MatchCase → MatchCase
  | .mk p body span => .mk (p.relabel r) (relabel body) (r.span span)

def relabelCases : List MatchCase → List MatchCase
  | [] => []
  | c :: cases => relabelCase c :: relabelCases cases

end

@[simp]
theorem relabelAll_eq_map (es : List Expr) : relabelAll r es = es.map (relabel r) := by
  induction es with
  | nil => rfl
  | cons e es ih => rw [relabelAll, ih, List.map_cons]

@[simp]
theorem relabelOption_eq_map (e : Option Expr) : relabelOption r e = e.map (relabel r) := by
  cases e <;> rfl

@[simp]
theorem relabelFields_eq_map (fields : List RecordField) :
    relabelFields r fields = fields.map (relabelField r) := by
  induction fields with
  | nil => rfl
  | cons f fields ih => rw [relabelFields, ih, List.map_cons]

@[simp]
theorem relabelIndices_eq_map (ds : List DimIndex) :
    relabelIndices r ds = ds.map (relabelIndex r) := by
  induction ds with
  | nil => rfl
  | cons d ds ih => rw [relabelIndices, ih, List.map_cons]

@[simp]
theorem relabelCases_eq_map (cases : List MatchCase) :
    relabelCases r cases = cases.map (relabelCase r) := by
  induction cases with
  | nil => rfl
  | cons c cases ih => rw [relabelCases, ih, List.map_cons]

attribute [simp] relabelField relabelIndex relabelPath relabelBinding relabelForm relabelCase

end Expr

instance : Labeled Expr := ⟨Expr.relabel⟩

instance : Labeled RecordField := ⟨Expr.relabelField⟩

instance : Labeled DimIndex := ⟨Expr.relabelIndex⟩

instance : Labeled UpdatePath := ⟨Expr.relabelPath⟩

instance : Labeled LetBinding := ⟨Expr.relabelBinding⟩

instance : Labeled LoopForm := ⟨Expr.relabelForm⟩

instance : Labeled MatchCase := ⟨Expr.relabelCase⟩

/-! ### Module types -/

@[simp]
def BindingName.relabel : BindingName → BindingName
  | name n => name (n.relabel r)
  | operator o => operator (o.relabel r)

instance : Labeled BindingName := ⟨BindingName.relabel⟩

namespace ModuleType

mutual

@[simp]
def relabel : ModuleType → ModuleType
  | specs list span => specs (relabelSpecs list) (r.span span)
  | name q => name (q.relabel r)
  | parens inner span => parens (relabel inner) (r.span span)
  | refined base typeName params definition span =>
    refined (relabel base) (typeName.relabel r) (params.map (TypeParam.relabel r))
      (definition.relabel r) (r.span span)
  | functor paramName param result span =>
    functor (paramName.map (Identifier.relabel r)) (relabel param) (relabel result) (r.span span)

def relabelSpec : Spec → Spec
  | .value n typeParams t doc span =>
    .value (n.relabel r) (typeParams.map (TypeParam.relabel r)) (t.relabel r) (r.doc doc)
      (r.span span)
  | .type liftedness n params definition doc span =>
    .type liftedness (n.relabel r) (params.map (TypeParam.relabel r))
      (definition.map (TypeExpr.relabel r)) (r.doc doc) (r.span span)
  | .nested n signature doc span =>
    .nested (n.relabel r) (relabel signature) (r.doc doc) (r.span span)
  | .included signature span => .included (relabel signature) (r.span span)
  | .attributed a spec span => .attributed (a.relabel r) (relabelSpec spec) (r.span span)

def relabelSpecs : List Spec → List Spec
  | [] => []
  | s :: rest => relabelSpec s :: relabelSpecs rest

end

@[simp]
theorem relabelSpecs_eq_map (list : List Spec) :
    relabelSpecs r list = list.map (relabelSpec r) := by
  induction list with
  | nil => rfl
  | cons s rest ih => rw [relabelSpecs, ih, List.map_cons]

attribute [simp] relabelSpec

end ModuleType

instance : Labeled ModuleType := ⟨ModuleType.relabel⟩

instance : Labeled Spec := ⟨ModuleType.relabelSpec⟩

/-- Other labels. -/
def ModuleParam.relabel (p : ModuleParam) : ModuleParam :=
  ⟨p.name.relabel r, p.signature.relabel r, r.span p.span⟩

@[simp]
theorem ModuleParam.relabel_mk (name : Identifier) (signature : ModuleType) (span : Span) :
    ModuleParam.relabel r ⟨name, signature, span⟩ =
      ⟨name.relabel r, signature.relabel r, r.span span⟩ := rfl

instance : Labeled ModuleParam := ⟨ModuleParam.relabel⟩

/-! ### Declarations -/

/-- Other labels. -/
def ValueBinding.relabel (b : ValueBinding) : ValueBinding :=
  { kind := b.kind
    name := b.name.relabel r
    typeParams := b.typeParams.map (TypeParam.relabel r)
    params := b.params.map (Pattern.relabel r)
    returnType := b.returnType.map (TypeExpr.relabel r)
    body := b.body.relabel r
    doc := r.doc b.doc
    span := r.span b.span }

instance : Labeled ValueBinding := ⟨ValueBinding.relabel⟩

/-- Other labels. -/
def TypeBinding.relabel (b : TypeBinding) : TypeBinding :=
  { liftedness := b.liftedness
    name := b.name.relabel r
    params := b.params.map (TypeParam.relabel r)
    definition := b.definition.relabel r
    doc := r.doc b.doc
    span := r.span b.span }

instance : Labeled TypeBinding := ⟨TypeBinding.relabel⟩

namespace Decl

mutual

@[simp]
def relabel : Decl → Decl
  | value binding => value (binding.relabel r)
  | type binding => type (binding.relabel r)
  | moduleBinding name params signature body doc span =>
    moduleBinding (name.relabel r) (params.map (ModuleParam.relabel r))
      (signature.map (ModuleType.relabel r)) (relabelModule body) (r.doc doc) (r.span span)
  | moduleTypeBinding name body doc span =>
    moduleTypeBinding (name.relabel r) (body.relabel r) (r.doc doc) (r.span span)
  | opened body span => opened (relabelModule body) (r.span span)
  | imported path resolved span => imported path (r.resolved resolved) (r.span span)
  | hidden declaration span => hidden (relabel declaration) (r.span span)
  | attributed a declaration span =>
    attributed (a.relabel r) (relabel declaration) (r.span span)

def relabelModule : ModuleExpr → ModuleExpr
  | .struct declarations span => .struct (relabelAll declarations) (r.span span)
  | .name q => .name (q.relabel r)
  | .parens inner span => .parens (relabelModule inner) (r.span span)
  | .imported path resolved span => .imported path (r.resolved resolved) (r.span span)
  | .application functor argument span =>
    .application (relabelModule functor) (relabelModule argument) (r.span span)
  | .ascription body signature span =>
    .ascription (relabelModule body) (signature.relabel r) (r.span span)
  | .lambda param signature body span =>
    .lambda (param.relabel r) (signature.map (ModuleType.relabel r)) (relabelModule body)
      (r.span span)

def relabelAll : List Decl → List Decl
  | [] => []
  | d :: ds => relabel d :: relabelAll ds

end

@[simp]
theorem relabelAll_eq_map (ds : List Decl) : relabelAll r ds = ds.map (relabel r) := by
  induction ds with
  | nil => rfl
  | cons d ds ih => rw [relabelAll, ih, List.map_cons]

attribute [simp] relabelModule

end Decl

instance : Labeled Decl := ⟨Decl.relabel⟩

instance : Labeled ModuleExpr := ⟨Decl.relabelModule⟩

/-- A program with other labels. -/
def Program.relabel (p : Program) : Program :=
  .mk (p.declarations.map (Decl.relabel r)) (r.span p.span)

instance : Labeled Program := ⟨Program.relabel⟩

/-! ### Keeping all labels -/

@[simp]
theorem Relabeling.keep_span (s : Span) : Relabeling.keep.span s = s := rfl

@[simp]
theorem Relabeling.keep_doc (d : Option String) : Relabeling.keep.doc d = d := rfl

@[simp]
theorem Relabeling.keep_resolved (p : Option Program) : Relabeling.keep.resolved p = p := rfl

@[simp]
theorem Identifier.relabel_keep : Identifier.relabel .keep = id := rfl

@[simp]
theorem QualName.relabel_keep (q : QualName) : q.relabel .keep = q := by
  simp [QualName.relabel]

@[simp]
theorem OperatorName.relabel_keep (o : OperatorName) : o.relabel .keep = o := rfl

mutual

@[simp]
theorem Attribute.relabel_keep : ∀ a : Attribute, a.relabel .keep = a
  | .word _ _ => rfl
  | .integer _ _ => rfl
  | .call _ arguments _ => by rw [relabel, relabelAll_keep arguments, Relabeling.keep_span]

theorem Attribute.relabelAll_keep : ∀ as : List Attribute, relabelAll .keep as = as
  | [] => rfl
  | a :: as => by rw [relabelAll, relabel_keep a, relabelAll_keep as]

end

@[simp]
theorem Dimension.relabel_keep (d : Dimension) : d.relabel .keep = d := by
  cases d <;> simp

namespace TypeExpr

mutual

@[simp]
theorem relabel_keep : ∀ t : TypeExpr, t.relabel .keep = t
  | named _ => by simp
  | array d element _ => by
    rw [relabel, d.relabel_keep, relabel_keep element, Relabeling.keep_span]
  | unit _ => rfl
  | parens inner _ => by simp [relabel_keep inner]
  | tuple elements _ => by rw [relabel, relabelAll_keep elements, Relabeling.keep_span]
  | record fields _ => by rw [relabel, relabelFields_keep fields, Relabeling.keep_span]
  | sum constructors _ => by
    rw [relabel, relabelConstructors_keep constructors, Relabeling.keep_span]
  | function _ param result _ => by simp [relabel_keep param, relabel_keep result]
  | application head argument _ => by
    rw [relabel, relabel_keep head, relabelArg_keep argument, Relabeling.keep_span]
  | existential _ body _ => by simp [relabel_keep body]
  | unique inner _ => by simp [relabel_keep inner]

theorem relabelAll_keep : ∀ ts : List TypeExpr, relabelAll .keep ts = ts
  | [] => rfl
  | t :: ts => by rw [relabelAll, relabel_keep t, relabelAll_keep ts]

theorem relabelArg_keep : ∀ a : TypeArg, relabelArg .keep a = a
  | .type t => by rw [relabelArg, relabel_keep t]
  | .size d => by rw [relabelArg, d.relabel_keep]

theorem relabelField_keep : ∀ f : TypeField, relabelField .keep f = f
  | .mk name t span => by
    rw [relabelField, relabel_keep t, Relabeling.keep_span, Identifier.relabel_keep, id]

theorem relabelFields_keep : ∀ fields : List TypeField, relabelFields .keep fields = fields
  | [] => rfl
  | f :: fields => by rw [relabelFields, relabelField_keep f, relabelFields_keep fields]

theorem relabelConstructor_keep : ∀ c : SumConstructor, relabelConstructor .keep c = c
  | .mk tag arguments span => by
    rw [relabelConstructor, relabelAll_keep arguments, Relabeling.keep_span,
      Identifier.relabel_keep, id]

theorem relabelConstructors_keep :
    ∀ constructors : List SumConstructor, relabelConstructors .keep constructors = constructors
  | [] => rfl
  | c :: constructors => by
    rw [relabelConstructors, relabelConstructor_keep c, relabelConstructors_keep constructors]

end

@[simp]
theorem map_relabel_keep (t : Option TypeExpr) : t.map (relabel .keep) = t := by
  cases t <;> simp

end TypeExpr

@[simp]
theorem TypeParam.relabel_keep : TypeParam.relabel .keep = id := by
  funext p
  cases p <;> simp

namespace Pattern

mutual

theorem relabel_keep : ∀ p : Pattern, p.relabel .keep = p
  | identifier _ => rfl
  | wildcard _ => rfl
  | literal _ _ _ => rfl
  | unit _ => rfl
  | parens inner _ => by simp [relabel_keep inner]
  | tuple elements _ => by rw [relabel, relabelAll_keep elements, Relabeling.keep_span]
  | record fields _ => by rw [relabel, relabelFields_keep fields, Relabeling.keep_span]
  | constructor _ arguments _ => by
    rw [relabel, relabelAll_keep arguments, Relabeling.keep_span, Identifier.relabel_keep, id]
  | ascription pattern _ _ => by simp [relabel_keep pattern]
  | attributed _ pattern _ => by simp [relabel_keep pattern]

theorem relabelAll_keep : ∀ ps : List Pattern, relabelAll .keep ps = ps
  | [] => rfl
  | p :: ps => by rw [relabelAll, relabel_keep p, relabelAll_keep ps]

theorem relabelOption_keep : ∀ p : Option Pattern, relabelOption .keep p = p
  | none => rfl
  | some p => by rw [relabelOption, relabel_keep p]

theorem relabelField_keep : ∀ f : RecordPatternField, relabelField .keep f = f
  | .mk name p span => by
    rw [relabelField, relabelOption_keep p, Relabeling.keep_span, Identifier.relabel_keep, id]

theorem relabelFields_keep :
    ∀ fields : List RecordPatternField, relabelFields .keep fields = fields
  | [] => rfl
  | f :: fields => by rw [relabelFields, relabelField_keep f, relabelFields_keep fields]

end

@[simp]
theorem relabel_keep_eq_id : relabel .keep = id := funext relabel_keep

end Pattern

namespace Expr

mutual

@[simp]
theorem relabel_keep : ∀ e : Expr, e.relabel .keep = e
  | literal _ _ => rfl
  | name _ => by simp
  | parens inner _ => by simp [relabel_keep inner]
  | unit _ => rfl
  | tuple elements _ => by rw [relabel, relabelAll_keep elements, Relabeling.keep_span]
  | record fields _ => by rw [relabel, relabelFields_keep fields, Relabeling.keep_span]
  | array elements _ => by rw [relabel, relabelAll_keep elements, Relabeling.keep_span]
  | range first step last _ _ => by
    rw [relabel, relabel_keep first, relabelOption_keep step, relabel_keep last,
      Relabeling.keep_span]
  | application function argument _ => by simp [relabel_keep function, relabel_keep argument]
  | binary _ left right _ => by simp [relabel_keep left, relabel_keep right]
  | negate operand _ => by simp [relabel_keep operand]
  | not operand _ => by simp [relabel_keep operand]
  | constructor _ arguments _ => by
    rw [relabel, relabelAll_keep arguments, Relabeling.keep_span, Identifier.relabel_keep, id]
  | ascription inner _ _ => by simp [relabel_keep inner]
  | coerce inner _ _ => by simp [relabel_keep inner]
  | index base list _ => by
    rw [relabel, relabel_keep base, relabelIndices_keep list, Relabeling.keep_span]
  | project base _ _ => by simp [relabel_keep base]
  | qualifiedParens _ inner _ => by simp [relabel_keep inner]
  | operatorSection _ _ => by simp
  | leftSection operand _ _ => by simp [relabel_keep operand]
  | rightSection _ operand _ => by simp [relabel_keep operand]
  | projectSection _ _ => by simp
  | update target path value _ => by
    rw [relabel, relabel_keep target, relabelPath_keep path, relabel_keep value,
      Relabeling.keep_span]
  | conditional condition thenBranch elseBranch _ => by
    simp [relabel_keep condition, relabel_keep thenBranch, relabel_keep elseBranch]
  | letIn binding body _ => by
    rw [relabel, relabelBinding_keep binding, relabel_keep body, Relabeling.keep_span]
  | loop parameter initial form body _ => by
    rw [relabel, Pattern.relabel_keep, relabelOption_keep initial, relabelForm_keep form,
      relabel_keep body, Relabeling.keep_span]
  | matching scrutinee cases _ => by
    rw [relabel, relabel_keep scrutinee, relabelCases_keep cases, Relabeling.keep_span]
  | lambda _ _ body _ => by simp [relabel_keep body]
  | assertion condition body _ => by simp [relabel_keep condition, relabel_keep body]
  | unchecked body _ => by simp [relabel_keep body]
  | attributed _ inner _ => by simp [relabel_keep inner]

theorem relabelAll_keep : ∀ es : List Expr, relabelAll .keep es = es
  | [] => rfl
  | e :: es => by rw [relabelAll, relabel_keep e, relabelAll_keep es]

theorem relabelOption_keep : ∀ e : Option Expr, relabelOption .keep e = e
  | none => rfl
  | some e => by rw [relabelOption, relabel_keep e]

theorem relabelField_keep : ∀ f : RecordField, relabelField .keep f = f
  | .explicit _ value _ => by simp [relabel_keep value]
  | .shorthand _ => rfl

theorem relabelFields_keep : ∀ fields : List RecordField, relabelFields .keep fields = fields
  | [] => rfl
  | f :: fields => by rw [relabelFields, relabelField_keep f, relabelFields_keep fields]

theorem relabelIndex_keep : ∀ d : DimIndex, relabelIndex .keep d = d
  | .fix value => by rw [relabelIndex, relabel_keep value]
  | .slice first last stride _ => by
    rw [relabelIndex, relabelOption_keep first, relabelOption_keep last, relabelOption_keep stride,
      Relabeling.keep_span]

theorem relabelIndices_keep : ∀ ds : List DimIndex, relabelIndices .keep ds = ds
  | [] => rfl
  | d :: ds => by rw [relabelIndices, relabelIndex_keep d, relabelIndices_keep ds]

theorem relabelPath_keep : ∀ p : UpdatePath, relabelPath .keep p = p
  | .index list _ => by rw [relabelPath, relabelIndices_keep list, Relabeling.keep_span]
  | .field _ => by simp

theorem relabelBinding_keep : ∀ b : LetBinding, relabelBinding .keep b = b
  | .pattern _ value => by simp [relabel_keep value]
  | .function _ _ _ _ value => by simp [relabel_keep value]
  | .update _ list value => by
    rw [relabelBinding, relabelIndices_keep list, relabel_keep value, Identifier.relabel_keep, id]

theorem relabelForm_keep : ∀ f : LoopForm, relabelForm .keep f = f
  | .countTo _ bound => by simp [relabel_keep bound]
  | .overElements _ source => by simp [relabel_keep source]
  | .whileTrue condition => by simp [relabel_keep condition]

theorem relabelCase_keep : ∀ c : MatchCase, relabelCase .keep c = c
  | .mk _ body _ => by simp [relabel_keep body]

theorem relabelCases_keep : ∀ cases : List MatchCase, relabelCases .keep cases = cases
  | [] => rfl
  | c :: cases => by rw [relabelCases, relabelCase_keep c, relabelCases_keep cases]

end

end Expr

@[simp]
theorem BindingName.relabel_keep (n : BindingName) : n.relabel .keep = n := by
  cases n <;> simp

namespace ModuleType

mutual

@[simp]
theorem relabel_keep : ∀ m : ModuleType, m.relabel .keep = m
  | specs list _ => by rw [relabel, relabelSpecs_keep list, Relabeling.keep_span]
  | name _ => by simp
  | parens inner _ => by simp [relabel_keep inner]
  | refined base _ _ _ _ => by simp [relabel_keep base]
  | functor _ param result _ => by simp [relabel_keep param, relabel_keep result]

theorem relabelSpec_keep : ∀ s : Spec, relabelSpec .keep s = s
  | .value n _ _ _ _ => by
    rw [relabelSpec, n.relabel_keep]
    simp
  | .type _ _ _ _ _ _ => by simp
  | .nested _ signature _ _ => by simp [relabel_keep signature]
  | .included signature _ => by simp [relabel_keep signature]
  | .attributed _ spec _ => by
    rw [relabelSpec, relabelSpec_keep spec, Attribute.relabel_keep, Relabeling.keep_span]

theorem relabelSpecs_keep : ∀ list : List Spec, relabelSpecs .keep list = list
  | [] => rfl
  | s :: rest => by rw [relabelSpecs, relabelSpec_keep s, relabelSpecs_keep rest]

end

@[simp]
theorem map_relabel_keep (m : Option ModuleType) : m.map (relabel .keep) = m := by
  cases m <;> simp

end ModuleType

@[simp]
theorem ModuleParam.relabel_keep : ModuleParam.relabel .keep = id := by
  funext p
  simp [ModuleParam.relabel]

@[simp]
theorem ValueBinding.relabel_keep (b : ValueBinding) : b.relabel .keep = b := by
  rw [ValueBinding.relabel, b.name.relabel_keep]
  simp

@[simp]
theorem TypeBinding.relabel_keep (b : TypeBinding) : b.relabel .keep = b := by
  simp [TypeBinding.relabel]

namespace Decl

mutual

theorem relabel_keep : ∀ d : Decl, d.relabel .keep = d
  | value _ => by simp
  | type _ => by simp
  | moduleBinding _ _ _ body _ _ => by
    simp only [relabel, relabelModule_keep body]
    simp
  | moduleTypeBinding _ _ _ _ => by simp
  | opened body _ => by rw [relabel, relabelModule_keep body, Relabeling.keep_span]
  | imported _ _ _ => rfl
  | hidden declaration _ => by rw [relabel, relabel_keep declaration, Relabeling.keep_span]
  | attributed _ declaration _ => by
    rw [relabel, relabel_keep declaration, Attribute.relabel_keep, Relabeling.keep_span]

theorem relabelModule_keep : ∀ m : ModuleExpr, relabelModule .keep m = m
  | .struct declarations _ => by
    rw [relabelModule, relabelAll_keep declarations, Relabeling.keep_span]
  | .name _ => by simp
  | .parens inner _ => by rw [relabelModule, relabelModule_keep inner, Relabeling.keep_span]
  | .imported _ _ _ => rfl
  | .application functor argument _ => by
    rw [relabelModule, relabelModule_keep functor, relabelModule_keep argument,
      Relabeling.keep_span]
  | .ascription body _ _ => by
    rw [relabelModule, relabelModule_keep body, ModuleType.relabel_keep, Relabeling.keep_span]
  | .lambda _ _ body _ => by
    simp only [relabelModule, relabelModule_keep body]
    simp

theorem relabelAll_keep : ∀ ds : List Decl, relabelAll .keep ds = ds
  | [] => rfl
  | d :: ds => by rw [relabelAll, relabel_keep d, relabelAll_keep ds]

end

end Decl

theorem Program.relabel_keep (p : Program) : p.relabel .keep = p := by
  obtain ⟨declarations, span⟩ := p
  rw [relabel, ← Decl.relabelAll_eq_map, Decl.relabelAll_keep, Relabeling.keep_span]
  rfl

/-! ### Spans -/

/-- **Trees with a span**, which is one of their labels. -/
class Spanned (α : Type) [Labeled α] where
  span : α → Span
  span_relabel : ∀ (r : Relabeling) (a : α), span (Labeled.relabel r a) = r.span (span a)

instance : Spanned Identifier := ⟨Identifier.span, fun _ _ => rfl⟩

instance : Spanned QualName := ⟨QualName.span, fun _ _ => rfl⟩

instance : Spanned OperatorName := ⟨OperatorName.span, fun _ _ => rfl⟩

instance : Spanned Attribute := ⟨Attribute.span, fun _ a => by cases a <;> rfl⟩

instance : Spanned Dimension := ⟨Dimension.span, fun _ d => by cases d <;> rfl⟩

instance : Spanned TypeExpr := ⟨TypeExpr.span, fun _ t => by cases t <;> rfl⟩

instance : Spanned TypeArg where
  span := TypeArg.span
  span_relabel
    | r, .type t => Spanned.span_relabel r t
    | r, .size d => Spanned.span_relabel r d

instance : Spanned SumConstructor := ⟨SumConstructor.span, fun _ c => by cases c; rfl⟩

instance : Spanned TypeParam := ⟨TypeParam.span, fun _ p => by cases p <;> rfl⟩

instance : Spanned Pattern := ⟨Pattern.span, fun _ p => by cases p <;> rfl⟩

instance : Spanned Expr := ⟨Expr.span, fun _ e => by cases e <;> rfl⟩

instance : Spanned MatchCase := ⟨MatchCase.span, fun _ c => by cases c; rfl⟩

instance : Spanned ModuleType := ⟨ModuleType.span, fun _ m => by cases m <;> rfl⟩

instance : Spanned Spec := ⟨Spec.span, fun _ s => by cases s <;> rfl⟩

instance : Spanned Decl := ⟨Decl.span, fun _ d => by cases d <;> rfl⟩

instance : Spanned ModuleExpr := ⟨ModuleExpr.span, fun _ m => by cases m <;> rfl⟩

end Futhark
