import Futhark.Tree.Expr
import Mathlib.Data.List.Forall2

/-!
# What a tree says

Two texts can be read as trees that differ only in where their parts stand and in parentheses that
change nothing. The core of a tree is what is left without these: all spans are the same, there are
no parentheses, and a projection of a projection is one projection of all their fields.
-/

namespace Futhark

/-- The span that stands in for all others. -/
def noSpan : Span := .point 0

namespace Identifier

/-- A name without its place. -/
def core (i : Identifier) : Identifier := ⟨i.name, noSpan⟩

end Identifier

/-- A qualified name without its place. -/
def QualName.core (q : QualName) : QualName :=
  ⟨q.qualifiers.map Identifier.core, q.name.core, noSpan⟩

/-- An operator without its place. -/
def OperatorName.core (o : OperatorName) : OperatorName := ⟨o.symbol, noSpan⟩

namespace Attribute

mutual

/-- An attribute without its place. -/
def core : Attribute → Attribute
  | word name _ => word name noSpan
  | integer value _ => integer value noSpan
  | call name arguments _ => call name (coreAll arguments) noSpan

/-- The cores of several attributes. -/
def coreAll : List Attribute → List Attribute
  | [] => []
  | a :: as => core a :: coreAll as

end

theorem coreAll_eq_map (as : List Attribute) : coreAll as = as.map core := by
  induction as with
  | nil => rfl
  | cons a as ih => rw [coreAll, ih, List.map_cons]

end Attribute

/-- Lists that agree item by item under `f`. -/
theorem map_eq_of_forall₂ {α β : Type} {f : α → β} {as bs : List α}
    (h : List.Forall₂ (fun a b => f b = f a) as bs) : bs.map f = as.map f := by
  induction h with
  | nil => rfl
  | cons h _ ih => rw [List.map_cons, List.map_cons, h, ih]

/-! ### Types -/

/-- A dimension without its place. -/
def Dimension.core : Dimension → Dimension
  | unknown _ => unknown noSpan
  | named name _ => named name.core noSpan
  | literal digits _ => literal digits noSpan

namespace TypeExpr

mutual

/-- **Core of a type.** -/
def core : TypeExpr → TypeExpr
  | named name => named name.core
  | array d element _ => array d.core (core element) noSpan
  | unit _ => unit noSpan
  | parens inner _ => core inner
  | tuple elements _ => tuple (coreAll elements) noSpan
  | record fields _ => record (coreFields fields) noSpan
  | sum constructors _ => sum (coreConstructors constructors) noSpan
  | function name param result _ =>
    function (name.map Identifier.core) (core param) (core result) noSpan
  | application head argument _ => application (core head) (coreArg argument) noSpan
  | existential sizes body _ => existential (sizes.map Identifier.core) (core body) noSpan
  | unique inner _ => unique (core inner) noSpan

/-- The cores of several types. -/
def coreAll : List TypeExpr → List TypeExpr
  | [] => []
  | t :: ts => core t :: coreAll ts

/-- The core of an argument of a type constructor. -/
def coreArg : TypeArg → TypeArg
  | .type t => .type (core t)
  | .size d => .size d.core

/-- The cores of the fields of a record type. -/
def coreFields : List TypeField → List TypeField
  | [] => []
  | .mk name t _ :: fields => .mk name.core (core t) noSpan :: coreFields fields

/-- The cores of the alternatives of a sum type. -/
def coreConstructors : List SumConstructor → List SumConstructor
  | [] => []
  | .mk tag arguments _ :: constructors =>
    .mk tag.core (coreAll arguments) noSpan :: coreConstructors constructors

end

theorem coreAll_eq_map (ts : List TypeExpr) : coreAll ts = ts.map core := by
  induction ts with
  | nil => rfl
  | cons t ts ih => rw [coreAll, ih, List.map_cons]

end TypeExpr

/-- The core of a field of a record type. -/
def TypeField.core : TypeField → TypeField
  | mk name t _ => mk name.core t.core noSpan

/-- The core of an alternative of a sum type. -/
def SumConstructor.core : SumConstructor → SumConstructor
  | mk tag arguments _ => mk tag.core (TypeExpr.coreAll arguments) noSpan

theorem TypeExpr.coreFields_eq_map (fields : List TypeField) :
    coreFields fields = fields.map TypeField.core := by
  induction fields with
  | nil => rfl
  | cons f fields ih => cases f; rw [coreFields, ih, List.map_cons, TypeField.core]

theorem TypeExpr.coreConstructors_eq_map (constructors : List SumConstructor) :
    coreConstructors constructors = constructors.map SumConstructor.core := by
  induction constructors with
  | nil => rfl
  | cons c cs ih => cases c; rw [coreConstructors, ih, List.map_cons, SumConstructor.core]

/-- A type or size parameter without its place. -/
def TypeParam.core : TypeParam → TypeParam
  | size name _ => size name.core noSpan
  | type name liftedness _ => type name.core liftedness noSpan

/-! ### Patterns -/

namespace Pattern

mutual

/-- **Core of a pattern.** -/
def core : Pattern → Pattern
  | identifier name => identifier name.core
  | wildcard _ => wildcard noSpan
  | literal negative value _ => literal negative value noSpan
  | unit _ => unit noSpan
  | parens inner _ => core inner
  | tuple elements _ => tuple (coreAll elements) noSpan
  | record fields _ => record (coreFields fields) noSpan
  | constructor tag arguments _ => constructor tag.core (coreAll arguments) noSpan
  | ascription pattern t _ => ascription (core pattern) t.core noSpan
  | attributed a pattern _ => attributed a.core (core pattern) noSpan

/-- The cores of several patterns. -/
def coreAll : List Pattern → List Pattern
  | [] => []
  | p :: ps => core p :: coreAll ps

/-- The cores of the fields of a record pattern. -/
def coreFields : List RecordPatternField → List RecordPatternField
  | [] => []
  | .mk name none _ :: fields => .mk name.core none noSpan :: coreFields fields
  | .mk name (some p) _ :: fields => .mk name.core (some (core p)) noSpan :: coreFields fields

end

theorem coreAll_eq_map (ps : List Pattern) : coreAll ps = ps.map core := by
  induction ps with
  | nil => rfl
  | cons p ps ih => rw [coreAll, ih, List.map_cons]

end Pattern

/-- The core of a field of a record pattern. -/
def RecordPatternField.core : RecordPatternField → RecordPatternField
  | mk name p _ => mk name.core (p.map Pattern.core) noSpan

theorem Pattern.coreFields_eq_map (fields : List RecordPatternField) :
    coreFields fields = fields.map RecordPatternField.core := by
  induction fields with
  | nil => rfl
  | cons f fields ih =>
    obtain ⟨name, p, span⟩ := f
    cases p <;> rw [coreFields, ih, List.map_cons, RecordPatternField.core] <;> rfl

/-! ### Expressions -/

namespace Expr

/-- Fields projected from `base`, together with those that `base` projects already. -/
def projection (base : Expr) (fields : List Identifier) : Expr :=
  match base with
  | project inner earlier _ => project inner (earlier ++ fields) noSpan
  | base => project base fields noSpan

mutual

/-- **Core of an expression.** -/
def core : Expr → Expr
  | literal value _ => literal value noSpan
  | name q => name q.core
  | parens inner _ => core inner
  | unit _ => unit noSpan
  | tuple elements _ => tuple (coreAll elements) noSpan
  | record fields _ => record (coreFields fields) noSpan
  | array elements _ => array (coreAll elements) noSpan
  | range first step last kind _ => range (core first) (coreOption step) (core last) kind noSpan
  | application function argument _ => application (core function) (core argument) noSpan
  | binary o left right _ => binary o.core (core left) (core right) noSpan
  | negate operand _ => negate (core operand) noSpan
  | not operand _ => not (core operand) noSpan
  | constructor tag arguments _ => constructor tag.core (coreAll arguments) noSpan
  | ascription inner t _ => ascription (core inner) t.core noSpan
  | coerce inner t _ => coerce (core inner) t.core noSpan
  | index base indices _ => index (core base) (coreIndices indices) noSpan
  | project base fields _ => projection (core base) (fields.map Identifier.core)
  | qualifiedParens qualifier inner _ => qualifiedParens qualifier.core (core inner) noSpan
  | operatorSection o _ => operatorSection o.core noSpan
  | leftSection operand o _ => leftSection (core operand) o.core noSpan
  | rightSection o operand _ => rightSection o.core (core operand) noSpan
  | projectSection fields _ => projectSection (fields.map Identifier.core) noSpan
  | update target path value _ => update (core target) (corePath path) (core value) noSpan
  | conditional condition thenBranch elseBranch _ =>
    conditional (core condition) (core thenBranch) (core elseBranch) noSpan
  | letIn binding body _ => letIn (coreBinding binding) (core body) noSpan
  | loop parameter initial form body _ =>
    loop parameter.core (coreOption initial) (coreForm form) (core body) noSpan
  | matching scrutinee cases _ => matching (core scrutinee) (coreCases cases) noSpan
  | lambda parameters t body _ =>
    lambda (Pattern.coreAll parameters) (t.map TypeExpr.core) (core body) noSpan
  | assertion condition body _ => assertion (core condition) (core body) noSpan
  | unchecked body _ => unchecked (core body) noSpan
  | attributed a inner _ => attributed a.core (core inner) noSpan

/-- The cores of several expressions. -/
def coreAll : List Expr → List Expr
  | [] => []
  | e :: es => core e :: coreAll es

/-- The core of an expression that may be left out. -/
def coreOption : Option Expr → Option Expr
  | none => none
  | some e => some (core e)

/-- The cores of the fields of a record. -/
def coreFields : List RecordField → List RecordField
  | [] => []
  | .explicit label value _ :: fields =>
    .explicit label.core (core value) noSpan :: coreFields fields
  | .shorthand label :: fields => .shorthand label.core :: coreFields fields

/-- The cores of indices. -/
def coreIndices : List DimIndex → List DimIndex
  | [] => []
  | .fix value :: indices => .fix (core value) :: coreIndices indices
  | .slice first last stride _ :: indices =>
    .slice (coreOption first) (coreOption last) (coreOption stride) noSpan :: coreIndices indices

/-- The core of what an update changes. -/
def corePath : UpdatePath → UpdatePath
  | .index indices _ => .index (coreIndices indices) noSpan
  | .field fields => .field (fields.map Identifier.core)

/-- The core of what `let` binds. -/
def coreBinding : LetBinding → LetBinding
  | .pattern p value => .pattern p.core (core value)
  | .function f typeParams params t value =>
    .function f.core (typeParams.map TypeParam.core) (Pattern.coreAll params)
      (t.map TypeExpr.core) (core value)
  | .update a indices value => .update a.core (coreIndices indices) (core value)

/-- The core of the way a loop goes on. -/
def coreForm : LoopForm → LoopForm
  | .countTo i bound => .countTo i.core (core bound)
  | .overElements p source => .overElements p.core (core source)
  | .whileTrue condition => .whileTrue (core condition)

/-- The cores of the cases of a match. -/
def coreCases : List MatchCase → List MatchCase
  | [] => []
  | .mk p body _ :: cases => .mk p.core (core body) noSpan :: coreCases cases

end

theorem coreAll_eq_map (es : List Expr) : coreAll es = es.map core := by
  induction es with
  | nil => rfl
  | cons e es ih => rw [coreAll, ih, List.map_cons]

theorem coreOption_eq_map (e : Option Expr) : coreOption e = e.map core := by
  cases e <;> rfl

end Expr

/-- The core of a field of a record. -/
def RecordField.core : RecordField → RecordField
  | explicit name value _ => explicit name.core value.core noSpan
  | shorthand name => shorthand name.core

/-- The core of an index. -/
def DimIndex.core : DimIndex → DimIndex
  | fix value => fix value.core
  | slice first last stride _ =>
    slice (first.map Expr.core) (last.map Expr.core) (stride.map Expr.core) noSpan

/-- The core of a case of a match. -/
def MatchCase.core : MatchCase → MatchCase
  | mk p body _ => mk p.core body.core noSpan

namespace Expr

theorem coreFields_eq_map (fields : List RecordField) :
    coreFields fields = fields.map RecordField.core := by
  induction fields with
  | nil => rfl
  | cons f fields ih => cases f <;> rw [coreFields, ih, List.map_cons, RecordField.core]

theorem coreIndices_eq_map (indices : List DimIndex) :
    coreIndices indices = indices.map DimIndex.core := by
  induction indices with
  | nil => rfl
  | cons d indices ih =>
    cases d <;> rw [coreIndices, ih, List.map_cons, DimIndex.core]
    rw [coreOption_eq_map, coreOption_eq_map, coreOption_eq_map]

theorem coreCases_eq_map (cases : List MatchCase) :
    coreCases cases = cases.map MatchCase.core := by
  induction cases with
  | nil => rfl
  | cons c cs ih => cases c; rw [coreCases, ih, List.map_cons, MatchCase.core]

end Expr

end Futhark
