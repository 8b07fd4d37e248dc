import Futhark.Render.Expr
import Futhark.Text.Split
import Futhark.Tree.Program

/-!
# Rendering programs

One empty line comes between declarations, and none between specifications. The bodies of modules
and module types are indented. Documentation comes first, whatever stands in front of the
declaration it belongs to.
-/

namespace Futhark.Render

open Document

/-- **Documentation**, each line with its marker and followed by a line break. -/
def docComment : Option String → Document
  | none => .nil
  | some doc =>
    match Text.split '\n' doc with
    | [] => .nil
    | first :: others =>
      .seq (docLine "-- |" first ++ others.flatMap (docLine "--"))
where
  /-- One line of documentation; an empty one has no space after its marker. -/
  docLine (marker text : String) : List Document :=
    [if text.isEmpty then .text marker else row [.text marker, .text " ", .text text], .line]

/-- What a definition defines. -/
def bindingName : BindingName → Document
  | .name name => identifier name
  | .operator o => parenthesized (operator o)

/-- Items in braces, each starting a line. -/
def bracedBlock (items : List Document) (separator : Document) : Document :=
  match items with
  | [] => .text "\x7b\x7d"
  | items =>
    row [.text "\x7b", .nest indentWidth (row [.line, join items separator]), .line, .text "\x7d"]

/-! ### Module types -/

mutual

/-- **A module type.** -/
def moduleType : ModuleType → Document
  | .specs list _ => bracedBlock (specs list) .line
  | .name q => qualName q
  | .parens inner _ => moduleType inner
  | .refined base typeName ps definition _ =>
    parenthesized
      (row [moduleType base, .text " with ", qualName typeName, typeParams ps, .text " = ",
        type definition])
  | .functor none param result _ =>
    parenthesized (row [moduleType param, .text " -> ", moduleType result])
  | .functor (some name) param result _ =>
    parenthesized
      (row [row [.text "(", identifier name, .text ": ", moduleType param, .text ")"],
        .text " -> ", moduleType result])

/-- A specification without its documentation. -/
def specBody : Spec → Document
  | .value name tps t _ _ =>
    row [.text "val ", bindingName name, typeParams tps, .text " : ", type t]
  | .type liftedness name ps definition _ _ =>
    row [.text "type", .text liftedness.marker, .text " ", identifier name, typeParams ps,
      optionalAfter " = " (definition.map type)]
  | .nested name signature _ _ =>
    row [.text "module ", identifier name, .text " : ", moduleType signature]
  | .included signature _ => row [.text "include ", moduleType signature]
  | .attributed a spec _ => row [attr a, .text " ", specBody spec]

/-- Specifications with their documentation. -/
def specs : List Spec → List Document
  | [] => []
  | spec :: rest => row [docComment spec.doc?, specBody spec] :: specs rest

end

/-- A parameter of a module. -/
def moduleParam (p : ModuleParam) : Document :=
  row [.text "(", identifier p.name, .text ": ", moduleType p.signature, .text ")"]

/-! ### Declarations -/

/-- The definition of a value. -/
def valueBinding (b : ValueBinding) : Document :=
  row [.text b.kind.text, .text " ", bindingName b.name, typeParams b.typeParams, params b.params,
    returnType b.returnType, .text " = ", expression b.body]

/-- The definition of a type. -/
def typeBinding (b : TypeBinding) : Document :=
  row [.text "type", .text b.liftedness.marker, .text " ", identifier b.name, typeParams b.params,
    .text " = ", type b.definition]

/-- An import, whatever it stands for. -/
def importPath (path : String) : Document := row [.text "import ", .built (Text.quoted path)]

/-- An empty line and the start of another. -/
def blankLine : Document := .seq [.text "\n", .line]

mutual

/-- A declaration without its documentation. -/
def declBody : Decl → Document
  | .value binding => valueBinding binding
  | .type binding => typeBinding binding
  | .moduleBinding name ps signature body _ _ =>
    row [.text "module ", identifier name, eachAfter " " (ps.map moduleParam),
      optionalAfter " : " (signature.map moduleType), .text " = ", moduleExpr body]
  | .moduleTypeBinding name body _ _ =>
    row [.text "module type ", identifier name, .text " = ", moduleType body]
  | .opened body _ => row [.text "open ", moduleExpr body]
  | .imported path _ _ => importPath path
  | .hidden declaration _ => row [.text "local ", declBody declaration]
  | .attributed a declaration _ => row [attr a, .text " ", declBody declaration]

/-- Declarations with their documentation. -/
def decls : List Decl → List Document
  | [] => []
  | d :: ds => row [docComment d.doc?, declBody d] :: decls ds

/-- **A module expression.** -/
def moduleExpr : ModuleExpr → Document
  | .struct declarations _ => bracedBlock (decls declarations) blankLine
  | .name q => qualName q
  | .parens inner _ => moduleExpr inner
  | .imported path _ _ => importPath path
  | .application functor argument _ =>
    parenthesized (row [moduleExpr functor, .text " ", moduleExpr argument])
  | .ascription body signature _ =>
    parenthesized (row [moduleExpr body, .text " : ", moduleType signature])
  | .lambda p signature body _ =>
    row [.text "(\\", moduleParam p, optionalAfter " : " (signature.map moduleType), .text " -> ",
      moduleExpr body, .text ")"]

end

/-- **A declaration** with its documentation. -/
def declaration (d : Decl) : Document := row [docComment d.doc?, declBody d]

end Futhark.Render

namespace Futhark

/-! ### Rendered text -/

/-- The canonical text of an expression. -/
def Expr.render (e : Expr) : String := (Render.expression e).layout

/-- The canonical text of a type. -/
def TypeExpr.render (t : TypeExpr) : String := (Render.type t).layout

/-- The canonical text of a pattern. -/
def Pattern.render (p : Pattern) : String := (Render.pattern p).layout

/-- The canonical text of a declaration. -/
def Decl.render (d : Decl) : String := (Render.declaration d).layout

/-- **The canonical text of a program**, which ends with a line break unless it is empty. -/
def Program.render (p : Program) : String :=
  match p.declarations with
  | [] => ""
  | declarations => (Document.join (Render.decls declarations) Render.blankLine).layout ++ "\n"

end Futhark
