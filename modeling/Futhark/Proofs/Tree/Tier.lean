import Futhark.Proofs.Tree.WellFormed

/-!
# Tiers of types and patterns

The grammars of types and of patterns have levels as well, though fewer than that of expressions. A
type is a term if no arrow and no existential sizes are at its top, and an atom if it could be an
argument. A pattern may be given a type, or have none of its own, or be an atom.

`TypeExpr.Tiered`, `Pattern.Tiered` and `Expr.Tiered` say which of these the parts are, where no
bracket stands around them.
-/

namespace Futhark

/-! ### Types -/

namespace TypeExpr

/-- Whether a type is a term, without an arrow or existential sizes of its own. -/
def isTerm : TypeExpr → Bool
  | function _ _ _ _ | existential _ _ _ => false
  | _ => true

/-- Whether a type is an atom: a name, a bracketed type, or an array of atoms. -/
def isAtom : TypeExpr → Bool
  | named _ | unit _ | parens _ _ | tuple _ _ | record _ _ => true
  | array _ element _ => element.isAtom
  | _ => false

theorem isTerm_of_isAtom {t : TypeExpr} (h : t.isAtom = true) : t.isTerm = true := by
  cases t with
  | function name param result span => exact absurd h nofun
  | existential sizes body span => exact absurd h nofun
  | _ => rfl

theorem isTerm_of_isHead {t : TypeExpr} (h : t.isHead = true) : t.isTerm = true := by
  cases t with
  | function name param result span => exact absurd h nofun
  | existential sizes body span => exact absurd h nofun
  | _ => rfl

/-- **The tiers of the parts** of a type, where no bracket protects them. -/
def Tiered : TypeExpr → Prop
  | array _ element _ => element.isTerm
  | function none param _ _ => param.isTerm
  | application _ (.type argument) _ => argument.isAtom
  | unique inner _ => inner.isTerm
  | _ => True

end TypeExpr

/-! ### Patterns -/

namespace Pattern

/-- Whether a pattern has no type of its own. -/
def isUntyped : Pattern → Bool
  | ascription _ _ _ => false
  | _ => true

/-- Whether a pattern is an atom, attributes in front of it apart. -/
def isAtomic : Pattern → Bool
  | constructor _ arguments _ => arguments.isEmpty
  | ascription _ _ _ => false
  | attributed _ inner _ => inner.isAtomic
  | _ => true

theorem isUntyped_of_isAtomic {p : Pattern} (h : p.isAtomic = true) : p.isUntyped = true := by
  cases p with
  | ascription inner type span => exact absurd h nofun
  | _ => rfl

/-- **The tiers of the parts** of a pattern, where no bracket protects them. -/
def Tiered : Pattern → Prop
  | constructor _ arguments _ => ∀ p ∈ arguments, isAtomic p
  | ascription inner _ _ | attributed _ inner _ => inner.isUntyped
  | _ => True

end Pattern

/-! ### Types and patterns in expressions -/

/-- The parameters of a local function are atoms. -/
def LetBinding.Tiered : LetBinding → Prop
  | function _ _ params _ _ => ∀ p ∈ params, Pattern.isAtomic p
  | _ => True

/-- **The tiers of the types and patterns** in an expression, where no bracket protects them. -/
def Expr.Tiered : Expr → Prop
  | letIn binding _ _ => binding.Tiered
  | lambda params returnType _ _ =>
    (∀ p ∈ params, Pattern.isAtomic p) ∧ ∀ t ∈ returnType, TypeExpr.isTerm t
  | _ => True

end Futhark
