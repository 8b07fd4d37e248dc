import Futhark.Proofs.Sound.Exact

/-!
# Trees are stratified

What a consumer of syntax trees may rely on, node by node (`Node.Stratified`): which lists are never
empty, and which nodes may be a part of which others without brackets between them. It follows from
what has been shown of sound trees, and is spelled out here by the constructors of the trees, without
levels.

`trees_are_stratified` is the statement for all entry points.
-/

namespace Futhark

/-! ### Kinds of expressions -/

namespace Expr

/-- **Postfix atoms**, which may be indexed and projected, and be an argument. -/
def isPostfixAtom : Expr → Bool
  | literal _ _ | name _ | parens _ _ | unit _ | tuple _ _ | record _ _ | array _ _ | index _ _ _
  | project _ _ _ | qualifiedParens _ _ _ | operatorSection _ _ | leftSection _ _ _
  | rightSection _ _ _ | projectSection _ _ => true
  | constructor _ arguments _ => arguments.isEmpty
  | _ => false

/-- What may be applied to an argument. -/
def isApplicable : Expr → Bool
  | application _ _ _ | not _ _ => true
  | e => e.isPostfixAtom

/-- Whether an expression is given no type at its top. -/
def isUntyped : Expr → Bool
  | ascription _ _ _ | coerce _ _ _ => false
  | _ => true

/-- What may be a part of a range. -/
def isBound : Expr → Bool
  | range _ _ _ _ _ => false
  | e => e.isUntyped

/-- What may be an operand of an infix operator. -/
def isOperation : Expr → Bool
  | update _ _ _ _ => false
  | e => e.isBound

/-- What may be negated. -/
def isOperand : Expr → Bool
  | binary _ _ _ _ => false
  | e => e.isOperation

variable {e : Expr}

theorem isPostfixAtom_of_isAt (h : e.IsAt .atom) : e.isPostfixAtom = true := by
  cases e with
  | constructor tag arguments span =>
    by_contra hne
    have hne : arguments.isEmpty = false := eq_false_of_ne_true hne
    simp [IsAt, level, hne, ExprLevel.rank] at h
  | _ => first | rfl | exact absurd h (by simp [IsAt, level, ExprLevel.rank])

theorem isApplicable_of_isAt (h : e.IsAt .function) : e.isApplicable = true := by
  cases e with
  | application function argument span => rfl
  | not operand span => rfl
  | constructor tag arguments span =>
    by_contra hne
    have hne : arguments.isEmpty = false := eq_false_of_ne_true hne
    simp [IsAt, level, hne, ExprLevel.rank] at h
  | _ => first | rfl | exact absurd h (by simp [IsAt, level, ExprLevel.rank])

theorem isUntyped_of_isAt (h : e.IsAt .range) : e.isUntyped = true := by
  cases e <;> first | rfl | exact absurd h (by simp [IsAt, level, ExprLevel.rank])

theorem isBound_of_isAt (h : e.IsAt .update) : e.isBound = true := by
  cases e <;> first | rfl | exact absurd h (by simp [IsAt, level, ExprLevel.rank])

theorem isOperation_of_isAt (h : e.IsAt .operation) : e.isOperation = true := by
  cases e <;> first | rfl | exact absurd h (by simp [IsAt, level, ExprLevel.rank])

theorem isOperand_of_isAt (h : e.IsAt .operand) : e.isOperand = true := by
  cases e <;> first | rfl | exact absurd h (by simp [IsAt, level, ExprLevel.rank])

end Expr

/-! ### Nodes -/

/-- **What a type is made of.** -/
def TypeExpr.Stratified : TypeExpr → Prop
  | tuple elements _ => 2 ≤ elements.length
  | sum constructors _ => constructors ≠ []
  | existential sizes _ _ => sizes ≠ []
  | array _ element _ => element.isTerm
  | function none param _ _ => param.isTerm
  | application head (.type argument) _ => head.isHead ∧ argument.isAtom
  | application head (.size _) _ => head.isHead
  | unique inner _ => inner.isTerm
  | _ => True

/-- **What a pattern is made of.** -/
def Pattern.Stratified : Pattern → Prop
  | tuple elements _ => 2 ≤ elements.length
  | constructor _ arguments _ => ∀ p ∈ arguments, isAtomic p
  | ascription inner _ _ | attributed _ inner _ => inner.isUntyped
  | _ => True

/-- What a `let` binds is made of. -/
def LetBinding.Stratified : LetBinding → Prop
  | pattern _ _ => True
  | function _ _ params _ _ => ∀ p ∈ params, Pattern.isAtomic p
  | update _ indices _ => indices ≠ []

/-- **What an expression is made of.** -/
def Expr.Stratified : Expr → Prop
  | tuple elements _ => 2 ≤ elements.length
  | range first step last _ _ => first.isBound ∧ (∀ e ∈ step, isBound e) ∧ last.isBound
  | application function argument _ => function.isApplicable ∧ argument.isPostfixAtom
  | binary _ left right _ => left.isOperation ∧ right.isOperation
  | negate operand _ => operand.isOperand
  | not operand _ => operand.isPostfixAtom
  | constructor _ arguments _ => ∀ e ∈ arguments, isPostfixAtom e
  | ascription inner _ _ | coerce inner _ _ => inner.isUntyped
  | index base indices _ => base.isPostfixAtom ∧ indices ≠ []
  | project base fields _ => base.isPostfixAtom ∧ fields ≠ []
  | rightSection _ operand _ => operand.isOperation
  | projectSection fields _ => fields ≠ []
  | update target (.field fields) value _ => target.isBound ∧ fields ≠ [] ∧ value.isOperation
  | update target (.index _ _) value _ => target.isBound ∧ value.isOperation
  | letIn binding _ _ => binding.Stratified
  | matching _ cases _ => cases ≠ []
  | lambda params returnType _ _ =>
    params ≠ [] ∧ (∀ p ∈ params, Pattern.isAtomic p) ∧ ∀ t ∈ returnType, TypeExpr.isTerm t
  | assertion condition body _ => condition.isPostfixAtom ∧ body.isPostfixAtom
  | _ => True

/-- **What a node is made of.** The indices of an update are a node of their own. -/
def Node.Stratified : Node → Prop
  | type t => t.Stratified
  | sumConstructor (.mk _ arguments _) => ∀ t ∈ arguments, TypeExpr.isAtom t
  | pattern p => p.Stratified
  | expr e => e.Stratified
  | dimIndex (.fix value) => value.isUntyped
  | dimIndex (.slice first last stride _) =>
    (∀ e ∈ first, Expr.isUntyped e) ∧ (∀ e ∈ last, Expr.isUntyped e) ∧
      ∀ e ∈ stride, Expr.isUntyped e
  | indexPath indices _ => indices ≠ []
  | matchCase (.mk p _ _) => p.isUntyped
  | decl (.value b) => ∀ p ∈ b.params, Pattern.isAtomic p
  | _ => True

/-! ### Where it comes from -/

theorem TypeExpr.stratified_of {t : TypeExpr} (hw : t.WellFormed) (ht : t.Tiered) :
    t.Stratified := by
  cases t with
  | tuple | sum => exact hw
  | existential => exact hw.1
  | array | unique => exact ht
  | function name param result span => cases name <;> exact ht
  | application head argument span =>
    cases argument with
    | type a => exact ⟨hw, ht⟩
    | size d => exact hw
  | _ => trivial

theorem Pattern.stratified_of {p : Pattern} (hw : p.WellFormed) (ht : p.Tiered) :
    p.Stratified := by
  cases p with
  | tuple => exact hw
  | constructor | ascription | attributed => exact ht
  | _ => trivial

theorem LetBinding.stratified_of {b : LetBinding} (hw : b.WellFormed) (ht : b.Tiered) :
    b.Stratified := by
  cases b with
  | pattern => trivial
  | function => exact ht
  | update => exact hw.2

namespace Expr

theorem stratified_of {e : Expr} (hw : e.WellFormed) (hl : e.Leveled) (ht : e.Tiered) :
    e.Stratified := by
  cases e with
  | tuple => exact hw
  | range first step last kind span =>
    exact ⟨isBound_of_isAt hl.1, fun e he => isBound_of_isAt (hl.2.1 e he), isBound_of_isAt hl.2.2⟩
  | application => exact ⟨isApplicable_of_isAt hl.1, isPostfixAtom_of_isAt hl.2⟩
  | binary => exact ⟨isOperation_of_isAt hl.1, isOperation_of_isAt hl.2⟩
  | negate => exact isOperand_of_isAt hl
  | not => exact isPostfixAtom_of_isAt hl
  | constructor => exact fun e he => isPostfixAtom_of_isAt (hl e he)
  | ascription | coerce => exact isUntyped_of_isAt hl
  | index => exact ⟨isPostfixAtom_of_isAt hl, hw⟩
  | project => exact ⟨isPostfixAtom_of_isAt hl, hw.1⟩
  | rightSection => exact isOperation_of_isAt hl
  | projectSection => exact hw.1
  | update target path value span =>
    cases path with
    | index => exact ⟨isBound_of_isAt hl.1, isOperation_of_isAt hl.2⟩
    | field => exact ⟨isBound_of_isAt hl.1, hw.1, isOperation_of_isAt hl.2⟩
  | letIn => exact LetBinding.stratified_of hw ht
  | matching => exact hw
  | lambda => exact ⟨hw, ht⟩
  | assertion => exact ⟨isPostfixAtom_of_isAt hl.1, isPostfixAtom_of_isAt hl.2⟩
  | _ => trivial

end Expr

namespace Node

theorem stratified_of {n : Node} (hw : n.WellFormed) (hr : n.Ranked) : n.Stratified := by
  cases n with
  | type => exact TypeExpr.stratified_of hw hr
  | sumConstructor c =>
    cases c
    exact hr
  | pattern => exact Pattern.stratified_of hw hr
  | expr =>
    obtain ⟨ht, hl, -, -⟩ := hr
    exact Expr.stratified_of hw hl ht
  | dimIndex d =>
    cases d with
    | fix => exact Expr.isUntyped_of_isAt hr
    | slice =>
      exact ⟨fun e he => Expr.isUntyped_of_isAt (hr.1 e he),
        fun e he => Expr.isUntyped_of_isAt (hr.2.1 e he),
        fun e he => Expr.isUntyped_of_isAt (hr.2.2 e he)⟩
  | indexPath => exact hw
  | matchCase c =>
    cases c
    exact hr
  | decl d =>
    cases d with
    | value b => exact hr
    | _ => trivial
  | _ => trivial

theorem everywhere_stratified {n : Node} (h : n.Everywhere Sound) : n.Everywhere Stratified :=
  h.mono fun _ hn => stratified_of hn.wellFormed hn.ranked

end Node

/-! ### Entry points -/

theorem stratified_of_parseFragment {n : Nonterminal} {source : String} {tree : n.Tree}
    (h : parseFragment n source = .ok tree) : (n.node tree).Everywhere Node.Stratified := by
  have hwithin := h
  rw [parseFragment_eq_within] at hwithin
  exact Node.everywhere_stratified (sound_of_parseFragmentWithin hwithin)

/-- **All trees are stratified**, everywhere in them: those of programs, read in whatever way, and
those of single expressions, types and patterns. -/
theorem trees_are_stratified (source : String) :
    (∀ (σ : Type) (options : ParseOptions σ) (imports : σ) (program : Program),
        (Program.parseWith options imports source).result = .ok program →
          ∀ d ∈ program.declarations, (Node.decl d).Everywhere Node.Stratified) ∧
      (∀ e, Expr.parse source = .ok e → (Node.expr e).Everywhere Node.Stratified) ∧
      (∀ t, TypeExpr.parse source = .ok t → (Node.type t).Everywhere Node.Stratified) ∧
      ∀ p, Pattern.parse source = .ok p → (Node.pattern p).Everywhere Node.Stratified := by
  refine ⟨fun σ options imports program h d hd => ?_, fun e h => ?_, fun t h => ?_, fun p h => ?_⟩
  · exact Node.everywhere_stratified (sound_of_parseWith h d hd)
  · exact stratified_of_parseFragment (n := .expression) h
  · exact stratified_of_parseFragment (n := .type) h
  · exact stratified_of_parseFragment (n := .pattern) h

/-- A program, and an expression in which a projection is negated and applied. -/
theorem trees_are_stratified_negation :
    (∃ program, Program.parse "def f x = x" = .ok program ∧
      ∀ d ∈ program.declarations, (Node.decl d).Everywhere Node.Stratified) ∧
    ∃ e, Expr.parse "-f x.0" = .ok e ∧ e.isOperand = true ∧
      (Node.expr e).Everywhere Node.Stratified := by
  have hprogram : (Program.parse "def f x = x").toOption.map (·.declarations.length) = some 1 := by
    decide +kernel
  have hexpr : (Expr.parse "-f x.0").toOption.map Expr.isOperand = some true := by
    decide +kernel
  obtain ⟨program, hprogram, -⟩ := exists_ok_of_toOption hprogram
  obtain ⟨e, he, hoperand⟩ := exists_ok_of_toOption hexpr
  exact ⟨⟨program, hprogram, (trees_are_stratified _).1 Unit {} () program hprogram⟩,
    e, he, hoperand, (trees_are_stratified _).2.1 e he⟩

end Futhark
