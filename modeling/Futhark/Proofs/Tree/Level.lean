import Futhark.Proofs.Tree.Tier

/-!
# The shape of expressions

The grammar of expressions has levels, and a node of the tree has a child of a looser level only
where brackets or keywords stand between the two. `ExprLevel` names the levels, `Expr.level` is the
tightest one that an expression belongs to, and `Expr.Leveled` says what is asked of the children.
Among operands joined by operators the levels of the operators take over: `Expr.Climbs` says which
operators may be at the top of the operands of which others.

A form that starts with a keyword ends with an expression of any level, which takes what it can.
`Expr.Leaves` says what such an expression must be for something to be left to those who go on after
it, and `Expr.Reaches` asks that of the parts that are followed by an operator, by `with`, by dots
or by a type.

`Node.Ranked` says all of this of a node, and what is asked of types and patterns. Like
`Node.WellFormed`, it is meant to be used with `Node.Everywhere`.
-/

namespace Futhark

/-! ### Levels of operators -/

namespace OperatorLevel

/-- How the operators of a level group: always in the same way. -/
def associativity : OperatorLevel → Associativity
  | assign | or | and | concat | pow | arrow => .right
  | rel | add | mult | neg | app => .left

theorem associativity_of_ne_right {l : OperatorLevel} (h : l.associativity ≠ .right) :
    l.associativity = .left := by
  cases l <;> first | rfl | exact absurd rfl h

theorem eq_of_rank_eq {l l' : OperatorLevel} (h : l.rank = l'.rank) : l = l' := by
  cases l <;> cases l' <;> first | rfl | exact absurd h (by decide)

end OperatorLevel

/-- **The level decides the associativity** of an operator. -/
theorem Operator.associativity_of_classify {symbol : String} {k : OperatorClass}
    (h : classify symbol = some k) : k.associativity = k.level.associativity := by
  have hsymbol : ∀ cs, classifySymbol cs = some k → k.associativity = k.level.associativity := by
    intro cs hcs
    unfold classifySymbol at hcs
    cases cs with
    | nil => exact absurd hcs nofun
    | cons c rest =>
      dsimp only at hcs
      split_ifs at hcs
      all_goals
        obtain rfl := Option.some.inj hcs
        rfl
  unfold classify at h
  split_ifs at h
  case neg => exact hsymbol _ h
  all_goals
    obtain rfl := Option.some.inj h
    rfl

namespace OperatorClass

variable {k k' : OperatorClass}

theorem power_left (k : OperatorClass) : k.power.left = k.level.rank * 2 := by
  unfold power
  cases k.associativity <;> rfl

theorem power_right_of_right (h : k.associativity = .right) :
    k.power.right = k.level.rank * 2 := by
  unfold power
  rw [h]

theorem power_right_of_ne (h : k.associativity ≠ .right) :
    k.power.right = k.level.rank * 2 + 1 := by
  unfold power
  cases ha : k.associativity <;> first | rfl | exact absurd ha h

/-- **Operands of operators.** An operator of class `k'` may be at the top of the operand on a
certain side of one of class `k`: it binds tighter, or it is of the same level and operators of
class `k` group to that side. -/
def Takes (side : Associativity) (k k' : OperatorClass) : Prop :=
  k.level.rank < k'.level.rank ∨ k'.level = k.level ∧ k.associativity = side

/-- What may be at the top of an operand decides what may be anywhere in it. -/
theorem Takes.trans {side side' : Associativity} {k'' : OperatorClass} (h : k.Takes side k')
    (h' : k'.Takes side' k'') : k.Takes side k'' := by
  rcases h with hlt | ⟨hlevel, hside⟩
  · rcases h' with hlt' | ⟨hlevel', -⟩
    · exact Or.inl (hlt.trans hlt')
    · exact Or.inl (hlevel' ▸ hlt)
  · rcases h' with hlt' | ⟨hlevel', -⟩
    · exact Or.inl (hlevel ▸ hlt')
    · exact Or.inr ⟨hlevel'.trans hlevel, hside⟩

/-- Of two operators, at most one may be in an operand of the other: the right one in the right
operand of the left one, or the left one in the left operand of the right one. -/
theorem Takes.not_takes (hk : k.associativity = k.level.associativity)
    (hk' : k'.associativity = k'.level.associativity) (h : k.Takes .right k') :
    ¬ k'.Takes .left k := by
  rintro (hlt | ⟨hlevel, hleft⟩) <;> rcases h with hlt' | ⟨hlevel', hright⟩
  · exact absurd (hlt.trans hlt') (Nat.lt_irrefl _)
  · exact absurd (hlevel' ▸ hlt) (Nat.lt_irrefl _)
  · exact absurd (hlevel ▸ hlt') (Nat.lt_irrefl _)
  · rw [hk', hlevel', ← hk, hright] at hleft
    exact absurd hleft nofun

/-- An operator that is too loose for the right operand of another may take it to its left. -/
theorem takes_left_of_power (hk : k.associativity = k.level.associativity)
    (hk' : k'.associativity = k'.level.associativity) (h : k.power.left < k'.power.right) :
    k.Takes .left k' := by
  rw [power_left] at h
  by_cases hright : k'.associativity = .right
  · rw [power_right_of_right hright] at h
    exact Or.inl (by omega)
  · rw [power_right_of_ne hright] at h
    by_cases heq : k'.level.rank = k.level.rank
    · -- On one level there is only one way to group.
      have hlevel := OperatorLevel.eq_of_rank_eq heq
      rw [hk', hlevel] at hright
      exact Or.inr ⟨hlevel, hk.trans (OperatorLevel.associativity_of_ne_right hright)⟩
    · exact Or.inl (by omega)

/-- An operator that is tight enough for the right operand of another may be at the top of it. -/
theorem takes_right_of_power (h : k.power.right ≤ k'.power.left) : k.Takes .right k' := by
  rw [power_left] at h
  by_cases hright : k.associativity = .right
  · rw [power_right_of_right hright] at h
    by_cases heq : k'.level.rank = k.level.rank
    · exact Or.inr ⟨OperatorLevel.eq_of_rank_eq heq, hright⟩
    · exact Or.inl (by omega)
  · rw [power_right_of_ne hright] at h
    exact Or.inl (by omega)

end OperatorClass

/-! ### Levels of expressions -/

/-- **Levels of the grammar of expressions**, loosest first. What belongs to a level belongs to all
the looser ones. -/
inductive ExprLevel where
  /-- Any expression, also one that is given a type. -/
  | typed
  | range
  | update
  /-- Operands joined by operators. -/
  | operation
  /-- An operand, with the prefix or keyword that it may start with. -/
  | operand
  /-- What may be applied to an argument. -/
  | function
  | atom
deriving DecidableEq, Repr

/-- The rank of a level: a higher rank is tighter. -/
def ExprLevel.rank : ExprLevel → Nat
  | typed => 0
  | range => 1
  | update => 2
  | operation => 3
  | operand => 4
  | function => 5
  | atom => 6

namespace Expr

/-- **Level of an expression**: the tightest that it belongs to. A constructor is an atom only
without arguments, and is never applied. -/
def level : Expr → ExprLevel
  | ascription _ _ _ | coerce _ _ _ => .typed
  | range _ _ _ _ _ => .range
  | update _ _ _ _ => .update
  | binary _ _ _ _ => .operation
  | negate _ _ | conditional _ _ _ _ | letIn _ _ _ | loop _ _ _ _ _ | matching _ _ _
  | lambda _ _ _ _ | assertion _ _ _ | unchecked _ _ | attributed _ _ _ => .operand
  | application _ _ _ | not _ _ => .function
  | constructor _ arguments _ => if arguments.isEmpty then .atom else .operand
  | _ => .atom

/-- Whether an expression belongs to a level. -/
def IsAt (level : ExprLevel) (e : Expr) : Prop := level.rank ≤ e.level.rank

/-- **The levels of the parts** of an expression, where no bracket or keyword protects them. -/
def Leveled : Expr → Prop
  | range first step last _ _ =>
    first.IsAt .update ∧ (∀ e ∈ step, IsAt .update e) ∧ last.IsAt .update
  | application function argument _ => function.IsAt .function ∧ argument.IsAt .atom
  | binary _ left right _ => left.IsAt .operation ∧ right.IsAt .operation
  | negate operand _ => operand.IsAt .operand
  | not operand _ => operand.IsAt .atom
  | constructor _ arguments _ => ∀ e ∈ arguments, IsAt .atom e
  | ascription inner _ _ | coerce inner _ _ => inner.IsAt .range
  | index base _ _ | project base _ _ => base.IsAt .atom
  | rightSection _ operand _ => operand.IsAt .operation
  | update target _ value _ => target.IsAt .update ∧ value.IsAt .operation
  | assertion condition body _ => condition.IsAt .atom ∧ body.IsAt .atom
  | _ => True

/-- The operator at the top of an expression without parentheses. -/
def operator? : Expr → Option OperatorName
  | binary o _ _ _ => some o
  | _ => none

/-- **Operators climb.** The operators at the top of the two operands of an operator bind tighter
than it does, except that those of its own level may be repeated on the side to which they group. -/
def Climbs : Expr → Prop
  | binary o left right _ => ∃ k, o.class? = some k ∧
    (∀ o' ∈ left.operator?, ∃ k', o'.class? = some k' ∧ k.Takes .left k') ∧
    ∀ o' ∈ right.operator?, ∃ k', o'.class? = some k' ∧ k.Takes .right k'
  | _ => True

end Expr

/-! ### How far expressions reach -/

/-- **Ways to go on** after an expression: with an operator, with `with`, with dots or with a
colon. -/
inductive Continuation where
  | operator
  | update
  | range
  | type
deriving DecidableEq, Repr

/-- What stands where any expression may, and is of this level, would have gone on. Ranges do not go
on as ranges, and after a type nothing goes on. -/
def Continuation.level : Continuation → ExprLevel
  | range => .update
  | operator | update | type => .range

/-- The body of a case. -/
def MatchCase.body : MatchCase → Expr
  | mk _ body _ => body

namespace Expr

/-- **Keyword forms**: they start with a keyword, a backslash or an attribute, and end with an
expression of any level. -/
def isKeywordForm : Expr → Bool
  | conditional _ _ _ _ | letIn _ _ _ | loop _ _ _ _ _ | matching _ _ _ | lambda _ _ _ _
  | unchecked _ _ | attributed _ _ _ => true
  | _ => false

/-- What follows all the `let`s that an expression starts with. -/
def letBody : Expr → Expr
  | letIn _ body _ => body.letBody
  | e => e

/-- **The last part** of an expression, where neither a bracket nor an atom ends it. -/
def lastPart? : Expr → Option Expr
  | range _ _ last _ _ => some last
  | binary _ _ right _ => some right
  | negate operand _ => some operand
  | update _ _ value _ => some value
  | conditional _ _ elseBranch _ => some elseBranch
  | letIn _ body _ => some body.letBody
  | loop _ _ _ body _ | lambda _ _ body _ | unchecked body _ | attributed _ body _ => some body
  | matching _ cases _ => cases.getLast?.map MatchCase.body
  | _ => none

/-- **What an expression leaves.** Whoever goes on after it finds a continuation only if all keyword
forms that end with it have left that: their last parts are of a level that does not go on. -/
inductive Leaves (c : Continuation) : Expr → Prop
  | intro {e : Expr} (below : ∀ part ∈ e.lastPart?, Leaves c part)
      (refused : e.isKeywordForm → ∀ part ∈ e.lastPart?, ¬ part.IsAt c.level) : Leaves c e

/-- **Keyword forms reach as far as they can.** What follows a part of an expression has been left
by it. Three dots after the second element of a range are not among the continuations. -/
def Reaches : Expr → Prop
  | binary _ left _ _ => left.Leaves .operator
  | update target _ _ _ => target.Leaves .update
  | range first step _ kind _ =>
    first.Leaves .range ∧ (kind ≠ .inclusive → ∀ e ∈ step, Leaves .range e)
  | ascription inner _ _ | coerce inner _ _ => inner.Leaves .type
  | _ => True

end Expr

namespace Node

/-- Operators climb at a node. -/
def Climbs : Node → Prop
  | expr e => e.Climbs
  | _ => True

/-- Keyword forms reach as far as they can at a node. -/
def Reaches : Node → Prop
  | expr e => e.Reaches
  | _ => True

end Node

/-! ### Ranks -/

/-- **The levels of the parts** of an index: they are ranges. -/
def DimIndex.Leveled : DimIndex → Prop
  | fix value => value.IsAt .range
  | slice first last stride _ =>
    (∀ e ∈ first, Expr.IsAt .range e) ∧ (∀ e ∈ last, Expr.IsAt .range e) ∧
      ∀ e ∈ stride, Expr.IsAt .range e

/-- **The ranks in an expression**: the tiers of the types and patterns in it, the levels of its
parts, and how far these reach. -/
structure Expr.Ranked (e : Expr) : Prop where
  tiered : e.Tiered
  leveled : e.Leveled
  climbs : e.Climbs
  reaches : e.Reaches

namespace Node

/-- **The ranks at a node**: its parts are of the tiers and levels that may stand there without
brackets. -/
def Ranked : Node → Prop
  | type t => t.Tiered
  | sumConstructor (.mk _ arguments _) => ∀ t ∈ arguments, TypeExpr.isAtom t
  | pattern p => p.Tiered
  | expr e => e.Ranked
  | dimIndex d => d.Leveled
  | matchCase (.mk p _ _) => p.isUntyped
  | decl (.value b) => ∀ p ∈ b.params, Pattern.isAtomic p
  | _ => True

variable {n : Node}

theorem Ranked.climbs (h : n.Ranked) : n.Climbs := by
  cases n with
  | expr e => exact Expr.Ranked.climbs h
  | _ => trivial

theorem Ranked.reaches (h : n.Ranked) : n.Reaches := by
  cases n with
  | expr e => exact Expr.Ranked.reaches h
  | _ => trivial

end Node

/-! ### Expressions of a level -/

namespace Expr

variable {level level' : ExprLevel} {e : Expr}

/-- What belongs to a level belongs to the looser ones. -/
theorem IsAt.mono (h : e.IsAt level) (hle : level'.rank ≤ level.rank) : e.IsAt level' :=
  hle.trans h

/-- Only operations have an operator at the top. -/
theorem operator?_eq_none (h : e.IsAt .operand) : e.operator? = none := by
  have hlevel : ExprLevel.operand.rank ≤ e.level.rank := h
  cases e with
  | binary o left right span => simp [Expr.level, ExprLevel.rank] at hlevel
  | _ => rfl

/-- What is applied ends with an atom. -/
theorem lastPart?_eq_none (h : e.IsAt .function) : e.lastPart? = none := by
  have hlevel : ExprLevel.function.rank ≤ e.level.rank := h
  cases e <;> first | rfl | simp [Expr.level, ExprLevel.rank] at hlevel

end Expr

/-! ### What is left -/

namespace Expr

variable {c : Continuation} {e body : Expr}

/-- What ends with a bracket or an atom leaves everything. -/
theorem leaves_of_lastPart? (h : e.lastPart? = none) : e.Leaves c := by
  constructor <;> simp [h]

/-- What is no keyword form leaves what its last part leaves. -/
theorem Leaves.of_lastPart? {part : Expr} (h : e.lastPart? = some part)
    (hform : e.isKeywordForm = false) (hpart : part.Leaves c) : e.Leaves c := by
  constructor
  · simpa [h] using hpart
  · simp [hform]

/-- **What an expression refuses**, where it could have been of any level: it leaves that, and is
not of a level that goes on. -/
structure Refuses (c : Continuation) (e : Expr) : Prop where
  leaves : e.Leaves c
  not_isAt : ¬ e.IsAt c.level

/-- A keyword form leaves what its last part refuses. -/
theorem Refuses.keywordForm (h : body.Refuses c) (hlast : e.lastPart? = some body) :
    e.Leaves c := by
  constructor
  · simpa [hlast] using h.leaves
  · simpa [hlast] using fun _ => h.not_isAt

theorem lastPart?_of_letBody_ne (h : e.letBody ≠ e) : e.lastPart? = some e.letBody := by
  cases e with
  | letIn binding body span => rfl
  | _ => exact absurd rfl h

/-- What is refused is refused behind all `let`s. -/
theorem Refuses.letBody (h : e.Refuses c) : e.letBody.Refuses c := by
  by_cases hlet : e.letBody = e
  · rwa [hlet]
  · obtain ⟨hbelow, hrefused⟩ := h.leaves
    have hlast := lastPart?_of_letBody_ne hlet
    refine ⟨hbelow _ hlast, hrefused ?_ _ hlast⟩
    cases e with
    | letIn binding body span => rfl
    | _ => exact absurd rfl hlet

end Expr

end Futhark
