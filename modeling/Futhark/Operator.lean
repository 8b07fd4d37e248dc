/-!
# Infix operators

Programs may define infix operators of their own, so how tightly an operator binds cannot come from
a table of known symbols. It follows from the operator's spelling, mostly from its first character:
`classify` gives the level and the associativity, and `OperatorClass.power` turns them into the two
numbers that precedence climbing compares.
-/

namespace Futhark

/-- **Precedence levels**, loosest first. `arrow` is the level of function types, `neg` that of
prefix negation and `app` that of application; no infix operator has one of these three. -/
inductive OperatorLevel where
  | arrow
  | assign
  | or
  | and
  | rel
  | concat
  | add
  | mult
  | pow
  | neg
  | app
deriving DecidableEq, Repr, Inhabited

/-- The rank of a level: a higher rank binds tighter. -/
def OperatorLevel.rank : OperatorLevel → Nat
  | arrow => 3
  | assign => 5
  | or => 7
  | and => 8
  | rel => 9
  | concat => 12
  | add => 14
  | mult => 15
  | pow => 16
  | neg => 17
  | app => 18

/-- How operators of one level group. -/
inductive Associativity where
  | left
  | right
  | none
deriving DecidableEq, Repr, Inhabited

/-- **Class of an operator**: its level and the way it groups with others of that level. -/
structure OperatorClass where
  level : OperatorLevel
  associativity : Associativity
deriving DecidableEq, Repr, Inhabited

/-- **Binding powers.** An operator joins the operand read so far when its `left` power is at least
the power asked for, and its right operand is read with `right` as the power asked for. -/
structure BindingPower where
  left : Nat
  right : Nat
deriving DecidableEq, Repr, Inhabited

namespace OperatorClass

/-- A level whose operators group to the left. -/
def leftAt (level : OperatorLevel) : OperatorClass := ⟨level, .left⟩

/-- A level whose operators group to the right. -/
def rightAt (level : OperatorLevel) : OperatorClass := ⟨level, .right⟩

/-- **Powers of a class.** Ranks are doubled, so that the half step which keeps a left-associative
operator from taking its own level on the right stays below the next level. -/
def power (k : OperatorClass) : BindingPower :=
  let left := k.level.rank * 2
  match k.associativity with
  | .right => ⟨left, left⟩
  | .left | .none => ⟨left, left + 1⟩

end OperatorClass

namespace Operator

/-- The arrow of function types groups to the right, below every level of expressions. -/
def typeArrow : OperatorClass := .rightAt .arrow

/-- Words that are operators rather than names. -/
def words : List String := ["mod", "land", "lor", "lxor", "lsl", "lsr", "asr", "or"]

/-- **Class by leading characters**, for spellings that are not special. A bare `=`, `&` or `|` is
left out: the first and the last are punctuation, and `&` is special. -/
def classifySymbol : List Char → Option OperatorClass
  | [] => none
  | c :: rest =>
    if c = '*' ∧ rest.head? = some '*' then some (.rightAt .pow)
    else if c ∈ ['*', '/', '%'] then some (.leftAt .mult)
    else if c ∈ ['+', '-'] then some (.leftAt .add)
    else if c ∈ ['@', '^'] then some (.rightAt .concat)
    else if c ∈ ['<', '>', '$'] then some (.leftAt .rel)
    else if c ∈ ['=', '&', '|'] ∧ rest ≠ [] then some (.leftAt .rel)
    else none

/-- **Class of an infix operator** by its spelling, `none` for what is no infix operator, such as
`!`, which only stands in front of its operand. -/
def classify (symbol : String) : Option OperatorClass :=
  if symbol ∈ ["lsl", "lsr", "asr"] then some (.rightAt .pow)
  else if symbol ∈ ["mod", "land", "lor", "lxor"] then some (.leftAt .mult)
  else if symbol ∈ ["or", "||"] then some (.rightAt .or)
  else if symbol ∈ ["&", "&&"] then some (.rightAt .and)
  else if symbol = ":=" then some (.rightAt .assign)
  else if symbol = "!=" then some (.leftAt .rel)
  else classifySymbol symbol.toList

end Operator

end Futhark
