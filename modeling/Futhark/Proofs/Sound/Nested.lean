import Futhark.Proofs.Grammar.Spans

/-!
# What is asked of nested constructs

The grammar is read one level of nesting at a time. `Nest.Sound` is what is assumed of the levels
below: whatever is nested is read with its exact place, is of its rank, and is sound everywhere.
From it, the following modules derive the same for each rule of the grammar.

Of expressions it also has to be known how they end. One that stands where any expression may has
taken all that it could, so it refuses whatever comes next (`Expr.StopsBefore`). An operand may be
followed by what it leaves (`Expr.EndsBefore`), and an operation by operators that are too loose for
it (`StopsAt`).
-/

namespace Futhark

open Futhark.Parser

variable {σ : Type} {stream : TokenStream} {i j : Nat}

/-! ### Where expressions end -/

/-- **Where an operation stops.** The next token is no operator that binds as tightly as `power`,
unless it is left to a section. -/
def StopsAt (stream : TokenStream) (power j : Nat) : Prop :=
  ∀ symbol k, stream.kindAt j = .operator symbol → Operator.classify symbol = some k →
    stream.kindAt (j + 1) ≠ .punct .rightParen → k.power.left < power

/-- **A way to go on comes next.** An operator before a closing parenthesis is left to a section. -/
def Continuation.At (stream : TokenStream) (j : Nat) : Continuation → Prop
  | operator => ∃ symbol k, stream.kindAt j = .operator symbol ∧
      Operator.classify symbol = some k ∧ stream.kindAt (j + 1) ≠ .punct .rightParen
  | update => stream.kindAt j = .keyword .kwWith
  | range => ∃ p ∈ [Punct.dotDot, .dotDotLess, .dotDotGreater], stream.kindAt j = .punct p
  | type => stream.kindAt j = .punct .colon ∨ stream.kindAt j = .punct .colonGreater

theorem StopsAt.not_operator (h : StopsAt stream 0 j) : ¬ Continuation.operator.At stream j := by
  rintro ⟨symbol, k, hk, hclass, hparen⟩
  exact absurd (h symbol k hk hclass hparen) (Nat.not_lt_zero _)

/-- Where an operator comes next, the operation stops because of it. -/
theorem stopsAt_of_kindAt {power : Nat} {symbol : String} (hk : stream.kindAt i = .operator symbol)
    (h : ∀ k, Operator.classify symbol = some k → stream.kindAt (i + 1) ≠ .punct .rightParen →
      k.power.left < power) : StopsAt stream power i := by
  intro symbol' k hk' hclass
  rw [hk] at hk'
  obtain rfl := TokenKind.operator.inj hk'
  exact h k hclass

namespace Expr

/-- The operator at the top of an expression, if there is one, binds as tightly as `power`. -/
def BindsFrom (power : Nat) (e : Expr) : Prop :=
  ∀ o ∈ e.operator?, ∃ k, o.class? = some k ∧ power ≤ k.power.left

/-- **An expression ends before token `j`**: if there is a way to go on, it has left that. -/
def EndsBefore (stream : TokenStream) (e : Expr) (j : Nat) : Prop :=
  ∀ c : Continuation, c.At stream j → e.Leaves c

/-- **An expression of any level ends before token `j`**: if there is a way to go on, it has refused
that. -/
def StopsBefore (stream : TokenStream) (e : Expr) (j : Nat) : Prop :=
  ∀ c : Continuation, c.At stream j → e.Refuses c

variable {e part : Expr}

/-- What ends with an atom may end anywhere. -/
theorem endsBefore_of_lastPart? (h : e.lastPart? = none) : e.EndsBefore stream j :=
  fun _ _ => leaves_of_lastPart? h

/-- What has been given a type may stop anywhere: nothing goes on from there. -/
theorem StopsBefore.of_typed (hlevel : e.level = .typed) (h : e.lastPart? = none) :
    e.StopsBefore stream j := by
  intro c _
  refine ⟨leaves_of_lastPart? h, ?_⟩
  rw [IsAt, hlevel]
  cases c <;> decide

/-- What is no keyword form ends where its last part does. -/
theorem EndsBefore.of_lastPart? (hpart : part.EndsBefore stream j) (h : e.lastPart? = some part)
    (hform : e.isKeywordForm = false) : e.EndsBefore stream j :=
  fun c hc => (hpart c hc).of_lastPart? h hform

/-- A keyword form ends where its last part stops. -/
theorem StopsBefore.keywordForm (hpart : part.StopsBefore stream j)
    (h : e.lastPart? = some part) : e.EndsBefore stream j :=
  fun c hc => (hpart c hc).keywordForm h

end Expr

/-! ### Nested constructs -/

namespace Nonterminal

/-- The node that a nested construct is read as. -/
def node : (n : Nonterminal) → n.Tree → Node
  | attr, a => .attr a
  | type, t | typeTerm, t | typeAtom, t => .type t
  | pattern, p | constructorPattern, p | atomicPattern, p => .pattern p
  | expression, e | range, e | binary _, e | operand, e | postfixAtom, e | letChain, e => .expr e
  | declaration _, d | documentedDeclaration _, d => .decl d
  | spec, s | documentedSpec _, s => .spec s
  | moduleExpr, m => .moduleExpr m
  | moduleType, m | refinedModuleType, m => .moduleType m

/-- **The rank of a nested construct** that ends before token `j`, and how it ends. -/
def Fits (stream : TokenStream) : (n : Nonterminal) → n.Tree → Nat → Prop
  | typeTerm, t, _ => t.isTerm
  | typeAtom, t, _ => t.isAtom
  | constructorPattern, p, _ => p.isUntyped
  | atomicPattern, p, _ => p.isAtomic
  | expression, e, j => e.StopsBefore stream j
  | range, e, _ => e.IsAt .range
  | binary power, e, j =>
    e.IsAt .operation ∧ e.BindsFrom power ∧ StopsAt stream power j ∧ e.EndsBefore stream j
  | operand, e, j => e.IsAt .operand ∧ e.EndsBefore stream j
  | letChain, e, j => e.IsAt .operand ∧ e.letBody.StopsBefore stream j
  | postfixAtom, e, _ => e.IsAt .atom
  | _, _, _ => True

end Nonterminal

/-- **Reading a node** exactly, whenever it succeeds. -/
abbrev Reads {α : Type} (stream : TokenStream) (i : Nat) (p : Parser σ α) (node : α → Node) :
    Prop :=
  Ensures stream i p fun a j => Read stream i (node a) j

/-- **Reading a node of a rank.** -/
abbrev ReadsIn {α : Type} (stream : TokenStream) (i : Nat) (p : Parser σ α) (node : α → Node)
    (rank : α → Prop) : Prop :=
  Ensures stream i p fun a j => Read stream i (node a) j ∧ rank a

theorem ReadsIn.reads {α : Type} {p : Parser σ α} {node : α → Node} {rank : α → Prop}
    (h : ReadsIn stream i p node rank) : Reads stream i p node := h.mono fun _ _ _ h => h.1

/-- **A sound nest** reads all nested constructs exactly, and they are of their ranks. -/
def Nest.Sound (stream : TokenStream) (nest : Nest σ) : Prop :=
  ∀ (n : Nonterminal) (i : Nat), Ensures stream i (nest n) fun tree j =>
    Read stream i (n.node tree) j ∧ n.Fits stream tree j

namespace Nest.Sound

variable {nest : Nest σ} (hn : nest.Sound stream)

include hn

theorem reads (n : Nonterminal) (i : Nat) : Reads stream i (nest n) n.node :=
  (hn n i).mono fun _ _ _ h => h.1

theorem type (i : Nat) : Reads stream i nest.type .type := hn.reads .type i

theorem pattern (i : Nat) : Reads stream i nest.pattern .pattern := hn.reads .pattern i

theorem expression (i : Nat) : Reads stream i nest.expression .expr := hn.reads .expression i

/-- An expression of any level, which the construct around it ends with. -/
theorem body (i : Nat) :
    Ensures stream i nest.expression fun e j =>
      Read stream i (.expr e) j ∧ e.StopsBefore stream j := hn .expression i

theorem postfixAtom (i : Nat) : ReadsIn stream i nest.postfixAtom .expr (·.IsAt .atom) :=
  hn .postfixAtom i

theorem spec (i : Nat) : Reads stream i nest.spec .spec := hn.reads .spec i

theorem documentedSpec (doc : Option String) (i : Nat) :
    Reads stream i (nest.documentedSpec doc) .spec := hn.reads (.documentedSpec doc) i

theorem moduleType (i : Nat) : Reads stream i nest.moduleType .moduleType :=
  hn.reads .moduleType i

theorem moduleExpr (i : Nat) : Reads stream i nest.moduleExpr .moduleExpr :=
  hn.reads .moduleExpr i

theorem declaration (doc : Option String) (i : Nat) :
    Reads stream i (nest.declaration doc) .decl := hn.reads (.declaration doc) i

theorem documentedDeclaration (doc : Option String) (i : Nat) :
    Reads stream i (nest.documentedDeclaration doc) .decl :=
  hn.reads (.documentedDeclaration doc) i

end Nest.Sound

end Futhark
