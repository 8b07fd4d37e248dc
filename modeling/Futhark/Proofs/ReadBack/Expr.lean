import Futhark.Proofs.ReadBack.Pattern
import Futhark.Proofs.Render.Expr

/-!
# What it takes to read expressions back

An expression is written as an atom with indices and fields behind it. So the parser of atoms reads
it, and so does every parser of something looser, as long as what follows does not belong to the
expression: `PostfixEnds`, `OperationEnds`, `RangeEnds` and `ExprEnds` say when that is. What stands
between parentheses is the other half of the story (`insideExpr`): there every kind of expression is
read by a rule of its own.

Nested expressions are read by a nest that is only known to read back phrases of a certain size
(`Nest.ReadsExprs`).
-/

namespace Futhark

open Futhark.Parser
open Render (ExprPosition)

variable {σ : Type} {stream : TokenStream} {i j : Nat}

/-! ### Likeness -/

namespace Expr

/-- **Likeness of expressions.** The core is the same, and so is the phrase at every position. -/
structure Like (e e' : Expr) : Prop where
  core : e'.core = e.core
  phrase : ∀ position, exprPhrase position e' = exprPhrase position e

theorem Like.parens {e e' : Expr} {span : Span} (h : Like e e') : Like e (.parens e' span) := by
  refine ⟨by rw [Expr.core, h.core], fun position => ?_⟩
  rw [exprPhrase, h.phrase]

theorem Like.of_parens {e e' : Expr} {span : Span} (h : Like e e') : Like (.parens e span) e' := by
  refine ⟨by rw [Expr.core, h.core], fun position => ?_⟩
  rw [exprPhrase, h.phrase]

end Expr

/-- Expressions that are alike one by one. -/
theorem likeExprs {es es' : List Expr} (h : List.Forall₂ Expr.Like es es') :
    Expr.coreAll es' = Expr.coreAll es ∧ exprPhrases es' = exprPhrases es := by
  rw [Expr.coreAll_eq_map, Expr.coreAll_eq_map, exprPhrases_eq_map, exprPhrases_eq_map]
  exact ⟨map_eq_of_forall₂ (h.imp fun _ _ h => h.core),
    map_eq_of_forall₂ (h.imp fun _ _ h => h.phrase .any)⟩

/-! ### What stands between parentheses -/

/-- **The phrase of an expression between its parentheses.** Without parentheses, it is just the
phrase. -/
def insideExpr : Expr → Phrase
  | .range first step last kind _ =>
    (exprPhrase .any first).andThen
      (optionalPieces (.punct .dotDot) (exprOptionPhrase step)
        ++ markedPieces (.punct (rangePunct kind step.isSome)) (exprPhrase .any last))
  | .application function argument _ =>
    (exprPhrase .head function).andThen ((exprPhrase .any argument).after space)
  | .binary o left right _ =>
    (exprPhrase .any left).andThen (markedPieces (.operator o.symbol) (exprPhrase .any right))
  | .negate operand _ => ⟨.operator "-", (exprPhrase .any operand).after []⟩
  | .not operand _ => ⟨.operator "!", (exprPhrase .any operand).after []⟩
  | .constructor tag arguments _ => ⟨.constructor tag.name, spacedPieces (exprPhrases arguments)⟩
  | .ascription inner t _ => (exprPhrase .any inner).andThen (typedPieces space t)
  | .coerce inner t _ =>
    (exprPhrase .any inner).andThen (markedPieces (.punct .colonGreater) (typePhrase .any t))
  | .update target path value _ =>
    (exprPhrase .any target).andThen
      (markedPieces (.keyword .kwWith) (pathPhrase path)
        ++ markedPieces (.punct .equal) (exprPhrase .any value))
  | .conditional condition thenBranch elseBranch _ =>
    ⟨.keyword .kwIf, (exprPhrase .any condition).after space
      ++ (markedPieces (.keyword .kwThen) (exprPhrase .any thenBranch)
        ++ markedPieces (.keyword .kwElse) (exprPhrase .any elseBranch))⟩
  | .letIn binding body _ =>
    ⟨.keyword .kwLet, (bindingPhrase binding).after space
      ++ markedPieces (.keyword .kwIn) (exprPhrase .any body)⟩
  | .loop parameter initial form body _ =>
    ⟨.keyword .kwLoop, (patternPhrase false parameter).after space
      ++ (optionalPieces (.punct .equal) (exprOptionPhrase initial)
        ++ (formPieces form ++ markedPieces (.keyword .kwDo) (exprPhrase .any body)))⟩
  | .matching scrutinee cases _ =>
    ⟨.keyword .kwMatch, (exprPhrase .any scrutinee).after space
      ++ spacedPieces (casePhrases cases)⟩
  | .lambda parameters t body _ =>
    ⟨.punct .backslash, lambdaPieces parameters
      ++ (termPieces t ++ markedPieces (.punct .arrow) (exprPhrase .any body))⟩
  | .assertion condition body _ =>
    ⟨.keyword .kwAssert, (exprPhrase .any condition).after space
      ++ (exprPhrase .any body).after space⟩
  | .unchecked body _ => ⟨.keyword .kwUnsafe, (exprPhrase .any body).after space⟩
  | .attributed a inner _ => (attrPhrase a).andThen ((exprPhrase .any inner).after space)
  | e => exprPhrase .any e

/-- Whether an expression stands in parentheses at a position. -/
def Expr.isEnclosed (position : ExprPosition) : Expr → Bool
  | literal _ _ | name _ => position = .projected
  | constructor _ arguments _ => !arguments.isEmpty || position ≠ .any
  | range _ _ _ _ _ | application _ _ _ | binary _ _ _ _ | negate _ _ | not _ _ | ascription _ _ _
  | coerce _ _ _ | update _ _ _ _ | conditional _ _ _ _ | letIn _ _ _ | loop _ _ _ _ _
  | matching _ _ _ | lambda _ _ _ _ | assertion _ _ _ | unchecked _ _ | attributed _ _ _ => true
  | _ => false

theorem exprPhrase_of_isEnclosed {position : ExprPosition} {e : Expr}
    (h : e.isEnclosed position = true) :
    exprPhrase position e = (insideExpr e).enclosed := by
  cases e with
  | literal value span =>
    have h : (decide (position = .projected)) = true := h
    simp [exprPhrase, insideExpr, h, Phrase.enclosedIf]
  | name q =>
    have h : (decide (position = .projected)) = true := h
    simp [exprPhrase, insideExpr, h, Phrase.enclosedIf]
  | constructor tag arguments span =>
    have h : (!arguments.isEmpty || decide (position ≠ .any)) = true := h
    rw [exprPhrase, insideExpr, h, Phrase.enclosedIf, if_pos rfl]
  | parens _ _ | unit _ | tuple _ _ | record _ _ | array _ _ | index _ _ _ | project _ _ _
  | qualifiedParens _ _ _ | operatorSection _ _ | leftSection _ _ _ | rightSection _ _ _
  | projectSection _ _ => exact absurd h Bool.false_ne_true
  | _ => rw [exprPhrase, insideExpr]

/-! ### What may follow an expression -/

/-- Whether the arguments of a function end before the token. -/
def closesAtoms (k : TokenKind) : Bool := !Grammar.startsAtom k && k ≠ .punct .dot

/-- Neither an index nor a projection touches what is before the token. -/
def PostfixEnds (stream : TokenStream) (i : Nat) : Prop :=
  stream.touchesAt i = true → stream.kindAt i ≠ .punct .leftBracket ∧ stream.kindAt i ≠ .punct .dot

/-- No more operands follow. An operator before a closing parenthesis belongs to a section. -/
structure OperationEnds (stream : TokenStream) (i : Nat) : Prop where
  atoms : closesAtoms (stream.kindAt i) = true
  operator : ∀ symbol, stream.kindAt i = .operator symbol →
    stream.kindAt (i + 1) = .punct .rightParen

/-- Nor does an update or the rest of a range. -/
structure RangeEnds (stream : TokenStream) (i : Nat) : Prop extends OperationEnds stream i where
  update : stream.kindAt i ≠ .keyword .kwWith
  range : ∀ p ∈ [Punct.dotDot, .dotDotDot, .dotDotLess, .dotDotGreater],
    stream.kindAt i ≠ .punct p

/-- Nor does a type. -/
structure ExprEnds (stream : TokenStream) (i : Nat) : Prop extends RangeEnds stream i where
  colon : stream.kindAt i ≠ .punct .colon
  coercion : stream.kindAt i ≠ .punct .colonGreater

theorem postfixEnds_of_closesAtoms (h : closesAtoms (stream.kindAt i) = true) :
    PostfixEnds stream i := by
  intro _
  rw [closesAtoms, Bool.and_eq_true, Bool.not_eq_true', decide_eq_true_eq] at h
  refine ⟨fun hbracket => ?_, h.2⟩
  rw [hbracket] at h
  exact absurd h.1 (by decide)

/-- A token with a gap before it is neither an index nor a projection. -/
theorem postfixEnds_of_piece {k : TokenKind} (h : stream.HasPiece i ⟨space, k⟩) :
    PostfixEnds stream i := by
  intro htouches
  rw [h.touches] at htouches
  exact absurd htouches (by simp [space])

/-- Whether an expression ends before the token, whatever comes after that. -/
def closesExpr : TokenKind → Bool
  | .punct p => p ∈ [.rightParen, .rightBracket, .rightBrace, .comma, .equal, .arrow]
  | .keyword word => word ∉ [.kwTrue, .kwFalse, .kwWith]
  | .finish => true
  | _ => false

theorem closesAtoms_of_closesExpr {k : TokenKind} (h : closesExpr k = true) :
    closesAtoms k = true := by
  cases k with
  | punct p => cases p <;> first | rfl | exact absurd h (by decide)
  | keyword word => cases word <;> first | rfl | exact absurd h (by decide)
  | finish => rfl
  | _ => exact absurd h Bool.false_ne_true

theorem exprEnds_of_closes (h : closesExpr (stream.kindAt i) = true) : ExprEnds stream i := by
  have hne : ∀ k, closesExpr k = false → stream.kindAt i ≠ k := by
    rintro k hk rfl
    rw [hk] at h
    exact absurd h Bool.false_ne_true
  have hrange : ∀ p ∈ [Punct.dotDot, .dotDotDot, .dotDotLess, .dotDotGreater],
      closesExpr (.punct p) = false := by decide
  exact ⟨⟨⟨closesAtoms_of_closesExpr h, fun symbol hk => absurd hk (hne _ rfl)⟩, hne _ rfl,
    fun p hp => hne _ (hrange p hp)⟩, hne _ rfl, hne _ rfl⟩

theorem operationEnds_of_kindAt {k : TokenKind} (hk : stream.kindAt i = k)
    (hclose : closesAtoms k = true) (hoperator : k.isOperator = false) :
    OperationEnds stream i := by
  refine ⟨by rwa [hk], fun symbol h => ?_⟩
  rw [← hk, h] at hoperator
  exact absurd hoperator (by simp [TokenKind.isOperator])

/-- Punctuation that neither opens a bracket nor goes on with a range or a projection. -/
theorem rangeEnds_of_punct {p : Punct} (hk : stream.kindAt i = .punct p)
    (hp : p ∉ [Punct.leftParen, .leftBracket, .leftBrace, .dot, .dotDot, .dotDotDot, .dotDotLess,
      .dotDotGreater]) : RangeEnds stream i := by
  have hclose : closesAtoms (.punct p) = true := by
    cases p <;> first | rfl | exact absurd hp (by decide)
  refine ⟨operationEnds_of_kindAt hk hclose rfl, by rw [hk]; simp, fun q hq h => ?_⟩
  rw [hk, TokenKind.punct.injEq] at h
  subst h
  have hincluded : [Punct.dotDot, .dotDotDot, .dotDotLess, .dotDotGreater] ⊆
      [Punct.leftParen, .leftBracket, .leftBrace, .dot, .dotDot, .dotDotDot, .dotDotLess,
        .dotDotGreater] := by decide
  exact hp (hincluded hq)

/-! ### Nests that read expressions back -/

/-- Whether a pattern is a constructor without arguments, parentheses apart. -/
def Pattern.isBareConstructor : Pattern → Bool
  | parens inner _ => isBareConstructor inner
  | constructor _ arguments _ => arguments.isEmpty
  | _ => false

/-- **Functions apart.** A local function does not start like a pattern: its first parameter is no
constructor without arguments, unless there are type parameters. -/
def Node.FunctionsApart : Node → Prop
  | expr (.letIn (.function _ [] (p :: _) _ _) _ _) => p.isBareConstructor = false
  | _ => True

/-- What is asked of a node for it to be read as what it is. -/
def Node.Legible (n : Node) : Prop := n.WellFormed ∧ n.FunctionsApart

/-- **Expressions are read back** by a nest, as long as they have at most `size` tokens. -/
structure Nest.ReadsExprs (nest : Nest σ) (stream : TokenStream) (size : Nat) : Prop where
  patterns : nest.ReadsPatterns stream size
  any : ∀ (e : Expr) (gap : List Trivia) (i j : Nat), (Node.expr e).Everywhere Node.Legible →
    (exprPhrase .any e).length ≤ size → stream.Spells i ((exprPhrase .any e).after gap) j →
    ExprEnds stream j → ∃ e', Runs stream i nest.expression e' j ∧ e.Like e'
  inside : ∀ (e : Expr) (i j : Nat), (Node.expr e).Everywhere Node.Legible →
    (insideExpr e).length ≤ size → stream.Spells i ((insideExpr e).after []) j →
    stream.kindAt j = .punct .rightParen → ∃ e', Runs stream i nest.expression e' j ∧ e.Like e'
  range : ∀ (e : Expr) (gap : List Trivia) (i j : Nat), (Node.expr e).Everywhere Node.Legible →
    (exprPhrase .any e).length ≤ size → stream.Spells i ((exprPhrase .any e).after gap) j →
    RangeEnds stream j → ∃ e', Runs stream i nest.range e' j ∧ e.Like e'
  binary : ∀ (power : Nat) (e : Expr) (gap : List Trivia) (i j : Nat),
    (Node.expr e).Everywhere Node.Legible →
    (exprPhrase .any e).length ≤ size → stream.Spells i ((exprPhrase .any e).after gap) j →
    OperationEnds stream j → ∃ e', Runs stream i (nest.binary power) e' j ∧ e.Like e'
  operand : ∀ (e : Expr) (gap : List Trivia) (i j : Nat), (Node.expr e).Everywhere Node.Legible →
    (exprPhrase .any e).length ≤ size → stream.Spells i ((exprPhrase .any e).after gap) j →
    closesAtoms (stream.kindAt j) = true → ∃ e', Runs stream i nest.operand e' j ∧ e.Like e'
  postfixAtom : ∀ (e : Expr) (gap : List Trivia) (i j : Nat),
    (Node.expr e).Everywhere Node.Legible →
    (exprPhrase .any e).length ≤ size → stream.Spells i ((exprPhrase .any e).after gap) j →
    PostfixEnds stream j → ∃ e', Runs stream i nest.postfixAtom e' j ∧ e.Like e'

namespace Grammar

variable {nest : Nest σ} {size : Nat} {gap : List Trivia} {e' : Expr}

/-! ### From tight to loose -/

theorem runs_postfixStep_none (base : Expr) (hj : PostfixEnds stream j) :
    Runs stream j (postfixStep nest base) none j := by
  refine (Runs.at? .leftBracket).bind ((Runs.touches 0).bind ?_)
  have hindex : (decide (stream.kindAt j = .punct .leftBracket) && stream.touchesAt (j + 0)) =
      false := by
    by_contra h
    rw [Bool.not_eq_false, Bool.and_eq_true, decide_eq_true_eq] at h
    exact (hj h.2).1 h.1
  rw [hindex]
  refine Runs.atProjection.bind ?_
  have hprojection : (decide (stream.kindAt j = .punct .dot) && stream.touchesAt j
      && stream.touchesAt (j + 1) && (stream.kindAt (j + 1)).fieldName?.isSome) = false := by
    by_contra h
    simp only [Bool.not_eq_false, Bool.and_eq_true, decide_eq_true_eq] at h
    exact (hj h.1.1.2).2 h.1.1.1
  rw [hprojection]
  exact .pure _

theorem runs_argument?_none (hj : closesAtoms (stream.kindAt j) = true) :
    Runs stream j (argument? nest) none j := by
  refine Runs.kind.bind ?_
  rw [closesAtoms, Bool.and_eq_true, Bool.not_eq_true'] at hj
  rw [hj.1]
  exact .pure _

/-- One more argument, if one comes next. -/
def applicationStep (nest : Nest σ) (function : Expr) : Parser σ (Option Expr) := do
  return (← argument? nest).map fun argument =>
    .application function argument (function.span.merge argument.span)

/-- **A function and its arguments**, as many as there are. -/
theorem runs_application_of_chain {k : TokenKind} {head : Expr} {m : Nat}
    (hk : stream.kindAt i = k) (hconstructor : k.isConstructor = false)
    (hhead : Runs stream i (applicationHead nest) head m)
    (hchain : Chain stream (applicationStep nest) m head j e')
    (hj : closesAtoms (stream.kindAt j) = true) : Runs stream i (application nest) e' j := by
  have hrest : Runs stream i
      (do
        let head ← applicationHead nest
        repeatFrom (applicationStep nest) head) e' j :=
    hhead.bind (.repeatFrom hchain ((runs_argument?_none hj).bind (.pure _)))
  refine Runs.kindOf hk ?_
  cases k with
  | constructor name => exact absurd hconstructor (by simp [TokenKind.isConstructor])
  | _ => exact hrest

/-- An atom may be applied. -/
theorem runs_applicationHead_of_atom {k : TokenKind} (hk : stream.kindAt i = k)
    (hstart : startsAtom k = true) (h : Runs stream i (postfixAtom nest) e' j) :
    Runs stream i (applicationHead nest) e' j := by
  refine Runs.kindOf hk ?_
  cases k with
  | operator symbol => exact absurd hstart Bool.false_ne_true
  | _ => exact h

/-- An atom that takes no arguments. -/
theorem runs_application_of_atom {k : TokenKind} (hk : stream.kindAt i = k)
    (hstart : startsAtom k = true) (hconstructor : k.isConstructor = false)
    (h : Runs stream i (postfixAtom nest) e' j) (hj : closesAtoms (stream.kindAt j) = true) :
    Runs stream i (application nest) e' j :=
  runs_application_of_chain hk hconstructor (runs_applicationHead_of_atom hk hstart h) .nil hj

/-- What starts with an atom starts with none of the words for larger forms. -/
theorem runs_operand_of_application {k : TokenKind} (hk : stream.kindAt i = k)
    (hstart : startsAtom k = true ∨ k = .operator "!")
    (h : Runs stream i (application nest) e' j) : Runs stream i (operand nest) e' j := by
  refine Runs.kindOf hk ?_
  rcases hstart with hstart | rfl
  · cases k with
    | operator symbol => exact absurd hstart nofun
    | keyword word => cases word <;> first | exact absurd hstart (by decide) | exact h
    | punct p => cases p <;> first | exact absurd hstart (by decide) | exact h
    | _ => exact h
  · exact h

/-- Where the operands end, there is no step. -/
theorem runs_binaryStep_of_ends (power : Nat) (left : Expr) (hj : OperationEnds stream j) :
    Runs stream j (binaryStep nest power left) none j := by
  refine Runs.kind.bind ?_
  cases hk : stream.kindAt j with
  | operator symbol =>
    dsimp only
    split
    · exact .pure _
    · split_ifs
      · exact .pure _
      · refine (Runs.kindAt 1).bind ?_
        rw [if_pos (hj.operator symbol hk)]
        exact .pure _
  | _ => exact .pure _

theorem runs_binary_of_operand (power : Nat) (h : Runs stream i (operand nest) e' j)
    (hj : OperationEnds stream j) : Runs stream i (binary nest power) e' j :=
  h.bind (.repeatFrom .nil (runs_binaryStep_of_ends power e' hj))

theorem runs_updateStep_none (target : Expr) (hj : stream.kindAt j ≠ .keyword .kwWith) :
    Runs stream j (updateStep nest target) none j :=
  (Runs.eatKeyword?_none hj).bind (.pure _)

theorem runs_update_of_binary (h : Runs stream i (binary nest 0) e' j)
    (hj : stream.kindAt j ≠ .keyword .kwWith) : Runs stream i (update nest) e' j :=
  h.bind (.repeatFrom .nil (runs_updateStep_none e' hj))

theorem runs_rangeOperator?_none {accepted : List Punct}
    (hj : ∀ p ∈ accepted, stream.kindAt j ≠ .punct p) :
    Runs stream j (rangeOperator? accepted : Parser σ _) none j := by
  refine Runs.kind.bind ?_
  cases hk : stream.kindAt j with
  | punct p =>
    dsimp only
    rw [if_neg fun hp => hj p hp hk]
    exact .pure _
  | _ => exact .pure _

theorem runs_range_of_update (h : Runs stream i (update nest) e' j) (hj : RangeEnds stream j) :
    Runs stream i (range nest) e' j := by
  have hincluded : [Punct.dotDot, .dotDotLess, .dotDotGreater] ⊆
      [Punct.dotDot, .dotDotDot, .dotDotLess, .dotDotGreater] := by decide
  exact h.bind ((runs_rangeOperator?_none fun p hp => hj.range p (hincluded hp)).bind (.pure _))

theorem runs_range_of_binary (h : Runs stream i (binary nest 0) e' j) (hj : RangeEnds stream j) :
    Runs stream i (range nest) e' j :=
  runs_range_of_update (runs_update_of_binary h hj.update) hj

theorem runs_expression_of_range (h : Runs stream i (range nest) e' j) (hj : ExprEnds stream j) :
    Runs stream i (expression nest) e' j := by
  refine h.bind (Runs.kind.bind ?_)
  cases hk : stream.kindAt j with
  | punct p =>
    cases p <;> first
      | exact absurd hk hj.colon
      | exact absurd hk hj.coercion
      | exact .pure _
  | _ => exact .pure _

/-- An operand by itself. -/
theorem runs_expression_of_operand (h : Runs stream i (operand nest) e' j)
    (hj : ExprEnds stream j) : Runs stream i (expression nest) e' j :=
  runs_expression_of_range
    (runs_range_of_binary (runs_binary_of_operand 0 h hj.toOperationEnds) hj.toRangeEnds) hj

/-! ### What expressions start with -/

theorem startsAtom_literalKind (value : Literal) : startsAtom (literalKind value) = true := by
  cases value with
  | bool value => cases value <;> rfl
  | _ => rfl

/-- **The first token of an expression** starts an atom. -/
theorem startsAtom_exprPhrase {e : Expr} (h : (Node.expr e).Everywhere Node.Legible)
    (position : ExprPosition) : startsAtom (exprPhrase position e).first = true := by
  have henclosedIf : ∀ {p : Phrase} {needed : Bool}, startsAtom p.first = true →
      startsAtom (p.enclosedIf needed).first = true := by
    intro p needed hp
    cases needed
    · exact hp
    · rfl
  refine h.onExprs (P := fun e => ∀ position, startsAtom (exprPhrase position e).first = true)
    (fun e _ ih position => ?_) position
  cases e with
  | literal value span => exact henclosedIf (startsAtom_literalKind value)
  | name q => exact henclosedIf rfl
  | parens inner span =>
    rw [exprPhrase]
    exact ih (.expr inner) (by simp [Expr.nodes]) position
  | constructor tag arguments span =>
    rw [exprPhrase]
    exact henclosedIf rfl
  | index base indices span =>
    rw [exprPhrase]
    exact ih (.expr base) (by simp [Expr.nodes]) .head
  | project base fields span =>
    rw [exprPhrase]
    exact ih (.expr base) (by simp [Expr.nodes]) .projected
  | _ =>
    rw [exprPhrase]
    rfl

theorem ne_punct_of_startsAtom {k : TokenKind} {q : Punct} (hk : startsAtom k = true)
    (hq : q ∉ [Punct.leftParen, .leftBracket, .leftBrace]) : k ≠ .punct q := by
  rintro rfl
  exact hq (of_decide_eq_true hk)

theorem startsExpr_of_startsAtom {k : TokenKind} (h : startsAtom k = true) :
    startsExpr k = true := by
  unfold startsExpr
  rw [h]
  rfl

/-- An operand is read after its operator. -/
theorem runs_operandAfter {operator : String} {span : Span} {p : Parser σ Expr} {k : TokenKind}
    (hk : stream.kindAt i = k) (hstart : startsAtom k = true) (h : Runs stream i p e' j) :
    Runs stream i (operandAfter operator span p) e' j := by
  refine Runs.kindOf hk ?_
  rw [startsExpr_of_startsAtom hstart]
  exact h

/-- **An operator that is tight enough** takes its right operand. -/
theorem runs_binaryStep_of_operator {power : Nat} (left : Expr) {symbol : String} {k : TokenKind}
    {class' : OperatorClass} (hclass : Operator.classify symbol = some class')
    (hpower : ¬ class'.power.left < power) (hoperator : stream.HasPiece i ⟨gap, .operator symbol⟩)
    (hk : stream.kindAt (i + 1) = k) (hstart : startsAtom k = true)
    (hright : Runs stream (i + 1) (nest.binary class'.power.right) e' j) :
    Runs stream i (binaryStep nest power left)
      (some (.binary ⟨symbol, (stream.tokenAt i).span⟩ left e' (left.span.merge e'.span))) j := by
  refine Runs.kindOf hoperator.kind ?_
  dsimp only
  rw [hclass]
  dsimp only
  rw [if_neg hpower]
  refine (Runs.kindAt 1).bind ?_
  rw [if_neg]
  · exact (Runs.advanceSpan hoperator.lt).bind
      ((runs_operandAfter hk hstart hright).bind (.pure _))
  · rw [hk]
    exact ne_punct_of_startsAtom hstart (by decide)

end Grammar

end Futhark
