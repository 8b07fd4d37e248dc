import Futhark.Proofs.Parallel.TypeExpr

/-!
# Expressions are read in parallel

The rules of the grammar for expressions, one by one: each is made of the operations of
`Sides.Parallel`, and has the same result on both sides.
-/

namespace Futhark.Grammar

open Futhark.Parser Futhark.Parser.Sides

variable {σ τ : Type} {S : Sides σ τ}

/-! ### Parts without nested constructs -/

theorem operandAfter_agrees (operator : String) (span : Span) {operand : Parser σ Expr}
    {operand' : Parser τ Expr} (h : S.Agree operand operand') :
    S.Agree (operandAfter operator span operand) (operandAfter operator span operand') := by
  refine Parallel.kind.andThen fun k => ?_
  split
  · exact h
  · exact .raise _ _

theorem dottedFields_agrees : S.Agree dottedFields dottedFields := Parallel.fieldName.manyAfter _

theorem projectSection_agrees (o : Opening) : S.Agree (projectSection o) (projectSection o) :=
  dottedFields_agrees.andThen fun _ => (Parallel.close o _).andThen fun _ => .pure rfl

theorem operatorSection_agrees (o : Opening) (symbol : String) :
    S.Agree (operatorSection o symbol) (operatorSection o symbol) :=
  Parallel.advanceSpan.andThen fun _ => Parallel.advanceSpan.andThen fun _ => .pure rfl

theorem trailingOperator?_agrees : S.Agree trailingOperator? trailingOperator? := by
  refine Parallel.kind.andThen fun k => ?_
  split
  · refine Parallel.second.andThen fun next => ?_
    split <;> exact .pure rfl
  · exact .pure rfl

theorem atProjection_agrees : S.Agree atProjection atProjection :=
  .look (fun view => view.kind = .punct .dot && view.touches && view.secondTouches
    && view.second.fieldName?.isSome) (fun _ => rfl) fun _ => rfl

theorem projectedField?_agrees : S.Agree projectedField? projectedField? := by
  refine atProjection_agrees.andThen fun next => ?_
  split
  · exact .skip (Parallel.fieldName.map _)
  · exact .pure rfl

theorem rangeOperator?_agrees (accepted : List Punct) :
    S.Agree (rangeOperator? accepted) (rangeOperator? accepted) := by
  refine Parallel.kind.andThen fun k => ?_
  split
  · split
    · exact Parallel.advanceSpan.andThen fun _ => .pure rfl
    · exact .pure rfl
  · exact .pure rfl

section

variable {nest : Nest σ} {nest' : Nest τ} (hn : S.SilentNests nest nest')

include hn

/-! ### Indices -/

theorem slicePart_agrees : S.Agree (slicePart nest) (slicePart nest') := by
  refine Parallel.kind.andThen fun k => ?_
  split
  · exact hn.range.map _
  · exact .pure rfl

theorem sliceFrom_agrees (first : Option Expr) :
    S.Agree (sliceFrom nest first) (sliceFrom nest' first) := by
  refine Parallel.advanceSpan.andThen fun colon => (slicePart_agrees hn).andThen fun last => ?_
  refine (Parallel.eat? _).andThen fun taken => ?_
  cases taken with
  | none => exact .pure rfl
  | some colon => exact (slicePart_agrees hn).andThen fun _ => .pure rfl

theorem dimIndex_agrees : S.Agree (dimIndex nest) (dimIndex nest') := by
  refine (Parallel.at? _).andThen fun colon => ?_
  split
  · exact sliceFrom_agrees hn none
  · refine hn.range.andThen fun first => (Parallel.at? _).andThen fun colon => ?_
    split
    · exact sliceFrom_agrees hn (some first)
    · exact .pure rfl

theorem indices_agrees (o : Opening) : S.Agree (indices nest o) (indices nest' o) :=
  (dimIndex_agrees hn).commaSeparated.andThen fun _ => (Parallel.close o _).andThen fun _ => .pure rfl

/-! ### Atoms -/

theorem nameOrQualified_agrees : S.Agree (nameOrQualified nest) (nameOrQualified nest') := by
  refine Parallel.qualName.andThen fun name => ?_
  -- A dot and a parenthesis that touch each other and the name open the module.
  refine .ifSeen (fun view => view.kind = .punct .dot && view.touches
    && view.second = .punct .leftParen && view.secondTouches) ?_ (.pure rfl)
  refine .skip ((Parallel.opening _).andThen fun o => hn.expression.andThen fun inner => ?_)
  exact (Parallel.close o _).andThen fun _ => .pure rfl

theorem rightSection_agrees (o : Opening) (symbol : String) :
    S.Agree (rightSection nest o symbol) (rightSection nest' o symbol) := by
  refine Parallel.advanceSpan.andThen fun span => ?_
  refine (operandAfter_agrees symbol span (hn.binary 0)).andThen fun operand => ?_
  exact (Parallel.close o _).andThen fun _ => .pure rfl

theorem parenthesizedFrom_agrees (o : Opening) :
    S.Agree (parenthesizedFrom nest o) (parenthesizedFrom nest' o) := by
  refine hn.expression.andThen fun first => trailingOperator?_agrees.andThen fun trailing => ?_
  cases trailing with
  | some symbol =>
    exact Parallel.advanceSpan.andThen fun _ => Parallel.advanceSpan.andThen fun _ => .pure rfl
  | none =>
    refine (hn.expression.manyAfter _).andThen fun others => (Parallel.close o _).andThen fun stop => ?_
    dsimp only
    split <;> exact .pure rfl

theorem parenthesized_agrees : S.Agree (parenthesized nest) (parenthesized nest') := by
  refine (Parallel.opening _).andThen fun o => Parallel.kind.andThen fun k => ?_
  split
  · exact Parallel.advanceSpan.andThen fun _ => .pure rfl
  · exact projectSection_agrees o
  · refine Parallel.second.andThen fun next => ?_
    split
    · exact operatorSection_agrees o _
    · split
      · exact rightSection_agrees hn o _
      · exact parenthesizedFrom_agrees hn o
  · exact parenthesizedFrom_agrees hn o

theorem array_agrees : S.Agree (array nest) (array nest') := by
  refine (Parallel.opening _).andThen fun o => (hn.expression.commaSeparatedUntil _).andThen fun _ => ?_
  exact (Parallel.close o _).andThen fun _ => .pure rfl

theorem recordField_agrees : S.Agree (recordField nest) (recordField nest') := by
  refine Parallel.fieldName.andThen fun name => (Parallel.eat? _).andThen fun taken => ?_
  cases taken with
  | none => exact .pure rfl
  | some equal => exact hn.expression.andThen fun _ => .pure rfl

theorem record_agrees : S.Agree (record nest) (record nest') := by
  refine (Parallel.opening _).andThen fun o => ?_
  refine ((recordField_agrees hn).commaSeparatedUntil _).andThen fun fields => ?_
  exact (Parallel.close o _).andThen fun _ => .pure rfl

theorem atom_agrees : S.Agree (atom nest) (atom nest') := by
  refine Parallel.kind.andThen fun k => ?_
  split
  · exact Parallel.advanceSpan.andThen fun _ => .pure rfl
  · split
    · exact nameOrQualified_agrees hn
    · exact Parallel.advanceSpan.andThen fun _ => .pure rfl
    · exact parenthesized_agrees hn
    · exact array_agrees hn
    · exact record_agrees hn
    · exact .unexpected _

/-! ### Indexing, projection and application -/

theorem postfixStep_agrees (base : Expr) :
    S.Agree (postfixStep nest base) (postfixStep nest' base) := by
  refine (Parallel.at? _).andThen fun bracket => Parallel.touches.andThen fun touching => ?_
  split
  · refine (Parallel.opening _).andThen fun o => ?_
    exact (indices_agrees hn o).andThen fun _ => .pure rfl
  · refine atProjection_agrees.andThen fun next => ?_
    split
    · exact (Parallel.many projectedField?_agrees).andThen fun _ => .pure rfl
    · exact .pure rfl

theorem postfixAtom_agrees : S.Agree (postfixAtom nest) (postfixAtom nest') :=
  (atom_agrees hn).andThen fun base => .repeatSame (postfixStep_agrees hn) base

theorem argument?_agrees : S.Agree (argument? nest) (argument? nest') := by
  refine Parallel.kind.andThen fun k => ?_
  split
  · exact (postfixAtom_agrees hn).map _
  · exact .pure rfl

theorem applicationHead_agrees : S.Agree (applicationHead nest) (applicationHead nest') := by
  refine Parallel.kind.andThen fun k => ?_
  split
  · refine Parallel.advanceSpan.andThen fun bang => Parallel.kind.andThen fun k => ?_
    split
    · exact hn.postfixAtom.andThen fun _ => .pure rfl
    · exact .raise _ _
  · exact postfixAtom_agrees hn

theorem application_agrees : S.Agree (application nest) (application nest') := by
  refine Parallel.kind.andThen fun k => ?_
  split
  · refine Parallel.advanceSpan.andThen fun tag => ?_
    exact (Parallel.many (argument?_agrees hn)).andThen fun _ => .pure rfl
  · refine (applicationHead_agrees hn).andThen fun head => ?_
    exact .repeatSame (fun function => (argument?_agrees hn).andThen fun _ => .pure rfl) head

/-! ### Keyword forms -/

theorem conditional_agrees : S.Agree (conditional nest) (conditional nest') := by
  refine Parallel.advanceSpan.andThen fun start => hn.expression.andThen fun condition => ?_
  refine (Parallel.expectKeyword _).andThen fun _ => hn.expression.andThen fun thenBranch => ?_
  exact (Parallel.expectKeyword _).andThen fun _ => hn.expression.andThen fun _ => .pure rfl

theorem letUpdate_agrees : S.Agree (letUpdate nest) (letUpdate nest') := by
  refine Parallel.identifier.andThen fun name => (Parallel.opening _).andThen fun o => ?_
  refine (indices_agrees hn o).andThen fun list => (Parallel.expect _).andThen fun _ => ?_
  exact hn.expression.andThen fun _ => .pure rfl

theorem letFunction_agrees : S.Agree (letFunction nest) (letFunction nest') := by
  refine Parallel.identifier.andThen fun name => typeParams_agrees.andThen fun typeParams => ?_
  refine (params_agrees hn).andThen fun params => (returnType_agrees hn).andThen fun returnType => ?_
  exact (Parallel.expect _).andThen fun _ => hn.expression.andThen fun _ => .pure rfl

theorem letPattern_agrees : S.Agree (letPattern nest) (letPattern nest') := by
  refine hn.pattern.andThen fun pattern => (Parallel.expect _).andThen fun _ => ?_
  exact hn.expression.andThen fun _ => .pure rfl

theorem letBinding_agrees : S.Agree (letBinding nest) (letBinding nest') := by
  refine Parallel.second.andThen fun next => Parallel.secondTouches.andThen fun touching => ?_
  refine Parallel.kind.andThen fun k => ?_
  split
  · split
    · exact letUpdate_agrees hn
    · split
      · exact letFunction_agrees hn
      · exact letPattern_agrees hn
  · exact letPattern_agrees hn

theorem letIn_agrees : S.Agree (letIn nest) (letIn nest') := by
  refine Parallel.advanceSpan.andThen fun start => (letBinding_agrees hn).andThen fun binding => ?_
  refine (Parallel.eatKeyword? _).andThen fun taken => ?_
  split
  · exact hn.expression.andThen fun _ => .pure rfl
  -- Without an `in`, another `let` has to follow.
  · refine (Parallel.atKeyword? _).andThen fun next => ?_
    split
    · exact hn.letChain.andThen fun _ => .pure rfl
    · exact (Parallel.unexpected _ : S.Agree _ _).andThen fun _ => .pure rfl

theorem forForm_agrees : S.Agree (forForm nest) (forForm nest') := by
  refine Parallel.kind.andThen fun k => Parallel.second.andThen fun next => ?_
  split
  · refine Parallel.identifier.andThen fun name => .skip ?_
    exact hn.expression.andThen fun _ => .pure rfl
  · refine hn.pattern.andThen fun pattern => (Parallel.expectKeyword _).andThen fun _ => ?_
    exact hn.expression.andThen fun _ => .pure rfl

theorem loopForm_agrees (hasInitial : Bool) :
    S.Agree (loopForm nest hasInitial) (loopForm nest' hasInitial) := by
  refine (Parallel.eatKeyword? _).andThen fun taken => ?_
  split
  · exact forForm_agrees hn
  · refine (Parallel.eatKeyword? _).andThen fun taken => ?_
    split
    · exact hn.expression.map _
    · split <;> exact .unexpected _

theorem loop_agrees : S.Agree (loop nest) (loop nest') := by
  refine Parallel.advanceSpan.andThen fun start => hn.pattern.andThen fun parameter => ?_
  refine .optional _ hn.expression fun initial => (loopForm_agrees hn _).andThen fun form => ?_
  exact (Parallel.expectKeyword _).andThen fun _ => hn.expression.andThen fun _ => .pure rfl

theorem matchCase?_agrees : S.Agree (matchCase? nest) (matchCase? nest') := by
  refine (Parallel.eatKeyword? _).andThen fun taken => ?_
  cases taken with
  | none => exact .pure rfl
  | some start =>
    refine hn.constructorPattern.andThen fun pattern => (Parallel.expect _).andThen fun _ => ?_
    exact hn.expression.andThen fun _ => .pure rfl

theorem matching_agrees : S.Agree (matching nest) (matching nest') := by
  refine Parallel.advanceSpan.andThen fun start => hn.expression.andThen fun scrutinee => ?_
  refine (Parallel.many (matchCase?_agrees hn)).andThen fun cases => ?_
  split
  · exact .unexpected _
  · exact .pure rfl

theorem lambda_agrees : S.Agree (lambda nest) (lambda nest') := by
  refine Parallel.advanceSpan.andThen fun start => (params_agrees hn).andThen fun parameters => ?_
  split
  · exact .unexpected _
  · refine .optional _ hn.typeTerm fun returnType => (Parallel.expect _).andThen fun _ => ?_
    exact hn.expression.andThen fun _ => .pure rfl

theorem assertion_agrees : S.Agree (assertion nest) (assertion nest') := by
  refine Parallel.advanceSpan.andThen fun start => hn.postfixAtom.andThen fun condition => ?_
  exact hn.postfixAtom.andThen fun _ => .pure rfl

theorem unchecked_agrees : S.Agree (unchecked nest) (unchecked nest') :=
  Parallel.advanceSpan.andThen fun _ => hn.expression.andThen fun _ => .pure rfl

theorem attributed_agrees : S.Agree (attributed nest) (attributed nest') :=
  (attr_agrees hn).andThen fun _ => hn.expression.andThen fun _ => .pure rfl

theorem negation_agrees : S.Agree (negation nest) (negation nest') := by
  refine Parallel.advanceSpan.andThen fun minus => ?_
  exact (operandAfter_agrees _ minus hn.operand).andThen fun _ => .pure rfl

/-! ### Operators and what is looser -/

theorem operand_agrees : S.Agree (operand nest) (operand nest') := by
  refine Parallel.kind.andThen fun k => ?_
  split
  · exact negation_agrees hn
  · exact conditional_agrees hn
  · exact letIn_agrees hn
  · exact loop_agrees hn
  · exact matching_agrees hn
  · exact assertion_agrees hn
  · exact unchecked_agrees hn
  · exact lambda_agrees hn
  · exact attributed_agrees hn
  · exact application_agrees hn

theorem binaryStep_agrees (power : Nat) (left : Expr) :
    S.Agree (binaryStep nest power left) (binaryStep nest' power left) := by
  refine Parallel.kind.andThen fun k => ?_
  split
  -- An operator that is too loose, or that belongs to a section, is left alone on both sides.
  · split
    · exact .pure rfl
    · split
      · exact .pure rfl
      · refine Parallel.second.andThen fun next => ?_
        split
        · exact .pure rfl
        · refine Parallel.advanceSpan.andThen fun span => ?_
          exact (operandAfter_agrees _ span (hn.binary _)).andThen fun _ => .pure rfl
  · exact .pure rfl

theorem binary_agrees (power : Nat) : S.Agree (binary nest power) (binary nest' power) :=
  (operand_agrees hn).andThen fun left => .repeatSame (binaryStep_agrees hn power) left

theorem updatePath_agrees : S.Agree (updatePath nest) (updatePath nest') := by
  refine (Parallel.opening? _).andThen fun o? => ?_
  cases o? with
  | some o => exact (indices_agrees hn o).andThen fun _ => .pure rfl
  | none =>
    exact Parallel.fieldName.andThen fun first => dottedFields_agrees.andThen fun _ => .pure rfl

theorem updateStep_agrees (target : Expr) :
    S.Agree (updateStep nest target) (updateStep nest' target) := by
  refine (Parallel.eatKeyword? _).andThen fun taken => ?_
  cases taken with
  | none => exact .pure rfl
  | some start =>
    refine (updatePath_agrees hn).andThen fun path => (Parallel.expect _).andThen fun equals => ?_
    exact (operandAfter_agrees _ equals (hn.binary 0)).andThen fun _ => .pure rfl

theorem update_agrees : S.Agree (update nest) (update nest') :=
  (binary_agrees hn 0).andThen fun target => .repeatSame (updateStep_agrees hn) target

theorem rangeBound_agrees (operator : Punct × Span) :
    S.Agree (rangeBound nest operator) (rangeBound nest' operator) :=
  operandAfter_agrees _ _ (update_agrees hn)

theorem range_agrees : S.Agree (range nest) (range nest') := by
  refine (update_agrees hn).andThen fun first => (rangeOperator?_agrees _).andThen fun operator? => ?_
  cases operator? with
  | none => exact .pure rfl
  | some operator =>
    refine (rangeBound_agrees hn operator).andThen fun second => ?_
    dsimp only
    split
    · refine (rangeOperator?_agrees _).andThen fun last? => ?_
      cases last? with
      | none => exact .pure rfl
      | some operator => exact (rangeBound_agrees hn operator).andThen fun _ => .pure rfl
    · exact .pure rfl

theorem expression_agrees : S.Agree (expression nest) (expression nest') := by
  refine (range_agrees hn).andThen fun inner => Parallel.kind.andThen fun k => ?_
  split
  · exact .skip (hn.type.andThen fun _ => .pure rfl)
  · exact .skip (hn.type.andThen fun _ => .pure rfl)
  · exact .pure rfl

end

end Futhark.Grammar
