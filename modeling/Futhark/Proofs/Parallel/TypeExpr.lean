import Futhark.Proofs.Parallel.Basic

/-!
# Attributes, types and patterns are read in parallel

The rules of the grammar for attributes, types and patterns, one by one: each is made of the
operations of `Sides.Parallel`, and has the same result on both sides.
-/

namespace Futhark.Grammar

open Futhark.Parser Futhark.Parser.Sides

variable {σ τ : Type} {S : Sides σ τ} {nest : Nest σ} {nest' : Nest τ}

/-! ### Attributes -/

section

variable (hn : S.SilentNests nest nest')

include hn

theorem attributeInfo_agrees : S.Agree (attributeInfo nest) (attributeInfo nest') := by
  refine Parallel.kind.andThen fun k => ?_
  split
  · exact Parallel.advanceSpan.andThen fun _ => .pure rfl
  · refine Parallel.advanceSpan.andThen fun start => (Parallel.opening? _).andThen fun o? => ?_
    cases o? with
    | none => exact .pure rfl
    | some o =>
      refine (hn.attr.commaSeparatedUntil _).andThen fun arguments => ?_
      exact (Parallel.close o _).andThen fun _ => .pure rfl
  · exact .unexpected _

theorem attr_agrees : S.Agree (attr nest) (attr nest') := by
  refine (Parallel.expect _).andThen fun start => (attributeInfo_agrees hn).andThen fun info => ?_
  exact (Parallel.close _ _).andThen fun _ => .pure rfl

end

/-! ### Dimensions and parameters -/

theorem malformedDimension_agrees {α : Type} (o : Opening) {R : α → α → Prop} :
    S.Parallel R (malformedDimension o) (malformedDimension o) := by
  -- Which of the two errors it is depends on the next token only.
  let seen (view : View) : SyntaxError :=
    if view.kind.isFinish then ⟨.unclosedDelimiter o.punct.delimiter o.span, o.span⟩
    else ⟨.malformedDimension view.kind.describe, view.here⟩
  have hseen : ∀ (ρ : Type) (s : State ρ),
      (malformedDimension o : Parser ρ α) s = .error (seen s.view) s := by
    intro ρ s
    show (if (s.tokenAt 0).kind.isFinish then Parser.unclosed o
      else Parser.raise (.malformedDimension (s.tokenAt 0).kind.describe) (s.tokenAt 0).span
        : Parser ρ α) s = .error (if (s.tokenAt 0).kind.isFinish then _ else _) s
    split <;> rfl
  exact .fail seen (hseen σ) (hseen τ)

theorem closeDimension_agrees (o : Opening) : S.Agree (closeDimension o) (closeDimension o) := by
  refine (Parallel.eat? _).andThen fun taken => ?_
  cases taken with
  | some span => exact .pure rfl
  | none => exact malformedDimension_agrees o

theorem dimension_agrees : S.Agree dimension dimension := by
  refine (Parallel.expect _).andThen fun start => Parallel.kind.andThen fun k => ?_
  split
  · exact (closeDimension_agrees _).map _
  · exact Parallel.qualName.andThen fun name => (closeDimension_agrees _).map _
  · split
    · exact .skip ((closeDimension_agrees _).map _)
    · exact malformedDimension_agrees _
  · exact malformedDimension_agrees _

theorem bracketedName_agrees (o : Opening) : S.Agree (bracketedName o) (bracketedName o) :=
  Parallel.identifier.andThen fun _ => (Parallel.close o _).andThen fun _ => .pure rfl

theorem typeParam?_agrees : S.Agree typeParam? typeParam? := by
  refine Parallel.kind.andThen fun k => ?_
  split
  · refine Parallel.advanceSpan.andThen fun start => ?_
    exact Parallel.identifier.andThen fun name => .pure rfl
  · refine (Parallel.opening? _).andThen fun o? => ?_
    cases o? with
    | none => exact .pure rfl
    | some o => exact (bracketedName_agrees o).andThen fun _ => .pure rfl

theorem typeParams_agrees : S.Agree typeParams typeParams := .many typeParam?_agrees

/-! ### Types -/

theorem arrayType_agrees {element : Parser σ TypeExpr} {element' : Parser τ TypeExpr}
    (h : S.Agree element element') : S.Agree (arrayType element) (arrayType element') :=
  dimension_agrees.andThen fun _ => h.andThen fun _ => .pure rfl

/-- **Whether a parameter with a name comes next** is in view. -/
theorem atNamedParameter_agrees : S.Agree atNamedParameter atNamedParameter :=
  .look (fun view => view.kind = .punct .leftParen && view.second.isIdentifier
    && view.third = .punct .colon) (fun _ => rfl) fun _ => rfl

section

variable (hn : S.SilentNests nest nest')

include hn

theorem parenthesizedType_agrees : S.Agree (parenthesizedType nest) (parenthesizedType nest') := by
  refine (Parallel.opening _).andThen fun o => (Parallel.eat? _).andThen fun taken => ?_
  cases taken with
  | some stop => exact .pure rfl
  | none =>
    refine hn.type.commaSeparated.andThen fun elements => (Parallel.close o _).andThen fun stop => ?_
    dsimp only
    split <;> exact .pure rfl

theorem typeField_agrees : S.Agree (typeField nest) (typeField nest') := by
  refine Parallel.fieldName.andThen fun name => (Parallel.expect _).andThen fun _ => ?_
  exact hn.type.andThen fun _ => .pure rfl

theorem recordType_agrees : S.Agree (recordType nest) (recordType nest') := by
  refine (Parallel.opening _).andThen fun o => ?_
  refine ((typeField_agrees hn).commaSeparatedUntil _).andThen fun fields => ?_
  exact (Parallel.close o _).andThen fun _ => .pure rfl

theorem typeAtom_agrees : S.Agree (typeAtom nest) (typeAtom nest') := by
  refine Parallel.kind.andThen fun k => ?_
  split
  · exact Parallel.qualName.map _
  · exact parenthesizedType_agrees hn
  · exact recordType_agrees hn
  · exact arrayType_agrees hn.typeAtom
  · exact .unexpected _

theorem sumConstructor_agrees : S.Agree (sumConstructor nest) (sumConstructor nest') := by
  refine Parallel.kind.andThen fun k => ?_
  split
  · refine Parallel.advanceSpan.andThen fun tag => (Parallel.many ?_).andThen fun _ => .pure rfl
    refine Parallel.kind.andThen fun k => ?_
    split
    · exact (typeAtom_agrees hn).map _
    · exact .pure rfl
  · exact .unexpected _

theorem sumType_agrees (leadingBar : Option Span) :
    S.Agree (sumType nest leadingBar) (sumType nest' leadingBar) := by
  refine (sumConstructor_agrees hn).andThen fun first => (Parallel.many ?_).andThen fun _ => .pure rfl
  refine (Parallel.eat? _).andThen fun taken => ?_
  cases taken with
  | none => exact .pure rfl
  | some bar =>
    refine Parallel.kind.andThen fun k => ?_
    split
    · exact (sumConstructor_agrees hn).map _
    · exact .raise _ _

theorem typeArg?_agrees : S.Agree (typeArg? nest) (typeArg? nest') := by
  refine Parallel.kind.andThen fun k => ?_
  split
  · exact dimension_agrees.andThen fun _ => .pure rfl
  · exact (typeAtom_agrees hn).andThen fun _ => .pure rfl
  · exact (typeAtom_agrees hn).andThen fun _ => .pure rfl
  · exact (typeAtom_agrees hn).andThen fun _ => .pure rfl
  · exact .pure rfl

theorem typeApplication_agrees : S.Agree (typeApplication nest) (typeApplication nest') := by
  refine (typeAtom_agrees hn).andThen fun head => ?_
  split
  · exact .repeatSame (fun type => (typeArg?_agrees hn).andThen fun _ => .pure rfl) head
  · exact .pure rfl

theorem typeTerm_agrees : S.Agree (typeTerm nest) (typeTerm nest') := by
  refine Parallel.kind.andThen fun k => ?_
  split
  · exact Parallel.advanceSpan.andThen fun star => hn.typeTerm.andThen fun _ => .pure rfl
  · exact arrayType_agrees hn.typeTerm
  · exact sumType_agrees hn none
  · refine Parallel.second.andThen fun k => ?_
    split
    · exact Parallel.advanceSpan.andThen fun bar => sumType_agrees hn (some bar)
    · exact Parallel.here.andThen fun _ => .raise _ _
  · exact typeApplication_agrees hn

theorem namedParameter_agrees : S.Agree (namedParameter nest) (namedParameter nest') := by
  refine (Parallel.opening _).andThen fun o => Parallel.identifier.andThen fun name => .skip ?_
  refine hn.type.andThen fun param => (Parallel.close o _).andThen fun _ => ?_
  refine (Parallel.at? _).andThen fun next => ?_
  split
  · exact .pure rfl
  · exact .unexpected _

theorem existentialType_agrees : S.Agree (existentialType nest) (existentialType nest') := by
  refine Parallel.advanceSpan.andThen fun start => (Parallel.many ?_).andThen fun sizes => ?_
  · refine (Parallel.opening? _).andThen fun o? => ?_
    cases o? with
    | none => exact .pure rfl
    | some o => exact (bracketedName_agrees o).andThen fun _ => .pure rfl
  · split
    · exact .unexpected _
    · exact (Parallel.expect _).andThen fun _ => hn.type.andThen fun _ => .pure rfl

theorem functionResult_agrees (start : Span) (name : Option Identifier) (param : TypeExpr) :
    S.Agree (functionResult nest start name param) (functionResult nest' start name param) :=
  .skip (hn.type.andThen fun _ => .pure rfl)

theorem type_agrees : S.Agree (type nest) (type nest') := by
  refine (Parallel.at? _).andThen fun question => ?_
  split
  · exact existentialType_agrees hn
  · refine Parallel.here.andThen fun start => atNamedParameter_agrees.andThen fun named => ?_
    split
    · exact (namedParameter_agrees hn).andThen fun (name, param) =>
        functionResult_agrees hn start (some name) param
    · refine (typeTerm_agrees hn).andThen fun term => (Parallel.at? _).andThen fun arrow => ?_
      split
      · exact functionResult_agrees hn start none term
      · exact .pure rfl

/-! ### Patterns -/

theorem parenthesizedPattern_agrees :
    S.Agree (parenthesizedPattern nest) (parenthesizedPattern nest') := by
  refine (Parallel.opening _).andThen fun o => (Parallel.eat? _).andThen fun taken => ?_
  cases taken with
  | some stop => exact .pure rfl
  | none =>
    refine hn.pattern.commaSeparated.andThen fun elements => ?_
    refine (Parallel.close o _).andThen fun stop => ?_
    dsimp only
    split <;> exact .pure rfl

theorem recordPatternField_agrees :
    S.Agree (recordPatternField nest) (recordPatternField nest') := by
  refine Parallel.fieldName.andThen fun name => (Parallel.eat? _).andThen fun equal => ?_
  split
  · exact hn.pattern.andThen fun _ => .pure rfl
  · refine (Parallel.eat? _).andThen fun colon => ?_
    split
    · exact hn.type.andThen fun _ => .pure rfl
    · exact .pure rfl

theorem recordPattern_agrees : S.Agree (recordPattern nest) (recordPattern nest') := by
  refine (Parallel.opening _).andThen fun o => ?_
  refine ((recordPatternField_agrees hn).commaSeparatedUntil _).andThen fun fields => ?_
  exact (Parallel.close o _).andThen fun _ => .pure rfl

omit hn in
theorem negativeLiteral_agrees (sign : Span) :
    S.Agree (negativeLiteral sign) (negativeLiteral sign) := by
  refine Parallel.kind.andThen fun k => ?_
  split
  · exact Parallel.advanceSpan.andThen fun _ => .pure rfl
  · exact .unexpected _

theorem attributedPattern_agrees {inner : Parser σ Pattern} {inner' : Parser τ Pattern}
    (h : S.Agree inner inner') :
    S.Agree (attributedPattern nest inner) (attributedPattern nest' inner') :=
  (attr_agrees hn).andThen fun _ => h.andThen fun _ => .pure rfl

theorem atomicPattern_agrees : S.Agree (atomicPattern nest) (atomicPattern nest') := by
  refine Parallel.kind.andThen fun k => ?_
  split
  · exact Parallel.identifier.map _
  · exact Parallel.advanceSpan.map _
  · exact Parallel.advanceSpan.map _
  · exact Parallel.advanceSpan.andThen fun sign => negativeLiteral_agrees sign
  · exact Parallel.advanceSpan.andThen fun _ => .pure rfl
  · exact attributedPattern_agrees hn hn.atomicPattern
  · exact parenthesizedPattern_agrees hn
  · exact recordPattern_agrees hn
  · exact .unexpected _

theorem atomicPattern?_agrees : S.Agree (atomicPattern? nest) (atomicPattern? nest') := by
  refine Parallel.kind.andThen fun k => Parallel.second.andThen fun next => ?_
  split
  · exact (atomicPattern_agrees hn).map _
  · exact .pure rfl

theorem constructorPattern_agrees :
    S.Agree (constructorPattern nest) (constructorPattern nest') := by
  refine Parallel.kind.andThen fun k => ?_
  split
  · refine Parallel.advanceSpan.andThen fun tag => ?_
    exact (Parallel.many (atomicPattern?_agrees hn)).andThen fun _ => .pure rfl
  · exact attributedPattern_agrees hn hn.constructorPattern
  · exact atomicPattern_agrees hn

theorem pattern_agrees : S.Agree (pattern nest) (pattern nest') := by
  refine (constructorPattern_agrees hn).andThen fun inner => (Parallel.eat? _).andThen fun taken => ?_
  cases taken with
  | none => exact .pure rfl
  | some colon => exact hn.type.andThen fun _ => .pure rfl

theorem params_agrees : S.Agree (params nest) (params nest') := by
  refine .many (Parallel.kind.andThen fun k => Parallel.second.andThen fun next => ?_)
  split
  · exact hn.atomicPattern.map _
  · exact .pure rfl

theorem returnType_agrees : S.Agree (returnType nest) (returnType nest') := by
  refine (Parallel.eat? _).andThen fun taken => ?_
  cases taken with
  | none => exact .pure rfl
  | some colon => exact hn.type.map _

end

end Futhark.Grammar
