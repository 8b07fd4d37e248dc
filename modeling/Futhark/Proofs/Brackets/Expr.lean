import Futhark.Proofs.Brackets.TypeExpr

/-!
# Brackets and blame in patterns and expressions

Each rule of the grammar of patterns and expressions leaves the brackets as it finds them, or blames
a token. The sections of operators, which take a closing parenthesis that has been seen before, do
so as well.
-/

namespace Futhark.Grammar

open Futhark.Parser

variable {σ : Type} {stream : TokenStream} {length i : Nat} {stack : List Opening}
  {W : Watch stream σ} {resolver : Option (Resolver σ)}

variable {nest : Nest σ} (hs : stream.Scanned length) (hn : nest.Keeps W)
  (hW : W.Follows resolver)

/-! ### Patterns -/

section

include hs

theorem negativeLiteral_keeps {sign : Span} :
    Keeps W i (negativeLiteral sign : Parser σ Pattern) := by
  intro stack
  apply Tracks.kind
  split
  · rename_i value hk
    exact .advanceSpan hs (by rw [hk]; rfl) (.pure trivial)
  · exact .unexpected

include hn

theorem parenthesizedPattern_keeps (hk : stream.kindAt i = .punct .leftParen) :
    Keeps W i (parenthesizedPattern nest) := by
  intro stack
  apply Tracks.opening hs hk rfl
  apply Tracks.eatClosing? hs (o := ⟨.leftParen, (stream.tokenAt i).span⟩)
  · exact fun _ => .pure trivial
  · intro _
    apply (Keeps.commaSeparated hs (hn.free .pattern rfl)).bind
    intro elements j
    apply Tracks.close hs
    dsimp only
    split <;> exact .pure trivial

theorem recordPatternField_keeps : Keeps W i (recordPatternField nest) := by
  intro stack
  apply (fieldName_keeps hs).bind
  intro name j
  apply Tracks.eat? hs rfl
  · exact fun _ => (hn.free .pattern rfl (j + 1)).bind fun _ _ => .pure trivial
  · intro _
    apply Tracks.eat? hs rfl
    · exact fun _ => (hn.free .type rfl (j + 1)).bind fun _ _ => .pure trivial
    · exact fun _ => .pure trivial

theorem recordPattern_keeps (hk : stream.kindAt i = .punct .leftBrace) :
    Keeps W i (recordPattern nest) := by
  intro stack
  apply Tracks.opening hs hk rfl
  apply (Keeps.commaSeparatedUntil hs fun j => recordPatternField_keeps hs hn).bind
  exact fun fields j => .close hs (.pure trivial)

theorem attributedPattern_keeps {inner : Parser σ Pattern} (h : ∀ j, Keeps W j inner) :
    Keeps W i (attributedPattern nest inner) := by
  intro stack
  apply (attr_keeps hs hn).bind
  exact fun a j => (h j).bind fun _ _ => .pure trivial

theorem atomicPattern_keeps : Keeps W i (atomicPattern nest) := by
  intro stack
  apply Tracks.kind
  split
  · exact (identifier_keeps hs).bind fun _ _ => .pure trivial
  · rename_i hk
    exact .advanceSpan hs (by rw [hk]; rfl) (.pure trivial)
  · rename_i value hk
    exact .advanceSpan hs (by rw [hk]; rfl) (.pure trivial)
  · rename_i hk
    exact .advanceSpan hs (by rw [hk]; rfl) (negativeLiteral_keeps hs stack)
  · rename_i name hk
    exact .advanceSpan hs (by rw [hk]; rfl) (.pure trivial)
  · exact attributedPattern_keeps hs hn (hn.free .atomicPattern rfl) stack
  · rename_i hk
    exact parenthesizedPattern_keeps hs hn hk stack
  · rename_i hk
    exact recordPattern_keeps hs hn hk stack
  · exact .unexpected

theorem atomicPattern?_keeps : Keeps W i (atomicPattern? nest) := by
  intro stack
  apply Tracks.kind
  apply Tracks.kindAt 1
  split
  · exact (atomicPattern_keeps hs hn).bind fun _ _ => .pure trivial
  · exact .pure trivial

theorem constructorPattern_keeps : Keeps W i (constructorPattern nest) := by
  intro stack
  apply Tracks.kind
  split
  · rename_i name hk
    apply Tracks.advanceSpan hs (by rw [hk]; rfl)
    exact (Keeps.many fun j => atomicPattern?_keeps hs hn).bind fun _ _ => .pure trivial
  · exact attributedPattern_keeps hs hn (hn.free .constructorPattern rfl) stack
  · exact atomicPattern_keeps hs hn stack

theorem pattern_keeps : Keeps W i (pattern nest) := by
  intro stack
  apply (constructorPattern_keeps hs hn).bind
  intro inner j
  apply Tracks.eat? hs rfl
  · exact fun _ => (hn.free .type rfl (j + 1)).bind fun _ _ => .pure trivial
  · exact fun _ => .pure trivial

omit hs in
theorem params_keeps : Keeps W i (params nest) := by
  apply Keeps.many
  intro j stack
  apply Tracks.kind
  apply Tracks.kindAt 1
  split
  · exact (hn.free .atomicPattern rfl j).bind fun _ _ => .pure trivial
  · exact .pure trivial

theorem returnType_keeps : Keeps W i (returnType nest) := by
  intro stack
  apply Tracks.eat? hs rfl
  · exact fun _ => (hn.free .type rfl (i + 1)).bind fun _ _ => .pure trivial
  · exact fun _ => .pure trivial

end

/-! ### Indices -/

/-- An operator without an operand is to blame itself. -/
theorem operandAfter_keeps {k : Nat} {text : String} {operand : Parser σ Expr}
    (hk : (stream.kindAt k).IsOperatorText text) (h : Keeps W i operand) :
    Keeps W i (operandAfter text (stream.tokenAt k).span operand) := by
  intro stack
  apply Tracks.kind
  split
  · exact h stack
  · exact .raise (.missingOperand hk)

include hn

theorem slicePart_keeps : Keeps W i (slicePart nest) := by
  intro stack
  apply Tracks.kind
  split
  · exact (hn.free .range rfl i).bind fun _ _ => .pure trivial
  · exact .pure trivial

include hs

theorem sliceFrom_keeps {first : Option Expr} (hk : stream.kindAt i = .punct .colon) :
    Keeps W i (sliceFrom nest first) := by
  intro stack
  apply Tracks.advanceSpan hs (by rw [hk]; rfl)
  apply (slicePart_keeps hn).bind
  intro last j
  apply Tracks.eat? hs rfl
  · exact fun _ => (slicePart_keeps hn).bind fun _ _ => .pure trivial
  · exact fun _ => .pure trivial

theorem dimIndex_keeps : Keeps W i (dimIndex nest) := by
  intro stack
  apply Tracks.at?
  split
  · rename_i hk
    exact sliceFrom_keeps hs hn (of_decide_eq_true hk) stack
  · apply (hn.free .range rfl i).bind
    intro first j
    apply Tracks.at?
    split
    · rename_i hk
      exact sliceFrom_keeps hs hn (of_decide_eq_true hk) stack
    · exact .pure trivial

theorem indices_tracks {o : Opening} :
    Tracks W i (o :: stack) (indices nest o) stack fun _ _ => True := by
  apply (Keeps.commaSeparated hs fun j => dimIndex_keeps hs hn).bind
  exact fun list j => .close hs (.pure trivial)

/-! ### Atoms -/

theorem nameOrQualified_keeps : Keeps W i (nameOrQualified nest) := by
  intro stack
  apply (qualName_keeps hs).bind
  intro name j
  apply Tracks.get
  intro s hat
  split
  · rename_i hq
    rw [hat.tokenAt 0, hat.tokenAt 1] at hq
    simp only [Bool.and_eq_true, decide_eq_true_eq] at hq
    obtain ⟨⟨⟨hdot, -⟩, hparen⟩, -⟩ := hq
    have hdot : stream.kindAt j = .punct .dot := hdot
    apply Tracks.advance hs (by rw [hdot]; rfl)
    apply Tracks.opening hs hparen rfl
    apply (hn.free .expression rfl _).bind
    exact fun inner k => .close hs (.pure trivial)
  · exact .pure trivial

omit hn in
theorem dottedFields_keeps : Keeps W i (dottedFields : Parser σ (List Identifier)) :=
  .manyAfter hs rfl fun _ => fieldName_keeps hs

omit hn in
theorem projectSection_tracks {o : Opening} :
    Tracks W i (o :: stack) (projectSection o : Parser σ Expr) stack fun _ _ => True := by
  apply (dottedFields_keeps hs).bind
  exact fun fields j => .close hs (.pure trivial)

omit hn in
theorem operatorSection_tracks {o : Opening} {symbol : String} (ho : o.punct = .leftParen)
    (hk : stream.kindAt i = .operator symbol) (hclose : stream.kindAt (i + 1) = .punct .rightParen) :
    Tracks W i (o :: stack) (operatorSection o symbol : Parser σ Expr) stack
      fun _ _ => True := by
  apply Tracks.advanceSpan hs (by rw [hk]; rfl)
  exact .advanceClosing hs (by rw [hclose, ho]; rfl) (.pure trivial)

theorem rightSection_tracks {o : Opening} {symbol : String}
    (hk : stream.kindAt i = .operator symbol) :
    Tracks W i (o :: stack) (rightSection nest o symbol) stack fun _ _ => True := by
  apply Tracks.advanceSpan hs (by rw [hk]; rfl)
  apply (operandAfter_keeps (Or.inl hk) (hn.free (.binary 0) rfl (i + 1))).bind
  exact fun operand j => .close hs (.pure trivial)

omit hs hn in
/-- The operator of a left section has its closing parenthesis right behind it. -/
theorem trailingOperator?_tracks :
    Tracks W i stack (trailingOperator? : Parser σ (Option String)) stack fun o j => j = i ∧
      ∀ symbol ∈ o, stream.kindAt i = .operator symbol ∧
        stream.kindAt (i + 1) = .punct .rightParen := by
  apply Tracks.kind
  split
  · rename_i symbol hk
    apply Tracks.kindAt 1
    split
    · rename_i h
      simp only [Bool.and_eq_true, decide_eq_true_eq] at h
      apply Tracks.pure
      refine ⟨rfl, ?_⟩
      rintro _ ⟨⟩
      exact ⟨hk, h.2⟩
    · exact .pure ⟨rfl, nofun⟩
  · exact .pure ⟨rfl, nofun⟩

theorem parenthesizedFrom_tracks {o : Opening} (ho : o.punct = .leftParen) :
    Tracks W i (o :: stack) (parenthesizedFrom nest o) stack fun _ _ => True := by
  apply (hn.free .expression rfl i).bind
  intro first j
  apply trailingOperator?_tracks.bind
  rintro (_ | symbol) j ⟨rfl, hop⟩
  · apply (Keeps.manyAfter hs rfl (hn.free .expression rfl)).bind
    intro others k
    apply Tracks.close hs
    dsimp only
    split <;> exact .pure trivial
  · obtain ⟨hk, hclose⟩ := hop symbol rfl
    apply Tracks.advanceSpan hs (by rw [hk]; rfl)
    exact .advanceClosing hs (by rw [hclose, ho]; rfl) (.pure trivial)

theorem parenthesized_keeps (hk : stream.kindAt i = .punct .leftParen) :
    Keeps W i (parenthesized nest) := by
  intro stack
  apply Tracks.opening hs hk rfl
  apply Tracks.kind
  split
  · rename_i hclose
    exact .advanceClosing hs hclose (.pure trivial)
  · exact projectSection_tracks hs
  · rename_i symbol hop
    apply Tracks.kindAt 1
    split
    · rename_i hclose
      exact operatorSection_tracks hs rfl hop hclose
    · split
      · exact rightSection_tracks hs hn hop
      · exact parenthesizedFrom_tracks hs hn rfl
  · exact parenthesizedFrom_tracks hs hn rfl

theorem array_keeps (hk : stream.kindAt i = .punct .leftBracket) :
    Keeps W i (array nest) := by
  intro stack
  apply Tracks.opening hs hk rfl
  apply (Keeps.commaSeparatedUntil hs (hn.free .expression rfl)).bind
  exact fun elements j => .close hs (.pure trivial)

theorem recordField_keeps : Keeps W i (recordField nest) := by
  intro stack
  apply (fieldName_keeps hs).bind
  intro name j
  apply Tracks.eat? hs rfl
  · exact fun _ => (hn.free .expression rfl (j + 1)).bind fun _ _ => .pure trivial
  · exact fun _ => .pure trivial

theorem record_keeps (hk : stream.kindAt i = .punct .leftBrace) :
    Keeps W i (record nest) := by
  intro stack
  apply Tracks.opening hs hk rfl
  apply (Keeps.commaSeparatedUntil hs fun j => recordField_keeps hs hn).bind
  exact fun fields j => .close hs (.pure trivial)

omit hs hn in
/-- A literal is neither a bracket nor an import. -/
theorem not_isBracket_of_literalOf? {k : TokenKind} {value : Literal}
    (hk : literalOf? k = some value) :
    k.isBracket = false ∧ k ≠ .finish ∧ k ≠ .keyword .kwImport := by
  cases k with
  | punct q => exact absurd hk nofun
  | finish => exact absurd hk nofun
  | keyword word =>
    refine ⟨rfl, nofun, ?_⟩
    rintro ⟨⟩
    exact absurd hk nofun
  | _ => exact ⟨rfl, nofun, nofun⟩

omit hn in
include hW in
/-- A literal may be a string. -/
theorem literal_keeps {value : Literal} (hk : literalOf? (stream.kindAt i) = some value) :
    Keeps W i (do return .literal value (← advanceSpan) : Parser σ Expr) := by
  intro stack
  obtain ⟨hbracket, hfinish, himport⟩ := not_isBracket_of_literalOf? hk
  exact .advanceFree hs hW hbracket hfinish himport (.pure trivial)

include hW in
theorem atom_keeps : Keeps W i (atom nest) := by
  intro stack
  apply Tracks.kind
  split
  · rename_i value hk
    exact literal_keeps hs hW hk stack
  · split
    · exact nameOrQualified_keeps hs hn stack
    · rename_i name hk
      exact .advanceSpan hs (by rw [hk]; rfl) (.pure trivial)
    · rename_i hk
      exact parenthesized_keeps hs hn hk stack
    · rename_i hk
      exact array_keeps hs hn hk stack
    · rename_i hk
      exact record_keeps hs hn hk stack
    · exact .unexpected

/-! ### Indexing, projection and application -/

omit hn in
theorem projectedField?_keeps :
    Keeps W i (projectedField? : Parser σ (Option Identifier)) := by
  intro stack
  apply Tracks.look .atProjection fun _ => ⟨_, rfl⟩
  split
  · rename_i h
    have hdot : stream.kindAt i = .punct .dot := by
      simp only [Bool.and_eq_true, decide_eq_true_eq] at h
      exact h.1.1.1
    apply Tracks.advance hs (by rw [hdot]; rfl)
    exact (fieldName_keeps hs).bind fun _ _ => .pure trivial
  · exact .pure trivial

theorem postfixStep_keeps {base : Expr} : Keeps W i (postfixStep nest base) := by
  intro stack
  apply Tracks.at?
  apply Tracks.touches 0
  split
  · rename_i h
    simp only [Bool.and_eq_true, decide_eq_true_eq] at h
    apply Tracks.opening hs h.1 rfl
    exact (indices_tracks hs hn).bind fun _ _ _ => .pure trivial
  · apply Tracks.look .atProjection fun _ => ⟨_, rfl⟩
    split
    · exact (Keeps.many fun _ => projectedField?_keeps hs).bind fun _ _ => .pure trivial
    · exact .pure trivial

include hW in
theorem postfixAtom_keeps : Keeps W i (postfixAtom nest) := by
  intro stack
  apply (atom_keeps hs hn hW).bind
  exact fun base j => Keeps.repeatFrom (fun _ _ => postfixStep_keeps hs hn) base stack

include hW in
theorem argument?_keeps : Keeps W i (argument? nest) := by
  intro stack
  apply Tracks.kind
  split
  · exact (postfixAtom_keeps hs hn hW).bind fun _ _ => .pure trivial
  · exact .pure trivial

include hW in
theorem applicationHead_keeps : Keeps W i (applicationHead nest) := by
  intro stack
  apply Tracks.kind
  split
  · rename_i hk
    apply Tracks.advanceSpan hs (by rw [hk]; rfl)
    apply Tracks.kind
    split
    · exact (hn.free .postfixAtom rfl (i + 1)).bind fun _ _ => .pure trivial
    · exact .raise (.missingOperand (Or.inl hk))
  · exact postfixAtom_keeps hs hn hW stack

include hW in
theorem application_keeps : Keeps W i (application nest) := by
  intro stack
  apply Tracks.kind
  split
  · rename_i name hk
    apply Tracks.advanceSpan hs (by rw [hk]; rfl)
    exact (Keeps.many fun j => argument?_keeps hs hn hW).bind fun _ _ => .pure trivial
  · apply (applicationHead_keeps hs hn hW).bind
    intro head j
    apply Keeps.repeatFrom
    intro function k stack
    exact (argument?_keeps hs hn hW).bind fun _ _ => .pure trivial

/-! ### Keyword forms -/

theorem conditional_keeps (hk : stream.kindAt i = .keyword .kwIf) :
    Keeps W i (conditional nest) := by
  intro stack
  apply Tracks.advanceSpan hs (by rw [hk]; rfl)
  apply (hn.free .expression rfl _).bind
  intro condition j
  apply Tracks.expectKeyword hs rfl
  apply (hn.free .expression rfl _).bind
  intro thenBranch k
  apply Tracks.expectKeyword hs rfl
  exact (hn.free .expression rfl _).bind fun _ _ => .pure trivial

theorem letUpdate_keeps (hk : stream.kindAt (i + 1) = .punct .leftBracket) :
    Keeps W i (letUpdate nest) := by
  intro stack
  apply (identifier_tracks hs).bind
  rintro name j rfl
  apply Tracks.opening hs hk rfl
  apply (indices_tracks hs hn).bind
  intro r j _
  apply Tracks.expect hs rfl
  exact fun _ => (hn.free .expression rfl _).bind fun _ _ => .pure trivial

theorem letFunction_keeps : Keeps W i (letFunction nest) := by
  intro stack
  apply (identifier_keeps hs).bind
  intro name j
  apply (typeParams_keeps hs).bind
  intro typeParams k
  apply (params_keeps hn).bind
  intro params l
  apply (returnType_keeps hs hn).bind
  intro returnType m
  apply Tracks.expect hs rfl
  exact fun _ => (hn.free .expression rfl _).bind fun _ _ => .pure trivial

theorem letPattern_keeps : Keeps W i (letPattern nest) := by
  intro stack
  apply (hn.free .pattern rfl i).bind
  intro pattern j
  apply Tracks.expect hs rfl
  exact fun _ => (hn.free .expression rfl _).bind fun _ _ => .pure trivial

theorem letBinding_keeps : Keeps W i (letBinding nest) := by
  intro stack
  apply Tracks.kindAt 1
  apply Tracks.touches 1
  apply Tracks.kind
  split
  · split
    · rename_i h
      exact letUpdate_keeps hs hn h.1 stack
    · split
      · exact letFunction_keeps hs hn stack
      · exact letPattern_keeps hs hn stack
  · exact letPattern_keeps hs hn stack

theorem letIn_keeps (hk : stream.kindAt i = .keyword .kwLet) : Keeps W i (letIn nest) := by
  intro stack
  apply Tracks.advanceSpan hs (by rw [hk]; rfl)
  apply (letBinding_keeps hs hn).bind
  intro binding j
  apply Tracks.eatKeyword? hs rfl
  · intro _
    apply Tracks.atKeyword?
    exact (hn.free .expression rfl (j + 1)).bind fun _ _ => .pure trivial
  · intro _
    apply Tracks.atKeyword?
    dsimp only [Option.isSome_none]
    rw [if_neg Bool.false_ne_true]
    split
    · rename_i hlet
      exact (hn.letChain j (of_decide_eq_true hlet)).bind fun _ _ => .pure trivial
    · exact Keeps.unexpected.bind fun _ _ => .pure trivial

theorem forForm_keeps : Keeps W i (forForm nest) := by
  intro stack
  apply Tracks.kind
  apply Tracks.kindAt 1
  split
  · rename_i h
    simp only [Bool.and_eq_true, decide_eq_true_eq] at h
    apply (identifier_tracks hs).bind
    rintro name j rfl
    apply Tracks.advance hs (by rw [h.2]; rfl)
    exact (hn.free .expression rfl _).bind fun _ _ => .pure trivial
  · apply (hn.free .pattern rfl i).bind
    intro pattern j
    apply Tracks.expectKeyword hs rfl
    exact (hn.free .expression rfl _).bind fun _ _ => .pure trivial

theorem loopForm_keeps {hasInitial : Bool} : Keeps W i (loopForm nest hasInitial) := by
  intro stack
  apply Tracks.eatKeyword? hs rfl
  · exact fun _ => forForm_keeps hs hn stack
  · intro _
    apply Tracks.eatKeyword? hs rfl
    · exact fun _ => (hn.free .expression rfl _).bind fun _ _ => .pure trivial
    · intro _
      dsimp only [Option.isSome_none]
      rw [if_neg Bool.false_ne_true]
      split <;> exact .unexpected

theorem loop_keeps (hk : stream.kindAt i = .keyword .kwLoop) : Keeps W i (loop nest) := by
  intro stack
  apply Tracks.advanceSpan hs (by rw [hk]; rfl)
  apply (hn.free .pattern rfl _).bind
  intro parameter j
  apply Keeps.optional hs rfl (hn.free .expression rfl)
  intro initial k
  apply (loopForm_keeps hs hn).bind
  intro form l
  apply Tracks.expectKeyword hs rfl
  exact (hn.free .expression rfl _).bind fun _ _ => .pure trivial

theorem matchCase?_keeps : Keeps W i (matchCase? nest) := by
  intro stack
  apply Tracks.eatKeyword? hs rfl
  · intro _
    apply (hn.free .constructorPattern rfl _).bind
    intro pattern j
    apply Tracks.expect hs rfl
    exact fun _ => (hn.free .expression rfl _).bind fun _ _ => .pure trivial
  · exact fun _ => .pure trivial

theorem matching_keeps (hk : stream.kindAt i = .keyword .kwMatch) :
    Keeps W i (matching nest) := by
  intro stack
  apply Tracks.advanceSpan hs (by rw [hk]; rfl)
  apply (hn.free .expression rfl _).bind
  intro scrutinee j
  apply (Keeps.many fun k => matchCase?_keeps hs hn).bind
  intro cases k
  split
  · exact .unexpected
  · exact .pure trivial

theorem lambda_keeps (hk : stream.kindAt i = .punct .backslash) :
    Keeps W i (lambda nest) := by
  intro stack
  apply Tracks.advanceSpan hs (by rw [hk]; rfl)
  apply (params_keeps hn).bind
  intro parameters j
  split
  · exact .unexpected
  · apply Keeps.optional hs rfl (hn.free .typeTerm rfl)
    intro returnType k
    apply Tracks.expect hs rfl
    exact fun _ => (hn.free .expression rfl _).bind fun _ _ => .pure trivial

theorem assertion_keeps (hk : stream.kindAt i = .keyword .kwAssert) :
    Keeps W i (assertion nest) := by
  intro stack
  apply Tracks.advanceSpan hs (by rw [hk]; rfl)
  apply (hn.free .postfixAtom rfl _).bind
  exact fun condition j => (hn.free .postfixAtom rfl j).bind fun _ _ => .pure trivial

theorem unchecked_keeps (hk : stream.kindAt i = .keyword .kwUnsafe) :
    Keeps W i (unchecked nest) := by
  intro stack
  apply Tracks.advanceSpan hs (by rw [hk]; rfl)
  exact (hn.free .expression rfl _).bind fun _ _ => .pure trivial

theorem attributed_keeps : Keeps W i (attributed nest) := by
  intro stack
  apply (attr_keeps hs hn).bind
  exact fun a j => (hn.free .expression rfl j).bind fun _ _ => .pure trivial

theorem negation_keeps (hk : stream.kindAt i = .operator "-") :
    Keeps W i (negation nest) := by
  intro stack
  apply Tracks.advanceSpan hs (by rw [hk]; rfl)
  exact (operandAfter_keeps (Or.inl hk) (hn.free .operand rfl (i + 1))).bind fun _ _ => .pure trivial

/-! ### Operators and what is looser -/

section

include hW

theorem operand_keeps : Keeps W i (operand nest) := by
  intro stack
  apply Tracks.kind
  split
  · rename_i hk
    exact negation_keeps hs hn hk stack
  · rename_i hk
    exact conditional_keeps hs hn hk stack
  · rename_i hk
    exact letIn_keeps hs hn hk stack
  · rename_i hk
    exact loop_keeps hs hn hk stack
  · rename_i hk
    exact matching_keeps hs hn hk stack
  · rename_i hk
    exact assertion_keeps hs hn hk stack
  · rename_i hk
    exact unchecked_keeps hs hn hk stack
  · rename_i hk
    exact lambda_keeps hs hn hk stack
  · exact attributed_keeps hs hn stack
  · exact application_keeps hs hn hW stack

omit hW in
theorem binaryStep_keeps {power : Nat} {left : Expr} :
    Keeps W i (binaryStep nest power left) := by
  intro stack
  apply Tracks.kind
  split
  · rename_i symbol hk
    split
    · exact .pure trivial
    · rename_i k _
      split
      · exact .pure trivial
      · apply Tracks.kindAt 1
        split
        · exact .pure trivial
        · apply Tracks.advanceSpan hs (by rw [hk]; rfl)
          apply (operandAfter_keeps (Or.inl hk) (hn.free (.binary k.power.right) rfl (i + 1))).bind
          exact fun _ _ => .pure trivial
  · exact .pure trivial

theorem binary_keeps {power : Nat} : Keeps W i (binary nest power) := by
  intro stack
  apply (operand_keeps hs hn hW).bind
  exact fun left j => Keeps.repeatFrom (fun _ _ => binaryStep_keeps hs hn) left stack

omit hW in
theorem updatePath_keeps : Keeps W i (updatePath nest) := by
  intro stack
  apply Tracks.opening? hs rfl
  · exact fun _ => (indices_tracks hs hn).bind fun _ _ _ => .pure trivial
  · intro _
    apply (fieldName_keeps hs).bind
    exact fun first j => (dottedFields_keeps hs).bind fun _ _ => .pure trivial

omit hW in
theorem updateStep_keeps {target : Expr} : Keeps W i (updateStep nest target) := by
  intro stack
  apply Tracks.eatKeyword? hs rfl
  · intro _
    apply (updatePath_keeps hs hn).bind
    intro path j
    apply Tracks.expect hs rfl
    intro hequal
    apply (operandAfter_keeps (Or.inr ⟨.equal, hequal, rfl⟩) (hn.free (.binary 0) rfl (j + 1))).bind
    exact fun _ _ => .pure trivial
  · exact fun _ => .pure trivial

theorem update_keeps : Keeps W i (update nest) := by
  intro stack
  apply (binary_keeps hs hn hW).bind
  exact fun target j => Keeps.repeatFrom (fun _ _ => updateStep_keeps hs hn) target stack

omit hn hW in
/-- The punctuation of a range is a token that has been taken. -/
theorem rangeOperator?_tracks {accepted : List Punct} (h : ∀ p ∈ accepted, p.isBracket = false) :
    Tracks W i stack (rangeOperator? accepted : Parser σ (Option (Punct × Span))) stack
      fun o _ => ∀ r ∈ o, ∃ k, stream.kindAt k = .punct r.1 ∧ r.2 = (stream.tokenAt k).span := by
  apply Tracks.kind
  split
  · rename_i p hk
    split
    · rename_i hp
      have hplain : (stream.kindAt i).isPlain = true := by
        rw [hk]
        show (!p.isBracket) = true
        rw [h p hp]
        rfl
      apply Tracks.advanceSpan hs hplain
      apply Tracks.pure
      rintro _ ⟨⟩
      exact ⟨i, hk, rfl⟩
    · exact .pure nofun
  · exact .pure nofun

theorem rangeBound_keeps {operator : Punct × Span} {k : Nat}
    (hk : stream.kindAt k = .punct operator.1) (hspan : operator.2 = (stream.tokenAt k).span) :
    Keeps W i (rangeBound nest operator) := by
  unfold rangeBound
  rw [hspan]
  exact operandAfter_keeps (Or.inr ⟨_, hk, rfl⟩) (update_keeps hs hn hW)

theorem range_keeps : Keeps W i (range nest) := by
  intro stack
  apply (update_keeps hs hn hW).bind
  intro first j
  apply (rangeOperator?_tracks hs (by decide)).bind
  rintro (_ | operator) k hoperator
  · exact .pure trivial
  · obtain ⟨l, hk, hspan⟩ := hoperator operator rfl
    apply (rangeBound_keeps hs hn hW hk hspan).bind
    intro second m
    dsimp only
    split
    · apply (rangeOperator?_tracks hs (by decide)).bind
      rintro (_ | operator) n hoperator
      · exact .pure trivial
      · obtain ⟨l, hk, hspan⟩ := hoperator operator rfl
        exact (rangeBound_keeps hs hn hW hk hspan).bind fun _ _ => .pure trivial
    · exact .pure trivial

theorem expression_keeps : Keeps W i (expression nest) := by
  intro stack
  apply (range_keeps hs hn hW).bind
  intro inner j
  apply Tracks.kind
  split
  · rename_i hk
    apply Tracks.advance hs (by rw [hk]; rfl)
    exact (hn.free .type rfl _).bind fun _ _ => .pure trivial
  · rename_i hk
    apply Tracks.advance hs (by rw [hk]; rfl)
    exact (hn.free .type rfl _).bind fun _ _ => .pure trivial
  · exact .pure trivial

end

end Futhark.Grammar
