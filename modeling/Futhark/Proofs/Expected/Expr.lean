import Futhark.Proofs.Expected.Atom
import Futhark.Proofs.Grammar.Spells

/-!
# Expected tokens in expressions

The forms that start with a keyword list what may go on, and each of these has been looked for before
(`letIn_follows`, `loopForm_follows`, `matching_follows`). A `let` before a name decides by the token
after that name (`letBinding_follows`), and an operator is taken only if it is not before a closing
parenthesis (`binaryStep_follows`).
-/

namespace Futhark.Grammar

open Futhark.Parser Futhark.Parser.Replacement

variable {σ : Type} {r : Replacement} {nest : Nest σ} {j : Nat} {L R : Prop}

section

variable (hn : r.Nested nest)

include hn

/-! ### Keyword forms -/

theorem conditional_follows : r.Follows L R j (conditional nest) fun _ k => j < k := by
  refine Follows.advanceSpan.bind fun start k₁ h₁ hk₁ => hn.expression.only.bind fun _ k₂ h₂ _ => ?_
  refine Follows.expectKeyword.only.bind fun _ k₃ h₃ _ => ?_
  refine hn.expression.only.bind fun _ k₄ h₄ _ => ?_
  refine Follows.expectKeyword.only.bind fun _ k₅ h₅ _ => ?_
  refine hn.expression.only.bind fun _ k₆ h₆ _ => ?_
  exact .pure fun h => by omega

theorem letUpdate_follows : r.Follows True False j (letUpdate nest) fun _ k => j < k := by
  refine Follows.identifier.bind fun name k₁ h₁ hk₁ => Follows.opening fun span k₂ h₂ _ => ?_
  refine (indices_follows hn _).only.bind fun _ k₃ h₃ _ => ?_
  refine Follows.expect.only.bind fun _ k₄ h₄ _ => ?_
  exact hn.expression.only.bind fun _ k₅ h₅ _ => .pure fun h => by omega

/-- What comes behind the bracket of `a[i] = v`. -/
def letUpdateFrom (nest : Nest σ) (name : Identifier) (o : Opening) : Parser σ LetBinding := do
  let (list, _) ← indices nest o
  let _ ← Parser.expect .equal
  return .update name list (← nest.expression)

/-- The name and the bracket are taken. -/
theorem letUpdate_clears {stream : TokenStream} {Bad : List Expectation → Prop}
    (hlt : r.place < stream.tokens.length) (hj : j ≤ r.place) (hge : r.place ≤ j + 1)
    (hname : (stream.kindAt j).isIdentifier = true) :
    Clears stream Bad r.place j (letUpdate nest) := by
  have hrest : ∀ (name : Identifier) (o : Opening), Stays .onward (letUpdateFrom nest name o) :=
    fun name o => (indices_follows hn o (j := 0)).stays.bind fun _ => (Stays.expect _).bind fun _ =>
      (hn.expression (j := 0)).stays.bind fun _ => .pure
  refine .next (Runs.identifier (by omega) hname)
    (fun name => (Stays.opening _).bind (hrest name)) hj fun hlt' name => ?_
  exact .next ⟨_, .opening (by omega) _⟩ (hrest name) hlt' fun h => by omega

/-- What comes after the name of a local function. -/
def letFunctionFrom (nest : Nest σ) (name : Identifier) : Parser σ LetBinding := do
  let typeParams ← typeParams
  let params ← params nest
  let returnType ← returnType nest
  let _ ← Parser.expect .equal
  return .function name typeParams params returnType (← nest.expression)

theorem letFunctionFrom_follows (name : Identifier) :
    r.Follows (startsTypeParam r.old) (startsTypeParam r.new) j (letFunctionFrom nest name)
      fun _ k => j ≤ k := by
  refine typeParams_follows.bind fun _ k₁ h₁ _ => (params_follows hn).only.bind fun _ k₂ h₂ _ => ?_
  refine (returnType_follows hn).only.bind fun _ k₃ h₃ _ => ?_
  refine Follows.expect.only.bind fun _ k₄ h₄ _ => ?_
  exact hn.expression.only.bind fun _ k₅ h₅ _ => .pure fun h => by omega

theorem letFunction_follows : r.Follows True False j (letFunction nest) fun _ k => j < k :=
  Follows.identifier.bind fun name _ _ _ => (letFunctionFrom_follows hn name).only.mono
    fun _ _ _ _ _ => by omega

theorem letPattern_follows : r.Follows True False j (letPattern nest) fun _ k => j < k := by
  refine hn.pattern.bind fun _ k₁ h₁ hk₁ => Follows.expect.only.bind fun _ k₂ h₂ _ => ?_
  exact hn.expression.only.bind fun _ k₃ h₃ _ => .pure fun h => by omega

/-- What `let` binds, by what is in view. -/
def letBindingBy (nest : Nest σ) (v : View) : Parser σ LetBinding :=
  if v.kind.isIdentifier then
    if v.second = .punct .leftBracket ∧ v.secondTouches then letUpdate nest
    else if startsFunctionParams v.second v.secondTouches then letFunction nest
    else letPattern nest
  else
    letPattern nest

/-- The name is taken, and then what starts a parameter list. -/
theorem letFunction_clears {stream : TokenStream} {Bad : List Expectation → Prop}
    (hj : j + 1 = r.place) (hlt : r.place < stream.tokens.length)
    (hname : (stream.kindAt j).isIdentifier = true) {touching : Bool}
    (hstarts : startsFunctionParams (stream.kindAt r.place) touching = true)
    (htype : ∀ name : Identifier, startsTypeParam (stream.kindAt r.place) →
      Clears stream Bad r.place r.place (letFunctionFrom nest name))
    (hparams : startsParam (stream.kindAt r.place) .finish = true →
      Clears stream Bad r.place r.place (params nest)) :
    Clears stream Bad r.place j (letFunction nest) := by
  obtain ⟨name, hname⟩ := Runs.identifier (σ := σ) (by omega) hname
  refine .after hname ?_
  rw [hj]
  cases h : startsTypeParam (stream.kindAt r.place) with
  | true => exact htype name h
  | false =>
    refine .after (runs_typeParams_none h) (Clears.bind (hparams ?_) fun _ => ?_)
    · exact (starts_of_startsFunctionParams .finish hstarts).resolve_left (ne_true_of_eq_false h)
    · exact (returnType_follows hn (j := 0)).stays.bind fun _ => (Stays.expect _).bind fun _ =>
        (hn.expression (j := 0)).stays.bind fun _ => .pure

/-- **What `let` binds** is decided by the token after a name. Where that is the place, a choice of
parameters or of an index comes from a token that is then taken. -/
theorem letBinding_follows : r.Follows True False j (letBinding nest) fun _ k => j < k := by
  have hby : ∀ v i, r.Follows True False i (letBindingBy nest v) fun _ k => i < k := by
    intro v i
    unfold letBindingBy
    split
    · split
      · exact letUpdate_follows hn
      · split
        · exact letFunction_follows hn
        · exact letPattern_follows hn
    · exact letPattern_follows hn
  refine Follows.view (f := letBindingBy nest) (fun _ => rfl)
    (fun v => (hby v j).weaken And.left And.left) fun hj => ?_
  rcases hj.eq_or_lt with rfl | hlt
  · exact .inl ((hby _ 0).left trivial)
  · unfold letBindingBy
    rw [View.kind_eq hlt, View.secondTouches_eq hlt]
    split
    next hname =>
      -- A name comes next. What is behind it is at the place, or the same on both sides.
      rcases (Nat.succ_le_of_lt hlt).eq_or_lt with hplace | hlt'
      · have hlength := r.lt
        have hname' : (r.original.kindAt j).isIdentifier = true := kindAt_eq hlt ▸ hname
        have hold : (View.ofStream r.original j).second = r.old :=
          congrArg r.original.kindAt hplace
        have hnew : (View.ofStream r.replaced j).second = r.new :=
          congrArg r.replaced.kindAt hplace
        rw [hold, hnew]
        generalize (View.ofStream r.replaced j).secondTouches = touching
        -- Whichever side has an index or parameters takes the token at the place.
        by_cases hold : r.old = .punct .leftBracket ∧ touching = true
        · rw [if_pos hold]
          exact .inl (letUpdate_clears hn r.lt (by omega) hplace.ge hname')
        · by_cases hnew : r.new = .punct .leftBracket ∧ touching = true
          · rw [if_pos hnew]
            exact .inr (.inl (letUpdate_clears hn (r.length ▸ r.lt) (by omega) hplace.ge hname))
          · rw [if_neg hold, if_neg hnew]
            by_cases hold : startsFunctionParams r.old touching = true
            · rw [if_pos hold]
              exact .inl (letFunction_clears hn hplace r.lt hname' hold
                (fun name h => (letFunctionFrom_follows hn name (j := 0)).left h)
                fun h => (params_follows hn (j := 0)).left h)
            · by_cases hnew : startsFunctionParams r.new touching = true
              · rw [if_pos hnew]
                exact .inr (.inl (letFunction_clears hn hplace (r.length ▸ r.lt) hname hnew
                  (fun name h => (letFunctionFrom_follows hn name (j := 0)).right h)
                  fun h => (params_follows hn (j := 0)).right h))
              · rw [if_neg hold, if_neg hnew]
                exact .inr (.inr rfl)
      · rw [View.second_eq hlt']
        exact .inr (.inr rfl)
    next => exact .inr (.inr rfl)

theorem letIn_follows : r.Follows L R j (letIn nest) fun _ k => j < k := by
  refine Follows.advanceSpan.bind fun start k₁ h₁ hk₁ => ?_
  refine (letBinding_follows hn).only.bind fun binding k₂ h₂ _ => ?_
  refine Follows.eatKeyword?.only.bind fun taken k₃ h₃ hk₃ => ?_
  have hbody : ∀ {L R : Prop} {k : Nat} {p : Parser σ Expr}, k₃ ≤ k →
      r.Follows L R k p (fun _ l => k < l) → r.Follows L R k
        (p >>= fun body => Pure.pure (Expr.letIn binding body (start.merge body.span)))
        fun _ l => j < l :=
    fun hk h => h.bind fun body l _ _ => .pure fun hlp => by omega
  cases taken with
  | some _ => exact hbody le_rfl hn.expression.only
  | none =>
    -- Without an `in`, another `let` has to follow.
    refine (Follows.ifAtKeyword (fun k₄ h₄ _ => ?_) fun k₄ h₄ hk₄ => ?_).only
    · exact (hbody h₄ hn.letChain).weaken (fun _ => trivial) fun _ => trivial
    · have hneither : k₄ = r.place → ¬ r.Lists [.keyword .kwIn, .keyword .kwLet] := by
        intro hplace
        obtain ⟨rfl, hlet⟩ := hk₄ hplace.le
        exact not_lists_of_ne (by simp [Expectation.kind?, (hlet hplace).symm,
          (Follows.ne_of_not_taken hk₃ hplace).symm])
      refine Follows.bind (Q := fun _ _ => True)
        (.unexpected (fun h => hneither (h.resolve_left id)) id) fun _ _ _ _ => ?_
      exact .pure fun _ => by omega

theorem forForm_follows : r.Follows False False j (forForm nest) fun _ _ => True := by
  refine Follows.chooseAhead (fun v => v.kind.isIdentifier && v.second = .operator "<") 1
    (f := fun counting => if counting = true then do
        let name ← Parser.identifier
        let _ ← Parser.advance
        return LoopForm.countTo name (← nest.expression)
      else do
        let pattern ← nest.pattern
        let _ ← Parser.expectKeyword .kwIn
        return LoopForm.overElements pattern (← nest.expression)) (fun _ => rfl)
    (fun k _ _ => ?_) (fun k _ _ => ?_) (fun hlt => ?_) fun stream Bad hlt hj hge h => ?_
  · refine Follows.identifier.only.bind fun _ _ _ _ => Follows.advance.bind fun _ _ _ _ => ?_
    exact hn.expression.only.bind fun _ _ _ _ => .pure fun _ => trivial
  · refine hn.pattern.only.bind fun _ _ _ _ => Follows.expectKeyword.only.bind fun _ _ _ _ => ?_
    exact hn.expression.only.bind fun _ _ _ _ => .pure fun _ => trivial
  · rw [View.kind_eq (by omega), View.second_eq hlt]
  · simp only [Bool.and_eq_true] at h
    have hrest : ∀ name, Stays .onward (do
        return LoopForm.countTo name (← nest.expression)) := fun name =>
      (hn.expression (j := 0)).stays.bind fun _ => .pure
    refine .next (Runs.identifier (by omega) h.1) (fun name => Stays.advance.bind fun _ =>
      hrest name) hj fun hlt' name => ?_
    exact .next ⟨_, .advance (by omega)⟩ (fun _ => hrest name) hlt' fun h => by omega

/-- **How a loop goes on.** An initial value is listed only if there is none, and then there has
been no `=`. -/
theorem loopForm_follows (hasInitial : Bool)
    (hequal : j = r.place → hasInitial = false → r.new ≠ .punct .equal) :
    r.Follows False False j (loopForm nest hasInitial) fun _ _ => True := by
  refine Follows.eatKeyword?.only.bind fun taken k₁ h₁ hk₁ => ?_
  cases taken with
  | some _ => exact forForm_follows hn
  | none =>
    refine Follows.eatKeyword?.only.bind fun taken k₂ h₂ hk₂ => ?_
    cases taken with
    | some _ => exact hn.expression.only.bind fun _ _ _ _ => .pure fun _ => trivial
    | none =>
      have hneither : k₂ = r.place → r.new ≠ .keyword .kwFor ∧ r.new ≠ .keyword .kwWhile ∧
          (hasInitial = false → r.new ≠ .punct .equal) := by
        intro hplace
        obtain ⟨rfl, hwhile⟩ := hk₂ hplace.le
        obtain ⟨rfl, hfor⟩ := hk₁ hplace.le
        exact ⟨hfor hplace, hwhile hplace, hequal hplace⟩
      show r.Follows False False k₂ (if hasInitial = true then _ else _) _
      split
      · refine .unexpected (fun h => not_lists_of_ne ?_) id
        obtain ⟨hfor, hwhile, -⟩ := hneither (h.resolve_left id)
        simp [Expectation.kind?, hfor.symm, hwhile.symm]
      next hno =>
        refine .unexpected (fun h => not_lists_of_ne ?_) id
        obtain ⟨hfor, hwhile, hequal⟩ := hneither (h.resolve_left id)
        simp [Expectation.kind?, hfor.symm, hwhile.symm, (hequal (Bool.eq_false_iff.mpr hno)).symm]

theorem loop_follows : r.Follows L R j (loop nest) fun _ k => j < k := by
  refine Follows.advanceSpan.bind fun start k₁ h₁ hk₁ => hn.pattern.only.bind fun _ k₂ h₂ _ => ?_
  refine Follows.optional (fun _ _ => hn.expression.only) fun initial k₃ h₃ hk₃ => ?_
  refine (loopForm_follows hn initial.isSome hk₃).bind fun form k₄ h₄ _ => ?_
  refine Follows.expectKeyword.only.bind fun _ k₅ h₅ _ => ?_
  refine hn.expression.only.bind fun _ k₆ h₆ _ => ?_
  exact .pure fun h => by omega

/-- One more case. Where there is none, the new token is not the start of one. -/
theorem matchCase?_follows : r.Follows False False j (matchCase? nest)
    (Follows.Step (fun k => k = r.place → r.new ≠ .keyword .kwCase) j) := by
  refine Follows.eatKeyword?.only.bind fun taken k₁ h₁ hk₁ => ?_
  cases taken with
  | none => exact .pure fun _ => Follows.ne_of_not_taken hk₁
  | some start =>
    refine hn.constructorPattern.only.bind fun _ k₂ h₂ _ => ?_
    refine Follows.expect.only.bind fun _ k₃ h₃ _ => ?_
    refine hn.expression.only.bind fun _ k₄ h₄ _ => .pure fun h => ?_
    show j < k₄
    omega

theorem matching_follows : r.Follows L R j (matching nest) fun _ k => j < k := by
  refine Follows.advanceSpan.bind fun start k₁ h₁ hk₁ => hn.expression.only.bind fun _ k₂ h₂ _ => ?_
  refine (Follows.many fun _ _ => matchCase?_follows hn).bind fun cases k₃ h₃ hk₃ => ?_
  split
  · refine .unexpected (fun h => not_lists_keyword ?_) id
    exact hk₃ (h.resolve_left id).le (h.resolve_left id)
  · exact .pure fun h => by omega

theorem lambda_follows : r.Follows L R j (lambda nest) fun _ k => j < k := by
  refine Follows.advanceSpan.bind fun start k₁ h₁ hk₁ => ?_
  refine (params_follows hn).only.bind fun _ k₂ h₂ _ => ?_
  split
  · exact .unexpectedPhrase id
  · refine Follows.optional (fun _ _ => hn.typeTerm.only) fun returnType k₃ h₃ _ => ?_
    refine Follows.expect.only.bind fun _ k₄ h₄ _ => hn.expression.only.bind fun _ k₅ h₅ _ => ?_
    exact .pure fun h => by omega

theorem assertion_follows : r.Follows L R j (assertion nest) fun _ k => j < k := by
  refine Follows.advanceSpan.bind fun start k₁ h₁ hk₁ => ?_
  refine hn.postfixAtom.only.bind fun _ k₂ h₂ _ => ?_
  exact hn.postfixAtom.only.bind fun _ k₃ h₃ _ => .pure fun h => by omega

theorem unchecked_follows : r.Follows L R j (unchecked nest) fun _ k => j < k :=
  Follows.advanceSpan.bind fun start k₁ h₁ hk₁ => hn.expression.only.bind fun _ k₂ h₂ _ =>
    .pure fun h => by omega

theorem attributed_follows :
    r.Follows (r.old = .punct .attributeOpen) (r.new = .punct .attributeOpen) j (attributed nest)
      fun _ k => j < k :=
  (attr_follows hn).bind fun a k₁ h₁ hk₁ => hn.expression.only.bind fun _ k₂ h₂ _ =>
    .pure fun h => by omega

theorem negation_follows : r.Follows L R j (negation nest) fun _ k => j < k := by
  refine Follows.advanceSpan.bind fun minus k₁ h₁ hk₁ => ?_
  refine (operandAfter_follows (S := False) hn.operand nofun).only.bind fun _ k₂ h₂ _ => ?_
  exact .pure fun h => by omega

/-! ### Operators and what is looser -/

theorem operand_follows :
    r.Follows True (startsExpr r.new = true) j (operand nest) fun _ k => j < k := by
  refine Follows.kindLeft fun κ => ?_
  split
  · exact negation_follows hn
  · exact conditional_follows hn
  · exact letIn_follows hn
  · exact loop_follows hn
  · exact matching_follows hn
  · exact assertion_follows hn
  · exact unchecked_follows hn
  · exact lambda_follows hn
  · exact (attributed_follows hn).weaken Eq.symm fun h => h.2.symm
  · refine (application_follows hn).weaken (fun _ => trivial) ?_
    rintro ⟨hstarts, hκ⟩
    rcases r.reserved with ⟨q, hq⟩ | ⟨word, hword⟩
    · rw [← hκ] at hstarts hq ⊢
      subst hq
      clear hκ
      cases q <;> simp_all [startsExpr, startsAtom]
    · rw [← hκ] at hstarts hword ⊢
      subst hword
      clear hκ
      cases word <;> simp_all [startsExpr, startsAtom]

end

/-- The infix operator that a step of precedence climbing takes, and the binding power of its right
operand. -/
def infixOf (power : Nat) (v : View) : Option (String × Nat) :=
  match v.kind with
  | .operator symbol =>
    match Operator.classify symbol with
    | none => none
    | some k =>
      if k.power.left < power then none
      else if v.second = .punct .rightParen then none
      else some (symbol, k.power.right)
  | _ => none

/-- An operator and its right operand, or nothing. -/
def infixStep (nest : Nest σ) (left : Expr) : Option (String × Nat) → Parser σ (Option Expr)
  | none => return none
  | some (symbol, power) => do
    let operator : OperatorName := ⟨symbol, ← Parser.advanceSpan⟩
    let right ← operandAfter symbol operator.span (nest.binary power)
    return some (.binary operator left right (left.span.merge right.span))

theorem binaryStep_run (power : Nat) (left : Expr) (s : State σ) :
    binaryStep nest power left s = infixStep nest left (infixOf power s.view) s := by
  have hkind : (Parser.kind : Parser σ TokenKind) s = .ok s.view.kind s := rfl
  have hsecond : (Parser.kindAt 1 : Parser σ TokenKind) s = .ok s.view.second s := rfl
  unfold binaryStep infixOf
  rw [run_bind_ok hkind]
  cases s.view.kind
  case operator symbol =>
    dsimp only
    cases Operator.classify symbol with
    | none => rfl
    | some k =>
      dsimp only
      split
      · rfl
      · rw [run_bind_ok hsecond]
        split <;> rfl
  all_goals rfl

section

variable (hn : r.Nested nest)

include hn

/-- The operator is taken, and then its operand, or it is to blame. -/
theorem infixStep_clears {stream : TokenStream} {Bad : List Expectation → Prop}
    (hlt : r.place < stream.tokens.length) (hj : j ≤ r.place) (hge : r.place ≤ j + 1) (left : Expr)
    (operator : String × Nat)
    (hoperand : ∀ span, Clears stream Bad r.place r.place
      (operandAfter operator.1 span (nest.binary operator.2))) :
    Clears stream Bad r.place j (infixStep nest left (some operator)) := by
  have hrest : ∀ span, Stays .onward (operandAfter operator.1 span (nest.binary operator.2)) :=
    fun span => (operandAfter_follows (S := False) hn.binary nofun (j := 0)).stays
  refine .next ⟨_, .advanceSpan (by omega)⟩ (fun span => (hrest span).bind fun _ => .pure) hj
    fun hlt' span => ?_
  rw [show j + 1 = r.place by omega]
  exact (hoperand span).bind fun _ => .pure

theorem binaryStep_follows (power : Nat) (left : Expr) :
    r.Follows False False j (binaryStep nest power left) (Follows.More j) := by
  have hoperand : ∀ (operator : String × Nat) (span : Span), r.Follows True True r.place
      (operandAfter operator.1 span (nest.binary operator.2)) fun _ k => r.place < k :=
    fun operator span => operandAfter_follows hn.binary fun _ => id
  refine Follows.choose (infixOf power) (fun s => binaryStep_run power left s)
    (fun operator? k hjk hk => ?_) fun hj => ?_
  · cases operator? with
    | none => exact .weaken (.pure fun _ => trivial) (·.1) (·.1)
    | some operator =>
      refine Follows.advanceSpan.bind fun span l hkl hl => ?_
      refine (operandAfter_follows (S := False) hn.binary nofun).only.bind fun right m hlm _ => ?_
      refine .pure fun hmp => ?_
      show j < m
      omega
  · rcases Nat.lt_or_ge (j + 1) r.place with hlt | hge
    · refine .inr (.inr ?_)
      unfold infixOf
      rw [View.kind_eq (by omega), View.second_eq hlt]
    · cases infixOf power (.ofStream r.original j) with
      | some operator =>
        exact .inl (infixStep_clears hn r.lt hj hge left operator fun span =>
          (hoperand operator span).left trivial)
      | none =>
        cases infixOf power (.ofStream r.replaced j) with
        | some operator =>
          exact .inr (.inl (infixStep_clears hn (r.length ▸ r.lt) hj hge left operator fun span =>
            (hoperand operator span).right trivial))
        | none => exact .inr (.inr rfl)

theorem binary_follows (power : Nat) :
    r.Follows True (startsExpr r.new = true) j (binary nest power) fun _ k => j < k := by
  refine (operand_follows hn).bind fun first k _ hk => ?_
  exact Follows.repeatBehind (fun left _ _ => binaryStep_follows hn power left) first hk

theorem updatePath_follows : r.Follows False False j (updatePath nest) fun _ k => j < k := by
  refine (Follows.opening? (fun k hjk hk => ?_) fun span k hjk hk => ?_).only
  · refine Follows.fieldName.only.bind fun first l hkl _ => ?_
    exact dottedFields_follows.only.bind fun others m hlm _ => .pure fun hmp => by omega
  · exact (indices_follows hn _).only.bind fun _ l hkl _ => .pure fun hlp => by omega

theorem updateStep_follows (target : Expr) :
    r.Follows False False j (updateStep nest target) (Follows.More j) := by
  refine Follows.eatKeyword?.only.bind fun taken k₁ h₁ _ => ?_
  cases taken with
  | none => exact .pure fun _ => trivial
  | some start =>
    refine (updatePath_follows hn).bind fun _ k₂ h₂ _ => ?_
    refine Follows.expect.only.bind fun _ k₃ h₃ _ => ?_
    refine (operandAfter_follows (S := False) hn.binary nofun).only.bind fun _ k₄ h₄ _ => ?_
    refine .pure fun h => ?_
    show j < k₄
    omega

theorem update_follows :
    r.Follows True (startsExpr r.new = true) j (update nest) fun _ k => j < k := by
  refine (binary_follows hn 0).bind fun first k _ hk => ?_
  exact Follows.repeatBehind (fun target _ _ => updateStep_follows hn target) first hk

omit hn in
theorem rangeOperator?_follows (accepted : List Punct) :
    r.Follows False False j (rangeOperator? accepted : Parser σ (Option (Punct × Span)))
      fun _ _ => True := by
  refine Follows.only (Follows.kindAmong (∃ p ∈ accepted, · = .punct p) (Pure.pure none) ?_
    (fun κ hκ => ?_) (.pure fun _ => trivial))
  · rintro _ ⟨p, hp, rfl⟩
    dsimp only
    rw [if_pos hp]
    exact Follows.advanceSpan.bind fun _ _ _ _ => .pure fun _ => trivial
  · split
    next p => exact if_neg fun hp => hκ ⟨p, hp, rfl⟩
    next => rfl

theorem rangeBound_follows (operator : Punct × Span) :
    r.Follows False False j (rangeBound nest operator) fun _ k => j < k :=
  (operandAfter_follows (S := False) (update_follows hn) nofun).only

theorem range_follows :
    r.Follows True (startsExpr r.new = true) j (range nest) fun _ k => j < k := by
  refine (update_follows hn).bind fun first k₁ h₁ hk₁ => ?_
  refine (rangeOperator?_follows _).bind fun o k₂ h₂ _ => ?_
  cases o with
  | none => exact .pure fun h => by omega
  | some operator =>
    refine (rangeBound_follows hn _).bind fun second k₃ h₃ _ => ?_
    dsimp only
    split
    · refine (rangeOperator?_follows _).bind fun last? k₄ h₄ _ => ?_
      cases last? with
      | none => exact .pure fun h => by omega
      | some _ => exact (rangeBound_follows hn _).bind fun _ k₅ h₅ _ => .pure fun h => by omega
    · exact .pure fun h => by omega

theorem expression_follows : r.Follows True False j (expression nest) fun _ k => j < k := by
  refine Follows.weaken (R := startsExpr r.new = true)
    ((range_follows hn).bind fun inner k₁ h₁ hk₁ => ?_) id nofun
  have htyped : ∀ {L R : Prop} (g : TypeExpr → Expr), r.Follows L R k₁ (do
      let _ ← Parser.advance
      let type ← nest.type
      return g type) fun _ l => j < l := fun g =>
    Follows.advance.bind fun _ k₂ h₂ _ => hn.type.only.bind fun type k₃ h₃ _ =>
      .pure fun h => by omega
  refine Follows.only (Follows.kindAmong (fun κ => κ = .punct .colon ∨ κ = .punct .colonGreater)
    (Pure.pure inner) ?_ (fun κ hκ => ?_) (.pure fun h => by omega))
  · rintro _ (rfl | rfl)
    · exact htyped _
    · exact htyped _
  · split
    · exact absurd (.inl rfl) hκ
    · exact absurd (.inr rfl) hκ
    · rfl

end

end Futhark.Grammar
