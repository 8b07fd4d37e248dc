import Futhark.Proofs.Expected.Expr
import Futhark.Proofs.Expected.ModuleType

/-!
# Expected tokens in modules and declarations

A definition looks three tokens ahead to see whether it is written like a use of the operator that it
defines. So here the two sides may part two tokens before the place (`bindingHead_follows`).

From the rules, nested constructs of all levels have their outcomes (`nestWithin_nested`).
-/

namespace Futhark.Grammar

open Futhark.Parser Futhark.Parser.Replacement

variable {σ : Type} {r : Replacement} {nest : Nest σ} {j : Nat} {L R : Prop}

/-! ### Definitions of values and types -/

/-- What a definition defines, written like a use of the operator or not. -/
def headOf (nest : Nest σ) (infixed : Bool) :
    Parser σ (BindingName × List TypeParam × List Pattern) := do
  if infixed = true then
    let left ← nest.atomicPattern
    let operator ← infixOperator
    let right ← nest.atomicPattern
    return (.operator operator, [], [left, right])
  else
    let name ← bindingName
    let typeParams ← typeParams
    let params ← params nest
    return (name, typeParams, params)

theorem bindingHead_run (s : State σ) : bindingHead nest s =
    headOf nest (bindsInfix s.view.kind s.view.second s.view.third) s :=
  run_bind_ok (atInfixBinding_run s)

/-- An operator before the place is taken, or it is not blamed on the place. -/
theorem infixOperator_clears {α : Type} {stream : TokenStream} {Bad : List Expectation → Prop}
    {place k : Nat} {f : OperatorName → Parser σ α} (hlt : place < stream.tokens.length)
    (hk : k < place) (hf : ∀ operator, Clears stream Bad place (k + 1) (f operator))
    (hstays : ∀ operator, Stays .onward (f operator)) :
    Clears stream Bad place k (infixOperator >>= f) := by
  have hfails : Clears stream Bad place k
      (Parser.unexpected [.phrase "an infix operator"] : Parser σ OperatorName) :=
    .unexpected fun h => absurd h hk.ne
  unfold infixOperator
  rw [bind_assoc]
  refine .after Runs.kind ?_
  split
  · split
    · rw [bind_assoc]
      exact .after (Runs.advanceSpan (hk.trans hlt)) (.after (.pure _) (hf _))
    · exact hfails.bind hstays
  · exact hfails.bind hstays

theorem bindsInfix_of_isIdentifier {k : TokenKind} (h : k.isIdentifier = true)
    (k' k'' : TokenKind) : bindsInfix k k' k'' = k'.isOperator := by
  unfold bindsInfix
  split
  · rfl
  · exact absurd h nofun
  next hname _ =>
    cases k <;> simp_all [TokenKind.isIdentifier]

theorem bindsInfix_of_other {k : TokenKind} (hname : ¬ k.isIdentifier = true)
    (hparen : k ≠ .punct .leftParen) (k' k'' : TokenKind) : bindsInfix k k' k'' = false := by
  unfold bindsInfix
  split
  · exact absurd rfl hname
  · exact absurd rfl hparen
  · rfl

section

variable (hn : r.Nested nest)

include hn

theorem headOf_follows (infixed : Bool) :
    r.Follows (¬ r.Lists bindingStart) (r.Lists bindingStart) j (headOf nest infixed)
      fun _ _ => True := by
  unfold headOf
  split
  · refine Follows.weaken (hn.atomicPattern.bind fun _ _ _ _ => infixOperator_follows.only.bind
      fun _ _ _ _ => hn.atomicPattern.only.bind fun _ _ _ _ => .pure fun _ => trivial)
      (fun _ => trivial) fun hlists => ?_
    -- A parenthesis is the only token that is listed.
    have hkind := r.kind?
    rcases List.mem_cons.mp hlists.1 with h | h
    · rw [h] at hkind
      exact absurd hkind nofun
    · rw [List.mem_singleton.mp h] at hkind
      unfold Replacement.new
      rw [← Option.some.inj hkind]
      rfl
  · exact bindingName_follows.bind fun _ _ _ _ => typeParams_follows.only.bind fun _ _ _ _ =>
      (params_follows hn).only.bind fun _ _ _ _ => .pure fun _ => trivial

/-- An operator in parentheses, as far as the place. -/
theorem operatorHead_clears {stream : TokenStream} {Bad : List Expectation → Prop}
    (hlt : r.place < stream.tokens.length) (hj : j < r.place) (hge : r.place ≤ j + 2)
    (hparen : stream.kindAt j = .punct .leftParen)
    (hoperator : r.place = j + 1 → Clears stream Bad r.place r.place (infixOperator : Parser σ _))
    (hclose : r.place = j + 2 → stream.kindAt r.place = .punct .rightParen) :
    Clears stream Bad r.place j (headOf nest false) := by
  have hrest : ∀ name, Stays .onward (do
      let typeParams ← typeParams
      let params ← params nest
      return ((name, typeParams, params) : BindingName × List TypeParam × List Pattern)) :=
    fun name => (typeParams_follows (r := r) (j := 0)).stays.bind fun _ =>
      (params_follows hn (j := 0)).stays.bind fun _ => .pure
  refine Clears.bind (p := bindingName) (.after Runs.kind ?_) hrest
  rw [hparen]
  refine .after (.opening (hj.trans hlt) _) ?_
  have hstays : ∀ operator, Stays .onward (do
      let _ ← Parser.close ⟨.leftParen, (stream.tokenAt j).span⟩ []
      return BindingName.operator operator : Parser σ BindingName) := fun _ =>
    (Stays.close _ _).bind fun _ => .pure
  rcases (show r.place = j + 1 ∨ r.place = j + 2 by omega) with hplace | hplace
  · rw [← hplace]
    exact (hoperator hplace).bind hstays
  · refine infixOperator_clears hlt (by omega) (fun operator => ?_) hstays
    rw [← hplace]
    exact (Clears.close (o := ⟨.leftParen, _⟩) hlt (.inl (hclose hplace))).bind fun _ => .pure

/-- A name as the left operand, and an operator at the place. -/
theorem infixHead_clears {stream : TokenStream} {Bad : List Expectation → Prop}
    (hlt : r.place < stream.tokens.length) (hplace : j + 1 = r.place)
    (hname : (stream.kindAt j).isIdentifier = true)
    (hoperator : Clears stream Bad r.place r.place (infixOperator : Parser σ _)) :
    Clears stream Bad r.place j (headOf nest true) := by
  intro s hs
  unfold headOf
  rw [if_pos rfl]
  obtain ⟨e, hrun, hcause⟩ | ⟨p, t, hrun, ht⟩ := hn.patternName hs (by omega) hname
  · rw [run_bind_error hrun]
    exact ⟨j, hs, fun _ _ found h => absurd h (hcause _ found)⟩
  · rw [run_bind_ok hrun]
    refine (hoperator t (hplace ▸ ht)).bind fun _ => ?_
    exact (hn.atomicPattern (j := 0)).stays.bind fun _ => .pure

/-- A parenthesis before the place: the token after it is an operator on one side only, or the
parenthesis behind an operator is closed on one side only. -/
theorem parenHead_split (hlt : j < r.place) (hparen : r.original.kindAt j = .punct .leftParen) :
    let closed (stream : TokenStream) : Bool := (stream.kindAt (j + 1)).isOperator &&
      stream.kindAt (j + 2) = .punct .rightParen
    r.ClearsLeft j (headOf nest (!closed r.original)) ∨
      r.ClearsRight j (headOf nest (!closed r.replaced)) ∨
      closed r.original = closed r.replaced := by
  intro closed
  have hclosed : ∀ stream : TokenStream, closed stream = true →
      (stream.kindAt (j + 1)).isOperator = true ∧ stream.kindAt (j + 2) = .punct .rightParen := by
    intro stream h
    simpa [closed] using h
  rcases Nat.lt_or_ge (j + 2) r.place with hfar | hge
  · refine .inr (.inr ?_)
    show ((r.original.kindAt (j + 1)).isOperator && decide (r.original.kindAt (j + 2) = _)) = _
    rw [← kindAt_eq hfar, ← kindAt_eq (show j + 1 < r.place by omega)]
  · cases hold : closed r.original with
    | true =>
      refine .inl (operatorHead_clears hn r.lt hlt hge hparen (fun _ => ?_) fun h => ?_)
      · exact (infixOperator_follows (j := 0)).left trivial
      · rw [h]
        exact (hclosed _ hold).2
    | false =>
      cases hnew : closed r.replaced with
      | true =>
        refine .inr (.inl (operatorHead_clears hn (r.length ▸ r.lt) hlt hge
          ((kindAt_eq hlt).trans hparen) (fun h => ?_) fun h => ?_))
        -- The new token is no operator.
        · have hoperator := (hclosed _ hnew).1
          rw [← h] at hoperator
          exact absurd (not_isOperator_new.symm.trans hoperator) nofun
        · rw [h]
          exact (hclosed _ hnew).2
      | false => exact .inr (.inr rfl)

/-- **What a definition defines** is decided by three tokens. Where that is done by the place, it is
an operator or a closing parenthesis there that decides, and is taken. -/
theorem bindingHead_follows :
    r.Follows False False j (bindingHead nest) fun _ _ => True := by
  refine Follows.choose (fun v => bindsInfix v.kind v.second v.third) (fun s => bindingHead_run s)
    (fun c k _ _ => (headOf_follows hn c).only.weaken And.left And.left) fun hj => ?_
  rcases hj.eq_or_lt with rfl | hlt
  · by_cases h : r.Lists bindingStart
    · exact .inr (.inl ((headOf_follows hn _ (j := 0)).right h))
    · exact .inl ((headOf_follows hn _ (j := 0)).left h)
  · show r.ClearsLeft j (headOf nest (bindsInfix (r.original.kindAt j) (r.original.kindAt (j + 1))
        (r.original.kindAt (j + 2)))) ∨
      r.ClearsRight j (headOf nest (bindsInfix (r.replaced.kindAt j) (r.replaced.kindAt (j + 1))
        (r.replaced.kindAt (j + 2)))) ∨
      bindsInfix (r.original.kindAt j) (r.original.kindAt (j + 1)) (r.original.kindAt (j + 2)) =
        bindsInfix (r.replaced.kindAt j) (r.replaced.kindAt (j + 1)) (r.replaced.kindAt (j + 2))
    rw [kindAt_eq hlt]
    by_cases hname : (r.original.kindAt j).isIdentifier = true
    · rw [bindsInfix_of_isIdentifier hname, bindsInfix_of_isIdentifier hname]
      rcases (Nat.succ_le_of_lt hlt).eq_or_lt with hplace | hlt'
      · have hnew : (r.replaced.kindAt (j + 1)).isOperator = false := by
          rw [← Nat.succ_eq_add_one, hplace]
          exact not_isOperator_new
        cases hold : (r.original.kindAt (j + 1)).isOperator with
        | false => exact .inr (.inr hnew.symm)
        | true => exact .inl (infixHead_clears hn r.lt hplace hname
            ((infixOperator_follows (j := 0)).left trivial))
      · exact .inr (.inr (congrArg TokenKind.isOperator (kindAt_eq hlt').symm))
    · by_cases hparen : r.original.kindAt j = .punct .leftParen
      · rw [hparen]
        obtain h | h | h := parenHead_split hn hlt hparen
        · exact .inl h
        · exact .inr (.inl h)
        · exact .inr (.inr (congrArg not h))
      · rw [bindsInfix_of_other hname hparen, bindsInfix_of_other hname hparen]
        exact .inr (.inr rfl)

theorem valueBinding_follows (kind : BindingKind) (doc : Option String) :
    r.Follows L R j (valueBinding nest kind doc) fun _ k => j < k := by
  refine Follows.advanceSpan.bind fun _ k₁ h₁ hk₁ => ?_
  refine (bindingHead_follows hn).bind fun _ k₂ h₂ _ => ?_
  refine (returnType_follows hn).bind fun _ k₃ h₃ _ => Follows.expect.only.bind fun _ k₄ h₄ _ => ?_
  exact hn.expression.only.bind fun _ k₅ h₅ _ => .pure fun h => by omega

theorem typeBinding_follows (doc : Option String) :
    r.Follows L R j (typeBinding nest doc) fun _ k => j < k := by
  refine Follows.advanceSpan.bind fun _ k₁ h₁ hk₁ => ?_
  refine liftednessMarker_follows.bind fun _ k₂ h₂ _ => ?_
  refine Follows.identifier.only.bind fun _ k₃ h₃ _ => ?_
  refine typeParams_follows.only.bind fun _ k₄ h₄ _ => ?_
  refine Follows.expect.only.bind fun _ k₅ h₅ _ => hn.type.only.bind fun _ k₆ h₆ _ => ?_
  exact .pure fun h => by omega

/-! ### Module expressions -/

omit hn in
theorem importFile_follows (resolver : Option (Resolver σ)) :
    r.Follows L R j (importFile resolver) fun _ k => j < k := by
  refine Follows.advanceSpan.bind fun _ k₁ h₁ hk₁ => Follows.kindAfter fun κ => ?_
  split
  · refine Follows.advanceSpan.bind fun _ k₂ h₂ hk₂ => ?_
    refine (Follows.importProgram _ _ _).bind fun _ k₃ h₃ hk₃ => ?_
    exact .pure fun h => by omega
  · exact .unexpectedPhrase id

theorem moduleAtom_follows (resolver : Option (Resolver σ)) :
    r.Follows True (startsModuleAtom r.new = true) j (moduleAtom resolver nest)
      fun _ k => j < k := by
  refine Follows.kindLeft fun κ => ?_
  split
  · refine Follows.weaken (Follows.qualName.bind fun _ _ _ hk => .pure hk) (fun _ => trivial)
      fun h => new_ne_identifier h.2
  · exact (importFile_follows resolver).bind fun _ _ _ hk => .pure hk
  · refine Follows.opening fun span k hjk hk => hn.moduleExpr.only.bind fun inner l hkl _ => ?_
    exact (Follows.closeOnly _).only.bind fun stop m hlm _ => .pure fun hmp => by omega
  · refine Follows.opening fun span k hjk hk => ?_
    refine bracedItems_follows (by simp [declStart, Expectation.kind?]) (fun _ _ => hn.declaration)
      fun declarations stop l hkl => .pure fun hlp => by omega
  · refine .unexpectedPhrase ?_
    rintro ⟨hstarts, hκ⟩
    rw [← hκ] at hstarts
    clear hκ
    cases κ <;> simp_all [startsModuleAtom]

theorem moduleApplicationStep_follows (resolver : Option (Resolver σ)) (functor : ModuleExpr) :
    r.Follows False False j (moduleApplicationStep resolver nest functor) (Follows.More j) :=
  (Follows.itemIf startsModuleAtom
    ((moduleAtom_follows hn resolver).weaken (fun _ => trivial) id)).only

theorem moduleApplication_follows (resolver : Option (Resolver σ)) :
    r.Follows True False j (moduleApplication resolver nest) fun _ k => j < k :=
  Follows.weaken (R := startsModuleAtom r.new = true) ((moduleAtom_follows hn resolver).bind
    fun functor _ _ hk => Follows.repeatBehind
      (fun functor _ _ => moduleApplicationStep_follows hn resolver functor) functor hk) id nofun

theorem moduleLambda_follows : r.Follows L R j (moduleLambda nest) fun _ k => j < k := by
  refine Follows.advanceSpan.bind fun _ k₁ h₁ hk₁ => ?_
  refine (moduleParam_follows hn).only.bind fun _ k₂ h₂ _ => ?_
  refine Follows.optional (fun _ _ => hn.refinedModuleType.only) fun _ k₃ h₃ _ => ?_
  refine Follows.expect.only.bind fun _ k₄ h₄ _ => hn.moduleExpr.only.bind fun _ k₅ h₅ _ => ?_
  exact .pure fun h => by omega

theorem moduleAscriptionStep_follows (body : ModuleExpr) :
    r.Follows False False j (moduleAscriptionStep nest body) (Follows.More j) := by
  refine Follows.eat?.only.bind fun taken k₁ h₁ _ => ?_
  cases taken with
  | none => exact .pure fun _ => trivial
  | some colon =>
    refine hn.moduleType.only.bind fun _ k₂ h₂ hk₂ => .pure fun h => ?_
    show j < k₂
    omega

theorem moduleExpr_follows (resolver : Option (Resolver σ)) :
    r.Follows True False j (moduleExpr resolver nest) fun _ k => j < k := by
  refine Follows.at? (fun k hjk hk => ?_) (fun k hjk hk => ?_) fun _ => .inl trivial
  · exact (moduleLambda_follows hn).mono fun _ l hkl hlp _ => by omega
  · refine Follows.weaken ((moduleApplication_follows hn resolver).bind fun body l hkl hl => ?_)
      (fun _ => trivial) And.left
    exact Follows.repeatBehind (fun body _ _ => moduleAscriptionStep_follows hn body) body
      fun hlp => by omega

/-! ### Declarations -/

theorem moduleParams_follows :
    r.Follows False False j (moduleParams nest) fun _ _ => True := by
  refine Follows.manyMore fun k hjk => ?_
  refine Follows.only (Follows.itemIf (fun κ => κ = .punct .leftParen) (g := id)
    ((moduleParam_follows hn).weaken (by simp) (by simp)))

theorem moduleBinding_follows (doc : Option String) :
    r.Follows L R j (moduleBinding nest doc) fun _ k => j < k := by
  refine Follows.advanceSpan.bind fun _ k₁ h₁ hk₁ => ?_
  refine Follows.eatKeyword?.only.bind fun taken k₂ h₂ _ => ?_
  split
  · refine Follows.identifier.only.bind fun _ k₃ h₃ _ => ?_
    refine Follows.expect.only.bind fun _ k₄ h₄ _ => ?_
    exact hn.moduleType.only.bind fun _ k₅ h₅ _ => .pure fun h => by omega
  · refine Follows.identifier.only.bind fun _ k₃ h₃ _ => ?_
    refine (moduleParams_follows hn).bind fun _ k₄ h₄ _ => ?_
    refine Follows.optional (fun _ _ => hn.moduleType.only) fun _ k₅ h₅ _ => ?_
    refine Follows.expect.only.bind fun _ k₆ h₆ _ => hn.moduleExpr.only.bind fun _ k₇ h₇ _ => ?_
    exact .pure fun h => by omega

theorem attributedDecl_follows (doc : Option String) :
    r.Follows (r.old = .punct .attributeOpen) (r.new = .punct .attributeOpen) j
      (attributedDecl nest doc) fun _ k => j < k := by
  refine (attr_follows hn).bind fun a k₁ h₁ hk₁ => Follows.only (L := ¬ r.Lists declStart)
    (R := r.Lists declStart) (Follows.docCommentOr (fun doc => ?_) (Classical.em _).symm doc)
  exact hn.documentedDeclaration.bind fun _ k₂ h₂ _ => .pure fun h => by omega

theorem openDecl_follows : r.Follows L R j (openDecl nest) fun _ k => j < k :=
  Follows.advanceSpan.bind fun _ k₁ h₁ hk₁ => hn.moduleExpr.only.bind fun _ k₂ h₂ _ =>
    .pure fun h => by omega

theorem localDecl_follows (doc : Option String) :
    r.Follows L R j (localDecl nest doc) fun _ k => j < k :=
  Follows.advanceSpan.bind fun _ k₁ h₁ hk₁ => hn.declaration.only.bind fun _ k₂ h₂ _ =>
    .pure fun h => by omega

theorem documentedDeclaration_follows (resolver : Option (Resolver σ)) (doc : Option String) :
    r.Follows (¬ r.Lists declStart) (r.Lists declStart) j (documentedDeclaration resolver nest doc)
      fun _ k => j < k := by
  refine Follows.kindListed fun c k hk hnew => ?_
  have hafter : ∀ {L R : Prop} {p : Parser σ Decl}, r.Follows L R k p (fun _ l => k < l) →
      r.Follows L R k p fun _ l => j < l := fun h => h.mono fun _ l hkl hlp hl => by omega
  split
  · exact hafter ((valueBinding_follows hn _ doc).bind fun _ _ _ hk => .pure hk)
  next hbinding =>
    split
    · exact hafter ((attributedDecl_follows hn doc).weaken And.right And.right)
    · exact hafter ((typeBinding_follows hn doc).bind fun _ _ _ hk => .pure hk)
    · exact hafter (moduleBinding_follows hn doc)
    · exact hafter (openDecl_follows hn)
    · exact hafter ((importFile_follows resolver).bind fun _ _ _ hk => .pure hk)
    · exact hafter (localDecl_follows hn doc)
    next hattr htype hmodule hopen himport hlocal =>
      obtain ⟨hdef, hentry, hlet⟩ :
          c ≠ .keyword .kwDef ∧ c ≠ .keyword .kwEntry ∧ c ≠ .keyword .kwLet := by
        refine ⟨?_, ?_, ?_⟩ <;> rintro rfl <;> exact absurd hbinding nofun
      clear hbinding
      refine .unexpectedKind ?_ hnew
      simp only [declStart, List.mem_cons, List.not_mem_nil, or_false]
      rintro e (rfl | rfl | rfl | rfl | rfl | rfl | rfl | rfl | rfl) hc <;>
        have hc := Option.some.inj hc <;> simp_all

theorem declaration_follows (resolver : Option (Resolver σ)) (doc : Option String) :
    r.Follows (¬ r.Lists declStart) (r.Lists declStart) j (declaration resolver nest doc)
      fun _ k => j < k :=
  Follows.docCommentOr (fun doc => documentedDeclaration_follows hn resolver doc)
    (Classical.em _).symm doc

/-! ### All levels -/

/-- **What is nested** is read on both sides if that is so one level deeper. -/
theorem rule_nested (resolver : Option (Resolver σ)) : r.Nested (rule resolver nest) where
  attr := attributeInfo_follows hn
  type := type_follows hn
  typeTerm := typeTerm_follows hn
  typeAtom := (typeAtom_follows hn).weaken id nofun
  pattern := pattern_follows hn
  constructorPattern := constructorPattern_follows hn
  atomicPattern := (atomicPattern_follows hn).weaken id fun h => by
    simp only [startsParam, Bool.and_eq_true] at h
    exact h.1.1
  patternName hs hlt hname := by
    obtain ⟨p, hruns⟩ : ∃ p, Runs _ _ (atomicPattern nest) p _ := atomicPattern_name hlt hname
    obtain ⟨t, hrun, ht⟩ := hruns _ hs
    exact .inr ⟨p, t, hrun, ht⟩
  expression := expression_follows hn
  range := range_follows hn
  binary := binary_follows hn _
  operand := (operand_follows hn).weaken id nofun
  postfixAtom := (postfixAtom_follows hn).weaken id nofun
  letChain := letIn_follows hn
  declaration := declaration_follows hn resolver _
  documentedDeclaration := documentedDeclaration_follows hn resolver _
  spec := spec_follows hn
  documentedSpec := documentedSpec_follows hn _
  moduleExpr := moduleExpr_follows hn resolver
  moduleType := moduleType_follows hn
  refinedModuleType := refinedModuleType_follows hn

omit hn in
/-- Without levels, whatever is read is too deep. -/
theorem nested_tooDeep (limit : Nat) : r.Nested (fun _ => tooDeep limit : Nest σ) := by
  have h : ∀ {α : Type} {L R : Prop} {j : Nat} {Q : α → Nat → Prop},
      r.Follows L R j (tooDeep limit : Parser σ α) Q := .fails fun s => ⟨_, rfl, nofun⟩
  have hname : ∀ s : State σ, ∃ e, (tooDeep limit : Parser σ Pattern) s = .error e s ∧
      ∀ expected found, e.cause ≠ .unexpectedToken expected found := fun s => ⟨_, rfl, nofun⟩
  exact ⟨h, h, h, h, h, h, h, fun _ _ _ => .inl (hname _), h, h, h, h, h, h, h, h, h, h, h, h, h⟩

omit hn in
/-- **Nested constructs** of all levels. -/
theorem nestWithin_nested (resolver : Option (Resolver σ)) (limit levels : Nat) :
    r.Nested (nestWithin resolver limit levels) := by
  induction levels with
  | zero => exact nested_tooDeep limit
  | succ levels ih => exact rule_nested ih resolver

end

end Futhark.Grammar
