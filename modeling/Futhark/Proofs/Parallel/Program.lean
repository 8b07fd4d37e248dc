import Futhark.Proofs.Grammar.Entry
import Futhark.Proofs.Parallel.Expr

/-!
# Programs are read in parallel

The rules of the grammar for module types, modules and declarations. Their trees hold documentation
and the programs that imports stand for, which may differ between the two sides; no rule asks what
is in them.

From the rules, nested constructs of all levels are parallel (`nestWithin_parallel`), and so are the
parsers of all entry points. Constructs without imports do not even depend on the resolvers: they
are parallel under any two (`nestWithin_plain`).
-/

namespace Futhark.Grammar

open Futhark.Parser Futhark.Parser.Sides

variable {σ τ : Type} {S : Sides σ τ}

/-! ### Names that are defined -/

theorem infixOperator_agrees : S.Agree infixOperator infixOperator := by
  refine Parallel.kind.andThen fun k => ?_
  split
  · split
    · exact Parallel.advanceSpan.andThen fun _ => .pure rfl
    · exact .unexpected _
  · exact .unexpected _

theorem bindingName_agrees : S.Agree bindingName bindingName := by
  refine Parallel.kind.andThen fun k => ?_
  split
  · refine (Parallel.opening _).andThen fun o => infixOperator_agrees.andThen fun operator => ?_
    exact (Parallel.close o _).andThen fun _ => .pure rfl
  · exact Parallel.identifier.map _
  · exact .unexpected _

theorem liftednessMarker_agrees : S.Agree liftednessMarker liftednessMarker := by
  refine Parallel.kind.andThen fun k => ?_
  split
  · exact .skip (.pure rfl)
  · exact .skip (.pure rfl)
  · exact .pure rfl

/-- **Whether an infix definition comes next** is in view. -/
theorem atInfixBinding_agrees : S.Agree atInfixBinding atInfixBinding :=
  .look (fun view => bindsInfix view.kind view.second view.third) atInfixBinding_run
    atInfixBinding_run

/-! ### Definitions of values and types -/

section

variable {nest : Nest σ} {nest' : Nest τ} (hn : S.SilentNests nest nest')

include hn

theorem valueSpec_abreast (doc doc' : Option String) :
    S.Abreast (valueSpec nest doc) (valueSpec nest' doc') := by
  refine Parallel.advanceSpan.andThen fun start => bindingName_agrees.andThen fun name => ?_
  refine typeParams_agrees.andThen fun typeParams => (Parallel.expect _).andThen fun _ => ?_
  exact hn.type.andThen fun _ => .pure trivial

theorem typeSpec_abreast (doc doc' : Option String) :
    S.Abreast (typeSpec nest doc) (typeSpec nest' doc') := by
  refine Parallel.advanceSpan.andThen fun start => liftednessMarker_agrees.andThen fun _ => ?_
  refine Parallel.identifier.andThen fun name => typeParams_agrees.andThen fun params => ?_
  exact .optional _ hn.type fun _ => .pure trivial

theorem bindingHead_agrees : S.Agree (bindingHead nest) (bindingHead nest') := by
  refine atInfixBinding_agrees.andThen fun infixed => ?_
  split
  · refine hn.atomicPattern.andThen fun left => infixOperator_agrees.andThen fun operator => ?_
    exact hn.atomicPattern.andThen fun _ => .pure rfl
  · refine bindingName_agrees.andThen fun name => typeParams_agrees.andThen fun typeParams => ?_
    exact (params_agrees hn).andThen fun _ => .pure rfl

theorem valueBinding_abreast (kind : BindingKind) (doc doc' : Option String) :
    S.Abreast (valueBinding nest kind doc) (valueBinding nest' kind doc') := by
  refine Parallel.advanceSpan.andThen fun start => (bindingHead_agrees hn).andThen fun head => ?_
  refine (returnType_agrees hn).andThen fun returnType => (Parallel.expect _).andThen fun _ => ?_
  exact hn.expression.andThen fun _ => .pure trivial

theorem typeBinding_abreast (doc doc' : Option String) :
    S.Abreast (typeBinding nest doc) (typeBinding nest' doc') := by
  refine Parallel.advanceSpan.andThen fun start => liftednessMarker_agrees.andThen fun _ => ?_
  refine Parallel.identifier.andThen fun name => typeParams_agrees.andThen fun params => ?_
  exact (Parallel.expect _).andThen fun _ => hn.type.andThen fun _ => .pure trivial

end

/-! ### Module types -/

/-- Items up to a closing brace: there are as many of them on both sides. -/
theorem bracedItems_abreast {α : Type} {item : Parser σ α} {item' : Parser τ α}
    (h : S.Abreast item item') : S.Abreast (bracedItems item) (bracedItems item') := by
  refine .manyAbreast ((Parallel.at? _).andThen fun brace => Parallel.kind.andThen fun k => ?_)
  split
  · exact .pure .none
  · exact h.someAbreast id id

section

variable {nest : Nest σ} {nest' : Nest τ} (hn : S.PlainNests nest nest')

include hn

theorem moduleSpec_abreast (doc doc' : Option String) :
    S.Abreast (moduleSpec nest doc) (moduleSpec nest' doc') := by
  refine Parallel.advanceSpan.andThen fun start => Parallel.identifier.andThen fun name => ?_
  exact (Parallel.expect _).andThen fun _ => hn.moduleType.followedBy fun _ _ => .pure trivial

theorem includeSpec_abreast : S.Abreast (includeSpec nest) (includeSpec nest') :=
  Parallel.advanceSpan.andThen fun _ => hn.moduleType.followedBy fun _ _ => .pure trivial

theorem attributedSpec_abreast {doc doc' : Option String} (hdoc : S.Docs doc doc') :
    S.Abreast (attributedSpec nest doc) (attributedSpec nest' doc') := by
  refine (attr_agrees hn.toSilentNests).andThen fun a => ?_
  refine .bind hn.docs_refl (.docCommentOr hdoc) fun d d' hd => ?_
  exact (hn.documentedSpec hd).followedBy fun _ _ => .pure trivial

theorem documentedSpec_abreast {doc doc' : Option String} (hdoc : S.Docs doc doc') :
    S.Abreast (documentedSpec nest doc) (documentedSpec nest' doc') := by
  refine Parallel.kind.andThen fun k => ?_
  split
  · exact attributedSpec_abreast hn hdoc
  · exact valueSpec_abreast hn.toSilentNests doc doc'
  · exact typeSpec_abreast hn.toSilentNests doc doc'
  · exact moduleSpec_abreast hn doc doc'
  · exact includeSpec_abreast hn
  · exact .unexpected _

theorem spec_abreast : S.Abreast (spec nest) (spec nest') :=
  .bind hn.docs_refl (.docComment (hn.docs_refl none)) fun _ _ hdoc =>
    documentedSpec_abreast hn hdoc

theorem moduleTypeAtom_abreast : S.Abreast (moduleTypeAtom nest) (moduleTypeAtom nest') := by
  refine Parallel.kind.andThen fun k => ?_
  split
  · exact (Parallel.qualName.map _).abreast
  · refine (Parallel.opening _).andThen fun o => hn.moduleType.followedBy fun _ _ => ?_
    exact (Parallel.close o _).andThen fun _ => .pure trivial
  · refine (Parallel.opening _).andThen fun o => (bracedItems_abreast hn.spec).followedBy fun _ _ => ?_
    exact (Parallel.close o _).andThen fun _ => .pure trivial
  · exact .unexpected _

theorem refinementStep_abreast (base base' : ModuleType) :
    S.Parallel (Option.Rel fun _ _ => True) (refinementStep nest base)
      (refinementStep nest' base') := by
  refine (Parallel.eatKeyword? _).andThen fun taken => ?_
  cases taken with
  | none => exact .pure .none
  | some start =>
    refine Parallel.qualName.andThen fun typeName => typeParams_agrees.andThen fun params => ?_
    exact (Parallel.expect _).andThen fun _ => hn.type.abreast.someAbreast _ _

theorem refinedModuleType_abreast :
    S.Abreast (refinedModuleType nest) (refinedModuleType nest') :=
  (moduleTypeAtom_abreast hn).followedBy fun base base' =>
    .repeatAbreast (refinementStep_abreast hn) base base'

theorem namedFunctor_abreast : S.Abreast (namedFunctor nest) (namedFunctor nest') := by
  refine (Parallel.opening _).andThen fun o => Parallel.identifier.andThen fun name => ?_
  refine (Parallel.expect _).andThen fun _ => hn.moduleType.followedBy fun param param' => ?_
  refine (Parallel.close o _).andThen fun _ => (Parallel.expect _).andThen fun _ => ?_
  exact hn.moduleType.followedBy fun _ _ => .pure trivial

theorem moduleType_abreast : S.Abreast (moduleType nest) (moduleType nest') := by
  refine atNamedParameter_agrees.andThen fun named => ?_
  split
  · exact namedFunctor_abreast hn
  · refine (refinedModuleType_abreast hn).followedBy fun param param' => ?_
    refine (Parallel.eat? _).andThen fun taken => ?_
    cases taken with
    | none => exact .pure trivial
    | some arrow => exact hn.moduleType.followedBy fun _ _ => .pure trivial

theorem moduleParam_abreast : S.Abreast (moduleParam nest) (moduleParam nest') := by
  refine (Parallel.expect _).andThen fun start => Parallel.identifier.andThen fun name => ?_
  refine (Parallel.expect _).andThen fun _ => hn.moduleType.followedBy fun _ _ => ?_
  exact (Parallel.close _ _).andThen fun _ => .pure trivial

theorem moduleParams_abreast : S.Abreast (moduleParams nest) (moduleParams nest') := by
  refine .manyAbreast ((Parallel.at? _).andThen fun next => ?_)
  split
  · exact (moduleParam_abreast hn).someAbreast id id
  · exact .pure .none

end

/-! ### Modules and declarations -/

section

variable {nest : Nest σ} {nest' : Nest τ} (hn : S.Nests nest nest')

include hn

theorem moduleAtom_abreast :
    S.Abreast (moduleAtom S.resolver nest) (moduleAtom S.resolver' nest') := by
  refine Parallel.kind.andThen fun k => ?_
  split
  · exact (Parallel.qualName.map _).abreast
  · exact Parallel.importFile.followedBy fun _ _ => .pure trivial
  · refine (Parallel.opening _).andThen fun o => hn.moduleExpr.followedBy fun _ _ => ?_
    exact (Parallel.close o _).andThen fun _ => .pure trivial
  · refine (Parallel.opening _).andThen fun o => ?_
    refine (bracedItems_abreast (hn.declaration (hn.docs_refl none))).followedBy fun _ _ => ?_
    exact (Parallel.close o _).andThen fun _ => .pure trivial
  · exact .unexpected _

theorem moduleApplicationStep_abreast (functor functor' : ModuleExpr) :
    S.Parallel (Option.Rel fun _ _ => True) (moduleApplicationStep S.resolver nest functor)
      (moduleApplicationStep S.resolver' nest' functor') := by
  refine Parallel.kind.andThen fun k => ?_
  split
  · exact (moduleAtom_abreast hn).someAbreast _ _
  · exact .pure .none

theorem moduleApplication_abreast :
    S.Abreast (moduleApplication S.resolver nest) (moduleApplication S.resolver' nest') :=
  (moduleAtom_abreast hn).followedBy fun functor functor' =>
    .repeatAbreast (moduleApplicationStep_abreast hn) functor functor'

theorem moduleLambda_abreast : S.Abreast (moduleLambda nest) (moduleLambda nest') := by
  refine Parallel.advanceSpan.andThen fun start => ?_
  refine (moduleParam_abreast hn.toPlainNests).followedBy fun param param' => ?_
  refine .optionalAbreast _ hn.refinedModuleType fun signature signature' => ?_
  exact (Parallel.expect _).andThen fun _ => hn.moduleExpr.followedBy fun _ _ => .pure trivial

theorem moduleAscriptionStep_abreast (body body' : ModuleExpr) :
    S.Parallel (Option.Rel fun _ _ => True) (moduleAscriptionStep nest body)
      (moduleAscriptionStep nest' body') := by
  refine (Parallel.eat? _).andThen fun taken => ?_
  cases taken with
  | none => exact .pure .none
  | some colon => exact hn.moduleType.someAbreast _ _

theorem moduleExpr_abreast :
    S.Abreast (moduleExpr S.resolver nest) (moduleExpr S.resolver' nest') := by
  refine (Parallel.at? _).andThen fun next => ?_
  split
  · exact moduleLambda_abreast hn
  · exact (moduleApplication_abreast hn).followedBy fun body body' =>
      .repeatAbreast (moduleAscriptionStep_abreast hn) body body'

theorem moduleBinding_abreast (doc doc' : Option String) :
    S.Abreast (moduleBinding nest doc) (moduleBinding nest' doc') := by
  refine Parallel.advanceSpan.andThen fun start => (Parallel.eatKeyword? _).andThen fun taken => ?_
  split
  · refine Parallel.identifier.andThen fun name => (Parallel.expect _).andThen fun _ => ?_
    exact hn.moduleType.followedBy fun _ _ => .pure trivial
  · refine Parallel.identifier.andThen fun name => ?_
    refine (moduleParams_abreast hn.toPlainNests).followedBy fun params params' => ?_
    refine .optionalAbreast _ hn.moduleType fun signature signature' => ?_
    exact (Parallel.expect _).andThen fun _ => hn.moduleExpr.followedBy fun _ _ => .pure trivial

theorem attributedDecl_abreast {doc doc' : Option String} (hdoc : S.Docs doc doc') :
    S.Abreast (attributedDecl nest doc) (attributedDecl nest' doc') := by
  refine (attr_agrees hn.toSilentNests).andThen fun a => ?_
  refine .bind hn.docs_refl (.docCommentOr hdoc) fun d d' hd => ?_
  exact (hn.documentedDeclaration hd).followedBy fun _ _ => .pure trivial

theorem openDecl_abreast : S.Abreast (openDecl nest) (openDecl nest') :=
  Parallel.advanceSpan.andThen fun _ => hn.moduleExpr.followedBy fun _ _ => .pure trivial

theorem localDecl_abreast {doc doc' : Option String} (hdoc : S.Docs doc doc') :
    S.Abreast (localDecl nest doc) (localDecl nest' doc') :=
  Parallel.advanceSpan.andThen fun _ => (hn.declaration hdoc).followedBy fun _ _ => .pure trivial

theorem documentedDeclaration_abreast {doc doc' : Option String} (hdoc : S.Docs doc doc') :
    S.Abreast (documentedDeclaration S.resolver nest doc)
      (documentedDeclaration S.resolver' nest' doc') := by
  refine Parallel.kind.andThen fun k => ?_
  split
  · exact (valueBinding_abreast hn.toSilentNests _ doc doc').followedBy fun _ _ => .pure trivial
  · split
    · exact attributedDecl_abreast hn hdoc
    · exact (typeBinding_abreast hn.toSilentNests doc doc').followedBy fun _ _ => .pure trivial
    · exact moduleBinding_abreast hn doc doc'
    · exact openDecl_abreast hn
    · exact Parallel.importFile.followedBy fun _ _ => .pure trivial
    · exact localDecl_abreast hn hdoc
    · exact .unexpected _

theorem declaration_abreast {doc doc' : Option String} (hdoc : S.Docs doc doc') :
    S.Abreast (declaration S.resolver nest doc) (declaration S.resolver' nest' doc') :=
  .bind hn.docs_refl (.docCommentOr hdoc) fun _ _ hdoc => documentedDeclaration_abreast hn hdoc

theorem program_abreast : S.Abreast (program S.resolver nest) (program S.resolver' nest') := by
  refine (Parallel.manyAbreast (Parallel.kind.andThen fun k => ?_)).followedBy fun _ _ => ?_
  · split
    · exact .pure .none
    · exact (declaration_abreast hn (hn.docs_refl none)).someAbreast id id
  · exact Parallel.here.andThen fun _ => .pure trivial

end

/-! ### All levels -/

section

variable {nest : Nest σ} {nest' : Nest τ}

/-- **What is nested without documentation and imports** is read in parallel if that is true one
level deeper. -/
theorem rule_silent (resolver : Option (Resolver σ)) (resolver' : Option (Resolver τ))
    (hn : S.SilentNests nest nest') :
    S.SilentNests (rule resolver nest) (rule resolver' nest') where
  attr := attributeInfo_agrees hn
  type := type_agrees hn
  typeTerm := typeTerm_agrees hn
  typeAtom := typeAtom_agrees hn
  pattern := pattern_agrees hn
  constructorPattern := constructorPattern_agrees hn
  atomicPattern := atomicPattern_agrees hn
  expression := expression_agrees hn
  range := range_agrees hn
  binary power := binary_agrees hn power
  operand := operand_agrees hn
  postfixAtom := postfixAtom_agrees hn
  letChain := letIn_agrees hn

/-- **What is nested without imports** is read in parallel if that is true one level deeper, however
imports are resolved. -/
theorem rule_plain (resolver : Option (Resolver σ)) (resolver' : Option (Resolver τ))
    (hn : S.PlainNests nest nest') : S.PlainNests (rule resolver nest) (rule resolver' nest') where
  toSilentNests := rule_silent resolver resolver' hn.toSilentNests
  docs_refl := hn.docs_refl
  spec := spec_abreast hn
  documentedSpec hdoc := documentedSpec_abreast hn hdoc
  moduleType := moduleType_abreast hn
  refinedModuleType := refinedModuleType_abreast hn

/-- **What is nested** is read in parallel if that is true one level deeper. -/
theorem rule_parallel (hn : S.Nests nest nest') :
    S.Nests (rule S.resolver nest) (rule S.resolver' nest') where
  toPlainNests := rule_plain S.resolver S.resolver' hn.toPlainNests
  declaration hdoc := declaration_abreast hn hdoc
  documentedDeclaration hdoc := documentedDeclaration_abreast hn hdoc
  moduleExpr := moduleExpr_abreast hn

end

/-- **Without levels** both sides fail alike. -/
theorem tooDeep_silent (limit : Nat) :
    S.SilentNests (fun _ => tooDeep limit) (fun _ => tooDeep limit) where
  attr := .tooDeep limit
  type := .tooDeep limit
  typeTerm := .tooDeep limit
  typeAtom := .tooDeep limit
  pattern := .tooDeep limit
  constructorPattern := .tooDeep limit
  atomicPattern := .tooDeep limit
  expression := .tooDeep limit
  range := .tooDeep limit
  binary _ := .tooDeep limit
  operand := .tooDeep limit
  postfixAtom := .tooDeep limit
  letChain := .tooDeep limit

theorem tooDeep_parallel (limit : Nat) (hdocs : ∀ doc, S.Docs doc doc) :
    S.Nests (fun _ => tooDeep limit) (fun _ => tooDeep limit) where
  toSilentNests := tooDeep_silent limit
  docs_refl := hdocs
  spec := .tooDeep limit
  documentedSpec _ := .tooDeep limit
  moduleType := .tooDeep limit
  refinedModuleType := .tooDeep limit
  declaration _ := .tooDeep limit
  documentedDeclaration _ := .tooDeep limit
  moduleExpr := .tooDeep limit

variable (S) (limit : Nat) (hdocs : ∀ doc, S.Docs doc doc)

include hdocs

/-- **Nested constructs are parallel** at all levels. -/
theorem nestWithin_parallel (levels : Nat) :
    S.Nests (nestWithin S.resolver limit levels) (nestWithin S.resolver' limit levels) := by
  induction levels with
  | zero => exact tooDeep_parallel limit hdocs
  | succ levels ih => exact rule_parallel ih

/-- **Nested constructs without imports are parallel** under any resolvers. -/
theorem nestWithin_plain (resolver : Option (Resolver σ)) (resolver' : Option (Resolver τ))
    (levels : Nat) :
    S.PlainNests (nestWithin resolver limit levels) (nestWithin resolver' limit levels) := by
  induction levels with
  | zero => exact (tooDeep_parallel limit hdocs).toPlainNests
  | succ levels ih => exact rule_plain resolver resolver' ih

/-- **Programs are parallel.** -/
theorem programWith_abreast :
    S.Abreast (programWith ⟨limit, S.resolver⟩) (programWith ⟨limit, S.resolver'⟩) :=
  program_abreast (nestWithin_parallel S limit hdocs limit)

omit S hdocs in
/-- **Fragments are parallel** if what is nested there is. -/
theorem fragment_agrees {S : Sides Unit Unit} {n : Nonterminal}
    (h : S.Agree (nestWithin none limit limit n) (nestWithin none limit limit n)) :
    S.Agree (fragment limit n) (fragment limit n) :=
  h.andThen fun _ => Parallel.expectFinish.andThen fun _ => .pure rfl

end Futhark.Grammar
