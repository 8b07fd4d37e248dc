import Futhark.Proofs.Brackets.Expr

/-!
# Brackets and blame in module types, modules and declarations

The last rules of the grammar, and all of them together: whatever the levels of nesting and whatever
the imports stand for, a nested construct leaves the brackets as it finds them, or blames a token
(`Grammar.nestWithin_keeps`).
-/

namespace Futhark.Grammar

open Futhark.Parser

variable {σ : Type} {stream : TokenStream} {length i : Nat} {stack : List Opening}
  {W : Watch stream σ} {resolver : Option (Resolver σ)}

variable {nest : Nest σ} (hs : stream.Scanned length) (hn : nest.Keeps W)
  (hW : W.Follows resolver)

include hs

/-! ### Names that are defined -/

theorem infixOperator_keeps : Keeps W i (infixOperator : Parser σ OperatorName) := by
  intro stack
  apply Tracks.kind
  split
  · rename_i symbol hk
    split
    · exact .advanceSpan hs (by rw [hk]; rfl) (.pure trivial)
    · exact .unexpected
  · exact .unexpected

theorem bindingName_keeps : Keeps W i (bindingName : Parser σ BindingName) := by
  intro stack
  apply Tracks.kind
  split
  · rename_i hk
    apply Tracks.opening hs hk rfl
    apply (infixOperator_keeps hs).bind
    exact fun operator j => .close hs (.pure trivial)
  · exact (identifier_keeps hs).bind fun _ _ => .pure trivial
  · exact .unexpected

theorem liftednessMarker_keeps : Keeps W i (liftednessMarker : Parser σ Liftedness) := by
  intro stack
  apply Tracks.kind
  split
  · rename_i hk
    exact .advance hs (by rw [hk]; rfl) (.pure trivial)
  · rename_i hk
    exact .advance hs (by rw [hk]; rfl) (.pure trivial)
  · exact .pure trivial

/-! ### Specifications -/

section

include hn

theorem valueSpec_keeps {doc : Option String} (hk : stream.kindAt i = .keyword .kwVal) :
    Keeps W i (valueSpec nest doc) := by
  intro stack
  apply Tracks.advanceSpan hs (by rw [hk]; rfl)
  apply (bindingName_keeps hs).bind
  intro name j
  apply (typeParams_keeps hs).bind
  intro typeParams k
  apply Tracks.expect hs rfl
  exact fun _ => (hn.free .type rfl _).bind fun _ _ => .pure trivial

theorem typeSpec_keeps {doc : Option String} (hk : stream.kindAt i = .keyword .kwType) :
    Keeps W i (typeSpec nest doc) := by
  intro stack
  apply Tracks.advanceSpan hs (by rw [hk]; rfl)
  apply (liftednessMarker_keeps hs).bind
  intro liftedness j
  apply (identifier_keeps hs).bind
  intro name k
  apply (typeParams_keeps hs).bind
  intro params l
  exact Keeps.optional hs rfl (hn.free .type rfl) fun definition m => .pure trivial

theorem moduleSpec_keeps {doc : Option String} (hk : stream.kindAt i = .keyword .kwModule) :
    Keeps W i (moduleSpec nest doc) := by
  intro stack
  apply Tracks.advanceSpan hs (by rw [hk]; rfl)
  apply (identifier_keeps hs).bind
  intro name j
  apply Tracks.expect hs rfl
  exact fun _ => (hn.free .moduleType rfl _).bind fun _ _ => .pure trivial

theorem includeSpec_keeps (hk : stream.kindAt i = .keyword .kwInclude) :
    Keeps W i (includeSpec nest) := by
  intro stack
  apply Tracks.advanceSpan hs (by rw [hk]; rfl)
  exact (hn.free .moduleType rfl _).bind fun _ _ => .pure trivial

theorem attributedSpec_keeps {doc : Option String} :
    Keeps W i (attributedSpec nest doc) := by
  intro stack
  apply (attr_keeps hs hn).bind
  intro a j
  apply Tracks.docCommentOr
  exact fun doc => (hn.free (.documentedSpec doc) rfl j).bind fun _ _ => .pure trivial

theorem documentedSpec_keeps {doc : Option String} :
    Keeps W i (documentedSpec nest doc) := by
  intro stack
  apply Tracks.kind
  split
  · exact attributedSpec_keeps hs hn stack
  · rename_i hk
    exact valueSpec_keeps hs hn hk stack
  · rename_i hk
    exact typeSpec_keeps hs hn hk stack
  · rename_i hk
    exact moduleSpec_keeps hs hn hk stack
  · rename_i hk
    exact includeSpec_keeps hs hn hk stack
  · exact .unexpected

theorem spec_keeps : Keeps W i (spec nest) :=
  fun stack => .docComment fun _ => documentedSpec_keeps hs hn stack

end

/-! ### Module types -/

omit hs in
theorem bracedItems_keeps {α : Type} {item : Parser σ α} (h : ∀ j, Keeps W j item) :
    Keeps W i (bracedItems item) := by
  apply Keeps.many
  intro j stack
  apply Tracks.at?
  apply Tracks.kind
  split
  · exact .pure trivial
  · exact (h j).bind fun _ _ => .pure trivial

include hn

theorem moduleTypeAtom_keeps : Keeps W i (moduleTypeAtom nest) := by
  intro stack
  apply Tracks.kind
  split
  · exact (qualName_keeps hs).bind fun _ _ => .pure trivial
  · rename_i hk
    apply Tracks.opening hs hk rfl
    apply (hn.free .moduleType rfl _).bind
    exact fun inner j => .close hs (.pure trivial)
  · rename_i hk
    apply Tracks.opening hs hk rfl
    apply (bracedItems_keeps (hn.free .spec rfl)).bind
    exact fun specs j => .close hs (.pure trivial)
  · exact .unexpected

theorem refinementStep_keeps {base : ModuleType} : Keeps W i (refinementStep nest base) := by
  intro stack
  apply Tracks.eatKeyword? hs rfl
  · intro _
    apply (qualName_keeps hs).bind
    intro name j
    apply (typeParams_keeps hs).bind
    intro params k
    apply Tracks.expect hs rfl
    exact fun _ => (hn.free .type rfl _).bind fun _ _ => .pure trivial
  · exact fun _ => .pure trivial

theorem refinedModuleType_keeps : Keeps W i (refinedModuleType nest) := by
  intro stack
  apply (moduleTypeAtom_keeps hs hn).bind
  exact fun base j => Keeps.repeatFrom (fun _ _ => refinementStep_keeps hs hn) base stack

theorem namedFunctor_keeps (hk : stream.kindAt i = .punct .leftParen) :
    Keeps W i (namedFunctor nest) := by
  intro stack
  apply Tracks.opening hs hk rfl
  apply (identifier_keeps hs).bind
  intro name j
  apply Tracks.expect hs rfl
  intro _
  apply (hn.free .moduleType rfl _).bind
  intro param k
  apply Tracks.close hs
  apply Tracks.expect hs rfl
  exact fun _ => (hn.free .moduleType rfl _).bind fun _ _ => .pure trivial

theorem moduleType_keeps : Keeps W i (moduleType nest) := by
  intro stack
  apply Tracks.look .atNamedParameter fun _ => ⟨_, rfl⟩
  split
  · rename_i h
    simp only [Bool.and_eq_true, decide_eq_true_eq] at h
    exact namedFunctor_keeps hs hn h.1.1 stack
  · apply (refinedModuleType_keeps hs hn).bind
    intro param j
    apply Tracks.eat? hs rfl
    · exact fun _ => (hn.free .moduleType rfl _).bind fun _ _ => .pure trivial
    · exact fun _ => .pure trivial

theorem moduleParam_keeps : Keeps W i (moduleParam nest) := by
  intro stack
  apply Tracks.expectOpening hs rfl
  intro _
  apply (identifier_keeps hs).bind
  intro name j
  apply Tracks.expect hs rfl
  intro _
  apply (hn.free .moduleType rfl _).bind
  exact fun signature k => .close hs (.pure trivial)

/-! ### Imports and module expressions -/

section

include hW

omit hn in
theorem importFile_keeps (hk : stream.kindAt i = .keyword .kwImport) :
    Keeps W i (importFile resolver) := fun _ => .importFile hs hW hk

theorem moduleAtom_keeps : Keeps W i (moduleAtom resolver nest) := by
  intro stack
  apply Tracks.kind
  split
  · exact (qualName_keeps hs).bind fun _ _ => .pure trivial
  · rename_i hk
    exact (importFile_keeps hs hW hk).bind fun _ _ => .pure trivial
  · rename_i hk
    apply Tracks.opening hs hk rfl
    apply (hn.free .moduleExpr rfl _).bind
    exact fun inner j => .close hs (.pure trivial)
  · rename_i hk
    apply Tracks.opening hs hk rfl
    apply (bracedItems_keeps (hn.free (.declaration none) rfl)).bind
    exact fun declarations j => .close hs (.pure trivial)
  · exact .unexpected

theorem moduleApplicationStep_keeps {functor : ModuleExpr} :
    Keeps W i (moduleApplicationStep resolver nest functor) := by
  intro stack
  apply Tracks.kind
  split
  · exact (moduleAtom_keeps hs hn hW).bind fun _ _ => .pure trivial
  · exact .pure trivial

theorem moduleApplication_keeps : Keeps W i (moduleApplication resolver nest) := by
  intro stack
  apply (moduleAtom_keeps hs hn hW).bind
  exact fun functor j =>
    Keeps.repeatFrom (fun _ _ => moduleApplicationStep_keeps hs hn hW) functor stack

omit hW in
theorem moduleLambda_keeps (hk : stream.kindAt i = .punct .backslash) :
    Keeps W i (moduleLambda nest) := by
  intro stack
  apply Tracks.advanceSpan hs (by rw [hk]; rfl)
  apply (moduleParam_keeps hs hn).bind
  intro param j
  apply Keeps.optional hs rfl (hn.free .refinedModuleType rfl)
  intro signature k
  apply Tracks.expect hs rfl
  exact fun _ => (hn.free .moduleExpr rfl _).bind fun _ _ => .pure trivial

omit hW in
theorem moduleAscriptionStep_keeps {body : ModuleExpr} :
    Keeps W i (moduleAscriptionStep nest body) := by
  intro stack
  apply Tracks.eat? hs rfl
  · exact fun _ => (hn.free .moduleType rfl _).bind fun _ _ => .pure trivial
  · exact fun _ => .pure trivial

theorem moduleExpr_keeps : Keeps W i (moduleExpr resolver nest) := by
  intro stack
  apply Tracks.at?
  split
  · rename_i hk
    exact moduleLambda_keeps hs hn (of_decide_eq_true hk) stack
  · apply (moduleApplication_keeps hs hn hW).bind
    exact fun body j =>
      Keeps.repeatFrom (fun _ _ => moduleAscriptionStep_keeps hs hn) body stack

end

/-! ### Definitions of values and types -/

theorem bindingHead_keeps : Keeps W i (bindingHead nest) := by
  intro stack
  have hinfix : Keeps W i (atInfixBinding : Parser σ Bool) := by
    intro stack
    apply Tracks.get
    intro s _
    split <;> exact .pure trivial
  apply hinfix.bind
  intro infixed j
  split
  · apply (hn.free .atomicPattern rfl _).bind
    intro left k
    apply (infixOperator_keeps hs).bind
    exact fun operator l => (hn.free .atomicPattern rfl l).bind fun _ _ => .pure trivial
  · apply (bindingName_keeps hs).bind
    intro name k
    apply (typeParams_keeps hs).bind
    exact fun typeParams l => (params_keeps hn).bind fun _ _ => .pure trivial

theorem valueBinding_keeps {kind : BindingKind} {doc : Option String}
    (hk : bindingKindOf? (stream.kindAt i) = some kind) :
    Keeps W i (valueBinding nest kind doc) := by
  intro stack
  have hplain : (stream.kindAt i).isPlain = true := by
    revert hk
    generalize stream.kindAt i = k
    unfold bindingKindOf?
    split <;> first | exact fun _ => rfl | exact nofun
  apply Tracks.advanceSpan hs hplain
  apply (bindingHead_keeps hs hn).bind
  rintro ⟨name, typeParams, params⟩ j
  apply (returnType_keeps hs hn).bind
  intro returnType k
  apply Tracks.expect hs rfl
  exact fun _ => (hn.free .expression rfl _).bind fun _ _ => .pure trivial

theorem typeBinding_keeps {doc : Option String} (hk : stream.kindAt i = .keyword .kwType) :
    Keeps W i (typeBinding nest doc) := by
  intro stack
  apply Tracks.advanceSpan hs (by rw [hk]; rfl)
  apply (liftednessMarker_keeps hs).bind
  intro liftedness j
  apply (identifier_keeps hs).bind
  intro name k
  apply (typeParams_keeps hs).bind
  intro params l
  apply Tracks.expect hs rfl
  exact fun _ => (hn.free .type rfl _).bind fun _ _ => .pure trivial

/-! ### Declarations -/

theorem moduleParams_keeps : Keeps W i (moduleParams nest) := by
  apply Keeps.many
  intro j stack
  apply Tracks.at?
  split
  · exact (moduleParam_keeps hs hn).bind fun _ _ => .pure trivial
  · exact .pure trivial

theorem moduleBinding_keeps {doc : Option String} (hk : stream.kindAt i = .keyword .kwModule) :
    Keeps W i (moduleBinding nest doc) := by
  intro stack
  apply Tracks.advanceSpan hs (by rw [hk]; rfl)
  apply Tracks.eatKeyword? hs rfl
  · intro _
    apply (identifier_keeps hs).bind
    intro name j
    apply Tracks.expect hs rfl
    exact fun _ => (hn.free .moduleType rfl _).bind fun _ _ => .pure trivial
  · intro _
    apply (identifier_keeps hs).bind
    intro name j
    apply (moduleParams_keeps hs hn).bind
    intro params k
    apply Keeps.optional hs rfl (hn.free .moduleType rfl)
    intro signature l
    apply Tracks.expect hs rfl
    exact fun _ => (hn.free .moduleExpr rfl _).bind fun _ _ => .pure trivial

theorem attributedDecl_keeps {doc : Option String} :
    Keeps W i (attributedDecl nest doc) := by
  intro stack
  apply (attr_keeps hs hn).bind
  intro a j
  apply Tracks.docCommentOr
  exact fun doc => (hn.free (.documentedDeclaration doc) rfl j).bind fun _ _ => .pure trivial

theorem openDecl_keeps (hk : stream.kindAt i = .keyword .kwOpen) :
    Keeps W i (openDecl nest) := by
  intro stack
  apply Tracks.advanceSpan hs (by rw [hk]; rfl)
  exact (hn.free .moduleExpr rfl _).bind fun _ _ => .pure trivial

theorem localDecl_keeps {doc : Option String} (hk : stream.kindAt i = .keyword .kwLocal) :
    Keeps W i (localDecl nest doc) := by
  intro stack
  apply Tracks.advanceSpan hs (by rw [hk]; rfl)
  exact (hn.free (.declaration doc) rfl _).bind fun _ _ => .pure trivial

include hW

theorem documentedDeclaration_keeps {doc : Option String} :
    Keeps W i (documentedDeclaration resolver nest doc) := by
  intro stack
  apply Tracks.kind
  split
  · rename_i hk
    exact (valueBinding_keeps hs hn hk).bind fun _ _ => .pure trivial
  · split
    · exact attributedDecl_keeps hs hn stack
    · rename_i hk
      exact (typeBinding_keeps hs hn hk).bind fun _ _ => .pure trivial
    · rename_i hk
      exact moduleBinding_keeps hs hn hk stack
    · rename_i hk
      exact openDecl_keeps hs hn hk stack
    · rename_i hk
      exact (importFile_keeps hs hW hk).bind fun _ _ => .pure trivial
    · rename_i hk
      exact localDecl_keeps hs hn hk stack
    · exact .unexpected

theorem declaration_keeps {doc : Option String} :
    Keeps W i (declaration resolver nest doc) :=
  fun stack => .docCommentOr fun _ => documentedDeclaration_keeps hs hn hW stack

theorem program_keeps : Keeps W i (program resolver nest) := by
  intro stack
  have hdeclarations : Keeps W i
      (many do
        if (← kind).isFinish then return none
        else return some (← declaration resolver nest none)) := by
    apply Keeps.many
    intro j stack
    apply Tracks.kind
    split
    · exact .pure trivial
    · exact (declaration_keeps hs hn hW).bind fun _ _ => .pure trivial
  exact hdeclarations.bind fun declarations j => .here (.pure trivial)

/-! ### All levels -/

/-- Every rule keeps the brackets if what is nested in it does. -/
theorem rule_keeps : Nest.Keeps W (rule resolver nest) where
  letChain i hk := letIn_keeps hs hn hk
  attr i := attributeInfo_keeps hs hn
  free n hfree i := by
    cases n with
    | letChain => exact absurd hfree Bool.false_ne_true
    | attr => exact absurd hfree Bool.false_ne_true
    | type => exact type_keeps hs hn
    | typeTerm => exact typeTerm_keeps hs hn
    | typeAtom => exact typeAtom_keeps hs hn
    | pattern => exact pattern_keeps hs hn
    | constructorPattern => exact constructorPattern_keeps hs hn
    | atomicPattern => exact atomicPattern_keeps hs hn
    | expression => exact expression_keeps hs hn hW
    | range => exact range_keeps hs hn hW
    | binary power => exact binary_keeps hs hn hW
    | operand => exact operand_keeps hs hn hW
    | postfixAtom => exact postfixAtom_keeps hs hn hW
    | declaration doc => exact declaration_keeps hs hn hW
    | documentedDeclaration doc => exact documentedDeclaration_keeps hs hn hW
    | spec => exact spec_keeps hs hn
    | documentedSpec doc => exact documentedSpec_keeps hs hn
    | moduleExpr => exact moduleExpr_keeps hs hn hW
    | moduleType => exact moduleType_keeps hs hn
    | refinedModuleType => exact refinedModuleType_keeps hs hn

omit hn in
/-- **Brackets are kept at all levels.** With no levels left, the next token is to blame. -/
theorem nestWithin_keeps (limit levels : Nat) :
    Nest.Keeps W (nestWithin resolver limit levels) := by
  induction levels with
  | zero => exact ⟨fun _ _ _ _ => .here (.raise (.nestingTooDeep _)),
      fun _ _ _ => .here (.raise (.nestingTooDeep _)),
      fun _ _ => .here (.raise (.nestingTooDeep _))⟩
  | succ levels ih => exact rule_keeps hs ih hW

end Futhark.Grammar
