import Futhark.Proofs.Expected.TypeExpr

/-!
# Expected tokens in module types

Specifications stand one after another in braces, without separators. What may start one is listed
together with the closing brace by whatever comes after the last of them, and by a specification that
starts with something else (`bracedItems_follows`).
-/

namespace Futhark.Grammar

open Futhark.Parser Futhark.Parser.Replacement

variable {σ : Type} {r : Replacement} {nest : Nest σ} {j : Nat} {L R : Prop}

/-! ### Names that are defined -/

theorem infixOperator_follows :
    r.Follows True False j (infixOperator : Parser σ OperatorName) fun _ k => j < k := by
  refine Follows.kindLeft fun κ => ?_
  split
  · split
    · exact Follows.advanceSpan.bind fun _ k h hk => .pure fun hkp => by omega
    · exact .unexpectedPhrase And.left
  · exact .unexpectedPhrase And.left

/-- What the name of a definition may be, apart from a name. -/
abbrev bindingStart : List Expectation := [.phrase "a name", .punct .leftParen]

theorem bindingName_follows :
    r.Follows (¬ r.Lists bindingStart) (r.Lists bindingStart) j
      (bindingName : Parser σ BindingName) fun _ k => j < k := by
  refine Follows.kindListed fun c k hk hnew => ?_
  split
  · refine Follows.opening fun span l hkl hl => infixOperator_follows.only.bind fun _ m hlm _ => ?_
    exact (Follows.closeOnly _).only.bind fun _ n hmn _ => .pure fun hnp => by omega
  · refine (Follows.identifier.map fun _ l hkl hlp hl => ?_).weaken (fun _ => trivial)
      fun h => new_ne_identifier h.2.symm
    omega
  next hparen hname =>
    refine .unexpectedKind ?_ hnew
    simpa [Expectation.kind?, eq_comm] using hparen

theorem liftednessMarker_follows :
    r.Follows False False j (liftednessMarker : Parser σ Liftedness) fun _ _ => True := by
  refine Follows.only (Follows.kindAmong (fun κ => κ = .operator "^" ∨ κ = .punct .tilde)
    (Pure.pure .unlifted) ?_ (fun κ hκ => ?_) (.pure fun _ => trivial))
  · rintro _ (rfl | rfl)
    · exact Follows.advance.bind fun _ _ _ _ => .pure fun _ => trivial
    · exact Follows.advance.bind fun _ _ _ _ => .pure fun _ => trivial
  · split
    · exact absurd (.inl rfl) hκ
    · exact absurd (.inr rfl) hκ
    · rfl

/-! ### Items in braces -/

/-- Whether the items in braces end. -/
def endsItems (v : View) : Bool := v.kind = .punct .rightBrace || v.kind.isFinish

theorem endsItems_new : endsItems (.ofStream r.replaced r.place) = true ↔
    r.new = .punct .rightBrace := by
  have hnew : (View.ofStream r.replaced r.place).kind = r.new := rfl
  unfold endsItems
  rw [hnew]
  rcases r.reserved with ⟨q, hq⟩ | ⟨word, hword⟩
  · rw [hq]
    simp [TokenKind.isFinish]
  · rw [hword]
    simp [TokenKind.isFinish]

/-- **Items in braces**, with the closing brace. What may start an item is listed with the brace.
Where the left side stops, it takes the brace or complains about the end of the input. -/
theorem bracedItems_follows {α β : Type} {item : Parser σ α} {starts : List Expectation}
    {f : List α → Span → Parser σ β} {T : β → Nat → Prop} {span : Span}
    (hbrace : ∀ e ∈ starts, e.kind? ≠ some (.punct .rightBrace))
    (hitem : ∀ k, j ≤ k → r.Follows (¬ r.Lists starts) (r.Lists starts) k item fun _ l => k < l)
    (hf : ∀ items stop k, j ≤ k → r.Follows False False k (f items stop) T) :
    r.Follows False False j (do
      let items ← bracedItems item
      let stop ← Parser.close ⟨.leftBrace, span⟩ starts
      f items stop) T := by
  have hstays : ∀ items stop, Stays .onward (f items stop) := fun items stop =>
    (hf items stop j le_rfl).stays
  refine Follows.manyUntil endsItems starts (fun s => rfl) (fun k hk => ?_) hitem
    (fun items k hjk hk => ?_) (fun items hends => ?_) fun items hends => ?_
  · unfold endsItems
    rw [View.kind_eq hk]
  · refine (Follows.close fun hplace e he hkind => ?_).only.bind fun stop l hkl _ =>
      hf items stop l (hjk.trans hkl)
    subst hplace
    rw [endsItems_new.mp (hk le_rfl)] at hkind
    exact absurd hkind (hbrace e he)
  · refine (Clears.close (o := ⟨.leftBrace, span⟩) r.lt ?_).bind (hstays items)
    simp only [endsItems, Bool.or_eq_true, decide_eq_true_eq] at hends
    exact hends
  · exact (Clears.close (o := ⟨.leftBrace, span⟩) (r.length ▸ r.lt)
      (.inl (endsItems_new.mp hends))).bind (hstays items)

section

variable (hn : r.Nested nest)

include hn

/-! ### Specifications -/

theorem valueSpec_follows (doc : Option String) :
    r.Follows L R j (valueSpec nest doc) fun _ k => j < k := by
  refine Follows.advanceSpan.bind fun _ k₁ h₁ hk₁ => ?_
  refine bindingName_follows.only.bind fun _ k₂ h₂ _ => ?_
  refine typeParams_follows.only.bind fun _ k₃ h₃ _ => Follows.expect.only.bind fun _ k₄ h₄ _ => ?_
  exact hn.type.only.bind fun _ k₅ h₅ _ => .pure fun h => by omega

theorem typeSpec_follows (doc : Option String) :
    r.Follows L R j (typeSpec nest doc) fun _ k => j < k := by
  refine Follows.advanceSpan.bind fun _ k₁ h₁ hk₁ => ?_
  refine liftednessMarker_follows.bind fun _ k₂ h₂ _ => ?_
  refine Follows.identifier.only.bind fun _ k₃ h₃ _ => ?_
  refine typeParams_follows.only.bind fun _ k₄ h₄ _ => ?_
  exact Follows.optional (fun _ _ => hn.type.only) fun _ k₅ h₅ _ => .pure fun h => by omega

theorem moduleSpec_follows (doc : Option String) :
    r.Follows L R j (moduleSpec nest doc) fun _ k => j < k := by
  refine Follows.advanceSpan.bind fun _ k₁ h₁ hk₁ => ?_
  refine Follows.identifier.only.bind fun _ k₂ h₂ _ => ?_
  refine Follows.expect.only.bind fun _ k₃ h₃ _ => hn.moduleType.only.bind fun _ k₄ h₄ _ => ?_
  exact .pure fun h => by omega

theorem includeSpec_follows : r.Follows L R j (includeSpec nest) fun _ k => j < k :=
  Follows.advanceSpan.bind fun _ k₁ h₁ hk₁ => hn.moduleType.only.bind fun _ k₂ h₂ _ =>
    .pure fun h => by omega

theorem attributedSpec_follows (doc : Option String) :
    r.Follows (r.old = .punct .attributeOpen) (r.new = .punct .attributeOpen) j
      (attributedSpec nest doc) fun _ k => j < k := by
  refine (attr_follows hn).bind fun a k₁ h₁ hk₁ => Follows.only (L := ¬ r.Lists specStart)
    (R := r.Lists specStart) (Follows.docCommentOr (fun doc => ?_) (Classical.em _).symm doc)
  exact hn.documentedSpec.bind fun _ k₂ h₂ _ => .pure fun h => by omega

theorem documentedSpec_follows (doc : Option String) :
    r.Follows (¬ r.Lists specStart) (r.Lists specStart) j (documentedSpec nest doc)
      fun _ k => j < k := by
  refine Follows.kindListed fun c k hk hnew => ?_
  have hafter : ∀ {L R : Prop} {p : Parser σ Spec}, r.Follows L R k p (fun _ l => k < l) →
      r.Follows L R k p fun _ l => j < l := fun h => h.mono fun _ l hkl hlp hl => by omega
  split
  · exact hafter ((attributedSpec_follows hn doc).weaken And.right And.right)
  · exact hafter (valueSpec_follows hn doc)
  · exact hafter (typeSpec_follows hn doc)
  · exact hafter (moduleSpec_follows hn doc)
  · exact hafter (includeSpec_follows hn)
  next hattr hval htype hmodule hinclude =>
    refine .unexpectedKind ?_ hnew
    simp only [specStart, List.mem_cons, List.not_mem_nil, or_false]
    rintro e (rfl | rfl | rfl | rfl | rfl) hc <;> have hc := Option.some.inj hc <;>
      simp_all

theorem spec_follows :
    r.Follows (¬ r.Lists specStart) (r.Lists specStart) j (spec nest) fun _ k => j < k :=
  Follows.docComment (fun doc => documentedSpec_follows hn doc) (Classical.em _).symm

/-! ### Module types -/

theorem moduleTypeAtom_follows : r.Follows True False j (moduleTypeAtom nest) fun _ k => j < k := by
  refine Follows.kindLeft fun κ => ?_
  split
  · exact Follows.weaken (Follows.qualName.bind fun _ _ _ hk => .pure hk) (fun _ => trivial)
      And.left
  · refine Follows.opening fun span k hjk hk => hn.moduleType.only.bind fun inner l hkl _ => ?_
    exact (Follows.closeOnly _).only.bind fun stop m hlm _ => .pure fun hmp => by omega
  · refine Follows.opening fun span k hjk hk => ?_
    refine bracedItems_follows (by simp [specStart, Expectation.kind?]) (fun _ _ => hn.spec)
      fun specs stop l hkl => .pure fun hlp => by omega
  · exact .unexpectedPhrase And.left

theorem refinementStep_follows (base : ModuleType) :
    r.Follows False False j (refinementStep nest base) (Follows.More j) := by
  refine Follows.eatKeyword?.only.bind fun taken k₁ h₁ _ => ?_
  cases taken with
  | none => exact .pure fun _ => trivial
  | some start =>
    refine Follows.qualName.only.bind fun _ k₂ h₂ hk₂ => ?_
    refine typeParams_follows.only.bind fun _ k₃ h₃ _ => ?_
    refine Follows.expect.only.bind fun _ k₄ h₄ _ => hn.type.only.bind fun _ k₅ h₅ _ => ?_
    refine .pure fun h => ?_
    show j < k₅
    omega

theorem refinedModuleType_follows :
    r.Follows True False j (refinedModuleType nest) fun _ k => j < k :=
  (moduleTypeAtom_follows hn).bind fun base _ _ hk =>
    Follows.repeatBehind (fun base _ _ => refinementStep_follows hn base) base hk

/-- What comes after the colon of a named parameter. -/
theorem namedFunctorRest_follows (o : Opening) (name : Identifier) :
    r.Follows True False j (do
      let param ← nest.moduleType
      let _ ← Parser.close o []
      let _ ← Parser.expect .arrow
      let result ← nest.moduleType
      return ModuleType.functor (some name) param result (o.span.merge result.span))
      fun _ k => j < k := by
  refine hn.moduleType.bind fun param k₁ h₁ hk₁ => ?_
  refine (Follows.closeOnly _).only.bind fun _ k₂ h₂ _ => ?_
  refine Follows.expect.only.bind fun _ k₃ h₃ _ => hn.moduleType.only.bind fun _ k₄ h₄ _ => ?_
  exact .pure fun h => by omega

theorem namedFunctor_follows : r.Follows L R j (namedFunctor nest) fun _ k => j < k := by
  refine Follows.opening fun span k₁ h₁ hk₁ => Follows.identifier.only.bind fun name k₂ h₂ _ => ?_
  refine Follows.expect.only.bind fun _ k₃ h₃ _ => ?_
  exact (namedFunctorRest_follows hn _ name).only.mono fun _ l _ hlp _ => by omega

/-- The parenthesis, the name and the colon are taken. -/
theorem namedFunctor_clears {stream : TokenStream} {Bad : List Expectation → Prop}
    (hlt : r.place < stream.tokens.length) (hj : j ≤ r.place) (hge : r.place ≤ j + 2)
    (hname : (stream.kindAt (j + 1)).isIdentifier = true)
    (hcolon : stream.kindAt (j + 2) = .punct .colon) :
    Clears stream Bad r.place j (namedFunctor nest) := by
  have hrest : ∀ o name, Stays .onward _ := fun o name =>
    (namedFunctorRest_follows hn (j := 0) o name).stays
  refine .next ⟨_, .opening (by omega) _⟩ (fun o => Stays.identifier.bind fun name =>
    (Stays.expect _).bind fun _ => hrest o name) hj fun hj' o => ?_
  refine .next (Runs.identifier (by omega) hname) (fun name => (Stays.expect _).bind fun _ =>
    hrest o name) hj' fun hj'' name => ?_
  exact .next ⟨_, .expect (by omega) hcolon⟩ (fun _ => hrest o name) hj'' fun h => by omega

theorem moduleType_follows : r.Follows True False j (moduleType nest) fun _ k => j < k := by
  refine atNamedParameter_follows ?_ ?_ fun stream Bad hlt hj hge hname hcolon =>
    namedFunctor_clears hn hlt hj hge hname hcolon
  · exact namedFunctor_follows hn
  · refine (refinedModuleType_follows hn).bind fun param k₁ h₁ hk₁ => ?_
    refine Follows.eat?.only.bind fun taken k₂ h₂ _ => ?_
    cases taken with
    | none => exact .pure fun h => by omega
    | some arrow => exact hn.moduleType.only.bind fun _ k₃ h₃ _ => .pure fun h => by omega

theorem moduleParam_follows :
    r.Follows (r.old = .punct .leftParen) (r.new = .punct .leftParen) j (moduleParam nest)
      fun _ k => j < k := by
  refine Follows.expect.bind fun span k₁ h₁ hk₁ => Follows.identifier.only.bind fun _ k₂ h₂ _ => ?_
  refine Follows.expect.only.bind fun _ k₃ h₃ _ => hn.moduleType.only.bind fun _ k₄ h₄ _ => ?_
  exact (Follows.closeOnly _).only.bind fun _ k₅ h₅ _ => .pure fun h => by omega

end

end Futhark.Grammar
