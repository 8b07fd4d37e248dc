import Futhark.Proofs.Expected.Rules
import Futhark.Proofs.Grammar.Parameters

/-!
# Expected tokens in attributes and types

One lemma for each rule of the grammar: the outcomes of reading with an expected token in place of
another, if nested constructs have theirs. Where a rule starts with a choice by the next token, the
left side clears the place whatever stands there, since it is taken or an error names in words what
should start there. The right side does so if the new token can start what is read.
-/

namespace Futhark.Grammar

open Futhark.Parser Futhark.Parser.Replacement

variable {σ : Type} {r : Replacement} {nest : Nest σ} {j : Nat}

/-! ### Attributes -/

section

variable (hn : r.Nested nest)

include hn

theorem attributeInfo_follows : r.Follows True False j (attributeInfo nest) fun _ k => j < k := by
  refine Follows.kindLeft fun κ => ?_
  split
  · exact Follows.advanceSpan.bind fun start k hjk hk => .pure fun hkp => by omega
  · refine Follows.advanceSpan.bind fun start k hjk hk => ?_
    refine (Follows.opening? (fun l hkl _ => ?_) fun span l hkl _ => ?_).only
    · exact .pure fun hlp => by omega
    · refine Follows.commaSeparatedUntil nofun (fun _ _ => hn.attr.only) fun _ m hlm hm => ?_
      refine (Follows.closeList ⟨.leftParen, span⟩ hm).bind fun stop n hmn _ => ?_
      exact .pure fun hnp => by omega
  · exact .unexpectedPhrase And.left

theorem attr_follows : r.Follows (r.old = .punct .attributeOpen) (r.new = .punct .attributeOpen) j
    (attr nest) fun _ k => j < k := by
  refine Follows.expect.bind fun span k hjk hk => ?_
  refine (attributeInfo_follows hn).only.bind fun info l hkl _ => ?_
  exact (Follows.closeOnly _).only.bind fun stop m hlm _ => .pure fun hmp => by omega

end

/-! ### Dimensions and parameters -/

theorem malformedDimension_follows {α : Type} {o : Opening} {L R : Prop} {Q : α → Nat → Prop} :
    r.Follows L R j (malformedDimension o : Parser σ α) Q := by
  refine .fails fun s => ?_
  show ∃ e, (if (s.tokenAt 0).kind.isFinish then Parser.unclosed o
    else Parser.raise (.malformedDimension (s.tokenAt 0).kind.describe) (s.tokenAt 0).span
      : Parser σ α) s = .error e s ∧ _
  split
  · exact ⟨_, rfl, nofun⟩
  · exact ⟨_, rfl, nofun⟩

theorem closeDimension_follows {o : Opening} :
    r.Follows (r.old = .punct .rightBracket) (r.new = .punct .rightBracket) j
      (closeDimension o : Parser σ Span) fun _ k => k = j + 1 := by
  refine Follows.eat?.bind fun taken k _ hk => ?_
  cases taken with
  | some span => exact .pure hk
  | none => exact malformedDimension_follows

theorem dimension_follows :
    r.Follows (r.old = .punct .leftBracket) (r.new = .punct .leftBracket) j
      (dimension : Parser σ Dimension) fun _ k => j < k := by
  refine Follows.expect.bind fun start k hjk hk => Follows.kindAfter fun κ => ?_
  split
  · refine (closeDimension_follows.weaken Eq.symm nofun).map fun stop l hkl hlp _ => ?_
    omega
  · refine Follows.weaken (L := True) (R := False) ?_ (fun _ => trivial) id
    refine Follows.qualName.bind fun name l hkl _ => ?_
    exact closeDimension_follows.only.map fun stop m hlm hmp _ => by omega
  · split
    · refine Follows.advance.bind fun _ l hkl _ => ?_
      exact closeDimension_follows.only.map fun stop m hlm hmp _ => by omega
    · exact malformedDimension_follows
  · exact malformedDimension_follows

theorem bracketedName_follows {o : Opening} :
    r.Follows True False j (bracketedName o : Parser σ (Identifier × Span)) fun _ k => j < k := by
  refine Follows.identifier.bind fun name k hjk hk => ?_
  exact (Follows.closeOnly _).only.bind fun stop l hkl _ => .pure fun hlp => by omega

theorem typeParam?_follows :
    r.Follows (startsTypeParam r.old) (startsTypeParam r.new) j
      (typeParam? : Parser σ (Option TypeParam)) (Follows.More j) := by
  -- A bracket is not looked for where there is an apostrophe.
  have hbracket : ∀ κ κ', startsTypeParam κ' ∧ κ = κ' → liftednessOf? κ = none →
      κ' = .punct .leftBracket := by
    rintro κ _ ⟨h, rfl⟩ hnone
    by_contra hother
    exact ne_true_of_eq_false (startsTypeParam_eq_false.mpr ⟨hnone, hother⟩) h
  refine Follows.kind (fun κ => ?_) fun _ => ?_
  · split
    next liftedness hl =>
      refine Follows.advanceSpan.bind fun start k hjk hk => ?_
      refine Follows.identifier.only.bind fun name l hkl _ => .pure fun hlp => ?_
      show j < l
      omega
    next hl =>
      refine Follows.weaken (Follows.opening? (fun k _ _ => .pure fun _ => trivial)
        fun span k hjk hk => ?_) (fun h => hbracket κ _ h hl) fun h => hbracket κ _ h hl
      refine bracketedName_follows.only.bind fun _ l hkl _ => .pure fun hlp => ?_
      show j < l
      omega
  · by_cases hold : startsTypeParam r.old
    · exact .inl hold
    · refine .inr (or_iff_not_imp_left.mpr fun hnew => ?_)
      rw [(startsTypeParam_eq_false.mp (eq_false_of_ne_true hold)).1,
        (startsTypeParam_eq_false.mp (eq_false_of_ne_true hnew)).1]

theorem typeParams_follows :
    r.Follows (startsTypeParam r.old) (startsTypeParam r.new) j
      (typeParams : Parser σ (List TypeParam)) fun _ _ => True :=
  Follows.many fun _ _ => typeParam?_follows

/-! ### Types -/

theorem arrayType_follows {element : Parser σ TypeExpr} {R : Prop} {Q : Nat → TypeExpr → Nat → Prop}
    (h : ∀ k, r.Follows True R k element (Q k)) :
    r.Follows (r.old = .punct .leftBracket) (r.new = .punct .leftBracket) j (arrayType element)
      fun _ k => j < k :=
  dimension_follows.bind fun _ k _ _ => (h k).only.bind fun _ l hkl _ => .pure fun hlp => by omega

/-- **Whether a parameter with a name comes next.** The parenthesis, the name and the colon are
taken if so. -/
theorem atNamedParameter_follows {α : Type} {L R : Prop} {f : Bool → Parser σ α}
    {Q : α → Nat → Prop} (htrue : r.Follows L R j (f true) Q) (hfalse : r.Follows L R j (f false) Q)
    (htakes : ∀ (stream : TokenStream) (Bad : List Expectation → Prop),
      r.place < stream.tokens.length → j ≤ r.place → r.place ≤ j + 2 →
      (stream.kindAt (j + 1)).isIdentifier = true → stream.kindAt (j + 2) = .punct .colon →
      Clears stream Bad r.place j (f true)) :
    r.Follows L R j (atNamedParameter >>= f) Q := by
  refine Follows.chooseAhead (fun v => v.kind = .punct .leftParen && v.second.isIdentifier
    && v.third = .punct .colon) 2 (fun _ => rfl) (fun _ _ hk => htrue.far fun h => (hk h).1)
    (fun _ _ hk => hfalse.far fun h => (hk h).1) (fun hlt => ?_) ?_
  · rw [View.kind_eq (by omega), View.second_eq (by omega), View.third_eq hlt]
  · intro stream Bad hlt hj hge hseen
    simp only [Bool.and_eq_true, decide_eq_true_eq] at hseen
    exact htakes stream Bad hlt hj hge hseen.1.2 hseen.2

section

variable (hn : r.Nested nest)

include hn

theorem parenthesizedType_follows {L R : Prop} :
    r.Follows L R j (parenthesizedType nest) fun _ k => j < k := by
  refine Follows.opening fun span k hjk hk => Follows.eat?.only.bind fun taken l hkl _ => ?_
  cases taken with
  | some stop => exact .pure fun hlp => by omega
  | none =>
    refine (Follows.commaSeparated fun _ _ => hn.type.only).bind fun elements m hlm hm => ?_
    refine (Follows.closeList _ fun h => (hm h.le).2 h).only.bind fun stop n hmn _ => ?_
    dsimp only
    split <;> exact .pure fun hnp => by omega

theorem typeField_follows : r.Follows True False j (typeField nest) fun _ k => j < k := by
  refine Follows.fieldName.bind fun name k hjk hk => Follows.expect.only.bind fun _ l hkl _ => ?_
  exact hn.type.only.bind fun type m hlm _ => .pure fun hmp => by omega

theorem recordType_follows {L R : Prop} :
    r.Follows L R j (recordType nest) fun _ k => j < k := by
  refine Follows.opening fun span k hjk hk => ?_
  refine Follows.commaSeparatedUntil nofun (fun _ _ => (typeField_follows hn).only)
    fun fields l hkl hl => ?_
  exact (Follows.closeList ⟨.leftBrace, span⟩ hl).bind fun stop m hlm _ => .pure fun hmp => by omega

theorem typeAtom_follows :
    r.Follows True (startsTypeAtom r.new = true) j (typeAtom nest) fun _ k => j < k := by
  refine Follows.kindLeft fun κ => ?_
  split
  · refine Follows.weaken (Follows.qualName.map fun _ _ _ _ hk => hk) (fun _ => trivial) fun h => ?_
    exact absurd h.2 new_ne_identifier
  · exact parenthesizedType_follows hn
  · exact recordType_follows hn
  · exact (arrayType_follows fun _ => hn.typeAtom).weaken Eq.symm fun h => h.2.symm
  · refine .unexpectedPhrase ?_
    rintro ⟨hstarts, hκ⟩
    rw [← hκ] at hstarts
    clear hκ
    cases κ <;> simp_all [startsTypeAtom]

theorem sumConstructor_follows : r.Follows True False j (sumConstructor nest) fun _ k => j < k := by
  refine Follows.kindLeft fun κ => ?_
  split
  · refine Follows.advanceSpan.bind fun tag k hjk hk => ?_
    refine (Follows.manyMore fun l _ => ?_).bind fun arguments l hkl _ => .pure fun hlp => by omega
    have hatom : r.Follows (startsTypeAtom r.old = true) (startsTypeAtom r.new = true) l
        (typeAtom nest) fun _ k => l < k := (typeAtom_follows hn).weaken (fun _ => trivial) id
    exact (Follows.itemIf startsTypeAtom (g := id) hatom).only
  · exact .unexpectedPhrase And.left

theorem sumType_follows (leadingBar : Option Span) :
    r.Follows True False j (sumType nest leadingBar) fun _ k => j < k := by
  refine (sumConstructor_follows hn).bind fun first k hjk hk => ?_
  refine (Follows.manyMore fun l _ => Follows.eat?.only.bind fun taken m hlm hm => ?_).bind
    fun others l hkl _ => .pure fun hlp => by omega
  cases taken with
  | none => exact .pure fun _ => trivial
  | some bar =>
    refine Follows.kindAfter fun κ => ?_
    split
    · refine Follows.weaken ((sumConstructor_follows hn).bind fun a n hmn hn => .pure fun hnp => ?_)
        (fun _ => trivial) id
      show l < n
      omega
    · exact .raise nofun

theorem typeArg?_follows :
    r.Follows (startsTypeAtom r.old = true) (startsTypeAtom r.new = true) j (typeArg? nest)
      (Follows.More j) := by
  refine Follows.kindAmong (startsTypeAtom · = true) (Pure.pure none) (fun κ hκ => ?_)
    (fun κ hκ => ?_) (.pure fun _ => trivial)
  · have hatom : r.Follows (κ = r.old) (κ = r.new) j
        (typeAtom nest >>= fun type => Pure.pure (some (TypeArg.type type))) (Follows.More j) := by
      refine Follows.weaken ((typeAtom_follows hn).bind fun a k _ hk => .pure hk)
        (fun _ => trivial) ?_
      rintro rfl
      exact hκ
    split
    · exact Follows.weaken (dimension_follows.bind fun d k _ hk => .pure hk) Eq.symm Eq.symm
    · exact hatom
    · exact hatom
    · exact hatom
    next hbracket hname hparen hbrace =>
      refine absurd hκ ?_
      clear hatom
      cases κ <;> simp_all [startsTypeAtom]
  · split <;> first | rfl | simp_all [startsTypeAtom]

theorem typeApplication_follows :
    r.Follows True (startsTypeAtom r.new = true) j (typeApplication nest) fun _ k => j < k := by
  refine (typeAtom_follows hn).bind fun head k hjk hk => ?_
  split
  · exact Follows.repeatBehind (fun _ _ _ => (typeArg?_follows hn).only.mapMore) head hk
  · exact .pure hk

theorem typeTerm_follows : r.Follows True False j (typeTerm nest) fun _ k => j < k := by
  refine Follows.kindLeft fun κ => ?_
  split
  · refine Follows.advanceSpan.bind fun star k hjk hk => ?_
    exact hn.typeTerm.only.bind fun inner l hkl _ => .pure fun hlp => by omega
  · exact (arrayType_follows fun _ => hn.typeTerm).weaken Eq.symm (·.1.elim)
  · exact (sumType_follows hn none).weaken (fun _ => trivial) And.left
  · have hsum : ∀ bar, r.Follows True False r.place (sumType nest (some bar))
        fun _ k => r.place < k := fun bar => sumType_follows hn (some bar)
    have hnone : ∀ s : State σ, ∃ e, (Parser.here >>= fun span =>
        (Parser.raise .emptySumType span : Parser σ TypeExpr)) s = .error e s ∧
        ∀ expected found, e.cause ≠ .unexpectedToken expected found := fun s => ⟨_, rfl, nofun⟩
    refine (Follows.second (L := True) (R := False) (fun κ' => ?_) (fun _ => .inl trivial)
      fun hplace => .inl ?_).weaken (fun _ => trivial) And.left
    · split
      · refine Follows.advanceSpan.bind fun bar k hjk hk => ?_
        exact (sumType_follows hn (some bar)).only.mono fun _ l hkl hlp _ => by omega
      · exact .fails hnone
    -- A constructor after the bar is taken, and nothing but a constructor is accepted there.
    · split
      · have hlt := r.lt
        refine .after (Runs.advanceSpan (by omega)) ?_
        rw [hplace]
        exact (hsum _).left trivial
      · exact .fails hnone
  · exact (typeApplication_follows hn).weaken (fun _ => trivial) (fun h => h.1.elim)

theorem functionResult_follows {L R : Prop} (start : Span) (name : Option Identifier)
    (param : TypeExpr) :
    r.Follows L R j (functionResult nest start name param) fun _ k => j < k := by
  refine Follows.advance.bind fun _ k hjk hk => ?_
  exact hn.type.only.bind fun result l hkl _ => .pure fun hlp => by omega

/-- What comes after the colon of a named parameter. The arrow, which is only looked for, is taken
by the function it is a parameter of. -/
theorem namedFunctionRest_follows (start : Span) (o : Opening) (name : Identifier) :
    r.Follows True False j (do
      let param ← nest.type
      let _ ← Parser.close o []
      if ← Parser.at? .arrow then functionResult nest start (some name) param
      else Parser.unexpected [.punct .arrow]) fun _ k => j < k := by
  refine hn.type.bind fun param k hjk hk => (Follows.closeOnly _).only.bind fun _ l hkl hl => ?_
  refine (Follows.ifAt (fun m hlm _ => ?_) fun m hlm hm => ?_).only
  · exact (functionResult_follows hn start _ param).mono fun _ n hmn hnp _ => by omega
  · exact .unexpected (fun h => not_lists_punct (Follows.ne_of_not_taken hm (h.resolve_left id))) id

omit hn in
theorem namedFunction_eq (start : Span) :
    (do
      let (name, param) ← namedParameter nest
      functionResult nest start (some name) param) = (do
      let o ← Parser.opening .leftParen
      let name ← Parser.identifier
      let _ ← Parser.advance
      let param ← nest.type
      let _ ← Parser.close o []
      if ← Parser.at? .arrow then functionResult nest start (some name) param
      else Parser.unexpected [.punct .arrow]) := by
  unfold namedParameter
  simp only [bind_assoc]
  refine congrArg _ (funext fun o => congrArg _ (funext fun name => ?_))
  refine congrArg _ (funext fun _ => ?_)
  refine congrArg _ (funext fun param => congrArg _ (funext fun _ => ?_))
  refine congrArg _ (funext fun next => ?_)
  split
  · rfl
  · rfl

theorem namedFunction_follows {L R : Prop} (start : Span) :
    r.Follows L R j (do
      let (name, param) ← namedParameter nest
      functionResult nest start (some name) param) fun _ k => j < k := by
  rw [namedFunction_eq]
  refine Follows.opening fun span k hjk hk => Follows.identifier.only.bind fun name l hkl _ => ?_
  refine Follows.advance.bind fun _ m hlm _ => ?_
  exact (namedFunctionRest_follows hn start _ name).only.mono fun _ n hmn hnp _ => by omega

/-- The parenthesis, the name and the colon are taken. -/
theorem namedFunction_clears (start : Span) {stream : TokenStream} {Bad : List Expectation → Prop}
    (hlt : r.place < stream.tokens.length) (hj : j ≤ r.place) (hge : r.place ≤ j + 2)
    (hname : (stream.kindAt (j + 1)).isIdentifier = true) :
    Clears stream Bad r.place j (do
      let (name, param) ← namedParameter nest
      functionResult nest start (some name) param) := by
  have hrest : ∀ o name, Stays .onward (do
      let param ← nest.type
      let _ ← Parser.close o []
      if ← Parser.at? .arrow then functionResult nest start (some name) param
      else Parser.unexpected [.punct .arrow]) := fun o name =>
    (namedFunctionRest_follows (j := 0) hn start o name).stays
  rw [namedFunction_eq]
  refine .next ⟨_, .opening (by omega) _⟩ (fun o => Stays.identifier.bind fun name =>
    Stays.advance.bind fun _ => hrest o name) hj fun hj' o => ?_
  refine .next (Runs.identifier (by omega) hname) (fun name => Stays.advance.bind fun _ =>
    hrest o name) hj' fun hj'' name => ?_
  exact .next ⟨_, .advance (by omega)⟩ (fun _ => hrest o name) hj'' fun h => by omega

theorem existentialType_follows {L R : Prop} :
    r.Follows L R j (existentialType nest) fun _ k => j < k := by
  refine Follows.advanceSpan.bind fun start k hjk hk => ?_
  refine Follows.bind (Q := fun _ l => l = r.place → r.new ≠ .punct .leftBracket)
    (Follows.many fun l _ => ?_) fun sizes l hkl hl => ?_
  · refine (Follows.opening? (fun m _ hm => ?_) fun span m hlm hm => ?_).only
    · exact .pure fun _ => Follows.ne_of_not_taken hm
    · refine bracketedName_follows.only.bind fun size n hmn _ => .pure fun hnp => ?_
      show l < n
      omega
  · split
    · refine .unexpected (fun h => not_lists_punct ?_) id
      exact hl (h.resolve_left id).le (h.resolve_left id)
    · refine Follows.expect.only.bind fun _ m hlm _ => hn.type.only.bind fun body n hmn _ => ?_
      exact .pure fun hnp => by omega

theorem type_follows : r.Follows True False j (type nest) fun _ k => j < k := by
  refine Follows.at? (fun k hjk hk => ?_) (fun k hjk hk => ?_) fun _ => .inl trivial
  · exact (existentialType_follows hn).mono fun _ l hkl hlp _ => by omega
  · refine Follows.weaken (L := True) (R := False) (Follows.here (fun start => ?_)
      fun _ => .inl trivial) (fun _ => trivial) (·.1.elim)
    refine atNamedParameter_follows ?_ ?_ fun stream Bad hlt hk' hge hname _ =>
      namedFunction_clears hn start hlt hk' hge hname
    · exact (namedFunction_follows hn start).mono fun _ l hkl hlp _ => by omega
    · refine (typeTerm_follows hn).bind fun term l hkl hl => ?_
      refine (Follows.ifAt (fun m hlm _ => ?_) fun m hlm _ => ?_).only
      · exact (functionResult_follows hn start _ term).mono fun _ n hmn hnp _ => by omega
      · exact .pure fun hmp => by omega

end

end Futhark.Grammar
